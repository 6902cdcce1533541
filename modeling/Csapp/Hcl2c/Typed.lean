import Mathlib
import Csapp.Hcl2c.Correct

/-!
# Files that compile

A check of the source expressions themselves, without their nodes: every variable
is declared, and every argument is of the kind its place asks for. What passes it
is compiled without an error, whatever else the file holds.
-/

namespace Csapp.Hcl2c

/-- There is no arm. -/
def Arms.isNil : Arms → Bool
  | .nil => true
  | .cons .. => false

/-- The expression can stand where a Boolean, or where a word is expected. -/
def Expr.fits (tab : List Sym) (wantbool : Bool) : Expr → Bool
  | .var name => (findSymbol tab name).any (·.isbool = wantbool)
  | .num name => !wantbool || name = "0" || name = "1"
  | .case _ => !wantbool
  | .not _ | .and _ _ | .or _ _ | .comp _ _ _ | .ele _ _ _ => wantbool

mutual

/-- Every variable is declared and every argument has its type. -/
def Expr.ok (tab : List Sym) : Expr → Bool
  | .var name => (findSymbol tab name).isSome
  | .num _ => true
  | .not e => e.ok tab && e.fits tab true
  | .and a b => a.ok tab && b.ok tab && (a.fits tab true && b.fits tab true)
  | .or a b => a.ok tab && b.ok tab && (a.fits tab true && b.fits tab true)
  | .comp _ a b => a.ok tab && b.ok tab && (a.fits tab false && b.fits tab false)
  | .ele a e es => a.ok tab && (e.ok tab && es.ok tab) && a.fits tab false
  | .case arms => !arms.isNil && arms.ok tab

/-- So in every element. -/
def Exprs.ok (tab : List Sym) : Exprs → Bool
  | .nil => true
  | .cons e es => e.ok tab && es.ok tab

/-- So in every arm. -/
def Arms.ok (tab : List Sym) : Arms → Bool
  | .nil => true
  | .cons c v arms =>
    c.ok tab && v.ok tab && (c.fits tab true && v.fits tab false) && arms.ok tab

end

/-! ## The checks of the nodes -/

theorem Arms.build_nodes {tab : List Sym} {arms : Arms} {n : Node} (h : n ∈ (arms.build tab).1) :
    ∃ c v, n = .mk .case false ":" c v := by
  match arms with
  | .nil => cases h
  | .cons c v arms =>
      simp only [Arms.build, makeCase, after, List.singleton_append] at h
      rcases List.mem_cons.mp h with rfl | h
      · exact ⟨_, _, rfl⟩
      · exact Arms.build_nodes h

/-- The check of the source is the check of every node the pointer leads to. -/
theorem Expr.fits_node {tab : List Sym} {b : Bool} {e : Expr} (h : e.fits tab b = true) {n : Node}
    (hn : n ∈ (e.build tab).1) (next : NodePtr) : checkArg tab (n :: next) b = 0 := by
  cases e with
  | var name =>
      obtain rfl := List.mem_singleton.mp hn
      rw [Expr.fits, Option.any_eq_true] at h
      obtain ⟨qval, hf, hq⟩ := h
      rw [checkArg]
      simp only [hf]
      exact if_neg (by simpa using (of_decide_eq_true hq).symm)
  | num name =>
      obtain rfl := List.mem_singleton.mp hn
      rw [Expr.fits] at h
      rw [checkArg]
      refine if_neg ?_
      rintro ⟨rfl, h0, h1⟩
      simp [h0, h1] at h
  | case arms =>
      obtain ⟨c, v, rfl⟩ := Arms.build_nodes hn
      rw [Expr.fits, Bool.not_eq_true'] at h
      rw [h]
      rfl
  | not | and | or | comp | ele =>
      obtain rfl := List.mem_singleton.mp hn
      rw [Expr.fits] at h
      rw [h]
      rfl

theorem Expr.build_ne_nil {tab : List Sym} {e : Expr} (h : e.ok tab = true) :
    (e.build tab).1 ≠ [] := by
  cases e with
  | case arms =>
      cases arms with
      | nil => cases h
      | cons c v arms => exact List.cons_ne_nil _ _
  | var | num | not | and | or | comp | ele => exact List.cons_ne_nil _ _

theorem Expr.fits_check {tab : List Sym} {b : Bool} {e : Expr} (hok : e.ok tab = true)
    (h : e.fits tab b = true) : checkArg tab (e.build tab).1 b = 0 := by
  obtain ⟨n, next, hn⟩ := List.exists_cons_of_ne_nil (Expr.build_ne_nil hok)
  rw [hn]
  exact e.fits_node h (by rw [hn]; exact List.mem_cons_self) next

/-- An argument of a set is checked twice. -/
theorem makeEle_errs {tab : List Sym} {e : Expr} (hok : e.ok tab = true)
    (h : e.fits tab false = true) (arg2 : NodePtr) :
    (makeEle tab (e.build tab).1 arg2).2 = 0 := by
  rw [makeEle, Expr.fits_check hok h, Nat.zero_add]
  refine List.sum_eq_zero fun k hk => ?_
  obtain ⟨n, hn, rfl⟩ := List.mem_map.mp hk
  exact e.fits_node h hn []

/-! ## Generation -/

/-- The code is generated without an error. -/
def Generates (code : Option (List Out)) : Prop := ∃ out, code = some out ∧ errcnt out = 0

theorem Generates.paren {code : Option (List Out)} (h : Generates code) :
    Generates (code.map genParen) := by
  obtain ⟨out, rfl, ho⟩ := h
  exact ⟨_, rfl, (errcnt_genParen out).trans ho⟩

theorem Generates.bin {a b : Option (List Out)} (fmt arg : String) (ha : Generates a)
    (hb : Generates b) : Generates (genBin (.print fmt arg) a b) := by
  obtain ⟨oa, rfl, hoa⟩ := ha
  obtain ⟨ob, rfl, hob⟩ := hb
  exact ⟨_, rfl, by rw [errcnt_genParen, errcnt_print, hoa, hob]⟩

theorem Generates.element {tab : List Sym} {oa : List Out} {n : Node} {next : NodePtr}
    (hoa : errcnt oa = 0) (hn : n.type ≠ .case) (he : Generates (genExpr tab [n]))
    (hr : Generates (genEle tab (some oa) next)) :
    Generates (genEle tab (some oa) (n :: next)) := by
  obtain ⟨oe, hge, hoe⟩ := he
  obtain ⟨r, hgr, hor⟩ := hr
  rw [genEle, genExpr_head hn, hge]
  simp only [Option.bind_some, hgr]
  refine ⟨_, rfl, ?_⟩
  rw [errcnt_print, errcnt_append, errcnt_append, hoa, hoe, hor]
  split_ifs <;> rfl

mutual

/-- What passes the check has its node built and its code generated without an
error. -/
theorem Expr.generates {tab : List Sym} {e : Expr} (h : e.ok tab = true) (hp : e.plain = true) :
    (e.build tab).2 = 0 ∧ Generates (genExpr tab (e.build tab).1) := by
  match e with
  | .var name =>
      obtain ⟨qval, hf⟩ := Option.isSome_iff_exists.mp h
      refine ⟨rfl, ?_⟩
      rw [Expr.build, makeVar, genExpr, genVar, hf]
      exact ⟨_, rfl, rfl⟩
  | .num name =>
      refine ⟨rfl, ?_⟩
      rw [Expr.build, makeNum, genExpr]
      exact ⟨_, rfl, rfl⟩
  | .not a =>
      rw [Expr.ok, Bool.and_eq_true] at h
      rw [Expr.plain] at hp
      obtain ⟨ha, oa, hga, hoa⟩ := Expr.generates h.1 hp
      simp only [Expr.build, makeNot, after, ha, Expr.fits_check h.1 h.2, genExpr, hga]
      exact ⟨trivial, _, rfl, by simpa using hoa⟩
  | .and a b =>
      simp only [Expr.ok, Bool.and_eq_true] at h
      rw [Expr.plain, Bool.and_eq_true] at hp
      obtain ⟨ha, hga⟩ := Expr.generates h.1.1 hp.1
      obtain ⟨hb, hgb⟩ := Expr.generates h.1.2 hp.2
      simp only [Expr.build, makeAnd, after, ha, hb, Expr.fits_check h.1.1 h.2.1,
        Expr.fits_check h.1.2 h.2.2, genExpr]
      exact ⟨trivial, hga.bin _ _ hgb⟩
  | .or a b =>
      simp only [Expr.ok, Bool.and_eq_true] at h
      rw [Expr.plain, Bool.and_eq_true] at hp
      obtain ⟨ha, hga⟩ := Expr.generates h.1.1 hp.1
      obtain ⟨hb, hgb⟩ := Expr.generates h.1.2 hp.2
      simp only [Expr.build, makeOr, after, ha, hb, Expr.fits_check h.1.1 h.2.1,
        Expr.fits_check h.1.2 h.2.2, genExpr]
      exact ⟨trivial, hga.bin _ _ hgb⟩
  | .comp op a b =>
      simp only [Expr.ok, Bool.and_eq_true] at h
      rw [Expr.plain, Bool.and_eq_true] at hp
      obtain ⟨ha, hga⟩ := Expr.generates h.1.1 hp.1
      obtain ⟨hb, hgb⟩ := Expr.generates h.1.2 hp.2
      simp only [Expr.build, makeComp, after, ha, hb, Expr.fits_check h.1.1 h.2.1,
        Expr.fits_check h.1.2 h.2.2, genExpr]
      exact ⟨trivial, hga.bin _ _ hgb⟩
  | .ele a e es =>
      simp only [Expr.ok, Bool.and_eq_true] at h
      simp only [Expr.plain, Bool.and_eq_true, Bool.not_eq_true'] at hp
      obtain ⟨ha, oa, hga, hoa⟩ := Expr.generates h.1.1 hp.1
      obtain ⟨he, oe, hge, hoe⟩ := Expr.generates h.1.2.1 hp.2.1.2
      obtain ⟨hes, hges⟩ := Exprs.generates h.1.2.2 hp.2.2
      obtain ⟨n, hn, htype⟩ := @Expr.build_single tab _ hp.2.1.1
      have herrs := makeEle_errs h.1.1 h.2 ((e.build tab).1 ++ (es.build tab).1)
      rw [Expr.build, after, ha, he, hes, herrs, makeEle]
      refine ⟨rfl, ?_⟩
      rw [genExpr]
      refine Generates.paren ?_
      rw [hn] at hge ⊢
      rw [hga]
      exact Generates.element hoa htype ⟨oe, hge, hoe⟩ (hges oa hoa)
  | .case arms =>
      simp only [Expr.ok, Bool.and_eq_true] at h
      rw [Expr.plain] at hp
      obtain ⟨hb, hg⟩ := Arms.generates h.2 hp
      refine ⟨hb, ?_⟩
      rw [Expr.build]
      cases arms with
      | nil => cases h.1
      | cons c v arms =>
          simp only [Arms.build, makeCase, after, List.singleton_append] at hg ⊢
          rw [genExpr]
          exact hg.paren

theorem Exprs.generates {tab : List Sym} {es : Exprs} (h : es.ok tab = true)
    (hp : es.plain = true) :
    (es.build tab).2 = 0 ∧
      ∀ oa, errcnt oa = 0 → Generates (genEle tab (some oa) (es.build tab).1) := by
  match es with
  | .nil =>
      refine ⟨rfl, fun oa _ => ⟨[], ?_, rfl⟩⟩
      rw [Exprs.build, genEle]
  | .cons e es =>
      rw [Exprs.ok, Bool.and_eq_true] at h
      simp only [Exprs.plain, Bool.and_eq_true, Bool.not_eq_true'] at hp
      obtain ⟨he, hge⟩ := Expr.generates h.1 hp.1.2
      obtain ⟨hes, hges⟩ := Exprs.generates h.2 hp.2
      obtain ⟨n, hn, htype⟩ := @Expr.build_single tab _ hp.1.1
      rw [Exprs.build, he, hes]
      refine ⟨rfl, fun oa hoa => ?_⟩
      rw [hn] at hge ⊢
      exact Generates.element hoa htype hge (hges oa hoa)

theorem Arms.generates {tab : List Sym} {arms : Arms} (h : arms.ok tab = true)
    (hp : arms.plain = true) :
    (arms.build tab).2 = 0 ∧ Generates (genArms tab (arms.build tab).1) := by
  match arms with
  | .nil =>
      refine ⟨rfl, [.print "0" ""], ?_, rfl⟩
      rw [Arms.build, genArms]
  | .cons c v arms =>
      simp only [Arms.ok, Bool.and_eq_true] at h
      simp only [Arms.plain, Bool.and_eq_true] at hp
      obtain ⟨hc, oc, hgc, hoc⟩ := Expr.generates h.1.1.1 hp.1.1
      obtain ⟨hv, ov, hgv, hov⟩ := Expr.generates h.1.1.2 hp.1.2
      obtain ⟨ha, r, hgr, hor⟩ := Arms.generates h.2 hp.2
      simp only [Arms.build, makeCase, after, hc, hv, ha, Expr.fits_check h.1.1.1 h.1.2.1,
        Expr.fits_check h.1.1.2 h.1.2.2, List.singleton_append]
      refine ⟨trivial, ?_⟩
      obtain ⟨n, next, hn⟩ := List.exists_cons_of_ne_nil (Expr.build_ne_nil h.1.1.1)
      obtain ⟨t, b, s, a1, a2⟩ := n
      rw [hn] at hgc ⊢
      rw [genArms]
      split_ifs
      · exact ⟨ov, hgv, hov⟩
      · rw [hgc, hgv, hgr]
        exact ⟨_, rfl, by rw [errcnt_print, errcnt_print, hoc, hov, hor]⟩

end

/-! ## A whole file -/

/-- The check of a statement behind the declarations `tab`. -/
def Statement.ok (tab : List Sym) : Statement → Bool
  | .quote _ => true
  | .sig _ _ _ => tab.length < symLim
  | .funct isbool _ expr => expr.ok tab && expr.plain && expr.fits tab isbool

/-- So in every statement, behind the declarations before it. -/
def fileOk (tab : List Sym) : List Statement → Bool
  | [] => true
  | s :: ss => s.ok tab && fileOk (tab ++ declared [s]) ss

theorem fileOk_plain {tab : List Sym} {ss : List Statement} (h : fileOk tab ss = true)
    {isbool : Bool} {var : String} {e : Expr} (he : .funct isbool var e ∈ ss) :
    e.plain = true := by
  induction ss generalizing tab with
  | nil => cases he
  | cons s ss ih =>
      rw [fileOk, Bool.and_eq_true] at h
      rcases List.mem_cons.mp he with rfl | he
      · simp only [Statement.ok, Bool.and_eq_true] at h
        exact h.1.1.2
      · exact ih h.2 he

theorem Statement.exec_ok {c : Compiler} {s : Statement} (h : s.ok c.tab = true) :
    ∃ out, s.exec c = some ⟨c.tab ++ declared [s], c.out ++ out⟩ ∧ errcnt out = 0 := by
  cases s with
  | quote qstring => exact ⟨_, congrArg some (by rw [declared, declared, List.append_nil]), rfl⟩
  | sig isbool var qstring =>
      rw [Statement.ok, decide_eq_true_eq] at h
      refine ⟨[], ?_, rfl⟩
      rw [Statement.exec, addArg, if_neg (by omega), List.append_nil]
      rfl
  | funct isbool var expr =>
      simp only [Statement.ok, Bool.and_eq_true] at h
      obtain ⟨he, body, hg, hb⟩ := Expr.generates h.1.1 h.1.2
      refine ⟨genHeader var ++ (body ++ genFooter), ?_, ?_⟩
      · rw [Statement.exec, genFunct, if_neg (Expr.build_ne_nil h.1.1), hg, he,
          Expr.fits_check h.1.1 h.2, declared, declared, List.append_nil]
        rfl
      · rw [errcnt_append, errcnt_append, hb]
        rfl

/-- A file that passes the check compiles. -/
theorem compile_ok {file : List Statement} (h : fileOk [] file = true) :
    ∃ out, compile file = some out := by
  have hrun : ∀ (ss : List Statement) (c : Compiler), errcnt c.out = 0 → fileOk c.tab ss = true →
      ∃ c', yyparse c ss = some c' ∧ errcnt c'.out = 0 := by
    intro ss
    induction ss with
    | nil => exact fun c hc _ => ⟨c, rfl, hc⟩
    | cons s ss ih =>
        intro c hc hok
        rw [fileOk, Bool.and_eq_true] at hok
        obtain ⟨out, hs, ho⟩ := Statement.exec_ok hok.1
        rw [yyparse, hs]
        exact ih _ (by rw [errcnt_append, hc, ho]) hok.2
  obtain ⟨c, hc, hz⟩ := hrun file ⟨[], []⟩ rfl h
  exact ⟨c.out, by rw [compile, hc, Option.bind_some, if_pos hz]⟩

/-- `word out = [ c && !(x in { 1, 2 }) : x; 1 : -1; ];` behind its declarations. -/
def sample : Expr :=
  .case (.cons (.and (.var "c") (.not (.ele (.var "x") (.num "1") (.cons (.num "2") .nil))))
    (.var "x") (.cons (.num "1") (.num "-1") .nil))

theorem compile_correct_sample :
    ∃ out, compile [.sig true "c" "cond", .sig false "x" "p->x", .funct false "out" sample] =
        some out ∧
      ∃ pre body post c, out = pre ++ (genHeader "out" ++ (body ++ genFooter)) ++ post ∧
        CDerives 0 (toks body) c ∧ (∀ c', CDerives 0 (toks body) c' → c' = c) ∧
        ∀ env, BoolEnv [⟨"c", "cond", true⟩, ⟨"x", "p->x", false⟩] env →
          ceval env c = sample.value (signals [⟨"c", "cond", true⟩, ⟨"x", "p->x", false⟩] env) ∧
          (false = true → ceval env c = 0 ∨ ceval env c = 1) := by
  have hok : fileOk [] [.sig true "c" "cond", .sig false "x" "p->x",
      .funct false "out" sample] = true := by decide
  have hp : sample.plain = true := by decide
  obtain ⟨out, h⟩ := compile_ok hok
  exact ⟨out, h, @compile_correct _ [.sig true "c" "cond", .sig false "x" "p->x"] [] _ _ _ _
    h rfl hp⟩

end Csapp.Hcl2c
