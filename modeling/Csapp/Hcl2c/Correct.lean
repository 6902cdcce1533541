import Mathlib
import Csapp.Hcl2c.Meaning

/-!
# The generated C computes the HCL

Whatever `gen_expr` prints without an error is an operand of the C grammar, so it
can stand wherever it is put, and its value is that of the HCL expression. Logic
is printed with the bitwise operators; that this is right rests on the checks of
the arguments, which leave only zero and one.

The result is for files that number without superfluous zeros, which C reads in
octal, and that put no case expression directly into a set: the elements of a set
and the arms of a case expression are linked through the same field.
-/

namespace Csapp.Hcl2c

/-! ## The expressions in question -/

/-- A number of HCL that C reads alike. -/
def plainNum (s : String) : Bool :=
  let digits := if (text s).head? = some 45 then (text s).tail else text s
  digits ≠ [] && digits.all isDigit && (digits.head? ≠ some 48 || digits = [48])

/-- It is a case expression. -/
def Expr.isCase : Expr → Bool
  | .case _ => true
  | _ => false

mutual

/-- No superfluous zeros in front of a number, and no case expression in a set. -/
def Expr.plain : Expr → Bool
  | .var _ => true
  | .num name => plainNum name
  | .not e => e.plain
  | .and a b => a.plain && b.plain
  | .or a b => a.plain && b.plain
  | .comp _ a b => a.plain && b.plain
  | .ele a e es => a.plain && (!e.isCase && e.plain && es.plain)
  | .case arms => arms.plain

/-- So are the elements of a set. -/
def Exprs.plain : Exprs → Bool
  | .nil => true
  | .cons e es => !e.isCase && e.plain && es.plain

/-- So are the arms of a case expression. -/
def Arms.plain : Arms → Bool
  | .nil => true
  | .cons c v arms => c.plain && v.plain && arms.plain

end

/-! ## Values -/

/-- The value of a signal: that of its quoted string. -/
def signals (tab : List Sym) (env : String → Int) (name : String) : Int :=
  match findSymbol tab name with
  | some qval => env qval.sval
  | none => 0

/-- What is declared Boolean is zero or one. -/
def BoolEnv (tab : List Sym) (env : String → Int) : Prop :=
  ∀ q ∈ tab, q.isbool = true → env q.sval = 0 ∨ env q.sval = 1

theorem ofBool_bit (b : Bool) : ofBool b = 0 ∨ ofBool b = 1 := by
  cases b
  · exact .inl rfl
  · exact .inr rfl

theorem atoll_zero : atoll "0" = 0 := by decide

theorem atoll_one : atoll "1" = 1 := by decide

/-- An expression that is accepted as Boolean is zero or one. -/
theorem Expr.value_bit {tab : List Sym} {env : String → Int} (henv : BoolEnv tab env) {e : Expr}
    (h : checkArg tab (e.build tab).1 true = 0) :
    e.value (signals tab env) = 0 ∨ e.value (signals tab env) = 1 := by
  cases e with
  | var name =>
      rw [Expr.build, makeVar, checkArg] at h
      rw [Expr.value, signals]
      cases hf : findSymbol tab name with
      | none => exact .inl rfl
      | some qval =>
          simp only [hf] at h
          refine henv qval (List.mem_of_find?_eq_some hf) ?_
          by_contra hq
          simp [hq] at h
  | num name =>
      rw [Expr.build, makeNum, checkArg] at h
      rw [Expr.value]
      by_cases h0 : name = "0"
      · rw [h0]
        exact .inl atoll_zero
      · by_cases h1 : name = "1"
        · rw [h1]
          exact .inr atoll_one
        · simp [h0, h1] at h
  | case arms =>
      exfalso
      rw [Expr.build] at h
      cases arms with
      | nil => simp [Arms.build, checkArg] at h
      | cons c v arms => simp [Arms.build, makeCase, after, checkArg] at h
  | not | and | or | comp | ele =>
      rw [Expr.value]
      exact ofBool_bit _

/-! ## Errors and tokens of a list of calls -/

@[simp] theorem errcnt_cons (o : Out) (out : List Out) :
    errcnt (o :: out) = errcnt out + if o = .error then 1 else 0 := by
  rw [errcnt, errcnt, List.count_cons]
  simp only [beq_iff_eq]

@[simp] theorem errcnt_nil : errcnt [] = 0 := rfl

@[simp] theorem errcnt_append (a b : List Out) : errcnt (a ++ b) = errcnt a + errcnt b :=
  List.count_append ..

@[simp] theorem toks_cons (o : Out) (out : List Out) : toks (o :: out) = o.toks ++ toks out := rfl

@[simp] theorem toks_nil : toks [] = [] := rfl

@[simp] theorem toks_append (a b : List Out) : toks (a ++ b) = toks a ++ toks b :=
  List.flatMap_append

@[simp] theorem errcnt_print (a b : List Out) (fmt arg : String) :
    errcnt (a ++ .print fmt arg :: b) = errcnt a + errcnt b := by
  simp

@[simp] theorem errcnt_genParen (body : List Out) : errcnt (genParen body) = errcnt body := by
  simp [genParen]

@[simp] theorem toks_genParen (body : List Out) :
    toks (genParen body) = .lpar :: (toks body ++ [.rpar]) := by
  simp [genParen, Out.toks]

/-! ## What a piece of code means -/

/-- The tokens `ts` are C code of the level `l` for `f`, a function of the values
of the signals. -/
def Means (tab : List Sym) (l : Nat) (ts : List CTok) (f : (String → Int) → Int) : Prop :=
  ∃ c, CDerives l ts c ∧ ∀ env, BoolEnv tab env → ceval env c = f (signals tab env)

section

variable {tab : List Sym} {ts us : List CTok} {f g k : (String → Int) → Int} {l : Nat}

theorem Means.lower {l' : Nat} (h : Means tab l' ts f) (hl : l ≤ l') (hl' : l' ≤ 6) :
    Means tab l ts f := by
  obtain ⟨c, hc, hv⟩ := h
  exact ⟨c, hc.lower hl hl', hv⟩

theorem Means.paren (h : Means tab 0 ts f) : Means tab 6 (.lpar :: (ts ++ [.rpar])) f := by
  obtain ⟨c, hc, hv⟩ := h
  exact ⟨c, .paren hc, hv⟩

theorem COp.level_le (o : COp) : 0 < o.level ∧ o.level ≤ 5 := by
  rcases o with _ | _ | _ | ⟨_ | _ | _ | _ | _ | _⟩ <;> decide

theorem Means.bin (o : COp) (ha : Means tab o.level ts f) (hb : Means tab (o.level + 1) us g)
    (hk : ∀ env, BoolEnv tab env →
      o.eval (f (signals tab env)) (g (signals tab env)) = k (signals tab env)) :
    Means tab o.level (ts ++ .op o :: us) k := by
  obtain ⟨a, hda, hva⟩ := ha
  obtain ⟨b, hdb, hvb⟩ := hb
  refine ⟨.bin o a b, .bin o rfl o.level_le.1 o.level_le.2 hda hdb, fun env henv => ?_⟩
  rw [ceval, hva env henv, hvb env henv, hk env henv]

/-- An operator between operands. -/
theorem Means.parenBin (o : COp) (ha : Means tab 6 ts f) (hb : Means tab 6 us g)
    (hk : ∀ env, BoolEnv tab env →
      o.eval (f (signals tab env)) (g (signals tab env)) = k (signals tab env)) :
    Means tab 6 (.lpar :: ((ts ++ .op o :: us) ++ [.rpar])) k := by
  have ho := o.level_le.2
  have h := Means.bin o (ha.lower (by omega) le_rfl) (hb.lower (by omega) le_rfl) hk
  exact (h.lower (Nat.zero_le _) (by omega)).paren

theorem Means.pre (p : CPre) (ha : Means tab 6 ts f)
    (hk : ∀ env c, ceval env c = f (signals tab env) →
      ceval env (.pre p c) = k (signals tab env)) : Means tab 6 (.pre p :: ts) k := by
  obtain ⟨a, hda, hva⟩ := ha
  exact ⟨.pre p a, .pre p hda, fun env henv => hk env a (hva env henv)⟩

theorem Means.cond (hc : Means tab 1 ts f) (ha : Means tab 0 us g) {vs : List CTok}
    (hb : Means tab 0 vs k) :
    Means tab 0 (ts ++ .quest :: (us ++ .colon :: vs))
      (fun ρ => if f ρ ≠ 0 then g ρ else k ρ) := by
  obtain ⟨c, hdc, hvc⟩ := hc
  obtain ⟨a, hda, hva⟩ := ha
  obtain ⟨b, hdb, hvb⟩ := hb
  refine ⟨.cond c a b, .cond hdc hda hdb, fun env henv => ?_⟩
  rw [ceval, hvc env henv, hva env henv, hvb env henv]

end

/-! ## Numbers -/

theorem constant_eq {digits : CStr} (h : digits.head? ≠ some 48 ∨ digits = [48]) :
    constant digits = digitsVal digits := by
  rw [constant]
  split_ifs with h0
  · obtain rfl := h.resolve_left (fun hn => hn h0)
    rfl
  · rfl

theorem plainNum_cases {s : String} (h : plainNum s = true) :
    ∃ digits : CStr, digits ≠ [] ∧ (∀ c ∈ digits, isDigit c) ∧
      (digits.head? ≠ some 48 ∨ digits = [48]) ∧
      (numToks s = [.atom (.const digits)] ∧ atoll s = digitsVal digits ∨
        numToks s = [.pre .neg, .atom (.const digits)] ∧ atoll s = -(digitsVal digits : Int)) := by
  rw [plainNum] at h
  simp only [ne_eq, decide_not, Bool.and_eq_true, Bool.not_eq_true', decide_eq_false_iff_not,
    List.all_eq_true, Bool.or_eq_true, decide_eq_true_eq] at h
  obtain ⟨⟨hne, hd⟩, h0⟩ := h
  refine ⟨_, hne, hd, h0, ?_⟩
  split_ifs at hne hd h0 ⊢ with hm
  · obtain ⟨ds, hs⟩ : ∃ ds, text s = 45 :: ds := List.head?_eq_some_iff.mp hm
    rw [hs, List.tail_cons] at hne hd ⊢
    have hdec : Decimal (text s) (-(digitsVal ds : Int)) :=
      ⟨[], [45], ds, hs, by simp, hne, hd, .inr ⟨rfl, rfl⟩⟩
    rw [numToks, hs, atoll, strtol_whole.mpr hdec]
    exact .inr ⟨rfl, rfl⟩
  · have hdec : Decimal (text s) (digitsVal (text s)) :=
      ⟨[], [], text s, rfl, by simp, hne, hd, .inl ⟨.inl rfl, rfl⟩⟩
    rw [numToks, atoll, strtol_whole.mpr hdec]
    refine .inl ⟨?_, rfl⟩
    split
    next ds hs => exact absurd (by rw [hs]; rfl) hm
    next => rfl

theorem num_means {tab : List Sym} {s : String} (h : plainNum s = true) :
    Means tab 6 (numToks s) fun _ => atoll s := by
  obtain ⟨digits, -, -, h0, ⟨ht, hv⟩ | ⟨ht, hv⟩⟩ := plainNum_cases h
  · rw [ht]
    refine ⟨_, .atom _, fun env _ => ?_⟩
    rw [ceval, constant_eq h0, hv]
  · rw [ht]
    refine ⟨_, .pre _ (.atom _), fun env _ => ?_⟩
    rw [ceval, ceval, constant_eq h0, hv]

/-! ## What the generator has done when it succeeds -/

theorem genBin_some {op : Out} {a b : Option (List Out)} {out : List Out}
    (h : genBin op a b = some out) :
    ∃ oa ob, a = some oa ∧ b = some ob ∧ out = genParen (oa ++ op :: ob) := by
  rw [genBin, Option.bind_eq_some_iff] at h
  obtain ⟨oa, ha, h⟩ := h
  obtain ⟨ob, hb, rfl⟩ := Option.map_eq_some_iff.mp h
  exact ⟨oa, ob, ha, hb, rfl⟩

/-- A node that is not an arm stands for itself whatever it is linked to. -/
theorem genExpr_head {tab : List Sym} {n : Node} (h : n.type ≠ .case) (next : NodePtr) :
    genExpr tab (n :: next) = genExpr tab [n] := by
  obtain ⟨type, isbool, sval, arg1, arg2⟩ := n
  cases type with
  | case => exact absurd rfl h
  | quote | var | num | and | or | not | comp | ele => simp only [genExpr]

theorem Expr.build_single {tab : List Sym} {e : Expr} (h : e.isCase = false) :
    ∃ n, (e.build tab).1 = [n] ∧ n.type ≠ .case := by
  cases e with
  | case => cases h
  | var | num | not | and | or | comp | ele => exact ⟨_, rfl, NodeType.noConfusion⟩

/-- Only a number has the node of a number. -/
theorem Expr.build_num {tab : List Sym} {e : Expr} {isbool : Bool} {sval : String}
    {arg1 arg2 next : NodePtr} (h : (e.build tab).1 = .mk .num isbool sval arg1 arg2 :: next) :
    e = .num sval := by
  cases e with
  | num name =>
      simp only [Expr.build, makeNum, List.cons.injEq, Node.mk.injEq] at h
      rw [h.1.2.2.1]
  | case arms =>
      cases arms with
      | nil => simp [Expr.build, Arms.build] at h
      | cons => simp [Expr.build, Arms.build, makeCase, after] at h
  | var | not | and | or | comp | ele =>
      simp [Expr.build, makeVar, makeNot, makeAnd, makeOr, makeComp, makeEle, after] at h

/-- One round of the loop over the elements. -/
theorem genEle_cons {tab : List Sym} {a : Option (List Out)} {n : Node} {next : NodePtr}
    {out : List Out} (h : genEle tab a (n :: next) = some out) :
    ∃ oa oe r, a = some oa ∧ genExpr tab (n :: next) = some oe ∧
      genEle tab (some oa) next = some r ∧
        out = oa ++ .print " == " "" ::
          (oe ++ ((if next = [] then [] else [.print " || " ""]) ++ r)) := by
  rw [genEle, Option.bind_eq_some_iff] at h
  obtain ⟨oa, ha, h⟩ := h
  obtain ⟨oe, he, h⟩ := Option.bind_eq_some_iff.mp h
  obtain ⟨r, hr, rfl⟩ := Option.map_eq_some_iff.mp h
  exact ⟨oa, oe, r, ha, he, hr, rfl⟩

/-- One round of the loop over the arms. -/
theorem genArms_cons {tab : List Sym} {type : NodeType} {isbool : Bool} {sval : String}
    {c v next : NodePtr} {out : List Out}
    (h : genArms tab (.mk type isbool sval c v :: next) = some out) :
    (∃ b s a1 a2 l, c = .mk .num b s a1 a2 :: l ∧ atoll s = 1 ∧ genExpr tab v = some out) ∨
      ∃ oc ov r, genExpr tab c = some oc ∧ genExpr tab v = some ov ∧ genArms tab next = some r ∧
        out = oc ++ .print " ? " "" :: (ov ++ .print " : " "" :: r) := by
  cases c with
  | nil =>
      rw [genArms] at h
      cases h
  | cons k l =>
      obtain ⟨t, b, s, a1, a2⟩ := k
      rw [genArms] at h
      split_ifs at h with hone
      · obtain ⟨rfl, hs⟩ := hone
        exact .inl ⟨b, s, a1, a2, l, rfl, hs, h⟩
      · obtain ⟨oc, hc, h⟩ := Option.bind_eq_some_iff.mp h
        obtain ⟨ov, hv, h⟩ := Option.bind_eq_some_iff.mp h
        obtain ⟨r, hr, rfl⟩ := Option.map_eq_some_iff.mp h
        exact .inr ⟨oc, ov, r, hc, hv, hr, rfl⟩

/-! ## The induction -/

theorem land_bit {x y : Int} (hx : x = 0 ∨ x = 1) (hy : y = 0 ∨ y = 1) :
    Int.land x y = ofBool (x ≠ 0 ∧ y ≠ 0) := by
  rcases hx with rfl | rfl <;> rcases hy with rfl | rfl <;> rfl

theorem lor_bit {x y : Int} (hx : x = 0 ∨ x = 1) (hy : y = 0 ∨ y = 1) :
    Int.lor x y = ofBool (x ≠ 0 ∨ y ≠ 0) := by
  rcases hx with rfl | rfl <;> rcases hy with rfl | rfl <;> rfl

/-- The comparison of `arg1` with an element. -/
theorem Means.element {tab : List Sym} {ts us : List CTok} {f g : (String → Int) → Int}
    (ha : Means tab 6 ts f) (he : Means tab 6 us g) :
    Means tab 4 (ts ++ .op (.comp .eq) :: us) fun ρ => ofBool (f ρ = g ρ) :=
  Means.bin (.comp .eq) (ha.lower (by decide) le_rfl) (he.lower (by decide) le_rfl)
    fun _ _ => rfl

theorem compToks_text (op : Comp) : compToks op.text = [.op (.comp op)] := by
  cases op <;> rfl

mutual

theorem Expr.means {tab : List Sym} {e : Expr} {out : List Out} (hp : e.plain = true)
    (he : (e.build tab).2 = 0) (hg : genExpr tab (e.build tab).1 = some out)
    (ho : errcnt out = 0) : Means tab 6 (toks out) fun ρ => e.value ρ := by
  match e with
  | .var name =>
      rw [Expr.build, makeVar, genExpr] at hg
      cases hg
      rw [genVar] at ho ⊢
      cases hf : findSymbol tab name with
      | none =>
          rw [hf] at ho
          exact absurd ho (by decide)
      | some qval =>
          refine Means.paren ⟨.atom (.text qval.sval), (OpGrammar.Derives.atom _).lower
            (Nat.zero_le _) le_rfl, fun env _ => ?_⟩
          rw [ceval, Expr.value, signals, hf]
  | .num name =>
      rw [Expr.build, makeNum, genExpr] at hg
      cases hg
      rw [Expr.plain] at hp
      have ht : toks [.puts name] = numToks name := List.append_nil _
      rw [ht]
      exact num_means hp
  | .not a =>
      simp only [Expr.build, makeNot, after] at he hg
      rw [genExpr] at hg
      obtain ⟨oa, hga, rfl⟩ := Option.map_eq_some_iff.mp hg
      rw [Expr.plain] at hp
      rw [← List.nil_append (Out.print _ _ :: oa), errcnt_print, errcnt_nil, Nat.zero_add] at ho
      have ha := Expr.means hp (by omega) hga ho
      refine Means.pre .not ha fun env c hc => ?_
      rw [ceval, hc, Expr.value]
  | .and a b =>
      simp only [Expr.build, makeAnd, after] at he hg
      rw [genExpr] at hg
      obtain ⟨oa, ob, hga, hgb, rfl⟩ := genBin_some hg
      rw [Expr.plain, Bool.and_eq_true] at hp
      rw [errcnt_genParen, errcnt_print] at ho
      have ha := Expr.means hp.1 (by omega) hga (by omega)
      have hb := Expr.means hp.2 (by omega) hgb (by omega)
      rw [toks_genParen, toks_append, toks_cons]
      refine Means.parenBin .bitAnd ha hb fun env henv => ?_
      rw [COp.eval, land_bit (Expr.value_bit henv (by omega)) (Expr.value_bit henv (by omega)),
        Expr.value]
  | .or a b =>
      simp only [Expr.build, makeOr, after] at he hg
      rw [genExpr] at hg
      obtain ⟨oa, ob, hga, hgb, rfl⟩ := genBin_some hg
      rw [Expr.plain, Bool.and_eq_true] at hp
      rw [errcnt_genParen, errcnt_print] at ho
      have ha := Expr.means hp.1 (by omega) hga (by omega)
      have hb := Expr.means hp.2 (by omega) hgb (by omega)
      rw [toks_genParen, toks_append, toks_cons]
      refine Means.parenBin .bitOr ha hb fun env henv => ?_
      rw [COp.eval, lor_bit (Expr.value_bit henv (by omega)) (Expr.value_bit henv (by omega)),
        Expr.value]
  | .comp op a b =>
      simp only [Expr.build, makeComp, after] at he hg
      rw [genExpr] at hg
      obtain ⟨oa, ob, hga, hgb, rfl⟩ := genBin_some hg
      rw [Expr.plain, Bool.and_eq_true] at hp
      rw [errcnt_genParen, errcnt_print] at ho
      have ha := Expr.means hp.1 (by omega) hga (by omega)
      have hb := Expr.means hp.2 (by omega) hgb (by omega)
      rw [toks_genParen, toks_append, toks_cons, Out.toks, compToks_text]
      refine Means.parenBin (.comp op) ha hb fun env _ => ?_
      rw [COp.eval, Expr.value]
  | .ele a e es =>
      simp only [Expr.build, makeEle, after] at he hg
      rw [genExpr] at hg
      obtain ⟨body, hbody, rfl⟩ := Option.map_eq_some_iff.mp hg
      rw [Expr.plain, Bool.and_eq_true, Bool.and_eq_true, Bool.and_eq_true, Bool.not_eq_true'] at hp
      obtain ⟨hpa, ⟨hcase, hpe⟩, hpes⟩ := hp
      obtain ⟨n, hn, htype⟩ := @Expr.build_single tab _ hcase
      rw [hn, List.singleton_append] at hbody
      obtain ⟨oa, oe, r, hga, hge, hgr, rfl⟩ := genEle_cons hbody
      rw [genExpr_head htype, ← hn] at hge
      rw [errcnt_genParen, errcnt_print, errcnt_append, errcnt_append] at ho
      have ha := Expr.means hpa (by omega) hga (by omega)
      have hm := Expr.means hpe (by omega) hge (by omega)
      have hloop := Exprs.loop hpes (by omega) hgr (by omega) ha
        ((ha.element hm).lower (by decide) (by decide))
      have hb := (hloop.lower (Nat.zero_le 1) (by decide)).paren
      simp only [toks_genParen, toks_append, toks_cons, Out.toks, List.append_assoc,
        List.cons_append, List.nil_append, Expr.value] at hb ⊢
      simpa only [Bool.decide_or, Bool.decide_eq_true] using hb
  | .case arms =>
      rw [Expr.build] at he hg
      rw [Expr.plain] at hp
      obtain ⟨body, hbody, rfl⟩ : ∃ body, genArms tab (arms.build tab).1 = some body ∧
          genParen body = out := by
        cases arms with
        | nil =>
            rw [Arms.build, genExpr] at hg
            cases hg
        | cons c v arms =>
            simp only [Arms.build, makeCase, after, List.singleton_append] at hg ⊢
            rw [genExpr] at hg
            exact Option.map_eq_some_iff.mp hg
      rw [toks_genParen]
      exact (Arms.means hp he hbody (errcnt_genParen body ▸ ho)).paren

/-- The loop goes on behind `ts`, which is the result for the elements so far. -/
theorem Exprs.loop {tab : List Sym} {es : Exprs} {oa out : List Out} (hp : es.plain = true)
    (he : (es.build tab).2 = 0) (hg : genEle tab (some oa) (es.build tab).1 = some out)
    (ho : errcnt out = 0) {f : (String → Int) → Int} (ha : Means tab 6 (toks oa) f)
    {ts : List CTok} {sofar : (String → Int) → Bool}
    (hs : Means tab 1 ts fun ρ => ofBool (sofar ρ)) :
    Means tab 1 (ts ++ toks ((if (es.build tab).1 = [] then [] else [.print " || " ""]) ++ out))
      fun ρ => ofBool (sofar ρ || es.has ρ (f ρ)) := by
  match es with
  | .nil =>
      rw [Exprs.build, genEle] at hg
      cases hg
      simpa [Exprs.build, Exprs.has] using hs
  | .cons e es =>
      rw [Exprs.build] at he hg ⊢
      rw [Exprs.plain, Bool.and_eq_true, Bool.and_eq_true, Bool.not_eq_true'] at hp
      obtain ⟨⟨hcase, hpe⟩, hpes⟩ := hp
      obtain ⟨n, hn, htype⟩ := @Expr.build_single tab _ hcase
      dsimp only at he hg ⊢
      rw [hn, List.singleton_append] at hg ⊢
      rw [if_neg (List.cons_ne_nil _ _)]
      obtain ⟨_, oe, r, heq, hge, hgr, rfl⟩ := genEle_cons hg
      rw [genExpr_head htype, ← hn] at hge
      cases heq
      rw [errcnt_print, errcnt_append, errcnt_append] at ho
      have hm := Expr.means hpe (by omega) hge (by omega)
      have hnext : Means tab 1 (ts ++ .op .logOr :: (toks oa ++ .op (.comp .eq) :: toks oe))
          fun ρ => ofBool (sofar ρ || decide (f ρ = e.value ρ)) :=
        Means.bin .logOr hs ((ha.element hm).lower (by decide) (by decide)) fun env _ => by
          simp [COp.eval, ofBool_eq_zero]
      have hloop := Exprs.loop hpes (by omega) hgr (by omega) ha hnext
      simp only [toks_append, toks_cons, Out.toks, List.append_assoc, List.cons_append,
        List.nil_append, Exprs.has, Bool.or_assoc] at hloop ⊢
      simpa only [Bool.decide_or, Bool.decide_eq_true] using hloop

theorem Arms.means {tab : List Sym} {arms : Arms} {out : List Out} (hp : arms.plain = true)
    (he : (arms.build tab).2 = 0) (hg : genArms tab (arms.build tab).1 = some out)
    (ho : errcnt out = 0) : Means tab 0 (toks out) fun ρ => arms.value ρ := by
  match arms with
  | .nil =>
      rw [Arms.build, genArms] at hg
      cases hg
      have ht : toks [.print "0" ""] = numToks "0" := List.append_nil _
      rw [ht]
      refine Means.lower ?_ (Nat.zero_le 6) le_rfl
      simpa only [Arms.value, atoll_zero] using @num_means tab "0" (by decide)
  | .cons c v arms =>
      rw [Arms.plain, Bool.and_eq_true, Bool.and_eq_true] at hp
      obtain ⟨⟨hpc, hpv⟩, hpa⟩ := hp
      simp only [Arms.build, makeCase, after, List.singleton_append] at he hg
      rcases genArms_cons hg with ⟨b, s, a1, a2, l, hb, hs, hgv⟩ | ⟨oc, ov, r, hgc, hgv, hgr, rfl⟩
      · -- the default arm: what follows it is not printed, and not reached
        obtain rfl := Expr.build_num hb
        have hv := Expr.means hpv (by omega) hgv ho
        refine Means.lower ?_ (Nat.zero_le 6) le_rfl
        simpa only [Arms.value, Expr.value, hs, ne_eq, one_ne_zero, not_false_eq_true,
          if_true] using hv
      · rw [errcnt_print, errcnt_print] at ho
        have hc := Expr.means hpc (by omega) hgc (by omega)
        have hv := Expr.means hpv (by omega) hgv (by omega)
        have hr := Arms.means hpa (by omega) hgr (by omega)
        have h := Means.cond (hc.lower (by decide) le_rfl) (hv.lower (by decide) le_rfl) hr
        simpa only [toks_append, toks_cons, Out.toks, List.singleton_append, Arms.value] using h

end

/-! ## A whole file -/

/-- What the statements declare. -/
def declared : List Statement → List Sym
  | [] => []
  | .sig isbool var qstring :: ss => ⟨var, qstring, isbool⟩ :: declared ss
  | .quote _ :: ss => declared ss
  | .funct _ _ _ :: ss => declared ss

theorem yyparse_append (c : Compiler) (ss ss' : List Statement) :
    yyparse c (ss ++ ss') = (yyparse c ss).bind fun c => yyparse c ss' := by
  induction ss generalizing c with
  | nil => rfl
  | cons s ss ih =>
      rw [List.cons_append, yyparse, yyparse, Option.bind_assoc]
      exact Option.bind_congr fun c _ => ih c

/-- A statement appends to what is written; without an error a declaration is
entered into the table. -/
theorem Statement.exec_out {c c' : Compiler} {s : Statement} (h : s.exec c = some c') :
    ∃ more, c'.out = c.out ++ more ∧ (errcnt more = 0 → c'.tab = c.tab ++ declared [s]) := by
  cases s with
  | quote qstring =>
      cases h
      exact ⟨_, rfl, fun _ => (List.append_nil _).symm⟩
  | sig isbool var qstring =>
      rw [Statement.exec, addArg] at h
      split_ifs at h with hfull
      · cases h
        exact ⟨_, rfl, fun he => absurd he (by decide)⟩
      · cases h
        exact ⟨[], (List.append_nil _).symm, fun _ => rfl⟩
  | funct isbool var expr =>
      obtain ⟨code, -, rfl⟩ := Option.map_eq_some_iff.mp h
      exact ⟨_, rfl, fun _ => (List.append_nil _).symm⟩

theorem declared_cons (s : Statement) (ss : List Statement) :
    declared (s :: ss) = declared [s] ++ declared ss := by
  cases s <;> rfl

theorem yyparse_out {c c' : Compiler} {ss : List Statement} (h : yyparse c ss = some c') :
    ∃ more, c'.out = c.out ++ more ∧ (errcnt more = 0 → c'.tab = c.tab ++ declared ss) := by
  induction ss generalizing c with
  | nil =>
      cases h
      exact ⟨[], (List.append_nil _).symm, fun _ => (List.append_nil _).symm⟩
  | cons s ss ih =>
      obtain ⟨c₁, hs, h⟩ := Option.bind_eq_some_iff.mp h
      obtain ⟨more₁, hout₁, htab₁⟩ := s.exec_out hs
      obtain ⟨more, hout, htab⟩ := ih h
      refine ⟨more₁ ++ more, by rw [hout, hout₁, List.append_assoc], fun he => ?_⟩
      rw [errcnt_append] at he
      rw [htab (by omega), htab₁ (by omega), declared_cons s ss, List.append_assoc]

theorem errcnt_replicate (n : Nat) : errcnt (List.replicate n .error) = n :=
  List.count_replicate_self

/-- A definition that is compiled without an error. -/
theorem genFunct_some {tab : List Sym} {var : String} {expr : NodePtr} {isbool : Bool}
    {out : List Out} (h : genFunct tab var expr isbool = some out) (ho : errcnt out = 0) :
    checkArg tab expr isbool = 0 ∧ ∃ body, genExpr tab expr = some body ∧ errcnt body = 0 ∧
      out = genHeader var ++ (body ++ genFooter) := by
  rw [genFunct] at h
  split_ifs at h
  · cases h
    exact absurd ho (by decide)
  · obtain ⟨body, hb, rfl⟩ := Option.map_eq_some_iff.mp h
    rw [errcnt_append, errcnt_append, errcnt_append, errcnt_replicate] at ho
    have hcheck : checkArg tab expr isbool = 0 := by omega
    exact ⟨hcheck, body, hb, by omega, by rw [hcheck]; rfl⟩

/-- The function that a plain definition of the file has become. -/
theorem compile_function {file before after : List Statement} {out : List Out} {isbool : Bool}
    {var : String} {e : Expr} (h : compile file = some out)
    (hfile : file = before ++ .funct isbool var e :: after) (hp : e.plain = true) :
    checkArg (declared before) (e.build (declared before)).1 isbool = 0 ∧
      ∃ pre body post, out = pre ++ (genHeader var ++ (body ++ genFooter)) ++ post ∧
        Means (declared before) 0 (toks body) fun ρ => e.value ρ := by
  obtain ⟨cEnd, hrun, hend⟩ := Option.bind_eq_some_iff.mp h
  split_ifs at hend with hzero
  cases hend
  rw [hfile, yyparse_append] at hrun
  obtain ⟨c₀, h₀, hrun⟩ := Option.bind_eq_some_iff.mp hrun
  obtain ⟨c₁, h₁, h₂⟩ := Option.bind_eq_some_iff.mp hrun
  obtain ⟨code, hcode, rfl⟩ := Option.map_eq_some_iff.mp h₁
  obtain ⟨pre, hpre, htab⟩ := yyparse_out h₀
  obtain ⟨post, hpost, -⟩ := yyparse_out h₂
  rw [hpost, hpre] at hzero
  simp only [List.nil_append, errcnt_append, errcnt_replicate] at hzero
  have htab : c₀.tab = declared before := htab (by omega)
  obtain ⟨hcheck, body, hbody, hb, rfl⟩ := genFunct_some hcode (by omega)
  rw [htab] at hcheck hbody hzero
  refine ⟨hcheck, pre, body, post, ?_,
    (Expr.means hp (by omega) hbody hb).lower (Nat.zero_le 6) le_rfl⟩
  have hnone : (e.build c₀.tab).2 = 0 := by rw [htab]; omega
  rw [hpost, hpre, hnone]
  simp

/-- A file that is compiled without an error defines, for each of its plain
definitions, a function that returns the value of the definition. The C
expression that it returns can be read in one way only. -/
theorem compile_correct {file before after : List Statement} {out : List Out} {isbool : Bool}
    {var : String} {e : Expr} (h : compile file = some out)
    (hfile : file = before ++ .funct isbool var e :: after) (hp : e.plain = true) :
    ∃ pre body post c, out = pre ++ (genHeader var ++ (body ++ genFooter)) ++ post ∧
      CDerives 0 (toks body) c ∧ (∀ c', CDerives 0 (toks body) c' → c' = c) ∧
      ∀ env, BoolEnv (declared before) env →
        ceval env c = e.value (signals (declared before) env) ∧
        (isbool = true → ceval env c = 0 ∨ ceval env c = 1) := by
  obtain ⟨hcheck, pre, body, post, hout, c, hc, hv⟩ := compile_function h hfile hp
  refine ⟨pre, body, post, c, hout, hc, fun c' hc' => hc'.unique hc, fun env henv => ?_⟩
  refine ⟨hv env henv, ?_⟩
  rintro rfl
  rw [hv env henv]
  exact Expr.value_bit henv hcheck

end Csapp.Hcl2c
