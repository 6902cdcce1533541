import Mathlib
import Csapp.Hcl2c.Typed

/-!
# A case expression in a set

The elements of a set and the arms of a case expression are both linked through
`next`. A case expression that is an element of a set therefore hands its arms
over: the generated code compares with the case expression, and then once more
with every case expression that starts at a later arm.
-/

namespace Csapp.Hcl2c

/-- `x` is the value of the case expression, or of one that starts at a later arm. -/
def Arms.tailHas (ρ : String → Int) (x : Int) : Arms → Bool
  | .nil => false
  | .cons c v arms => x = (Arms.cons c v arms).value ρ ∨ arms.tailHas ρ x

/-- One round of the loop over the elements, with an arm for an element: the
comparison, and what is left for the other rounds. -/
theorem Arms.round {tab : List Sym} {c v : Expr} {arms : Arms} {oa out : List Out}
    (hp : (Arms.cons c v arms).plain = true) (he : ((Arms.cons c v arms).build tab).2 = 0)
    (hg : genEle tab (some oa) ((Arms.cons c v arms).build tab).1 = some out)
    (ho : errcnt out = 0) {f : (String → Int) → Int} (ha : Means tab 6 (toks oa) f) :
    ∃ oe r, genEle tab (some oa) (arms.build tab).1 = some r ∧ errcnt r = 0 ∧
      out = oa ++ .print " == " "" ::
        (oe ++ ((if (arms.build tab).1 = [] then [] else [.print " || " ""]) ++ r)) ∧
      Means tab 4 (toks oa ++ .op (.comp .eq) :: toks oe)
        fun ρ => ofBool (f ρ = (Arms.cons c v arms).value ρ) := by
  have hexpr : (Expr.case (.cons c v arms)).plain = true := by rw [Expr.plain, hp]
  have hbuild : ((Expr.case (.cons c v arms)).build tab).2 = 0 := by rw [Expr.build, he]
  obtain ⟨n, hn⟩ : ∃ n, ((Arms.cons c v arms).build tab).1 = n :: (arms.build tab).1 := ⟨_, rfl⟩
  rw [hn] at hg
  obtain ⟨_, oe, r, heq, hge, hgr, rfl⟩ := genEle_cons hg
  cases heq
  rw [← hn] at hge
  rw [errcnt_print, errcnt_append, errcnt_append] at ho
  have hm : Means tab 6 (toks oe) fun ρ => (Arms.cons c v arms).value ρ := by
    simpa only [Expr.value] using Expr.means hexpr hbuild hge (by omega)
  exact ⟨oe, r, hgr, by omega, rfl, ha.element hm⟩

theorem Arms.tail_plain {c v : Expr} {arms : Arms} (h : (Arms.cons c v arms).plain = true) :
    arms.plain = true := by
  rw [Arms.plain, Bool.and_eq_true] at h
  exact h.2

theorem Arms.tail_errs {tab : List Sym} {c v : Expr} {arms : Arms}
    (h : ((Arms.cons c v arms).build tab).2 = 0) : (arms.build tab).2 = 0 := by
  rw [Arms.build] at h
  exact Nat.eq_zero_of_add_eq_zero_left h

/-- The loop over the elements takes every arm for one. -/
theorem Arms.loop {tab : List Sym} {arms : Arms} {oa out : List Out} (hp : arms.plain = true)
    (he : (arms.build tab).2 = 0) (hg : genEle tab (some oa) (arms.build tab).1 = some out)
    (ho : errcnt out = 0) {f : (String → Int) → Int} (ha : Means tab 6 (toks oa) f)
    {ts : List CTok} {sofar : (String → Int) → Bool}
    (hs : Means tab 1 ts fun ρ => ofBool (sofar ρ)) :
    Means tab 1 (ts ++ toks ((if (arms.build tab).1 = [] then [] else [.print " || " ""]) ++ out))
      fun ρ => ofBool (sofar ρ || arms.tailHas ρ (f ρ)) := by
  match arms with
  | .nil =>
      rw [Arms.build, genEle] at hg
      cases hg
      simpa [Arms.build, Arms.tailHas] using hs
  | .cons c v arms =>
      obtain ⟨oe, r, hgr, hor, rfl, hm⟩ := Arms.round hp he hg ho ha
      have hnil : ((Arms.cons c v arms).build tab).1 ≠ [] := List.cons_ne_nil _ _
      rw [if_neg hnil]
      have hnext : Means tab 1 (ts ++ .op .logOr :: (toks oa ++ .op (.comp .eq) :: toks oe))
          fun ρ => ofBool (sofar ρ || decide (f ρ = (Arms.cons c v arms).value ρ)) :=
        Means.bin .logOr hs (hm.lower (by decide) (by decide)) fun env _ => by
          simp [COp.eval, ofBool_eq_zero]
      have hloop := Arms.loop (Arms.tail_plain hp) (Arms.tail_errs he) hgr hor ha hnext
      simp only [toks_append, toks_cons, Out.toks, List.append_assoc, List.cons_append,
        List.nil_append, Arms.tailHas, Bool.or_assoc] at hloop ⊢
      simpa only [Bool.decide_or, Bool.decide_eq_true] using hloop

/-- What is compiled for `a in { [ ... ] }`: it asks for the value of the case
expression as it should, and for the values that start at the later arms. -/
theorem set_of_case {tab : List Sym} {a c v : Expr} {arms : Arms} {out : List Out}
    (hpa : a.plain = true) (hp : (Arms.cons c v arms).plain = true)
    (he : ((Expr.ele a (.case (.cons c v arms)) .nil).build tab).2 = 0)
    (hg : genExpr tab ((Expr.ele a (.case (.cons c v arms)) .nil).build tab).1 = some out)
    (ho : errcnt out = 0) :
    ∃ code, CDerives 0 (toks out) code ∧ (∀ code', CDerives 0 (toks out) code' → code' = code) ∧
      ∀ env, BoolEnv tab env →
        ceval env code =
          ofBool ((Arms.cons c v arms).tailHas (signals tab env) (a.value (signals tab env))) := by
  simp only [Expr.build, Exprs.build, makeEle, after, List.append_nil] at he hg
  rw [genExpr] at hg
  obtain ⟨body, hbody, rfl⟩ := Option.map_eq_some_iff.mp hg
  obtain ⟨n, hn⟩ : ∃ n, ((Arms.cons c v arms).build tab).1 = n :: (arms.build tab).1 := ⟨_, rfl⟩
  obtain ⟨oa, hga⟩ : ∃ oa, genExpr tab (a.build tab).1 = some oa := by
    rw [hn] at hbody
    obtain ⟨oa, _, _, hga, _⟩ := genEle_cons hbody
    exact ⟨oa, hga⟩
  rw [hga] at hbody
  rw [errcnt_genParen] at ho
  have hoa : errcnt oa = 0 := by
    rw [hn] at hbody
    obtain ⟨_, oe, r, heq, _, _, rfl⟩ := genEle_cons hbody
    cases heq
    rw [errcnt_print] at ho
    omega
  have ha := Expr.means hpa (by omega) hga hoa
  obtain ⟨oe, r, hgr, hor, rfl, hm⟩ := Arms.round hp (by omega) hbody ho ha
  have hloop := Arms.loop (Arms.tail_plain hp) (Arms.tail_errs (c := c) (v := v) (by omega)) hgr hor
    ha (hm.lower (by decide) (by decide))
  obtain ⟨code, hd, hv⟩ := (hloop.lower (Nat.zero_le 1) (by decide)).paren.lower (Nat.zero_le 6)
    le_rfl
  simp only [toks_genParen, toks_append, toks_cons, Out.toks, List.append_assoc, List.cons_append,
    List.nil_append] at hd ⊢
  refine ⟨code, hd, fun code' hd' => hd'.unique hd, fun env henv => ?_⟩
  rw [hv env henv, Arms.tailHas]
  simp only [Bool.decide_or, Bool.decide_eq_true]

/-- `[ c : 1; 1 : 2; ]` -/
def sampleArms : Arms := .cons (.var "c") (.num "1") (.cons (.num "1") (.num "2") .nil)

/-- A Boolean and a word. -/
def sampleTab : List Sym := [⟨"c", "cond", true⟩, ⟨"x", "p->x", false⟩]

theorem sample_generates : ∃ out,
    genExpr sampleTab ((Expr.ele (.var "x") (.case sampleArms) .nil).build sampleTab).1 = some out ∧
      errcnt out = 0 := by
  have h1 : atoll "1" = 1 := by decide
  have hc : findSymbol sampleTab "c" = some ⟨"c", "cond", true⟩ := by decide
  have hx : findSymbol sampleTab "x" = some ⟨"x", "p->x", false⟩ := by decide
  simp [sampleArms, Expr.build, Exprs.build, Arms.build, makeEle, makeVar, makeNum, makeCase, after,
    genExpr, genEle, genArms, genVar, hc, hx, h1]

/-- With `c` set the compiled test holds of 2 as well, which HCL denies. -/
theorem set_of_case_sample : ∃ out code,
    genExpr sampleTab ((Expr.ele (.var "x") (.case sampleArms) .nil).build sampleTab).1 = some out ∧
      CDerives 0 (toks out) code ∧
      ∀ env, BoolEnv sampleTab env → env "cond" = 1 → env "p->x" = 2 →
        ceval env code = 1 ∧
          (Expr.ele (.var "x") (.case sampleArms) .nil).value (signals sampleTab env) = 0 := by
  obtain ⟨out, hg, ho⟩ := sample_generates
  have hp : sampleArms.plain = true := by decide
  have he : ((Expr.ele (.var "x") (.case sampleArms) .nil).build sampleTab).2 = 0 := by decide
  obtain ⟨code, hd, -, hv⟩ := @set_of_case sampleTab (.var "x") _ _ _ out rfl hp he hg ho
  refine ⟨out, code, hg, hd, fun env henv hc hx => ?_⟩
  have hsc : signals sampleTab env "c" = 1 := hc
  have hsx : signals sampleTab env "x" = 2 := hx
  have h1 : atoll "1" = 1 := by decide
  have h2 : atoll "2" = 2 := by decide
  rw [hv env henv]
  simp [Arms.tailHas, Arms.value, Expr.value, Exprs.has, sampleArms, hsc, hsx, h1, h2, ofBool]

end Csapp.Hcl2c
