import Mathlib
import Csapp.Lib.TwosComplement
import Csapp.Y86.Isa

/-!
# The condition codes as comparisons of integers

`compute_cc` works on 64-bit words and `cond_holds` on three bits. What they
decide together is a statement about unbounded integers: the exclusive or of
the sign and overflow bits is the sign of the exact difference, or of the exact
sum, also where the word wraps around. A zero word is a zero difference, but
not a zero sum.
-/

namespace Csapp.Y86

/-! ## `cond_t` -/

def cLE : Fun := 1
def cL : Fun := 2
def cE : Fun := 3
def cNE : Fun := 4
def cGE : Fun := 5
def cG : Fun := 6

/-- The conditions that compare; the others hold always or never. -/
def comparisons : List Fun := [cLE, cL, cE, cNE, cGE, cG]

/-- What each of them asks of two integers. -/
def compares (c : Fun) (x y : Int) : Bool :=
  match c.toNat with
  | 1 => decide (x ≤ y)
  | 2 => decide (x < y)
  | 3 => decide (x = y)
  | 4 => decide (x ≠ y)
  | 5 => decide (y ≤ x)
  | 6 => decide (y < x)
  | _ => false

theorem compares_sub (c : Fun) (x y : Int) : compares c (x - y) 0 = compares c x y := by
  simp only [compares, sub_nonpos, sub_neg, sub_eq_zero, sub_nonneg, sub_pos, ne_eq]

/-! ## Codes of an exact result -/

/-- Sign and overflow together give the sign of `v`. -/
def CC.SignOf (cc : CC) (v : Int) : Prop := (cc.sf ^^ cc.of) = decide (v < 0)

theorem CC.SignOf.l {cc : CC} {v : Int} (h : cc.SignOf v) :
    condHolds cc cL = decide (v < 0) := h

theorem CC.SignOf.ge {cc : CC} {v : Int} (h : cc.SignOf v) :
    condHolds cc cGE = decide (0 ≤ v) := by
  change (!(cc.sf ^^ cc.of)) = _
  rw [h, ← decide_not]
  simp only [not_lt]

/-- With a zero bit that is exact too, every comparison with zero is. -/
theorem CC.SignOf.compares {cc : CC} {v : Int} (h : cc.SignOf v) (hz : cc.zf = decide (v = 0))
    {c : Fun} (hc : c ∈ comparisons) : condHolds cc c = Y86.compares c v 0 := by
  have hle : ((cc.sf ^^ cc.of) || cc.zf) = decide (v ≤ 0) := by
    rw [h, hz, ← Bool.decide_or, decide_eq_decide]
    exact Int.le_iff_lt_or_eq.symm
  have hg : (!(cc.sf ^^ cc.of) && !cc.zf) = decide (0 < v) := by
    rw [← Bool.not_or, hle, ← decide_not, decide_eq_decide]
    exact Int.not_le
  simp only [comparisons, List.mem_cons, List.not_mem_nil, or_false] at hc
  obtain rfl | rfl | rfl | rfl | rfl | rfl := hc
  · exact hle
  · exact h.l
  · exact hz
  · change (!cc.zf) = _
    rw [hz, ← decide_not]
    rfl
  · exact h.ge
  · exact hg

/-! ## Words and their integers -/

theorem word_eq_zero (v : Word) : (v == 0#64) = decide (v.toInt = 0) := by
  rw [Bool.eq_iff_iff, beq_iff_eq, decide_eq_true_iff, ← BitVec.toInt_inj]
  rfl

/-! ## The three operations -/

theorem computeCC_sub_sign (a b : Word) :
    (computeCC aSub a b).SignOf (b.toInt - a.toInt) := by
  have ha := word_range a
  have hb := word_range b
  -- the asymmetric sign tests: `a = 0` counts with the negative words
  change (decide ((b - a).toInt < 0) ^^ ((decide (a.toInt > 0) == decide (b.toInt < 0)) &&
    (decide ((b - a).toInt < 0) != decide (b.toInt < 0)))) = decide (b.toInt - a.toInt < 0)
  obtain ⟨h1, h2, h3⟩ | ⟨h1, h2⟩ | ⟨h1, h2⟩ := toInt_sub_cases b a
  · rw [h3]
    grind
  · rw [h2]
    grind
  · rw [h2]
    grind

theorem computeCC_sub_zero (a b : Word) :
    (computeCC aSub a b).zf = decide (b.toInt - a.toInt = 0) := by
  change (b - a == 0#64) = _
  rw [Bool.eq_iff_iff, beq_iff_eq, decide_eq_true_iff, Int.sub_eq_zero, BitVec.toInt_inj]
  exact sub_eq_zero

theorem computeCC_add_sign (a b : Word) :
    (computeCC aAdd a b).SignOf (a.toInt + b.toInt) := by
  have ha := word_range a
  have hb := word_range b
  change (decide ((a + b).toInt < 0) ^^ ((decide (a.toInt < 0) == decide (b.toInt < 0)) &&
    (decide ((a + b).toInt < 0) != decide (a.toInt < 0)))) = decide (a.toInt + b.toInt < 0)
  obtain ⟨h1, h2, h3⟩ | ⟨h1, h2⟩ | ⟨h1, h2⟩ := toInt_add_cases a b
  · rw [h3]
    grind
  · rw [h2]
    grind
  · rw [h2]
    grind

theorem computeCC_and_sign (a : Word) : (computeCC aAnd a a).SignOf a.toInt := by
  change (decide ((a &&& a).toInt < 0) ^^ false) = _
  rw [BitVec.and_self, Bool.xor_false]

theorem computeCC_and_zero (a : Word) :
    (computeCC aAnd a a).zf = decide (a.toInt = 0) := by
  change (a &&& a == 0#64) = _
  rw [BitVec.and_self, word_eq_zero]

/-- A comparison of two words, a sum and a test, all exact. -/
theorem condHolds_exact (a b : Word) :
    (∀ c ∈ comparisons, condHolds (computeCC aSub a b) c = compares c b.toInt a.toInt) ∧
      (condHolds (computeCC aAdd a b) cL = decide (a.toInt + b.toInt < 0) ∧
        condHolds (computeCC aAdd a b) cGE = decide (0 ≤ a.toInt + b.toInt)) ∧
      ∀ c ∈ comparisons, condHolds (computeCC aAnd a a) c = compares c a.toInt 0 := by
  refine ⟨?_, ⟨(computeCC_add_sign a b).l, (computeCC_add_sign a b).ge⟩, ?_⟩
  · intro c hc
    rw [(computeCC_sub_sign a b).compares (computeCC_sub_zero a b) hc, compares_sub]
  · intro c hc
    exact (computeCC_and_sign a).compares (computeCC_and_zero a) hc

/-- The zero bit of a sum is not exact: the sum of two minimum words. -/
example : (computeCC aAdd (BitVec.intMin 64) (BitVec.intMin 64)).zf = true := by decide

end Csapp.Y86
