import Mathlib

/-!
# Two's complement words

A word of `w + 1` bits as an integer: a sum or a difference of two words is the
exact one or lies one modulus beside it; a shift by `w` leaves the sign alone;
and or-ing in ever longer shifts fills everything below the highest bit.
-/

namespace Csapp

variable {w : Nat}

/-! ## Sums and differences -/

theorem word_range (x : BitVec (w + 1)) : -2 ^ w ≤ x.toInt ∧ x.toInt < 2 ^ w :=
  ⟨BitVec.le_toInt x, BitVec.toInt_lt⟩

/-- What is left of an integer in `w + 1` bits, if it is at most one bit too long. -/
theorem bmod_cases {v : Int} (hlo : -2 ^ (w + 1) ≤ v) (hhi : v < 2 ^ (w + 1)) :
    (-2 ^ w ≤ v ∧ v < 2 ^ w ∧ v.bmod (2 ^ (w + 1)) = v) ∨
      (v < -2 ^ w ∧ v.bmod (2 ^ (w + 1)) = v + 2 ^ (w + 1)) ∨
      (2 ^ w ≤ v ∧ v.bmod (2 ^ (w + 1)) = v - 2 ^ (w + 1)) := by
  have hpow : (2 : Int) ^ (w + 1) = 2 * 2 ^ w := Int.pow_succ' ..
  have hcast : ((2 ^ (w + 1) : Nat) : Int) = 2 * 2 ^ w := by
    rw [← hpow]
    exact Int.natCast_pow ..
  rw [hpow] at hlo hhi ⊢
  rw [Int.bmod_eq_emod, hcast]
  generalize (2 : Int) ^ w = m at *
  have hlow : v < 0 → v % (2 * m) = v + 2 * m := by
    intro hneg
    rw [← Int.add_emod_right, Int.emod_eq_of_lt (by omega) (by omega)]
  have hhigh : 0 ≤ v → v % (2 * m) = v := fun hpos => Int.emod_eq_of_lt hpos hhi
  rcases Int.lt_or_le v 0 with hneg | hpos
  · rw [hlow hneg]
    split <;> omega
  · rw [hhigh hpos]
    split <;> omega

theorem toInt_add_cases (x y : BitVec (w + 1)) :
    (-2 ^ w ≤ x.toInt + y.toInt ∧ x.toInt + y.toInt < 2 ^ w ∧ (x + y).toInt = x.toInt + y.toInt) ∨
      (x.toInt + y.toInt < -2 ^ w ∧ (x + y).toInt = x.toInt + y.toInt + 2 ^ (w + 1)) ∨
      (2 ^ w ≤ x.toInt + y.toInt ∧ (x + y).toInt = x.toInt + y.toInt - 2 ^ (w + 1)) := by
  have hx := word_range x
  have hy := word_range y
  rw [BitVec.toInt_add]
  exact bmod_cases (by rw [Int.pow_succ']; omega) (by rw [Int.pow_succ']; omega)

theorem toInt_sub_cases (x y : BitVec (w + 1)) :
    (-2 ^ w ≤ x.toInt - y.toInt ∧ x.toInt - y.toInt < 2 ^ w ∧ (x - y).toInt = x.toInt - y.toInt) ∨
      (x.toInt - y.toInt < -2 ^ w ∧ (x - y).toInt = x.toInt - y.toInt + 2 ^ (w + 1)) ∨
      (2 ^ w ≤ x.toInt - y.toInt ∧ (x - y).toInt = x.toInt - y.toInt - 2 ^ (w + 1)) := by
  have hx := word_range x
  have hy := word_range y
  rw [BitVec.toInt_sub]
  exact bmod_cases (by rw [Int.pow_succ']; omega) (by rw [Int.pow_succ']; omega)

/-! ## The sign -/

theorem sshiftRight_sign (x : BitVec (w + 1)) :
    x.sshiftRight w = if x.toInt < 0 then BitVec.allOnes (w + 1) else 0 := by
  have hmsb : x.msb = decide (x.toInt < 0) := BitVec.msb_eq_toInt
  refine BitVec.eq_of_getLsbD_eq fun i hi => ?_
  rw [BitVec.getLsbD_sshiftRight]
  have hlast : x.getLsbD w = x.msb := (BitVec.msb_eq_getLsbD_last x).symm
  have hbit : (if w + i < w + 1 then x.getLsbD (w + i) else x.msb) = x.msb := by
    split
    · obtain rfl : i = 0 := by omega
      exact hlast
    · rfl
  rw [hbit, hmsb]
  split_ifs with hneg
  · simp [Nat.le_of_lt_succ hi, hneg]
  · simp [hneg]

/-! ## Smearing -/

/-- Bit `i` of `y` tells whether one of the `n` bits of `x` from `i` on is set. -/
def Smeared (n : Nat) (x y : BitVec w) : Prop :=
  ∀ i, y.getLsbD i = true ↔ ∃ j < n, x.getLsbD (i + j) = true

theorem smeared_one (x : BitVec w) : Smeared 1 x x := by
  intro i
  constructor
  · exact fun h => ⟨0, Nat.one_pos, h⟩
  · rintro ⟨j, hj, h⟩
    obtain rfl : j = 0 := by omega
    exact h

/-- Each step doubles the number of bits. -/
theorem Smeared.double {n : Nat} {x y : BitVec w} (h : Smeared n x y) :
    Smeared (n + n) x (y ||| y >>> n) := by
  intro i
  rw [BitVec.getLsbD_or, BitVec.getLsbD_ushiftRight, Bool.or_eq_true, h, h]
  constructor
  · rintro (⟨j, hj, hb⟩ | ⟨j, hj, hb⟩)
    · exact ⟨j, by omega, hb⟩
    · refine ⟨n + j, by omega, ?_⟩
      rw [show i + (n + j) = n + i + j by omega]
      exact hb
  · rintro ⟨j, hj, hb⟩
    by_cases hlt : j < n
    · exact .inl ⟨j, hlt, hb⟩
    · refine .inr ⟨j - n, by omega, ?_⟩
      rw [show n + i + (j - n) = i + j by omega]
      exact hb

/-- With all bits seen, what is set are the bits of the length of `x`. -/
theorem Smeared.toNat {n : Nat} {x y : BitVec w} (h : Smeared n x y) (hn : w ≤ n) :
    y.toNat = 2 ^ x.toNat.size - 1 := by
  refine Nat.eq_of_testBit_eq fun i => ?_
  rw [Nat.testBit_two_pow_sub_one, Bool.eq_iff_iff, decide_eq_true_iff, Nat.lt_size]
  refine (h i).trans ⟨?_, ?_⟩
  · rintro ⟨j, -, hb⟩
    exact (Nat.pow_le_pow_right Nat.two_pos (Nat.le_add_right i j)).trans
      (Nat.ge_two_pow_of_testBit hb)
  · intro hle
    obtain ⟨k, hk, hb⟩ := Nat.exists_ge_and_testBit_of_ge_two_pow hle
    have hlt : k < w := by
      by_contra hge
      rw [BitVec.testBit_toNat, BitVec.getLsbD_of_ge x k (by omega)] at hb
      cases hb
    refine ⟨k - i, by omega, ?_⟩
    rw [show i + (k - i) = k by omega]
    exact hb

end Csapp
