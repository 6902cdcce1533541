import Mathlib

/-!
# Binary floating-point formats

A bit pattern without its sign bit is a number, its code: the exponent field
above the fraction. The magnitude of a code is counted in units of the smallest
positive number, so that it is a natural number, for denormals and for normals.

Codes are ordered as their magnitudes are. The code at which the infinities begin
goes on as if there were one more binade, so it bounds the finite codes.
-/

namespace Csapp

/-- The widths of the exponent and of the fraction. -/
structure Format where
  expBits : Nat
  fracBits : Nat

namespace Format

variable (F : Format)

/-- The exponent field. -/
def exponent (code : Nat) : Nat := code / 2 ^ F.fracBits

/-- The fraction field. -/
def fraction (code : Nat) : Nat := code % 2 ^ F.fracBits

/-- The code of infinity. The codes above it are those of NaNs. -/
def top : Nat := (2 ^ F.expBits - 1) * 2 ^ F.fracBits

/-- What the exponent field exceeds the exponent by. -/
def bias : Nat := 2 ^ (F.expBits - 1) - 1

/-- The smallest positive number is two to the power of this. -/
def tiny : ℤ := 1 - F.bias - F.fracBits

/-- The absolute value, in units of the smallest number. -/
def magnitude (code : Nat) : Nat :=
  if F.exponent code = 0 then F.fraction code
  else (2 ^ F.fracBits + F.fraction code) * 2 ^ (F.exponent code - 1)

/-- The number of a code with a sign. -/
def value (neg : Bool) (code : Nat) : ℚ :=
  (if neg then -1 else 1) * (F.magnitude code * 2 ^ F.tiny)

/-! ## Magnitudes -/

theorem magnitude_low {code : Nat} (h : code < 2 ^ F.fracBits) : F.magnitude code = code := by
  have hexp : F.exponent code = 0 := Nat.div_eq_of_lt h
  rw [magnitude, if_pos hexp]
  exact Nat.mod_eq_of_lt h

theorem magnitude_binade (e : Nat) {f : Nat} (h : f < 2 ^ F.fracBits) :
    F.magnitude ((e + 1) * 2 ^ F.fracBits + f) = (2 ^ F.fracBits + f) * 2 ^ e := by
  have hexp : F.exponent ((e + 1) * 2 ^ F.fracBits + f) = e + 1 := by
    rw [exponent, Nat.add_comm, Nat.add_mul_div_right _ _ (by positivity), Nat.div_eq_of_lt h,
      Nat.zero_add]
  have hfrac : F.fraction ((e + 1) * 2 ^ F.fracBits + f) = f := by
    rw [fraction, Nat.add_comm, Nat.add_mul_mod_self_right, Nat.mod_eq_of_lt h]
  rw [magnitude, hexp, hfrac, if_neg (Nat.succ_ne_zero e), Nat.add_sub_cancel]

theorem magnitude_power (e : Nat) :
    F.magnitude ((e + 1) * 2 ^ F.fracBits) = 2 ^ (F.fracBits + e) := by
  have h := F.magnitude_binade e (f := 0) (by positivity)
  simpa only [Nat.add_zero, ← Nat.pow_add] using h

/-- A code is in the lowest binade, or it has an exponent. -/
theorem low_or_binade (code : Nat) : code < 2 ^ F.fracBits ∨
    ∃ e f, code = (e + 1) * 2 ^ F.fracBits + f ∧ f < 2 ^ F.fracBits := by
  have hdiv : 2 ^ F.fracBits * (code / 2 ^ F.fracBits) + code % 2 ^ F.fracBits = code :=
    Nat.div_add_mod _ _
  have hlt : code % 2 ^ F.fracBits < 2 ^ F.fracBits := Nat.mod_lt _ (by positivity)
  cases he : code / 2 ^ F.fracBits with
  | zero =>
    left
    rw [he] at hdiv
    omega
  | succ e =>
    right
    rw [he, Nat.mul_comm] at hdiv
    exact ⟨e, _, hdiv.symm, hlt⟩

/-- The next exponent means twice the number. -/
theorem magnitude_scale {code : Nat} (h : 2 ^ F.fracBits ≤ code) :
    F.magnitude (code + 2 ^ F.fracBits) = 2 * F.magnitude code := by
  rcases F.low_or_binade code with hlow | ⟨e, f, rfl, hf⟩
  · omega
  · have hnext : (e + 1) * 2 ^ F.fracBits + f + 2 ^ F.fracBits =
        (e + 1 + 1) * 2 ^ F.fracBits + f := by ring
    rw [hnext, F.magnitude_binade (e + 1) hf, F.magnitude_binade e hf]
    ring

/-- So does twice the fraction of a denormal, also where the result is none. -/
theorem magnitude_scale_low {code : Nat} (h : code < 2 ^ F.fracBits) :
    F.magnitude (2 * code) = 2 * F.magnitude code := by
  rw [F.magnitude_low h]
  by_cases hlow : 2 * code < 2 ^ F.fracBits
  · exact F.magnitude_low hlow
  · have hcode : 2 * code = (0 + 1) * 2 ^ F.fracBits + (2 * code - 2 ^ F.fracBits) := by omega
    rw [hcode, F.magnitude_binade 0 (by omega)]
    omega

theorem magnitude_lt_succ (code : Nat) : F.magnitude code < F.magnitude (code + 1) := by
  have hpos : 0 < 2 ^ F.fracBits := by positivity
  rcases F.low_or_binade code with hlow | ⟨e, f, rfl, hf⟩
  · rw [F.magnitude_low hlow]
    by_cases hnext : code + 1 < 2 ^ F.fracBits
    · rw [F.magnitude_low hnext]
      exact Nat.lt_succ_self code
    · have hcode : code + 1 = (0 + 1) * 2 ^ F.fracBits + 0 := by omega
      rw [hcode, F.magnitude_binade 0 hpos]
      omega
  · rw [F.magnitude_binade e hf]
    by_cases hnext : f + 1 < 2 ^ F.fracBits
    · rw [Nat.add_assoc, F.magnitude_binade e hnext]
      exact Nat.mul_lt_mul_of_pos_right (by omega) (by positivity)
    · have hcode : (e + 1) * 2 ^ F.fracBits + f + 1 = (e + 1 + 1) * 2 ^ F.fracBits + 0 := by
        have hf : f + 1 = 2 ^ F.fracBits := by omega
        rw [Nat.add_assoc, hf]
        ring
      rw [hcode, F.magnitude_binade (e + 1) hpos, Nat.pow_succ, Nat.mul_comm (2 ^ e),
        ← Nat.mul_assoc]
      exact Nat.mul_lt_mul_of_pos_right (by omega) (by positivity)

theorem magnitude_strictMono : StrictMono F.magnitude :=
  strictMono_nat_of_lt_succ F.magnitude_lt_succ

/-! ## Values -/

variable {F}

theorem abs_value (neg : Bool) (code : Nat) :
    |F.value neg code| = F.magnitude code * 2 ^ F.tiny := by
  have hnonneg : (0 : ℚ) ≤ F.magnitude code * 2 ^ F.tiny := by positivity
  cases neg with
  | false => rw [value, if_neg Bool.false_ne_true, one_mul, abs_of_nonneg hnonneg]
  | true => rw [value, if_pos rfl, neg_one_mul, abs_neg, abs_of_nonneg hnonneg]

theorem value_scale {neg : Bool} {code code' : Nat}
    (h : F.magnitude code' = 2 * F.magnitude code) :
    F.value neg code' = 2 * F.value neg code := by
  rw [value, value, h]
  push_cast
  ring

/-- The power of two that a code without fraction is. -/
theorem value_power (e : Nat) :
    F.value false ((e + 1) * 2 ^ F.fracBits) = 2 ^ ((e : ℤ) + 1 - F.bias) := by
  have hexp : ((F.fracBits + e : Nat) : ℤ) + F.tiny = (e : ℤ) + 1 - F.bias := by
    rw [tiny]
    push_cast
    ring
  rw [value, if_neg Bool.false_ne_true, one_mul, F.magnitude_power, Nat.cast_pow, Nat.cast_ofNat,
    ← zpow_natCast, ← zpow_add₀ two_ne_zero, hexp]

theorem value_denormal {k : Nat} (h : k < F.fracBits) :
    F.value false (2 ^ k) = 2 ^ ((k : ℤ) + F.tiny) := by
  rw [value, if_neg Bool.false_ne_true, one_mul,
    F.magnitude_low (Nat.pow_lt_pow_right (by omega) h), Nat.cast_pow, Nat.cast_ofNat,
    ← zpow_natCast, ← zpow_add₀ two_ne_zero]

theorem abs_value_lt {neg neg' : Bool} {code code' : Nat} :
    |F.value neg code| < |F.value neg' code'| ↔ code < code' := by
  have hunit : (0 : ℚ) < 2 ^ F.tiny := by positivity
  rw [abs_value, abs_value, mul_lt_mul_iff_left₀ hunit, Nat.cast_lt,
    F.magnitude_strictMono.lt_iff_lt]

end Format

end Csapp
