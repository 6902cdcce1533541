import Mathlib
import Csapp.Lib.Ieee

/-!
# The floating-point puzzles of the data lab

Three functions on the bit patterns of `float`, in unsigned arithmetic. They take
a pattern apart with masks; `Fields` says what the parts are.
-/

namespace Csapp.DataLab

/-- `floatScale2` -/
def floatScale2 (uf : BitVec 32) : BitVec 32 :=
  let signBit := 0x80000000#32
  let expBits := 0x7f800000#32
  let expOne := 0x00800000#32
  let sign := signBit &&& uf
  let exponent := expBits &&& uf
  let fraction := uf - exponent - sign
  if exponent = expBits then uf
  else if exponent ≠ 0#32 then sign + (exponent + expOne) + fraction
  else
    let fraction := fraction <<< 1
    if expBits &&& fraction ≠ 0#32 then
      let exponent := exponent + expOne
      if exponent = 0#32 then sign + expBits
      else sign + exponent + (fraction - expOne)
    else sign + exponent + fraction

/-- A shift by 32 or more is undefined. -/
def floatFloat2Int (uf : BitVec 32) : Option (BitVec 32) :=
  let signBit := 0x80000000#32
  let expBits := 0x7f800000#32
  let expOne := 0x00800000#32
  let imaxP1 := 0x4f000000#32
  let imin := 0xcf000000#32
  let ione := 0x3f800000#32
  let sign := signBit &&& uf
  let exponent := expBits &&& uf
  let fraction := uf - exponent - sign
  let puf := uf - sign
  if imin < uf ∨ imaxP1 ≤ puf then some 0x80000000#32
  else if puf < ione then some 0#32
  else
    let exponent := (exponent >>> 23) - 127#32
    let fraction := fraction + expOne
    let amount := 23#32 - exponent
    if amount < 32#32 then
      let fraction := fraction >>> amount
      some (if sign ≠ 0#32 then -fraction else fraction)
    else none

/-- With the `int` argument as it is in memory. -/
def floatPower2 (x : BitVec 32) : BitVec 32 :=
  let inf := 0x7f800000#32
  if (127#32).slt x then inf
  else if x.slt (-149#32) then 0#32
  else
    let exponent := x + 127#32
    if exponent.slt 0#32 then 1#32 <<< (22#32 + exponent)
    else exponent <<< 23

/-! ## Single precision -/

/-- The format of a `float`. -/
def single : Format := ⟨8, 23⟩

/-- The sign bit is set. -/
def negative (uf : BitVec 32) : Bool := uf.msb

/-- The pattern without its sign. -/
def code (uf : BitVec 32) : Nat := uf.toNat % 2147483648

/-- The pattern is a number. -/
def Finite (uf : BitVec 32) : Prop := code uf < single.top

instance (uf : BitVec 32) : Decidable (Finite uf) := inferInstanceAs (Decidable (_ < _))

/-- The number that a finite pattern stands for. -/
def value (uf : BitVec 32) : ℚ := single.value (negative uf) (code uf)

/-- The pattern of an infinity. -/
def infinity (neg : Bool) : BitVec 32 := if neg then 0xff800000#32 else 0x7f800000#32

theorem negative_code {r : BitVec 32} {s c : Nat} (h : r.toNat = s * 2147483648 + c) (hs : s < 2)
    (hc : c < 2147483648) : negative r = decide (s = 1) ∧ code r = c := by
  rw [negative, code, BitVec.msb_eq_decide, decide_eq_decide, h]
  omega

/-- The parts of a pattern, and what the masks leave of it. -/
structure Fields (uf : BitVec 32) (s e f : Nat) : Prop where
  nat : uf.toNat = s * 2147483648 + (e * 8388608 + f)
  sign_lt : s < 2
  exponent_lt : e < 256
  fraction_lt : f < 8388608
  sign : (0x80000000#32 &&& uf).toNat = s * 2147483648
  exponent : (0x7f800000#32 &&& uf).toNat = e * 8388608
  fraction : (uf - (0x7f800000#32 &&& uf) - (0x80000000#32 &&& uf)).toNat = f

/-- A mask of `m` ones, `k` places up. -/
theorem and_field (x m k : Nat) : x &&& ((2 ^ m - 1) * 2 ^ k) = x / 2 ^ k % 2 ^ m * 2 ^ k := by
  rw [← Nat.shiftLeft_eq, ← Nat.shiftLeft_eq, ← Nat.shiftRight_eq_div_pow]
  refine Nat.eq_of_testBit_eq fun i => ?_
  simp only [Nat.testBit_and, Nat.testBit_shiftLeft, Nat.testBit_two_pow_sub_one,
    Nat.testBit_mod_two_pow, Nat.testBit_shiftRight]
  by_cases hi : k ≤ i
  · simp only [ge_iff_le, hi, decide_true, Bool.true_and, Nat.add_sub_cancel' hi, Bool.and_comm]
  · simp [hi]

theorem exponent_mask (uf : BitVec 32) :
    (0x7f800000#32 &&& uf).toNat = uf.toNat / 8388608 % 256 * 8388608 := by
  rw [BitVec.toNat_and, Nat.and_comm]
  exact and_field uf.toNat 8 23

theorem sign_mask (uf : BitVec 32) :
    (0x80000000#32 &&& uf).toNat = uf.toNat / 2147483648 * 2147483648 := by
  have hlt := uf.isLt
  have h : uf.toNat &&& 2147483648 = uf.toNat / 2147483648 % 2 * 2147483648 :=
    and_field uf.toNat 1 31
  rw [Nat.mod_eq_of_lt (by omega)] at h
  rw [BitVec.toNat_and, Nat.and_comm]
  exact h

theorem fields (uf : BitVec 32) : ∃ s e f, Fields uf s e f := by
  have hlt := uf.isLt
  have hsign := sign_mask uf
  have hexp := exponent_mask uf
  refine ⟨uf.toNat / 2147483648, uf.toNat / 8388608 % 256, uf.toNat % 8388608, by omega, by omega,
    by omega, by omega, hsign, hexp, ?_⟩
  rw [BitVec.toNat_sub, BitVec.toNat_sub]
  omega

namespace Fields

variable {uf : BitVec 32} {s e f : Nat} (h : Fields uf s e f)

include h

theorem parts : DataLab.negative uf = decide (s = 1) ∧ DataLab.code uf = e * 8388608 + f := by
  have he := h.exponent_lt
  have hf := h.fraction_lt
  exact negative_code h.nat h.sign_lt (by omega)

theorem negative : DataLab.negative uf = decide (s = 1) := h.parts.1

theorem code : DataLab.code uf = e * 8388608 + f := h.parts.2

theorem exponent_field : single.exponent (DataLab.code uf) = e := by
  have hf := h.fraction_lt
  rw [h.code, Format.exponent]
  change (e * 8388608 + f) / 8388608 = e
  omega

theorem fraction_field : single.fraction (DataLab.code uf) = f := by
  have hf := h.fraction_lt
  rw [h.code, Format.fraction]
  change (e * 8388608 + f) % 8388608 = f
  omega

theorem finite : Finite uf ↔ e ≠ 255 := by
  have he := h.exponent_lt
  have hf := h.fraction_lt
  rw [Finite, h.code]
  change e * 8388608 + f < 2139095040 ↔ _
  omega

end Fields

/-! ## Doubling -/

theorem floatScale2_special {uf : BitVec 32} {s f : Nat} (h : Fields uf s 255 f) :
    floatScale2 uf = uf :=
  if_pos (BitVec.eq_of_toNat_eq h.exponent)

theorem floatScale2_normal {uf : BitVec 32} {s e f : Nat} (h : Fields uf s e f) (h0 : e ≠ 0)
    (h255 : e ≠ 255) :
    (floatScale2 uf).toNat = s * 2147483648 + ((e + 1) * 8388608 + f) := by
  have hs := h.sign_lt
  have he := h.exponent_lt
  have hf := h.fraction_lt
  have hspecial : ¬0x7f800000#32 &&& uf = 0x7f800000#32 := by
    rw [← BitVec.toNat_inj, h.exponent, BitVec.toNat_ofNat]
    omega
  have hnormal : 0x7f800000#32 &&& uf ≠ 0#32 := by
    rw [ne_eq, ← BitVec.toNat_inj, h.exponent, BitVec.toNat_ofNat]
    omega
  simp only [floatScale2]
  rw [if_neg hspecial, if_pos hnormal, BitVec.toNat_add, h.fraction, BitVec.toNat_add, h.sign,
    BitVec.toNat_add, h.exponent, BitVec.toNat_ofNat]
  omega

theorem floatScale2_denormal {uf : BitVec 32} {s f : Nat} (h : Fields uf s 0 f) :
    (floatScale2 uf).toNat = s * 2147483648 + 2 * f := by
  have hs := h.sign_lt
  have hf := h.fraction_lt
  have hexp : 0x7f800000#32 &&& uf = 0#32 := by
    rw [← BitVec.toNat_inj, h.exponent, BitVec.toNat_ofNat]
  have hfrac := h.fraction
  rw [hexp] at hfrac
  have hdouble : ((uf - 0#32 - (0x80000000#32 &&& uf)) <<< 1).toNat = 2 * f := by
    rw [BitVec.toNat_shiftLeft, hfrac, Nat.shiftLeft_eq]
    omega
  have hmask := exponent_mask ((uf - 0#32 - (0x80000000#32 &&& uf)) <<< 1)
  rw [hdouble] at hmask
  simp only [floatScale2]
  rw [hexp, if_neg (by decide), if_neg (by decide)]
  by_cases hover : 0x7f800000#32 &&& (uf - 0#32 - (0x80000000#32 &&& uf)) <<< 1 = 0#32
  · rw [if_neg (not_not.mpr hover), BitVec.toNat_add, hdouble, BitVec.toNat_add, h.sign,
      BitVec.toNat_ofNat]
    omega
  · have hcarry : 8388608 ≤ 2 * f := by
      rw [← BitVec.toNat_inj, hmask, BitVec.toNat_ofNat] at hover
      omega
    rw [if_pos hover, if_neg (by decide), BitVec.toNat_add, BitVec.toNat_sub, hdouble,
      BitVec.toNat_add, h.sign, BitVec.toNat_add, BitVec.toNat_ofNat, BitVec.toNat_ofNat]
    omega

/-- `r` is the pattern of `2 * f`. -/
def Scaled (uf r : BitVec 32) : Prop :=
  if Finite uf then
    if |2 * value uf| < 2 ^ 128 then
      Finite r ∧ negative r = negative uf ∧ value r = 2 * value uf
    else r = infinity (negative uf)
  else r = uf

/-- Infinity is where the next binade would begin. -/
theorem top_value (neg : Bool) : |single.value neg single.top| = 2 ^ 128 := by
  have h : single.value false ((254 + 1) * 2 ^ 23) = 2 ^ (((254 : Nat) : ℤ) + 1 - 127) :=
    Format.value_power (F := single) 254
  have habs : |single.value neg single.top| = |single.value false single.top| := by
    rw [Format.abs_value, Format.abs_value]
  have htop : single.value false single.top = 2 ^ 128 := h.trans (by norm_num)
  rw [habs, htop]
  norm_num

/-- A pattern of the sign, with twice the magnitude. -/
theorem scaled_of_code {uf r : BitVec 32} (hfin : Finite uf) (hneg : negative r = negative uf)
    (hmag : single.magnitude (code r) = 2 * single.magnitude (code uf)) :
    Scaled uf r ↔ Finite r ∨ r = infinity (negative uf) := by
  have hval : value r = 2 * value uf := by
    rw [value, hneg]
    exact Format.value_scale hmag
  have hlt : |2 * value uf| < 2 ^ 128 ↔ Finite r := by
    rw [← hval, ← top_value (negative r)]
    exact Format.abs_value_lt
  rw [Scaled, if_pos hfin]
  by_cases hr : Finite r
  · rw [if_pos (hlt.mpr hr)]
    exact ⟨fun _ => .inl hr, fun _ => ⟨hr, hneg, hval⟩⟩
  · rw [if_neg (mt hlt.mp hr)]
    exact ⟨.inr, fun h => h.resolve_left hr⟩

theorem infinity_toNat {s : Nat} (hs : s < 2) :
    (infinity (decide (s = 1))).toNat = s * 2147483648 + 2139095040 := by
  obtain rfl | rfl : s = 0 ∨ s = 1 := by omega
  · rfl
  · rfl

/-- `floatScale2` gives the pattern of `2 * f` for every pattern but those of the
largest exponent with a fraction. -/
theorem floatScale2_scaled_iff (uf : BitVec 32) :
    Scaled uf (floatScale2 uf) ↔
      ¬(single.exponent (code uf) = 254 ∧ single.fraction (code uf) ≠ 0) := by
  obtain ⟨s, e, f, h⟩ := fields uf
  have he := h.exponent_lt
  have hf := h.fraction_lt
  rw [h.exponent_field, h.fraction_field]
  by_cases h255 : e = 255
  · subst h255
    have hfin : ¬Finite uf := fun hfin => h.finite.mp hfin rfl
    rw [floatScale2_special h, Scaled, if_neg hfin]
    simp
  have hfin := h.finite.mpr h255
  by_cases h0 : e = 0
  · subst h0
    have hr := negative_code (floatScale2_denormal h) h.sign_lt (by omega)
    have hmag : single.magnitude (2 * f) = 2 * single.magnitude f :=
      single.magnitude_scale_low hf
    rw [scaled_of_code hfin (hr.1.trans h.negative.symm)
      (by rw [hr.2, h.code, Nat.zero_mul, Nat.zero_add, hmag])]
    have hfinr : Finite (floatScale2 uf) := by
      rw [Finite, hr.2]
      change 2 * f < 2139095040
      omega
    simp [hfinr]
  · have hr := negative_code (floatScale2_normal h h0 h255) h.sign_lt (by omega)
    have hcode : (e + 1) * 8388608 + f = e * 8388608 + f + 8388608 := by omega
    have hmag : single.magnitude (e * 8388608 + f + 8388608) =
        2 * single.magnitude (e * 8388608 + f) := by
      refine single.magnitude_scale ?_
      change 8388608 ≤ _
      omega
    rw [scaled_of_code hfin (hr.1.trans h.negative.symm) (by rw [hr.2, h.code, hcode, hmag])]
    have hfinr : Finite (floatScale2 uf) ↔ e ≠ 254 := by
      rw [Finite, hr.2]
      change (e + 1) * 8388608 + f < 2139095040 ↔ _
      omega
    have hinf : floatScale2 uf = infinity (negative uf) ↔ e = 254 ∧ f = 0 := by
      rw [h.negative, ← BitVec.toNat_inj, floatScale2_normal h h0 h255,
        infinity_toNat h.sign_lt]
      omega
    rw [hfinr, hinf]
    omega

/-- The number after two to the power of 127 becomes a NaN. -/
theorem floatScale2_not_scaled : ¬∀ uf, Scaled uf (floatScale2 uf) := by
  intro h
  have hfin : Finite 0x7f000001#32 := by decide
  have hr : ¬Finite (floatScale2 0x7f000001#32) := by decide
  have hinf : ¬floatScale2 0x7f000001#32 = infinity (negative 0x7f000001#32) := by decide
  exact absurd ((scaled_of_code hfin (by decide) (by decide)).mp (h 0x7f000001#32))
    (not_or.mpr ⟨hr, hinf⟩)

/-! ## Truncation -/

/-- Rounding toward zero. -/
def trunc (q : ℚ) : ℤ := if q < 0 then ⌈q⌉ else ⌊q⌋

/-- `r` is the `int` that `f` is truncated to, if it is one. -/
def Truncated (uf : BitVec 32) (r : Option (BitVec 32)) : Prop :=
  ∃ b, r = some b ∧
    if Finite uf ∧ -2 ^ 31 ≤ trunc (value uf) ∧ trunc (value uf) ≤ 2 ^ 31 - 1 then
      b.toInt = trunc (value uf)
    else b = 0x80000000#32

/-- The magnitude in whole units. -/
theorem trunc_value (uf : BitVec 32) :
    trunc (value uf) =
      if negative uf then -((single.magnitude (code uf) / 2 ^ 149 : Nat) : ℤ)
      else ((single.magnitude (code uf) / 2 ^ 149 : Nat) : ℤ) := by
  have htiny : (2 : ℚ) ^ single.tiny = 1 / ((2 ^ 149 : Nat) : ℚ) := by
    have h : single.tiny = -149 := by decide
    rw [h, zpow_neg, one_div, Nat.cast_pow, Nat.cast_ofNat]
    norm_num
  have hfloor := Rat.floor_natCast_div_natCast (single.magnitude (code uf)) (2 ^ 149)
  have hnonneg : (0 : ℚ) ≤ (single.magnitude (code uf) : ℚ) / ((2 ^ 149 : Nat) : ℚ) := by
    positivity
  rw [value, Format.value, htiny, mul_one_div]
  cases negative uf with
  | false =>
    rw [if_neg Bool.false_ne_true, if_neg Bool.false_ne_true, one_mul, trunc,
      if_neg (not_lt.mpr hnonneg), hfloor]
    rfl
  | true =>
    rw [if_pos rfl, if_pos rfl, neg_one_mul, trunc]
    split
    next => rw [Int.ceil_neg, hfloor]; rfl
    next hge =>
      have hzero : (single.magnitude (code uf) : ℚ) / ((2 ^ 149 : Nat) : ℚ) = 0 := by linarith
      rw [hzero] at hfloor ⊢
      rw [Int.floor_zero] at hfloor
      rw [neg_zero, Int.floor_zero]
      exact (neg_eq_zero.mpr hfloor.symm).symm

theorem puf_toNat {uf : BitVec 32} {s e f : Nat} (h : Fields uf s e f) :
    (uf - (0x80000000#32 &&& uf)).toNat = e * 8388608 + f := by
  have hs := h.sign_lt
  have he := h.exponent_lt
  have hf := h.fraction_lt
  rw [BitVec.toNat_sub, h.sign, h.nat]
  omega

theorem floatFloat2Int_large {uf : BitVec 32} {s e f : Nat} (h : Fields uf s e f)
    (he : 158 ≤ e) : floatFloat2Int uf = some 0x80000000#32 := by
  refine if_pos (.inr ?_)
  rw [BitVec.le_def, puf_toNat h, BitVec.toNat_ofNat]
  omega

theorem not_large {uf : BitVec 32} {s e f : Nat} (h : Fields uf s e f) (he : e < 158) :
    ¬(0xcf000000#32 < uf ∨ 0x4f000000#32 ≤ uf - (0x80000000#32 &&& uf)) := by
  have hs := h.sign_lt
  have hf := h.fraction_lt
  rw [BitVec.lt_def, BitVec.le_def, puf_toNat h, BitVec.toNat_ofNat, BitVec.toNat_ofNat, h.nat]
  omega

theorem floatFloat2Int_small {uf : BitVec 32} {s e f : Nat} (h : Fields uf s e f)
    (he : e < 127) : floatFloat2Int uf = some 0#32 := by
  have hf := h.fraction_lt
  have hone : uf - (0x80000000#32 &&& uf) < 0x3f800000#32 := by
    rw [BitVec.lt_def, puf_toNat h, BitVec.toNat_ofNat]
    omega
  simp only [floatFloat2Int]
  rw [if_neg (not_large h (by omega)), if_pos hone]

/-- The shift that is left, with its amount. -/
theorem floatFloat2Int_shift {uf : BitVec 32} {s e f : Nat} (h : Fields uf s e f)
    (hlo : 127 ≤ e) (hhi : e < 158) :
    ∃ amount fraction : BitVec 32,
      amount.toNat = (if e ≤ 150 then 150 - e else 4294967446 - e) ∧
      fraction.toNat = 8388608 + f ∧
      floatFloat2Int uf =
        if amount < 32#32 then
          some (if s = 1 then -(fraction >>> amount) else fraction >>> amount)
        else none := by
  have hs := h.sign_lt
  have hf := h.fraction_lt
  have hone : ¬uf - (0x80000000#32 &&& uf) < 0x3f800000#32 := by
    rw [BitVec.lt_def, puf_toNat h, BitVec.toNat_ofNat]
    omega
  have hsign : 0x80000000#32 &&& uf ≠ 0#32 ↔ s = 1 := by
    rw [ne_eq, ← BitVec.toNat_inj, h.sign, BitVec.toNat_ofNat]
    omega
  refine ⟨23#32 - ((0x7f800000#32 &&& uf) >>> 23 - 127#32),
    uf - (0x7f800000#32 &&& uf) - (0x80000000#32 &&& uf) + 0x00800000#32, ?_, ?_, ?_⟩
  · rw [BitVec.toNat_sub, BitVec.toNat_sub, BitVec.toNat_ushiftRight, h.exponent,
      Nat.shiftRight_eq_div_pow, BitVec.toNat_ofNat, BitVec.toNat_ofNat]
    split <;> omega
  · rw [BitVec.toNat_add, h.fraction, BitVec.toNat_ofNat]
    omega
  · simp only [floatFloat2Int]
    rw [if_neg (not_large h hhi), if_neg hone]
    simp only [hsign]

theorem floatFloat2Int_undefined {uf : BitVec 32} {s e f : Nat} (h : Fields uf s e f)
    (hlo : 151 ≤ e) (hhi : e ≤ 157) : floatFloat2Int uf = none := by
  obtain ⟨amount, fraction, hamount, -, hr⟩ := floatFloat2Int_shift h (by omega) (by omega)
  rw [if_neg (by omega)] at hamount
  rw [hr, if_neg]
  rw [BitVec.lt_def, hamount, BitVec.toNat_ofNat]
  omega

theorem floatFloat2Int_whole {uf : BitVec 32} {s e f : Nat} (h : Fields uf s e f)
    (hlo : 127 ≤ e) (hhi : e ≤ 150) :
    ∃ b, floatFloat2Int uf = some b ∧
      b.toInt = if s = 1 then -(((8388608 + f) / 2 ^ (150 - e) : Nat) : ℤ)
        else (((8388608 + f) / 2 ^ (150 - e) : Nat) : ℤ) := by
  have hf := h.fraction_lt
  obtain ⟨amount, fraction, hamount, hfraction, hr⟩ := floatFloat2Int_shift h hlo (by omega)
  rw [if_pos hhi] at hamount
  have hlt : amount < 32#32 := by
    rw [BitVec.lt_def, hamount, BitVec.toNat_ofNat]
    omega
  have hshift : (fraction >>> amount).toNat = (8388608 + f) / 2 ^ (150 - e) := by
    rw [BitVec.ushiftRight_eq', BitVec.toNat_ushiftRight, hamount, hfraction,
      Nat.shiftRight_eq_div_pow]
  have hle : (8388608 + f) / 2 ^ (150 - e) ≤ 8388608 + f := Nat.div_le_self _ _
  have hint : (fraction >>> amount).toInt = (((8388608 + f) / 2 ^ (150 - e) : Nat) : ℤ) := by
    rw [BitVec.toInt_eq_toNat_of_lt (by omega), hshift]
  refine ⟨_, hr.trans (if_pos hlt), ?_⟩
  split
  · rw [BitVec.toInt_neg, hint, Int.bmod_eq_of_le] <;> omega
  · exact hint

/-! ### The magnitude in whole units -/

theorem whole_small {c : Nat} (h : c < 127 * 8388608) : single.magnitude c / 2 ^ 149 = 0 := by
  have hmono := single.magnitude_strictMono h
  have hone : single.magnitude (127 * 8388608) = 2 ^ 149 := single.magnitude_power 126
  exact Nat.div_eq_of_lt (hone ▸ hmono)

theorem whole_large {c : Nat} (h : 158 * 8388608 ≤ c) :
    2 ^ 31 ≤ single.magnitude c / 2 ^ 149 := by
  have hmono := single.magnitude_strictMono.monotone h
  have hmax : single.magnitude (158 * 8388608) = 2 ^ 180 := single.magnitude_power 157
  rw [Nat.le_div_iff_mul_le (by positivity), ← Nat.pow_add]
  exact hmax ▸ hmono

theorem whole_binade {e f : Nat} (hlo : 127 ≤ e) (hhi : e ≤ 150) (hf : f < 8388608) :
    single.magnitude (e * 8388608 + f) / 2 ^ 149 = (8388608 + f) / 2 ^ (150 - e) := by
  obtain ⟨k, rfl⟩ : ∃ k, e = k + 1 := ⟨e - 1, by omega⟩
  have hmag : single.magnitude ((k + 1) * 8388608 + f) = (8388608 + f) * 2 ^ k :=
    single.magnitude_binade k hf
  have hpow : 2 ^ 149 = 2 ^ (150 - (k + 1)) * 2 ^ k := by
    rw [← Nat.pow_add]
    congr 1
    omega
  rw [hmag, hpow, Nat.mul_div_mul_right _ _ (by positivity)]

/-- `floatFloat2Int` truncates every pattern but those from 2 to the power of 24 to
where the range of `int` ends. -/
theorem floatFloat2Int_truncated_iff (uf : BitVec 32) :
    Truncated uf (floatFloat2Int uf) ↔
      ¬(151 ≤ single.exponent (code uf) ∧ single.exponent (code uf) ≤ 157) := by
  obtain ⟨s, e, f, h⟩ := fields uf
  have hs := h.sign_lt
  have hf := h.fraction_lt
  have htrunc := trunc_value uf
  rw [h.code, h.negative] at htrunc
  simp only [decide_eq_true_eq] at htrunc
  rw [h.exponent_field]
  by_cases hundef : 151 ≤ e ∧ e ≤ 157
  · refine iff_of_false (fun ht => ?_) (not_not.mpr hundef)
    obtain ⟨b, hb, -⟩ := ht
    rw [floatFloat2Int_undefined h hundef.1 hundef.2] at hb
    cases hb
  refine iff_of_true ?_ hundef
  by_cases hlarge : 158 ≤ e
  · have hwhole : 2 ^ 31 ≤ single.magnitude (e * 8388608 + f) / 2 ^ 149 :=
      whole_large (by omega)
    refine ⟨_, floatFloat2Int_large h hlarge, ?_⟩
    split
    next hin =>
      have hmin : (0x80000000#32).toInt = -2147483648 := by decide
      rw [hmin]
      split at htrunc <;> omega
    next => rfl
  by_cases hsmall : e < 127
  · have hwhole : single.magnitude (e * 8388608 + f) / 2 ^ 149 = 0 := whole_small (by omega)
    rw [hwhole] at htrunc
    have hzero : trunc (value uf) = 0 := by
      rw [htrunc]
      split <;> rfl
    refine ⟨_, floatFloat2Int_small h hsmall, ?_⟩
    rw [hzero, if_pos ⟨h.finite.mpr (by omega), by decide, by decide⟩]
    rfl
  · obtain ⟨b, hb, hint⟩ := floatFloat2Int_whole h (by omega) (by omega)
    have hle : (8388608 + f) / 2 ^ (150 - e) ≤ 8388608 + f := Nat.div_le_self _ _
    rw [whole_binade (by omega) (by omega) hf] at htrunc
    generalize (8388608 + f) / 2 ^ (150 - e) = whole at hle hint htrunc
    have hin : -2 ^ 31 ≤ trunc (value uf) ∧ trunc (value uf) ≤ 2 ^ 31 - 1 := by
      rw [htrunc]
      split <;> omega
    refine ⟨b, hb, ?_⟩
    rw [if_pos ⟨h.finite.mpr (by omega), hin⟩, hint, htrunc]

theorem floatFloat2Int_not_truncated : ¬∀ uf, Truncated uf (floatFloat2Int uf) := by
  intro h
  obtain ⟨b, hb, -⟩ := h 0x4b800000#32
  have hnone : floatFloat2Int 0x4b800000#32 = none := by decide
  exact absurd (hnone.symm.trans hb) (Option.some_ne_none b).symm

/-! ## Powers of two -/

/-- `r` is the pattern of two to the power of `x`. -/
def IsPower2 (x : BitVec 32) (r : BitVec 32) : Prop :=
  if 127 < x.toInt then r = infinity false
  else if x.toInt < -149 then r = 0#32
  else Finite r ∧ negative r = false ∧ value r = 2 ^ x.toInt

theorem slt_iff (x y : BitVec 32) : x.slt y = true ↔ x.toInt < y.toInt := by
  rw [BitVec.slt, decide_eq_true_eq]

theorem floatPower2_above {x : BitVec 32} (h : 127 < x.toInt) :
    floatPower2 x = infinity false :=
  if_pos ((slt_iff (127#32) x).mpr h)

theorem floatPower2_below {x : BitVec 32} (h : x.toInt < -149) : floatPower2 x = 0#32 := by
  have hle : ¬(127#32).slt x = true := by
    rw [slt_iff]
    change ¬127 < x.toInt
    omega
  have hlt : x.slt (-149#32) = true := (slt_iff x (-149#32)).mpr h
  simp only [floatPower2]
  rw [if_neg hle, if_pos hlt]

/-- The two encodings, with what tells them apart. -/
theorem floatPower2_within {x : BitVec 32} (hlo : -149 ≤ x.toInt) (hhi : x.toInt ≤ 127) :
    (floatPower2 x).toNat =
      if x.toInt < -127 then 2 ^ (x.toInt + 149).toNat else (x.toInt + 127).toNat * 8388608 := by
  have hle : ¬(127#32).slt x = true := by
    rw [slt_iff]
    change ¬127 < x.toInt
    omega
  have hge : ¬x.slt (-149#32) = true := by
    rw [slt_iff]
    change ¬x.toInt < -149
    omega
  have hcond := BitVec.toInt_eq_toNat_cond x
  have hlt := x.isLt
  have hsum : (x + 127#32).toInt = x.toInt + 127 := by
    rw [BitVec.toInt_add]
    change (x.toInt + 127).bmod 4294967296 = _
    rw [Int.bmod_eq_of_le] <;> omega
  have hneg : (x + 127#32).slt 0#32 = true ↔ x.toInt < -127 := by
    rw [slt_iff, hsum]
    change x.toInt + 127 < 0 ↔ _
    omega
  simp only [floatPower2]
  rw [if_neg hle, if_neg hge]
  by_cases hden : x.toInt < -127
  · have hamount : (22#32 + (x + 127#32)).toNat = (x.toInt + 149).toNat := by
      rw [BitVec.toNat_add, BitVec.toNat_add, BitVec.toNat_ofNat, BitVec.toNat_ofNat]
      split at hcond <;> omega
    have hpow : 2 ^ (x.toInt + 149).toNat < 2 ^ 32 := Nat.pow_lt_pow_right (by omega) (by omega)
    rw [if_pos (hneg.mpr hden), if_pos hden, BitVec.shiftLeft_eq', BitVec.toNat_shiftLeft, hamount,
      Nat.shiftLeft_eq, BitVec.toNat_ofNat, Nat.one_mod_two_pow_eq_one.mpr (by omega),
      Nat.one_mul, Nat.mod_eq_of_lt hpow]
  · have hexp : (x + 127#32).toNat = (x.toInt + 127).toNat := by
      rw [BitVec.toNat_add, BitVec.toNat_ofNat]
      split at hcond <;> omega
    rw [if_neg (mt hneg.mp hden), if_neg hden, BitVec.toNat_shiftLeft, hexp, Nat.shiftLeft_eq,
      Nat.mod_eq_of_lt (by omega)]

theorem single_tiny : single.tiny = -149 := by decide

/-- A positive pattern below infinity. -/
theorem positive_pattern {r : BitVec 32} {c : Nat} (h : r.toNat = c) (hc : c < 2139095040) :
    Finite r ∧ negative r = false ∧ value r = single.value false c := by
  have hr := negative_code (r := r) (s := 0) (c := c) (by omega) (by omega) (by omega)
  have hneg : negative r = false := hr.1
  rw [Finite, value, hr.2, hneg]
  exact ⟨hc, rfl, rfl⟩

/-- The pattern of a power of two. -/
theorem isPower2_within {x : BitVec 32} (hlo : -149 ≤ x.toInt) (hhi : x.toInt ≤ 127)
    (hne : x.toInt ≠ -127) : IsPower2 x (floatPower2 x) := by
  have hnat := floatPower2_within hlo hhi
  rw [IsPower2, if_neg (by omega), if_neg (by omega)]
  by_cases hden : x.toInt < -127
  · have hpow : 2 ^ (x.toInt + 149).toNat < 2 ^ 23 := Nat.pow_lt_pow_right (by omega) (by omega)
    have hval : single.value false (2 ^ (x.toInt + 149).toNat) =
        2 ^ (((x.toInt + 149).toNat : ℤ) + single.tiny) := by
      refine Format.value_denormal ?_
      change _ < 23
      omega
    have hexp : ((x.toInt + 149).toNat : ℤ) + single.tiny = x.toInt := by
      rw [single_tiny]
      omega
    rw [if_pos hden] at hnat
    rw [hexp] at hval
    rw [← hval]
    exact positive_pattern hnat (by omega)
  · obtain ⟨e, he⟩ : ∃ e : Nat, x.toInt = (e : ℤ) + 1 - 127 := ⟨(x.toInt + 126).toNat, by omega⟩
    have hval : single.value false ((e + 1) * 2 ^ 23) = 2 ^ ((e : ℤ) + 1 - 127) :=
      Format.value_power (F := single) e
    have htwo : (x.toInt + 127).toNat = e + 1 := by omega
    rw [if_neg hden, htwo] at hnat
    rw [he, ← hval]
    exact positive_pattern hnat (by omega)

theorem isPower2_outside {x : BitVec 32} (h : x.toInt < -149 ∨ 127 < x.toInt) :
    IsPower2 x (floatPower2 x) := by
  rw [IsPower2]
  rcases h with hlo | hhi
  · rw [if_neg (by omega), if_pos hlo]
    exact floatPower2_below hlo
  · rw [if_pos hhi]
    exact floatPower2_above hhi

theorem floatPower2_border {x : BitVec 32} (h : x.toInt = -127) : floatPower2 x = 0#32 := by
  have hnat := floatPower2_within (x := x) (by omega) (by omega)
  rw [if_neg (by omega), h] at hnat
  exact BitVec.eq_of_toNat_eq hnat

theorem value_zero : value 0#32 = 0 := by
  have hmag : single.magnitude (code 0#32) = 0 := by decide
  rw [value, Format.value, hmag, Nat.cast_zero, zero_mul, mul_zero]

theorem value_power2 {x : BitVec 32} (hlo : -149 ≤ x.toInt) (hhi : x.toInt ≤ 127)
    (hne : x.toInt ≠ -127) : value (floatPower2 x) = 2 ^ x.toInt := by
  have h := isPower2_within hlo hhi hne
  rw [IsPower2, if_neg (by omega), if_neg (by omega)] at h
  exact h.2.2

/-- One more doubles. -/
def Doubles (x : BitVec 32) : Prop :=
  -149 ≤ x.toInt → x.toInt < 127 →
    value (floatPower2 (x + 1#32)) = 2 * value (floatPower2 x)

theorem toInt_succ {x : BitVec 32} (hlo : -149 ≤ x.toInt) (hhi : x.toInt < 127) :
    (x + 1#32).toInt = x.toInt + 1 := by
  rw [BitVec.toInt_add]
  change (x.toInt + 1).bmod 4294967296 = _
  rw [Int.bmod_eq_of_le] <;> omega

theorem not_isPower2_border {x : BitVec 32} (h : x.toInt = -127) :
    ¬IsPower2 x (floatPower2 x) := by
  have hpos : (0 : ℚ) < 2 ^ x.toInt := by positivity
  rw [IsPower2, if_neg (by omega), if_neg (by omega), floatPower2_border h, value_zero]
  exact fun hp => hpos.ne hp.2.2

theorem not_doubles_border {x : BitVec 32} (h : x.toInt = -127 ∨ x.toInt = -128) :
    ¬Doubles x := by
  intro hd
  have hsucc := toInt_succ (x := x) (by omega) (by omega)
  have hd := hd (by omega) (by omega)
  rcases h with h | h
  · have hpos : (0 : ℚ) < 2 ^ (x + 1#32).toInt := by positivity
    rw [value_power2 (x := x + 1#32) (by omega) (by omega) (by omega), floatPower2_border h,
      value_zero, mul_zero] at hd
    exact hpos.ne' hd
  · have hpos : (0 : ℚ) < 2 * 2 ^ x.toInt := by positivity
    rw [floatPower2_border (x := x + 1#32) (by omega), value_zero,
      value_power2 (by omega) (by omega) (by omega)] at hd
    exact hpos.ne hd

/-- `floatPower2` misses one power, the largest of the denormals, and so two of the
doublings. -/
theorem floatPower2_iff (x : BitVec 32) :
    (IsPower2 x (floatPower2 x) ↔ x.toInt ≠ -127) ∧
      (Doubles x ↔ x.toInt ≠ -127 ∧ x.toInt ≠ -128) := by
  constructor
  · constructor
    · exact fun hp h => not_isPower2_border h hp
    · intro hne
      by_cases hin : -149 ≤ x.toInt ∧ x.toInt ≤ 127
      · exact isPower2_within hin.1 hin.2 hne
      · exact isPower2_outside (by omega)
  · constructor
    · intro hd
      exact ⟨fun h => not_doubles_border (.inl h) hd, fun h => not_doubles_border (.inr h) hd⟩
    · intro hne hlo hhi
      have hsucc := toInt_succ hlo hhi
      rw [value_power2 hlo (by omega) hne.1,
        value_power2 (x := x + 1#32) (by omega) (by omega) (by omega), hsucc,
        zpow_add_one₀ two_ne_zero, mul_comm]

theorem floatPower2_misses : ¬∀ x, IsPower2 x (floatPower2 x) ∧ Doubles x := by
  intro h
  have hx : (-127#32).toInt = -127 := by decide
  exact not_isPower2_border hx (h (-127#32)).1

end Csapp.DataLab
