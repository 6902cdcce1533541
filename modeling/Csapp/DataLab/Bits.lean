import Mathlib
import Csapp.Lib.TwosComplement

/-!
# The integer puzzles of the data lab

The functions of `bits.c` without branches, loops and comparisons, and the
references of `tests.c` with them. An `int` is a word of 32 bits that wraps
around and is shifted to the right with its sign. What the puzzles do with a
sign is one of two things: they shift it over the whole word, or they compare
the sign of a wrapped difference.
-/

namespace Csapp.DataLab

/-- The operator `!`. -/
def lnot (x : BitVec 32) : BitVec 32 := if x = 0#32 then 1#32 else 0#32

/-! ## `bits.c` -/

/-- `bitXor` -/
def bitXor (x y : BitVec 32) : BitVec 32 :=
  let notin := ~~~(x &&& y)
  let notout := ~~~(~~~x &&& ~~~y)
  notin &&& notout

/-- `isTmax` -/
def isTmax (x : BitVec 32) : BitVec 32 :=
  let y := x + 1#32
  lnot (lnot (~~~x)) &&& lnot (~~~(x ^^^ y))

/-- `allOddBits` -/
def allOddBits (x : BitVec 32) : BitVec 32 :=
  let allevens := 0x55#32
  let allevens := allevens + (allevens <<< 8)
  let allevens := allevens + (allevens <<< 16)
  lnot (~~~(allevens ||| x))

/-- `negate` -/
def negate (x : BitVec 32) : BitVec 32 := ~~~x + 1#32

/-- `isAsciiDigit`: the signs of two differences. -/
def isAsciiDigit (x : BitVec 32) : BitVec 32 :=
  let negx := ~~~x + 1#32
  let isunder := 0x39#32 + negx
  let isupper := x + (~~~0x30#32 + 1#32)
  let isunderTopbit := isunder.sshiftRight 31
  let isupperTopbit := isupper.sshiftRight 31
  lnot (isunderTopbit ||| isupperTopbit)

/-- `conditional`: a mask of ones where `x` is zero. -/
def conditional (x y z : BitVec 32) : BitVec 32 :=
  let notx := lnot x
  let filter := (notx <<< 1) + notx
  let filter := (filter <<< 2) + filter
  let filter := (filter <<< 4) + filter
  let filter := (filter <<< 8) + filter
  let filter := (filter <<< 16) + filter
  (filter &&& z) + (~~~filter &&& y)

/-- `isLessOrEqual`: the signs first, then the sign of the difference. -/
def isLessOrEqual (x y : BitVec 32) : BitVec 32 :=
  let xpos := lnot (x.sshiftRight 31)
  let ypos := lnot (y.sshiftRight 31)
  let negx := ~~~x + 1#32
  let ymx := y + negx
  let sgn := ymx.sshiftRight 31
  let xIntmin := lnot (lnot x) &&& lnot (negx ^^^ x)
  let xOnlyneg := lnot xpos &&& ypos
  let sameSgn := lnot (xpos ^^^ ypos) &&& lnot sgn
  xIntmin ||| xOnlyneg ||| sameSgn

/-- `logicalNeg`: adding all ones leaves the sign for zero only. -/
def logicalNeg (x : BitVec 32) : BitVec 32 :=
  let xsgn := x.sshiftRight 31
  let posx := (~~~xsgn &&& x) + (xsgn &&& (1#32 <<< 31))
  let allone := ~~~0#32
  let sum := allone + posx
  let sgn := sum.sshiftRight 31
  sgn &&& 1#32

/-- In `howManyBits`: everything after the highest bit is made one. -/
def smear (posx : BitVec 32) : BitVec 32 :=
  let posx := posx ||| posx.sshiftRight 1
  let posx := posx ||| posx.sshiftRight 2
  let posx := posx ||| posx.sshiftRight 4
  let posx := posx ||| posx.sshiftRight 8
  posx ||| posx.sshiftRight 16

/-- In `howManyBits`: the masks, and the sum of the bits. -/
def sumBits (posx : BitVec 32) : BitVec 32 :=
  let m01 := 0x55#32
  let m02 := 0x33#32
  let m04 := 0x0f#32
  let m08 := (0xff#32 <<< 16) + 0xff#32
  let m16 := (0xff#32 <<< 8) + 0xff#32
  let m01 := m01 + (m01 <<< 8)
  let m01 := m01 + (m01 <<< 16)
  let m02 := m02 + (m02 <<< 8)
  let m02 := m02 + (m02 <<< 16)
  let m04 := m04 + (m04 <<< 8)
  let m04 := m04 + (m04 <<< 16)
  let posx := (posx &&& m01) + (posx.sshiftRight 1 &&& m01)
  let posx := (posx &&& m02) + (posx.sshiftRight 2 &&& m02)
  let posx := (posx &&& m04) + (posx.sshiftRight 4 &&& m04)
  let posx := (posx &&& m08) + (posx.sshiftRight 8 &&& m08)
  (posx &&& m16) + (posx.sshiftRight 16 &&& m16)

/-- `howManyBits`: the bits after the highest one that differs from the sign, counted. -/
def howManyBits (x : BitVec 32) : BitVec 32 :=
  let filter := x.sshiftRight 31
  let posx := (~~~x &&& filter) + (x &&& ~~~filter)
  sumBits (smear posx) + 1#32

/-! ## `tests.c` -/

/-- A truth value as an `int`. -/
def ofProp (p : Prop) [Decidable p] : BitVec 32 := if p then 1#32 else 0#32

/-- `test_bitXor` -/
def testBitXor (x y : BitVec 32) : BitVec 32 := x ^^^ y

/-- `test_isTmax` -/
def testIsTmax (x : BitVec 32) : BitVec 32 := ofProp (x = 0x7FFFFFFF#32)

/-- The loop of `test_allOddBits` from `i` on. -/
def oddLoop (x : BitVec 32) (i : Nat) : BitVec 32 :=
  if i < 32 then
    if x &&& (1#32 <<< i) = 0#32 then 0#32 else oddLoop x (i + 2)
  else 1#32
termination_by 32 - i

/-- `test_allOddBits` -/
def testAllOddBits (x : BitVec 32) : BitVec 32 := oddLoop x 1

/-- `test_negate` -/
def testNegate (x : BitVec 32) : BitVec 32 := -x

/-- `test_isAsciiDigit` -/
def testIsAsciiDigit (x : BitVec 32) : BitVec 32 :=
  ofProp ((0x30#32).toInt ≤ x.toInt ∧ x.toInt ≤ (0x39#32).toInt)

/-- `test_conditional` -/
def testConditional (x y z : BitVec 32) : BitVec 32 := if x ≠ 0#32 then y else z

/-- `test_isLessOrEqual` -/
def testIsLessOrEqual (x y : BitVec 32) : BitVec 32 := ofProp (x.toInt ≤ y.toInt)

/-- `test_logicalNeg` -/
def testLogicalNeg (x : BitVec 32) : BitVec 32 := lnot x

/-- The loop of `test_howManyBits`, on unsigned words. -/
def bitLoop (a cnt : BitVec 32) : BitVec 32 :=
  if a ≠ 0#32 then bitLoop (a >>> 1) (cnt + 1#32) else cnt
termination_by a.toNat
decreasing_by
  have : a.toNat ≠ 0 := by simpa [BitVec.toNat_eq] using ‹a ≠ 0#32›
  rw [BitVec.toNat_ushiftRight, Nat.shiftRight_eq_div_pow]
  omega

/-- `test_howManyBits` -/
def testHowManyBits (x : BitVec 32) : BitVec 32 :=
  let x := if x.toInt < 0 then -x - 1#32 else x
  bitLoop x 0#32 + 1#32

/-! ## Truth values -/

theorem lnot_ofProp (p : Prop) [Decidable p] : lnot (ofProp p) = ofProp ¬p := by
  by_cases h : p <;> simp [lnot, ofProp, h]

theorem ofProp_and (p q : Prop) [Decidable p] [Decidable q] :
    ofProp p &&& ofProp q = ofProp (p ∧ q) := by
  by_cases hp : p <;> by_cases hq : q <;> simp [ofProp, hp, hq]

theorem ofProp_or (p q : Prop) [Decidable p] [Decidable q] :
    ofProp p ||| ofProp q = ofProp (p ∨ q) := by
  by_cases hp : p <;> by_cases hq : q <;> simp [ofProp, hp, hq]

theorem ofProp_xor (p q : Prop) [Decidable p] [Decidable q] :
    lnot (ofProp p ^^^ ofProp q) = ofProp (p ↔ q) := by
  by_cases hp : p <;> by_cases hq : q <;> simp [ofProp, lnot, hp, hq]

theorem ofProp_congr {p q : Prop} [Decidable p] [Decidable q] (h : p ↔ q) :
    ofProp p = ofProp q := by
  by_cases hp : p
  · rw [ofProp, ofProp, if_pos hp, if_pos (h.mp hp)]
  · rw [ofProp, ofProp, if_neg hp, if_neg (fun hq => hp (h.mpr hq))]

theorem lnot_eq (x : BitVec 32) : lnot x = ofProp (x = 0#32) := rfl

/-- The sign, spread over the word and negated. -/
theorem lnot_sign (x : BitVec 32) : lnot (x.sshiftRight 31) = ofProp (0 ≤ x.toInt) := by
  rw [lnot_eq, sshiftRight_sign]
  refine ofProp_congr ?_
  split_ifs with h
  · exact iff_of_false (by decide) (by omega)
  · exact iff_of_true rfl (by omega)

theorem sub_eq_add_not (x y : BitVec 32) : y + (~~~x + 1#32) = y - x := by
  rw [BitVec.sub_eq_add_neg, BitVec.neg_eq_not_add]

/-! ## The puzzles without loops -/

theorem bitXor_eq (x y : BitVec 32) : bitXor x y = testBitXor x y := by
  refine BitVec.eq_of_getLsbD_eq fun i hi => ?_
  simp only [bitXor, testBitXor, BitVec.getLsbD_and, BitVec.getLsbD_not, BitVec.getLsbD_xor, hi]
  cases x.getLsbD i <;> cases y.getLsbD i <;> rfl

/-- Beside the maximum, minus one has its successor for its complement. -/
theorem isTmax_eq (x : BitVec 32) : isTmax x = testIsTmax x := by
  have hxor : ~~~(x ^^^ (x + 1#32)) = 0#32 ↔ x = 0x7FFFFFFF#32 ∨ x = 0xFFFFFFFF#32 := by
    rw [BitVec.not_xor_left, BitVec.xor_eq_zero_iff]
    constructor
    · intro h
      bv_omega
    · rintro (rfl | rfl) <;> rfl
  have hnot : ~~~x = 0#32 ↔ x = 0xFFFFFFFF#32 := by
    constructor
    · intro h
      bv_omega
    · rintro rfl
      rfl
  rw [isTmax, testIsTmax]
  rw [lnot_eq (~~~x), lnot_ofProp, lnot_eq, ofProp_and]
  refine ofProp_congr ?_
  rw [hxor, hnot]
  constructor
  · rintro ⟨hne, h⟩
    exact h.resolve_right hne
  · rintro rfl
    exact ⟨by decide, .inl rfl⟩

theorem negate_eq (x : BitVec 32) : negate x = testNegate x := (BitVec.neg_eq_not_add x).symm

theorem isAsciiDigit_eq (x : BitVec 32) : isAsciiDigit x = testIsAsciiDigit x := by
  have hor : ∀ a b : BitVec 32, lnot (a.sshiftRight 31 ||| b.sshiftRight 31) =
      ofProp (0 ≤ a.toInt ∧ 0 ≤ b.toInt) := by
    intro a b
    rw [← ofProp_and, ← lnot_sign, ← lnot_sign, lnot_eq, lnot_eq, lnot_eq, ofProp_and]
    exact ofProp_congr BitVec.or_eq_zero_iff
  rw [isAsciiDigit, testIsAsciiDigit]
  rw [sub_eq_add_not, sub_eq_add_not, hor]
  refine ofProp_congr ?_
  have hx := word_range x
  have h9 : (0x39#32).toInt = 57 := by decide
  have h0 : (0x30#32).toInt = 48 := by decide
  -- an operand so small that a difference wraps makes the other one negative
  rcases toInt_sub_cases 0x39#32 x with h | h | h <;>
    rcases toInt_sub_cases x 0x30#32 with h' | h' | h' <;> omega

theorem conditional_eq (x y z : BitVec 32) : conditional x y z = testConditional x y z := by
  rw [conditional, testConditional, lnot]
  by_cases hx : x = 0#32
  · rw [if_pos hx, if_neg (not_not.mpr hx)]
    change (BitVec.allOnes 32 &&& z) + (~~~BitVec.allOnes 32 &&& y) = z
    rw [BitVec.allOnes_and, BitVec.not_allOnes, BitVec.zero_and, BitVec.add_zero]
  · rw [if_neg hx, if_pos hx]
    change (0#32 &&& z) + (BitVec.allOnes 32 &&& y) = y
    rw [BitVec.allOnes_and, BitVec.zero_and, BitVec.zero_add]

theorem eq_neg_self_iff (x : BitVec 32) : -x ^^^ x = 0#32 ↔ x = 0#32 ∨ x = 0x80000000#32 := by
  rw [BitVec.xor_eq_zero_iff]
  constructor
  · intro h
    bv_omega
  · rintro (rfl | rfl) <;> rfl

/-- Three cases: the minimum, different signs, and a difference of equal signs, which
does not wrap. -/
theorem isLessOrEqual_eq (x y : BitVec 32) : isLessOrEqual x y = testIsLessOrEqual x y := by
  rw [isLessOrEqual, testIsLessOrEqual]
  rw [lnot_sign, lnot_sign, sub_eq_add_not, lnot_sign, lnot_eq x, lnot_ofProp, lnot_ofProp,
    ofProp_xor, ← BitVec.neg_eq_not_add, lnot_eq, ofProp_and, ofProp_and, ofProp_and, ofProp_or,
    ofProp_or]
  refine ofProp_congr ?_
  have hx := word_range x
  have hy := word_range y
  rw [eq_neg_self_iff]
  by_cases hmin : x = 0x80000000#32
  · subst hmin
    have hv : (0x80000000#32).toInt = -2147483648 := by decide
    exact iff_of_true (.inl (.inl ⟨by decide, .inr rfl⟩)) (by omega)
  · have hleft : ¬(¬x = 0#32 ∧ (x = 0#32 ∨ x = 0x80000000#32)) := by tauto
    simp only [hleft, false_or]
    rcases toInt_sub_cases y x with h | h | h <;> omega

theorem logicalNeg_eq (x : BitVec 32) : logicalNeg x = testLogicalNeg x := by
  rw [logicalNeg, testLogicalNeg, sshiftRight_sign x]
  by_cases hneg : x.toInt < 0
  · have hx : x ≠ 0#32 := by
      rintro rfl
      exact absurd hneg (by decide)
    rw [if_pos hneg, lnot, if_neg hx]
    change ((~~~0#32 + ((~~~BitVec.allOnes 32 &&& x) + _)).sshiftRight 31) &&& 1#32 = 0#32
    rw [BitVec.not_allOnes, BitVec.zero_and]
    decide
  · rw [if_neg hneg]
    change ((BitVec.allOnes 32 + ((BitVec.allOnes 32 &&& x) + 0#32)).sshiftRight 31) &&& 1#32 = _
    rw [BitVec.allOnes_and, BitVec.add_zero, lnot]
    by_cases hx : x = 0#32
    · rw [hx]
      decide
    · have hpos : x.toInt ≠ 0 := fun h => hx (BitVec.eq_of_toInt_eq h)
      have hrange := word_range x
      have hone : (1#32).toInt = 1 := by decide
      have hsum : BitVec.allOnes 32 + x = x - 1#32 := by
        rw [BitVec.sub_eq_add_neg, BitVec.neg_one_eq_allOnes, BitVec.add_comm]
      have hnn : ¬(x - 1#32).toInt < 0 := by
        rcases toInt_sub_cases x 1#32 with h | h | h <;> omega
      rw [hsum, sshiftRight_sign, if_neg hnn, if_neg hx]
      exact BitVec.zero_and

/-! ## The odd bits -/

theorem and_bit_eq_zero {x : BitVec 32} {i : Nat} (hi : i < 32) :
    x &&& (1#32 <<< i) = 0#32 ↔ x.getLsbD i = false := by
  have hbit : BitVec.twoPow 32 i ≠ 0#32 := by
    intro h
    have := congrArg (fun y => y.getLsbD i) h
    simp [hi] at this
  rw [← BitVec.twoPow_eq, BitVec.and_twoPow]
  cases x.getLsbD i with
  | false => exact iff_of_true rfl rfl
  | true => exact iff_of_false hbit Bool.noConfusion

/-- The loop asks for the bits `i`, `i + 2` and so on. -/
theorem oddLoop_eq (x : BitVec 32) (i : Nat) {p : Prop} [Decidable p]
    (hp : p ↔ ∀ k < 32, i ≤ k → k % 2 = i % 2 → x.getLsbD k = true) :
    oddLoop x i = ofProp p := by
  fun_induction oddLoop x i with
  | case1 i hi hbit =>
    have hzero := (and_bit_eq_zero hi).mp hbit
    have hnot : ¬p := by
      intro h
      rw [hp.mp h i hi (Nat.le_refl i) rfl] at hzero
      cases hzero
    exact (if_neg hnot).symm
  | case2 i hi hbit ih =>
    refine ih (hp.trans ⟨fun h k hk hle hmod => h k hk (by omega) (by omega), ?_⟩)
    intro h k hk hle hmod
    by_cases he : k = i
    · rw [he]
      exact Bool.eq_true_of_not_eq_false (mt (and_bit_eq_zero hi).mpr hbit)
    · exact h k hk (by omega) (by omega)
  | case3 i hi =>
    have hall : p := hp.mpr fun k hk hle => absurd (Nat.lt_of_le_of_lt hle hk) hi
    exact (if_pos hall).symm

theorem allOddBits_eq (x : BitVec 32) : allOddBits x = testAllOddBits x := by
  have hevens : ∀ k < 32, (0x55555555#32).getLsbD k = decide (k % 2 = 0) := by decide
  change lnot (~~~(0x55555555#32 ||| x)) = oddLoop x 1
  rw [lnot_eq]
  refine (oddLoop_eq x 1 ?_).symm
  constructor
  · intro h k hk _ hmod
    have hb := congrArg (fun y => y.getLsbD k) h
    rw [BitVec.getLsbD_not, BitVec.getLsbD_or, hevens k hk, BitVec.getLsbD_zero] at hb
    simpa [hk, hmod] using hb
  · intro h
    refine BitVec.eq_of_getLsbD_eq fun k hk => ?_
    rw [BitVec.getLsbD_not, BitVec.getLsbD_or, hevens k hk, BitVec.getLsbD_zero]
    by_cases hmod : k % 2 = 0
    · simp [hmod]
    · simp [h k hk (by omega) (by omega)]

/-! ## The number of bits -/

/-- A word without a sign is shifted like an unsigned one. -/
theorem smear_step {n : Nat} {x y : BitVec 32} (h : Smeared n x y) (hy : y.msb = false) :
    Smeared (n + n) x (y ||| y.sshiftRight n) ∧ (y ||| y.sshiftRight n).msb = false := by
  have hstep : (y ||| y.sshiftRight n).msb = false := by
    rw [BitVec.msb_or, BitVec.msb_sshiftRight, hy]
    rfl
  refine ⟨?_, hstep⟩
  rw [BitVec.sshiftRight_eq_of_msb_false hy]
  exact h.double

theorem smear_eq {x : BitVec 32} (hx : x.msb = false) :
    smear x = BitVec.ofNat 32 (2 ^ x.toNat.size - 1) := by
  obtain ⟨h2, m2⟩ := smear_step (smeared_one x) hx
  obtain ⟨h4, m4⟩ := smear_step h2 m2
  obtain ⟨h8, m8⟩ := smear_step h4 m4
  obtain ⟨h16, m16⟩ := smear_step h8 m8
  obtain ⟨h32, -⟩ := smear_step h16 m16
  refine BitVec.eq_of_toNat_eq ?_
  rw [BitVec.toNat_ofNat, Nat.mod_eq_of_lt]
  · exact h32.toNat (Nat.le_refl 32)
  · have : x.toNat.size ≤ 32 := Nat.size_le.mpr x.isLt
    have := Nat.pow_le_pow_right Nat.two_pos this
    have := Nat.two_pow_pos x.toNat.size
    omega

theorem sumBits_ones {k : Nat} (hk : k < 32) :
    sumBits (BitVec.ofNat 32 (2 ^ k - 1)) = BitVec.ofNat 32 k := by
  have hall : ∀ k : Fin 32, sumBits (BitVec.ofNat 32 (2 ^ k.val - 1)) = BitVec.ofNat 32 k.val := by
    decide
  exact hall ⟨k, hk⟩

theorem size_half {n : Nat} (hn : n ≠ 0) : n.size = (n / 2).size + 1 := by
  refine eq_of_forall_lt_iff fun i => ?_
  cases i with
  | zero =>
    rw [Nat.lt_size]
    omega
  | succ i =>
    rw [Nat.lt_size, Nat.add_lt_add_iff_right, Nat.lt_size, Nat.pow_succ,
      Nat.le_div_iff_mul_le Nat.two_pos]

theorem bitLoop_eq (a cnt : BitVec 32) :
    bitLoop a cnt = cnt + BitVec.ofNat 32 a.toNat.size := by
  fun_induction bitLoop a cnt with
  | case1 a cnt ha ih =>
    have hne : a.toNat ≠ 0 := by
      intro h
      exact ha (BitVec.eq_of_toNat_eq h)
    rw [ih, size_half hne, BitVec.toNat_ushiftRight, Nat.shiftRight_eq_div_pow, Nat.pow_one,
      BitVec.ofNat_add, BitVec.add_assoc, BitVec.add_comm 1#32]
  | case2 a cnt ha =>
    obtain rfl : a = 0#32 := not_not.mp ha
    rw [BitVec.toNat_zero, Nat.size_zero]
    exact (BitVec.add_zero cnt).symm

theorem howManyBits_eq (x : BitVec 32) : howManyBits x = testHowManyBits x := by
  have hnot : ~~~x = -x - 1#32 := by bv_omega
  have hpos : (~~~x &&& x.sshiftRight 31) + (x &&& ~~~x.sshiftRight 31) =
      if x.toInt < 0 then -x - 1#32 else x := by
    rw [sshiftRight_sign, ← hnot]
    split_ifs
    · rw [BitVec.and_allOnes, BitVec.not_allOnes, BitVec.and_zero, BitVec.add_zero]
    · change (~~~x &&& 0#32) + (x &&& BitVec.allOnes 32) = x
      rw [BitVec.and_allOnes, BitVec.and_zero, BitVec.zero_add]
  have hmsb : (if x.toInt < 0 then -x - 1#32 else x).msb = false := by
    rw [← hnot]
    split_ifs with hneg
    · rw [BitVec.msb_not, BitVec.msb_eq_toInt, decide_eq_true hneg]
      rfl
    · rw [BitVec.msb_eq_toInt, decide_eq_false hneg]
  rw [howManyBits, testHowManyBits, hpos]
  generalize (if x.toInt < 0 then -x - 1#32 else x) = a at *
  have hsize : a.toNat.size < 32 := by
    rw [Nat.lt_succ_iff, Nat.size_le]
    have := BitVec.msb_eq_false_iff_two_mul_lt.mp hmsb
    omega
  rw [smear_eq hmsb, sumBits_ones hsize, bitLoop_eq, BitVec.zero_add]

/-- Every puzzle returns what its reference returns. -/
theorem puzzles_eq_tests (x y z : BitVec 32) :
    bitXor x y = testBitXor x y ∧ isTmax x = testIsTmax x ∧ allOddBits x = testAllOddBits x ∧
      negate x = testNegate x ∧ isAsciiDigit x = testIsAsciiDigit x ∧
      conditional x y z = testConditional x y z ∧ isLessOrEqual x y = testIsLessOrEqual x y ∧
      logicalNeg x = testLogicalNeg x ∧ howManyBits x = testHowManyBits x :=
  ⟨bitXor_eq x y, isTmax_eq x, allOddBits_eq x, negate_eq x, isAsciiDigit_eq x,
    conditional_eq x y z, isLessOrEqual_eq x y, logicalNeg_eq x, howManyBits_eq x⟩

end Csapp.DataLab
