import Mathlib
import Csapp.Lib.CString

/-!
# Decimal numbers in C strings

`strtol` with base ten skips blanks, takes a sign and then digits, and says where
it stopped; it has read the whole string exactly if the string is a numeral.
-/

namespace Csapp

/-- `isspace` in the C locale. -/
def isSpace (c : UInt8) : Bool := c = 32 || (9 ≤ c && c ≤ 13)

/-- A decimal digit. -/
def isDigit (c : UInt8) : Bool := 48 ≤ c && c ≤ 57

/-- The value of a string of digits. -/
def digitsVal (ds : CStr) : Nat := ds.foldl (fun v c => v * 10 + (c.toNat - 48)) 0

/-- The digits in front, and what follows them. -/
def digitsOf (l : CStr) : Option (Nat × CStr) :=
  let ds := l.takeWhile isDigit
  if ds = [] then none else some (digitsVal ds, l.dropWhile isDigit)

/-- `strtol(s, &endptr, 10)`: the number and what `endptr` points to; `none` if
there is no number. The number is the one written, before it is clamped to a
`long`. -/
def strtol (s : CStr) : Option (Int × CStr) :=
  match s.dropWhile isSpace with
  | 45 :: l => (digitsOf l).map fun (n, endptr) => (-(n : Int), endptr)
  | 43 :: l => (digitsOf l).map fun (n, endptr) => ((n : Int), endptr)
  | l => (digitsOf l).map fun (n, endptr) => ((n : Int), endptr)

/-- `s` is a numeral for `v`: blanks, a sign or none, and digits. -/
def Decimal (s : CStr) (v : Int) : Prop :=
  ∃ blanks sign ds, s = blanks ++ (sign ++ ds) ∧ (∀ c ∈ blanks, isSpace c) ∧ ds ≠ [] ∧
    (∀ c ∈ ds, isDigit c) ∧
    ((sign = [] ∨ sign = [43]) ∧ v = digitsVal ds ∨ sign = [45] ∧ v = -(digitsVal ds : Int))

theorem digit_not_space {c : UInt8} (h : isDigit c) : isSpace c = false ∧ c ≠ 45 ∧ c ≠ 43 := by
  simp only [isDigit, Bool.and_eq_true, decide_eq_true_eq, UInt8.le_iff_toNat_le] at h
  have h48 : (48 : UInt8).toNat = 48 := rfl
  have h13 : (13 : UInt8).toNat = 13 := rfl
  refine ⟨?_, ?_, ?_⟩
  · simp only [isSpace, Bool.or_eq_false_iff, Bool.and_eq_false_iff, decide_eq_false_iff_not,
      UInt8.le_iff_toNat_le]
    refine ⟨?_, .inr (by omega)⟩
    rintro rfl
    exact absurd h.1 (by decide)
  · rintro rfl
    exact absurd h.1 (by decide)
  · rintro rfl
    exact absurd h.1 (by decide)

theorem digitsOf_whole {l : CStr} {n : Nat} :
    digitsOf l = some (n, []) ↔ l ≠ [] ∧ (∀ c ∈ l, isDigit c) ∧ n = digitsVal l := by
  unfold digitsOf
  dsimp only
  constructor
  · intro h
    split at h
    · cases h
    next hne =>
      obtain ⟨hn, hd⟩ := Prod.mk.inj (Option.some.inj h)
      have hdigits := List.dropWhile_eq_nil_iff.mp hd
      have hl : l.takeWhile isDigit = l := List.takeWhile_eq_self_iff.mpr hdigits
      rw [hl] at hne hn
      exact ⟨hne, hdigits, hn.symm⟩
  · rintro ⟨hne, hdigits, rfl⟩
    rw [List.takeWhile_eq_self_iff.mpr hdigits, List.dropWhile_eq_nil_iff.mpr hdigits, if_neg hne]

theorem digitsOf_map_whole {l : CStr} {v : Int} {f : Nat → Int} :
    (digitsOf l).map (fun (n, endptr) => (f n, endptr)) = some (v, []) ↔
      l ≠ [] ∧ (∀ c ∈ l, isDigit c) ∧ v = f (digitsVal l) := by
  rw [Option.map_eq_some_iff]
  constructor
  · rintro ⟨⟨n, endptr⟩, h, he⟩
    obtain ⟨rfl, rfl⟩ := Prod.mk.inj he
    obtain ⟨hne, hd, rfl⟩ := digitsOf_whole.mp h
    exact ⟨hne, hd, rfl⟩
  · rintro ⟨hne, hd, rfl⟩
    exact ⟨_, digitsOf_whole.mpr ⟨hne, hd, rfl⟩, rfl⟩

/-- The string is read to its end exactly if it is a numeral. -/
theorem strtol_whole {s : CStr} {v : Int} : strtol s = some (v, []) ↔ Decimal s v := by
  constructor
  · intro h
    have hsplit : s = s.takeWhile isSpace ++ s.dropWhile isSpace :=
      List.takeWhile_append_dropWhile.symm
    have hblank : ∀ c ∈ s.takeWhile isSpace, isSpace c := fun c hc => List.mem_takeWhile_imp hc
    unfold strtol at h
    split at h
    next l hl =>
      obtain ⟨hne, hd, hv⟩ := (digitsOf_map_whole (f := fun n => -(n : Int))).mp h
      exact ⟨_, [45], l, hsplit.trans (congrArg _ hl), hblank, hne, hd, .inr ⟨rfl, hv⟩⟩
    next l hl =>
      obtain ⟨hne, hd, hv⟩ := digitsOf_map_whole.mp h
      exact ⟨_, [43], l, hsplit.trans (congrArg _ hl), hblank, hne, hd, .inl ⟨.inr rfl, hv⟩⟩
    next =>
      obtain ⟨hne, hd, hv⟩ := digitsOf_map_whole.mp h
      exact ⟨_, [], _, hsplit, hblank, hne, hd, .inl ⟨.inl rfl, hv⟩⟩
  · rintro ⟨blanks, sign, ds, rfl, hblank, hne, hdigits, hv⟩
    unfold strtol
    rcases hv with ⟨rfl | rfl, rfl⟩ | ⟨rfl, rfl⟩
    · obtain ⟨d, ds, rfl⟩ := List.exists_cons_of_ne_nil hne
      obtain ⟨hd1, hd2, hd3⟩ := digit_not_space (hdigits d List.mem_cons_self)
      rw [List.nil_append, (span_eq hblank (by simp [hd1])).2]
      split
      next he => exact absurd (List.cons.inj he).1 hd2
      next he => exact absurd (List.cons.inj he).1 hd3
      next => exact digitsOf_map_whole.mpr ⟨hne, hdigits, rfl⟩
    · rw [List.singleton_append, (span_eq hblank (by simp; decide)).2]
      exact digitsOf_map_whole.mpr ⟨hne, hdigits, rfl⟩
    · rw [List.singleton_append, (span_eq hblank (by simp; decide)).2]
      exact (digitsOf_map_whole (f := fun n => -(n : Int))).mpr ⟨hne, hdigits, rfl⟩

theorem Decimal.unique {s : CStr} {v w : Int} (hv : Decimal s v) (hw : Decimal s w) : v = w := by
  have h := (strtol_whole.mpr hv).symm.trans (strtol_whole.mpr hw)
  exact (Prod.mk.inj (Option.some.inj h)).1

end Csapp
