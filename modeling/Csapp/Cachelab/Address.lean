import Mathlib
import Csapp.Cachelab.CsimLru

/-!
# What the set index and the tag say about a block

Two addresses should fall together exactly if they lie in one block. The tag is
moved down by one bit so that it is not negative, which is free as long as a
set bit or an offset bit lies below it. With neither, the lowest bit of the
address is part of the block, and it is the bit that is lost.
-/

namespace Csapp.Cachelab

/-- `tag` in `access_cache`. -/
def Params.tag (p : Params) (addr : Addr) : Int := ((p.tagmsk &&& addr) >>> 1).toInt

/-- `setid` in `access_cache`. -/
def Params.setid (p : Params) (addr : Addr) : Int := ((p.setmsk &&& addr) >>> p.b).toInt

/-- The pair tells blocks apart, the index is one of a set and the tag is valid. -/
structure Decomposes (p : Params) (x y : Addr) : Prop where
  block : p.setid x = p.setid y ∧ p.tag x = p.tag y ↔ x >>> p.b = y >>> p.b
  setid_nonneg : 0 ≤ p.setid x
  setid_lt : p.setid x < 2 ^ p.s
  tag_nonneg : 0 ≤ p.tag x

section

variable {p : Params} {x y : Addr}

theorem block_eq_iff (p : Params) (x y : Addr) :
    x >>> p.b = y >>> p.b ↔ p.block x = p.block y := by
  rw [← BitVec.toNat_inj, BitVec.toNat_ushiftRight, BitVec.toNat_ushiftRight,
    Nat.shiftRight_eq_div_pow, Nat.shiftRight_eq_div_pow]
  rfl

/-- The set index and the tag of a block, as the numbers that they are. -/
theorem Params.Fits.pair_eq_iff (hf : p.Fits) :
    p.setid x = p.setid y ∧ p.tag x = p.tag y ↔ p.block x = p.block y := by
  rw [Params.setid, Params.setid, Params.tag, Params.tag, hf.setid, hf.setid, hf.tag, hf.tag]
  constructor
  · rintro ⟨hi, ht⟩
    exact Params.tagOf_inj (Int.ofNat.inj hi) ht
  · intro h
    rw [h]
    exact ⟨rfl, rfl⟩

theorem Params.Fits.decomposes (hf : p.Fits) (x y : Addr) : Decomposes p x y where
  block := hf.pair_eq_iff.trans (block_eq_iff p x y).symm
  setid_nonneg := by
    rw [Params.setid, hf.setid]
    exact Int.natCast_nonneg _
  setid_lt := by
    rw [Params.setid, hf.setid]
    exact_mod_cast Nat.mod_lt (p.block x) (Nat.two_pow_pos p.s)
  tag_nonneg := by
    rw [Params.tag, hf.tag]
    exact p.tagOf_nonneg _

/-! ## No set bits and no offset bits -/

theorem setid_degenerate (hs : p.s = 0) (hb : p.b = 0) : p.setid x = 0 := by
  rw [Params.setid, Params.setmsk, Params.setsz, hs, hb]
  simp

theorem tag_degenerate (hs : p.s = 0) (hb : p.b = 0) : p.tag x = (x >>> 1).toNat := by
  have hmask : p.tagmsk &&& x = x := by
    rw [Params.tagmsk, Params.setmsk, Params.setsz, hs, hb]
    exact BitVec.allOnes_and
  have hhalf : 2 * (x >>> 1).toNat < 2 ^ 64 := by
    rw [BitVec.toNat_ushiftRight, Nat.shiftRight_eq_div_pow]
    omega
  rw [Params.tag, hmask, BitVec.toInt_eq_toNat_of_lt hhalf]

theorem decomposes_degenerate (hs : p.s = 0) (hb : p.b = 0) :
    Decomposes p x y ↔ (x >>> 1 = y >>> 1 → x = y) := by
  have hpair : p.setid x = p.setid y ∧ p.tag x = p.tag y ↔ x >>> 1 = y >>> 1 := by
    rw [setid_degenerate hs hb, setid_degenerate hs hb, tag_degenerate hs hb,
      tag_degenerate hs hb, Int.natCast_inj, BitVec.toNat_inj]
    exact and_iff_right rfl
  have hshift : x >>> p.b = y >>> p.b ↔ x = y := by
    rw [hb, BitVec.ushiftRight_zero, BitVec.ushiftRight_zero]
  constructor
  · intro h he
    exact hshift.mp (h.block.mp (hpair.mpr he))
  · intro h
    refine ⟨hpair.trans (Iff.trans ⟨h, fun he => by rw [he]⟩ hshift.symm), ?_, ?_, ?_⟩
    · rw [setid_degenerate hs hb]
    · rw [setid_degenerate hs hb]
      positivity
    · rw [tag_degenerate hs hb]
      exact Int.natCast_nonneg _

end

/-- The decomposition fails for two addresses exactly if the geometry has neither set
bits nor offset bits and they differ in the lowest bit alone. -/
theorem decomposes_iff (p : Params) (hs : p.s ≤ 30) (hsb : p.s + p.b ≤ 63) (x y : Addr) :
    Decomposes p x y ↔ ¬(p.s = 0 ∧ p.b = 0 ∧ x ≠ y ∧ x >>> 1 = y >>> 1) := by
  by_cases h : p.s = 0 ∧ p.b = 0
  · obtain ⟨h0, hb⟩ := h
    rw [decomposes_degenerate h0 hb]
    tauto
  · have hf : p.Fits := ⟨hs, by omega, hsb⟩
    exact iff_of_true (hf.decomposes x y) (fun hn => h ⟨hn.1, hn.2.1⟩)

/-- Two addresses of one block, in sixteen sets of blocks of sixteen bytes. -/
theorem decomposes_same_block : Decomposes ⟨4, 1, 4⟩ 18 31 :=
  (decomposes_iff ⟨4, 1, 4⟩ (by decide) (by decide) 18 31).mpr (by decide)

/-- A single set of blocks of one byte takes the first two bytes for one. -/
theorem not_decomposes_bytes : ¬Decomposes ⟨0, 1, 0⟩ 0 1 := by
  rw [decomposes_degenerate rfl rfl]
  decide

end Csapp.Cachelab
