import Mathlib
import Csapp.Cachelab.CsimSet

/-!
# The cache is a row of LRU sets

A block is an address without its offset bits. The masks cut it into the index
of its set and a tag; the tag is the rest of the block moved up again, so it is
not negative, and it tells the blocks of one set apart. With that every access
to the cache is an access to one LRU set of block numbers.
-/

namespace Csapp.Cachelab

/-! ## The abstract cache -/

/-- For each set its blocks, the last used one in front. -/
abbrev LruCache := Nat → List Nat

/-- No block is cached. -/
def LruCache.empty : LruCache := fun _ => []

/-- An access to a block: its set, as a list, is the one of its index. -/
def lruAccess (s E : Nat) (block : Nat) (c : LruCache) : Outcome × LruCache :=
  let i := block % 2 ^ s
  let r := lru E (c i) block
  (r.1, fun k => if k = i then r.2 else c k)

/-- What an access adds to the counts. -/
def Outcome.count : Outcome → Counts → Counts
  | .hit, n => fun k => if k.val = 0 then n k + 1 else n k
  | .miss, n => fun k => if k.val = 1 then n k + 1 else n k
  | .evict, n => fun k => if k.val = 1 ∨ k.val = 2 then n k + 1 else n k

/-- An access, counted. -/
def lruStep (s E : Nat) (r : LruCache × Counts) (block : Nat) : LruCache × Counts :=
  let q := lruAccess s E block r.1
  (q.2, Outcome.count q.1 r.2)

/-- The accesses one after another. -/
def lruRun (s E : Nat) (blocks : List Nat) (r : LruCache × Counts) : LruCache × Counts :=
  blocks.foldl (lruStep s E) r

/-! ## Geometry -/

/-- The geometries of which neither `1 << s` nor a shift by `s + b` overflows,
and which have a bit below the tag. -/
structure Params.Fits (p : Params) : Prop where
  s : p.s ≤ 30
  low : 1 ≤ p.s + p.b
  high : p.s + p.b ≤ 63

/-- The block of an address. -/
def Params.block (p : Params) (addr : Addr) : Nat := addr.toNat / 2 ^ p.b

/-- The tag of a block. -/
def Params.tagOf (p : Params) (block : Nat) : Int := (block / 2 ^ p.s * 2 ^ (p.s + p.b - 1) : Nat)

section

variable {p : Params}

theorem Params.Fits.setsz (hf : p.Fits) : p.setsz.toNat = 2 ^ p.s := by
  have hs := hf.s
  have hpow : 2 ^ p.s ≤ 2 ^ 30 := Nat.pow_le_pow_right (by omega) hs
  have hone : ((1 : BitVec 32) <<< p.s).toNat = 2 ^ p.s := by
    rw [BitVec.toNat_shiftLeft, Nat.shiftLeft_eq]
    change 1 * 2 ^ p.s % 2 ^ 32 = _
    omega
  unfold Params.setsz
  rw [BitVec.signExtend_eq_setWidth_of_msb_false, BitVec.toNat_setWidth, hone]
  · omega
  · rw [BitVec.msb_eq_false_iff_two_mul_lt, hone]
    omega

/-- Bit `j` of the index mask, before its shift. -/
theorem Params.Fits.index_bit (hf : p.Fits) (j : Nat) :
    (p.setsz - 1).getLsbD j = decide (j < p.s) := by
  have hsz := hf.setsz
  have hs := hf.s
  have hpow : 2 ^ p.s ≤ 2 ^ 30 := Nat.pow_le_pow_right (by omega) hs
  have hpos := Nat.two_pow_pos p.s
  have hsub : (p.setsz - 1).toNat = 2 ^ p.s - 1 := by bv_omega
  rw [BitVec.getLsbD, hsub, Nat.testBit_two_pow_sub_one]

theorem Params.Fits.setid (hf : p.Fits) (addr : Addr) :
    ((p.setmsk &&& addr) >>> p.b).toInt = (p.block addr % 2 ^ p.s : Nat) := by
  have hs := hf.s
  have hh := hf.high
  have hpow : 2 ^ p.s ≤ 2 ^ 30 := Nat.pow_le_pow_right (by omega) hs
  have hbits : (p.setmsk &&& addr) >>> p.b = (addr >>> p.b) &&& (p.setsz - 1) := by
    refine BitVec.eq_of_getLsbD_eq fun i hi => ?_
    unfold Params.setmsk
    rw [BitVec.getLsbD_ushiftRight, BitVec.getLsbD_and, BitVec.getLsbD_shiftLeft, BitVec.getLsbD_and,
      BitVec.getLsbD_ushiftRight, hf.index_bit, hf.index_bit]
    by_cases hlt : i < p.s
    · simp [hlt, show p.b + i < 64 by omega]
    · simp [hlt]
  have hnat : ((addr >>> p.b) &&& (p.setsz - 1)).toNat = p.block addr % 2 ^ p.s := by
    have hsz := hf.setsz
    have hpos := Nat.two_pow_pos p.s
    have hsub : (p.setsz - 1).toNat = 2 ^ p.s - 1 := by bv_omega
    rw [BitVec.toNat_and, hsub, Nat.and_two_pow_sub_one_eq_mod, BitVec.toNat_ushiftRight,
      Nat.shiftRight_eq_div_pow]
    rfl
  have hlt := Nat.mod_lt (p.block addr) (Nat.two_pow_pos p.s)
  rw [hbits, BitVec.toInt_eq_toNat_of_lt (by rw [hnat]; omega), hnat]

theorem Params.Fits.tag (hf : p.Fits) (addr : Addr) :
    ((p.tagmsk &&& addr) >>> 1).toInt = p.tagOf (p.block addr) := by
  have hl := hf.low
  have hh := hf.high
  -- What is left is the address without its lowest `s + b` bits.
  have hbits : p.tagmsk &&& addr = addr >>> (p.s + p.b) <<< (p.s + p.b) := by
    refine BitVec.eq_of_getLsbD_eq fun i hi => ?_
    unfold Params.tagmsk Params.setmsk
    rw [BitVec.getLsbD_and, BitVec.getLsbD_and, BitVec.getLsbD_and, BitVec.getLsbD_allOnes,
      BitVec.getLsbD_not, BitVec.getLsbD_shiftLeft, BitVec.getLsbD_shiftLeft,
      BitVec.getLsbD_shiftLeft, BitVec.getLsbD_allOnes, BitVec.getLsbD_ushiftRight, hf.index_bit]
    by_cases hlo : i < p.s + p.b
    · by_cases hb : i < p.b
      · simp [hlo, hb]
      · simp [hlo, hb, hi, show i - p.b < p.s by omega]
    · have hsum : p.s + p.b + (i - (p.s + p.b)) = i := by omega
      rw [hsum]
      simp [hlo, hi, show ¬i < p.b by omega, show ¬i - p.b < p.s by omega,
        show i - p.b < 64 by omega]
  have hnat : ((p.tagmsk &&& addr) >>> 1).toNat =
      p.block addr / 2 ^ p.s * 2 ^ (p.s + p.b - 1) := by
    have hdiv : p.block addr / 2 ^ p.s = addr.toNat / 2 ^ (p.s + p.b) := by
      unfold Params.block
      rw [Nat.div_div_eq_div_mul, Nat.add_comm, Nat.pow_add]
    have hle : addr.toNat / 2 ^ (p.s + p.b) * 2 ^ (p.s + p.b) ≤ addr.toNat := Nat.div_mul_le_self _ _
    have hlt := addr.isLt
    have htwo : 2 ^ (p.s + p.b) = 2 ^ (p.s + p.b - 1) * 2 := by
      rw [← Nat.pow_succ]
      congr 1
      omega
    rw [hbits, BitVec.toNat_ushiftRight, BitVec.toNat_shiftLeft, BitVec.toNat_ushiftRight,
      Nat.shiftRight_eq_div_pow, Nat.shiftRight_eq_div_pow, Nat.shiftLeft_eq,
      Nat.mod_eq_of_lt (Nat.lt_of_le_of_lt hle hlt), hdiv]
    conv_lhs => rw [htwo, ← Nat.mul_assoc]
    rw [Nat.pow_one, Nat.mul_div_cancel _ (by omega), htwo]
  have hhalf : 2 * ((p.tagmsk &&& addr) >>> 1).toNat < 2 ^ 64 := by
    have hlt := (p.tagmsk &&& addr).isLt
    rw [BitVec.toNat_ushiftRight, Nat.shiftRight_eq_div_pow]
    omega
  rw [BitVec.toInt_eq_toNat_of_lt hhalf, hnat]
  rfl

theorem Params.tagOf_nonneg (p : Params) (block : Nat) : 0 ≤ p.tagOf block := Int.natCast_nonneg _

/-- Blocks of one set have different tags. -/
theorem Params.tagOf_inj {x y : Nat} (hset : x % 2 ^ p.s = y % 2 ^ p.s)
    (h : p.tagOf x = p.tagOf y) : x = y := by
  have hdiv : x / 2 ^ p.s = y / 2 ^ p.s :=
    Nat.eq_of_mul_eq_mul_right (Nat.two_pow_pos _) (Int.ofNat.inj h)
  rw [← Nat.div_add_mod x (2 ^ p.s), ← Nat.div_add_mod y (2 ^ p.s), hdiv, hset]

/-! ## The cache -/

/-- An access changes one set, and there does what `accessSet` does. -/
theorem accessCache_eq (hf : p.Fits) {addr : Addr} {c : Cache} {result : OpResult}
    {lines : List CacheLine}
    (h : accessSet (p.tagOf (p.block addr)) (c.tick + 1) (c.sets (p.block addr % 2 ^ p.s)) =
      some (result, lines)) :
    accessCache p addr c = some (result,
      ⟨fun k => if k = p.block addr % 2 ^ p.s then lines else c.sets k, c.tick + 1⟩) := by
  have hlt := Nat.mod_lt (p.block addr) (Nat.two_pow_pos p.s)
  unfold accessCache
  dsimp only
  rw [hf.setid, hf.tag, hf.setsz, if_neg (by omega), Int.toNat_natCast]
  unfold accessSet at h
  cases hscan : scan (p.tagOf (p.block addr)) (c.sets (p.block addr % 2 ^ p.s)) 0
      (BitVec.allOnes 64) 0 with
  | hit i =>
    rw [hscan] at h
    obtain ⟨rfl, rfl⟩ := Prod.mk.inj (Option.some.inj h)
    rfl
  | miss argmin minTs =>
    rw [hscan] at h
    dsimp only at h ⊢
    by_cases hlen : (c.sets (p.block addr % 2 ^ p.s)).length ≤ argmin
    · rw [if_pos hlen] at h
      cases h
    · rw [if_neg hlen] at h ⊢
      obtain ⟨rfl, rfl⟩ := Prod.mk.inj (Option.some.inj h)
      rfl

/-- Every set holds the tags of its blocks, after `n` accesses. -/
structure CacheRel (p : Params) (n : Nat) (c : Cache) (l : LruCache) : Prop where
  tick : c.tick.toNat = n
  set : ∀ i, SetRel p.lines c.tick (c.sets i) ((l i).map p.tagOf)
  home : ∀ i, ∀ x ∈ l i, x % 2 ^ p.s = i

theorem cacheRel_init (p : Params) (junk : Nat → Nat → BitVec 64) :
    CacheRel p 0 (initCache p junk) LruCache.empty where
  tick := rfl
  set i := by
    refine setRel_init (by simp [initCache]) fun l hl => ?_
    obtain ⟨j, -, rfl⟩ := List.mem_map.mp hl
    exact Int.negSucc_lt_zero 0
  home _ _ hx := absurd hx List.not_mem_nil

theorem CacheRel.access {n : Nat} {c : Cache} {l : LruCache} (h : CacheRel p n c l) (hf : p.Fits)
    (hE : 0 < p.lines) (hn : n + 1 < 2 ^ 64) (addr : Addr) :
    ∃ c', accessCache p addr c =
        some (Outcome.result (lruAccess p.s p.lines (p.block addr) l).1, c') ∧
      CacheRel p (n + 1) c' (lruAccess p.s p.lines (p.block addr) l).2 := by
  have htick : c.tick.toNat + 1 < 2 ^ 64 := by
    rw [h.tick]
    exact hn
  have hnext : (c.tick + 1).toNat = n + 1 := by
    have := h.tick
    bv_omega
  have hset := h.set (p.block addr % 2 ^ p.s)
  obtain ⟨lines, hacc, hrel⟩ := hset.access hE (p.tagOf_nonneg (p.block addr)) htick
  have hmap : lru p.lines ((l (p.block addr % 2 ^ p.s)).map p.tagOf) (p.tagOf (p.block addr)) = _ :=
    lru_map fun y hy => Params.tagOf_inj (h.home _ y hy)
  rw [hmap] at hacc hrel
  refine ⟨_, accessCache_eq hf hacc, hnext, fun i => ?_, fun i x hx => ?_⟩
  · unfold lruAccess
    dsimp only
    by_cases hi : i = p.block addr % 2 ^ p.s
    · rw [if_pos hi, if_pos hi]
      exact hrel
    · rw [if_neg hi, if_neg hi]
      exact (h.set i).mono (by bv_omega)
  · unfold lruAccess at hx
    dsimp only at hx
    by_cases hi : i = p.block addr % 2 ^ p.s
    · rw [if_pos hi] at hx
      rcases mem_lru hx with rfl | hx
      · exact hi.symm
      · exact hi ▸ h.home _ x hx
    · rw [if_neg hi] at hx
      exact h.home i x hx

/-! ## The counters -/

theorem bump_of_lt {counts : Counts} {i : Fin 3} (h : counts i + 1 < 2147483648) :
    bump counts i = some fun k => if k = i then counts k + 1 else counts k := by
  unfold bump
  rw [int_of_lt h, Option.bind_eq_bind, Option.bind_some]
  refine congrArg some (funext fun k => ?_)
  by_cases hk : k = i
  · rw [if_pos hk, if_pos hk, hk]
  · rw [if_neg hk, if_neg hk]

/-- `n` accesses have been counted, at most once each in a counter. -/
def Bounded (n : Nat) (counts : Counts) : Prop := ∀ i, counts i ≤ n

theorem Bounded.count {n : Nat} {counts : Counts} (h : Bounded n counts) (o : Outcome) :
    Bounded (n + 1) (Outcome.count o counts) := by
  intro i
  have := h i
  cases o with
  | hit => simp only [Outcome.count]; split <;> omega
  | miss => simp only [Outcome.count]; split <;> omega
  | evict => simp only [Outcome.count]; split <;> omega

theorem countOp_pos {mask result : OpResult} {i : Fin 3} {counts : Counts}
    (h : mask &&& result ≠ 0) : countOp mask i result counts = bump counts i :=
  if_pos h

theorem countOp_neg {mask result : OpResult} {i : Fin 3} {counts : Counts}
    (h : ¬mask &&& result ≠ 0) : countOp mask i result counts = some counts :=
  if_neg h

/-- The loop over the flags counts the outcome. -/
theorem handleEntry_eq {n : Nat} {c c' : Cache} {counts : Counts} {addr : Addr} {o : Outcome}
    (h : accessCache p addr c = some (Outcome.result o, c')) (hb : Bounded n counts)
    (hn : n + 1 < 2147483648) :
    handleEntry p addr c counts = some (c', Outcome.count o counts) := by
  have h0 := hb 0
  have h1 := hb 1
  have h2 := hb 2
  unfold handleEntry
  simp only [h, Option.bind_eq_bind, Option.bind_some]
  cases o with
  | hit =>
    rw [countOp_pos (by decide), bump_of_lt (by omega), Option.bind_some,
      countOp_neg (by decide), Option.bind_some, countOp_neg (by decide)]
    refine congrArg (fun x => some (c', x)) (funext fun k => ?_)
    fin_cases k <;> rfl
  | miss =>
    rw [countOp_neg (by decide), Option.bind_some, countOp_pos (by decide),
      bump_of_lt (by omega), Option.bind_some, countOp_neg (by decide)]
    refine congrArg (fun x => some (c', x)) (funext fun k => ?_)
    fin_cases k <;> rfl
  | evict =>
    rw [countOp_neg (by decide), Option.bind_some, countOp_pos (by decide),
      bump_of_lt (by omega), Option.bind_some, countOp_pos (by decide),
      bump_of_lt (by change counts 2 + 1 < _; omega), Option.bind_some]
    refine congrArg (fun x => some (c', x)) (funext fun k => ?_)
    fin_cases k <;> rfl

/-- `handle_entry` and the abstract cache stay in step. -/
theorem CacheRel.handleEntry {n : Nat} {c : Cache} {r : LruCache × Counts}
    (h : CacheRel p n c r.1) (hb : Bounded n r.2) (hf : p.Fits) (hE : 0 < p.lines)
    (hn : n + 1 < 2147483648) (addr : Addr) :
    ∃ c', Cachelab.handleEntry p addr c r.2 =
        some (c', (lruStep p.s p.lines r (p.block addr)).2) ∧
      CacheRel p (n + 1) c' (lruStep p.s p.lines r (p.block addr)).1 ∧
      Bounded (n + 1) (lruStep p.s p.lines r (p.block addr)).2 := by
  obtain ⟨c', hacc, hrel⟩ := h.access hf hE (by omega) addr
  exact ⟨c', handleEntry_eq hacc hb hn, hrel, hb.count _⟩

end

end Csapp.Cachelab
