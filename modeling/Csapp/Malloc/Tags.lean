import Mathlib
import Csapp.Malloc.Moves

/-!
# Tags through the macros

What `SIZE`, `ALOC`, `PREVBLK`, `NEXTBLK` and `META_PUT` compute when the words
they read are tags, and what `free_node` does with a block whose tags are in
place. Past this file nobody looks at a header as a number again.
-/

namespace Csapp.Malloc

/-! ## Addresses -/

theorem hdrp_eq {p : Nat} (h : 4 ≤ p) (hlt : p < 4294967296) : hdrp p = p - 4 :=
  sub32_of_le h hlt

theorem pftrp_eq {p : Nat} (h : 8 ≤ p) (hlt : p < 4294967296) : pftrp p = p - 8 :=
  sub32_of_le h hlt

/-! ## Reading a tag -/

theorem Blk.tag_lt {b : Blk} {n : Nat} (h : b.size < n) : b.tag < n + 1 := by
  unfold Blk.tag
  cases b.alloc with
  | false => simp only [Bool.toNat_false]; omega
  | true => simp only [Bool.toNat_true]; omega

theorem size_of_tag {m : Mem} {q : Nat} {b : Blk} (hb : b.size % 8 = 0)
    (h : get m q = b.tag) : size m q = b.size := by
  unfold size sizeMask alignment
  rw [h]
  unfold Blk.tag
  cases b.alloc with
  | false => simp only [Bool.toNat_false]; omega
  | true => simp only [Bool.toNat_true]; omega

theorem aloc_of_tag {m : Mem} {q : Nat} {b : Blk} (hb : b.size % 8 = 0)
    (h : get m q = b.tag) : aloc m q = b.alloc.toNat := by
  unfold aloc
  rw [h]
  unfold Blk.tag
  cases b.alloc with
  | false => simp only [Bool.toNat_false]; omega
  | true => simp only [Bool.toNat_true]; omega

theorem pack_one {s : Nat} (hs : s % 8 = 0) : pack s 1 = s + 1 := by
  obtain ⟨k, rfl⟩ : ∃ k, s = 2 * k := ⟨s / 2, by omega⟩
  unfold pack
  exact (Nat.two_pow_add_eq_or_of_lt (i := 1) (by omega : (1 : Nat) < 2 ^ 1) k).symm

/-! ## Writing both tags -/

/-- The footer is found through the header just written. -/
theorem ftrp_put {m : Mem} {b : Blk} {v : Nat} (hv : v = b.tag) (ha : 8 ≤ b.addr)
    (hm : b.size % 8 = 0) (hlt : b.addr + b.size < 4294967296) :
    ftrp (put m (hdrp b.addr) v) b.addr = b.addr + b.size - 8 := by
  subst hv
  have htl := Blk.tag_lt (b := b) (n := 4294967295) (by omega)
  unfold ftrp nextblk
  rw [size_of_tag hm (get_put_of_lt htl), u32_of_lt hlt, pftrp_eq (by omega) hlt]

/-- `META_PUT` writes a block's header and footer and nothing else. -/
theorem metaPut_spec {m : Mem} {b : Blk} {v : Nat} (hv : v = b.tag) (ha : 8 ≤ b.addr)
    (hs : 16 ≤ b.size) (hm : b.size % 8 = 0) (hlt : b.addr + b.size < 4294967296) :
    TagOk (metaPut m b.addr v) b ∧
      ∀ z, (z < b.addr - 4 ∨ b.addr ≤ z) →
        (z < b.addr + b.size - 8 ∨ b.addr + b.size - 4 ≤ z) →
        metaPut m b.addr v z = m z := by
  subst hv
  have htl := Blk.tag_lt (b := b) (n := 4294967295) (by omega)
  have hh : hdrp b.addr = b.addr - 4 := hdrp_eq (by omega) (by omega)
  have hg : get (put m (b.addr - 4) b.tag) (b.addr - 4) = b.tag := get_put_of_lt htl
  have hf : ftrp (put m (b.addr - 4) b.tag) b.addr = b.addr + b.size - 8 :=
    hh ▸ ftrp_put rfl ha hm hlt
  have he : metaPut m b.addr b.tag =
      put (put m (b.addr - 4) b.tag) (b.addr + b.size - 8) b.tag := by
    unfold metaPut
    simp only []
    rw [hh, hf]
  rw [he]
  refine ⟨⟨?_, get_put_of_lt htl⟩, fun z h1 h2 => ?_⟩
  · rw [get_put_ne (by omega)]
    exact hg
  · rw [put_of_ne (by omega), put_of_ne (by omega)]

theorem hdrp_mod {p : Nat} (hp : p % 8 = 0) : hdrp p % 8 = 4 := by
  unfold hdrp sub32 u32 wsize
  omega

theorem nextblk_mod {m : Mem} {p : Nat} (hp : p % 8 = 0) : nextblk m p % 8 = 0 := by
  have : size m (hdrp p) % 8 = 0 := by
    unfold size sizeMask alignment
    omega
  unfold nextblk u32
  omega

/-- The footer word of `META_PUT` is never the header it has just written. -/
theorem metaPut_header {m : Mem} {p v : Nat} (hp : p % 8 = 0) (hv : v < 4294967296) :
    get (metaPut m p v) (hdrp p) = v := by
  have hh := hdrp_mod hp
  have hf : ftrp (put m (hdrp p) v) p % 8 = 0 := by
    have := nextblk_mod (m := put m (hdrp p) v) hp
    unfold ftrp pftrp sub32 u32 dsize
    omega
  unfold metaPut
  dsimp only
  rw [get_put_ne (by omega), get_put_of_lt hv]

/-! ## Classes -/

theorem log_minAlloc : lastSetBit minAlloc = some 4 := by
  decide

theorem log_chunkSize : lastSetBit chunkSize = some 12 := by
  have h : Nat.log 2 4096 = 12 := by
    rw [Nat.log_eq_iff (Or.inl (by omega))]
    omega
  unfold lastSetBit chunkSize
  rw [if_neg (by omega), h]
  rfl

theorem classof_eq {n : Nat} (h : 16 ≤ n) : classof n = some (classIdx n : Int) := by
  have hl : 4 ≤ Nat.log 2 n := Nat.le_log_of_pow_le (by omega) (by omega)
  unfold classof
  rw [log_minAlloc, log_chunkSize]
  unfold lastSetBit
  rw [if_neg (by omega)]
  show some (min ((Nat.log 2 n : Int) - 4) (12 - 4)) = _
  unfold classIdx
  congr 1
  omega

theorem classof_isSome {n : Nat} (h : n ≠ 0) : ∃ i, classof n = some i := by
  unfold classof
  rw [log_minAlloc, log_chunkSize]
  unfold lastSetBit
  rw [if_neg h]
  exact ⟨_, rfl⟩

theorem classIdx_mono {n k : Nat} (h : n ≤ k) : classIdx n ≤ classIdx k := by
  have := Nat.log_mono_right (b := 2) h
  unfold classIdx
  omega

theorem classHead_eq {b c : Nat} (h : b + 8 * c < 4294967296) :
    classHead b (c : Int) = b + 8 * c := by
  unfold classHead
  omega

/-- `free_node` on a free block whose header is in place. -/
theorem freeNode_eq {m : Mem} {beginHeap : Nat} {b : Blk} (ht : TagOk m b)
    (hf : b.alloc = false) (ha : 4 ≤ b.addr) (hs : 16 ≤ b.size)
    (hlt : b.addr < 4294967296) (hb : beginHeap + 80 < 4294967296) :
    freeNode m beginHeap b.addr =
      some (freeListInsert m (beginHeap + 8 * classIdx b.size) b.addr) := by
  have hc := classIdx_lt b.size
  have htag : b.tag = b.size := by
    unfold Blk.tag
    rw [hf]
    rfl
  unfold freeNode
  rw [hdrp_eq ha hlt, ht.1, htag, classof_eq hs]
  show some _ = _
  rw [classHead_eq (by omega)]

end Csapp.Malloc
