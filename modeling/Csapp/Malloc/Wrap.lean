import Mathlib
import Csapp.Malloc.Invariant

/-!
# Requests near `2 ^ 32`

Two roundings and a sum can wrap. `ALLOC_SIZE` of a request above `2 ^ 32 - 16` is
`0` or `8`, sizes that have no class, and the search is undefined. Below that, a
request of which the trailing free block leaves more than `2 ^ 32 - 4096` bytes
to be added rounds up to a chunk count of zero: `mem_sbrk(0)` succeeds, and
`end_heap` itself is handed out as a block of no bytes. And below `2 ^ 31`, the
break that `mem_sbrk` compares with its limit wraps, so what does not fit into the
address space is granted.
-/

namespace Csapp.Malloc

theorem allocSize_wrap {n : Nat} (hn : 4294967280 < n) (hlt : n < 4294967296) :
    allocSize n = 0 ∨ allocSize n = 8 := by
  unfold allocSize align sizeMask u32 sizeofFreeList dsize alignment
  omega

theorem classof_eight : classof 8 = some (-1) := by
  unfold classof
  rw [log_minAlloc, log_chunkSize]
  have h : Nat.log 2 8 = 3 := by
    rw [Nat.log_eq_iff (Or.inl (by omega))]
    omega
  unfold lastSetBit
  rw [if_neg (by omega), h]
  rfl

theorem mmMalloc_undefined {h : Heap} {n : Nat} (hn : 4294967280 < n)
    (hlt : n < 4294967296) : mmMalloc h n = none := by
  rw [mmMalloc_eq (by omega)]
  unfold allocateBlock findNode
  rcases allocSize_wrap hn hlt with he | he
  · rw [he, show classof 0 = none from rfl]
    rfl
  · rw [he, classof_eight]
    rfl

theorem extendSize_wrap {h : Heap} {n : Nat} (he : h.endHeap ≠ 0) (hn : n < 4294967296)
    (hw : 4294963200 + tailSize h < n) : extendSize h.mem n h.endHeap = 0 := by
  rw [extendSize_eq he hn (by omega)]
  unfold u32
  omega

/-- `META_PUT` of size `0` writes the two words before the pointer. -/
theorem metaPut_zero {m : Mem} {p : Nat} (hlt : p < 4294967296) :
    prevblk (metaPut m p 0) p = p := by
  have hn : nextblk (put m (hdrp p) 0) p = p := by
    unfold nextblk size
    rw [get_put_of_lt (by omega)]
    exact u32_of_lt hlt
  unfold prevblk size metaPut ftrp
  dsimp only
  rw [hn, get_put_of_lt (by omega)]
  exact sub32_of_le (Nat.zero_le p) hlt

theorem coalesceWillFree_ptr {m : Mem} {p : Nat} (h : prevblk m p = p) :
    (coalesceWillFree m p).2 = p := by
  unfold coalesceWillFree coalescePrev
  dsimp only
  rw [h]
  split
  · rfl
  · rfl

theorem freeTail_isSome {m : Mem} {beginHeap blk req : Nat} (hb : blk % 8 = 0)
    (hr : req % 8 = 0) : ∃ m', freeTailWasResvd m beginHeap blk req = some m' := by
  unfold freeTailWasResvd
  dsimp only
  split
  · exact ⟨_, rfl⟩
  · next hs =>
    have hmin : minAlloc = 16 := rfl
    have ht : u32 (blk + req) % 8 = 0 := by
      unfold u32
      omega
    have hlt : sub32 (size m (hdrp blk)) req < 4294967296 := u32_lt _
    obtain ⟨m', hm'⟩ : ∃ m', freePart (metaPut m blk (pack req 1)) beginHeap
        (u32 (blk + req)) (sub32 (size m (hdrp blk)) req) = some m' :=
      freePart_isSome ht hlt
    unfold freePart at hm'
    rw [if_pos (show sub32 (size m (hdrp blk)) req > 0 by omega)] at hm'
    exact ⟨m', hm'⟩

section

variable {h : Heap} {bs : List Blk} {fl : Nat → List Nat}

/-- `sbrk(0)`: the block handed out starts at the break. -/
theorem allocateBlock_wrap (o : Rest h bs fl) {n : Nat} (hn : n < 4294967296)
    (hmod : n % 8 = 0) (hw : 4294963200 + tailSize h < n)
    (hall : ∀ b ∈ bs, b.alloc = false → b.size < n) :
    ∃ h', allocateBlock h n = some (h', h.brk) ∧ h'.brk = h.brk := by
  have h8 := o.vars.begin8
  have hb := o.begin_le
  have htop := o.vars.top
  have hmax := o.vars.brkMax
  have hlt := o.vars.lt
  obtain ⟨node, hf, hcase⟩ := findNode_spec o (show 16 ≤ n by omega)
  obtain rfl : node = 0 := by
    rcases hcase with ⟨h0, -⟩ | ⟨-, b, hbm, -, hbf, hbs⟩
    · exact h0
    · have := hall b hbm hbf
      omega
  have hsb := memSbrk_granted (h := h) (n := 0) (by omega) hmax o.vars.maxLt
  obtain ⟨m', hx⟩ : ∃ m', extendHeap h n h.endHeap = some ({ h with mem := m' }, h.brk) := by
    unfold extendHeap
    dsimp only
    rw [extendSize_wrap o.end_pos hn hw, hsb]
    dsimp only
    rw [u32_of_lt (by omega), if_neg (by omega), if_pos o.end_pos,
      coalesceWillFree_ptr (metaPut_zero hlt), Nat.add_zero, htop]
    exact ⟨_, rfl⟩
  have hbm : h.brk % 8 = 0 := by
    rw [← htop]
    exact o.modR
  obtain ⟨m'', hm⟩ : ∃ m'', freeTailWasResvd m' h.beginHeap h.brk n = some m'' :=
    freeTail_isSome hbm hmod
  exact ⟨_, allocateBlock_extend hf hx (by omega) hm, rfl⟩

/-- No free block comes near the top of the address range: the heap is a whole
number of chunks long. -/
theorem RunInv.free_lt {live : List (Nat × Nat)} (hi : RunInv h live bs fl) {b : Blk}
    (hb : b ∈ bs) (hbf : b.alloc = false) : b.size < 4294963200 := by
  have hbm := hi.rest.mem (List.mem_append_left _ hb)
  have h8 := hi.rest.vars.begin8
  have htop := hi.rest.vars.top
  have hlt := hi.rest.vars.lt
  have hch := hi.chunks
  have hge : h.beginHeap + 80 ≤ b.addr := by
    rcases hbm.2.2.2.2.2.2 with rfl | hge
    · exact Bool.noConfusion hbf
    · exact hge
  omega

end

/-! ## Which requests are answered as they should be -/

/-- `mm_malloc(size)` returns, either `NULL` with the heap as it was, or an
aligned block of `size` bytes inside the heap that meets no live payload. -/
def MallocOk (h : Heap) (live : List (Nat × Nat)) (n : Nat) : Prop :=
  ∃ h' p, mmMalloc h n = some (h', p) ∧
    ((p = 0 ∧ h' = h) ∨
      (p ≠ 0 ∧ p % 8 = 0 ∧ h'.startBrk ≤ p ∧ p + n ≤ h'.brk ∧
        ∀ q k, (q, k) ∈ live →
          p + n ≤ q ∨ q + (size h.mem (hdrp q) - 8) ≤ p))

/-- Every free block of the heap has less than `n` bytes. -/
def NoFit (h : Heap) (n : Nat) : Prop :=
  ∀ bs fl, Rest h bs fl → ∀ b ∈ bs, b.alloc = false → b.size < n

/-- `n` bytes in whole chunks, and one at least. -/
def chunksOf (n : Nat) : Nat := (max chunkSize n + 4095) / 4096 * 4096

/-- Neither rounding of the request wraps, nor the break, if it has to be moved. -/
def NoWrap (h : Heap) (n : Nat) : Prop :=
  n ≤ 4294967280 ∧ allocSize n ≤ 4294963200 + tailSize h ∧
    (NoFit h (allocSize n) → SbrkInRange h (chunksOf (allocSize n - tailSize h)))

section

variable {h : Heap} {bs : List Blk} {fl : Nat → List Nat} {live : List (Nat × Nat)}

theorem Rest.noFit_iff (o : Rest h bs fl) {n : Nat} (h16 : 16 ≤ n) :
    NoFit h n ↔ findNode h n = some 0 := by
  obtain ⟨node, hf, hcase⟩ := findNode_spec o h16
  constructor
  · intro hno
    rcases hcase with ⟨rfl, -⟩ | ⟨-, b, hb, -, hbf, hle⟩
    · exact hf
    · exact absurd hle (Nat.not_le.mpr (hno bs fl o b hb hbf))
  · intro h0 bs' fl' o'
    obtain ⟨node', hf', hcase'⟩ := findNode_spec o' h16
    rw [h0] at hf'
    exact (hcase'.resolve_right fun hne => hne.1 (Option.some.inj hf').symm).2

/-- What `extend_heap` asks for while the roundings do not wrap. -/
theorem Rest.extendSize_chunks (o : Rest h bs fl) {n : Nat} (hn : n < 4294967296)
    (ht : tailSize h ≤ n) (hw : n ≤ 4294963200 + tailSize h) :
    extendSize h.mem n h.endHeap = chunksOf (n - tailSize h) := by
  rw [extendSize_eq o.end_pos hn ht, u32_of_lt (by omega)]
  unfold chunksOf chunkSize
  omega

/-- The condition on the heap is the one of `allocate_block`. -/
theorem Rest.allocInRange_iff (o : Rest h bs fl) {n : Nat} (h16 : 16 ≤ n)
    (hn : n < 4294967296) (hw : n ≤ 4294963200 + tailSize h) :
    AllocInRange h n ↔ (NoFit h n → SbrkInRange h (chunksOf (n - tailSize h))) := by
  unfold AllocInRange
  rw [o.noFit_iff h16]
  refine imp_congr_right fun hf => ?_
  have ht := o.tail_lt (by omega) ((o.noFit_iff h16).mpr hf bs fl o)
  rw [o.extendSize_chunks hn (by omega) hw]

theorem RunInv.mallocOk (hi : RunInv h live bs fl) {n : Nat} (hn : n ≠ 0)
    (hw : NoWrap h n) : MallocOk h live n := by
  obtain ⟨hn1, hn2, hn3⟩ := hw
  have hb := allocSize_bounds hn1
  have hin := (hi.rest.allocInRange_iff hb.1 hb.2.2.2.2 hn2).mpr hn3
  unfold MallocOk
  rw [mmMalloc_eq hn]
  rcases allocateBlock_spec hi.rest hb.2.2.2.2 hb.1 hb.2.2.2.1 hn2 hin with
    ⟨hal, -, -⟩ | ⟨h', p, bs', fl', s, hal, hA, -⟩
  · exact ⟨h, 0, hal, Or.inl ⟨rfl, rfl⟩⟩
  · have hQ := hA.carve.alloc.2
    have hQm := hA.inv.mem (List.mem_append_left _ hQ)
    have hroom := hA.room
    have hge := hA.ge
    have htop := hA.inv.vars.top
    have hst := hi.rest.vars.start
    have hst' := hA.startEq
    simp only at hQm
    refine ⟨h', p, hal, Or.inr ⟨by omega, hQm.2.2.2.2.1, by omega, by omega,
      fun q k hq => ?_⟩⟩
    obtain ⟨c, ⟨hc, hca, -⟩, rfl, -⟩ := hi.tracks.block q k hq
    have hcm := hi.rest.mem (List.mem_append_left _ hc)
    have hc' : c ∈ bs' := (hA.carve.mem_iff hca).mpr (Or.inl hc)
    rw [(hi.rest.macros hc).2.1]
    rcases hA.inv.apart (List.mem_append_left _ hc') (List.mem_append_left _ hQ) with
      he | hap | hap
    · exact absurd he (hA.fresh hc hca)
    · simp only at hap
      omega
    · simp only at hap
      omega

theorem RunInv.not_mallocOk (hi : RunInv h live bs fl) {n : Nat} (hn : n ≠ 0)
    (hlt : n < 4294967296) (hw : ¬ NoWrap h n) : ¬ MallocOk h live n := by
  rintro ⟨h', p, heq, hcase⟩
  rcases Nat.lt_or_ge 4294967280 n with hbig | hsm
  · rw [mmMalloc_undefined hbig hlt] at heq
    cases heq
  have hb := allocSize_bounds hsm
  rw [mmMalloc_eq hn] at heq
  rcases Nat.lt_or_ge (4294963200 + tailSize h) (allocSize n) with ht | ht
  · obtain ⟨h'', hal, hbrk⟩ := allocateBlock_wrap hi.rest hb.2.2.2.2 hb.2.2.2.1 ht
      fun b hbm hbf => by
        have := hi.free_lt hbm hbf
        omega
    rw [hal] at heq
    obtain ⟨rfl, rfl⟩ := Prod.mk.inj (Option.some.inj heq)
    have h8 := hi.rest.vars.begin8
    have hbl := hi.rest.begin_le
    have htop := hi.rest.vars.top
    rcases hcase with ⟨h0, -⟩ | ⟨-, -, -, hin, -⟩
    · omega
    · omega
  · -- the sum wraps, and the call is undefined
    have hin := (hi.rest.allocInRange_iff hb.1 hb.2.2.2.2 ht).not.mpr fun hs =>
      hw ⟨hsm, ht, hs⟩
    rw [hi.rest.allocateBlock_undefined hin] at heq
    cases heq

end

/-- `mm_malloc` answers as it should exactly when nothing wraps. -/
theorem mmMalloc_ok_iff {h : Heap} {live : List (Nat × Nat)} {n : Nat}
    (hr : Reachable ⟨h, live⟩) (hn : n < 4294967296) :
    MallocOk h live n ↔ n = 0 ∨ NoWrap h n := by
  obtain ⟨bs, fl, hi⟩ := hr.inv
  by_cases h0 : n = 0
  · refine ⟨fun _ => Or.inl h0, fun _ => ⟨h, 0, ?_, Or.inl ⟨rfl, rfl⟩⟩⟩
    unfold mmMalloc
    rw [if_pos h0]
  · constructor
    · intro hok
      refine Or.inr ?_
      by_contra hw
      exact hi.not_mallocOk h0 hn hw hok
    · intro hw
      exact hi.mallocOk h0 (hw.resolve_left h0)

theorem mmMalloc_ok_iff_hundred : ∃ h p, Reachable ⟨h, [(p, 100)]⟩ ∧
    (MallocOk h [(p, 100)] 200 ↔ 200 = 0 ∨ NoWrap h 200) := by
  obtain ⟨h, p, -, hr, -⟩ := emptyHeap_malloc
  exact ⟨h, p, hr, mmMalloc_ok_iff hr (by omega)⟩

/-- On a fresh heap `mm_malloc(0xFFFFFFF0)` hands out the break. -/
theorem mmMalloc_wraps : ∃ h, Reachable ⟨h, []⟩ ∧ ¬ MallocOk h [] 4294967280 := by
  obtain ⟨h, fl, hm, o, hb, -, -, hk⟩ := mmInit_spec emptyHeap_fresh (by decide)
  have hr := Reachable.init emptyHeap_fresh hm
  obtain ⟨bs, fl', hi⟩ := hr.inv
  refine ⟨h, hr, hi.not_mallocOk (by omega) (by omega) ?_⟩
  rintro ⟨-, hle, -⟩
  have ht : tailSize h = 4016 := by
    have o' : Rest h ([prologue emptyHeap.brk] ++ [⟨emptyHeap.brk + 80, 4016, false⟩]) fl := o
    exact o'.tail_eq
  rw [ht] at hle
  exact absurd hle (by decide)

end Csapp.Malloc
