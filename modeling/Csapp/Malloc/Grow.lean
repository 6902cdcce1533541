import Mathlib
import Csapp.Malloc.Invariant

/-!
# When the heap grows

The calls of `allocate_block` and `mem_sbrk` leave no trace in the results, so the
functions are written once more with a log of them. Erasing the log gives the
functions back. What the log says is read off the block list: `mem_sbrk` is called
exactly when no free block, and in `mm_realloc` not the merged run either, is
large enough.
-/

namespace Csapp.Malloc

/-- A search of `allocate_block` and a call of `mem_sbrk`. -/
inductive Event
  | search (size : Nat)
  | sbrk (incr : Nat)
  deriving DecidableEq

namespace Traced

/-- `extend_heap` calls `mem_sbrk` once, whatever that returns. -/
def extendHeap (h : Heap) (minsize oldend : Nat) : Option (Heap × Nat) × List Event :=
  (Malloc.extendHeap h minsize oldend, [.sbrk (extendSize h.mem minsize oldend)])

/-- `allocate_block`. The log is kept where the call is undefined later on. -/
def allocateBlock (h : Heap) (size : Nat) : Option (Heap × Nat) × List Event :=
  match findNode h size with
  | none => (none, [.search size])
  | some node =>
      if node ≠ 0 then
        let r := do
          let m ← freeTailWasResvd (resvNode h.mem node) h.beginHeap node size
          return ({ h with mem := m }, node)
        (r, [.search size])
      else
        let x := extendHeap h size h.endHeap
        let r := do
          let r ← x.1
          if r.2 = 0 then return (r.1, 0)
          else
            let m ← freeTailWasResvd r.1.mem r.1.beginHeap r.2 size
            return ({ r.1 with mem := m }, r.2)
        (r, .search size :: x.2)

/-- `mm_malloc`, logged. -/
def mmMalloc (h : Heap) (size : Nat) : Option (Heap × Nat) × List Event :=
  if size = 0 then (some (h, 0), []) else allocateBlock h (allocSize size)

/-- `mm_realloc`, logged. -/
def mmRealloc (h : Heap) (ptr size : Nat) : Option (Heap × Nat) × List Event :=
  if ptr = 0 then mmMalloc h size
  else if size = 0 then
    let r := do
      let h ← mmFreeNonnull h ptr
      return (h, 0)
    (r, [])
  else
    let size := allocSize size
    let oldptr := ptr
    let oldsz := Malloc.size h.mem (hdrp oldptr)
    let copysz := sub32 (min oldsz size) dsize
    let r := coalesceWillFree h.mem oldptr
    let m := r.1
    let ptr := r.2
    if size ≤ get m (hdrp ptr) then
      let r := do
        let m ← freeTailWasResvd (memmove m ptr oldptr copysz) h.beginHeap ptr size
        return ({ h with mem := m }, ptr)
      (r, [])
    else
      let m := metaPut m ptr (pack (get m (hdrp ptr)) 1)
      let x := allocateBlock { h with mem := m } size
      let r := do
        let r ← x.1
        let h := r.1
        let newptr := r.2
        if newptr = 0 then
          let m ← uncoalesceWasResvd h.mem h.beginHeap ptr oldptr oldsz
          return ({ h with mem := m }, 0)
        else
          let m := memmove h.mem newptr oldptr copysz
          let m := metaPut m ptr (Malloc.size m (hdrp ptr))
          let m ← freeNode m h.beginHeap ptr
          return ({ h with mem := m }, newptr)
      (r, x.2)

end Traced

/-! ## Erasing the log -/

section

variable {h : Heap}

theorem traced_allocateBlock (h : Heap) (n : Nat) :
    (Traced.allocateBlock h n).1 = allocateBlock h n := by
  unfold Traced.allocateBlock allocateBlock Traced.extendHeap
  cases findNode h n with
  | none => rfl
  | some node =>
    simp only [Option.bind_eq_bind, Option.bind_some]
    by_cases hn : node ≠ 0
    · rw [if_pos hn, if_pos hn]
    · rw [if_neg hn, if_neg hn]

theorem traced_mmMalloc (h : Heap) (n : Nat) : (Traced.mmMalloc h n).1 = mmMalloc h n := by
  unfold Traced.mmMalloc mmMalloc
  by_cases hn : n = 0
  · rw [if_pos hn, if_pos hn]
  · rw [if_neg hn, if_neg hn]
    exact traced_allocateBlock h _

theorem traced_mmRealloc (h : Heap) (p n : Nat) :
    (Traced.mmRealloc h p n).1 = mmRealloc h p n := by
  unfold Traced.mmRealloc mmRealloc
  by_cases hp : p = 0
  · rw [if_pos hp, if_pos hp]
    exact traced_mmMalloc h n
  rw [if_neg hp, if_neg hp]
  by_cases hn : n = 0
  · rw [if_pos hn, if_pos hn]
  rw [if_neg hn, if_neg hn]
  dsimp only
  rw [traced_allocateBlock]
  split
  · rfl
  · rfl

/-! ## The log -/

/-- `mem_sbrk` has been called. -/
def Grows (log : List Event) : Prop := ∃ incr, Event.sbrk incr ∈ log

theorem traced_log {n node : Nat} (hf : findNode h n = some node) :
    Grows (Traced.allocateBlock h n).2 ↔ node = 0 := by
  unfold Traced.allocateBlock Traced.extendHeap
  rw [hf]
  dsimp only
  by_cases hn : node ≠ 0
  · rw [if_pos hn]
    refine ⟨fun ⟨i, hi⟩ => ?_, fun h0 => absurd h0 hn⟩
    exact Event.noConfusion (List.mem_singleton.mp hi)
  · rw [if_neg hn]
    exact ⟨fun _ => not_not.mp hn,
      fun _ => ⟨_, List.mem_cons_of_mem _ List.mem_cons_self⟩⟩

/-- `allocate_block` calls `mem_sbrk` when all free blocks are too small. -/
theorem Rest.grows_iff {bs : List Blk} {fl : Nat → List Nat} (o : Rest h bs fl) {n : Nat}
    (hn : 16 ≤ n) :
    Grows (Traced.allocateBlock h n).2 ↔ ∀ c ∈ bs, c.alloc = false → c.size < n := by
  obtain ⟨node, hf, hcase⟩ := findNode_spec o hn
  rw [traced_log hf]
  rcases hcase with ⟨h0, hall⟩ | ⟨h0, c, hc, -, hcf, hle⟩
  · exact ⟨fun _ => hall, fun _ => h0⟩
  · exact ⟨fun he => absurd he h0, fun hall => absurd hle (Nat.not_le.mpr (hall c hc hcf))⟩

end

/-! ## The merged run -/

/-- The bytes a neighbour brings into the run. -/
def freeSize : Option Blk → Nat
  | some c => if c.alloc then 0 else c.size
  | none => 0

theorem freeSize_alloc {c : Blk} (h : c.alloc = true) : freeSize (some c) = 0 := if_pos h

theorem freeSize_free {c : Blk} (h : c.alloc = false) : freeSize (some c) = c.size :=
  if_neg (by rw [h]; exact Bool.false_ne_true)

/-- Start and size of `b`, between `l` and `r`, with its free neighbours. -/
def runStart (l : List Blk) (b : Blk) : Nat := b.addr - freeSize l.getLast?

/-- The bytes of `b` and of its free neighbours. -/
def runSize (l : List Blk) (b : Blk) (r : List Blk) : Nat :=
  freeSize l.getLast? + b.size + freeSize r.head?

theorem TrimLeft.freeSize {l l' : List Blk} {a a' : Nat} (h : TrimLeft l a l' a') :
    a' + Malloc.freeSize l.getLast? = a := by
  rcases h with ⟨rfl, rfl, hall⟩ | ⟨p, rfl, hp, rfl, hpa⟩
  · cases hl : l'.getLast? with
    | none => rfl
    | some p => rw [freeSize_alloc (hall p hl), Nat.add_zero]
  · rw [List.getLast?_concat, freeSize_free hp]
    exact hpa

theorem TrimRight.freeSize {r r' : List Blk} {e e' : Nat} (h : TrimRight r e r' e') :
    e' = e + Malloc.freeSize r.head? := by
  rcases h with ⟨rfl, rfl, hall⟩ | ⟨n, rfl, hn, rfl, -⟩
  · cases hr : r'.head? with
    | none => rfl
    | some n => rw [freeSize_alloc (hall n hr), Nat.add_zero]
  · rw [List.head?_cons, freeSize_free hn]

/-- A free block beside `b` is a part of the run, and any other is kept. -/
theorem Merged.free_lt_iff {h : Heap} {l r l' r' : List Blk} {b : Blk} {m : Mem} {a' e' n : Nat}
    {fl' : Nat → List Nat} (hM : Merged h l r b m l' a' e' r' fl') (hlt : e' - a' < n) :
    (∀ c ∈ l' ++ r', c.alloc = false → c.size < n) ↔
      ∀ c ∈ l ++ r, c.alloc = false → c.size < n := by
  have hle := hM.left.le
  have hre := hM.right.le
  constructor
  · intro hall c hc hf
    rcases List.mem_append.mp hc with hc | hc
    · rcases hM.left with ⟨rfl, -, -⟩ | ⟨p, rfl, -, rfl, hp⟩
      · exact hall c (List.mem_append_left _ hc) hf
      · rcases List.mem_append.mp hc with hc | hc
        · exact hall c (List.mem_append_left _ hc) hf
        · rw [List.mem_singleton.mp hc]
          omega
    · rcases hM.right with ⟨rfl, -, -⟩ | ⟨p, rfl, -, rfl, hp⟩
      · exact hall c (List.mem_append_right _ hc) hf
      · rcases List.mem_cons.mp hc with rfl | hc
        · omega
        · exact hall c (List.mem_append_right _ hc) hf
  · intro hall c hc hf
    rcases List.mem_append.mp hc with hc | hc
    · exact hall c (List.mem_append_left _ (hM.left.mem hc)) hf
    · exact hall c (List.mem_append_right _ (hM.right.mem hc)) hf

/-- The run is what `coalesce_will_free` makes of the block. -/
theorem Merged.run_eq {h : Heap} {l r l' r' : List Blk} {b : Blk} {m : Mem} {a' e' : Nat}
    {fl' : Nat → List Nat} (hM : Merged h l r b m l' a' e' r' fl') :
    runStart l b = a' ∧ runSize l b r = e' - a' := by
  have h1 := hM.left.freeSize
  have h2 := hM.right.freeSize
  unfold runStart runSize
  omega

/-! ## How far a call moves the break

A request of `n` bytes needs a block of less than `n + 24`, and `extend_heap` rounds
what is missing up to whole chunks, of which it asks for one at least.
-/

/-- The break is at most `n` bytes further, in the same memory. -/
structure Grown (h h' : Heap) (n : Nat) : Prop where
  ge : h.brk ≤ h'.brk
  le : h'.brk ≤ h.brk + n
  maxEq : h'.maxAddr = h.maxAddr

/-- `mem_sbrk` may refuse `n` bytes. -/
def Short (h : Heap) (n : Nat) : Prop := h.maxAddr < h.brk + n ∨ 2147483648 ≤ n

theorem Grown.refl (h : Heap) (m : Mem) (n : Nat) : Grown h { h with mem := m } n :=
  ⟨Nat.le_refl _, Nat.le_add_right _ _, rfl⟩

theorem Grown.mono {h h' : Heap} {n k : Nat} (hg : Grown h h' n) (hn : n ≤ k) : Grown h h' k :=
  ⟨hg.ge, hg.le.trans (Nat.add_le_add_left hn _), hg.maxEq⟩

theorem Short.mono {h : Heap} {n k : Nat} (hs : Short h n) (hn : n ≤ k) : Short h k := by
  rcases hs with hs | hs
  · exact .inl (by omega)
  · exact .inr (by omega)

theorem memSbrk_short {h : Heap} {n : Nat} (hs : memSbrk h n = none) : Short h n := by
  rw [memSbrk] at hs
  split_ifs at hs with hc
  have hle : u32 (h.brk + n) ≤ h.brk + n := Nat.mod_le _ _
  exact hc.symm.imp (fun hlt => by omega) id

section

variable {h : Heap} {bs : List Blk} {fl : Nat → List Nat} {live : List (Nat × Nat)}

theorem Rest.extendSize_le (o : Rest h bs fl) {n : Nat} (hn : n < 4294967296) (h0 : 0 < n)
    (hall : ∀ b ∈ bs, b.alloc = false → b.size < n) :
    extendSize h.mem n h.endHeap ≤ n + 8191 := by
  have ht := o.tail_lt h0 hall
  rw [extendSize_eq o.end_pos hn (by omega)]
  unfold u32
  omega

theorem Rest.allocateBlock_grown (o : Rest h bs fl) {n p : Nat} {h' : Heap} (h16 : 16 ≤ n)
    (hmod : n % 8 = 0) (hn : n ≤ 4294963200) (hal : allocateBlock h n = some (h', p)) :
    Grown h h' (n + 8191) ∧ (p = 0 → Short h (n + 8191)) := by
  rcases allocateBlock_spec o (by omega) h16 hmod (by omega) (o.allocInRange hal) with
    ⟨heq, hall, hsb⟩ | ⟨h₁, p₁, bs', fl', s, heq, hA, hbrk⟩
  · rw [heq] at hal
    obtain ⟨rfl, rfl⟩ := Prod.mk.inj (Option.some.inj hal)
    have hle := o.extendSize_le (by omega) (by omega) hall
    refine ⟨Grown.refl h h.mem _, fun _ => ?_⟩
    exact (memSbrk_short hsb).mono hle
  · rw [heq] at hal
    obtain ⟨rfl, rfl⟩ := Prod.mk.inj (Option.some.inj hal)
    have hge := hA.ge
    refine ⟨?_, fun h0 => by omega⟩
    rcases hbrk with ⟨hb, -⟩ | ⟨hb, hall⟩
    · exact ⟨hb.ge, by omega, hA.maxEq⟩
    · have hle := o.extendSize_le (by omega) (by omega) hall
      exact ⟨by omega, by omega, hA.maxEq⟩

theorem Rest.allocInRange_of_room (o : Rest h bs fl) {n : Nat} (h16 : 16 ≤ n)
    (hn : n < 4294967296) (hm : h.maxAddr + n + 8191 < 4294967296) : AllocInRange h n := by
  intro hf _
  obtain ⟨node, hf', hcase⟩ := findNode_spec o h16
  rw [hf] at hf'
  obtain ⟨-, hall⟩ := hcase.resolve_right fun hne => hne.1 (Option.some.inj hf').symm
  have hle := o.extendSize_le hn (by omega) hall
  have hb := o.vars.brkMax
  omega

/-- The room that a request of `n` bytes may take. -/
def room (n : Nat) : Nat := n + 8215

/-- With that much room behind the heap, the request is in range. -/
theorem RunInv.inRange_of_room (hi : RunInv h live bs fl) {n : Nat} (hn : n ≤ maxRequest)
    (hm : h.maxAddr + room n < 4294967296) :
    MallocInRange h n ∧ ∀ p k, (p, k) ∈ live → ReallocInRange h p n := by
  unfold maxRequest at hn
  obtain ⟨h16, -, h24, -, hlt⟩ := allocSize_bounds (show n ≤ 4294967280 by omega)
  have hle : allocSize n + 8191 ≤ room n := by
    unfold room
    omega
  have hroom : h.maxAddr + allocSize n + 8191 < 4294967296 := by
    rw [Nat.add_assoc]
    exact (Nat.add_le_add_left hle _).trans_lt hm
  refine ⟨fun _ => hi.rest.allocInRange_of_room h16 hlt hroom, ?_⟩
  intro p k hp _ _
  obtain ⟨l, b, r, rfl, rfl, ha, hbp, -⟩ := hi.liveBlk hp
  obtain ⟨m, l', a', e', r', fl', hM⟩ := hi.rest.merged ha hbp
  rw [hM.eq]
  have om : Rest (marked h m a') _ fl' := (hM.inv.mark hM.room hM.tag).1
  exact om.allocInRange_of_room h16 hlt hroom

theorem RunInv.malloc_grown (hi : RunInv h live bs fl) {n p : Nat} {h' : Heap} (hn0 : n ≠ 0)
    (hn : n ≤ maxRequest) (hm : mmMalloc h n = some (h', p)) :
    Grown h h' (room n) ∧ (p = 0 → Short h (room n)) := by
  have hle := allocSize_le hn
  unfold maxRequest at hn
  have hb := allocSize_bounds (show n ≤ 4294967280 by omega)
  rw [mmMalloc_eq hn0] at hm
  obtain ⟨hg, hs⟩ := hi.rest.allocateBlock_grown hb.1 hb.2.2.2.1 hle hm
  have hroom : allocSize n + 8191 ≤ room n := by
    unfold room
    omega
  exact ⟨hg.mono hroom, fun h0 => (hs h0).mono hroom⟩

theorem mmFreeNonnull_grown {h h' : Heap} {p : Nat} (hm : mmFreeNonnull h p = some h') (n : Nat) :
    Grown h h' n := by
  rw [mmFreeNonnull] at hm
  obtain ⟨m, -, he⟩ := Option.bind_eq_some_iff.mp hm
  rw [← Option.some.inj he]
  exact Grown.refl h m n

theorem RunInv.realloc_grown (hi : RunInv h live bs fl) {p n k q : Nat} {h' : Heap}
    (hp : (p, k) ∈ live) (hn0 : n ≠ 0) (hn : n ≤ maxRequest)
    (hm : mmRealloc h p n = some (h', q)) :
    Grown h h' (room n) ∧ (q = 0 → Short h (room n)) := by
  have hle := allocSize_le hn
  unfold maxRequest at hn
  have hb := allocSize_bounds (show n ≤ 4294967280 by omega)
  have hroom : allocSize n + 8191 ≤ room n := by
    unfold room
    omega
  have hp0 := hi.live_pos hp
  obtain ⟨l, b, r, rfl, rfl, ha, hbp, -⟩ := hi.liveBlk hp
  obtain ⟨m, l', a', e', r', fl', hM⟩ := hi.rest.merged ha hbp
  have hlow : h.beginHeap + 80 ≤ a' := hM.inv.begin_le
  rw [mmRealloc, if_neg hp0, if_neg hn0] at hm
  dsimp only at hm
  rw [hM.eq] at hm
  dsimp only at hm
  split at hm
  · -- The merged run is large enough.
    obtain ⟨m', -, he⟩ := Option.bind_eq_some_iff.mp hm
    obtain ⟨rfl, rfl⟩ := Prod.mk.inj (Option.some.inj he)
    exact ⟨Grown.refl h m' _, fun h0 => by omega⟩
  · obtain ⟨⟨h₁, q₁⟩, hal, hm⟩ := Option.bind_eq_some_iff.mp hm
    obtain ⟨om, -⟩ := hM.inv.mark hM.room hM.tag
    obtain ⟨hg, hs⟩ := Rest.allocateBlock_grown om hb.1 hb.2.2.2.1 hle hal
    have hg' : Grown h h₁ (room n) := ⟨hg.ge, hg.le.trans (Nat.add_le_add_left hroom _), hg.maxEq⟩
    dsimp only at hm
    split at hm
    · next h0 =>
        obtain ⟨m', -, he⟩ := Option.bind_eq_some_iff.mp hm
        obtain ⟨rfl, rfl⟩ := Prod.mk.inj (Option.some.inj he)
        exact ⟨⟨hg'.ge, hg'.le, hg'.maxEq⟩, fun _ => Short.mono (hs h0) hroom⟩
    · next h0 =>
        obtain ⟨m', -, he⟩ := Option.bind_eq_some_iff.mp hm
        obtain ⟨rfl, rfl⟩ := Prod.mk.inj (Option.some.inj he)
        exact ⟨⟨hg'.ge, hg'.le, hg'.maxEq⟩, fun hq => absurd hq h0⟩

/-- With room for it, a request is met. -/
theorem Reachable.malloc_room {n : Nat} (hr : Reachable ⟨h, live⟩) (hn0 : n ≠ 0)
    (hn : n ≤ maxRequest) (hlt : room n < 2147483648) (hroom : h.brk + room n ≤ h.maxAddr)
    (hsp : h.maxAddr + room n < 4294967296) :
    ∃ h' p, Reachable ⟨h', (p, n) :: live⟩ ∧ h'.brk ≤ h.brk + room n ∧ h'.maxAddr = h.maxAddr := by
  obtain ⟨bs, fl, hi⟩ := hr.inv
  obtain ⟨h', p, hm, -⟩ := hi.malloc hn (hi.inRange_of_room hn hsp).1
  obtain ⟨hg, hs⟩ := hi.malloc_grown hn0 hn hm
  have hp : p ≠ 0 := fun h0 => (hs h0).elim (by dsimp only; omega) (by omega)
  have hst := hr.step (Step.malloc hn hm)
  rw [withNew, if_neg hp] at hst
  exact ⟨h', p, hst, hg.le, hg.maxEq⟩

end

/-! ## The two calls -/

section

variable {h : Heap} {bs : List Blk} {fl : Nat → List Nat} {live : List (Nat × Nat)}

/-- The block of a live pointer is one of the user's. -/
theorem RunInv.blk_alloc {l r : List Blk} {b : Blk} {k : Nat}
    (hi : RunInv h live (l ++ b :: r) fl) (hp : (b.addr, k) ∈ live) :
    b.alloc = true ∧ b ≠ prologue h.beginHeap := by
  obtain ⟨c, ⟨hc, ha, hne⟩, hcp, -⟩ := hi.tracks.block _ _ hp
  obtain rfl : c = b := hi.rest.addr_inj (List.mem_append_left _ hc) (by simp) hcp
  exact ⟨ha, hne⟩

theorem traced_mmRealloc_inPlace {p n a : Nat} {m : Mem} (hp : p ≠ 0) (hn : n ≠ 0)
    (hc : coalesceWillFree h.mem p = (m, a)) (hle : allocSize n ≤ get m (hdrp a)) :
    (Traced.mmRealloc h p n).2 = [] := by
  unfold Traced.mmRealloc
  rw [if_neg hp, if_neg hn]
  dsimp only
  rw [hc]
  dsimp only
  rw [if_pos hle]

theorem traced_mmRealloc_search {p n a : Nat} {m : Mem} (hp : p ≠ 0) (hn : n ≠ 0)
    (hc : coalesceWillFree h.mem p = (m, a)) (hle : ¬allocSize n ≤ get m (hdrp a)) :
    (Traced.mmRealloc h p n).2 = (Traced.allocateBlock (marked h m a) (allocSize n)).2 := by
  unfold Traced.mmRealloc
  rw [if_neg hp, if_neg hn]
  dsimp only
  rw [hc]
  dsimp only
  rw [if_neg hle]
  rfl

theorem RunInv.malloc_grows (hi : RunInv h live bs fl) {n : Nat} (hn0 : n ≠ 0)
    (hn : n ≤ maxRequest) :
    Grows (Traced.mmMalloc h n).2 ↔ ∀ c ∈ bs, c.alloc = false → c.size < allocSize n := by
  unfold maxRequest at hn
  have hb := allocSize_bounds (show n ≤ 4294967280 by omega)
  unfold Traced.mmMalloc
  rw [if_neg hn0]
  exact hi.rest.grows_iff hb.1

/-- The first way of `mm_realloc` searches nothing and gives the merged run. -/
theorem RunInv.realloc_inPlace {l r : List Blk} {b : Blk} {k n : Nat}
    (hi : RunInv h live (l ++ b :: r) fl) (hp : (b.addr, k) ∈ live) (hn0 : n ≠ 0)
    (hn : n ≤ maxRequest) (hfit : allocSize n ≤ runSize l b r) :
    runStart l b ≠ 0 ∧ ∃ h', Traced.mmRealloc h b.addr n = (some (h', runStart l b), []) := by
  obtain ⟨ha, hb⟩ := hi.blk_alloc hp
  obtain ⟨m, l', a', e', r', fl', hM⟩ := hi.rest.merged ha hb
  obtain ⟨hstart, hsize⟩ := hM.run_eq
  have hlow : h.beginHeap + 80 ≤ a' := hM.inv.begin_le
  rw [hsize] at hfit
  rw [hstart]
  unfold maxRequest at hn
  obtain ⟨m', bs', fl₂, s, heq, -⟩ := hM.inPlace hi.rest hb hi.noAdj hn0 (by omega) hfit
  have hlog := traced_mmRealloc_inPlace (hi.live_pos hp) hn0 hM.eq (by rwa [hM.hdr])
  have hres := (traced_mmRealloc h b.addr n).trans heq
  exact ⟨by omega, _, Prod.ext hres hlog⟩

theorem RunInv.realloc_grows {l r : List Blk} {b : Blk} {k n : Nat}
    (hi : RunInv h live (l ++ b :: r) fl) (hp : (b.addr, k) ∈ live) (hn0 : n ≠ 0)
    (hn : n ≤ maxRequest) :
    Grows (Traced.mmRealloc h b.addr n).2 ↔ runSize l b r < allocSize n ∧
      ∀ c ∈ l ++ r, c.alloc = false → c.size < allocSize n := by
  obtain ⟨ha, hb⟩ := hi.blk_alloc hp
  obtain ⟨m, l', a', e', r', fl', hM⟩ := hi.rest.merged ha hb
  obtain ⟨-, hsize⟩ := hM.run_eq
  rw [hsize]
  by_cases hfit : allocSize n ≤ e' - a'
  · rw [traced_mmRealloc_inPlace (hi.live_pos hp) hn0 hM.eq (by rwa [hM.hdr])]
    refine ⟨fun ⟨i, hx⟩ => absurd hx List.not_mem_nil, fun hlt => ?_⟩
    exact absurd hfit (Nat.not_le.mpr hlt.1)
  · have hlt := Nat.not_le.mp hfit
    unfold maxRequest at hn
    have hbnd := allocSize_bounds (show n ≤ 4294967280 by omega)
    have om : Rest (marked h m a') _ fl' := (hM.inv.mark hM.room hM.tag).1
    rw [traced_mmRealloc_search (hi.live_pos hp) hn0 hM.eq (by rwa [hM.hdr]),
      om.grows_iff hbnd.1, and_iff_right hlt, ← hM.free_lt_iff hlt]
    -- The marked run is not free.
    refine ⟨fun hall c hc => hall c (mem_middle.mpr (Or.inl hc)), fun hall c hc hf => ?_⟩
    rcases mem_middle.mp hc with hc | rfl
    · exact hall c hc hf
    · exact Bool.noConfusion hf

/-- A request that is not larger fits into the block it has. -/
theorem allocSize_le_size {c : Blk} {k n : Nat} (h16 : 16 ≤ c.size) (hmod : c.size % 8 = 0)
    (hk : k + 8 ≤ c.size) (hn : n ≤ k) (hmax : n ≤ maxRequest) : allocSize n ≤ c.size := by
  unfold maxRequest at hmax
  rw [allocSize_eq (by omega)]
  omega

/-- `mm_malloc` calls `mem_sbrk` when no free block is large enough, `mm_realloc`
when the merged run is not either; and where the run is, it is returned
without a search. Both return, if they need not pass the end of the address space. -/
theorem grows_iff_needed (hr : Reachable ⟨h, live⟩) : ∃ bs fl, RunInv h live bs fl ∧
    ∀ n, 1 ≤ n → n ≤ 2147483648 →
      ((Grows (Traced.mmMalloc h n).2 ↔ ∀ c ∈ bs, c.alloc = false → c.size < allocSize n) ∧
        (MallocInRange h n → ∃ r, (Traced.mmMalloc h n).1 = some r)) ∧
      ∀ l b r k, bs = l ++ b :: r → (b.addr, k) ∈ live →
        (Grows (Traced.mmRealloc h b.addr n).2 ↔ runSize l b r < allocSize n ∧
          ∀ c ∈ l ++ r, c.alloc = false → c.size < allocSize n) ∧
        (allocSize n ≤ runSize l b r →
          ∃ h', Traced.mmRealloc h b.addr n = (some (h', runStart l b), [])) ∧
        (n ≤ k ∨ allocSize n ≤ b.size →
          ∃ h' q, (Traced.mmRealloc h b.addr n).1 = some (h', q) ∧ q ≠ 0) ∧
        (ReallocInRange h b.addr n → ∃ r, (Traced.mmRealloc h b.addr n).1 = some r) := by
  obtain ⟨bs, fl, hi⟩ := hr.inv
  refine ⟨bs, fl, hi, fun n h1 hn => ?_⟩
  have hmax : n ≤ maxRequest := by
    unfold maxRequest
    omega
  have hret := hi.returns
  refine ⟨⟨hi.malloc_grows (by omega) hmax, fun hin => ?_⟩, ?_⟩
  · rw [traced_mmMalloc]
    exact hret.1 n hmax hin
  rintro l b r k rfl hp
  refine ⟨hi.realloc_grows hp (by omega) hmax,
    fun hfit => (hi.realloc_inPlace hp (by omega) hmax hfit).2, fun hle => ?_, fun hin => ?_⟩
  · obtain ⟨c, ⟨hc, -, -⟩, hcp, hck⟩ := hi.tracks.block _ _ hp
    obtain rfl : c = b := hi.rest.addr_inj (List.mem_append_left _ hc) (by simp) hcp
    have hbm := hi.rest.mem (List.mem_append_left _ hc)
    have hsize : allocSize n ≤ c.size :=
      hle.elim (fun hk => allocSize_le_size hbm.2.2.1 hbm.2.2.2.1 hck hk hmax) id
    have hrun : allocSize n ≤ runSize l c r := by
      unfold runSize
      omega
    obtain ⟨hpos, h', heq⟩ := hi.realloc_inPlace hp (by omega) hmax hrun
    exact ⟨h', _, congrArg Prod.fst heq, hpos⟩
  · rw [traced_mmRealloc]
    exact hret.2.2 b.addr k n hp hmax hin

end

/-- On a fresh heap `mm_malloc(5000)` extends it, and the block of a first
`mm_malloc(100)` is resized to what it has without a search. -/
theorem grows_iff_needed_two :
    (∃ h h' p, Reachable ⟨h, []⟩ ∧ (Traced.mmMalloc h 5000).1 = some (h', p) ∧ p ≠ 0 ∧
      Grows (Traced.mmMalloc h 5000).2) ∧
    ∃ h p, Reachable ⟨h, [(p, 100)]⟩ ∧ ∃ h' q, q ≠ 0 ∧
      Traced.mmRealloc h p 100 = (some (h', q), []) := by
  constructor
  · obtain ⟨h, -, hm, -, hb, -, hmax, hbrk⟩ := mmInit_spec emptyHeap_fresh (by decide)
    have hr := Reachable.init emptyHeap_fresh hm
    obtain ⟨bs, fl, hi, hn⟩ := grows_iff_needed hr
    have hmx : h.maxAddr = 69632 := hmax
    have hb' : h.beginHeap = 4096 := hb
    have hbrk' : h.brk = 8192 := hbrk
    have hin := (hi.inRange_of_le (by omega) 0 5000).1
    obtain ⟨⟨hgrows, hret⟩, -⟩ := hn 5000 (by omega) (by omega)
    obtain ⟨⟨h', p⟩, heq⟩ := hret hin
    refine ⟨h, h', p, hr, heq, fun h0 => ?_, hgrows.mpr fun c hc hf => ?_⟩
    · rw [traced_mmMalloc] at heq
      have hs := (hi.malloc_grown (by omega) (by decide) heq).2 h0
      unfold Short room at hs
      omega
    · have hcm := hi.rest.mem (List.mem_append_left _ hc)
      have htop := hi.rest.vars.top
      have hal : allocSize 5000 = 5008 := by decide
      rcases hcm.2.2.2.2.2.2 with rfl | hge
      · exact Bool.noConfusion hf
      · omega
  · obtain ⟨h, p, -, hr, -⟩ := emptyHeap_malloc
    obtain ⟨bs, fl, hi, hn⟩ := grows_iff_needed hr
    obtain ⟨l, b, r, rfl, rfl, -, -, hk⟩ := hi.liveBlk List.mem_cons_self
    obtain ⟨-, hfit, -, -⟩ := (hn 100 (by omega) (by omega)).2 l b r 100 rfl List.mem_cons_self
    have hal : allocSize 100 = 112 := by decide
    have hbm := hi.rest.mem (b := b) (by simp)
    have hrun : allocSize 100 ≤ runSize l b r := by
      unfold runSize
      omega
    obtain ⟨h', heq⟩ := hfit hrun
    have hpos := (hi.realloc_inPlace List.mem_cons_self (by omega) (by decide) hrun).1
    exact ⟨h, b.addr, hr, h', _, hpos, heq⟩

end Csapp.Malloc
