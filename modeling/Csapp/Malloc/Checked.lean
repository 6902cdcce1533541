import Mathlib
import Csapp.Malloc.Payload

/-!
# The allocator with its accesses checked

The functions of `mm.c` once more, with every word they read or write through a
header, a footer, a class head or a link passed to a test first: `W p` says
whether the word at `p` may be touched, and a function whose test fails has no
answer. What moves payloads, `memmove` and `memcpy`, is not tested.

The test of a heap depends on the break at that moment, so `extend_heap` takes
it anew after `mem_sbrk`.
-/

namespace Csapp.Malloc.Checked

variable (W : Nat → Bool)

/-- `GET`, if the word may be touched. -/
def load (m : Mem) (p : Nat) : Option Nat := if W p then some (get m p) else none

/-- `PUT`, if the word may be touched. -/
def store (m : Mem) (p v : Nat) : Option Mem := if W p then some (put m p v) else none

/-! ## Macros -/

/-- `SIZE`: one load. -/
def size (m : Mem) (mp : Nat) : Option Nat := do
  let v ← load W m mp
  return sizeMask v

/-- `ALOC`: one load. -/
def aloc (m : Mem) (mp : Nat) : Option Nat := do
  let v ← load W m mp
  return v % 2

/-- `PREVBLK` loads the footer before `bp`. -/
def prevblk (m : Mem) (bp : Nat) : Option Nat := do
  let s ← size W m (pftrp bp)
  return sub32 bp s

/-- `NEXTBLK` loads the header of `bp`. -/
def nextblk (m : Mem) (bp : Nat) : Option Nat := do
  let s ← size W m (hdrp bp)
  return u32 (bp + s)

/-- `FTRP` loads the header of `bp` to find its footer. -/
def ftrp (m : Mem) (bp : Nat) : Option Nat := do
  let n ← nextblk W m bp
  return pftrp n

/-- `META_PUT`: the header, the load of it, and the footer. -/
def metaPut (m : Mem) (bp sizeAlloc : Nat) : Option Mem := do
  let m ← store W m (hdrp bp) sizeAlloc
  let f ← ftrp W m bp
  store W m f sizeAlloc

/-! ## Free lists -/

/-- The first word of a `struct free_list`. -/
def next (m : Mem) (x : Nat) : Option Nat := load W m x

/-- The second word of a `struct free_list`. -/
def prev (m : Mem) (x : Nat) : Option Nat := load W m (x + 4)

/-- A store to `next`. -/
def setNext (m : Mem) (x v : Nat) : Option Mem := store W m x v

/-- A store to `prev`. -/
def setPrev (m : Mem) (x v : Nat) : Option Mem := store W m (x + 4) v

/-- `free_list_init` reads back the `prev` it has stored. -/
def freeListInit (m : Mem) (ptr : Nat) : Option Mem := do
  let m ← setPrev W m ptr ptr
  let p ← prev W m ptr
  setNext W m ptr p

/-- `free_list_insert` loads the `next` of the head twice, as the source does. -/
def freeListInsert (m : Mem) (head buf : Nat) : Option Mem := do
  let f ← next W m head
  let m ← setNext W m buf f
  let m ← setPrev W m buf head
  let f ← next W m head
  let m ← setPrev W m f buf
  setNext W m head buf

/-- `free_list_remove` loads both links twice. -/
def freeListRemove (m : Mem) (node : Nat) : Option Mem := do
  let n ← next W m node
  let p ← prev W m node
  let m ← setPrev W m n p
  let p ← prev W m node
  let n ← next W m node
  setNext W m p n

/-- `class_list_init`, from index `i` and class size `cls`. -/
def classListInit (beginHeap : Nat) : Nat → Nat → Nat → Mem → Option Mem
  | 0, _, _, m => some m
  | fuel + 1, i, cls, m =>
      if cls ≤ chunkSize then do
        let m ← freeListInit W m (classHead beginHeap i)
        classListInit beginHeap fuel (i + 1) (u32 (2 * cls)) m
      else some m

/-- `resv_node`. -/
def resvNode (m : Mem) (node : Nat) : Option Mem := freeListRemove W m node

/-- `free_node` loads the header for the class. -/
def freeNode (m : Mem) (beginHeap node : Nat) : Option Mem := do
  let s ← load W m (hdrp node)
  let cls ← classof s
  freeListInsert W m (classHead beginHeap cls) node

/-! ## Coalescing -/

/-- The first `if` of `coalesce_will_free`. -/
def coalescePrev (m : Mem) (ptr prevp blksz : Nat) : Option (Mem × Nat × Nat) := do
  let a ← aloc W m (hdrp prevp)
  if a = 0 then
    let m ← resvNode W m prevp
    let s ← load W m (hdrp prevp)
    return (m, prevp, u32 (blksz + s))
  else return (m, ptr, blksz)

/-- The second `if` of `coalesce_will_free`. -/
def coalesceNext (m : Mem) (nextp blksz : Nat) : Option (Mem × Nat) := do
  let a ← aloc W m (hdrp nextp)
  if a = 0 then
    let m ← resvNode W m nextp
    let s ← load W m (hdrp nextp)
    return (m, u32 (blksz + s))
  else return (m, blksz)

/-- `coalesce_will_free`: both neighbours are located before either is merged. -/
def coalesceWillFree (m : Mem) (ptr : Nat) : Option (Mem × Nat) := do
  let blksz ← size W m (hdrp ptr)
  let prevp ← prevblk W m ptr
  let nextp ← nextblk W m ptr
  let r ← coalescePrev W m ptr prevp blksz
  let q ← coalesceNext W r.1 nextp r.2.2
  let m ← metaPut W q.1 r.2.1 q.2
  return (m, r.2.1)

/-- `if (sz > 0) { META_PUT(p, sz); free_node(p); }`. -/
def freePart (m : Mem) (beginHeap p sz : Nat) : Option Mem :=
  if sz > 0 then do
    let m ← metaPut W m p sz
    freeNode W m beginHeap p
  else some m

/-- `uncoalesce_was_resvd`. -/
def uncoalesceWasResvd (m : Mem) (beginHeap newblk oldblk oldsz : Nat) : Option Mem := do
  let newsz ← size W m (hdrp newblk)
  let m ← metaPut W m oldblk (pack oldsz 1)
  let prevp ← prevblk W m oldblk
  let nextp ← nextblk W m oldblk
  let prevsz := sub32 oldblk prevp
  let nextsz := sub32 (sub32 newsz oldsz) prevsz
  let m ← freePart W m beginHeap prevp prevsz
  freePart W m beginHeap nextp nextsz

/-! ## Splitting and searching -/

/-- `free_tail_was_resvd`. -/
def freeTailWasResvd (m : Mem) (beginHeap blk req : Nat) : Option Mem := do
  let blksz ← size W m (hdrp blk)
  let second := sub32 blksz req
  if second < minAlloc then metaPut W m blk (pack blksz 1)
  else
    let m ← metaPut W m blk (pack req 1)
    let tail := u32 (blk + req)
    let m ← metaPut W m tail second
    freeNode W m beginHeap tail

/-- The inner `free_for` of `allocate_block`. -/
def searchList (m : Mem) (head size : Nat) : Nat → Nat → Option Nat
  | 0, _ => none
  | fuel + 1, list =>
      if list = head then some 0
      else do
        let s ← load W m (hdrp list)
        if size ≤ s then some list
        else
          let list ← next W m list
          searchList m head size fuel list

/-- The outer `class_for_from` of `allocate_block`. -/
def searchClasses (m : Mem) (walk beginHeap size : Nat) : Nat → Nat → Nat → Option Nat
  | 0, _, _ => none
  | fuel + 1, i, cls =>
      if cls ≤ chunkSize then do
        let head := classHead beginHeap i
        let first ← next W m head
        let node ← searchList W m head size walk first
        if node ≠ 0 then some node
        else searchClasses m walk beginHeap size fuel (i + 1) (u32 (2 * cls))
      else some 0

/-! ## The heap

From here on the test is `W brk`, for the break of the moment. -/

section

variable (W : Nat → Nat → Bool)

/-- The size `extend_heap` asks for: it loads the last footer, unless in `mm_init`. -/
def extendSize (W : Nat → Bool) (m : Mem) (minsize oldend : Nat) : Option Nat := do
  let a ← if oldend ≠ 0 then aloc W m (pftrp oldend) else some 1
  let t ← if a = 0 then load W m (pftrp oldend) else some 0
  let x := u32 (max chunkSize (if a = 0 then sub32 minsize t else minsize) + (chunkSize - 1))
  return x - x % chunkSize

/-- `extend_heap`: the stores behind the old break are tested against the new one. -/
def extendHeap (h : Heap) (minsize oldend : Nat) : Option (Heap × Nat) := do
  let reqsz ← extendSize (W h.brk) h.mem minsize oldend
  match memSbrk h reqsz with
  | none => return (h, 0)
  | some (beginp, h) =>
      let endHeap := u32 (beginp + reqsz)
      if endHeap < beginp then none
      else
        let m ← store (W h.brk) h.mem (hdrp endHeap) (pack wsize 1)
        if oldend ≠ 0 then
          let m ← metaPut (W h.brk) m oldend reqsz
          let r ← coalesceWillFree (W h.brk) m oldend
          return ({ h with mem := r.1, endHeap := endHeap }, r.2)
        else return ({ h with mem := m, endHeap := endHeap }, beginp)

/-- `mm_init`. -/
def mmInit (h : Heap) : Option (Heap × Int) := do
  let r ← extendHeap W h chunkSize 0
  let h := r.1
  let beginp := r.2
  if beginp = 0 then return (h, -1)
  else
    let prosz := prologueSize 32 minAlloc dsize
    let blockp := align (u32 (beginp + prosz))
    let pro := sub32 blockp prosz
    let m ← metaPut (W h.brk) h.mem pro (pack prosz 1)
    let m ← classListInit (W h.brk) pro 32 0 minAlloc m
    let m ← metaPut (W h.brk) m blockp (sub32 h.endHeap blockp)
    let m ← freeNode (W h.brk) m pro blockp
    return ({ h with mem := m, beginHeap := pro }, 0)

/-- The search of `allocate_block`. -/
def findNode (h : Heap) (size : Nat) : Option Nat := do
  let i ← classof size
  if i < 0 then none
  else
    searchClasses (W h.brk) h.mem (h.brk - h.startBrk) h.beginHeap size 32 i.toNat
      (u32 (minAlloc * 2 ^ i.toNat))

/-- `allocate_block`. -/
def allocateBlock (h : Heap) (size : Nat) : Option (Heap × Nat) := do
  let node ← findNode W h size
  if node ≠ 0 then
    let m ← resvNode (W h.brk) h.mem node
    let m ← freeTailWasResvd (W h.brk) m h.beginHeap node size
    return ({ h with mem := m }, node)
  else
    let r ← extendHeap W h size h.endHeap
    if r.2 = 0 then return (r.1, 0)
    else
      let m ← freeTailWasResvd (W r.1.brk) r.1.mem r.1.beginHeap r.2 size
      return ({ r.1 with mem := m }, r.2)

/-! ## The calls -/

/-- `mm_malloc`. -/
def mmMalloc (h : Heap) (size : Nat) : Option (Heap × Nat) :=
  if size = 0 then some (h, 0) else allocateBlock W h (allocSize size)

/-- `mm_free_nonnull`. -/
def mmFreeNonnull (h : Heap) (ptr : Nat) : Option Heap := do
  let r ← coalesceWillFree (W h.brk) h.mem ptr
  let m ← freeNode (W h.brk) r.1 h.beginHeap r.2
  return { h with mem := m }

/-- `mm_free`. -/
def mmFree (h : Heap) (ptr : Nat) : Option Heap :=
  if ptr = 0 then some h else mmFreeNonnull W h ptr

/-- `mm_realloc`; the copies are not tested. -/
def mmRealloc (h : Heap) (ptr size : Nat) : Option (Heap × Nat) :=
  if ptr = 0 then mmMalloc W h size
  else if size = 0 then do
    let h ← mmFreeNonnull W h ptr
    return (h, 0)
  else do
    let size := allocSize size
    let oldptr := ptr
    let oldsz ← Checked.size (W h.brk) h.mem (hdrp oldptr)
    let copysz := sub32 (min oldsz size) dsize
    let r ← coalesceWillFree (W h.brk) h.mem oldptr
    let m := r.1
    let ptr := r.2
    let s ← load (W h.brk) m (hdrp ptr)
    if size ≤ s then
      let m ← freeTailWasResvd (W h.brk) (memmove m ptr oldptr copysz) h.beginHeap ptr size
      return ({ h with mem := m }, ptr)
    else
      let s ← load (W h.brk) m (hdrp ptr)
      let m ← metaPut (W h.brk) m ptr (pack s 1)
      let r ← allocateBlock W { h with mem := m } size
      let h := r.1
      let newptr := r.2
      if newptr = 0 then
        let m ← uncoalesceWasResvd (W h.brk) h.mem h.beginHeap ptr oldptr oldsz
        return ({ h with mem := m }, 0)
      else
        let m := memmove h.mem newptr oldptr copysz
        let s ← Checked.size (W h.brk) m (hdrp ptr)
        let m ← metaPut (W h.brk) m ptr s
        let m ← freeNode (W h.brk) m h.beginHeap ptr
        return ({ h with mem := m }, newptr)

end

/-! ## Passing the tests -/

variable {W} {m : Mem} {p v : Nat}

theorem load_eq (h : W p = true) : load W m p = some (get m p) := if_pos h

theorem store_eq (h : W p = true) : store W m p v = some (put m p v) := if_pos h

theorem load_refused (h : W p = false) : load W m p = none := by
  unfold load
  rw [h]
  exact if_neg Bool.false_ne_true

theorem store_refused (h : W p = false) : store W m p v = none := by
  unfold store
  rw [h]
  exact if_neg Bool.false_ne_true

theorem size_eq (h : W p = true) : size W m p = some (Malloc.size m p) := by
  simp [size, load_eq h, Malloc.size]

theorem aloc_eq (h : W p = true) : aloc W m p = some (Malloc.aloc m p) := by
  simp [aloc, load_eq h, Malloc.aloc]

theorem prevblk_eq (h : W (pftrp p) = true) : prevblk W m p = some (Malloc.prevblk m p) := by
  simp [prevblk, size_eq h, Malloc.prevblk]

theorem nextblk_eq (h : W (hdrp p) = true) : nextblk W m p = some (Malloc.nextblk m p) := by
  simp [nextblk, size_eq h, Malloc.nextblk]

theorem ftrp_eq (h : W (hdrp p) = true) : ftrp W m p = some (Malloc.ftrp m p) := by
  simp [ftrp, nextblk_eq h, Malloc.ftrp]

theorem metaPut_eq (h : W (hdrp p) = true)
    (hf : W (Malloc.ftrp (put m (hdrp p) v) p) = true) :
    metaPut W m p v = some (Malloc.metaPut m p v) := by
  simp [metaPut, store_eq h, ftrp_eq h, store_eq hf, Malloc.metaPut]

theorem freeListInit_eq (hn : W p = true) (hp : W (p + 4) = true) :
    freeListInit W m p = some (Malloc.freeListInit m p) := by
  simp [freeListInit, setPrev, prev, setNext, store_eq hp, load_eq hp, store_eq hn,
    Malloc.freeListInit, Malloc.setPrev, Malloc.prev, Malloc.setNext]

end Csapp.Malloc.Checked
