import Mathlib
import Csapp.Malloc.Mem

/-!
# `memlib.c` and `mm.c`

A translation of the allocator, function by function, for the 32-bit build.
Pointers and sizes are numbers below `2 ^ 32` and all arithmetic on them wraps;
`NULL` is `0`. The memory is passed through explicitly. `mm_check` is the body
it has without `MM_DEBUG` and always answers `1`, so the calls to it leave no
trace here, and neither does logging.

A function that can reach undefined behaviour, or whose loop need not end,
answers in `Option`: `none` is `__builtin_clz(0)`, a shift by a negative count, an
`end_heap` past the end of the address space, or a list walk that has taken more
steps than the heap has bytes.
-/

namespace Csapp.Malloc

/-! ## Macros -/

/-- `WSIZE`: a header or a footer. -/
def wsize : Nat := 4

/-- `DSIZE`: both. -/
def dsize : Nat := 8

/-- `CHUNKSIZE`: what the heap grows by, and the largest size class. -/
def chunkSize : Nat := 4096

/-- `ALIGNMENT`. -/
def alignment : Nat := 8

/-- `x & SIZE_MASK`: the low three bits are cleared. -/
def sizeMask (x : Nat) : Nat := x - x % alignment

/-- `ALIGN`. -/
def align (x : Nat) : Nat := sizeMask (u32 (x + 7))

/-- `sizeof(struct free_list)`, and of `struct class_list` as well. -/
def sizeofFreeList : Nat := 8

/-- `MIN_ALLOC`: a free node between two tags. -/
def minAlloc : Nat := align (sizeofFreeList + dsize)

/-- `ALLOC_SIZE`: the block for a request of `n` bytes. -/
def allocSize (n : Nat) : Nat := align (u32 (max sizeofFreeList n + dsize))

/-- `PACK`. The sizes packed are multiples of eight, or `WSIZE`. -/
def pack (size alloc : Nat) : Nat := size ||| alloc

/-- `SIZE`, of a header or a footer. -/
def size (m : Mem) (mp : Nat) : Nat := sizeMask (get m mp)

/-- `ALOC`: the lowest bit of a header or a footer. -/
def aloc (m : Mem) (mp : Nat) : Nat := get m mp % 2

/-- `HDRP`: the header of the block at `bp`. -/
def hdrp (bp : Nat) : Nat := sub32 bp wsize

/-- `PFTRP`: the footer of the block before. -/
def pftrp (bp : Nat) : Nat := sub32 bp dsize

/-- `PREVBLK`. -/
def prevblk (m : Mem) (bp : Nat) : Nat := sub32 bp (size m (pftrp bp))

/-- `NEXTBLK`. -/
def nextblk (m : Mem) (bp : Nat) : Nat := u32 (bp + size m (hdrp bp))

/-- `FTRP`: the footer of the block at `bp`. -/
def ftrp (m : Mem) (bp : Nat) : Nat := pftrp (nextblk m bp)

/-- `META_PUT`: the footer is located through the header just written. -/
def metaPut (m : Mem) (bp sizeAlloc : Nat) : Mem :=
  let m := put m (hdrp bp) sizeAlloc
  put m (ftrp m bp) sizeAlloc

/-! ## Free lists

A `struct free_list` is two words, `next` at offset 0 and `prev` at 4. -/

/-- `x->next`. -/
def next (m : Mem) (x : Nat) : Nat := get m x

/-- `x->prev`. -/
def prev (m : Mem) (x : Nat) : Nat := get m (x + 4)

/-- `x->next = v`. -/
def setNext (m : Mem) (x v : Nat) : Mem := put m x v

/-- `x->prev = v`. -/
def setPrev (m : Mem) (x v : Nat) : Mem := put m (x + 4) v

/-- `free_list_init`: a ring of one. -/
def freeListInit (m : Mem) (ptr : Nat) : Mem :=
  let m := setPrev m ptr ptr
  setNext m ptr (prev m ptr)

/-- `free_list_insert`: `buf` comes behind `head`. -/
def freeListInsert (m : Mem) (head buf : Nat) : Mem :=
  let m := setNext m buf (next m head)
  let m := setPrev m buf head
  let m := setPrev m (next m head) buf
  setNext m head buf

/-- `free_list_remove`. -/
def freeListRemove (m : Mem) (node : Nat) : Mem :=
  let m := setPrev m (next m node) (prev m node)
  setNext m (prev m node) (next m node)

/-- `CHAR_BIT * sizeof(arg) - __builtin_clz(arg) - 1`; `clz` of 0 is undefined. -/
def lastSetBit (arg : Nat) : Option Int :=
  if arg = 0 then none else some (Nat.log 2 arg)

/-- The result of `classof` as an index into the class lists: the source
returns `begin_heap + clsidx`, and a negative index is only logged. -/
def classof (sz : Nat) : Option Int := do
  let lastbit ← lastSetBit sz
  let minbit ← lastSetBit minAlloc
  let maxbit ← lastSetBit chunkSize
  return min (lastbit - minbit) (maxbit - minbit)

/-- `begin_heap + i`, which is also the address of its `head` member. -/
def classHead (beginHeap : Nat) (i : Int) : Nat :=
  ((beginHeap + 8 * i) % 4294967296).toNat

/-- `class_list_init`: `class_for` from index `i` and class size `cls`. -/
def classListInit (beginHeap : Nat) : Nat → Nat → Nat → Mem → Mem
  | 0, _, _, m => m
  | fuel + 1, i, cls, m =>
      if cls ≤ chunkSize then
        classListInit beginHeap fuel (i + 1) (u32 (2 * cls))
          (freeListInit m (classHead beginHeap i))
      else m

/-- The prologue size `mm_init` sums up over the same classes. -/
def prologueSize : Nat → Nat → Nat → Nat
  | 0, _, prosz => prosz
  | fuel + 1, cls, prosz =>
      if cls ≤ chunkSize then
        prologueSize fuel (u32 (2 * cls)) (prosz + sizeofFreeList)
      else prosz

/-- `resv_node`. -/
def resvNode (m : Mem) (node : Nat) : Mem := freeListRemove m node

/-- `free_node`: the node goes to the head of the list of its class. -/
def freeNode (m : Mem) (beginHeap node : Nat) : Option Mem := do
  let cls ← classof (get m (hdrp node))
  return freeListInsert m (classHead beginHeap cls) node

/-! ## Coalescing -/

/-- The first `if` of `coalesce_will_free`: memory, block and block size. -/
def coalescePrev (m : Mem) (ptr prevp blksz : Nat) : Mem × Nat × Nat :=
  if aloc m (hdrp prevp) = 0 then
    let m := resvNode m prevp
    (m, prevp, u32 (blksz + get m (hdrp prevp)))
  else (m, ptr, blksz)

/-- The second `if`: memory and block size. -/
def coalesceNext (m : Mem) (nextp blksz : Nat) : Mem × Nat :=
  if aloc m (hdrp nextp) = 0 then
    let m := resvNode m nextp
    (m, u32 (blksz + get m (hdrp nextp)))
  else (m, blksz)

/-- `coalesce_will_free`: the free neighbours of `ptr` leave their lists and are merged with
it. The result carries one tag; no list holds it yet. -/
def coalesceWillFree (m : Mem) (ptr : Nat) : Mem × Nat :=
  let blksz := size m (hdrp ptr)
  let prevp := prevblk m ptr
  let nextp := nextblk m ptr
  let r := coalescePrev m ptr prevp blksz
  let q := coalesceNext r.1 nextp r.2.2
  (metaPut q.1 r.2.1 q.2, r.2.1)

/-- `if (sz > 0) { META_PUT(p, sz); free_node(p); }`, which
`uncoalesce_was_resvd` does on either side. -/
def freePart (m : Mem) (beginHeap p sz : Nat) : Option Mem :=
  if sz > 0 then freeNode (metaPut m p sz) beginHeap p else some m

/-- `uncoalesce_was_resvd`: the old block and what is left of the merged one on either side. -/
def uncoalesceWasResvd (m : Mem) (beginHeap newblk oldblk oldsz : Nat) :
    Option Mem := do
  let newsz := size m (hdrp newblk)
  let m := metaPut m oldblk (pack oldsz 1)
  let prevp := prevblk m oldblk
  let nextp := nextblk m oldblk
  let prevsz := sub32 oldblk prevp
  let nextsz := sub32 (sub32 newsz oldsz) prevsz
  let m ← freePart m beginHeap prevp prevsz
  freePart m beginHeap nextp nextsz

/-! ## The heap and `mem_sbrk` -/

/-- The static variables of `memlib.c` and `mm.c`, with the memory. -/
structure Heap where
  mem : Mem
  startBrk : Nat
  brk : Nat
  maxAddr : Nat
  beginHeap : Nat
  endHeap : Nat

/-- `mem_sbrk`: the `size_t` argument is converted to `int`, so it is negative
from `2 ^ 31` on. The pointer that is compared with the limit wraps, and so may
be granted below the break it extends. -/
def memSbrk (h : Heap) (incr : Nat) : Option (Nat × Heap) :=
  let newBrk := u32 (h.brk + incr)
  if 2147483648 ≤ incr ∨ h.maxAddr < newBrk then none
  else some (h.brk, { h with brk := newBrk })

/-- The size `extend_heap` asks `mem_sbrk` for. -/
def extendSize (m : Mem) (minsize oldend : Nat) : Nat :=
  let minsize :=
    if oldend ≠ 0 ∧ aloc m (pftrp oldend) = 0 then
      sub32 minsize (get m (pftrp oldend))
    else minsize
  let x := u32 (max chunkSize minsize + (chunkSize - 1))
  x - x % chunkSize

/-- `extend_heap`; `oldend` is `NULL` in `mm_init` only. When `mem_sbrk` has granted
memory past the end of the address space, `end_heap` wraps, and what is stored
through it is undefined. -/
def extendHeap (h : Heap) (minsize oldend : Nat) : Option (Heap × Nat) :=
  let reqsz := extendSize h.mem minsize oldend
  match memSbrk h reqsz with
  | none => some (h, 0)
  | some (beginp, h) =>
      let endHeap := u32 (beginp + reqsz)
      if endHeap < beginp then none
      else
        let m := put h.mem (hdrp endHeap) (pack wsize 1)
        if oldend ≠ 0 then
          let r := coalesceWillFree (metaPut m oldend reqsz) oldend
          some ({ h with mem := r.1, endHeap := endHeap }, r.2)
        else some ({ h with mem := m, endHeap := endHeap }, beginp)

/-- `mm_init`: 0 on success, -1 when the heap cannot be extended. -/
def mmInit (h : Heap) : Option (Heap × Int) := do
  let r ← extendHeap h chunkSize 0
  let h := r.1
  let beginp := r.2
  if beginp = 0 then return (h, -1)
  else
    let prosz := prologueSize 32 minAlloc dsize
    let blockp := align (u32 (beginp + prosz))
    let pro := sub32 blockp prosz
    let m := metaPut h.mem pro (pack prosz 1)
    let m := classListInit pro 32 0 minAlloc m
    let m := metaPut m blockp (sub32 h.endHeap blockp)
    let m ← freeNode m pro blockp
    return ({ h with mem := m, beginHeap := pro }, 0)

/-! ## Allocation -/

/-- `free_tail_was_resvd`: what a request leaves of its block is freed, if it is a block. -/
def freeTailWasResvd (m : Mem) (beginHeap blk req : Nat) : Option Mem :=
  let blksz := size m (hdrp blk)
  let second := sub32 blksz req
  if second < minAlloc then some (metaPut m blk (pack blksz 1))
  else
    let m := metaPut m blk (pack req 1)
    let tail := u32 (blk + req)
    freeNode (metaPut m tail second) beginHeap tail

/-- The inner `free_for` of `allocate_block`: the first node of the list that
is large enough, `0` when the walk is back at the head. -/
def searchList (m : Mem) (head size : Nat) : Nat → Nat → Option Nat
  | 0, _ => none
  | fuel + 1, list =>
      if list = head then some 0
      else if size ≤ get m (hdrp list) then some list
      else searchList m head size fuel (next m list)

/-- The outer `class_for_from`, from index `i` and class size `cls`. -/
def searchClasses (m : Mem) (walk beginHeap size : Nat) :
    Nat → Nat → Nat → Option Nat
  | 0, _, _ => none
  | fuel + 1, i, cls =>
      if cls ≤ chunkSize then do
        let head := classHead beginHeap i
        let node ← searchList m head size walk (next m head)
        if node ≠ 0 then some node
        else searchClasses m walk beginHeap size fuel (i + 1) (u32 (2 * cls))
      else some 0

/-- The search of `allocate_block`. The class loop starts with
`MIN_ALLOC << clsidx`, undefined for a negative index. -/
def findNode (h : Heap) (size : Nat) : Option Nat := do
  let i ← classof size
  if i < 0 then none
  else
    searchClasses h.mem (h.brk - h.startBrk) h.beginHeap size 32 i.toNat
      (u32 (minAlloc * 2 ^ i.toNat))

/-- `allocate_block`: the block, or `NULL` when the heap cannot grow. -/
def allocateBlock (h : Heap) (size : Nat) : Option (Heap × Nat) := do
  let node ← findNode h size
  if node ≠ 0 then
    let m ← freeTailWasResvd (resvNode h.mem node) h.beginHeap node size
    return ({ h with mem := m }, node)
  else
    let r ← extendHeap h size h.endHeap
    if r.2 = 0 then return (r.1, 0)
    else
      let m ← freeTailWasResvd r.1.mem r.1.beginHeap r.2 size
      return ({ r.1 with mem := m }, r.2)

/-- `mm_malloc`. -/
def mmMalloc (h : Heap) (size : Nat) : Option (Heap × Nat) :=
  if size = 0 then some (h, 0) else allocateBlock h (allocSize size)

/-- `mm_free_nonnull`. -/
def mmFreeNonnull (h : Heap) (ptr : Nat) : Option Heap := do
  let r := coalesceWillFree h.mem ptr
  let m ← freeNode r.1 h.beginHeap r.2
  return { h with mem := m }

/-- `mm_free`. -/
def mmFree (h : Heap) (ptr : Nat) : Option Heap :=
  if ptr = 0 then some h else mmFreeNonnull h ptr

/-- `memmove` and `memcpy`. -/
def memmove (m : Mem) (dst src n : Nat) : Mem := fun a =>
  if dst ≤ a ∧ a < dst + n then m (src + (a - dst)) else m a

/-- `mm_realloc`: in place, if the block merged with its neighbours is large enough. -/
def mmRealloc (h : Heap) (ptr size : Nat) : Option (Heap × Nat) :=
  if ptr = 0 then mmMalloc h size
  else if size = 0 then do
    let h ← mmFreeNonnull h ptr
    return (h, 0)
  else do
    let size := allocSize size
    let oldptr := ptr
    let oldsz := Malloc.size h.mem (hdrp oldptr)
    let copysz := sub32 (min oldsz size) dsize
    let r := coalesceWillFree h.mem oldptr
    let m := r.1
    let ptr := r.2
    if size ≤ get m (hdrp ptr) then
      let m ← freeTailWasResvd (memmove m ptr oldptr copysz) h.beginHeap ptr size
      return ({ h with mem := m }, ptr)
    else
      let m := metaPut m ptr (pack (get m (hdrp ptr)) 1)
      let r ← allocateBlock { h with mem := m } size
      let h := r.1
      let newptr := r.2
      if newptr = 0 then
        let m ← uncoalesceWasResvd h.mem h.beginHeap ptr oldptr oldsz
        return ({ h with mem := m }, 0)
      else
        let m := memmove h.mem newptr oldptr copysz
        let m := metaPut m ptr (Malloc.size m (hdrp ptr))
        let m ← freeNode m h.beginHeap ptr
        return ({ h with mem := m }, newptr)

end Csapp.Malloc
