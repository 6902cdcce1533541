import Mathlib

/-!
# The bounded buffer `sbuf.c`

A step relation over any number of threads, each of which calls `sbuf_enq` and
`sbuf_deq` on one buffer. A thread is where it stands in the call it is making;
a step is one of the five things a call does in turn: wait on its semaphore,
take the mutex, copy, release the mutex, post the other semaphore. A wait that
is interrupted is a thread that has not moved.

The counters are `size_t` and wrap at `2 ^ 64`; the copy is addressed as the
source addresses it, `data + (rear++ % n)`. The two logs are ghosts: what the
critical sections have stored and taken, in order.
-/

namespace Csapp.Sbuf

/-- The bytes of an item. -/
abbrev Item := List UInt8

/-- The buffer, with what has been stored in it and taken from it so far. -/
structure Buf where
  data : Nat → UInt8
  front : Nat
  rear : Nat
  mutex : Bool
  slots : Nat
  items : Nat
  stored : List Item
  taken : List Item

/-- Where a thread stands. -/
inductive Pc
  | idle
  | enqWait (item : Item)
  | enqLock (item : Item)
  | enqIn (item : Item)
  | enqOut
  | enqPost
  | deqWait
  | deqLock
  | deqIn
  | deqOut
  | deqPost

/-- `memcpy(data + off, item, sz)`. -/
def copyIn (data : Nat → UInt8) (off : Nat) (item : Item) : Nat → UInt8 := fun a =>
  if off ≤ a ∧ a < off + item.length then item.getD (a - off) 0 else data a

/-- `memcpy(item, data + off, sz)`. -/
def copyOut (data : Nat → UInt8) (off sz : Nat) : Item :=
  (List.range sz).map fun i => data (off + i)

/-- `size_t` increment. -/
def incr (c : Nat) : Nat := (c + 1) % 18446744073709551616

/-- The statement inside the critical section of `sbuf_enq`. -/
def enqCopy (len : Nat) (b : Buf) (item : Item) : Buf :=
  { b with data := copyIn b.data (b.rear % len) item, rear := incr b.rear,
           stored := b.stored ++ [item] }

/-- The statement inside the critical section of `sbuf_deq`. -/
def deqCopy (len sz : Nat) (b : Buf) : Buf :=
  { b with front := incr b.front,
           taken := b.taken ++ [copyOut b.data (b.front % len) sz] }

/-- `SEM_VALUE_MAX`. -/
def semValueMax : Nat := 2147483647

/-- `sbuf_create(len, size)`. The initial value of `slots` is converted to
`unsigned int`. -/
def create (len : Nat) : Buf :=
  ⟨fun _ => 0, 0, 0, false, len % 4294967296, 0, [], []⟩

/-- One step of one thread. -/
inductive Move (len sz : Nat) : Buf → Pc → Buf → Pc → Prop
  | callEnq {b item} : item.length = sz → Move len sz b .idle b (.enqWait item)
  | enqWait {b item} : 0 < b.slots →
      Move len sz b (.enqWait item) { b with slots := b.slots - 1 } (.enqLock item)
  | enqLock {b item} : b.mutex = false →
      Move len sz b (.enqLock item) { b with mutex := true } (.enqIn item)
  | enqIn {b item} : Move len sz b (.enqIn item) (enqCopy len b item) .enqOut
  | enqOut {b} : Move len sz b .enqOut { b with mutex := false } .enqPost
  | enqPost {b} : Move len sz b .enqPost { b with items := b.items + 1 } .idle
  | callDeq {b} : Move len sz b .idle b .deqWait
  | deqWait {b} : 0 < b.items →
      Move len sz b .deqWait { b with items := b.items - 1 } .deqLock
  | deqLock {b} : b.mutex = false →
      Move len sz b .deqLock { b with mutex := true } .deqIn
  | deqIn {b} : Move len sz b .deqIn (deqCopy len sz b) .deqOut
  | deqOut {b} : Move len sz b .deqOut { b with mutex := false } .deqPost
  | deqPost {b} : Move len sz b .deqPost { b with slots := b.slots + 1 } .idle

/-- The thread is about to store. -/
def Pc.storing : Pc → Prop
  | .enqIn _ => True
  | _ => False

/-- The states of the runs in which every store starts from a buffer with `C`.
`sem_init` refuses a value above `SEM_VALUE_MAX`; on such a buffer there is no
run. -/
inductive Reach (len sz : Nat) (C : Buf → Prop) : Buf → List Pc → Prop
  | init {ps} : len % 4294967296 ≤ semValueMax → (∀ p ∈ ps, p = Pc.idle) →
      Reach len sz C (create len) ps
  | step {b b' l p p' r} : Reach len sz C b (l ++ p :: r) → Move len sz b p b' p' →
      (p.storing → C b) → Reach len sz C b' (l ++ p' :: r)

/-- The offset at which the item with number `i` is stored. -/
def slot (len i : Nat) : Nat := i % 18446744073709551616 % len

/-- A store now meets no byte of an item that is still queued. -/
def Clear (len sz : Nat) (b : Buf) : Prop :=
  ∀ i, b.taken.length ≤ i → i < b.stored.length →
    slot len i + sz ≤ b.rear % len ∨ b.rear % len + sz ≤ slot len i

/-! ## The copies -/

/-- What has been copied in is copied out again. -/
theorem copyOut_copyIn {data : Nat → UInt8} {off : Nat} {item : Item} :
    copyOut (copyIn data off item) off item.length = item := by
  unfold copyOut copyIn
  refine List.ext_getElem (by rw [List.length_map, List.length_range]) ?_
  intro i h1 h2
  rw [List.getElem_map, List.getElem_range, if_pos (by omega), Nat.add_sub_cancel_left,
    List.getD_eq_getElem _ _ h2]

/-- A copy elsewhere changes nothing here. -/
theorem copyOut_copyIn_apart {data : Nat → UInt8} {off k sz : Nat} {item : Item}
    (h : k + sz ≤ off ∨ off + item.length ≤ k) :
    copyOut (copyIn data off item) k sz = copyOut data k sz := by
  unfold copyOut copyIn
  refine List.map_congr_left ?_
  intro i hi
  have hi := List.mem_range.mp hi
  rw [if_neg (by omega)]

end Csapp.Sbuf
