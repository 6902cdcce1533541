import Mathlib
import Csapp.Malloc.Model

/-!
# The driver

`eval_mm_valid` of `mdriver.c`, which runs a trace of requests against a malloc
package and checks every payload it gets: its alignment, its place in the heap,
the payloads already handed out, and the bytes that a realloc has to keep. The
package is a parameter, as the driver is linked with any `mm.c`; the one of
this repository is `mmPackage`.

`none` is a run that the driver does not survive: an index outside its arrays, a
failed assertion, or a call that does not come back. The sizes of a trace are
read with `%u` into an `int`, and are taken to be below `2 ^ 31`.
-/

namespace Csapp.Malloc.Driver

/-! ## Ranges -/

/-- `range_t`, without the link. `hi` is the last byte. -/
structure Range where
  lo : Nat
  hi : Nat
deriving DecidableEq

/-- What `malloc_error` is called with. -/
inductive Problem
  | initFailed
  | mallocFailed
  | reallocFailed
  | notAligned (lo : Nat)
  | outside (lo hi heapLo heapHi : Nat)
  | overlaps (lo hi plo phi : Nat)
  | notPreserved
deriving DecidableEq

/-- The message, for the way `%p` prints a pointer. -/
def Problem.msg (ptr : Nat → String) : Problem → String
  | .initFailed => "mm_init failed."
  | .mallocFailed => "mm_malloc failed."
  | .reallocFailed => "mm_realloc failed."
  | .notAligned lo => "Payload address (" ++ ptr lo ++ ") not aligned to 8 bytes"
  | .outside lo hi heapLo heapHi => "Payload (" ++ ptr lo ++ ":" ++ ptr hi ++
      ") lies outside heap (" ++ ptr heapLo ++ ":" ++ ptr heapHi ++ ")"
  | .overlaps lo hi plo phi => "Payload (" ++ ptr lo ++ ":" ++ ptr hi ++
      ") overlaps another payload (" ++ ptr plo ++ ":" ++ ptr phi ++ ")\n"
  | .notPreserved => "mm_realloc did not preserve the data from old block"

/-- Whether an end of the new payload is in an old one. -/
def Range.hits (p : Range) (lo hi : Nat) : Bool :=
  (p.lo ≤ lo && lo ≤ p.hi) || (p.lo ≤ hi && hi ≤ p.hi)

/-- `add_range`; undefined for a payload of no bytes. -/
def addRange (heapLo heapHi : Nat) (ranges : List Range) (lo size : Nat) :
    Option (Except Problem (List Range)) :=
  if size = 0 then none
  else
    let hi := u32 (lo + size - 1)
    if lo % alignment ≠ 0 then some (.error (.notAligned lo))
    else if lo < heapLo ∨ heapHi < lo ∨ hi < heapLo ∨ heapHi < hi then
      some (.error (.outside lo hi heapLo heapHi))
    else
      match ranges.find? (·.hits lo hi) with
      | some p => some (.error (.overlaps lo hi p.lo p.hi))
      | none => some (.ok (⟨lo, hi⟩ :: ranges))

/-- `remove_range`. -/
def removeRange (ranges : List Range) (lo : Nat) : List Range := ranges.eraseP (·.lo = lo)

/-! ## Traces -/

/-- The types of a request. -/
inductive OpType
  | alloc | free | realloc
deriving DecidableEq

/-- `traceop_t`. The size of a `free` is not read. -/
structure TraceOp where
  type : OpType
  index : Int
  size : Nat

/-- The functions of a malloc package and of `memlib.c` on the heap `H`. -/
structure Package (H : Type) where
  resetBrk : H → H
  init : H → Option (H × Int)
  malloc : H → Nat → Option (H × Nat)
  realloc : H → Nat → Nat → Option (H × Nat)
  free : H → Nat → Option H
  mem : H → Mem
  setMem : H → Mem → H
  heapLo : H → Nat
  heapHi : H → Nat

/-- `mm.c` and `memlib.c`. -/
def mmPackage : Package Heap where
  resetBrk h := { h with brk := h.startBrk }
  init := mmInit
  malloc := mmMalloc
  realloc := mmRealloc
  free := mmFree
  mem := Heap.mem
  setMem h m := { h with mem := m }
  heapLo h := h.startBrk
  heapHi h := h.brk - 1

/-- The driver between two requests. -/
structure St (H : Type) where
  heap : H
  ranges : List Range
  blocks : Int → Nat
  blockSizes : Int → Nat

/-- `memset`. -/
def memset (m : Mem) (p : Nat) (c : UInt8) (n : Nat) : Mem := fun a =>
  if p ≤ a ∧ a < p + n then c else m a

/-- `index & 0xFF`. -/
def fill (index : Int) : UInt8 := UInt8.ofNat index.toNat

section
variable {H : Type} (P : Package H)

/-- A block of `size` bytes at `p`, remembered for `index` and filled. -/
def St.remember (st : St H) (h : H) (ranges : List Range) (index : Int) (p size : Nat) : St H :=
  ⟨P.setMem h (memset (P.mem h) p (fill index) size), ranges,
    Function.update st.blocks index p, Function.update st.blockSizes index size⟩

/-- `case ALLOC` of `eval_mm_valid`. -/
def evalAlloc (st : St H) (index : Int) (size : Nat) : Option (Except Problem (St H)) :=
  match P.malloc st.heap size with
  | none => none
  | some (h, p) =>
    if p = 0 then some (.error .mallocFailed)
    else
      match addRange (P.heapLo h) (P.heapHi h) st.ranges p size with
      | none => none
      | some (.error e) => some (.error e)
      | some (.ok ranges) => some (.ok (st.remember P h ranges index p size))

/-- The bytes of the old block are in the new one. -/
def preserved (m : Mem) (newp : Nat) (index : Int) (oldsize : Nat) : Bool :=
  (List.range oldsize).all fun j => m (newp + j) = fill index

/-- `case REALLOC` of `eval_mm_valid`. -/
def evalRealloc (st : St H) (index : Int) (size : Nat) : Option (Except Problem (St H)) :=
  let oldp := st.blocks index
  match P.realloc st.heap oldp size with
  | none => none
  | some (h, newp) =>
    if newp = 0 ∧ size ≠ 0 then some (.error .reallocFailed)
    else
      let ranges := removeRange st.ranges oldp
      let added := if 0 < size then addRange (P.heapLo h) (P.heapHi h) ranges newp size
        else some (.ok ranges)
      match added with
      | none => none
      | some (.error e) => some (.error e)
      | some (.ok ranges) =>
        let oldsize := min (st.blockSizes index) size
        if preserved (P.mem h) newp index oldsize then
          some (.ok (st.remember P h ranges index newp size))
        else some (.error .notPreserved)

/-- `case FREE` of `eval_mm_valid`. -/
def evalFree (st : St H) (index : Int) : Option (Except Problem (St H)) :=
  let p := if index = -1 then 0 else st.blocks index
  let ranges := if index = -1 then st.ranges else removeRange st.ranges p
  match P.free st.heap p with
  | none => none
  | some h => some (.ok { st with heap := h, ranges := ranges })

/-- `trace->blocks` has an entry for the index. -/
def InBounds (numIds : Nat) (index : Int) : Prop := 0 ≤ index ∧ index < numIds

instance (numIds : Nat) (index : Int) : Decidable (InBounds numIds index) :=
  inferInstanceAs (Decidable (_ ∧ _))

/-- The body of the loop. -/
def evalOp (numIds : Nat) (st : St H) (op : TraceOp) : Option (Except Problem (St H)) :=
  if ¬InBounds numIds op.index ∧ ¬(op.type = .free ∧ op.index = -1) then none
  else
    match op.type with
    | .alloc => evalAlloc P st op.index op.size
    | .realloc => evalRealloc P st op.index op.size
    | .free => evalFree P st op.index

/-- The loop, from request `i` on. An error comes with its request. -/
def evalOps (numIds : Nat) : Nat → St H → List TraceOp → Option (Except (Nat × Problem) (St H))
  | _, st, [] => some (.ok st)
  | i, st, op :: ops =>
    match evalOp P numIds st op with
    | none => none
    | some (.error e) => some (.error (i, e))
    | some (.ok st) => evalOps numIds (i + 1) st ops

/-- `eval_mm_valid`: it returns 1 with the last state, or 0 with the error. -/
def evalMmValid (numIds : Nat) (h : H) (ops : List TraceOp) :
    Option (Except (Nat × Problem) (St H)) :=
  match P.init (P.resetBrk h) with
  | none => none
  | some (h, r) =>
    if r < 0 then some (.error (0, .initFailed))
    else evalOps P numIds 0 ⟨h, [], fun _ => 0, fun _ => 0⟩ ops

end

end Csapp.Malloc.Driver
