import Mathlib
import Csapp.Lib.ForLoop

/-!
# The submitted transpose

`trans.c`. `A` is an `N` by `M` matrix of ints in row order and `B` an `M` by
`N` one, each known by its base address; the set index that the code compares
is computed from addresses, so memory is flat and a matrix access is an access
to the cell its subscripts name, inside the matrix or not. The state keeps the
addresses that were stored to.

A run is undefined, `none`, when an `int` expression overflows or a temporary
is read before it is written. The subscript of `get_set_idx` is such an
expression; the address arithmetic of `A[i][j]` is done in 64 bits and is not.
-/

namespace Csapp.Cachelab

/-- Memory, by the address of the int, and where it was stored to. -/
structure St where
  mem : Nat → Int
  stores : List Nat

/-- A store of `v` to `p`. -/
def St.store (s : St) (p : Nat) (v : Int) : St where
  mem := fun q => if q = p then v else s.mem q
  stores := p :: s.stores

/-- The address of `arr[i][j]`, for rows of `m` ints. -/
def cell (arr m i j : Nat) : Nat := arr + 4 * (i * m + j)

/-- `get_set_idx`. -/
def getSetIdx (i j m arr : Nat) : Option Nat := do
  let k ← int (i * m)
  let addr := arr + 4 * k + 4 * j
  return (addr - (addr >>> 10) <<< 10) >>> 5

section
variable (M N A B : Nat)

/-- `B[j][i] = A[i][j]`. -/
def copyCell (i j : Nat) (s : St) : St :=
  s.store (cell B N j i) (s.mem (cell A M i j))

/-- `B[j][i] = A[i][j]` where the two cells fall into the same cache set, or
where they do not. -/
def copyWhen (same : Bool) (i j : Nat) (s : St) : Option St := do
  let setA ← getSetIdx i j M A
  let setB ← getSetIdx j i N B
  return if decide (setA = setB) = same then copyCell M N A B i j s else s

/-- A turn of the loop over `i` in `trans_32`. -/
def row32 (bsize jj i : Nat) (s : St) : Option St := do
  let jend ← int (jj + bsize)
  let s ← forLoop jj jend 1 (copyWhen M N A B false i) s
  forLoop jj jend 1 (copyWhen M N A B true i) s

/-- A turn of the loop over `ii` in `trans_32`. -/
def block32 (bsize jj ii : Nat) (s : St) : Option St := do
  let iend ← int (ii + bsize)
  forLoop ii iend 1 (row32 M N A B bsize jj) s

/-- `trans_32`. -/
def trans32 (bsize : Nat) (s : St) : Option St :=
  forLoop 0 M bsize (fun jj => forLoop 0 N bsize (block32 M N A B bsize jj)) s

/-- The locals of `trans_64` that outlive a loop body. -/
structure Locals where
  st : St
  tmp1 : Option Int
  tmp2 : Option Int
  tmp1Set : Bool

/-- The first inner loop body of `trans_64`: a cell that conflicts is set
aside. -/
def setAside (i j : Nat) (l : Locals) : Option Locals := do
  let setA ← getSetIdx i j M A
  let setB ← getSetIdx j i N B
  if setA ≠ setB then
    return { l with st := copyCell M N A B i j l.st }
  else if l.tmp1Set then
    return { l with tmp2 := some (l.st.mem (cell A M i j)) }
  else
    return { l with tmp1 := some (l.st.mem (cell A M i j)), tmp1Set := true }

/-- The second one: a cell that conflicts is stored. -/
def putBack (i j : Nat) (l : Locals) : Option Locals := do
  let setA ← getSetIdx i j M A
  let setB ← getSetIdx j i N B
  if setA = setB then
    if l.tmp1Set then
      let v ← l.tmp1
      return { l with st := l.st.store (cell B N j i) v, tmp1Set := false }
    else
      let v ← l.tmp2
      return { l with st := l.st.store (cell B N j i) v }
  else
    return l

/-- Each of the two passes of `trans_64` has this form: rows `ii + k` and
`ii + k + 4`. -/
def group (jj ii k : Nat) (body : Nat → Nat → Locals → Option Locals) (l : Locals) :
    Option Locals := do
  let i ← int (ii + k)
  let iend ← int (ii + 8)
  forLoop i iend 4 (fun i l => do
    let jend ← int (jj + 4)
    forLoop jj jend 1 (body i) l) l

/-- A turn of the loop over `k` in `trans_64`. -/
def passes (jj ii k : Nat) (l : Locals) : Option Locals := do
  let l ← group jj ii k (setAside M N A B) { l with tmp1Set := false }
  group jj ii k (putBack M N A B) l

/-- A turn of the loop over `ii` in `trans_64`. -/
def block64 (jj ii : Nat) (l : Locals) : Option Locals :=
  forLoop 0 4 1 (passes M N A B jj ii) l

/-- `trans_64`. -/
def trans64 (s : St) : Option St := do
  let l ← forLoop 0 M 4 (fun jj => forLoop 0 N 8 (block64 M N A B jj)) ⟨s, none, none, false⟩
  return l.st

/-- A turn of the loop over `i` in `trans_odds`. -/
def rowOdds (bsize jj i : Nat) (s : St) : Option St := do
  let jend ← int (jj + bsize)
  forLoop jj (min jend M) 1 (fun j s => some (copyCell M N A B i j s)) s

/-- A turn of the loop over `ii` in `trans_odds`. -/
def blockOdds (bsize jj ii : Nat) (s : St) : Option St := do
  let iend ← int (ii + bsize)
  forLoop ii (min iend N) 1 (rowOdds M N A B bsize jj) s

/-- `trans_odds`. -/
def transOdds (bsize : Nat) (s : St) : Option St := do
  let en ← int (bsize * (N / bsize + 1))
  let em ← int (bsize * (M / bsize + 1))
  forLoop 0 em bsize (fun jj => forLoop 0 en bsize (blockOdds M N A B bsize jj)) s

/-- `trans_opt`. -/
def transOpt (s : St) : Option St :=
  if N % 8 ≠ 0 then transOdds M N A B 8 s
  else if N = 32 then trans32 M N A B 8 s
  else trans64 M N A B s

/-- `transpose_submit`. -/
def transposeSubmit (s : St) : Option St := transOpt M N A B s

/-- `get_set_idx` puts `A[i][j]` and `B[j][i]` into the same set. -/
def Conflict (i j : Nat) : Prop := getSetIdx i j M A = getSetIdx j i N B

instance (i j : Nat) : Decidable (Conflict M N A B i j) := inferInstanceAs (Decidable (_ = _))

/-- A call of the submitted function: `int` dimensions, aligned bases, and two
matrices that are in the address space and do not overlap. -/
structure Call : Prop where
  rows : 0 < N ∧ N < 2147483648
  cols : 0 < M ∧ M < 2147483648
  alignedA : 4 ∣ A
  alignedB : 4 ∣ B
  fitsA : A + 4 * (N * M) ≤ 2 ^ 64
  fitsB : B + 4 * (M * N) ≤ 2 ^ 64
  apart : A + 4 * (N * M) ≤ B ∨ B + 4 * (M * N) ≤ A

/-- The int at `p` is a cell of `B`. -/
def InB (p : Nat) : Prop := B ≤ p ∧ p + 4 ≤ B + 4 * (M * N)

/-- The call comes out with the transpose in `B`, and with no store outside
it. -/
def Transposes (mem : Nat → Int) : Prop :=
  ∃ s, transposeSubmit M N A B ⟨mem, []⟩ = some s ∧
    (∀ i < N, ∀ j < M, s.mem (cell B N j i) = mem (cell A M i j)) ∧
    ∀ p ∈ s.stores, InB M N B p

end

end Csapp.Cachelab
