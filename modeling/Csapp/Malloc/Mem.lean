import Mathlib

/-!
# Words in a byte-addressed memory

`mm.c` is compiled for a 32-bit machine: `size_t` and pointers are 32 bits
wide, and every header, footer and list link is one little-endian word. The
memory is a function from addresses to bytes, so that payloads, which the user
writes byte by byte, live in the same store as the words around them.

Everything the allocator proofs need about bytes is here: a word reads back
what was put there, a put leaves disjoint words and bytes alone, and a word
depends only on its own four bytes.
-/

namespace Csapp.Malloc

/-- The bytes of the address space. -/
abbrev Mem := Nat → UInt8

/-- Arithmetic on `size_t` and pointers wraps at 32 bits. -/
def u32 (n : Nat) : Nat := n % 4294967296

/-- Subtraction of 32-bit quantities. -/
def sub32 (a b : Nat) : Nat := u32 (a + 4294967296 - b)

theorem u32_of_lt {n : Nat} (h : n < 4294967296) : u32 n = n :=
  Nat.mod_eq_of_lt h

theorem u32_lt (n : Nat) : u32 n < 4294967296 := Nat.mod_lt _ (by omega)

theorem sub32_of_le {a b : Nat} (h : b ≤ a) (ha : a < 4294967296) :
    sub32 a b = a - b := by
  unfold sub32 u32
  omega

/-- `GET`: the word at `p`. -/
def get (m : Mem) (p : Nat) : Nat :=
  (m p).toNat + 256 * (m (p + 1)).toNat + 65536 * (m (p + 2)).toNat +
    16777216 * (m (p + 3)).toNat

/-- `PUT`: store the word `v` at `p`. -/
def put (m : Mem) (p v : Nat) : Mem := fun a =>
  if a = p then UInt8.ofNat v
  else if a = p + 1 then UInt8.ofNat (v / 256)
  else if a = p + 2 then UInt8.ofNat (v / 65536)
  else if a = p + 3 then UInt8.ofNat (v / 16777216)
  else m a

theorem get_lt (m : Mem) (p : Nat) : get m p < 4294967296 := by
  have h0 := (m p).toNat_lt
  have h1 := (m (p + 1)).toNat_lt
  have h2 := (m (p + 2)).toNat_lt
  have h3 := (m (p + 3)).toNat_lt
  unfold get
  omega

/-- A word depends on its four bytes only. -/
theorem get_congr {m m' : Mem} {p : Nat} (h : ∀ a, p ≤ a → a < p + 4 → m' a = m a) :
    get m' p = get m p := by
  unfold get
  rw [h p (by omega) (by omega), h (p + 1) (by omega) (by omega),
    h (p + 2) (by omega) (by omega), h (p + 3) (by omega) (by omega)]

theorem put_of_ne {m : Mem} {p v a : Nat} (h : a < p ∨ p + 4 ≤ a) :
    put m p v a = m a := by
  unfold put
  rw [if_neg (by omega), if_neg (by omega), if_neg (by omega), if_neg (by omega)]

theorem get_put {m : Mem} {p v : Nat} : get (put m p v) p = u32 v := by
  unfold get put u32
  simp
  omega

theorem get_put_of_lt {m : Mem} {p v : Nat} (hv : v < 4294967296) :
    get (put m p v) p = v := by
  rw [get_put, u32_of_lt hv]

theorem get_put_ne {m : Mem} {p q v : Nat} (h : q + 4 ≤ p ∨ p + 4 ≤ q) :
    get (put m p v) q = get m q :=
  get_congr fun _ _ _ => put_of_ne (by omega)

/-- Two memories that agree outside the addresses `lo ≤ a < hi`. -/
def AgreeOff (lo hi : Nat) (m m' : Mem) : Prop :=
  ∀ a, a < lo ∨ hi ≤ a → m' a = m a

theorem AgreeOff.refl (lo hi : Nat) (m : Mem) : AgreeOff lo hi m m :=
  fun _ _ => rfl

theorem AgreeOff.get {lo hi p : Nat} {m m' : Mem} (h : AgreeOff lo hi m m')
    (hp : p + 4 ≤ lo ∨ hi ≤ p) : get m' p = get m p :=
  get_congr fun a _ _ => h a (by omega)

end Csapp.Malloc
