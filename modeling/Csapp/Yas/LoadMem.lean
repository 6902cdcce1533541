import Mathlib
import Csapp.Yas.Model

/-!
# Object files in memory

`load_mem` of `isa.c`, without the lines that only the display has: the lines
`fgets` cuts the file into, an address, and pairs of digits from there on. A
line in the buffer ends at its last byte, and what is read behind it is no
blank, no digit and no colon, like the zero that ends a string.

Writing one chunk of bytes at its address is `storeBytes`, and a file of chunks
is `storeChunks`. Where a byte has no room the load stops with the memory
written so far, and what it returns is zero.
-/

namespace Csapp.Yas

open Y86

/-- `LINELEN` -/
def lineLen : Nat := 4096

/-- The results of `fgets` with room for `n` bytes. `room` is what is left of
the current line, and `cur` what it has so far. -/
def fgets (n : Nat) : Nat → CStr → CStr → List CStr
  | _, cur, [] => if cur = [] then [] else [cur]
  | room, cur, c :: cs =>
    if c = 10 ∨ room ≤ 1 then (cur ++ [c]) :: fgets n n [] cs
    else fgets n (room - 1) (cur ++ [c]) cs

/-- `isxdigit` -/
def isXDigit (c : UInt8) : Bool := isDigit c || (65 ≤ c && c ≤ 70) || (97 ≤ c && c ≤ 102)

/-- `hex2dig` -/
def hex2dig (c : UInt8) : Nat :=
  if isDigit c then c.toNat - 48 else if 65 ≤ c ∧ c ≤ 90 then c.toNat - 65 + 10
  else c.toNat - 97 + 10

/-- The address, `bytepos`. -/
def hexVal (ds : CStr) : Nat := ds.foldl (fun v c => v * 16 + hex2dig c) 0

/-- The memory with `b` at `pos`. -/
def setByte (m : Mem) (pos : Nat) (b : Byte) : Mem :=
  { m with contents := Function.update m.contents pos b }

/-- The code of a line: the bytes written, or `none` at an invalid address. -/
def loadCode : Mem → Nat → CStr → Mem × Option Nat
  | m, bytepos, ch :: cl :: buf =>
    if isXDigit ch && isXDigit cl then
      if m.len ≤ bytepos then (m, none)
      else
        match loadCode
            (setByte m bytepos (BitVec.ofNat 8 (hex2dig ch * 16 + hex2dig cl)))
            (bytepos + 1) buf with
        | (m, n) => (m, n.map (· + 1))
    else (m, some 0)
  | m, _, _ => (m, some 0)

/-- A line of the file. An address that a `word_t` does not hold is undefined,
which is `none`. -/
def loadLine (m : Mem) (buf : CStr) : Option (Mem × Option Nat) :=
  match buf.dropWhile isSpace with
  | c :: x :: buf =>
    if c = 48 ∧ (x = 120 ∨ x = 88) then
      let bytepos := hexVal (buf.takeWhile isXDigit)
      if 2 ^ 63 ≤ bytepos then none
      else
        match (buf.dropWhile isXDigit).dropWhile isSpace with
        | colon :: buf =>
          if colon = 58 then some (loadCode m bytepos (buf.dropWhile isSpace)) else some (m, none)
        | [] => some (m, none)
    else some (m, some 0)
  | _ => some (m, some 0)

/-- The lines, with `byte_cnt`. -/
def loadLines : Mem → Nat → List CStr → Option (Mem × Nat)
  | m, byteCnt, [] => some (m, byteCnt)
  | m, byteCnt, buf :: bufs =>
    match loadLine m buf with
    | none => none
    | some (m, none) => some (m, 0)
    | some (m, some n) => loadLines m (byteCnt + n) bufs

/-- `load_mem`: the memory, and the value returned. -/
def loadMem (m : Mem) (infile : CStr) : Option (Mem × Nat) :=
  loadLines m 0 (fgets (lineLen - 1) (lineLen - 1) [] infile)

/-! ## Chunks of bytes -/

/-- The bytes, one after the other, up to the first that has no room. -/
def storeBytes : Mem → Nat → List Byte → Mem × Option Nat
  | m, _, [] => (m, some 0)
  | m, pos, b :: bs =>
    if m.len ≤ pos then (m, none)
    else
      match storeBytes (setByte m pos b) (pos + 1) bs with
      | (m, n) => (m, n.map (· + 1))

/-- Chunks in their order, and the number of bytes, which is zero if some byte
had no room. -/
def storeChunks : Mem → Nat → List (Nat × List Byte) → Mem × Nat
  | m, n, [] => (m, n)
  | m, n, (pos, bs) :: cs =>
    match storeBytes m pos bs with
    | (m, none) => (m, 0)
    | (m, some k) => storeChunks m (n + k) cs

/-- The byte that the last chunk with one for `a` has there. -/
def image : List (Nat × List Byte) → Nat → Option Byte
  | [], _ => none
  | (pos, bs) :: cs, a => (image cs a).or (if pos ≤ a then bs[a - pos]? else none)

/-- Every byte of the chunks is inside the memory. -/
def Room (m : Mem) (cs : List (Nat × List Byte)) : Prop :=
  ∀ c ∈ cs, c.2 ≠ [] → c.1 + c.2.length ≤ m.len

/-- The bytes of the chunks. -/
def size (cs : List (Nat × List Byte)) : Nat := (cs.map fun c => c.2.length).sum

/-- The memory with the image of the chunks over its contents. -/
def written (m : Mem) (cs : List (Nat × List Byte)) : Mem :=
  { m with contents := fun a => (image cs a).getD (m.contents a) }

theorem mem_ext : ∀ {m m' : Mem}, (∀ a, m.contents a = m'.contents a) → m.len = m'.len → m = m'
  | ⟨_, _, _⟩, ⟨_, _, _⟩, hc, hl => by
      cases show _ = _ from hl
      cases funext hc
      rfl

theorem storeBytes_room : ∀ {m : Mem} {pos : Nat} {bs : List Byte},
    (bs ≠ [] → pos + bs.length ≤ m.len) →
      storeBytes m pos bs = (written m [(pos, bs)], some bs.length)
  | m, pos, [], _ => by simp [storeBytes, written, image]
  | m, pos, b :: bs, h => by
      have hlen : pos + (bs.length + 1) ≤ m.len := h (List.cons_ne_nil b bs)
      have ih := @storeBytes_room (setByte m pos b) (pos + 1) bs
        fun _ => show pos + 1 + bs.length ≤ m.len by omega
      rw [storeBytes, if_neg (by omega), ih]
      refine Prod.ext (mem_ext (fun a => ?_) rfl) rfl
      change (image [(pos + 1, bs)] a).getD ((setByte m pos b).contents a) =
        (image [(pos, b :: bs)] a).getD (m.contents a)
      simp only [image, Option.none_or]
      rcases Nat.lt_trichotomy a pos with ha | ha | ha
      · rw [if_neg (by omega), if_neg (by omega)]
        exact Function.update_of_ne (by omega) _ _
      · rw [ha, if_neg (by omega), if_pos (le_refl pos), Nat.sub_self]
        exact Function.update_self _ _ _
      · rw [if_pos (show pos + 1 ≤ a from ha), if_pos ha.le,
          show a - pos = a - (pos + 1) + 1 by omega, List.getElem?_cons_succ]
        exact congrArg _ (Function.update_of_ne (by omega) _ _)

theorem storeBytes_full : ∀ {m : Mem} {pos : Nat} {bs : List Byte}, bs ≠ [] →
    m.len < pos + bs.length → (storeBytes m pos bs).2 = none
  | m, pos, b :: bs, _, h => by
      rw [List.length_cons] at h
      rw [storeBytes]
      split_ifs with hp
      · rfl
      · have ih := @storeBytes_full (setByte m pos b) (pos + 1) bs
          (fun he => by rw [he, List.length_nil] at h; omega)
          (show m.len < pos + 1 + bs.length by omega)
        exact congrArg (Option.map (· + 1)) ih

/-- With room for every byte, the last chunk written counts. -/
theorem storeChunks_room : ∀ {cs : List (Nat × List Byte)} {m : Mem} {n : Nat}, Room m cs →
    storeChunks m n cs = (written m cs, n + size cs)
  | [], m, n, _ => rfl
  | (pos, bs) :: cs, m, n, h => by
      obtain ⟨hb, hcs⟩ := List.forall_mem_cons.mp h
      have ih := @storeChunks_room cs (written m [(pos, bs)]) (n + bs.length) hcs
      rw [storeChunks, storeBytes_room hb]
      dsimp only
      rw [ih, size, size, List.map_cons, List.sum_cons, Nat.add_assoc]
      refine Prod.ext (mem_ext (fun a => ?_) rfl) rfl
      change (image cs a).getD ((written m [(pos, bs)]).contents a) =
        ((image cs a).or _).getD (m.contents a)
      cases image cs a with
      | none => rfl
      | some b => rfl

theorem storeChunks_full : ∀ {cs : List (Nat × List Byte)} {m : Mem} {n : Nat}, ¬Room m cs →
    (storeChunks m n cs).2 = 0
  | [], m, n, h => absurd (fun _ hc => absurd hc List.not_mem_nil) h
  | (pos, bs) :: cs, m, n, h => by
      rw [storeChunks]
      by_cases hb : bs ≠ [] → pos + bs.length ≤ m.len
      · rw [storeBytes_room hb]
        exact storeChunks_full fun hcs => h (List.forall_mem_cons.mpr ⟨hb, hcs⟩)
      · obtain ⟨hne, hlen⟩ := Classical.not_imp.mp hb
        have hn := storeBytes_full hne (Nat.lt_of_not_le hlen)
        cases hs : storeBytes m pos bs with
        | mk m' r =>
            rw [hs] at hn
            rw [show r = none from hn]

end Csapp.Yas
