import Mathlib
import Csapp.Lib.CString

/-!
# Relaying a response

`forward_response` of `proxy.c`. Each chunk from the origin goes to the client, and
as much of it as there is room for goes into `data`. The counter `datasz` may
pass the limit once and then stands still, which is how the end of the loop
knows that the object is too large.

What `recv` and `send` return is given: the chunks, each with what `send` answers
for it, and how the last `recv` ends the loop.
-/

namespace Csapp.Proxy

/-- `MAX_OBJECT_SIZE` -/
def maxObjectSize : Nat := 102400

/-- What a `recv` of at most `buflen` bytes delivers, as many as it can say. -/
structure Chunk (buflen : Nat) where
  bytes : CStr
  pos : 0 < bytes.length
  fits : bytes.length ≤ buflen
  ssize : bytes.length < 9223372036854775808

/-- A `recv` of no bytes, or of -1. -/
inductive Last
  | eof
  | error
  deriving DecidableEq

/-- The variables of `forward_response`, and what it does. -/
structure Relay where
  data : Nat → UInt8
  datasz : Nat
  /-- what `send` has been called with -/
  sent : List CStr
  /-- offset and length of each copy into `data` -/
  copies : List (Nat × Nat)
  /-- the object in the call of `cache_put` -/
  put : Option CStr

/-- `memcpy(data + off, bytes, ..)` -/
def copyTo (data : Nat → UInt8) (off : Nat) (bytes : CStr) : Nat → UInt8 := fun i =>
  if off ≤ i ∧ i < off + bytes.length then bytes.getD (i - off) 0 else data i

/-- The bytes that `entry_create` copies. -/
def bytesOf (data : Nat → UInt8) (n : Nat) : CStr := (List.range n).map data

/-- The copy of a chunk. -/
def accumulate (bytes : CStr) (r : Relay) : Relay :=
  if r.datasz ≤ maxObjectSize then
    let n := min (maxObjectSize - r.datasz) bytes.length
    { r with
      data := copyTo r.data r.datasz (bytes.take n)
      datasz := (r.datasz + bytes.length) % 18446744073709551616
      copies := r.copies ++ [(r.datasz, n)] }
  else r

section

variable {buflen : Nat}

/-- The loop of `forward_response`, and what follows it. -/
def relayLoop : List (Chunk buflen × Int) → Last → Relay → Relay
  | [], .error, r => r
  | [], .eof, r =>
    if r.datasz ≤ maxObjectSize then { r with put := some (bytesOf r.data r.datasz) } else r
  | (c, ret) :: chunks, last, r =>
    let r := accumulate c.bytes r
    let r := { r with sent := r.sent ++ [c.bytes] }
    if ret ≠ c.bytes.length then r else relayLoop chunks last r

/-- `forward_response`; `junk` is what the memory from `malloc` holds. -/
def forwardResponse (junk : Nat → UInt8) (chunks : List (Chunk buflen × Int)) (last : Last) :
    Relay :=
  relayLoop chunks last ⟨junk, 0, [], [], none⟩

/-! ## What is relayed -/

/-- `send` has taken all of it. -/
def Sent (c : Chunk buflen × Int) : Prop := c.2 = c.1.bytes.length

instance (c : Chunk buflen × Int) : Decidable (Sent c) := inferInstanceAs (Decidable (_ = _))

/-- What the server has sent. -/
def received (chunks : List (Chunk buflen × Int)) : CStr := (chunks.map fun c => c.1.bytes).flatten

/-- The chunks up to the first that `send` fails on. -/
def upToFailure (chunks : List (Chunk buflen × Int)) : List CStr :=
  (chunks.take ((chunks.takeWhile fun c => Sent c).length + 1)).map fun c => c.1.bytes

/-- No call fails and the object is not too large. -/
def Complete (chunks : List (Chunk buflen × Int)) (last : Last) : Prop :=
  last = .eof ∧ (∀ c ∈ chunks, Sent c) ∧ (received chunks).length ≤ maxObjectSize

instance (chunks : List (Chunk buflen × Int)) (last : Last) : Decidable (Complete chunks last) :=
  inferInstanceAs (Decidable (_ ∧ _ ∧ _))

end

/-! ## The copies -/

/-- `data` holds the `l` received so far, or the counter says that it is too long. -/
structure Holding (r : Relay) (l : CStr) : Prop where
  fits : l.length ≤ maxObjectSize → r.datasz = l.length ∧ bytesOf r.data r.datasz = l
  passed : maxObjectSize < l.length → maxObjectSize < r.datasz
  copies : ∀ c ∈ r.copies, c.1 + c.2 ≤ maxObjectSize

theorem bytesOf_copyTo (data : Nat → UInt8) (n : Nat) (bytes : CStr) :
    bytesOf (copyTo data n bytes) (n + bytes.length) = bytesOf data n ++ bytes := by
  unfold bytesOf copyTo
  rw [List.range_add, List.map_append, List.map_map]
  congr 1
  · refine List.map_congr_left fun i hi => ?_
    have hi := List.mem_range.mp hi
    rw [if_neg (by omega)]
  · refine List.ext_getElem (by simp) fun i h1 h2 => ?_
    rw [List.getElem_map, List.getElem_range]
    change (if n ≤ n + i ∧ n + i < n + bytes.length then bytes.getD (n + i - n) 0
      else data (n + i)) = _
    rw [if_pos (by omega), Nat.add_sub_cancel_left, List.getD_eq_getElem _ _ h2]

theorem Holding.accumulate {r : Relay} {l bytes : CStr} (h : Holding r l)
    (hb : bytes.length < 9223372036854775808) : Holding (accumulate bytes r) (l ++ bytes) := by
  unfold Csapp.Proxy.accumulate
  by_cases hl : l.length ≤ maxObjectSize
  · obtain ⟨hsz, hdata⟩ := h.fits hl
    have hmod : (r.datasz + bytes.length) % 18446744073709551616 = r.datasz + bytes.length := by
      unfold maxObjectSize at hl
      omega
    rw [if_pos (hsz ▸ hl)]
    dsimp only
    rw [hmod]
    refine ⟨fun hfit => ?_, fun hover => ?_, fun c hc => ?_⟩
    · rw [List.length_append] at hfit ⊢
      have hmin : min (maxObjectSize - r.datasz) bytes.length = bytes.length := by omega
      rw [hmin, List.take_length, bytesOf_copyTo, hdata, hsz]
      exact ⟨rfl, rfl⟩
    · rw [List.length_append] at hover
      dsimp only
      omega
    · rcases List.mem_append.mp hc with hc | hc
      · exact h.copies c hc
      · rw [List.mem_singleton.mp hc]
        dsimp only
        omega
  · have hover := h.passed (Nat.not_le.mp hl)
    rw [if_neg (Nat.not_le.mpr hover)]
    refine ⟨fun hfit => ?_, fun _ => hover, h.copies⟩
    rw [List.length_append] at hfit
    omega

/-! ## The loop -/

section

variable {buflen : Nat}

theorem upToFailure_sent {c : Chunk buflen × Int} {chunks : List (Chunk buflen × Int)}
    (h : Sent c) : upToFailure (c :: chunks) = c.1.bytes :: upToFailure chunks := by
  unfold upToFailure
  rw [List.takeWhile_cons_of_pos (by simpa using h), List.length_cons, List.take_succ_cons,
    List.map_cons]

theorem upToFailure_failed {c : Chunk buflen × Int} {chunks : List (Chunk buflen × Int)}
    (h : ¬Sent c) : upToFailure (c :: chunks) = [c.1.bytes] := by
  unfold upToFailure
  rw [List.takeWhile_cons_of_neg (by simpa using h)]
  rfl

theorem relayLoop_relays {chunks : List (Chunk buflen × Int)} {last : Last} {r : Relay} {l : CStr}
    (h : Holding r l) (hp : r.put = none) :
    (relayLoop chunks last r).sent = r.sent ++ upToFailure chunks ∧
    (∀ c ∈ (relayLoop chunks last r).copies, c.1 + c.2 ≤ maxObjectSize) ∧
    (relayLoop chunks last r).put =
      if last = .eof ∧ (∀ c ∈ chunks, Sent c) ∧ (l ++ received chunks).length ≤ maxObjectSize then
        some (l ++ received chunks)
      else none := by
  induction chunks generalizing r l with
  | nil =>
    have hnil : l ++ received ([] : List (Chunk buflen × Int)) = l := List.append_nil l
    rw [hnil]
    cases last with
    | error => exact ⟨(List.append_nil _).symm, h.copies, by rw [if_neg (by simp)]; exact hp⟩
    | eof =>
      rw [relayLoop]
      by_cases hl : l.length ≤ maxObjectSize
      · obtain ⟨hsz, hdata⟩ := h.fits hl
        rw [if_pos (hsz ▸ hl), if_pos ⟨rfl, by simp, hl⟩]
        exact ⟨(List.append_nil _).symm, h.copies, congrArg some hdata⟩
      · rw [if_neg (Nat.not_le.mpr (h.passed (Nat.not_le.mp hl))), if_neg (by simp [hl])]
        exact ⟨(List.append_nil _).symm, h.copies, hp⟩
  | cons c chunks ih =>
    have hacc := h.accumulate c.1.ssize
    have hput : (accumulate c.1.bytes r).put = none := by
      unfold accumulate
      split <;> exact hp
    have hsent : (accumulate c.1.bytes r).sent = r.sent := by
      unfold accumulate
      split <;> rfl
    rw [relayLoop]
    by_cases hc : Sent c
    · have hnext : Holding { accumulate c.1.bytes r with sent := r.sent ++ [c.1.bytes] }
          (l ++ c.1.bytes) := ⟨hacc.fits, hacc.passed, hacc.copies⟩
      obtain ⟨h1, h2, h3⟩ := ih hnext hput
      have hrec : l ++ received (c :: chunks) = l ++ c.1.bytes ++ received chunks := by
        unfold received
        rw [List.map_cons, List.flatten_cons, List.append_assoc]
      have hret : ¬c.2 ≠ (c.1.bytes.length : Int) := not_not.mpr hc
      rw [if_neg hret, hsent, upToFailure_sent hc, hrec]
      refine ⟨?_, h2, ?_⟩
      · rw [h1, List.append_assoc]
        rfl
      · rw [h3]
        simp only [List.forall_mem_cons, hc, true_and]
    · have hret : c.2 ≠ (c.1.bytes.length : Int) := hc
      rw [if_pos hret, hsent, upToFailure_failed hc]
      refine ⟨rfl, hacc.copies, ?_⟩
      rw [if_neg fun hx => hc (hx.2.1 c List.mem_cons_self)]
      exact hput

theorem holding_start (junk : Nat → UInt8) : Holding ⟨junk, 0, [], [], none⟩ [] :=
  ⟨fun _ => ⟨rfl, rfl⟩, fun h => absurd h (Nat.not_lt_zero _), fun _ hc => absurd hc List.not_mem_nil⟩

theorem forwardResponse_put (junk : Nat → UInt8) (chunks : List (Chunk buflen × Int))
    (last : Last) : (forwardResponse junk chunks last).put =
      if Complete chunks last then some (received chunks) else none :=
  (relayLoop_relays (holding_start junk) rfl).2.2

/-- The client gets the chunks in order up to the first failure, no copy leaves
`data`, and what is put into the cache is all of what came, if nothing failed and
it is not too large. -/
theorem forwardResponse_relays (junk : Nat → UInt8) (chunks : List (Chunk buflen × Int))
    (last : Last) :
    (forwardResponse junk chunks last).sent = upToFailure chunks ∧
    (∀ c ∈ (forwardResponse junk chunks last).copies, c.1 + c.2 ≤ maxObjectSize) ∧
    (forwardResponse junk chunks last).put =
      if Complete chunks last then some (received chunks) else none :=
  relayLoop_relays (holding_start junk) rfl

end

end Csapp.Proxy
