import Mathlib
import Csapp.Sbuf.Fifo

/-!
# The accounting of the semaphores

Between its wait and its post a call holds one unit of `len`: the units are in
`slots`, in `items` and with those calls. The counters differ by what is queued,
which is what is not in `slots` and not held by a call that has a slot. So the
sections are entered with room, or with something queued, and the copies stay
inside the array.

It all rests on `slots` starting at `len`. `sem_init` takes an `unsigned int` of
at most `SEM_VALUE_MAX`, and nobody looks at its result.
-/

namespace Csapp.Sbuf

/-- What `sbuf_create` may leave. Where `sem_init` refuses, `slots` is what the
memory from `malloc` holds. -/
inductive Created (len : Nat) : Buf → Prop
  | set : len % 4294967296 ≤ semValueMax → Created len (create len)
  | refused (slots : Nat) : semValueMax < len % 4294967296 →
      Created len { create len with slots := slots }

/-- All interleavings of the calls of the threads. -/
inductive Run (len sz : Nat) : Buf → List Pc → Prop
  | init {b ps} : Created len b → (∀ p ∈ ps, p = Pc.idle) → Run len sz b ps
  | step {b b' l p p' r} : Run len sz b (l ++ p :: r) → Move len sz b p b' p' →
      Run len sz b' (l ++ p' :: r)

/-- Past the wait and not yet past the post. -/
def Pc.between : Pc → Nat
  | .idle | .enqWait _ | .deqWait => 0
  | _ => 1

/-- In a call that has not come to its copy. -/
def Pc.entering : Pc → Nat
  | .enqWait _ | .enqLock _ | .enqIn _ | .deqWait | .deqLock | .deqIn => 1
  | _ => 0

/-- The calls that have begun: the copies made, and the calls still before theirs. -/
def calls (b : Buf) (ps : List Pc) : Nat :=
  b.stored.length + b.taken.length + total Pc.entering ps

/-- Slots and items add up to `len`, and a store is behind all that is queued. -/
structure Accounted (len sz : Nat) (b : Buf) (ps : List Pc) : Prop where
  units : b.slots + b.items + total Pc.between ps = len
  order : b.front ≤ b.rear
  room : b.rear ≤ b.front + len
  enq : ∀ item, Pc.enqIn item ∈ ps → b.rear < b.front + len ∧
    (∀ i, b.front ≤ i → i < b.rear → i % len ≠ b.rear % len) ∧
    b.rear % len + item.length ≤ len * sz
  deq : Pc.deqIn ∈ ps → b.front < b.rear ∧ b.front % len + sz ≤ len * sz

/-! ## The counters -/

/-- The counters are the lengths of the logs. -/
structure Numbered (b : Buf) : Prop where
  rear : b.rear = b.stored.length % 18446744073709551616
  front : b.front = b.taken.length % 18446744073709551616

theorem Numbered.step {len sz : Nat} {b b' : Buf} {p p' : Pc} (h : Numbered b)
    (hm : Move len sz b p b' p') : Numbered b' := by
  cases hm with
  | enqIn =>
    refine ⟨?_, h.front⟩
    change incr b.rear = (b.stored ++ [_]).length % _
    rw [h.rear, incr_mod, List.length_append]
    rfl
  | deqIn =>
    refine ⟨h.rear, ?_⟩
    change incr b.front = (b.taken ++ [copyOut b.data (b.front % len) sz]).length % _
    rw [h.front, incr_mod, List.length_append]
    rfl
  | _ => exact ⟨h.rear, h.front⟩

theorem Run.counts {len sz : Nat} {b : Buf} {ps : List Pc} (h : Run len sz b ps)
    (hlen : len ≤ semValueMax) : Counts len sz b ps ∧ Numbered b := by
  induction h with
  | init hc hp =>
    cases hc with
    | set => exact ⟨Counts.create hp, rfl, rfl⟩
    | refused slots hr =>
      unfold semValueMax at hlen hr
      omega
  | step _ hm ih => exact ⟨ih.1.step hm, ih.2.step hm⟩

/-! ## The units -/

theorem between_eq (p : Pc) : p.between = p.holdsSlot + p.holdsItem := by
  cases p <;> rfl

theorem total_between (ps : List Pc) :
    total Pc.between ps = total Pc.holdsSlot ps + total Pc.holdsItem ps := by
  induction ps with
  | nil => rfl
  | cons p ps ih =>
    unfold total at ih ⊢
    simp only [List.map_cons, List.sum_cons, between_eq] at ih ⊢
    omega

/-- A thread counts in the total. -/
theorem le_total {f : Pc → Nat} {ps : List Pc} {p : Pc} (h : p ∈ ps) : f p ≤ total f ps := by
  obtain ⟨l, r, rfl⟩ := List.append_of_mem h
  rw [total_middle]
  omega

/-- Indices less than `len` apart fall on different slots. -/
theorem mod_ne {len i j : Nat} (h : i < j) (hj : j < i + len) : i % len ≠ j % len := by
  intro he
  obtain ⟨k, hk⟩ : len ∣ j - i := (Nat.modEq_iff_dvd' (Nat.le_of_lt h)).mp he
  cases k with
  | zero => omega
  | succ k =>
    rw [Nat.mul_succ] at hk
    omega

/-- An item put at a slot number, not at a slot, still ends inside the array. -/
theorem slot_inside {len sz i : Nat} (hl : 1 ≤ len) (hs : 1 ≤ sz) : i % len + sz ≤ len * sz := by
  have hi : i % len < len := Nat.mod_lt _ hl
  obtain ⟨n, rfl⟩ : ∃ n, len = n + 1 := ⟨len - 1, by omega⟩
  have hn : n ≤ n * sz := Nat.le_mul_of_pos_right n hs
  rw [Nat.succ_mul]
  omega

theorem Counts.accounted {len sz : Nat} {b : Buf} {ps : List Pc} (hc : Counts len sz b ps)
    (hn : Numbered b) (hl : 1 ≤ len) (hs : 1 ≤ sz) (hlen : len ≤ semValueMax)
    (hcalls : calls b ps < 18446744073709551616) : Accounted len sz b ps := by
  have hmod : len % 4294967296 = len := by
    unfold semValueMax at hlen
    omega
  have hslots := hc.slots
  have hitems := hc.items
  rw [hmod] at hslots
  unfold calls at hcalls
  have hrear : b.rear = b.stored.length := by
    rw [hn.rear]
    omega
  have hfront : b.front = b.taken.length := by
    rw [hn.front]
    omega
  refine ⟨?_, by omega, by omega, ?_, ?_⟩
  · rw [total_between]
    omega
  · intro item hp
    have h1 : 1 ≤ total Pc.holdsSlot ps := le_total (f := Pc.holdsSlot) hp
    have hroom : b.rear < b.front + len := by omega
    refine ⟨hroom, fun i hi hlt => mod_ne hlt (by omega), ?_⟩
    rw [hc.sized _ hp item rfl]
    exact slot_inside hl hs
  · intro hp
    have h1 : 1 ≤ total Pc.holdsItem ps := le_total (f := Pc.holdsItem) hp
    exact ⟨by omega, slot_inside hl hs⟩

/-- A buffer whose `slots` does not start at `len`. -/
theorem created_off {len : Nat} (h : semValueMax < len) :
    ∃ b, Created len b ∧ b.slots + b.items ≠ len := by
  by_cases hr : len % 4294967296 ≤ semValueMax
  · refine ⟨create len, .set hr, ?_⟩
    change len % 4294967296 + 0 ≠ len
    omega
  · refine ⟨{ create len with slots := len + 1 }, .refused _ (by omega), ?_⟩
    change len + 1 + 0 ≠ len
    omega

/-- The accounting holds in all runs of fewer than `2 ^ 64` calls exactly if
`sem_init` takes `len` as it is. -/
theorem run_accounted_iff {len sz : Nat} (hl : 1 ≤ len) (hs : 1 ≤ sz) :
    (∀ b ps, Run len sz b ps → calls b ps < 18446744073709551616 → Accounted len sz b ps) ↔
      len ≤ semValueMax := by
  constructor
  · intro h
    by_contra hlen
    obtain ⟨b, hb, hne⟩ := created_off (Nat.not_le.mp hlen)
    have hstart : b.stored = [] ∧ b.taken = [] := by
      cases hb <;> exact ⟨rfl, rfl⟩
    have hcalls : calls b [] < 18446744073709551616 := by
      unfold calls
      rw [hstart.1, hstart.2]
      decide
    exact hne (h b [] (.init hb fun p hp => nomatch hp) hcalls).units
  · intro hlen b ps hr hcalls
    have hc := hr.counts hlen
    exact hc.1.accounted hc.2 hl hs hlen hcalls

/-- The queue of the proxy. -/
theorem run_accounted_iff_proxy : (∀ b ps, Run 1024 8 b ps →
    calls b ps < 18446744073709551616 → Accounted 1024 8 b ps) ↔ 1024 ≤ semValueMax :=
  run_accounted_iff (by decide) (by decide)

/-- With `2 ^ 32` slots the semaphore starts at zero. -/
theorem run_not_accounted : ¬∀ len sz, 1 ≤ len → 1 ≤ sz → ∀ b ps, Run len sz b ps →
    calls b ps < 18446744073709551616 → Accounted len sz b ps := by
  intro h
  have hr : Run 4294967296 1 (create 4294967296) [] :=
    .init (.set (by decide)) fun p hp => nomatch hp
  have hu := (h 4294967296 1 (by decide) (by decide) _ _ hr (by decide)).units
  change 4294967296 % 4294967296 + 0 + 0 = 4294967296 at hu
  omega

end Csapp.Sbuf
