import Mathlib
import Csapp.Sbuf.Model

/-!
# When the buffer is a queue

The two semaphores and the mutex are counted: every slot and every item is in
the semaphore, in the queue, or in the hands of one thread. From the counts it
follows that a taking thread finds something queued. What the copies need
beside that is that no store overlaps an item that is still queued, and this
the offset `rear % n`, without the item size, does not give.
-/

namespace Csapp.Sbuf

/-! ## Counting threads -/

/-- The sum of `f` over the threads. -/
def total (f : Pc → Nat) (ps : List Pc) : Nat := (ps.map f).sum

theorem total_middle {f : Pc → Nat} {l r : List Pc} {p : Pc} :
    total f (l ++ p :: r) = total f l + f p + total f r := by
  unfold total
  rw [List.map_append, List.sum_append, List.map_cons, List.sum_cons, Nat.add_assoc]

theorem total_zero {f : Pc → Nat} {ps : List Pc} (h : ∀ p ∈ ps, f p = 0) :
    total f ps = 0 := by
  unfold total
  rw [List.sum_eq_zero_iff]
  intro n hn
  obtain ⟨p, hp, rfl⟩ := List.mem_map.mp hn
  exact h p hp

/-- Threads that hold the mutex. -/
def Pc.inMutex : Pc → Nat
  | .enqIn _ | .enqOut | .deqIn | .deqOut => 1
  | _ => 0

/-- Threads that hold a slot: not yet filled, or emptied and not yet posted. -/
def Pc.holdsSlot : Pc → Nat
  | .enqLock _ | .enqIn _ | .deqOut | .deqPost => 1
  | _ => 0

/-- Threads that hold an item: not yet taken, or stored and not yet posted. -/
def Pc.holdsItem : Pc → Nat
  | .deqLock | .deqIn | .enqOut | .enqPost => 1
  | _ => 0

/-- The item a thread is about to store. -/
def Pc.item? : Pc → Option Item
  | .enqWait item | .enqLock item | .enqIn item => some item
  | _ => none

/-- The semaphores count what is in the buffer and what is on its way. -/
structure Counts (len sz : Nat) (b : Buf) (ps : List Pc) : Prop where
  mutex : total Pc.inMutex ps = b.mutex.toNat
  slots : b.slots + total Pc.holdsSlot ps + b.stored.length =
    len % 4294967296 + b.taken.length
  items : b.items + total Pc.holdsItem ps + b.taken.length = b.stored.length
  sized : ∀ p ∈ ps, ∀ item ∈ p.item?, item.length = sz

theorem Counts.create {len sz : Nat} {ps : List Pc} (h : ∀ p ∈ ps, p = Pc.idle) :
    Counts len sz (create len) ps where
  mutex := total_zero fun p hp => by rw [h p hp]; rfl
  slots := by
    rw [total_zero fun p hp => by rw [h p hp]; rfl]
    rfl
  items := by
    rw [total_zero fun p hp => by rw [h p hp]; rfl]
    rfl
  sized p hp item hi := by
    rw [h p hp] at hi
    cases hi

/-! ## What one step moves -/

theorem Move.mutex {len sz : Nat} {b b' : Buf} {p p' : Pc} (h : Move len sz b p b' p')
    (hp : p.inMutex ≤ b.mutex.toNat) :
    b'.mutex.toNat + p.inMutex = b.mutex.toNat + p'.inMutex := by
  cases h with
  | enqLock hm | deqLock hm => rw [hm]; rfl
  | enqOut | deqOut =>
    have hm := b.mutex.toNat_le
    change 0 + 1 = b.mutex.toNat + 0
    change 1 ≤ b.mutex.toNat at hp
    omega
  | _ => rfl

theorem Move.slots {len sz : Nat} {b b' : Buf} {p p' : Pc} (h : Move len sz b p b' p') :
    b'.slots + p'.holdsSlot + b'.stored.length + b.taken.length =
      b.slots + p.holdsSlot + b.stored.length + b'.taken.length := by
  cases h <;> simp only [Pc.holdsSlot, enqCopy, deqCopy, List.length_append,
    List.length_singleton] <;> omega

theorem Move.items {len sz : Nat} {b b' : Buf} {p p' : Pc} (h : Move len sz b p b' p') :
    b'.items + p'.holdsItem + b'.taken.length + b.stored.length =
      b.items + p.holdsItem + b.taken.length + b'.stored.length := by
  cases h <;> simp only [Pc.holdsItem, enqCopy, deqCopy, List.length_append,
    List.length_singleton] <;> omega

theorem Move.sized {len sz : Nat} {b b' : Buf} {p p' : Pc} (h : Move len sz b p b' p')
    (hp : ∀ item ∈ p.item?, item.length = sz) : ∀ item ∈ p'.item?, item.length = sz := by
  cases h with
  | callEnq hs =>
    intro item hi
    cases hi
    exact hs
  | enqWait | enqLock => exact hp
  | _ =>
    intro item hi
    cases hi

theorem Counts.step {len sz : Nat} {b b' : Buf} {l r : List Pc} {p p' : Pc}
    (hc : Counts len sz b (l ++ p :: r)) (hm : Move len sz b p b' p') :
    Counts len sz b' (l ++ p' :: r) := by
  obtain ⟨h1, h2, h3, h4⟩ := hc
  rw [total_middle] at h1 h2 h3
  have g1 := hm.mutex (by omega)
  have g2 := hm.slots
  have g3 := hm.items
  refine ⟨?_, ?_, ?_, ?_⟩
  · rw [total_middle]
    omega
  · rw [total_middle]
    omega
  · rw [total_middle]
    omega
  · intro q hq
    rcases List.mem_append.mp hq with hq | hq
    · exact h4 q (List.mem_append_left _ hq)
    · cases hq with
      | head => exact hm.sized (h4 p (List.mem_append_right _ List.mem_cons_self))
      | tail _ hq => exact h4 q (List.mem_append_right _ (List.mem_cons_of_mem _ hq))

/-- A thread inside the critical section of `sbuf_deq` finds something queued. -/
theorem Counts.queued {len sz : Nat} {b : Buf} {l r : List Pc}
    (hc : Counts len sz b (l ++ Pc.deqIn :: r)) : b.taken.length < b.stored.length := by
  have h := hc.items
  rw [total_middle] at h
  change b.items + (total Pc.holdsItem l + 1 + total Pc.holdsItem r) + b.taken.length =
    b.stored.length at h
  omega

/-- No more items are queued than there are slots. -/
theorem Counts.bounded {len sz : Nat} {b : Buf} {ps : List Pc} (hc : Counts len sz b ps) :
    b.stored.length ≤ b.taken.length + len % 4294967296 := by
  have h := hc.slots
  omega

/-! ## The contents -/

/-- The counters are the lengths of the logs, what has been taken is the front
of what has been stored, and the rest of it lies in the array. -/
structure Queue (len sz : Nat) (b : Buf) : Prop where
  rear : b.rear = b.stored.length % 18446744073709551616
  front : b.front = b.taken.length % 18446744073709551616
  order : b.taken <+: b.stored
  intact : ∀ i, b.taken.length ≤ i → i < b.stored.length →
    b.stored[i]? = some (copyOut b.data (slot len i) sz)

theorem Queue.create {len sz : Nat} : Queue len sz (create len) where
  rear := rfl
  front := rfl
  order := List.nil_prefix
  intact i _ h := by cases h

theorem incr_mod {n : Nat} :
    incr (n % 18446744073709551616) = (n + 1) % 18446744073709551616 := by
  unfold incr
  omega

theorem Queue.enqCopy {len sz : Nat} {b : Buf} {item : Item} (hq : Queue len sz b)
    (hi : item.length = sz) (hc : Clear len sz b) : Queue len sz (enqCopy len b item) where
  rear := by
    change incr b.rear = (b.stored ++ [item]).length % _
    rw [hq.rear, incr_mod, List.length_append]
    rfl
  front := hq.front
  order := hq.order.trans (List.prefix_append ..)
  intact i ht h := by
    change (b.stored ++ [item])[i]? =
      some (copyOut (copyIn b.data (b.rear % len) item) (slot len i) sz)
    have h : i < (b.stored ++ [item]).length := h
    have ht : b.taken.length ≤ i := ht
    rw [List.length_append, List.length_singleton] at h
    rcases Nat.lt_or_ge i b.stored.length with hlt | hge
    · rw [copyOut_copyIn_apart (hi ▸ hc i ht hlt), List.getElem?_append_left hlt]
      exact hq.intact i ht hlt
    · have he : i = b.stored.length := by omega
      subst he
      have hs : slot len b.stored.length = b.rear % len := by
        rw [hq.rear]
        rfl
      rw [hs, ← hi, copyOut_copyIn]
      exact List.getElem?_concat_length

theorem Queue.deqCopy {len sz : Nat} {b : Buf} (hq : Queue len sz b)
    (hl : b.taken.length < b.stored.length) : Queue len sz (deqCopy len sz b) where
  rear := hq.rear
  front := by
    change incr b.front = (b.taken ++ _).length % _
    rw [hq.front, incr_mod, List.length_append]
    rfl
  order := by
    change b.taken ++ [copyOut b.data (b.front % len) sz] <+: b.stored
    have ht : b.taken = b.stored.take b.taken.length := List.prefix_iff_eq_take.mp hq.order
    have hc := hq.intact b.taken.length (Nat.le_refl _) hl
    rw [List.getElem?_eq_getElem hl] at hc
    rw [hq.front]
    change b.taken ++ [copyOut b.data (slot len b.taken.length) sz] <+: b.stored
    rw [← Option.some.inj hc]
    have he : b.taken ++ [b.stored[b.taken.length]] = b.stored.take (b.taken.length + 1) := by
      rw [← List.take_append_getElem hl, ← ht]
    rw [he]
    exact List.take_prefix _ _
  intact i ht h := by
    refine hq.intact i ?_ h
    have ht : (b.taken ++ [copyOut b.data (b.front % len) sz]).length ≤ i := ht
    rw [List.length_append] at ht
    omega

theorem Queue.step {len sz : Nat} {b b' : Buf} {l r : List Pc} {p p' : Pc}
    (hq : Queue len sz b) (hc : Counts len sz b (l ++ p :: r)) (hm : Move len sz b p b' p')
    (hs : p.storing → Clear len sz b) : Queue len sz b' := by
  cases hm with
  | enqIn =>
    refine hq.enqCopy ?_ (hs trivial)
    exact hc.sized _ (List.mem_append_right _ List.mem_cons_self) _ rfl
  | deqIn => exact hq.deqCopy hc.queued
  | _ => exact ⟨hq.rear, hq.front, hq.order, hq.intact⟩

theorem Reach.counts {len sz : Nat} {C : Buf → Prop} {b : Buf} {ps : List Pc}
    (h : Reach len sz C b ps) : Counts len sz b ps := by
  induction h with
  | init _ hp => exact Counts.create hp
  | step _ hm _ ih => exact ih.step hm

theorem Reach.queue {len sz : Nat} {b : Buf} {ps : List Pc}
    (h : Reach len sz (Clear len sz) b ps) : Queue len sz b := by
  induction h with
  | init => exact Queue.create
  | step hr hm hs ih => exact ih.step hr.counts hm hs

/-- In a run in which no store overlaps a queued item, what has been taken is,
in order and byte for byte, the front of what has been stored. -/
theorem reach_fifo {len sz : Nat} {b : Buf} {ps : List Pc}
    (h : Reach len sz (Clear len sz) b ps) : b.taken <+: b.stored := h.queue.order

/-! ## Runs of one thread -/

/-- The buffer after an undisturbed call of `sbuf_enq`. -/
def enqAll (len : Nat) (b : Buf) (item : Item) : Buf :=
  { enqCopy len b item with slots := b.slots - 1, mutex := false, items := b.items + 1 }

/-- The buffer after an undisturbed call of `sbuf_deq`. -/
def deqAll (len sz : Nat) (b : Buf) : Buf :=
  { deqCopy len sz b with slots := b.slots + 1, mutex := false, items := b.items - 1 }

theorem Reach.move {len sz : Nat} {C : Buf → Prop} {b b' : Buf} {p p' : Pc}
    (h : Reach len sz C b [p]) (hm : Move len sz b p b' p') (hc : p.storing → C b) :
    Reach len sz C b' [p'] := .step (l := []) (r := []) h hm hc

theorem Reach.enqAll {len sz : Nat} {C : Buf → Prop} {b : Buf} {item : Item}
    (h : Reach len sz C b [.idle]) (hi : item.length = sz) (hm : b.mutex = false)
    (hs : 0 < b.slots) (hc : C { b with slots := b.slots - 1, mutex := true }) :
    Reach len sz C (enqAll len b item) [.idle] := by
  have h1 := h.move (.callEnq hi) False.elim
  have h2 := h1.move (.enqWait hs) False.elim
  have h3 := h2.move (.enqLock hm) False.elim
  have h4 := h3.move .enqIn fun _ => hc
  exact (h4.move .enqOut False.elim).move .enqPost False.elim

theorem Reach.deqAll {len sz : Nat} {C : Buf → Prop} {b : Buf}
    (h : Reach len sz C b [.idle]) (hm : b.mutex = false) (hi : 0 < b.items) :
    Reach len sz C (deqAll len sz b) [.idle] := by
  have h1 := h.move .callDeq False.elim
  have h2 := h1.move (.deqWait hi) False.elim
  have h3 := h2.move (.deqLock hm) False.elim
  have h4 := h3.move .deqIn False.elim
  exact (h4.move .deqOut False.elim).move .deqPost False.elim

/-- Two items of one byte are queued, and the first is taken. -/
theorem reach_fifo_two : ∃ b, Reach 2 1 (Clear 2 1) b [.idle] ∧
    b.stored = [[7], [9]] ∧ b.taken = [[7]] ∧ b.taken <+: b.stored := by
  have h : Reach 2 1 (Clear 2 1) (create 2) [.idle] := by
    refine .init (by decide) ?_
    intro p hp
    exact List.mem_singleton.mp hp
  have hc : Clear 2 1 { create 2 with slots := (create 2).slots - 1, mutex := true } := by
    intro i _ hi
    cases hi
  have h1 : Reach 2 1 (Clear 2 1) (enqAll 2 (create 2) [7]) [.idle] :=
    h.enqAll rfl rfl (by decide) hc
  have hc1 : Clear 2 1 { enqAll 2 (create 2) [7] with
      slots := (enqAll 2 (create 2) [7]).slots - 1, mutex := true } := by
    intro i _ hi
    have hi : i < 1 := hi
    rw [Nat.lt_one_iff.mp hi]
    exact Or.inl (by decide)
  have h2 : Reach 2 1 (Clear 2 1) (enqAll 2 (enqAll 2 (create 2) [7]) [9]) [.idle] :=
    h1.enqAll rfl rfl (by decide) hc1
  have h3 := h2.deqAll rfl (by decide)
  exact ⟨_, h3, rfl, by decide, reach_fifo h3⟩

/-- With two items of two bytes queued, the second copy starts one byte after
the first. -/
theorem reach_not_fifo : ∃ b, Reach 2 2 (fun _ => True) b [.idle] ∧
    b.stored = [[0, 0], [1, 1]] ∧ b.taken = [[0, 1]] ∧ ¬ b.taken <+: b.stored := by
  have h : Reach 2 2 (fun _ => True) (create 2) [.idle] := by
    refine .init (by decide) ?_
    intro p hp
    exact List.mem_singleton.mp hp
  have h1 : Reach 2 2 (fun _ => True) (enqAll 2 (create 2) [0, 0]) [.idle] :=
    h.enqAll rfl rfl (by decide) trivial
  have h2 : Reach 2 2 (fun _ => True)
      (enqAll 2 (enqAll 2 (create 2) [0, 0]) [1, 1]) [.idle] :=
    h1.enqAll rfl rfl (by decide) trivial
  exact ⟨_, h2.deqAll rfl (by decide), rfl, by decide, by decide⟩

/-! ## Where stores never overlap -/

theorem Reach.mono {len sz : Nat} {C C' : Buf → Prop} {b : Buf} {ps : List Pc}
    (h : Reach len sz C b ps)
    (hcc : ∀ b l item r, Counts len sz b (l ++ Pc.enqIn item :: r) → C b → C' b) :
    Reach len sz C' b ps := by
  induction h with
  | init hl hp => exact .init hl hp
  | @step b b' l p p' r hr hm hs ih =>
    refine .step ih hm ?_
    intro hp
    cases hm with
    | enqIn => exact hcc b l _ r hr.counts (hs hp)
    | _ => exact hp.elim

/-- A store into an empty queue meets nothing. -/
theorem Clear.of_empty {len sz : Nat} {b : Buf} (h : b.stored.length ≤ b.taken.length) :
    Clear len sz b := by
  intro i h1 h2
  omega

/-- Single bytes do not overlap until the counters wrap. -/
theorem Clear.of_bytes {len : Nat} {b : Buf} {l r : List Pc} {item : Item}
    (hc : Counts len 1 b (l ++ Pc.enqIn item :: r)) (hr : b.rear = b.stored.length)
    (hl : b.stored.length < 18446744073709551616) : Clear len 1 b := by
  have hq := hc.slots
  rw [total_middle] at hq
  change b.slots + (total Pc.holdsSlot l + 1 + total Pc.holdsSlot r) + _ = _ at hq
  have hm := Nat.mod_le len 4294967296
  intro i h1 h2
  unfold slot
  rw [hr, Nat.mod_eq_of_lt (Nat.lt_trans h2 hl)]
  have hne : i % len ≠ b.stored.length % len := by
    intro he
    have h0 := Nat.sub_mod_eq_zero_of_mod_eq he.symm
    rw [Nat.mod_eq_of_lt (by omega)] at h0
    omega
  omega

/-- A buffer whose every store meets an empty queue is a queue, whatever the
item size. -/
theorem reach_fifo_handoff {len sz : Nat} {b : Buf} {ps : List Pc}
    (h : Reach len sz (fun b => b.stored.length ≤ b.taken.length) b ps) :
    b.taken <+: b.stored :=
  (h.mono fun _ _ _ _ _ hb => Clear.of_empty hb).queue.order

/-- A buffer of bytes is a queue until its counters wrap. -/
theorem reach_fifo_bytes {len : Nat} {b : Buf} {ps : List Pc}
    (h : Reach len 1 (fun b => b.stored.length < 18446744073709551616) b ps) :
    b.taken <+: b.stored := by
  suffices hq : Queue len 1 b from hq.order
  induction h with
  | init => exact Queue.create
  | step hr hm hs ih =>
    refine ih.step hr.counts hm ?_
    intro hp
    cases hm with
    | enqIn => exact Clear.of_bytes hr.counts (ih.rear.trans (Nat.mod_eq_of_lt (hs hp))) (hs hp)
    | _ => exact hp.elim

end Csapp.Sbuf
