import Mathlib
import Csapp.ProxyCache.Linearizable

/-!
# What the lock is for

In every state the threads can get to: a writer is alone, every node the next
step of a thread follows a pointer to is allocated, nothing is given back twice and
nothing is lost, and some thread that has not returned can move.
-/

namespace Csapp.ProxyCache

section

variable (c : Cache)

/-- The nodes an unlinking reads and writes. -/
def unlinked (node : Ptr) : List Ptr := [node, c.next node, c.prev node]

/-- Those of `cache_promote`. Behind the unlinking the first node is the old one,
or the one behind `node`. -/
def promoted (node : Ptr) : List Ptr := unlinked c node ++ [head, c.next head]

/-- The nodes whose fields the next step reads or writes, and the one that it frees. -/
def touched : Pc → List Ptr
  | .getFirst .. | .putFirst .. => [head]
  | .getLoop _ _ _ node => if node = head then [] else [node]
  | .getCopy _ _ node | .getPatience _ _ node => [node]
  | .putWalk p _ node =>
    if node = head then []
    else if c.uri node = c.uri p then node :: p :: promoted c node
    else node :: p :: c.prev node :: promoted c (c.next (c.prev node))
  | .putWhile p _ => [p, head]
  | .putDrain _ _ node =>
    if node = head then [] else node :: c.prev node :: promoted c (c.next (c.prev node))
  | .putInsert p _ => [p, head, c.next head]
  | .putDestroy p => [p]
  | .idle | .getRdlock .. | .getUnlock .. | .putCreate .. | .putWrlock .. | .putUnlock ..
  | .ret _ => []

/-- The node the next step frees. -/
def freed : Pc → Option Ptr
  | .putWalk p _ node =>
    if node = head ∨ c.uri node = c.uri p ∨ c.patience (c.next (c.prev node)) ≤ 0 ∨
      ¬c.freesz < c.size p then none
    else some (c.next (c.prev node))
  | .putDrain _ _ node =>
    if node = head ∨ c.patience (c.next (c.prev node)) ≤ 0 then none
    else some (c.next (c.prev node))
  | .putDestroy p => some p
  | _ => none

end

/-! ## What a step writes -/

/-- The fields of a node that are written after it has been created. -/
def fields (c : Cache) (q : Ptr) : Ptr × Ptr × Int := (c.next q, c.prev q, c.patience q)

section

variable {c : Cache} {n q : Ptr}

theorem fields_setNext (v : Ptr) (h : q ≠ n) : fields (c.setNext n v) q = fields c q := by
  simp [fields, Cache.setNext, h]

theorem fields_setPrev (v : Ptr) (h : q ≠ n) : fields (c.setPrev n v) q = fields c q := by
  simp [fields, Cache.setPrev, h]

theorem fields_setPatience (v : Int) (h : q ≠ n) : fields (c.setPatience n v) q = fields c q := by
  simp [fields, Cache.setPatience, h]

theorem fields_promote (hq : q ∉ promoted c n) : fields (cachePromote c n) q = fields c q := by
  simp only [promoted, unlinked, List.cons_append, List.nil_append, List.mem_cons,
    List.not_mem_nil, or_false, not_or] at hq
  obtain ⟨hn, hx, hp, hh, hf⟩ := hq
  -- the neighbour before, read after the one behind has been changed
  have hp' : q ≠ Function.update c.prev (c.next n) (c.prev n) n := by
    rw [Function.update_apply]
    split <;> exact hp
  -- the first node, read after the unlinking
  have hf' : q ≠ Function.update (Function.update c.next (Function.update c.prev (c.next n)
      (c.prev n) n) (c.next n)) n (Function.update c.next (Function.update c.prev (c.next n)
      (c.prev n) n) (c.next n) head) head := by
    rw [Function.update_apply]
    split <;>
      · rw [Function.update_apply]
        split
        · exact hx
        · exact hf
  calc fields (cachePromote c n) q
      = _ := fields_setNext _ hh
    _ = _ := fields_setPrev _ hf'
    _ = _ := fields_setPrev _ hn
    _ = _ := fields_setNext _ hn
    _ = _ := fields_setNext _ hp'
    _ = _ := fields_setPrev _ hx
    _ = fields c q := fields_setPatience _ hn

theorem fields_evict (hq : q ∉ unlinked c n) : fields (cacheEvict c n) q = fields c q := by
  simp only [unlinked, List.mem_cons, List.not_mem_nil, or_false, not_or] at hq
  obtain ⟨-, hx, hp⟩ := hq
  have hx' : q ≠ Function.update c.next (c.prev n) (c.next n) n := by
    rw [Function.update_apply]
    split <;> exact hx
  change fields ((c.setNext (c.prev n) (c.next n)).setPrev
    (Function.update c.next (c.prev n) (c.next n) n) (c.prev n)) q = _
  rw [fields_setPrev _ hx', fields_setNext _ hp]

theorem fields_insert (hq : q ∉ [n, head, c.next head]) :
    fields (cacheInsert c n) q = fields c q := by
  simp only [List.mem_cons, List.not_mem_nil, or_false, not_or] at hq
  obtain ⟨hn, hh, hf⟩ := hq
  have hf' : q ≠ Function.update c.next n (c.next head) head := by
    rw [Function.update_apply]
    split <;> exact hf
  calc fields (cacheInsert c n) q
      = _ := fields_setNext _ hh
    _ = _ := fields_setPrev _ hn
    _ = _ := fields_setPrev _ hf'
    _ = fields c q := fields_setNext _ hn

theorem subset_promoted {q : Ptr} (hq : q ∉ promoted c n) : q ∉ unlinked c n :=
  fun h => hq (List.mem_append_left _ h)

theorem fields_put {k : Nat} (hq : q ∉ [n, head, c.next head]) :
    fields (cacheInsert (c.subFree k) n) q = fields c q := by
  obtain ⟨f, hf⟩ := subFree_eq c k
  rw [hf]
  exact fields_insert hq

theorem live_put {k : Nat} : (cacheInsert (c.subFree k) n).live = c.live := by
  obtain ⟨f, hf⟩ := subFree_eq c k
  rw [hf]
  rfl

end

section

variable {c c' : Cache} {pc pc' : Pc}

/-- A step writes what `touched` lists, and takes what `freed` says from the allocated nodes. -/
structure Framed (c c' : Cache) (pc : Pc) : Prop where
  fields : ∀ q, q ∉ touched c pc → fields c' q = fields c q
  live : ∀ q, c'.live q = true ↔ c.live q = true ∧ freed c pc ≠ some q

theorem Framed.keeps (hf : ∀ q, q ∉ touched c pc → ProxyCache.fields c' q = ProxyCache.fields c q)
    (hl : c'.live = c.live) (hn : freed c pc = none) : Framed c c' pc := by
  refine ⟨hf, ?_⟩
  intro q
  rw [hl, hn]
  exact ⟨fun h => ⟨h, fun he => by cases he⟩, fun h => h.1⟩

theorem Framed.frees {n : Ptr}
    (hf : ∀ q, q ∉ touched c pc → ProxyCache.fields c' q = ProxyCache.fields c q)
    (hl : c'.live = Function.update c.live n false) (hn : freed c pc = some n) :
    Framed c c' pc := by
  refine ⟨hf, ?_⟩
  intro q
  rw [hl, hn]
  by_cases hq : q = n
  · simp [hq]
  · simp [hq, Ne.symm hq]

theorem Framed.here (hn : freed c pc = none) : Framed c c pc :=
  .keeps (fun _ _ => rfl) rfl hn

theorem Framed.putWalk {p node : Ptr} {n : Nat}
    (hadv : advance c (.putWalk p n node) = some (c', pc')) : Framed c c' (.putWalk p n node) := by
  rw [advance] at hadv
  split at hadv
  next hn =>
    obtain ⟨rfl, rfl⟩ := Prod.mk.inj (Option.some.inj hadv)
    exact .here (if_pos (.inl hn))
  next hn =>
    split at hadv
    next hu =>
      obtain ⟨rfl, rfl⟩ := Prod.mk.inj (Option.some.inj hadv)
      refine .keeps ?_ rfl (if_pos (.inr (.inl hu)))
      intro q hq
      rw [touched, if_neg hn, if_pos hu, List.mem_cons, List.mem_cons, not_or, not_or] at hq
      rw [fields_setPatience _ hq.1, fields_promote hq.2.2]
    next hu =>
      have ht : ∀ q, q ∉ touched c (.putWalk p n node) →
          q ∉ promoted c (c.next (c.prev node)) := by
        intro q hq
        rw [touched, if_neg hn, if_neg hu] at hq
        simp only [List.mem_cons, not_or] at hq
        exact hq.2.2.2
      dsimp only at hadv
      split at hadv
      next hp =>
        obtain ⟨rfl, rfl⟩ := Prod.mk.inj (Option.some.inj hadv)
        exact .keeps (fun q hq => fields_promote (ht q hq)) rfl (if_pos (.inr (.inr (.inl hp))))
      next hp =>
        split at hadv
        next hz =>
          obtain ⟨rfl, rfl⟩ := Prod.mk.inj (Option.some.inj hadv)
          refine .frees (fun q hq => fields_evict (subset_promoted (ht q hq))) rfl (if_neg ?_)
          simp only [not_or, not_not]
          exact ⟨hn, hu, hp, hz⟩
        next hz =>
          obtain ⟨rfl, rfl⟩ := Prod.mk.inj (Option.some.inj hadv)
          exact .here (if_pos (.inr (.inr (.inr hz))))

theorem Framed.putDrain {p node : Ptr} {n : Nat}
    (hadv : advance c (.putDrain p n node) = some (c', pc')) :
    Framed c c' (.putDrain p n node) := by
  rw [advance] at hadv
  split at hadv
  next hn =>
    obtain ⟨rfl, rfl⟩ := Prod.mk.inj (Option.some.inj hadv)
    exact .here (if_pos (.inl hn))
  next hn =>
    have ht : ∀ q, q ∉ touched c (.putDrain p n node) →
        q ∉ promoted c (c.next (c.prev node)) := by
      intro q hq
      rw [touched, if_neg hn] at hq
      simp only [List.mem_cons, not_or] at hq
      exact hq.2.2
    dsimp only at hadv
    split at hadv
    next hp =>
      obtain ⟨rfl, rfl⟩ := Prod.mk.inj (Option.some.inj hadv)
      exact .keeps (fun q hq => fields_promote (ht q hq)) rfl (if_pos (.inr hp))
    next hp =>
      obtain ⟨rfl, rfl⟩ := Prod.mk.inj (Option.some.inj hadv)
      refine .frees (fun q hq => fields_evict (subset_promoted (ht q hq))) rfl (if_neg ?_)
      exact not_or.mpr ⟨hn, hp⟩

theorem advance_framed (hadv : advance c pc = some (c', pc')) : Framed c c' pc := by
  cases pc with
  | getLoop uri buf n node =>
      rw [advance] at hadv
      split at hadv
      · obtain ⟨rfl, rfl⟩ := Prod.mk.inj (Option.some.inj hadv)
        exact .here rfl
      · split at hadv <;>
          · obtain ⟨rfl, rfl⟩ := Prod.mk.inj (Option.some.inj hadv)
            exact .here rfl
  | getPatience buf n node =>
      obtain ⟨rfl, rfl⟩ := Prod.mk.inj (Option.some.inj hadv)
      refine .keeps (fun q hq => fields_setPatience _ ?_) rfl rfl
      rw [touched, List.mem_singleton] at hq
      exact hq
  | putWalk p n node => exact .putWalk hadv
  | putWhile p n =>
      rw [advance] at hadv
      split at hadv <;>
        · obtain ⟨rfl, rfl⟩ := Prod.mk.inj (Option.some.inj hadv)
          exact .here rfl
  | putDrain p n node => exact .putDrain hadv
  | putInsert p n =>
      obtain ⟨rfl, rfl⟩ := Prod.mk.inj (Option.some.inj hadv)
      exact .keeps (fun q hq => fields_put hq) live_put rfl
  | putUnlock p found =>
      cases found <;>
        · obtain ⟨rfl, rfl⟩ := Prod.mk.inj (Option.some.inj hadv)
          exact .here rfl
  | putDestroy p =>
      obtain ⟨rfl, rfl⟩ := Prod.mk.inj (Option.some.inj hadv)
      exact .frees (fun _ _ => rfl) rfl rfl
  | getFirst | getCopy | getUnlock | putFirst =>
      obtain ⟨rfl, rfl⟩ := Prod.mk.inj (Option.some.inj hadv)
      exact .here rfl
  | idle | getRdlock | putCreate | putWrlock | ret => cases hadv

end

/-! ## What is allocated -/

section

variable {c : Cache} {hand l : List Ptr}

/-- On the ring. -/
theorem Listed.live_ring (h : Listed c hand l) {q : Ptr} (hq : q ∈ head :: l) :
    c.live q = true := by
  refine (h.live q).mpr ?_
  cases hq with
  | head => exact List.mem_cons_self
  | tail _ hq => exact List.mem_cons_of_mem _ (List.mem_append_right hand hq)

theorem Listed.live_hand (h : Listed c hand l) {q : Ptr} (hq : q ∈ hand) : c.live q = true :=
  (h.live q).mpr (List.mem_cons_of_mem _ (List.mem_append_left l hq))

theorem Listed.live_promoted (h : Listed c hand l) {x q : Ptr} (hx : x ∈ head :: l)
    (hq : q ∈ promoted c x) : c.live q = true := by
  simp only [promoted, unlinked, List.cons_append, List.nil_append, List.mem_cons,
    List.not_mem_nil, or_false] at hq
  obtain rfl | rfl | rfl | rfl | rfl := hq
  · exact h.live_ring hx
  · exact h.live_ring (h.ring.next hx).1
  · exact h.live_ring (h.ring.prev hx).1
  · exact h.live_ring List.mem_cons_self
  · exact h.live_ring (h.ring.next List.mem_cons_self).1

/-- The end of the list that is still to be visited. -/
theorem head?_mem {m : List Ptr} (hm : m ⊆ l) : m.head?.getD head ∈ head :: l := by
  cases m with
  | nil => exact List.mem_cons_self
  | cons x m => exact List.mem_cons_of_mem _ (hm List.mem_cons_self)

end

variable {ι : Type}

section

variable {maxsize : Nat} {s : Threads ι} {a : Cache} {ph : ι → Phase Op Res}
  {hand l la : List Ptr} {i : ι}

/-- A thread in a loop stands on the ring. -/
theorem Matches.node_mem {c : Cache} {pc : Pc} {ph : Phase Op Res} (h : Matches c l a la pc ph) :
    ∀ p n node, pc = .putWalk p n node ∨ pc = .putDrain p n node → node ∈ head :: l := by
  intro p n node hpc
  cases h with
  | putWalk _ hl _ =>
      obtain hpc | hpc := hpc <;> cases hpc
      exact head?_mem (by simp [hl])
  | putDrain _ _ hl _ =>
      obtain hpc | hpc := hpc <;> cases hpc
      exact head?_mem (by simp [hl])
  | putDrained =>
      obtain hpc | hpc := hpc <;> cases hpc
      exact List.mem_cons_self
  | _ => obtain hpc | hpc := hpc <;> cases hpc

/-- The node an iteration of a loop looks at is the one it came from. -/
theorem Related.back (h : Related maxsize s a ph hand l la) {node : Ptr}
    (hn : node ∈ head :: l) : s.cache.next (s.cache.prev node) = node :=
  (h.listed.ring.prev hn).2

/-- No step follows a pointer to memory that has been given back. -/
theorem Related.touched_live (h : Related maxsize s a ph hand l la) {pc : Pc} (hpc : s.pc i = pc)
    {q : Ptr} (hq : q ∈ touched s.cache pc) : s.cache.live q = true := by
  have hlive : ∀ p, pc.hand = some p → s.cache.live p = true := fun p hp =>
    h.listed.live_hand (h.in_hand hpc hp)
  have hhead : s.cache.live head = true := h.listed.live_ring List.mem_cons_self
  obtain ⟨phase, hk⟩ : ∃ phase, Matches s.cache l a la pc phase := ⟨_, hpc ▸ h.matched i⟩
  cases pc with
  | getFirst | putFirst =>
      rw [touched, List.mem_singleton] at hq
      exact hq ▸ hhead
  | getLoop uri buf n node =>
      rw [touched] at hq
      split at hq
      next => cases hq
      next =>
        rw [List.mem_singleton] at hq
        cases hk with
        | getLoop hl _ => exact hq ▸ h.listed.live_ring (head?_mem (by simp [hl]))
  | getCopy buf n node =>
      rw [touched, List.mem_singleton] at hq
      cases hk with
      | getCopy hn _ => exact hq ▸ h.listed.live_ring (List.mem_cons_of_mem _ hn)
  | getPatience buf n node =>
      rw [touched, List.mem_singleton] at hq
      cases hk with
      | getPatience hn _ _ _ => exact hq ▸ h.listed.live_ring (List.mem_cons_of_mem _ hn)
  | putWalk p n node =>
      have hn := hk.node_mem p n node (.inl rfl)
      have hprev := h.listed.live_ring (h.listed.ring.prev hn).1
      rw [touched, h.back hn] at hq
      split at hq
      next => cases hq
      next =>
        split at hq
        next =>
          simp only [List.mem_cons] at hq
          obtain rfl | rfl | hq := hq
          · exact h.listed.live_ring hn
          · exact hlive _ rfl
          · exact h.listed.live_promoted hn hq
        next =>
          simp only [List.mem_cons] at hq
          obtain rfl | rfl | rfl | hq := hq
          · exact h.listed.live_ring hn
          · exact hlive _ rfl
          · exact hprev
          · exact h.listed.live_promoted hn hq
  | putWhile p n =>
      simp only [touched, List.mem_cons, List.not_mem_nil, or_false] at hq
      obtain rfl | rfl := hq
      · exact hlive _ rfl
      · exact hhead
  | putDrain p n node =>
      have hn := hk.node_mem p n node (.inr rfl)
      have hprev := h.listed.live_ring (h.listed.ring.prev hn).1
      rw [touched, h.back hn] at hq
      split at hq
      next => cases hq
      next =>
        simp only [List.mem_cons] at hq
        obtain rfl | rfl | hq := hq
        · exact h.listed.live_ring hn
        · exact hprev
        · exact h.listed.live_promoted hn hq
  | putInsert p n =>
      simp only [touched, List.mem_cons, List.not_mem_nil, or_false] at hq
      obtain rfl | rfl | rfl := hq
      · exact hlive _ rfl
      · exact hhead
      · exact h.listed.live_ring (h.listed.ring.next List.mem_cons_self).1
  | putDestroy p =>
      rw [touched, List.mem_singleton] at hq
      exact hq ▸ hlive p rfl
  | idle | getRdlock | getUnlock | putCreate | putWrlock | putUnlock | ret => cases hq

/-- What is given back was got from `malloc` and not given back before. -/
theorem Related.freed_live (h : Related maxsize s a ph hand l la) {pc : Pc} (hpc : s.pc i = pc)
    {q : Ptr} (hq : freed s.cache pc = some q) : q ≠ head ∧ s.cache.live q = true := by
  obtain ⟨phase, hk⟩ : ∃ phase, Matches s.cache l a la pc phase := ⟨_, hpc ▸ h.matched i⟩
  cases pc with
  | putWalk p n node =>
      have hn := hk.node_mem p n node (.inl rfl)
      rw [freed, h.back hn] at hq
      split at hq
      next => cases hq
      next hne =>
        cases hq
        exact ⟨fun he => hne (.inl he), h.listed.live_ring hn⟩
  | putDrain p n node =>
      have hn := hk.node_mem p n node (.inr rfl)
      rw [freed, h.back hn] at hq
      split at hq
      next => cases hq
      next hne =>
        cases hq
        exact ⟨fun he => hne (.inl he), h.listed.live_ring hn⟩
  | putDestroy p =>
      cases hq
      have hp := h.in_hand hpc rfl
      exact ⟨fun he => h.listed.off_list hp (he ▸ List.mem_cons_self), h.listed.live_hand hp⟩
  | _ => cases hq

theorem advance_of_holding (c : Cache) {pc : Pc} (h : pc.holding = true) :
    ∃ c' pc', advance c pc = some (c', pc') := by
  cases pc with
  | getLoop uri buf n node =>
      rw [advance]
      split
      · exact ⟨_, _, rfl⟩
      · split <;> exact ⟨_, _, rfl⟩
  | putWalk p n node =>
      rw [advance]
      split
      · exact ⟨_, _, rfl⟩
      · split
        · exact ⟨_, _, rfl⟩
        · dsimp only
          split
          · exact ⟨_, _, rfl⟩
          · split <;> exact ⟨_, _, rfl⟩
  | putWhile p n =>
      rw [advance]
      split <;> exact ⟨_, _, rfl⟩
  | putDrain p n node =>
      rw [advance]
      split
      · exact ⟨_, _, rfl⟩
      · dsimp only
        split <;> exact ⟨_, _, rfl⟩
  | putUnlock p found => cases found <;> exact ⟨_, _, rfl⟩
  | getFirst | getCopy | getPatience | getUnlock | putFirst | putInsert => exact ⟨_, _, rfl⟩
  | idle | getRdlock | putCreate | putWrlock | putDestroy | ret => cases h

theorem Listed.exists_free {c : Cache} (h : Listed c hand l) : ∃ p, c.live p = false := by
  obtain ⟨p, hp⟩ := Infinite.exists_notMem_finset (head :: (hand ++ l)).toFinset
  refine ⟨p, ?_⟩
  rw [← Bool.not_eq_true, h.live p]
  simpa using hp

variable [DecidableEq ι]

theorem runs_of_holding (hj : (s.pc i).holding = true) : ∃ t, StepBy maxsize i s none t := by
  obtain ⟨c', pc', hadv⟩ := advance_of_holding s.cache hj
  exact ⟨_, .run hadv⟩

/-- A thread that cannot go on waits for one that holds the lock, and that one can. -/
theorem Related.goes (h : Related maxsize s a ph hand l la) (hi : s.pc i ≠ .idle) :
    (∃ b t, StepBy maxsize i s b t) ∨
      ∃ j t, (s.pc j).holding = true ∧ StepBy maxsize j s none t := by
  by_cases hhold : (s.pc i).holding = true
  · obtain ⟨t, ht⟩ : ∃ t, StepBy maxsize i s none t := runs_of_holding hhold
    exact .inl ⟨none, t, ht⟩
  cases hpc : s.pc i with
  | idle => exact absurd hpc hi
  | getRdlock =>
      by_cases hw : ∀ j, (s.pc j).writing = false
      · exact .inl ⟨none, _, .rdlock hpc hw⟩
      · obtain ⟨j, hj⟩ := not_forall.mp hw
        rw [Bool.not_eq_false] at hj
        obtain ⟨t, ht⟩ : ∃ t, StepBy maxsize j s none t :=
          runs_of_holding (Pc.holding_of_writing hj)
        exact .inr ⟨j, t, Pc.holding_of_writing hj, ht⟩
  | putWrlock =>
      by_cases hw : ∀ j, (s.pc j).holding = false
      · exact .inl ⟨none, _, .wrlock hpc hw⟩
      · obtain ⟨j, hj⟩ := not_forall.mp hw
        rw [Bool.not_eq_false] at hj
        obtain ⟨t, ht⟩ : ∃ t, StepBy maxsize j s none t := runs_of_holding hj
        exact .inr ⟨j, t, hj, ht⟩
  | putCreate =>
      obtain ⟨p, hp⟩ := h.listed.exists_free
      exact .inl ⟨none, _, .create hpc hp⟩
  | putDestroy p =>
      have hadv : advance s.cache (s.pc i) = some (s.cache.free p, .ret .put) := by
        rw [hpc, advance]
      exact .inl ⟨none, _, .run hadv⟩
  | ret r => exact .inl ⟨_, _, .ret hpc⟩
  | getFirst | getLoop | getCopy | getPatience | getUnlock | putFirst | putWalk | putWhile
  | putDrain | putInsert | putUnlock =>
      rw [hpc] at hhold
      exact absurd rfl hhold

end

variable [DecidableEq ι]

/-- In every state the threads can get to: a writer is alone; the pointers that a step
follows and the memory it gives back are allocated, and what is not allocated it leaves
alone; the allocated nodes are the head, the listed ones and those in the hands of one
thread each; and a thread that waits waits for one that can go on. -/
theorem threads_safe {maxsize : Nat} (hm : maxsize < 18446744073709551616)
    {tr : List (CallEvent ι Op Res)} {s : Threads ι}
    (h : Trace (Step maxsize) (Threads.init ι maxsize) tr s) :
    (∀ i j, (s.pc i).writing = true → (s.pc j).holding = true → i = j) ∧
    (∀ i q, q ∈ touched s.cache (s.pc i) → s.cache.live q = true) ∧
    (∀ i q, freed s.cache (s.pc i) = some q → q ≠ head ∧ s.cache.live q = true) ∧
    (∀ i c' pc' q, advance s.cache (s.pc i) = some (c', pc') → s.cache.live q = false →
      fields c' q = fields s.cache q ∧ c'.live q = false) ∧
    (∃ l, Ring s.cache.next s.cache.prev head l ∧
      (∀ q, s.cache.live q = true ↔ q = head ∨ q ∈ l ∨ ∃ i, (s.pc i).hand = some q) ∧
      ∀ i q, (s.pc i).hand = some q → q ∉ head :: l ∧ ∀ j, (s.pc j).hand = some q → j = i) ∧
    ∀ i, s.pc i ≠ .idle → (∃ b t, StepBy maxsize i s b t) ∨
      ∃ j t, (s.pc j).holding = true ∧ StepBy maxsize j s none t := by
  obtain ⟨x, -, hR⟩ := (simulates hm).trace (Linearized.init ι maxsize) h
  obtain ⟨hand, l, la, hr⟩ := hR
  refine ⟨hr.alone, fun i q hq => hr.touched_live rfl hq, fun i q hq => hr.freed_live rfl hq, ?_,
    ⟨l, hr.listed.ring, ?_, ?_⟩, fun i hi => hr.goes hi⟩
  · intro i c' pc' q hadv hq
    have hf := advance_framed hadv
    have hn : q ∉ touched s.cache (s.pc i) := by
      intro ht
      rw [hr.touched_live rfl ht] at hq
      cases hq
    refine ⟨hf.fields q hn, ?_⟩
    rw [← Bool.not_eq_true, hf.live q, hq]
    exact fun he => by cases he.1
  · intro q
    rw [hr.listed.live q, List.mem_cons, List.mem_append, hr.owned q]
    exact or_congr_right or_comm
  · intro i q hq
    exact ⟨hr.listed.off_list (hr.in_hand rfl hq), fun j hj => hr.single j i q hj hq⟩

/-- A put has its entry in hand while a get has the lock. -/
theorem threads_safe_waiting :
    ∃ s, Trace (Step 10) (Threads.init Bool 10)
      [.call true (.get [97] [98] [] 0), .call false (.put [97] [98] [1, 2, 3])] s ∧
      (∀ i q, q ∈ touched s.cache (s.pc i) → s.cache.live q = true) ∧
      ∀ i, s.pc i ≠ .idle → (∃ b t, StepBy 10 i s b t) ∨
        ∃ j t, (s.pc j).holding = true ∧ StepBy 10 j s none t := by
  have h : Shows (Step 10) (Threads.init Bool 10)
      [.call true (.get [97] [98] [] 0), .call false (.put [97] [98] [1, 2, 3])] := by
    refine .seen ⟨true, .call rfl trivial⟩ ?_
    refine .seen ⟨false, .call rfl (show 3 ≤ 10 by decide)⟩ ?_
    refine .silent ⟨false, .create (p := 1) rfl rfl⟩ ?_
    exact .silent ⟨true, .rdlock rfl (by decide)⟩ (.silent ⟨true, .run rfl⟩ .done)
  obtain ⟨s, hs⟩ := h
  have hsafe := threads_safe (by decide) hs
  exact ⟨s, hs, hsafe.2.1, hsafe.2.2.2.2.2⟩

end Csapp.ProxyCache
