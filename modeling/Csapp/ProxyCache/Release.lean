import Mathlib
import Csapp.ProxyCache.Locking
import Csapp.ProxyCache.Termination

/-!
# The lock is given back

A thread that has taken the lock gives it back after a number of its own steps
that is known when it takes it, whatever the other threads do meanwhile. For a
get the number is the length of the list; for a put it is four times the
visits that the patiences leave to the two loops. Each iteration pays from
this account, and no other thread changes what the account counts.
-/

namespace Csapp.ProxyCache

/-- How many steps a thread that holds the lock still makes before the unlock. -/
inductive Owes (c : Cache) (l : List Ptr) : Pc → Nat → Prop
  | getFirst {uri buf : Str} {n : Nat} : Owes c l (.getFirst uri buf n) (l.length + 4)
  | getLoop {uri buf : Str} {n : Nat} {l₁ l₂ : List Ptr} : l = l₁ ++ l₂ →
      Owes c l (.getLoop uri buf n (l₂.head?.getD head)) (l₂.length + 3)
  | getCopy {buf : Str} {n : Nat} {node : Ptr} : Owes c l (.getCopy buf n node) 2
  | getPatience {buf : Str} {n : Nat} {node : Ptr} : Owes c l (.getPatience buf n node) 1
  | getUnlock {hit : Bool} {buf : Str} {n : Nat} : Owes c l (.getUnlock hit buf n) 0
  | putFirst {p : Ptr} {n : Nat} :
      Owes c l (.putFirst p n) (4 * weight (l.map (itemOf c)) + 4)
  | putWalk {p : Ptr} {n : Nat} {todo kept : List Ptr} : l = todo.reverse ++ kept →
      Owes c l (.putWalk p n (todo.head?.getD head))
        (4 * weight (todo.map (itemOf c)) + 3 * weight (kept.map (itemOf c)) + 3)
  | putWhile {p : Ptr} {n : Nat} : Owes c l (.putWhile p n) (3 * weight (l.map (itemOf c)) + 2)
  | putDrain {p x : Ptr} {n : Nat} {todo : List Ptr} : l = (x :: todo).reverse →
      Owes c l (.putDrain p n x) (3 * weight ((x :: todo).map (itemOf c)) + 1)
  | putDrained {p : Ptr} {n : Nat} :
      Owes c l (.putDrain p n head) (3 * weight (l.map (itemOf c)) + 3)
  | putInsert {p : Ptr} {n : Nat} : Owes c l (.putInsert p n) 1
  | putUnlock {p : Ptr} {found : Option Ptr} : Owes c l (.putUnlock p found) 0

section

variable {c c' : Cache} {hand l : List Ptr} {pc pc' : Pc} {k : Nat}

/-- A step of another thread, when the one that owes is writing. -/
theorem Owes.congr (h : Owes c l pc k) (hi : ∀ q ∈ l, itemOf c' q = itemOf c q) :
    Owes c' l pc k := by
  have hmap : ∀ m : List Ptr, m ⊆ l → m.map (itemOf c) = m.map (itemOf c') := by
    intro m hm
    exact List.map_congr_left fun q hq => (hi q (hm hq)).symm
  cases h with
  | getFirst => exact .getFirst
  | getLoop hl => exact .getLoop hl
  | getCopy => exact .getCopy
  | getPatience => exact .getPatience
  | getUnlock => exact .getUnlock
  | putFirst =>
      rw [hmap l (List.Subset.refl l)]
      exact .putFirst
  | putWalk hl =>
      rw [hmap _ (by simp [hl]), hmap _ (by simp [hl])]
      exact .putWalk hl
  | putWhile =>
      rw [hmap l (List.Subset.refl l)]
      exact .putWhile
  | putDrain hl =>
      rw [hmap _ (by simp [hl])]
      exact .putDrain hl
  | putDrained =>
      rw [hmap l (List.Subset.refl l)]
      exact .putDrained
  | putInsert => exact .putInsert
  | putUnlock => exact .putUnlock

/-- The account of a get does not count patience. -/
theorem Owes.reader (h : Owes c l pc k) (hr : pc.writing = false) : Owes c' l pc k := by
  cases h with
  | getFirst => exact .getFirst
  | getLoop hl => exact .getLoop hl
  | getCopy => exact .getCopy
  | getPatience => exact .getPatience
  | getUnlock => exact .getUnlock
  | _ => cases hr

/-- The step is paid, and the account is again that of the list. -/
def Paid (c' : Cache) (pc' : Pc) (k : Nat) : Prop :=
  ∃ l' k', Ring c'.next c'.prev head l' ∧ head ∉ l' ∧ k' < k ∧ Owes c' l' pc' k'

theorem Listed.paid {l' : List Ptr} {k' : Nat} (h : Listed c' hand l') (hk : k' < k)
    (ho : Owes c' l' pc' k') : Paid c' pc' k :=
  ⟨l', k', h.ring, (List.nodup_cons.mp h.nodup_ring).1, hk, ho⟩

theorem Listed.pays_getLoop {uri buf : Str} {n : Nat} {l₁ l₂ : List Ptr} (h : Listed c hand l)
    (hl : l = l₁ ++ l₂)
    (hadv : advance c (.getLoop uri buf n (l₂.head?.getD head)) = some (c', pc')) :
    Paid c' pc' (l₂.length + 3) := by
  cases l₂ with
  | nil =>
      obtain ⟨rfl, rfl⟩ := Prod.mk.inj (Option.some.inj hadv)
      exact h.paid (Nat.succ_pos _) .getUnlock
  | cons x l₂ =>
      have hne : x ≠ head := fun he =>
        (List.nodup_cons.mp h.nodup_ring).1 (he ▸ (by simp [hl]))
      rw [List.head?_cons, Option.getD_some, advance, if_neg hne] at hadv
      split at hadv
      · obtain ⟨rfl, rfl⟩ := Prod.mk.inj (Option.some.inj hadv)
        exact h.paid (by omega) .getCopy
      · obtain ⟨rfl, rfl⟩ := Prod.mk.inj (Option.some.inj hadv)
        have hr := h.ring
        rw [hl] at hr
        rw [Seg.next_start (seg_append.mp hr).2]
        refine h.paid ?_ (.getLoop (show l = (l₁ ++ [x]) ++ l₂ by simp [hl]))
        rw [List.length_cons]
        omega

theorem Listed.pays_putWalk {p : Ptr} {n : Nat} {todo kept : List Ptr} (h : Listed c hand l)
    (hl : l = todo.reverse ++ kept)
    (hadv : advance c (.putWalk p n (todo.head?.getD head)) = some (c', pc')) :
    Paid c' pc' (4 * weight (todo.map (itemOf c)) + 3 * weight (kept.map (itemOf c)) + 3) := by
  subst hl
  cases todo with
  | nil =>
      obtain ⟨rfl, rfl⟩ := Prod.mk.inj (Option.some.inj hadv)
      refine h.paid ?_ .putWhile
      rw [List.reverse_nil, List.nil_append]
      omega
  | cons x rest =>
      have ha := h.at
      have hw := weight_pos (itemOf c x)
      rw [List.head?_cons, Option.getD_some, advance, if_neg ha.ne_head] at hadv
      rw [List.map_cons, weight_cons]
      split at hadv
      · obtain ⟨rfl, rfl⟩ := Prod.mk.inj (Option.some.inj hadv)
        exact ha.found.listed.paid (by omega) .putUnlock
      dsimp only at hadv
      rw [ha.back] at hadv
      split at hadv
      next hp =>
        obtain ⟨rfl, rfl⟩ := Prod.mk.inj (Option.some.inj hadv)
        have hc : (itemOf c x).promoted.weight + 1 = (itemOf c x).weight := chances_promoted hp
        rw [ha.prev]
        cases rest with
        | nil =>
            refine ha.last.listed.paid ?_ (.putWalk (show _ = [].reverse ++ (x :: kept) from rfl))
            rw [ha.last.items, weight_cons, List.map_nil, weight_nil]
            omega
        | cons y rest =>
            have ho : Owes (cachePromote c x) ((y :: rest ++ [x]).reverse ++ kept)
              (.putWalk p n ((y :: rest ++ [x]).head?.getD head)) _ := .putWalk rfl
            refine ha.promote.paid ?_ ho
            rw [ha.promoted_items, map_itemOf_promote c ha.kept, weight_append, weight_cons,
              weight_nil]
            omega
      next hp =>
        split at hadv
        · obtain ⟨rfl, rfl⟩ := Prod.mk.inj (Option.some.inj hadv)
          rw [ha.prev]
          refine ha.evict.paid ?_ (.putWalk rfl)
          change 4 * weight (rest.map (itemOf c)) + 3 * weight (kept.map (itemOf c)) + 3 < _
          omega
        · obtain ⟨rfl, rfl⟩ := Prod.mk.inj (Option.some.inj hadv)
          rw [ha.prev]
          refine h.paid ?_ (.putWalk (show _ = rest.reverse ++ (x :: kept) by simp))
          rw [List.map_cons, weight_cons]
          omega

theorem Listed.pays_putDrain {p x : Ptr} {n : Nat} {todo : List Ptr} (h : Listed c hand l)
    (hl : l = (x :: todo).reverse) (hadv : advance c (.putDrain p n x) = some (c', pc')) :
    Paid c' pc' (3 * weight ((x :: todo).map (itemOf c)) + 1) := by
  subst hl
  have ha : At c hand x todo [] := h.todo.at
  have hw := weight_pos (itemOf c x)
  rw [advance, if_neg ha.ne_head] at hadv
  dsimp only at hadv
  rw [ha.back, ha.prev] at hadv
  rw [List.map_cons, weight_cons]
  split at hadv
  next hp =>
    obtain ⟨rfl, rfl⟩ := Prod.mk.inj (Option.some.inj hadv)
    have hc : (itemOf c x).promoted.weight + 1 = (itemOf c x).weight := chances_promoted hp
    cases todo with
    | nil =>
        refine ha.last.listed.paid ?_ .putDrained
        rw [ha.last.items, weight_cons, List.map_nil, weight_nil]
        omega
    | cons y todo =>
        refine ha.promote.paid ?_ (.putDrain (show _ = (y :: (todo ++ [x])).reverse from
          List.append_nil _))
        change 3 * weight ((y :: todo ++ [x]).map (itemOf (cachePromote c x))) + 1 < _
        rw [ha.promoted_items, weight_append, weight_cons, weight_nil]
        omega
  next hp =>
    obtain ⟨rfl, rfl⟩ := Prod.mk.inj (Option.some.inj hadv)
    cases todo with
    | nil =>
        refine ha.evict.paid ?_ .putDrained
        change 3 * 0 + 3 < _
        rw [List.map_nil, weight_nil]
        omega
    | cons y todo =>
        refine ha.evict.paid ?_ (.putDrain (List.append_nil _))
        change 3 * weight ((y :: todo).map (itemOf c)) + 1 < _
        omega

end

/-! ## Steps of the thread itself -/

variable {ι : Type}

section

variable {maxsize : Nat} {s : Threads ι} {a c' : Cache} {ph : ι → Phase Op Res}
  {hand l la : List Ptr} {i j : ι} {pc pc' : Pc} {k : Nat}

/-- With nothing listed everything is free, and the object fits. -/
theorem Related.room (h : Related maxsize s a ph hand l la) {p : Ptr} {n : Nat}
    (hpc : s.pc i = .putWhile p n) (hl : l = []) : s.cache.size p ≤ s.cache.freesz := by
  have hk := h.matched i
  generalize hph : ph i = phase at hk
  rw [hpc] at hk
  cases hk with
  | putWhile hi hn hd =>
      have htot := while_total h.atomic hd
      rw [hl, List.map_nil, sizes_nil] at htot
      have hfit : _ ≤ maxsize := h.allowed i _ hph
      rw [hi.size]
      omega

theorem Related.pays (h : Related maxsize s a ph hand l la) (hpc : s.pc i = pc)
    (ho : Owes s.cache l pc k) (hadv : advance s.cache pc = some (c', pc'))
    (hold : pc'.holding = true) : Paid c' pc' k := by
  cases ho with
  | getFirst =>
      obtain ⟨rfl, rfl⟩ := Prod.mk.inj (Option.some.inj hadv)
      rw [Seg.next_start h.listed.ring]
      exact h.listed.paid (by omega) (.getLoop (show l = [] ++ l from rfl))
  | getLoop hl => exact h.listed.pays_getLoop hl hadv
  | getCopy =>
      obtain ⟨rfl, rfl⟩ := Prod.mk.inj (Option.some.inj hadv)
      exact h.listed.paid (by omega) .getPatience
  | getPatience =>
      obtain ⟨rfl, rfl⟩ := Prod.mk.inj (Option.some.inj hadv)
      exact (h.listed.setPatience _ _).paid (by omega) .getUnlock
  | putFirst =>
      obtain ⟨rfl, rfl⟩ := Prod.mk.inj (Option.some.inj hadv)
      rw [h.listed.last]
      refine h.listed.paid ?_ (.putWalk (show l = l.reverse.reverse ++ [] by simp))
      rw [List.map_reverse, weight_reverse, List.map_nil, weight_nil]
      omega
  | putWalk hl => exact h.listed.pays_putWalk hl hadv
  | putWhile =>
      rw [advance] at hadv
      split at hadv
      next hz =>
        obtain ⟨rfl, rfl⟩ := Prod.mk.inj (Option.some.inj hadv)
        cases hr : l.reverse with
        | nil => exact absurd hz (Nat.not_lt.mpr (h.room hpc (List.reverse_eq_nil_iff.mp hr)))
        | cons x todo =>
            have hl : l = (x :: todo).reverse := by rw [← hr, List.reverse_reverse]
            have hx : s.cache.prev head = x := by
              rw [h.listed.last, hr]
              rfl
            rw [hx]
            refine h.listed.paid ?_ (.putDrain hl)
            rw [← hr, List.map_reverse, weight_reverse]
            omega
      next =>
        obtain ⟨rfl, rfl⟩ := Prod.mk.inj (Option.some.inj hadv)
        exact h.listed.paid (by omega) .putInsert
  | putDrain hl => exact h.listed.pays_putDrain hl hadv
  | putDrained =>
      rw [advance, if_pos rfl] at hadv
      obtain ⟨rfl, rfl⟩ := Prod.mk.inj (Option.some.inj hadv)
      exact h.listed.paid (by omega) .putWhile
  | putInsert =>
      obtain ⟨rfl, rfl⟩ := Prod.mk.inj (Option.some.inj hadv)
      exact (h.listed.subFree.insert_hand (h.in_hand hpc rfl)).paid (by omega) .putUnlock
  | getUnlock =>
      obtain ⟨rfl, rfl⟩ := Prod.mk.inj (Option.some.inj hadv)
      cases hold
  | putUnlock =>
      rename_i found
      cases found <;>
        · obtain ⟨rfl, rfl⟩ := Prod.mk.inj (Option.some.inj hadv)
          cases hold

/-! ## Steps of the others -/

theorem advance_outside {c : Cache} (hn : pc.holding = false)
    (hadv : advance c pc = some (c', pc')) :
    c'.next = c.next ∧ c'.prev = c.prev ∧ ∀ q, itemOf c' q = itemOf c q := by
  cases pc with
  | putDestroy p =>
      obtain ⟨rfl, rfl⟩ := Prod.mk.inj (Option.some.inj hadv)
      exact ⟨rfl, rfl, fun _ => rfl⟩
  | idle | getRdlock | putCreate | putWrlock | ret => cases hadv
  | _ => cases hn

/-- A thread that does not write changes a patience at most. -/
theorem advance_reading {c : Cache} (hn : pc.writing = false)
    (hadv : advance c pc = some (c', pc')) : c'.next = c.next ∧ c'.prev = c.prev := by
  cases pc with
  | getLoop uri buf n node =>
      rw [advance] at hadv
      split at hadv
      · obtain ⟨rfl, rfl⟩ := Prod.mk.inj (Option.some.inj hadv)
        exact ⟨rfl, rfl⟩
      · split at hadv <;>
          · obtain ⟨rfl, rfl⟩ := Prod.mk.inj (Option.some.inj hadv)
            exact ⟨rfl, rfl⟩
  | getFirst | getCopy | getPatience | getUnlock | putDestroy =>
      obtain ⟨rfl, rfl⟩ := Prod.mk.inj (Option.some.inj hadv)
      exact ⟨rfl, rfl⟩
  | idle | getRdlock | putCreate | putWrlock | ret => cases hadv
  | _ => cases hn

variable [DecidableEq ι]

/-- While a thread holds the lock, the others leave the list as it is, and its account. -/
theorem Related.waits {t : Threads ι} {b : Option (CallEvent ι Op Res)}
    (h : Related maxsize s a ph hand l la) (hi : (s.pc i).holding = true) (hj : j ≠ i)
    (ho : Owes s.cache l (s.pc i) k) (hs : StepBy maxsize j s b t) :
    Ring t.cache.next t.cache.prev head l ∧ Owes t.cache l (t.pc i) k := by
  have hpc : ∀ c pc, (s.goto j c pc).pc i = s.pc i := fun _ _ => Function.update_of_ne hj.symm ..
  cases hs with
  | call => exact ⟨h.listed.ring, hpc .. ▸ ho⟩
  | create hc hp =>
      refine ⟨h.listed.ring, hpc .. ▸ ho.congr ?_⟩
      intro q hq
      refine itemOf_entryCreate_ne _ _ _ _ ?_
      intro he
      have hlive := h.listed.live_ring (List.mem_cons_of_mem head hq)
      rw [he, hp] at hlive
      cases hlive
  | rdlock => exact ⟨h.listed.ring, hpc .. ▸ ho⟩
  | wrlock => exact ⟨h.listed.ring, hpc .. ▸ ho⟩
  | run hadv =>
      have hr := advance_reading (h.others_read hi j hj) hadv
      have hring := h.listed.ring
      rw [← hr.1, ← hr.2] at hring
      refine ⟨hring, ?_⟩
      rw [hpc]
      cases hw : (s.pc i).writing with
      | true => exact ho.congr fun q _ => (advance_outside (h.others_idle hw j hj) hadv).2.2 q
      | false => exact ho.reader hw
  | ret => exact ⟨h.listed.ring, hpc .. ▸ ho⟩

end

/-! ## Until the unlock -/

variable [DecidableEq ι]

/-- Runs in which thread `i` holds the lock and makes `k` steps. -/
inductive Held (maxsize : Nat) (i : ι) : Nat → Threads ι → Threads ι → Prop
  | here {s : Threads ι} : Held maxsize i 0 s s
  | own {s t u : Threads ι} {b : Option (CallEvent ι Op Res)} {k : Nat} : StepBy maxsize i s b t →
      (t.pc i).holding = true → Held maxsize i k t u → Held maxsize i (k + 1) s u
  | other {s t u : Threads ι} {b : Option (CallEvent ι Op Res)} {k : Nat} {j : ι} : j ≠ i →
      StepBy maxsize j s b t → Held maxsize i k t u → Held maxsize i k s u

/-- A thread with the lock does not wait for anything. -/
theorem StepBy.runs {maxsize : Nat} {i : ι} {s t : Threads ι}
    {b : Option (CallEvent ι Op Res)} (h : StepBy maxsize i s b t)
    (hi : (s.pc i).holding = true) :
    ∃ c pc, advance s.cache (s.pc i) = some (c, pc) ∧ t = s.goto i c pc := by
  cases h with
  | run hadv => exact ⟨_, _, hadv, rfl⟩
  | call hpc _ | create hpc _ | rdlock hpc _ | wrlock hpc _ | ret hpc =>
      rw [hpc] at hi
      cases hi

theorem StepBy.others {maxsize : Nat} {i j : ι} {s t : Threads ι}
    {b : Option (CallEvent ι Op Res)} (h : StepBy maxsize j s b t) (hj : j ≠ i) :
    t.pc i = s.pc i := by
  cases h <;> exact Function.update_of_ne hj.symm ..

theorem Held.bounded {maxsize k : Nat} {i : ι} {s t : Threads ι}
    (hm : maxsize < 18446744073709551616) (hr : Held maxsize i k s t) :
    (s.pc i).holding = true → ∀ {x : Cache × (ι → Phase Op Res)} {hand l la : List Ptr},
      Related maxsize s x.1 x.2 hand l la → ∀ {n : Nat}, Owes s.cache l (s.pc i) n → k ≤ n := by
  induction hr with
  | here => exact fun _ _ _ _ _ _ n _ => Nat.zero_le n
  | own hs ht _ ih =>
      intro hi x hand l la h n ho
      obtain ⟨y, -, hand', l', la', h'⟩ := simulates hm _ x _ _ ⟨hand, l, la, h⟩ ⟨i, hs⟩
      obtain ⟨c, pc, hadv, rfl⟩ := hs.runs hi
      rename_i s _ _ _ _
      have hself : (s.goto i c pc).pc i = pc := Function.update_self ..
      rw [hself] at ht ih
      obtain ⟨m, n', hring, hhead, hlt, hpaid⟩ : Paid c pc n := h.pays rfl ho hadv ht
      have hl : m = l' := hring.unique hhead h'.listed.ring
        (List.nodup_cons.mp h'.listed.nodup_ring).1
      exact Nat.lt_of_le_of_lt (ih ht h' (hl ▸ hpaid)) hlt
  | other hj hs _ ih =>
      intro hi x hand l la h n ho
      obtain ⟨y, -, hand', l', la', h'⟩ := simulates hm _ x _ _ ⟨hand, l, la, h⟩ ⟨_, hs⟩
      obtain ⟨hring, how⟩ := h.waits hi hj ho hs
      have hl : l = l' := hring.unique (List.nodup_cons.mp h.listed.nodup_ring).1 h'.listed.ring
        (List.nodup_cons.mp h'.listed.nodup_ring).1
      exact ih ((hs.others hj).symm ▸ hi) h' (hl ▸ how)

/-- A thread that has taken the lock gives it back after so many of its own steps, in
whatever order the threads go on: a get after as many as there are entries, a put after
as many visits as the patiences leave to its loops. -/
theorem lock_released {maxsize : Nat} (hm : maxsize < 18446744073709551616)
    {tr : List (CallEvent ι Op Res)} {s : Threads ι}
    (h : Trace (Step maxsize) (Threads.init ι maxsize) tr s) (i : ι) :
    ∃ l, Ring s.cache.next s.cache.prev head l ∧ head ∉ l ∧
      (∀ uri buf n, s.pc i = .getFirst uri buf n →
        ∀ k t, Held maxsize i k s t → k ≤ l.length + 4) ∧
      ∀ p n, s.pc i = .putFirst p n → ∀ k t, Held maxsize i k s t →
        k ≤ 4 * (l.map fun q => visits (s.cache.patience q)).sum + 4 := by
  obtain ⟨x, -, hand, l, la, hr⟩ := (simulates hm).trace (Linearized.init ι maxsize) h
  refine ⟨l, hr.listed.ring, (List.nodup_cons.mp hr.listed.nodup_ring).1, ?_, ?_⟩
  · intro uri buf n hpc k t hk
    exact hk.bounded hm (hpc ▸ rfl) hr (hpc ▸ .getFirst)
  · intro p n hpc k t hk
    rw [← weight_items]
    exact hk.bounded hm (hpc ▸ rfl) hr (hpc ▸ .putFirst)

/-- The lock is taken for a put that will evict the entry of another thread. -/
theorem lock_released_put : ∃ s, Trace (Step 10) (Threads.init Bool 10)
      [.call false (.put [97] [98] [1, 2, 3]), .ret false .put,
        .call true (.put [97] [99] [1, 2, 3, 4, 5, 6, 7, 8])] s ∧
    s.pc true = .putFirst 2 8 ∧ Ring s.cache.next s.cache.prev head [1] ∧
    ∀ k t, Held 10 true k s t → k ≤ 8 := by
  obtain ⟨s, h, hpc, hring, hpat⟩ : ∃ s, Trace (Step 10) (Threads.init Bool 10)
      [.call false (.put [97] [98] [1, 2, 3]), .ret false .put,
        .call true (.put [97] [99] [1, 2, 3, 4, 5, 6, 7, 8])] s ∧
      s.pc true = .putFirst 2 8 ∧ Ring s.cache.next s.cache.prev head [1] ∧
      s.cache.patience 1 = 3 := by
    apply Exists.intro
    apply And.intro
    · exact .seen ⟨false, .call rfl (show 3 ≤ 10 by decide)⟩ <|
        .silent ⟨false, .create (p := 1) rfl rfl⟩ <| .silent ⟨false, .wrlock rfl (by decide)⟩ <|
        .silent ⟨false, .run rfl⟩ <| .silent ⟨false, .run rfl⟩ <| .silent ⟨false, .run rfl⟩ <|
        .silent ⟨false, .run rfl⟩ <| .silent ⟨false, .run rfl⟩ <| .seen ⟨false, .ret rfl⟩ <|
        .seen ⟨true, .call rfl (show 8 ≤ 10 by decide)⟩ <|
        .silent ⟨true, .create (p := 2) rfl rfl⟩ <|
        .silent ⟨true, .wrlock rfl (by decide)⟩ .done
    · exact ⟨rfl, ⟨rfl, rfl, rfl, rfl⟩, rfl⟩
  obtain ⟨l, hl, hnot, -, hput⟩ := lock_released (by decide) h true
  refine ⟨s, h, hpc, hring, fun k t hk => ?_⟩
  have hl : l = [1] := hl.unique hnot hring (by decide)
  have hle := hput 2 8 hpc k t hk
  rw [hl] at hle
  simpa [hpat, visits] using hle

end Csapp.ProxyCache
