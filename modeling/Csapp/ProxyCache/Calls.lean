import Mathlib
import Csapp.ProxyCache.Walk

/-!
# The calls on the list of entries

`cache_put` on the links is `putItems` on the list of entries, and `cache_get`
looks for the first entry of a name. Both return, with fuel beyond the weight of
the list; and as more fuel never changes an answer, what holds with enough fuel
holds of every answer.
-/

namespace Csapp.ProxyCache

/-- The entries of the list, the newest first, and the free space. -/
structure Holds (c : Cache) (free : Nat) (items : List Item) (l : List Ptr) : Prop where
  listed : Listed c [] l
  items : l.map (itemOf c) = items
  free : c.freesz = free

/-- `cache_put` of the entry `x`. -/
def putItems (free : Nat) (items : List Item) (x : Item) : Nat × List Item :=
  match (sweep x.uri x.size free items.reverse []).found with
  | some _ =>
    ((sweep x.uri x.size free items.reverse []).free,
      (sweep x.uri x.size free items.reverse []).items)
  | none =>
    let s := sweep x.uri x.size free items.reverse []
    let d := drainedAll x.size s.free s.items.reverse
    (d.1 - x.size, x :: d.2.reverse)

/-! ## More fuel -/

theorem walk_succ {pending : Ptr} {fuel : Nat} {c : Cache} {node : Ptr}
    {r : Cache × Option Ptr} (h : walk pending fuel c node = some r) :
    walk pending (fuel + 1) c node = some r := by
  induction fuel generalizing c node with
  | zero => cases h
  | succ fuel ih =>
    rw [walk] at h ⊢
    dsimp only at h ⊢
    split at h
    next hn =>
      rw [if_pos hn]
      exact h
    next hn =>
      rw [if_neg hn]
      split at h
      next hu =>
        rw [if_pos hu]
        exact h
      next hu =>
        rw [if_neg hu]
        split at h
        next hp =>
          rw [if_pos hp]
          exact ih h
        next hp =>
          rw [if_neg hp]
          split at h
          next hs =>
            rw [if_pos hs]
            exact ih h
          next hs =>
            rw [if_neg hs]
            exact ih h

theorem drain_succ {fuel : Nat} {c c' : Cache} {node : Ptr} (h : drain fuel c node = some c') :
    drain (fuel + 1) c node = some c' := by
  induction fuel generalizing c node with
  | zero => cases h
  | succ fuel ih =>
    rw [drain] at h ⊢
    dsimp only at h ⊢
    split at h
    next hn =>
      rw [if_pos hn]
      exact h
    next hn =>
      rw [if_neg hn]
      split at h
      next hp =>
        rw [if_pos hp]
        exact ih h
      next hp =>
        rw [if_neg hp]
        exact ih h

theorem drainWhile_succ {pending : Ptr} {fuel : Nat} {c c' : Cache}
    (h : drainWhile pending fuel c = some c') : drainWhile pending (fuel + 1) c = some c' := by
  induction fuel generalizing c with
  | zero => cases h
  | succ fuel ih =>
    rw [drainWhile] at h ⊢
    split at h
    next hs =>
      rw [if_pos hs]
      cases hd : drain fuel c (c.prev head) with
      | none =>
        rw [hd] at h
        cases h
      | some c₁ =>
        rw [hd] at h
        rw [drain_succ hd]
        exact ih h
    next hs =>
      rw [if_neg hs]
      exact h

theorem lookup_succ {uri : Str} {fuel : Nat} {c : Cache} {node p : Ptr}
    (h : lookup uri fuel c node = some p) : lookup uri (fuel + 1) c node = some p := by
  induction fuel generalizing node with
  | zero => cases h
  | succ fuel ih =>
    rw [lookup] at h ⊢
    split at h
    next hn =>
      rw [if_pos hn]
      exact h
    next hn =>
      rw [if_neg hn]
      split at h
      next hu =>
        rw [if_pos hu]
        exact h
      next hu =>
        rw [if_neg hu]
        exact ih h

theorem cachePut_succ {fuel : Nat} {c c' : Cache} {p : Ptr} {host loc buf : Str}
    (h : cachePut fuel c p host loc buf = some c') :
    cachePut (fuel + 1) c p host loc buf = some c' := by
  unfold cachePut cacheBookkeeping at h ⊢
  cases hw : walk p fuel (entryCreate c p host loc buf)
      ((entryCreate c p host loc buf).prev head) with
  | none => simp [hw] at h
  | some r =>
    cases r with
    | mk c₁ found =>
      cases found with
      | some q => simpa [hw, walk_succ hw] using h
      | none =>
        cases hd : drainWhile p fuel c₁ with
        | none => simp [hw, hd] at h
        | some c₂ => simpa [hw, walk_succ hw, hd, drainWhile_succ hd] using h

/-- More fuel, the same answer. -/
theorem more_fuel {α : Type} {f : Nat → Option α} (hs : ∀ n r, f n = some r → f (n + 1) = some r)
    {m n : Nat} {r : α} (hm : f m = some r) (hmn : m ≤ n) : f n = some r := by
  induction hmn with
  | refl => exact hm
  | step _ ih => exact hs _ _ ih

/-- Answers do not depend on the fuel. -/
theorem same_answer {α : Type} {f : Nat → Option α}
    (hs : ∀ n r, f n = some r → f (n + 1) = some r) {m n : Nat} {r r' : α} (hm : f m = some r)
    (hn : f n = some r') : r = r' := by
  have h1 := more_fuel hs hm (Nat.le_max_left m n)
  have h2 := more_fuel hs hn (Nat.le_max_right m n)
  exact Option.some.inj (h1.symm.trans h2)

/-! ## `cache_get` -/

theorem lookup_seg {uri : Str} {c : Cache} {x : Ptr} {l : List Ptr} {fuel : Nat}
    (h : Seg c.next c.prev x l head) (hn : head ∉ l) (hf : l.length < fuel) :
    lookup uri fuel c (c.next x) = some ((l.find? fun p => c.uri p = uri).getD head) := by
  induction fuel generalizing x l with
  | zero => exact absurd hf (Nat.not_lt_zero _)
  | succ fuel ih =>
    cases l with
    | nil =>
      rw [lookup, if_pos h.1]
      rfl
    | cons y l =>
      have hne : y ≠ head := fun he => hn (he ▸ List.mem_cons_self)
      rw [lookup, h.1, if_neg hne]
      by_cases hu : c.uri y = uri
      · simp [hu]
      · rw [if_neg hu, ih h.2.2 (fun hm => hn (List.mem_cons_of_mem _ hm))
          (Nat.lt_of_succ_lt_succ hf)]
        simp [hu]

theorem Holds.lookup {c : Cache} {free : Nat} {items : List Item} {l : List Ptr} {uri : Str}
    (h : Holds c free items l) : ∃ fuel, lookup uri fuel c (c.next head) =
      some ((l.find? fun p => c.uri p = uri).getD head) :=
  ⟨l.length + 1, lookup_seg h.listed.ring (List.nodup_cons.mp h.listed.nodup_ring).1
    (Nat.lt_succ_self _)⟩

/-! ## `cache_put` -/

/-- The entry that `entry_create` makes. -/
def created (p : Ptr) (host loc buf : Str) : Item :=
  ⟨p, defaultPatience, uriGen host loc, buf, buf.length⟩

theorem itemOf_entryCreate_self (c : Cache) (p : Ptr) (host loc buf : Str) :
    itemOf (entryCreate c p host loc buf) p = created p host loc buf := by
  simp [itemOf, entryCreate, created]

theorem itemOf_entryCreate_ne (c : Cache) {p q : Ptr} (host loc buf : Str) (h : q ≠ p) :
    itemOf (entryCreate c p host loc buf) q = itemOf c q := by
  simp [itemOf, entryCreate, h]

theorem Holds.fresh {c : Cache} {free : Nat} {items : List Item} {l : List Ptr} {p : Ptr}
    (h : Holds c free items l) (hp : c.live p = false) : p ∉ head :: l := by
  intro hm
  have hl := (h.listed.live p).mpr hm
  simp [hp] at hl

/-- With the new entry in hand. -/
theorem Holds.create {c : Cache} {free : Nat} {items : List Item} {l : List Ptr} {p : Ptr}
    (h : Holds c free items l) (hp : c.live p = false) (host loc buf : Str) :
    Listed (entryCreate c p host loc buf) [p] l ∧
      l.map (itemOf (entryCreate c p host loc buf)) = items := by
  have hf := h.fresh hp
  have hnd := h.listed.nodup_ring
  rw [List.mem_cons, not_or] at hf
  rw [List.nodup_cons] at hnd
  refine ⟨⟨h.listed.ring, ?_, ?_⟩, ?_⟩
  · simp [hnd.1, hnd.2, hf.2, Ne.symm hf.1]
  · intro q
    have hl := h.listed.live q
    change Function.update c.live p true q = true ↔ _
    by_cases hq : q = p
    · simp [hq]
    · rw [Function.update_of_ne hq, hl]
      simp [hq]
  · rw [← h.items]
    refine List.map_congr_left ?_
    intro q hq
    exact itemOf_entryCreate_ne c host loc buf fun he => hf.2 (he ▸ hq)

/-- Behind the loops the entry in hand is as it was. -/
theorem Left.in_hand {c c' : Cache} {p : Ptr} {l : List Ptr} {free : Nat} {items : List Item}
    (h : Left c c' [p] l free items) : itemOf c' p = itemOf c p := by
  have hp := h.hand p List.mem_cons_self
  unfold itemOf
  rw [hp, h.uri, h.data, h.size]

theorem Listed.drop_hand {c : Cache} {p : Ptr} {l : List Ptr} (h : Listed c [p] l) :
    Listed (c.free p) [] l where
  ring := h.ring
  nodup := h.nodup_ring
  live q := by
    have hl := h.live q
    have hnd := h.nodup
    change Function.update c.live p false q = true ↔ _
    by_cases hq : q = p
    · simp at hnd
      simp [hq, hnd.2.1, Ne.symm hnd.1.1]
    · rw [Function.update_of_ne hq, hl]
      simp [hq]

theorem subFree_eq (c : Cache) (n : Nat) : ∃ k, c.subFree n = { c with freesz := k } := ⟨_, rfl⟩

theorem Listed.subFree {c : Cache} {hand l : List Ptr} {n : Nat} (h : Listed c hand l) :
    Listed (c.subFree n) hand l := by
  cases subFree_eq c n with
  | intro k hk =>
    rw [hk]
    exact ⟨h.ring, h.nodup, h.live⟩

theorem cacheInsert_free (c : Cache) (p : Ptr) : (cacheInsert c p).freesz = c.freesz := rfl

theorem itemOf_insert (c : Cache) (p : Ptr) : itemOf (cacheInsert c p) = itemOf c := rfl

theorem itemOf_subFree (c : Cache) (n : Nat) : itemOf (c.subFree n) = itemOf c := by
  cases subFree_eq c n with
  | intro k hk =>
    rw [hk]
    rfl

theorem subFree_of_le {c : Cache} {n : Nat} (h : n ≤ c.freesz)
    (hb : c.freesz < 18446744073709551616) : (c.subFree n).freesz = c.freesz - n := by
  unfold Cache.subFree
  dsimp only
  omega

/-- A put starts at the last entry, with the entry for its name in hand. -/
theorem Holds.start {c : Cache} {free : Nat} {items : List Item} {l : List Ptr} {p : Ptr}
    (h : Holds c free items l) (hp : c.live p = false) (host loc buf : Str) :
    Listed (entryCreate c p host loc buf) [p] (l.reverse.reverse ++ []) ∧
      l.reverse.map (itemOf (entryCreate c p host loc buf)) = items.reverse ∧
      (entryCreate c p host loc buf).uri p = uriGen host loc ∧
      (entryCreate c p host loc buf).size p = buf.length ∧
      c.prev head = l.reverse.head?.getD head := by
  have hc := h.create hp host loc buf
  have hx := itemOf_entryCreate_self c p host loc buf
  refine ⟨?_, ?_, congrArg Item.uri hx, congrArg Item.size hx, hc.1.last⟩
  · rw [List.reverse_reverse, List.append_nil]
    exact hc.1
  · rw [List.map_reverse, hc.2]

/-- The first loop of a put. -/
theorem Holds.walk_entry {c : Cache} {free : Nat} {items : List Item} {l : List Ptr} {p : Ptr}
    {host loc buf : Str} {fuel : Nat} (h : Holds c free items l) (hp : c.live p = false)
    (hb : free + sizes items < 18446744073709551616) (hf : weight items < fuel) :
    ∃ c₁ l₁, walk p fuel (entryCreate c p host loc buf) (c.prev head) =
        some (c₁, (sweep (uriGen host loc) buf.length free items.reverse []).found) ∧
      Left (entryCreate c p host loc buf) c₁ [p] l₁
        (sweep (uriGen host loc) buf.length free items.reverse []).free
        (sweep (uriGen host loc) buf.length free items.reverse []).items := by
  obtain ⟨hl, hr, hu, hz, hlast⟩ := h.start hp host loc buf
  have hfree : (entryCreate c p host loc buf).freesz = free := h.free
  have hw : ∃ c₁ l₁, walk p fuel _ _ = some (c₁, _) ∧ Left _ c₁ [p] l₁ _ _ :=
    walk_sweep hl
      (by
        rw [hr, hfree, sizes_reverse]
        exact hb)
      (by
        rw [hr, weight_reverse]
        exact hf)
  rw [← hlast, hr, hu, hz, hfree, List.map_nil] at hw
  exact hw

/-- The second loop, where the first has found nothing. -/
theorem Left.drain_entry {c c₁ : Cache} {p : Ptr} {l : List Ptr} {host loc buf : Str}
    {free fuel : Nat} {items : List Item}
    (h : Left (entryCreate c p host loc buf) c₁ [p] l free items)
    (hb : free + sizes items < 18446744073709551616) (hs : buf.length ≤ free + sizes items)
    (hf : weight items + 1 < fuel) :
    ∃ c₂ l₂, drainWhile p fuel c₁ = some c₂ ∧
      Left c₁ c₂ [p] l₂ (drainedAll buf.length free items.reverse).1
        (drainedAll buf.length free items.reverse).2.reverse := by
  have hsz : c₁.size p = buf.length :=
    congrArg Item.size (h.in_hand.trans (itemOf_entryCreate_self c p host loc buf))
  have hd : ∃ c₂ l₂, drainWhile p fuel c₁ = some c₂ ∧ Left c₁ c₂ [p] l₂ _ _ :=
    drainWhile_drainedAll h.listed
      (by
        rw [h.items, h.free]
        exact hb)
      (by
        rw [h.items, h.free, hsz]
        exact hs)
      (by
        rw [h.items]
        exact hf)
  rw [h.items, h.free, hsz] at hd
  exact hd

theorem cachePut_items {c : Cache} {free : Nat} {items : List Item} {l : List Ptr} {p : Ptr}
    {host loc buf : Str} (h : Holds c free items l) (hp : c.live p = false)
    (hb : free + sizes items < 18446744073709551616)
    (hs : buf.length ≤ free + sizes items) :
    ∃ fuel c' l', cachePut fuel c p host loc buf = some c' ∧
      Holds c' (putItems free items (created p host loc buf)).1
        (putItems free items (created p host loc buf)).2 l' := by
  have ht := sweep_total (uriGen host loc) buf.length free items.reverse []
  rw [sizes_reverse, sizes_nil, Nat.add_zero] at ht
  have hlast : (entryCreate c p host loc buf).prev head = c.prev head := rfl
  obtain ⟨c₁, l₁, hw, hleft⟩ : ∃ c₁ l₁, walk p (weight items + 1)
      (entryCreate c p host loc buf) _ = _ ∧ Left _ c₁ [p] l₁ _ _ :=
    h.walk_entry hp hb (Nat.lt_succ_self _)
  cases hf : (sweep (uriGen host loc) buf.length free items.reverse []).found with
  | some q =>
    -- the name is there already: the new entry is destroyed
    refine ⟨weight items + 1, c₁.free p, l₁, ?_, ?_⟩
    · unfold cachePut cacheBookkeeping
      simp [hlast, hw, hf]
    · unfold putItems created
      rw [hf]
      exact ⟨hleft.listed.drop_hand, hleft.items, hleft.free⟩
  | none =>
    obtain ⟨n, hn⟩ : ∃ n, weight
        (sweep (uriGen host loc) buf.length free items.reverse []).items + 1 < n :=
      ⟨_, Nat.lt_succ_self _⟩
    obtain ⟨c₂, l₂, hd, hleft₂⟩ := hleft.drain_entry (ht ▸ hb) (ht ▸ hs) hn
    have hin : itemOf c₂ p = created p host loc buf :=
      hleft₂.in_hand.trans (hleft.in_hand.trans (itemOf_entryCreate_self c p host loc buf))
    have he : buf.length ≤ (drainedAll buf.length
        (sweep (uriGen host loc) buf.length free items.reverse []).free
        (sweep (uriGen host loc) buf.length free items.reverse []).items.reverse).1 := by
      refine drainedAll_enough ?_
      rw [sizes_reverse, ht]
      exact hs
    have hdt := drainedAll_total buf.length
      (sweep (uriGen host loc) buf.length free items.reverse []).free
      (sweep (uriGen host loc) buf.length free items.reverse []).items.reverse
    have h₁ := more_fuel (f := fun n => walk p n (entryCreate c p host loc buf) (c.prev head))
      (fun _ _ => walk_succ) hw (Nat.le_max_left (weight items + 1) n)
    have h₂ := more_fuel (f := fun n => drainWhile p n c₁) (fun _ _ => drainWhile_succ) hd
      (Nat.le_max_right (weight items + 1) n)
    have hle : buf.length ≤ c₂.freesz := by
      rw [hleft₂.free]
      exact he
    have hlt : c₂.freesz < 18446744073709551616 := by
      rw [sizes_reverse] at hdt
      rw [hleft₂.free]
      exact lt_of_le_of_lt ((Nat.le_add_right _ _).trans (hdt.trans ht).le) hb
    refine ⟨max (weight items + 1) n, cacheInsert (c₂.subFree buf.length) p, p :: l₂, ?_, ?_⟩
    · unfold cachePut cacheBookkeeping
      dsimp only
      rw [hlast, h₁, hf]
      dsimp only
      rw [h₂]
    · unfold putItems created
      rw [hf]
      refine ⟨hleft₂.listed.subFree.insert, ?_, ?_⟩
      · rw [itemOf_insert, itemOf_subFree, List.map_cons, hin, hleft₂.items]
        rfl
      · have hsub : (c₂.subFree buf.length).freesz = c₂.freesz - buf.length :=
          subFree_of_le hle hlt
        rw [cacheInsert_free, hsub, hleft₂.free]

end Csapp.ProxyCache
