import Mathlib
import Csapp.ProxyCache.Sweep

/-!
# The loops of `cache_bookkeeping` do what the queue does

Each iteration of a loop is one step of the queue, on links that still form a
ring; fuel beyond the weight of the queue is never used up. The name, data and
size fields change in no iteration.
-/

namespace Csapp.ProxyCache

/-- The entry at `p`, as an item. -/
def itemOf (c : Cache) (p : Ptr) : Item := ⟨p, c.patience p, c.uri p, c.data p, c.size p⟩

theorem itemOf_promote_self (c : Cache) (n : Ptr) :
    itemOf (cachePromote c n) n = (itemOf c n).promoted := by
  change (⟨n, Function.update c.patience n (c.patience n + defaultPatience) n, _, _, _⟩ : Item) = _
  rw [Function.update_self]
  rfl

theorem itemOf_promote_ne (c : Cache) {n p : Ptr} (h : p ≠ n) :
    itemOf (cachePromote c n) p = itemOf c p := by
  change (⟨p, Function.update c.patience n (c.patience n + defaultPatience) p, _, _, _⟩ : Item) = _
  rw [Function.update_of_ne h]
  rfl

theorem map_itemOf_promote (c : Cache) {n : Ptr} {l : List Ptr} (h : n ∉ l) :
    l.map (itemOf (cachePromote c n)) = l.map (itemOf c) := by
  refine List.map_congr_left ?_
  intro p hp
  exact itemOf_promote_ne c fun he => h (he ▸ hp)

/-- What a loop leaves behind. -/
structure Left (c c' : Cache) (hand l : List Ptr) (free : Nat) (items : List Item) : Prop where
  listed : Listed c' hand l
  items : l.map (itemOf c') = items
  free : c'.freesz = free
  uri : c'.uri = c.uri
  data : c'.data = c.data
  size : c'.size = c.size
  hand : ∀ p ∈ hand, c'.patience p = c.patience p

/-- Behind a promotion or an eviction of `x`. -/
theorem Left.behind {c c₁ c' : Cache} {hand l : List Ptr} {free : Nat} {items : List Item}
    {x : Ptr} {v : Int} (h : Left c₁ c' hand l free items) (hu : c₁.uri = c.uri)
    (hd : c₁.data = c.data) (hs : c₁.size = c.size)
    (hp : c₁.patience = Function.update c.patience x v) (hx : ∀ p ∈ hand, p ≠ x) :
    Left c c' hand l free items where
  listed := h.listed
  items := h.items
  free := h.free
  uri := h.uri.trans hu
  data := h.data.trans hd
  size := h.size.trans hs
  hand := by
    intro p hm
    rw [h.hand p hm, hp, Function.update_of_ne (hx p hm)]

/-- Where the walk stands: `x` is at hand, `rest` is to be visited after it. -/
structure At (c : Cache) (hand : List Ptr) (x : Ptr) (rest kept : List Ptr) : Prop where
  listed : Listed c hand (rest.reverse ++ x :: kept)
  ne_head : x ≠ head
  prev : c.prev x = rest.head?.getD head
  back : c.next (c.prev x) = x
  rest : x ∉ rest
  kept : x ∉ kept
  hand : ∀ p ∈ hand, p ≠ x

theorem Listed.at {c : Cache} {hand : List Ptr} {x : Ptr} {rest kept : List Ptr}
    (h : Listed c hand ((x :: rest).reverse ++ kept)) : At c hand x rest kept := by
  rw [List.reverse_cons, List.append_assoc, List.cons_append, List.nil_append] at h
  have hnd := h.nodup
  have hx : x ∈ head :: (rest.reverse ++ x :: kept) := by simp
  simp only [List.nodup_cons, List.nodup_append, List.mem_append, List.mem_cons,
    List.mem_reverse] at hnd
  refine ⟨h, ?_, ?_, (h.ring.prev hx).2, ?_, ?_, ?_⟩
  · intro he
    exact hnd.1 (.inr (.inr (.inl he.symm)))
  · rw [(seg_append.mp h.ring).1.prev_end, List.getLast?_reverse]
  · intro hm
    exact hnd.2.2.1.2.2 x hm x (.inl rfl) rfl
  · exact hnd.2.2.1.2.1.1
  · intro p hp he
    exact hnd.2.2.2 p hp x (.inr (.inl rfl)) he

theorem At.promote {c : Cache} {hand : List Ptr} {x : Ptr} {rest kept : List Ptr}
    (h : At c hand x rest kept) :
    Listed (cachePromote c x) hand ((rest ++ [x]).reverse ++ kept) := by
  rw [List.reverse_append, List.reverse_singleton, List.append_assoc]
  exact h.listed.promote

theorem At.evict {c : Cache} {hand : List Ptr} {x : Ptr} {rest kept : List Ptr}
    (h : At c hand x rest kept) : Listed (cacheEvict c x) hand (rest.reverse ++ kept) :=
  h.listed.evict

theorem At.promoted_items {c : Cache} {hand : List Ptr} {x : Ptr} {rest kept : List Ptr}
    (h : At c hand x rest kept) :
    (rest ++ [x]).map (itemOf (cachePromote c x)) =
      rest.map (itemOf c) ++ [(itemOf c x).promoted] := by
  rw [List.map_append, map_itemOf_promote c h.rest]
  exact congrArg (_ ++ ·) (congrArg (fun y => [y]) (itemOf_promote_self c x))

theorem cacheEvict_free {c : Cache} {x : Ptr} (h : c.freesz + c.size x < 18446744073709551616) :
    (cacheEvict c x).freesz = c.freesz + c.size x := Nat.mod_eq_of_lt h

/-! ## The first loop -/

section

variable {pending node : Ptr} {fuel : Nat} {c : Cache}

theorem walk_found (hn : node ≠ head) (hu : c.uri node = c.uri pending) :
    walk pending (fuel + 1) c node =
      some ((cachePromote c node).setPatience node defaultPatience, some node) := by
  unfold walk
  rw [if_neg hn, if_pos hu]

theorem walk_promote (hn : node ≠ head) (hu : c.uri node ≠ c.uri pending)
    (hb : c.next (c.prev node) = node) (hp : c.patience node ≤ 0) :
    walk pending (fuel + 1) c node = walk pending fuel (cachePromote c node) (c.prev node) := by
  rw [walk, if_neg hn, if_neg hu]
  dsimp only
  rw [hb, if_pos hp]

theorem walk_evict (hn : node ≠ head) (hu : c.uri node ≠ c.uri pending)
    (hb : c.next (c.prev node) = node) (hp : ¬c.patience node ≤ 0)
    (hs : c.freesz < c.size pending) :
    walk pending (fuel + 1) c node = walk pending fuel (cacheEvict c node) (c.prev node) := by
  rw [walk, if_neg hn, if_neg hu]
  dsimp only
  rw [hb, if_neg hp, if_pos hs]

theorem walk_keep (hn : node ≠ head) (hu : c.uri node ≠ c.uri pending)
    (hb : c.next (c.prev node) = node) (hp : ¬c.patience node ≤ 0)
    (hs : ¬c.freesz < c.size pending) :
    walk pending (fuel + 1) c node = walk pending fuel c (c.prev node) := by
  rw [walk, if_neg hn, if_neg hu]
  dsimp only
  rw [hb, if_neg hp, if_neg hs]

end

/-- What is found is moved to the front with fresh patience. -/
theorem At.found {c : Cache} {hand : List Ptr} {x : Ptr} {rest kept : List Ptr}
    (h : At c hand x rest kept) :
    Left c ((cachePromote c x).setPatience x defaultPatience) hand (x :: (rest.reverse ++ kept))
      c.freesz ({ itemOf c x with patience := defaultPatience } ::
        ((rest.map (itemOf c)).reverse ++ kept.map (itemOf c))) where
  listed := ⟨h.listed.promote.ring, h.listed.promote.nodup, h.listed.promote.live⟩
  items := by
    have hne : ∀ p, p ≠ x → itemOf ((cachePromote c x).setPatience x defaultPatience) p =
        itemOf c p := by
      intro p hp
      change (⟨p, Function.update (Function.update c.patience x _) x _ p, _, _, _⟩ : Item) = _
      rw [Function.update_of_ne hp, Function.update_of_ne hp]
      rfl
    rw [List.map_cons, List.map_append, List.map_reverse]
    congr 1
    · change (⟨x, Function.update (Function.update c.patience x _) x _ x, _, _, _⟩ : Item) = _
      rw [Function.update_self]
      rfl
    · rw [List.map_congr_left fun p hp => hne p fun he => h.rest (he ▸ hp),
        List.map_congr_left fun p hp => hne p fun he => h.kept (he ▸ hp)]
  free := rfl
  uri := rfl
  data := rfl
  size := rfl
  hand := by
    intro p hp
    change Function.update (Function.update c.patience x _) x _ p = _
    rw [Function.update_of_ne (h.hand p hp), Function.update_of_ne (h.hand p hp)]

/-- The last entry of the queue stays at the front. -/
theorem At.last {c : Cache} {hand : List Ptr} {x : Ptr} {kept : List Ptr}
    (h : At c hand x [] kept) :
    Left c (cachePromote c x) hand (x :: kept) c.freesz
      ((itemOf c x).promoted :: kept.map (itemOf c)) where
  listed := h.promote
  items := by rw [List.map_cons, map_itemOf_promote c h.kept, itemOf_promote_self]
  free := rfl
  uri := rfl
  data := rfl
  size := rfl
  hand p hp := Function.update_of_ne (h.hand p hp) _ _

theorem walk_sweep {pending : Ptr} {fuel : Nat} {c : Cache} {todo kept : List Ptr}
    (h : Listed c [pending] (todo.reverse ++ kept))
    (hb : c.freesz + sizes (todo.map (itemOf c)) < 18446744073709551616)
    (hf : weight (todo.map (itemOf c)) < fuel) :
    ∃ c' l, walk pending fuel c (todo.head?.getD head) = some (c',
        (sweep (c.uri pending) (c.size pending) c.freesz (todo.map (itemOf c))
          (kept.map (itemOf c))).found) ∧
      Left c c' [pending] l
        (sweep (c.uri pending) (c.size pending) c.freesz (todo.map (itemOf c))
          (kept.map (itemOf c))).free
        (sweep (c.uri pending) (c.size pending) c.freesz (todo.map (itemOf c))
          (kept.map (itemOf c))).items := by
  induction fuel generalizing c todo kept with
  | zero => exact absurd hf (Nat.not_lt_zero _)
  | succ fuel ih =>
    cases todo with
    | nil =>
      rw [List.map_nil, sweep]
      exact ⟨c, kept, rfl, h, rfl, rfl, rfl, rfl, rfl, fun _ _ => rfl⟩
    | cons x rest =>
      have ha := h.at
      have hw := weight_pos (itemOf c x)
      rw [List.map_cons, weight_cons] at hf
      rw [List.map_cons, sizes_cons] at hb
      change ∃ c' l, walk pending (fuel + 1) c x = _ ∧ _
      rw [List.map_cons]
      by_cases hu : c.uri x = c.uri pending
      · rw [walk_found ha.ne_head hu, sweep_found_eq hu]
        exact ⟨_, _, rfl, ha.found⟩
      by_cases hp : c.patience x ≤ 0
      · have hc : (itemOf c x).promoted.weight + 1 = (itemOf c x).weight := chances_promoted hp
        rw [walk_promote ha.ne_head hu ha.back hp, ha.prev]
        cases rest with
        | nil =>
          rw [List.map_nil, sweep_last_eq hu hp]
          obtain ⟨k, rfl⟩ : ∃ k, fuel = k + 1 := ⟨fuel - 1, by omega⟩
          exact ⟨cachePromote c x, x :: kept, rfl, ha.last⟩
        | cons y rest =>
          have hi : ∃ c' l, _ ∧ Left (cachePromote c x) c' [pending] l _ _ := ih ha.promote
            (by
              change c.freesz + _ < _
              rw [ha.promoted_items, sizes_append, sizes_cons, size_promoted, sizes_nil]
              omega)
            (by
              rw [ha.promoted_items, weight_append, weight_cons, weight_nil]
              omega)
          have hne : (y :: rest).map (itemOf c) ≠ [] := List.cons_ne_nil _ _
          rw [sweep_promote_eq (x := itemOf c x) hu hp hne, ← ha.promoted_items,
            ← map_itemOf_promote c ha.kept]
          cases hi with
          | intro c' hi =>
            cases hi with
            | intro l hi => exact ⟨c', l, hi.1, hi.2.behind rfl rfl rfl rfl ha.hand⟩
      by_cases hs : c.freesz < c.size pending
      · rw [walk_evict ha.ne_head hu ha.back hp hs, ha.prev, sweep_evict_eq hu hp hs]
        have hfree : (cacheEvict c x).freesz = c.freesz + c.size x :=
          cacheEvict_free (lt_of_le_of_lt (Nat.add_le_add_left (Nat.le_add_right _ _) _) hb)
        have hi : ∃ c' l, _ ∧ Left (cacheEvict c x) c' [pending] l _ _ := ih ha.evict
          (by
            rw [hfree, Nat.add_assoc]
            exact hb)
          (by
            change weight (rest.map (itemOf c)) < fuel
            omega)
        rw [hfree] at hi
        cases hi with
        | intro c' hi =>
          cases hi with
          | intro l hi =>
            exact ⟨c', l, hi.1, hi.2.behind rfl rfl rfl
              (Function.update_eq_self x c.patience).symm ha.hand⟩
      · rw [walk_keep ha.ne_head hu ha.back hp hs, ha.prev, sweep_keep_eq hu hp hs,
          ← List.map_cons]
        exact ih ha.listed (by omega) (by omega)

/-! ## The second loop -/

section

variable {node : Ptr} {fuel : Nat} {c : Cache}

theorem drain_promote (hn : node ≠ head) (hb : c.next (c.prev node) = node)
    (hp : c.patience node ≤ 0) :
    drain (fuel + 1) c node = drain fuel (cachePromote c node) (c.prev node) := by
  rw [drain, if_neg hn]
  dsimp only
  rw [hb, if_pos hp]

theorem drain_evict (hn : node ≠ head) (hb : c.next (c.prev node) = node)
    (hp : ¬c.patience node ≤ 0) :
    drain (fuel + 1) c node = drain fuel (cacheEvict c node) (c.prev node) := by
  rw [drain, if_neg hn]
  dsimp only
  rw [hb, if_neg hp]

end

theorem Listed.todo {c : Cache} {hand todo : List Ptr} (h : Listed c hand todo.reverse) :
    Listed c hand (todo.reverse ++ []) := by
  rw [List.append_nil]
  exact h

theorem drain_drained {fuel : Nat} {c : Cache} {hand todo : List Ptr}
    (h : Listed c hand todo.reverse)
    (hb : c.freesz + sizes (todo.map (itemOf c)) < 18446744073709551616)
    (hf : weight (todo.map (itemOf c)) < fuel) :
    ∃ c' l, drain fuel c (todo.head?.getD head) = some c' ∧
      Left c c' hand l (drained c.freesz (todo.map (itemOf c))).1
        (drained c.freesz (todo.map (itemOf c))).2 := by
  induction fuel generalizing c todo with
  | zero => exact absurd hf (Nat.not_lt_zero _)
  | succ fuel ih =>
    cases todo with
    | nil =>
      rw [List.map_nil, drained]
      exact ⟨c, [], rfl, h, rfl, rfl, rfl, rfl, rfl, fun _ _ => rfl⟩
    | cons x rest =>
      have ha : At c hand x rest [] := h.todo.at
      have hw := weight_pos (itemOf c x)
      rw [List.map_cons, weight_cons] at hf
      rw [List.map_cons, sizes_cons] at hb
      change ∃ c' l, drain (fuel + 1) c x = _ ∧ _
      rw [List.map_cons]
      by_cases hp : c.patience x ≤ 0
      · have hc : (itemOf c x).promoted.weight + 1 = (itemOf c x).weight := chances_promoted hp
        rw [drain_promote ha.ne_head ha.back hp, ha.prev]
        cases rest with
        | nil =>
          rw [List.map_nil, drained_last_eq hp]
          obtain ⟨k, rfl⟩ : ∃ k, fuel = k + 1 := ⟨fuel - 1, by omega⟩
          exact ⟨cachePromote c x, [x], rfl, ha.last⟩
        | cons y rest =>
          have hl := ha.promote
          rw [List.append_nil] at hl
          have hi : ∃ c' l, _ ∧ Left (cachePromote c x) c' hand l _ _ := ih hl
            (by
              change c.freesz + _ < _
              rw [ha.promoted_items, sizes_append, sizes_cons, size_promoted, sizes_nil]
              omega)
            (by
              rw [ha.promoted_items, weight_append, weight_cons, weight_nil]
              omega)
          have hne : (y :: rest).map (itemOf c) ≠ [] := List.cons_ne_nil _ _
          rw [drained_promote_eq (x := itemOf c x) hp hne, ← ha.promoted_items]
          cases hi with
          | intro c' hi =>
            cases hi with
            | intro l hi => exact ⟨c', l, hi.1, hi.2.behind rfl rfl rfl rfl ha.hand⟩
      · have hl := ha.evict
        rw [List.append_nil] at hl
        have hfree : (cacheEvict c x).freesz = c.freesz + c.size x :=
          cacheEvict_free (lt_of_le_of_lt (Nat.add_le_add_left (Nat.le_add_right _ _) _) hb)
        have hi : ∃ c' l, _ ∧ Left (cacheEvict c x) c' hand l _ _ := ih hl
          (by
            rw [hfree, Nat.add_assoc]
            exact hb)
          (by
            change weight (rest.map (itemOf c)) < fuel
            omega)
        rw [drain_evict ha.ne_head ha.back hp, ha.prev,
          drained_evict_eq (x := itemOf c x) hp]
        rw [hfree] at hi
        cases hi with
        | intro c' hi =>
          cases hi with
          | intro l hi =>
            exact ⟨c', l, hi.1, hi.2.behind rfl rfl rfl
              (Function.update_eq_self x c.patience).symm ha.hand⟩

theorem Left.trans {c c₁ c' : Cache} {hand l₁ l : List Ptr} {f₁ f : Nat} {i₁ i : List Item}
    (h₁ : Left c c₁ hand l₁ f₁ i₁) (h : Left c₁ c' hand l f i) : Left c c' hand l f i where
  listed := h.listed
  items := h.items
  free := h.free
  uri := h.uri.trans h₁.uri
  data := h.data.trans h₁.data
  size := h.size.trans h₁.size
  hand p hp := (h.hand p hp).trans (h₁.hand p hp)

theorem Listed.last {c : Cache} {hand l : List Ptr} (h : Listed c hand l) :
    c.prev head = l.reverse.head?.getD head := by
  rw [h.ring.prev_end, List.head?_reverse]

theorem reverse_short {l : List Item} (h : l.length ≤ 1) : l.reverse = l := by
  cases l with
  | nil => rfl
  | cons x l =>
    cases l with
    | nil => rfl
    | cons y l => simp at h

theorem drainWhile_drainedAll {pending : Ptr} {fuel : Nat} {c : Cache} {l : List Ptr}
    (h : Listed c [pending] l)
    (hb : c.freesz + sizes (l.map (itemOf c)) < 18446744073709551616)
    (hs : c.size pending ≤ c.freesz + sizes (l.map (itemOf c)))
    (hf : weight (l.map (itemOf c)) + 1 < fuel) :
    ∃ c' l', drainWhile pending fuel c = some c' ∧
      Left c c' [pending] l'
        (drainedAll (c.size pending) c.freesz (l.map (itemOf c)).reverse).1
        (drainedAll (c.size pending) c.freesz (l.map (itemOf c)).reverse).2.reverse := by
  induction fuel generalizing c l with
  | zero => exact absurd hf (Nat.not_lt_zero _)
  | succ fuel ih =>
    rw [drainWhile, drainedAll]
    by_cases hlt : c.freesz < c.size pending
    · have hne : (l.map (itemOf c)).reverse ≠ [] := by
        intro he
        rw [List.reverse_eq_nil_iff] at he
        rw [he, sizes_nil] at hs
        omega
      rw [if_pos hlt, if_pos ⟨hlt, hne⟩, ← List.map_reverse, h.last]
      have hl : Listed c [pending] l.reverse.reverse := by
        rw [List.reverse_reverse]
        exact h
      have hd : ∃ c₁ l₁, drain fuel c _ = some c₁ ∧ Left c c₁ [pending] l₁ _ _ := drain_drained hl
        (by
          rw [List.map_reverse, sizes_reverse]
          exact hb)
        (by
          rw [List.map_reverse, weight_reverse]
          omega)
      have hw : weight (drained c.freesz _).2 < _ := drained_weight hne
      have ht := drained_total c.freesz (l.map (itemOf c)).reverse
      have hsh := drained_length c.freesz (l.map (itemOf c)).reverse
      rw [sizes_reverse] at ht
      rw [weight_reverse] at hw
      rw [List.map_reverse] at hd ⊢
      cases hd with
      | intro c₁ hd =>
        cases hd with
        | intro l₁ hd =>
          have hd₂ := hd.2
          rw [hd.1]
          dsimp only
          have hi : ∃ c' l', _ ∧ Left c₁ c' [pending] l' _ _ := ih hd₂.listed
            (by
              rw [hd₂.items, hd₂.free]
              omega)
            (by
              rw [hd₂.items, hd₂.free, hd₂.size]
              omega)
            (by
              rw [hd₂.items]
              omega)
          rw [hd₂.items, hd₂.free, hd₂.size, reverse_short hsh] at hi
          cases hi with
          | intro c' hi =>
            cases hi with
            | intro l' hi => exact ⟨c', l', hi.1, hd₂.trans hi.2⟩
    · rw [if_neg hlt, if_neg fun hc => hlt hc.1, List.reverse_reverse]
      exact ⟨c, l, rfl, h, rfl, rfl, rfl, rfl, rfl, fun _ _ => rfl⟩

end Csapp.ProxyCache
