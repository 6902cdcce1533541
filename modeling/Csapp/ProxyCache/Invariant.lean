import Mathlib
import Csapp.ProxyCache.Calls

/-!
# The representation invariant

A put keeps three things about the list of entries: the account of bytes, that
no name occurs twice, and that an entry's size is the length of its data. All
three follow from what the two loops do with entries, whatever they evict:
nothing is lost from the account, what is left was there before, and a new
entry goes in only when its name was not found.
-/

namespace Csapp.ProxyCache

/-- Free and cached bytes make up the cache, and no URI is cached twice. -/
structure Account (maxsize free : Nat) (items : List Item) : Prop where
  total : free + sizes items = maxsize
  uris : (items.map Item.uri).Nodup
  whole : ∀ x ∈ items, x.size = x.data.length

theorem map_content_uri (items : List Item) :
    (items.map Item.content).map (fun k => k.2.1) = items.map Item.uri := by
  simp [Item.content, Function.comp_def]

theorem nodup_uris_of_subperm {items items' : List Item} (h : (items.map Item.uri).Nodup)
    (hs : (items'.map Item.content).Subperm (items.map Item.content)) :
    (items'.map Item.uri).Nodup := by
  rw [← map_content_uri] at h ⊢
  cases hs with
  | intro m hm => exact (hm.1.map _).nodup_iff.mp (h.sublist (hm.2.map _))

/-- Each entry left is one from before, but for its patience. -/
theorem mem_of_subperm {items items' : List Item} {x : Item}
    (hs : (items'.map Item.content).Subperm (items.map Item.content)) (hx : x ∈ items') :
    ∃ y ∈ items, y.content = x.content :=
  List.mem_map.mp (hs.subset (List.mem_map_of_mem hx))

theorem whole_of_subperm {items items' : List Item} (h : ∀ x ∈ items, x.size = x.data.length)
    (hs : (items'.map Item.content).Subperm (items.map Item.content)) :
    ∀ x ∈ items', x.size = x.data.length := by
  intro x hx
  obtain ⟨y, hy, he⟩ := mem_of_subperm hs hx
  have hw := h y hy
  simp only [Item.content, Prod.mk.injEq] at he
  rw [← he.2.2.1, ← he.2.2.2]
  exact hw

theorem putItems_found {free : Nat} {items : List Item} {x : Item} {q : Ptr}
    (h : (sweep x.uri x.size free items.reverse []).found = some q) :
    putItems free items x = ((sweep x.uri x.size free items.reverse []).free,
      (sweep x.uri x.size free items.reverse []).items) := by
  unfold putItems
  rw [h]

theorem putItems_none {free : Nat} {items : List Item} {x : Item}
    (h : (sweep x.uri x.size free items.reverse []).found = none) :
    putItems free items x =
      ((drainedAll x.size (sweep x.uri x.size free items.reverse []).free
          (sweep x.uri x.size free items.reverse []).items.reverse).1 - x.size,
        x :: (drainedAll x.size (sweep x.uri x.size free items.reverse []).free
          (sweep x.uri x.size free items.reverse []).items.reverse).2.reverse) := by
  unfold putItems
  rw [h]

theorem reverse_content_subperm (items : List Item) :
    (items.reverse.map Item.content).Subperm (items.map Item.content) :=
  ((List.reverse_perm items).map _).subperm

theorem sweep_items_subperm (uri : Str) (size free : Nat) (items : List Item) :
    ((sweep uri size free items.reverse []).items.map Item.content).Subperm
      (items.map Item.content) := by
  have h := sweep_subperm uri size free items.reverse []
  rw [List.append_nil] at h
  exact h.trans (reverse_content_subperm items)

/-- What the second loop leaves of what the first one left. -/
theorem rest_subperm (uri : Str) (size free : Nat) (items : List Item) :
    ((drainedAll size (sweep uri size free items.reverse []).free
      (sweep uri size free items.reverse []).items.reverse).2.reverse.map Item.content).Subperm
      ((sweep uri size free items.reverse []).items.map Item.content) :=
  (reverse_content_subperm _).trans
    ((drainedAll_subperm _ _ _).trans (reverse_content_subperm _))

theorem putItems_account {maxsize free : Nat} {items : List Item} {x : Item}
    (h : Account maxsize free items) (hs : x.size ≤ maxsize) (hw : x.size = x.data.length) :
    Account maxsize (putItems free items x).1 (putItems free items x).2 := by
  have ht := sweep_total x.uri x.size free items.reverse []
  rw [sizes_reverse, sizes_nil, Nat.add_zero, h.total] at ht
  have hsub := sweep_items_subperm x.uri x.size free items
  cases hf : (sweep x.uri x.size free items.reverse []).found with
  | some q =>
    rw [putItems_found hf]
    exact ⟨ht, nodup_uris_of_subperm h.uris hsub, whole_of_subperm h.whole hsub⟩
  | none =>
    rw [putItems_none hf]
    have hd := drainedAll_total x.size (sweep x.uri x.size free items.reverse []).free
      (sweep x.uri x.size free items.reverse []).items.reverse
    rw [sizes_reverse, ht] at hd
    have he : x.size ≤ (drainedAll x.size (sweep x.uri x.size free items.reverse []).free
        (sweep x.uri x.size free items.reverse []).items.reverse).1 := by
      refine drainedAll_enough ?_
      rw [sizes_reverse, ht]
      exact hs
    have hrest := rest_subperm x.uri x.size free items
    refine ⟨?_, ?_, ?_⟩
    · simp only [sizes_cons, sizes_reverse]
      omega
    · rw [List.map_cons, List.nodup_cons]
      refine ⟨?_, nodup_uris_of_subperm h.uris (hrest.trans hsub)⟩
      intro hm
      obtain ⟨y, hy, hu⟩ := List.mem_map.mp hm
      obtain ⟨z, hz, hc⟩ := mem_of_subperm hrest hy
      have hne := sweep_fresh (fun y hy => absurd hy List.not_mem_nil) hf z hz
      simp only [Item.content, Prod.mk.injEq] at hc
      exact hne (hc.2.1.trans hu)
    · intro y hy
      cases hy with
      | head => exact hw
      | tail _ hy => exact whole_of_subperm h.whole (hrest.trans hsub) y hy

/-! ## Runs -/

/-- The state between two calls. -/
structure WellFormed (maxsize : Nat) (c : Cache) (l : List Ptr) : Prop where
  listed : Listed c [] l
  account : Account maxsize c.freesz (l.map (itemOf c))

theorem WellFormed.holds {maxsize : Nat} {c : Cache} {l : List Ptr} (h : WellFormed maxsize c l) :
    Holds c c.freesz (l.map (itemOf c)) l := ⟨h.listed, rfl, rfl⟩

theorem WellFormed.init (maxsize : Nat) : WellFormed maxsize (cacheInit maxsize) [] where
  listed := Listed.init maxsize
  account := ⟨rfl, List.nodup_nil, fun _ hx => absurd hx List.not_mem_nil⟩

theorem Holds.wellFormed {maxsize free : Nat} {c : Cache} {items : List Item} {l : List Ptr}
    (h : Holds c free items l) (ha : Account maxsize free items) : WellFormed maxsize c l := by
  refine ⟨h.listed, ?_⟩
  rw [h.items, h.free]
  exact ha

section

variable {maxsize : Nat} {c c' : Cache} {l : List Ptr} {p : Ptr} {host loc buf : Str}

/-- `cache_put` returns. -/
theorem WellFormed.put_items (h : WellFormed maxsize c l) (hm : maxsize < 18446744073709551616)
    (hp : c.live p = false) (hs : buf.length ≤ maxsize) :
    ∃ fuel c' l', cachePut fuel c p host loc buf = some c' ∧
      Holds c' (putItems c.freesz (l.map (itemOf c)) (created p host loc buf)).1
        (putItems c.freesz (l.map (itemOf c)) (created p host loc buf)).2 l' :=
  cachePut_items h.holds hp (by rw [h.account.total]; exact hm) (by rw [h.account.total]; exact hs)

/-- Whatever `cache_put` leaves is what `putItems` leaves. -/
theorem WellFormed.put (h : WellFormed maxsize c l) (hm : maxsize < 18446744073709551616)
    (hp : c.live p = false) (hs : buf.length ≤ maxsize) {fuel : Nat}
    (hc : cachePut fuel c p host loc buf = some c') :
    ∃ l', Holds c' (putItems c.freesz (l.map (itemOf c)) (created p host loc buf)).1
        (putItems c.freesz (l.map (itemOf c)) (created p host loc buf)).2 l' := by
  obtain ⟨n, c₁, l', h₁, h₂⟩ : ∃ n c₁ l', cachePut n c p host loc buf = some c₁ ∧ _ :=
    h.put_items hm hp hs
  have he : c₁ = c' := same_answer (f := fun n => cachePut n c p host loc buf)
    (fun _ _ => cachePut_succ) h₁ hc
  exact ⟨l', he ▸ h₂⟩

theorem WellFormed.put_wellFormed (h : WellFormed maxsize c l)
    (hm : maxsize < 18446744073709551616) (hp : c.live p = false) (hs : buf.length ≤ maxsize)
    {fuel : Nat} (hc : cachePut fuel c p host loc buf = some c') :
    ∃ l', WellFormed maxsize c' l' := by
  obtain ⟨l', hl⟩ := h.put hm hp hs hc
  exact ⟨l', hl.wellFormed (putItems_account h.account hs rfl)⟩

/-- `cache_get` returns. -/
theorem WellFormed.get_returns (h : WellFormed maxsize c l) (host loc buf : Str) (bufsz : Nat) :
    ∃ fuel r, cacheGet fuel c host loc buf bufsz = some r := by
  obtain ⟨fuel, hl⟩ : ∃ fuel, lookup (uriGen host loc) fuel c (c.next head) = _ :=
    h.holds.lookup
  refine ⟨fuel, ?_⟩
  unfold cacheGet
  rw [hl]
  dsimp only
  split
  · exact ⟨_, rfl⟩
  · exact ⟨_, rfl⟩

/-- A hit is the listed entry of the name, and changes only its patience. -/
theorem WellFormed.get_cases (h : WellFormed maxsize c l) {fuel bufsz : Nat}
    {r : Cache × Bool × Str × Nat} (hc : cacheGet fuel c host loc buf bufsz = some r) :
    (∃ p ∈ l, c.uri p = uriGen host loc ∧
      r = (c.setPatience p ((c.patience p - 1).bmod 18446744073709551616), true,
        memcpy (if bufsz < c.size p then List.replicate (c.size p) 0 else buf) (c.data p)
          (c.size p), c.size p)) ∨
    (∀ p ∈ l, c.uri p ≠ uriGen host loc) ∧ r = (c, false, buf, bufsz) := by
  obtain ⟨n, hl⟩ : ∃ n, lookup (uriGen host loc) n c (c.next head) = _ := h.holds.lookup
  unfold cacheGet at hc
  cases hk : lookup (uriGen host loc) fuel c (c.next head) with
  | none => simp [hk] at hc
  | some node =>
    have he := same_answer (f := fun n => lookup (uriGen host loc) n c (c.next head))
      (fun _ _ => lookup_succ) hk hl
    rw [hk] at hc
    dsimp only at hc
    cases hf : l.find? fun p => c.uri p = uriGen host loc with
    | none =>
      rw [hf] at he
      rw [he, if_neg fun hn => hn rfl] at hc
      refine .inr ⟨?_, (Option.some.inj hc).symm⟩
      intro p hp
      simpa using List.find?_eq_none.mp hf p hp
    | some p =>
      have hp := List.mem_of_find?_eq_some hf
      have hu := List.find?_some hf
      have hne : p ≠ head := fun hh =>
        (List.nodup_cons.mp h.listed.nodup_ring).1 (hh ▸ hp)
      rw [hf, Option.getD_some] at he
      rw [he, if_pos hne] at hc
      exact .inl ⟨p, hp, by simpa using hu, (Option.some.inj hc).symm⟩

theorem setPatience_content (c : Cache) (p : Ptr) (v : Int) (l : List Ptr) :
    (l.map (itemOf (c.setPatience p v))).map Item.content = (l.map (itemOf c)).map Item.content := by
  simp [itemOf, Item.content, Cache.setPatience]

theorem Account.of_content {free : Nat} {items items' : List Item}
    (h : Account maxsize free items) (hc : items'.map Item.content = items.map Item.content) :
    Account maxsize free items' := by
  have hs : (items'.map Item.content).Subperm (items.map Item.content) := by
    rw [hc]
  have hz : ∀ l : List Item, sizes l = ((l.map Item.content).map fun k => k.2.2.2).sum := by
    intro l
    simp [sizes, Item.content, Function.comp_def]
  refine ⟨?_, nodup_uris_of_subperm h.uris hs, whole_of_subperm h.whole hs⟩
  rw [hz, hc, ← hz]
  exact h.total

theorem WellFormed.setPatience (h : WellFormed maxsize c l) (p : Ptr) (v : Int) :
    WellFormed maxsize (c.setPatience p v) l where
  listed := ⟨h.listed.ring, h.listed.nodup, h.listed.live⟩
  account := h.account.of_content (setPatience_content c p v l)

theorem WellFormed.get_wellFormed (h : WellFormed maxsize c l) {fuel bufsz : Nat}
    {r : Cache × Bool × Str × Nat} (hc : cacheGet fuel c host loc buf bufsz = some r) :
    WellFormed maxsize r.1 l := by
  cases h.get_cases hc with
  | inl hit =>
    obtain ⟨p, -, -, rfl⟩ := hit
    exact h.setPatience p _
  | inr miss =>
    rw [miss.2]
    exact h

end

/-- The states between calls. The address of a new entry is one that is not in use. -/
inductive Reach (maxsize : Nat) : Cache → Prop
  | init : Reach maxsize (cacheInit maxsize)
  | put {c c' : Cache} {p : Ptr} {host loc buf : Str} {fuel : Nat} : Reach maxsize c →
      c.live p = false → buf.length ≤ maxsize → cachePut fuel c p host loc buf = some c' →
      Reach maxsize c'
  | get {c c' : Cache} {host loc buf buf' : Str} {fuel bufsz bufsz' : Nat} {hit : Bool} :
      Reach maxsize c → cacheGet fuel c host loc buf bufsz = some (c', hit, buf', bufsz') →
      Reach maxsize c'

theorem Reach.wellFormed {maxsize : Nat} {c : Cache} (hm : maxsize < 18446744073709551616)
    (h : Reach maxsize c) : ∃ l, WellFormed maxsize c l := by
  induction h with
  | init => exact ⟨[], WellFormed.init maxsize⟩
  | put _ hp hs hc ih =>
    obtain ⟨l, hl⟩ := ih
    exact hl.put_wellFormed hm hp hs hc
  | get _ hc ih =>
    obtain ⟨l, hl⟩ := ih
    exact ⟨l, hl.get_wellFormed hc⟩

/-- In every reachable state the account is right, the entries are a ring of
distinct nodes and of distinct names, and the next call returns. -/
theorem reach_invariant {maxsize : Nat} {c : Cache} (hm : maxsize < 18446744073709551616)
    (h : Reach maxsize c) :
    (∃ l, Ring c.next c.prev head l ∧ (head :: l).Nodup ∧
      c.freesz + (l.map c.size).sum = maxsize ∧ (l.map c.uri).Nodup) ∧
    (∀ p host loc buf, c.live p = false → buf.length ≤ maxsize →
      ∃ fuel c', cachePut fuel c p host loc buf = some c') ∧
    ∀ host loc buf bufsz, ∃ fuel r, cacheGet fuel c host loc buf bufsz = some r := by
  obtain ⟨l, hl⟩ := h.wellFormed hm
  refine ⟨⟨l, hl.listed.ring, hl.listed.nodup_ring, ?_, ?_⟩, ?_, fun _ _ _ _ =>
    hl.get_returns _ _ _ _⟩
  · have ht := hl.account.total
    simpa [sizes, Function.comp_def, itemOf] using ht
  · have hu := hl.account.uris
    simpa [Function.comp_def, itemOf] using hu
  · intro p host loc buf hp hs
    obtain ⟨fuel, c', -, hc, -⟩ : ∃ fuel c' l', cachePut fuel c p host loc buf = some c' ∧ _ :=
      hl.put_items hm hp hs
    exact ⟨fuel, c', hc⟩

/-- A cache of ten bytes after a put of three. -/
theorem reach_invariant_put :
    ∃ c, cachePut 2 (cacheInit 10) 1 [97] [98] [1, 2, 3] = some c ∧ c.freesz = 7 ∧
      ∃ l, Ring c.next c.prev head l ∧ (head :: l).Nodup ∧
        c.freesz + (l.map c.size).sum = 10 ∧ (l.map c.uri).Nodup := by
  have hc : cachePut 2 (cacheInit 10) 1 [97] [98] [1, 2, 3] = some _ := rfl
  have hr := Reach.put Reach.init rfl (by decide) hc
  exact ⟨_, hc, rfl, (reach_invariant (by decide) hr).1⟩

end Csapp.ProxyCache
