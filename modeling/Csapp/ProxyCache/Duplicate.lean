import Mathlib
import Csapp.ProxyCache.Contents

/-!
# Putting what is there

A put of a resident name stores nothing, but its walk evicts like any other
until it meets the name. So nothing is lost exactly when the walk has no reason
to evict before that: there is room for the new bytes anyway, or all that lies
behind the name in the list is warm.
-/

namespace Csapp.ProxyCache

/-- Up to the name the walk only promotes, or keeps. -/
theorem sweep_quiet {uri : Str} {size free : Nat} {x : Item} {pre post kept : List Item}
    (hx : x.uri = uri) (hpre : ∀ y ∈ pre, y.uri ≠ uri)
    (h : size ≤ free ∨ ∀ y ∈ pre, y.patience ≤ 0) :
    (sweep uri size free (pre ++ x :: post) kept).free = free ∧
      ((sweep uri size free (pre ++ x :: post) kept).items.map Item.content).Perm
        ((pre ++ x :: post ++ kept).map Item.content) := by
  induction pre generalizing post kept with
  | nil =>
    rw [List.nil_append, sweep_found_eq hx]
    refine ⟨rfl, ?_⟩
    simp only [List.map_cons, List.map_append, List.map_reverse, List.cons_append,
      content_patience]
    exact ((List.reverse_perm _).append_right _).cons _
  | cons y pre ih =>
    have hy : y.uri ≠ uri := hpre y List.mem_cons_self
    have hpre' : ∀ z ∈ pre, z.uri ≠ uri := fun z hz => hpre z (List.mem_cons_of_mem _ hz)
    have h' : size ≤ free ∨ ∀ z ∈ pre, z.patience ≤ 0 :=
      h.imp_right fun hw z hz => hw z (List.mem_cons_of_mem _ hz)
    rw [List.cons_append]
    by_cases hp : y.patience ≤ 0
    · have hne : pre ++ x :: post ≠ [] := by simp
      rw [sweep_promote_eq hy hp hne, List.append_assoc, List.cons_append]
      refine ⟨(ih hpre' h').1, (ih hpre' h').2.trans ?_⟩
      have hm : (pre ++ x :: (post ++ [y.promoted]) ++ kept).map Item.content =
          ((pre ++ x :: post).map Item.content ++ [y.content]) ++ kept.map Item.content := by simp
      have hm' : (y :: (pre ++ x :: post) ++ kept).map Item.content =
          (y.content :: (pre ++ x :: post).map Item.content) ++ kept.map Item.content := by simp
      rw [hm, hm']
      exact (List.perm_append_singleton _ _).append_right _
    · have hs : ¬free < size := by
        cases h with
        | inl h => omega
        | inr h => exact absurd (h y List.mem_cons_self) hp
      rw [sweep_keep_eq hy hp hs]
      refine ⟨(ih hpre' h').1, (ih hpre' h').2.trans ?_⟩
      have hm : (y :: (pre ++ x :: post) ++ kept).map Item.content =
          y.content :: ((pre ++ x :: post).map Item.content ++ kept.map Item.content) := by simp
      rw [hm, List.map_append, List.map_cons]
      exact List.perm_middle

/-- An eviction before the name is met leaves fewer entries. -/
theorem sweep_noisy {uri : Str} {size free : Nat} {pre post kept : List Item}
    (hpre : ∀ y ∈ pre, y.uri ≠ uri) (hs : free < size) (hc : ∃ y ∈ pre, ¬y.patience ≤ 0)
    (hpost : post ≠ []) :
    (sweep uri size free (pre ++ post) kept).items.length < (pre ++ post ++ kept).length := by
  induction pre generalizing post with
  | nil =>
    obtain ⟨y, hy, -⟩ := hc
    cases hy
  | cons y pre ih =>
    have hy : y.uri ≠ uri := hpre y List.mem_cons_self
    have hpre' : ∀ z ∈ pre, z.uri ≠ uri := fun z hz => hpre z (List.mem_cons_of_mem _ hz)
    rw [List.cons_append]
    by_cases hp : y.patience ≤ 0
    · have hne : pre ++ post ≠ [] := by simp [hpost]
      have hc' : ∃ z ∈ pre, ¬z.patience ≤ 0 := by
        obtain ⟨z, hz, hzp⟩ := hc
        cases hz with
        | head => exact absurd hp hzp
        | tail _ hz => exact ⟨z, hz, hzp⟩
      rw [sweep_promote_eq hy hp hne, List.append_assoc]
      refine lt_of_lt_of_eq (ih hpre' hc' (by simp)) ?_
      simp
      omega
    · rw [sweep_evict_eq hy hp hs]
      have hl := (sweep_subperm uri size (free + y.size) (pre ++ post) kept).length_le
      rw [List.length_map, List.length_map] at hl
      rw [List.cons_append, List.length_cons]
      omega

/-! ## The contents -/

theorem has_of_perm {items items' : List Item} {uri data : Str}
    (hp : (items'.map Item.content).Perm (items.map Item.content)) :
    Has items' uri data ↔ Has items uri data :=
  ⟨has_of_subperm hp.subperm, has_of_subperm hp.symm.subperm⟩

/-- With distinct names, fewer entries are fewer names. -/
theorem length_eq_of_has {items items' : List Item} (hn : (items.map Item.uri).Nodup)
    (hn' : (items'.map Item.uri).Nodup)
    (h : ∀ uri data, Has items' uri data ↔ Has items uri data) :
    items'.length = items.length := by
  have hp : (items'.map Item.uri).Perm (items.map Item.uri) := by
    refine (List.perm_ext_iff_of_nodup hn' hn).mpr ?_
    intro u
    constructor
    · intro hu
      obtain ⟨x, hx, rfl⟩ := List.mem_map.mp hu
      obtain ⟨y, hy, hyu, -⟩ := (h x.uri x.data).mp ⟨x, hx, rfl, rfl⟩
      exact List.mem_map.mpr ⟨y, hy, hyu⟩
    · intro hu
      obtain ⟨x, hx, rfl⟩ := List.mem_map.mp hu
      obtain ⟨y, hy, hyu, -⟩ := (h x.uri x.data).mpr ⟨x, hx, rfl, rfl⟩
      exact List.mem_map.mpr ⟨y, hy, hyu⟩
  have hl := hp.length_eq
  rw [List.length_map, List.length_map] at hl
  exact hl

/-- The put of a name that is there, on the list of entries. -/
theorem putItems_quiet_iff {maxsize free : Nat} {x d : Item} {l₁ l₂ : List Item}
    (ha : Account maxsize free (l₁ ++ d :: l₂)) (hd : d.uri = x.uri) :
    ((∀ uri data, Has (putItems free (l₁ ++ d :: l₂) x).2 uri data ↔ Has (l₁ ++ d :: l₂) uri data) ∧
      (putItems free (l₁ ++ d :: l₂) x).1 = free) ↔
    x.size ≤ free ∨ ∀ y ∈ l₂, y.patience ≤ 0 := by
  have hpre : ∀ y ∈ l₂.reverse, y.uri ≠ x.uri := by
    intro y hy he
    have hn := ha.uris
    rw [List.map_append, List.map_cons, List.nodup_append] at hn
    refine (List.nodup_cons.mp hn.2.1).1 ?_
    rw [hd, ← he]
    exact List.mem_map_of_mem (List.mem_reverse.mp hy)
  have hrev : (l₁ ++ d :: l₂).reverse = l₂.reverse ++ d :: l₁.reverse := by simp
  have hh : Has (l₁ ++ d :: l₂) x.uri d.data := ⟨d, by simp, hd, rfl⟩
  have hk : ∀ y ∈ ([] : List Item), y.uri ≠ x.uri := fun _ hy => absurd hy List.not_mem_nil
  obtain ⟨⟨q, hq⟩, -⟩ : (∃ q, (sweep x.uri x.size free _ _).found = some q) ∧ _ :=
    sweep_finds hk hh.reverse
  rw [putItems_found hq, hrev]
  constructor
  · intro h
    by_contra hc
    rw [not_or] at hc
    have hcold : ∃ y ∈ l₂.reverse, ¬y.patience ≤ 0 := by
      by_contra hn
      refine hc.2 fun y hy => ?_
      by_contra hp
      exact hn ⟨y, List.mem_reverse.mpr hy, hp⟩
    have hlt : (sweep x.uri x.size free (l₂.reverse ++ d :: l₁.reverse) []).items.length < _ :=
      sweep_noisy hpre (not_le.mp hc.1) hcold (List.cons_ne_nil _ _)
    have hsub := sweep_items_subperm x.uri x.size free (l₁ ++ d :: l₂)
    rw [hrev] at hsub
    have hl := length_eq_of_has ha.uris (nodup_uris_of_subperm ha.uris hsub) h.1
    rw [hl] at hlt
    simp at hlt
    omega
  · intro h
    have hs : (sweep x.uri x.size free (l₂.reverse ++ d :: l₁.reverse) []).free = free ∧ _ :=
      sweep_quiet hd hpre
      (h.imp_right fun hw y hy => hw y (List.mem_reverse.mp hy))
    refine ⟨?_, hs.1⟩
    intro uri data
    have hp : ((l₂.reverse ++ d :: l₁.reverse ++ []).map Item.content).Perm
        ((l₁ ++ d :: l₂).map Item.content) := by
      rw [List.append_nil, ← hrev]
      exact (List.reverse_perm _).map _
    exact has_of_perm (hs.2.trans hp)

/-! ## On the links -/

/-- The entry of the name is listed, and all behind it have used up their patience. -/
def WarmBehind (c : Cache) (uri : Str) : Prop :=
  ∃ l₁ d l₂, Ring c.next c.prev head (l₁ ++ d :: l₂) ∧ (head :: (l₁ ++ d :: l₂)).Nodup ∧
    c.uri d = uri ∧ ∀ q ∈ l₂, c.patience q ≤ 0

theorem WellFormed.warm_iff {maxsize : Nat} {c : Cache} {l₁ l₂ : List Ptr} {d : Ptr}
    (h : WellFormed maxsize c (l₁ ++ d :: l₂)) :
    WarmBehind c (c.uri d) ↔ ∀ q ∈ l₂, c.patience q ≤ 0 := by
  constructor
  · intro hw
    obtain ⟨m₁, e, m₂, hr, hnd, hu, hq⟩ := hw
    have hl := hr.unique (List.nodup_cons.mp hnd).1 h.listed.ring
      (List.nodup_cons.mp h.listed.nodup_ring).1
    have hn : ((l₁ ++ d :: l₂).map c.uri).Nodup := by
      have hn := h.account.uris
      rw [List.map_map] at hn
      exact hn
    have hde : e = d := by
      refine List.inj_on_of_nodup_map hn ?_ (by simp) hu
      rw [← hl]
      simp
    subst hde
    have hnm : (m₁ ++ e :: m₂).Nodup := (List.nodup_cons.mp hnd).2
    rw [List.nodup_append, List.nodup_cons] at hnm
    have hs := (List.append_cons_inj_of_notMem
      (fun hm => hnm.2.2 e hm e List.mem_cons_self rfl) hnm.2.1.1).mp hl
    rw [← hs.2.2]
    exact hq
  · intro hq
    exact ⟨l₁, d, l₂, h.listed.ring, h.listed.nodup_ring, rfl, hq⟩

/-- Exactly when a put of a resident key changes nothing that can be seen. -/
theorem put_resident_iff {maxsize : Nat} {c c' : Cache} {host loc buf : Str} {p : Ptr}
    {fuel : Nat} (hm : maxsize < 18446744073709551616) (h : Reach maxsize c)
    (hr : Resident c host loc) (hp : c.live p = false) (hs : buf.length ≤ maxsize)
    (hc : cachePut fuel c p host loc buf = some c') :
    ((∀ uri data, Entry c' uri data ↔ Entry c uri data) ∧ c'.freesz = c.freesz) ↔
      buf.length ≤ c.freesz ∨ WarmBehind c (uriGen host loc) := by
  obtain ⟨l, hl⟩ := h.wellFormed hm
  obtain ⟨l', hl'⟩ := hl.put hm hp hs hc
  have hw := hl'.wellFormed (putItems_account hl.account hs rfl)
  obtain ⟨data, he⟩ := hr
  obtain ⟨x, hx, hxu, -⟩ := hl.entry_iff.mp he
  obtain ⟨d, hd, rfl⟩ := List.mem_map.mp hx
  obtain ⟨l₁, l₂, rfl⟩ := List.append_of_mem hd
  change c.uri d = uriGen host loc at hxu
  have hmap : (l₁ ++ d :: l₂).map (itemOf c) =
      l₁.map (itemOf c) ++ itemOf c d :: l₂.map (itemOf c) := by simp
  have ha := hl.account
  rw [hmap] at ha
  have hiff := putItems_quiet_iff (x := created p host loc buf) ha hxu
  rw [← hmap, ← hl'.items, ← hl'.free, List.forall_mem_map] at hiff
  rw [← hxu, hl.warm_iff]
  simp only [hw.entry_iff, hl.entry_iff]
  exact hiff

/-- Room for the new bytes: the put is a reordering. -/
theorem put_resident_iff_room : ∃ c c', cachePut 2 (cacheInit 10) 1 [97] [98] [1, 2] = some c ∧
    cachePut 3 c 2 [97] [98] [1, 2] = some c' ∧
    (((∀ uri data, Entry c' uri data ↔ Entry c uri data) ∧ c'.freesz = c.freesz) ↔
      ([1, 2] : Str).length ≤ c.freesz ∨ WarmBehind c (uriGen [97] [98])) := by
  have hp : cachePut 2 (cacheInit 10) 1 [97] [98] [1, 2] = some _ := rfl
  have hw : WellFormed 10 (cacheInit 10) [] := WellFormed.init 10
  have hr := (hw.put_answer (by decide) (by decide) rfl (by decide) hp).fresh
    (not_resident_init 10 [97] [98])
  have hs : Reach 10 _ := Reach.put Reach.init rfl (by decide) hp
  refine ⟨_, _, hp, rfl, ?_⟩
  exact @put_resident_iff 10 _ _ [97] [98] [1, 2] 2 3 (by decide) hs ⟨_, hr⟩ rfl (by decide) rfl

/-- Four bytes, two entries of two: the second is put again, and the first is lost. -/
theorem put_resident_evicts : ¬∀ maxsize c c' host loc buf p fuel,
    maxsize < 18446744073709551616 → Reach maxsize c → Resident c host loc → c.live p = false →
    buf.length ≤ maxsize → cachePut fuel c p host loc buf = some c' →
    (∀ uri data, Entry c' uri data ↔ Entry c uri data) ∧ c'.freesz = c.freesz := by
  intro h
  have h₁ : cachePut 2 (cacheInit 4) 1 [97] [99] [1, 1] =
      some ((cachePut 2 (cacheInit 4) 1 [97] [99] [1, 1]).getD (cacheInit 4)) := rfl
  have r₁ := Reach.put Reach.init rfl (by decide) h₁
  have h₂ : cachePut 3 ((cachePut 2 (cacheInit 4) 1 [97] [99] [1, 1]).getD (cacheInit 4))
      2 [98] [99] [2, 2] = some _ := rfl
  have r₂ := Reach.put r₁ rfl (by decide) h₂
  refine absurd (h 4 _ _ [98] [99] [2, 2] 3 4 (by decide) r₂ ?_ rfl (by decide) rfl).2 (by decide)
  exact ⟨[2, 2], [2, 1], ⟨rfl, rfl, rfl, rfl, rfl, rfl⟩, by decide, 2, by simp, rfl, rfl, rfl⟩

end Csapp.ProxyCache
