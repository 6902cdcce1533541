import Mathlib
import Csapp.Lib.Lru
import Csapp.Cachelab.Csim

/-!
# One cache set

The code keeps no order among the lines of a set: the lines in use come first,
in the order they were filled, and the order of last use is in their time
stamps. `SetRel` reads the list of the LRU set off them. The loop over the
lines stops at the line with the tag, or at the first one not in use, or has
seen all of them and knows the least time stamp; the least one is the end of
the list because no two time stamps are equal.
-/

namespace Csapp.Cachelab

/-! ## The loop over the lines -/

/-- A line in use with another tag. -/
def Other (t : Int) (l : CacheLine) : Prop := l.tag ≠ t ∧ 0 ≤ l.tag

theorem scan_hit {t : Int} {l : CacheLine} {post : List CacheLine} (hl : l.tag = t) :
    ∀ {pre : List CacheLine} {i : Nat} {m : BitVec 64} {a : Nat}, (∀ x ∈ pre, Other t x) →
      scan t (pre ++ l :: post) i m a = .hit (i + pre.length) := by
  intro pre
  induction pre with
  | nil => intro i m a _; exact if_pos hl
  | cons x pre ih =>
      intro i m a h
      obtain ⟨hne, hpos⟩ := h x (by simp)
      have ih := fun m a => ih (i := i + 1) (m := m) (a := a) fun y hy => h y (by simp [hy])
      rw [List.cons_append, scan, if_neg hne, if_neg (Int.not_lt.mpr hpos), ih, ih, ite_self,
        List.length_cons, Nat.add_assoc, Nat.add_comm 1]

theorem scan_free {t : Int} {l : CacheLine} {post : List CacheLine} (ht : 0 ≤ t)
    (hl : l.tag < 0) :
    ∀ {pre : List CacheLine} {i : Nat} {m : BitVec 64} {a : Nat}, (∀ x ∈ pre, Other t x) →
      scan t (pre ++ l :: post) i m a = .miss (i + pre.length) 0 := by
  intro pre
  induction pre with
  | nil =>
      intro i m a _
      rw [List.nil_append, scan, if_neg (by omega), if_pos hl]
      rfl
  | cons x pre ih =>
      intro i m a h
      obtain ⟨hne, hpos⟩ := h x (by simp)
      have ih := fun m a => ih (i := i + 1) (m := m) (a := a) fun y hy => h y (by simp [hy])
      rw [List.cons_append, scan, if_neg hne, if_neg (Int.not_lt.mpr hpos), ih, ih, ite_self,
        List.length_cons, Nat.add_assoc, Nat.add_comm 1]

/-- With no line free, the loop ends with the least time stamp below the one it
started with, if there is one. -/
theorem scan_full {t : Int} {ls : List CacheLine} :
    ∀ {i : Nat} {m : BitVec 64} {a : Nat}, (∀ x ∈ ls, Other t x) →
      (∀ x ∈ ls, m ≤ x.ts) ∧ scan t ls i m a = .miss a m ∨
      ∃ pre l post, ls = pre ++ l :: post ∧ l.ts < m ∧ (∀ x ∈ ls, l.ts ≤ x.ts) ∧
        scan t ls i m a = .miss (i + pre.length) l.ts := by
  induction ls with
  | nil => intro i m a _; exact .inl ⟨by simp, rfl⟩
  | cons x ls ih =>
      intro i m a h
      obtain ⟨hne, hpos⟩ := h x (by simp)
      have hls : ∀ y ∈ ls, Other t y := fun y hy => h y (by simp [hy])
      rw [scan, if_neg hne, if_neg (Int.not_lt.mpr hpos)]
      by_cases hlt : x.ts < m
      · rw [if_pos hlt]
        rcases ih (i := i + 1) (m := x.ts) (a := i) hls with
          ⟨hle, hs⟩ | ⟨pre, l, post, he, hl, hle, hs⟩
        · refine .inr ⟨[], x, ls, rfl, hlt, ?_, hs⟩
          intro y hy
          cases hy with
          | head => exact BitVec.le_refl _
          | tail _ hy => exact hle y hy
        · refine .inr ⟨x :: pre, l, post, by rw [he]; rfl, BitVec.lt_trans hl hlt, ?_, ?_⟩
          · intro y hy
            cases hy with
            | head => exact BitVec.le_of_lt hl
            | tail _ hy => exact hle y hy
          · rw [hs, List.length_cons, Nat.add_assoc, Nat.add_comm 1]
      · have hmx : m ≤ x.ts := BitVec.not_lt.mp hlt
        rw [if_neg hlt]
        rcases ih (i := i + 1) (m := m) (a := a) hls with
          ⟨hle, hs⟩ | ⟨pre, l, post, he, hl, hle, hs⟩
        · refine .inl ⟨?_, hs⟩
          intro y hy
          cases hy with
          | head => exact hmx
          | tail _ hy => exact hle y hy
        · refine .inr ⟨x :: pre, l, post, by rw [he]; rfl, hl, ?_, ?_⟩
          · intro y hy
            cases hy with
            | head => exact BitVec.le_trans (BitVec.le_of_lt hl) hmx
            | tail _ hy => exact hle y hy
          · rw [hs, List.length_cons, Nat.add_assoc, Nat.add_comm 1]

/-! ## The lines of a set -/

/-- Lines in use, the last used one in front. -/
structure Ordered (tick : BitVec 64) (order : List CacheLine) : Prop where
  sorted : order.Pairwise fun x y => y.ts < x.ts
  tags : (order.map CacheLine.tag).Nodup
  bounds : ∀ l ∈ order, 0 ≤ l.tag ∧ 0 < l.ts ∧ l.ts ≤ tick

/-- The lines of a set hold the keys `tags`. -/
def SetRel (E : Nat) (tick : BitVec 64) (lines : List CacheLine) (tags : List Int) : Prop :=
  ∃ used free order, lines = used ++ free ∧ lines.length = E ∧ (∀ l ∈ free, l.tag < 0) ∧
    order.Perm used ∧ order.map CacheLine.tag = tags ∧ Ordered tick order

theorem lt_succ {x tick : BitVec 64} (h : x ≤ tick) (ht : tick.toNat + 1 < 2 ^ 64) :
    x < tick + 1 := by
  bv_omega

theorem Ordered.mono {tick tick' : BitVec 64} {order : List CacheLine} (h : Ordered tick order)
    (ht : tick ≤ tick') : Ordered tick' order where
  sorted := h.sorted
  tags := h.tags
  bounds := fun l hl =>
    have ⟨h1, h2, h3⟩ := h.bounds l hl
    ⟨h1, h2, BitVec.le_trans h3 ht⟩

/-- Some lines stay, and one with the new time stamp comes in front. -/
theorem Ordered.cons {tick : BitVec 64} {order stay : List CacheLine} {t : Int}
    (h : Ordered tick order) (hs : stay.Sublist order) (hn : t ∉ stay.map CacheLine.tag)
    (ht : 0 ≤ t) (htick : tick.toNat + 1 < 2 ^ 64) :
    Ordered (tick + 1) (⟨t, tick + 1⟩ :: stay) := by
  have hlt : ∀ l ∈ stay, l.ts < tick + 1 :=
    fun l hl => lt_succ (h.bounds l (hs.subset hl)).2.2 htick
  refine ⟨List.pairwise_cons.mpr ⟨hlt, h.sorted.sublist hs⟩,
    List.nodup_cons.mpr ⟨hn, h.tags.sublist (hs.map _)⟩, ?_⟩
  intro l hl
  cases hl with
  | head => exact ⟨ht, by bv_omega, BitVec.le_refl _⟩
  | tail _ hl =>
      obtain ⟨h1, h2, _⟩ := h.bounds l (hs.subset hl)
      exact ⟨h1, h2, BitVec.le_of_lt (hlt l hl)⟩

/-- The end of the list is the line with the least time stamp. -/
theorem Ordered.least {tick : BitVec 64} {order : List CacheLine} {l : CacheLine}
    (h : Ordered tick order) (hl : l ∈ order) (hle : ∀ x ∈ order, l.ts ≤ x.ts) :
    order = order.dropLast ++ [l] := by
  have hne : order ≠ [] := List.ne_nil_of_mem hl
  have hsplit := List.dropLast_append_getLast hne
  have hsort := h.sorted
  rw [← hsplit] at hl hsort
  rcases List.mem_append.mp hl with hm | hm
  · have hlt := (List.pairwise_append.mp hsort).2.2 l hm _ (List.mem_singleton.mpr rfl)
    exact absurd (hle _ (List.getLast_mem hne)) (BitVec.not_le.mpr hlt)
  · rw [List.mem_singleton.mp hm]
    exact hsplit.symm

theorem SetRel.mono {E : Nat} {tick tick' : BitVec 64} {lines : List CacheLine} {tags : List Int}
    (h : SetRel E tick lines tags) (ht : tick ≤ tick') : SetRel E tick' lines tags := by
  obtain ⟨used, free, order, h1, h2, h3, h4, h5, h6⟩ := h
  exact ⟨used, free, order, h1, h2, h3, h4, h5, h6.mono ht⟩

/-- No line is in use at the start. -/
theorem setRel_init {E : Nat} {lines : List CacheLine} (hlen : lines.length = E)
    (h : ∀ l ∈ lines, l.tag < 0) : SetRel E 0 lines [] :=
  ⟨[], lines, [], rfl, hlen, h, .nil, rfl, .nil, List.nodup_nil, fun _ hl => nomatch hl⟩

/-! ## An access to a set -/

/-- The flags that `access_cache` returns. -/
def Outcome.result : Outcome → OpResult
  | .hit => kHit
  | .miss => kMiss
  | .evict => kMiss ||| kEvict

/-- What an access does in its set. -/
def accessSet (tag : Int) (tick : BitVec 64) (lines : List CacheLine) :
    Option (OpResult × List CacheLine) :=
  match scan tag lines 0 (BitVec.allOnes 64) 0 with
  | .hit i => some (kHit, lines.modify i fun l => { l with ts := tick })
  | .miss argmin minTs =>
    if lines.length ≤ argmin then none
    else
      some (if minTs ≠ 0 then kMiss ||| kEvict else kMiss,
        lines.modify argmin fun _ => ⟨tag, tick⟩)

theorem modify_middle {α : Type} (pre post : List α) (x : α) (f : α → α) :
    (pre ++ x :: post).modify pre.length f = pre ++ f x :: post := by
  induction pre with
  | nil => rfl
  | cons y pre ih => rw [List.cons_append, List.length_cons, List.modify_succ_cons, ih]; rfl

section

variable {E : Nat} {tick : BitVec 64} {used free order : List CacheLine} {t : Int}

theorem perm_stay {l : CacheLine} {a b pre post : List CacheLine}
    (h : (a ++ l :: b).Perm (pre ++ l :: post)) : (a ++ b).Perm (pre ++ post) :=
  (List.perm_middle.symm.trans (h.trans List.perm_middle)).cons_inv

theorem accessSet_hit (hp : order.Perm used) (ho : Ordered tick order)
    (hlen : (used ++ free).length = E) (hf : ∀ l ∈ free, l.tag < 0)
    (htick : tick.toNat + 1 < 2 ^ 64) (hmem : t ∈ order.map CacheLine.tag) :
    ∃ lines', accessSet t (tick + 1) (used ++ free) = some (kHit, lines') ∧
      SetRel E (tick + 1) lines' (t :: (order.map CacheLine.tag).erase t) := by
  obtain ⟨l, hl, rfl⟩ := List.mem_map.mp hmem
  obtain ⟨a, b, rfl⟩ := List.append_of_mem hl
  obtain ⟨pre, post, rfl⟩ := List.append_of_mem (hp.mem_iff.mp hl)
  have hnodup := ho.tags
  have hnodup' := (hp.map CacheLine.tag).nodup_iff.mp hnodup
  rw [List.map_append, List.map_cons] at hnodup hnodup'
  have hpre : ∀ x ∈ pre, Other l.tag x := by
    intro x hx
    refine ⟨fun he => ?_, (ho.bounds x (hp.mem_iff.mpr (by simp [hx]))).1⟩
    exact (List.nodup_append.mp hnodup').2.2 _ (List.mem_map_of_mem hx) _ List.mem_cons_self he
  have hscan : scan l.tag (pre ++ l :: (post ++ free)) 0 (BitVec.allOnes 64) 0 =
      .hit pre.length := by
    rw [scan_hit rfl hpre, Nat.zero_add]
  have ha : l.tag ∉ a.map CacheLine.tag := fun hm =>
    (List.nodup_append.mp hnodup).2.2 _ hm _ List.mem_cons_self rfl
  have hb : l.tag ∉ b.map CacheLine.tag :=
    (List.nodup_cons.mp (List.nodup_append.mp hnodup).2.1).1
  have hab : l.tag ∉ (a ++ b).map CacheLine.tag := by
    rw [List.map_append]
    exact fun hm => (List.mem_append.mp hm).elim ha hb
  have hkeys : l.tag :: ((a ++ l :: b).map CacheLine.tag).erase l.tag =
      l.tag :: (a ++ b).map CacheLine.tag := by
    rw [List.map_append, List.map_cons, List.erase_append_right _ ha, List.erase_cons_head,
      ← List.map_append]
  refine ⟨pre ++ ⟨l.tag, tick + 1⟩ :: (post ++ free), ?_,
    pre ++ ⟨l.tag, tick + 1⟩ :: post, free, ⟨l.tag, tick + 1⟩ :: (a ++ b), by simp,
    by rw [← hlen]; simp, hf, ?_, hkeys.symm, ?_⟩
  · rw [accessSet, List.append_assoc, List.cons_append, hscan]
    exact congrArg (fun x => some (kHit, x)) (modify_middle ..)
  · exact ((perm_stay hp).cons _).trans List.perm_middle.symm
  · have hsub : (a ++ b).Sublist (a ++ l :: b) :=
      (List.Sublist.refl a).append (List.sublist_cons_self l b)
    exact ho.cons hsub hab (ho.bounds l hl).1 htick

theorem accessSet_free {l : CacheLine} (hp : order.Perm used) (ho : Ordered tick order)
    (hlen : (used ++ l :: free).length = E) (hf : ∀ x ∈ l :: free, x.tag < 0)
    (htick : tick.toNat + 1 < 2 ^ 64) (ht : 0 ≤ t) (hmem : t ∉ order.map CacheLine.tag) :
    ∃ lines', accessSet t (tick + 1) (used ++ l :: free) = some (kMiss, lines') ∧
      SetRel E (tick + 1) lines' (t :: order.map CacheLine.tag) := by
  have hused : ∀ x ∈ used, Other t x := by
    intro x hx
    have hx' := hp.mem_iff.mpr hx
    exact ⟨fun he => hmem (he ▸ List.mem_map_of_mem hx'), (ho.bounds x hx').1⟩
  have hscan : scan t (used ++ l :: free) 0 (BitVec.allOnes 64) 0 = .miss used.length 0 := by
    rw [scan_free ht (hf l List.mem_cons_self) hused, Nat.zero_add]
  refine ⟨used ++ ⟨t, tick + 1⟩ :: free, ?_, used ++ [⟨t, tick + 1⟩], free,
    ⟨t, tick + 1⟩ :: order, by simp, by rw [← hlen]; simp,
    fun x hx => hf x (List.mem_cons_of_mem l hx), ?_, rfl,
    ho.cons (List.Sublist.refl _) hmem ht htick⟩
  · rw [accessSet, hscan]
    simp only [List.length_append, List.length_cons]
    rw [if_neg (by omega), modify_middle]
    rfl
  · exact (hp.cons _).trans (List.perm_append_singleton _ used).symm

theorem accessSet_full (hp : order.Perm used) (ho : Ordered tick order)
    (hlen : used.length = E) (hE : 0 < E)
    (htick : tick.toNat + 1 < 2 ^ 64) (ht : 0 ≤ t) (hmem : t ∉ order.map CacheLine.tag) :
    ∃ lines', accessSet t (tick + 1) used = some (kMiss ||| kEvict, lines') ∧
      SetRel E (tick + 1) lines' (t :: (order.map CacheLine.tag).dropLast) := by
  have hused : ∀ x ∈ used, Other t x := by
    intro x hx
    have hx' := hp.mem_iff.mpr hx
    exact ⟨fun he => hmem (he ▸ List.mem_map_of_mem hx'), (ho.bounds x hx').1⟩
  rcases scan_full (i := 0) (m := BitVec.allOnes 64) (a := 0) hused with
    ⟨hle, _⟩ | ⟨pre, l, post, rfl, _, hle, hscan⟩
  · -- no time stamp is as large as the start value
    have hones : (BitVec.allOnes 64).toNat = 2 ^ 64 - 1 := BitVec.toNat_allOnes
    obtain ⟨x, hx⟩ := List.exists_mem_of_length_pos (hlen.symm ▸ hE)
    have hbig := hle x hx
    have hsmall := (ho.bounds x (hp.mem_iff.mpr hx)).2.2
    bv_omega
  · have hl : l ∈ order := hp.mem_iff.mpr (by simp)
    have hlast := ho.least hl fun x hx => hle x (hp.mem_iff.mp hx)
    have hpos := (ho.bounds l hl).2.1
    have hkeys : (order.map CacheLine.tag).dropLast = order.dropLast.map CacheLine.tag :=
      List.map_dropLast.symm
    have hnew : t ∉ order.dropLast.map CacheLine.tag := by
      rw [← hkeys]
      exact fun hm => hmem (List.mem_of_mem_dropLast hm)
    rw [hlast] at hp
    have hstay := perm_stay (b := []) hp
    rw [List.append_nil] at hstay
    refine ⟨pre ++ ⟨t, tick + 1⟩ :: post, ?_, pre ++ ⟨t, tick + 1⟩ :: post, [],
      ⟨t, tick + 1⟩ :: order.dropLast, by simp, by rw [← hlen]; simp, (fun _ hx => nomatch hx),
      ?_, by rw [hkeys]; rfl, ho.cons (List.dropLast_sublist _) hnew ht htick⟩
    · have hne : l.ts ≠ 0 := by bv_omega
      rw [accessSet, hscan]
      simp only [List.length_append, List.length_cons, Nat.zero_add]
      rw [if_neg (by omega), if_pos hne, modify_middle]
    · exact (hstay.cons _).trans List.perm_middle.symm

end

/-- An access to a set is an access to the LRU set of its tags. -/
theorem SetRel.access {E : Nat} {tick : BitVec 64} {lines : List CacheLine} {tags : List Int}
    {t : Int} (h : SetRel E tick lines tags) (hE : 0 < E) (ht : 0 ≤ t)
    (htick : tick.toNat + 1 < 2 ^ 64) :
    ∃ lines', accessSet t (tick + 1) lines = some (Outcome.result (lru E tags t).1, lines') ∧
      SetRel E (tick + 1) lines' (lru E tags t).2 := by
  obtain ⟨used, free, order, rfl, hlen, hf, hp, rfl, ho⟩ := h
  have hkeys : (order.map CacheLine.tag).length = used.length := by
    rw [List.length_map, hp.length_eq]
  by_cases hmem : t ∈ order.map CacheLine.tag
  · rw [lru_of_mem hmem]
    exact accessSet_hit hp ho hlen hf htick hmem
  · cases free with
    | cons l free =>
        rw [lru_of_lt hmem (by rw [hkeys, ← hlen]; simp)]
        exact accessSet_free hp ho hlen hf htick ht hmem
    | nil =>
        rw [List.append_nil] at hlen ⊢
        rw [lru_of_le hmem (by rw [hkeys, hlen])]
        exact accessSet_full hp ho hlen hE htick ht hmem

end Csapp.Cachelab
