import Mathlib
import Csapp.ProxyCache.Invariant

/-!
# The loops of a put end

A node that is promoted comes in front of the walk again, but with more
patience: it is met at most once for each promotion that it still needs, and
once more. The sum of this over the list bounds the walk, whatever the
patiences, and the walk only lowers it for the loop behind it. That loop ends
because the account is right: a pass evicts all but at most one entry, and the
space of all of them is enough.
-/

namespace Csapp.ProxyCache

/-- How often a node of patience `p` may be met. -/
def visits (p : Int) : Nat := if p ≤ 0 then (-p / 3).toNat + 2 else 1

theorem weight_items (c : Cache) (l : List Ptr) :
    weight (l.map (itemOf c)) = (l.map fun q => visits (c.patience q)).sum := by
  unfold weight
  rw [List.map_map]
  refine congrArg List.sum (List.map_congr_left ?_)
  intro q _
  change chances (c.patience q) + 1 = visits (c.patience q)
  unfold chances visits
  split <;> rfl

/-- The first loop leaves no more visits to make than there were. -/
theorem sweep_weight (uri : Str) (size free : Nat) (todo kept : List Item) :
    weight (sweep uri size free todo kept).items ≤ weight todo + weight kept := by
  fun_induction sweep uri size free todo kept with
  | case1 free kept => exact Nat.le_add_left _ _
  | case2 free kept x rest =>
    have hx := weight_pos x
    have h3 : ({ x with patience := defaultPatience } : Item).weight = 1 := rfl
    rw [weight_cons, weight_append, weight_reverse, weight_cons, h3]
    omega
  | case3 free kept x _ hp =>
    have hx := chances_promoted hp
    rw [weight_cons, weight_cons, weight_nil]
    omega
  | case4 free kept x rest _ hp _ ih =>
    have hx := chances_promoted hp
    rw [weight_append, weight_cons, weight_nil] at ih
    rw [weight_cons]
    omega
  | case5 free kept x rest _ _ _ ih =>
    rw [weight_cons]
    omega
  | case6 free kept x rest _ _ _ ih =>
    rw [weight_cons] at ih ⊢
    omega

/-- The patiences have no part in the account. -/
theorem WellFormed.patience {maxsize : Nat} {c : Cache} {l : List Ptr}
    (h : WellFormed maxsize c l) (patience : Ptr → Int) :
    WellFormed maxsize { c with patience := patience } l where
  listed := ⟨h.listed.ring, h.listed.nodup, h.listed.live⟩
  account := h.account.of_content (by simp [itemOf, Item.content])

/-- Both loops end within the visits that the patiences allow. -/
theorem WellFormed.bookkeeping {maxsize : Nat} {c : Cache} {l : List Ptr} {p : Ptr}
    {host loc buf : Str} {fuel : Nat} (h : WellFormed maxsize c l)
    (hm : maxsize < 18446744073709551616) (hp : c.live p = false) (hs : buf.length ≤ maxsize)
    (hf : (l.map fun q => visits (c.patience q)).sum + 1 < fuel) :
    ∃ c₁ found, walk p fuel (entryCreate c p host loc buf) (c.prev head) = some (c₁, found) ∧
      ∃ c₂, drainWhile p fuel c₁ = some c₂ := by
  rw [← weight_items] at hf
  have ht := h.account.total
  have hb : c.freesz + sizes (l.map (itemOf c)) < 18446744073709551616 := lt_of_eq_of_lt ht hm
  obtain ⟨c₁, l₁, hw, hleft⟩ : ∃ c₁ l₁, walk p fuel (entryCreate c p host loc buf) _ = _ ∧
      Left _ c₁ [p] l₁ _ _ := h.holds.walk_entry hp hb (Nat.lt_of_succ_lt hf)
  have htot := sweep_total (uriGen host loc) buf.length c.freesz (l.map (itemOf c)).reverse []
  rw [sizes_reverse, sizes_nil, Nat.add_zero] at htot
  have hwt := sweep_weight (uriGen host loc) buf.length c.freesz (l.map (itemOf c)).reverse []
  rw [weight_reverse, weight_nil, Nat.add_zero] at hwt
  obtain ⟨c₂, l₂, hd, -⟩ := hleft.drain_entry (htot ▸ hb) (htot ▸ ht ▸ hs)
    (lt_of_le_of_lt (Nat.add_le_add_right hwt 1) hf)
  exact ⟨c₁, _, hw, c₂, hd⟩

/-- In every reachable state, with any patiences, both loops of
`cache_bookkeeping` end for an object that can fit, and so does the call. -/
theorem bookkeeping_ends {maxsize : Nat} {c : Cache} (hm : maxsize < 18446744073709551616)
    (h : Reach maxsize c) (patience : Ptr → Int) {p : Ptr} (hp : c.live p = false)
    {host loc buf : Str} (hs : buf.length ≤ maxsize) :
    ∃ l, Ring c.next c.prev head l ∧
      ∀ fuel, (l.map fun q => visits (patience q)).sum + 1 < fuel →
        (∃ c₁ found,
          walk p fuel (entryCreate { c with patience := patience } p host loc buf) (c.prev head) =
            some (c₁, found) ∧
          ∃ c₂, drainWhile p fuel c₁ = some c₂) ∧
        ∃ r, cacheBookkeeping fuel (entryCreate { c with patience := patience } p host loc buf) p =
          some r := by
  obtain ⟨l, hl⟩ := h.wellFormed hm
  refine ⟨l, hl.listed.ring, ?_⟩
  intro fuel hf
  obtain ⟨c₁, found, hw, c₂, hd⟩ := (hl.patience patience).bookkeeping hm hp hs hf
  refine ⟨⟨c₁, found, hw, c₂, hd⟩, ?_⟩
  unfold cacheBookkeeping
  have hlast : (entryCreate { c with patience := patience } p host loc buf).prev head =
      c.prev head := rfl
  rw [hlast, hw]
  cases found with
  | some q => exact ⟨_, rfl⟩
  | none =>
    dsimp only
    rw [hd]
    exact ⟨_, rfl⟩

/-- One entry, with the least patience there is. -/
theorem bookkeeping_ends_low : ∃ c, cachePut 2 (cacheInit 10) 1 [97] [98] [1, 2, 3] = some c ∧
    ∃ l, Ring c.next c.prev head l ∧
      ∀ fuel, (l.map fun q => visits ((fun _ => -9223372036854775808) q)).sum + 1 < fuel →
        (∃ c₁ found,
          walk 2 fuel (entryCreate { c with patience := fun _ => -9223372036854775808 } 2 [97] [99]
            [1, 2, 3, 4, 5, 6, 7, 8]) (c.prev head) = some (c₁, found) ∧
          ∃ c₂, drainWhile 2 fuel c₁ = some c₂) ∧
        ∃ r, cacheBookkeeping fuel (entryCreate { c with patience := fun _ => -9223372036854775808 }
          2 [97] [99] [1, 2, 3, 4, 5, 6, 7, 8]) 2 = some r := by
  have hc : cachePut 2 (cacheInit 10) 1 [97] [98] [1, 2, 3] = some _ := rfl
  have hr := Reach.put Reach.init rfl (by decide) hc
  exact ⟨_, hc, bookkeeping_ends (by decide) hr (fun _ => -9223372036854775808) rfl (by decide)⟩

end Csapp.ProxyCache
