import Mathlib

/-!
# A least-recently-used set

A set of at most `E` keys is a list in the order of last use, the most recent
one in front. An access to a key moves it to the front; if the key is new and
the list is full, the last one leaves.

The keys only matter up to equality, so an implementation may work with names
for them: a renaming that is injective on the keys in play commutes with every
access (`lru_map`).
-/

namespace Csapp

/-- What an access reports. -/
inductive Outcome
  | hit | miss | evict
deriving DecidableEq, Repr

variable {α β : Type _} [DecidableEq α] [DecidableEq β]

/-- An access to `x`. -/
def lru (E : Nat) (l : List α) (x : α) : Outcome × List α :=
  if x ∈ l then (.hit, x :: l.erase x)
  else if l.length < E then (.miss, x :: l)
  else (.evict, x :: l.dropLast)

theorem lru_of_mem {E : Nat} {l : List α} {x : α} (h : x ∈ l) :
    lru E l x = (.hit, x :: l.erase x) :=
  if_pos h

theorem lru_of_lt {E : Nat} {l : List α} {x : α} (h : x ∉ l) (hl : l.length < E) :
    lru E l x = (.miss, x :: l) := by
  rw [lru, if_neg h, if_pos hl]

theorem lru_of_le {E : Nat} {l : List α} {x : α} (h : x ∉ l) (hl : E ≤ l.length) :
    lru E l x = (.evict, x :: l.dropLast) := by
  rw [lru, if_neg h, if_neg (Nat.not_lt.mpr hl)]

/-- Only the key of the access can be new. -/
theorem mem_lru {E : Nat} {l : List α} {x y : α} (h : y ∈ (lru E l x).2) : y = x ∨ y ∈ l := by
  unfold lru at h
  split at h
  · exact (List.mem_cons.mp h).imp id List.mem_of_mem_erase
  · split at h
    · exact List.mem_cons.mp h
    · exact (List.mem_cons.mp h).imp id List.mem_of_mem_dropLast

theorem erase_map {f : α → β} {l : List α} {x : α}
    (hf : ∀ y ∈ l, f y = f x → y = x) : (l.map f).erase (f x) = (l.erase x).map f := by
  induction l with
  | nil => rfl
  | cons y l ih =>
      have hf' : ∀ z ∈ l, f z = f x → z = x := fun z hz => hf z (List.mem_cons_of_mem _ hz)
      by_cases hy : y = x
      · rw [hy, List.map_cons, List.erase_cons_head, List.erase_cons_head]
      · have hfy : f y ≠ f x := fun he => hy (hf y List.mem_cons_self he)
        rw [List.map_cons, List.erase_cons_tail (by simpa using hfy),
          List.erase_cons_tail (by simpa using hy), List.map_cons, ih hf']

/-- Renaming the keys, injectively where it matters. -/
theorem lru_map {f : α → β} {E : Nat} {l : List α} {x : α}
    (hf : ∀ y ∈ l, f y = f x → y = x) :
    lru E (l.map f) (f x) = ((lru E l x).1, (lru E l x).2.map f) := by
  have hmem : f x ∈ l.map f ↔ x ∈ l := by
    constructor
    · intro h
      obtain ⟨y, hy, he⟩ := List.mem_map.mp h
      exact hf y hy he ▸ hy
    · exact List.mem_map_of_mem
  unfold lru
  rw [List.length_map, erase_map hf]
  simp only [hmem]
  split
  · rfl
  · split
    · rfl
    · rw [← List.map_dropLast]
      rfl

/-! ## Inclusion -/

theorem lru_hit_iff {E : Nat} {l : List α} {x : α} : (lru E l x).1 = .hit ↔ x ∈ l := by
  rw [lru]
  split_ifs with hm
  · exact iff_of_true rfl hm
  · exact iff_of_false nofun hm
  · exact iff_of_false nofun hm

/-- All three cases at once: the key goes to the front and the list is cut. -/
theorem lru_list {E : Nat} {l : List α} (hE : 0 < E) (hl : l.length ≤ E) (x : α) :
    (lru E l x).2 = (x :: l.erase x).take E := by
  obtain ⟨n, rfl⟩ : ∃ n, E = n + 1 := ⟨E - 1, by omega⟩
  by_cases hm : x ∈ l
  · have hlen : (l.erase x).length ≤ n := by
      rw [List.length_erase_of_mem hm]
      omega
    rw [lru_of_mem hm, List.take_succ_cons, List.take_of_length_le hlen]
  · rw [List.erase_of_not_mem hm, List.take_succ_cons]
    rcases Nat.lt_or_ge l.length (n + 1) with hlt | hge
    · rw [lru_of_lt hm hlt, List.take_of_length_le (by omega)]
    · have hfull : l.length - 1 = n := by omega
      rw [lru_of_le hm hge, List.dropLast_eq_take, hfull]

theorem lru_length_le {E : Nat} {l : List α} (hE : 0 < E) (hl : l.length ≤ E) (x : α) :
    (lru E l x).2.length ≤ E := by
  rw [lru_list hE hl, List.length_take]
  exact Nat.min_le_left _ _

theorem take_erase (l : List α) (x : α) (n : Nat) :
    ((l.take (n + 1)).erase x).take n = (l.erase x).take n := by
  induction l generalizing n with
  | nil => rw [List.take_nil, List.erase_nil]
  | cons y l ih =>
      rw [List.take_succ_cons]
      by_cases hy : y = x
      · rw [hy, List.erase_cons_head, List.erase_cons_head, List.take_take, Nat.min_self]
      · rw [List.erase_cons_tail (by simpa using hy), List.erase_cons_tail (by simpa using hy)]
        cases n with
        | zero => rfl
        | succ n => rw [List.take_succ_cons, List.take_succ_cons, ih]

/-- Of two sets of which one is the front of the other, an access makes two such sets. -/
theorem lru_take {E₁ E₂ : Nat} {l : List α} (h₁ : 0 < E₁) (h₁₂ : E₁ ≤ E₂) (hl : l.length ≤ E₂)
    (x : α) : (lru E₁ (l.take E₁) x).2 = (lru E₂ l x).2.take E₁ := by
  have hlen : (l.take E₁).length ≤ E₁ := by
    rw [List.length_take]
    exact Nat.min_le_left _ _
  rw [lru_list h₁ hlen, lru_list (Nat.lt_of_lt_of_le h₁ h₁₂) hl, List.take_take,
    Nat.min_eq_left h₁₂]
  obtain ⟨n, rfl⟩ : ∃ n, E₁ = n + 1 := ⟨E₁ - 1, by omega⟩
  rw [List.take_succ_cons, List.take_succ_cons, take_erase]

/-- The smaller set hits only where the larger one does. -/
theorem lru_take_hit {E₁ E₂ : Nat} {l : List α} {x : α} (h : (lru E₁ (l.take E₁) x).1 = .hit) :
    (lru E₂ l x).1 = .hit :=
  lru_hit_iff.mpr (List.mem_of_mem_take (lru_hit_iff.mp h))

end Csapp
