import Mathlib
import Csapp.ProxyCache.Links

/-!
# Bookkeeping without links

The backward walk of `cache_bookkeeping` is a queue: what it has still to visit,
the tail of the list first, and behind that what it has passed and kept. An
entry whose patience is used up goes to the front of the list and so to the end
of the queue, except when it is the last one, for then the walk has already
stepped on to the head. That exception is what leaves entries for the second
loop to drain.

An entry is promoted only as often as its patience needs to become positive; the
weight of a queue counts these promotions and bounds the steps of both loops.
-/

namespace Csapp.ProxyCache

/-- An entry of the list. -/
structure Item where
  ptr : Ptr
  patience : Int
  uri : Str
  data : Str
  size : Nat

/-- The item with more patience. -/
def Item.promoted (x : Item) : Item := { x with patience := x.patience + defaultPatience }

/-- How often an entry is promoted before its patience is positive. -/
def chances (p : Int) : Nat := if p ≤ 0 then (-p / 3).toNat + 1 else 0

/-- How often the item may still be met. -/
def Item.weight (x : Item) : Nat := chances x.patience + 1

/-- The same for a list. -/
def weight (l : List Item) : Nat := (l.map Item.weight).sum

/-- The bytes of a list. -/
def sizes (l : List Item) : Nat := (l.map Item.size).sum

theorem chances_promoted {x : Item} (h : x.patience ≤ 0) : x.promoted.weight + 1 = x.weight := by
  unfold Item.weight Item.promoted chances defaultPatience
  dsimp only
  rw [if_pos h]
  split <;> omega

@[simp] theorem weight_nil : weight [] = 0 := rfl

@[simp] theorem weight_cons (x : Item) (l : List Item) :
    weight (x :: l) = x.weight + weight l := List.sum_cons

@[simp] theorem weight_append (l₁ l₂ : List Item) :
    weight (l₁ ++ l₂) = weight l₁ + weight l₂ := by
  unfold weight
  rw [List.map_append, List.sum_append]

@[simp] theorem weight_reverse (l : List Item) : weight l.reverse = weight l := by
  unfold weight
  rw [List.map_reverse, List.sum_reverse]

theorem weight_pos (x : Item) : 0 < x.weight := Nat.succ_pos _

@[simp] theorem sizes_nil : sizes [] = 0 := rfl

@[simp] theorem sizes_cons (x : Item) (l : List Item) :
    sizes (x :: l) = x.size + sizes l := List.sum_cons

@[simp] theorem sizes_append (l₁ l₂ : List Item) : sizes (l₁ ++ l₂) = sizes l₁ + sizes l₂ := by
  unfold sizes
  rw [List.map_append, List.sum_append]

@[simp] theorem sizes_reverse (l : List Item) : sizes l.reverse = sizes l := by
  unfold sizes
  rw [List.map_reverse, List.sum_reverse]

@[simp] theorem size_promoted (x : Item) : x.promoted.size = x.size := rfl

/-! ## The first loop -/

/-- What a sweep leaves. -/
structure Swept where
  free : Nat
  found : Option Ptr
  items : List Item

/-- The walk for an entry `uri` of `size` bytes, with `todo` still to visit. -/
def sweep (uri : Str) (size free : Nat) (todo kept : List Item) : Swept :=
  match todo with
  | [] => ⟨free, none, kept⟩
  | x :: rest =>
    if x.uri = uri then
      ⟨free, some x.ptr, { x with patience := defaultPatience } :: (rest.reverse ++ kept)⟩
    else if x.patience ≤ 0 then
      if rest = [] then ⟨free, none, x.promoted :: kept⟩
      else sweep uri size free (rest ++ [x.promoted]) kept
    else if free < size then sweep uri size (free + x.size) rest kept
    else sweep uri size free rest (x :: kept)
termination_by weight todo
decreasing_by
  · rename_i h _
    have hx := chances_promoted h
    simp
    omega
  · have hx := weight_pos x
    simp
    omega
  · have hx := weight_pos x
    simp
    omega

section

variable {uri : Str} {size free : Nat} {x : Item} {rest kept : List Item}

theorem sweep_found_eq (hu : x.uri = uri) : sweep uri size free (x :: rest) kept =
    ⟨free, some x.ptr, { x with patience := defaultPatience } :: (rest.reverse ++ kept)⟩ := by
  rw [sweep, if_pos hu]

theorem sweep_last_eq (hu : x.uri ≠ uri) (hp : x.patience ≤ 0) :
    sweep uri size free [x] kept = ⟨free, none, x.promoted :: kept⟩ := by
  rw [sweep, if_neg hu, if_pos hp, if_pos rfl]

theorem sweep_promote_eq (hu : x.uri ≠ uri) (hp : x.patience ≤ 0) (hr : rest ≠ []) :
    sweep uri size free (x :: rest) kept = sweep uri size free (rest ++ [x.promoted]) kept := by
  rw [sweep, if_neg hu, if_pos hp, if_neg hr]

theorem sweep_evict_eq (hu : x.uri ≠ uri) (hp : ¬x.patience ≤ 0) (hs : free < size) :
    sweep uri size free (x :: rest) kept = sweep uri size (free + x.size) rest kept := by
  rw [sweep, if_neg hu, if_neg hp, if_pos hs]

theorem sweep_keep_eq (hu : x.uri ≠ uri) (hp : ¬x.patience ≤ 0) (hs : ¬free < size) :
    sweep uri size free (x :: rest) kept = sweep uri size free rest (x :: kept) := by
  rw [sweep, if_neg hu, if_neg hp, if_neg hs]

end

/-! ## The second loop -/

/-- One pass: the free space and what is left. -/
def drained (free : Nat) (todo : List Item) : Nat × List Item :=
  match todo with
  | [] => (free, [])
  | x :: rest =>
    if x.patience ≤ 0 then
      if rest = [] then (free, [x.promoted])
      else drained free (rest ++ [x.promoted])
    else drained (free + x.size) rest
termination_by weight todo
decreasing_by
  · rename_i h _
    have hx := chances_promoted h
    simp
    omega
  · have hx := weight_pos x
    simp
    omega

section

variable {free : Nat} {x : Item} {rest : List Item}

theorem drained_last_eq (hp : x.patience ≤ 0) : drained free [x] = (free, [x.promoted]) := by
  rw [drained, if_pos hp, if_pos rfl]

theorem drained_promote_eq (hp : x.patience ≤ 0) (hr : rest ≠ []) :
    drained free (x :: rest) = drained free (rest ++ [x.promoted]) := by
  rw [drained, if_pos hp, if_neg hr]

theorem drained_evict_eq (hp : ¬x.patience ≤ 0) :
    drained free (x :: rest) = drained (free + x.size) rest := by
  rw [drained, if_neg hp]

end

theorem drained_weight {free : Nat} {todo : List Item} (h : todo ≠ []) :
    weight (drained free todo).2 < weight todo := by
  fun_induction drained free todo with
  | case1 => exact absurd rfl h
  | case2 free x hp =>
    have hx := chances_promoted hp
    simp
    omega
  | case3 free x rest hp hr ih =>
    have hx := chances_promoted hp
    have hi := ih (by simp)
    simp at hi ⊢
    omega
  | case4 free x rest hp ih =>
    have hx := weight_pos x
    cases rest with
    | nil =>
      rw [drained]
      simp
      omega
    | cons y rest =>
      have hi := ih (by simp)
      simp only [weight_cons] at hi ⊢
      omega

/-- Passes until `size` bytes are free or nothing is left. -/
def drainedAll (size free : Nat) (todo : List Item) : Nat × List Item :=
  if free < size ∧ todo ≠ [] then
    drainedAll size (drained free todo).1 (drained free todo).2
  else (free, todo)
termination_by weight todo
decreasing_by
  rename_i h
  exact drained_weight h.2

/-! ## What both loops keep -/

/-- What no promotion changes of an entry. -/
def Item.content (x : Item) : Ptr × Str × Str × Nat := (x.ptr, x.uri, x.data, x.size)

@[simp] theorem content_promoted (x : Item) : x.promoted.content = x.content := rfl

@[simp] theorem content_patience (x : Item) (p : Int) :
    ({ x with patience := p } : Item).content = x.content := rfl

/-- The entries left over are entries of before. -/
theorem sweep_subperm (uri : Str) (size free : Nat) (todo kept : List Item) :
    ((sweep uri size free todo kept).items.map Item.content).Subperm
      ((todo ++ kept).map Item.content) := by
  fun_induction sweep uri size free todo kept with
  | case1 => exact List.Subperm.refl _
  | case2 free kept x rest =>
    refine (List.Perm.subperm ?_)
    simp only [List.map_cons, List.map_append, List.map_reverse, List.cons_append,
      content_patience]
    exact (List.Perm.append_right _ (List.reverse_perm _)).cons _
  | case3 free kept x => exact List.Subperm.refl _
  | case4 free kept x rest _ _ _ ih =>
    refine ih.trans (List.Perm.subperm ?_)
    simp only [List.map_append, List.map_cons, content_promoted, List.append_assoc,
      List.cons_append, List.nil_append]
    exact List.perm_middle
  | case5 free kept x rest _ _ _ ih =>
    exact ih.trans (List.sublist_cons_self _ _).subperm
  | case6 free kept x rest _ _ _ ih =>
    refine ih.trans (List.Perm.subperm ?_)
    simp only [List.map_append, List.map_cons, List.cons_append]
    exact List.perm_middle

/-- Nothing is lost from the account. -/
theorem sweep_total (uri : Str) (size free : Nat) (todo kept : List Item) :
    (sweep uri size free todo kept).free + sizes (sweep uri size free todo kept).items =
      free + sizes todo + sizes kept := by
  fun_induction sweep uri size free todo kept with
  | case1 => simp
  | case2 =>
    simp
    omega
  | case3 =>
    simp
    omega
  | case4 _ _ _ _ _ _ _ ih =>
    simp at ih ⊢
    omega
  | case5 _ _ _ _ _ _ _ ih =>
    simp at ih ⊢
    omega
  | case6 _ _ _ _ _ _ _ ih =>
    simp at ih ⊢
    omega

/-- When nothing was found, nothing of that name is left. -/
theorem sweep_fresh {uri : Str} {size free : Nat} {todo kept : List Item}
    (h : ∀ x ∈ kept, x.uri ≠ uri) (hn : (sweep uri size free todo kept).found = none) :
    ∀ x ∈ (sweep uri size free todo kept).items, x.uri ≠ uri := by
  fun_induction sweep uri size free todo kept with
  | case1 => exact h
  | case2 => cases hn
  | case3 free kept x hu =>
    intro y hy
    cases hy with
    | head => exact hu
    | tail _ hy => exact h y hy
  | case4 _ _ _ _ _ _ _ ih => exact ih h hn
  | case5 _ _ _ _ _ _ _ ih => exact ih h hn
  | case6 free kept x rest hu _ _ ih =>
    refine ih ?_ hn
    intro y hy
    cases hy with
    | head => exact hu
    | tail _ hy => exact h y hy

/-- What was found carries the name. -/
theorem sweep_found {uri : Str} {size free : Nat} {todo kept : List Item} {p : Ptr}
    (hf : (sweep uri size free todo kept).found = some p) :
    ∃ x ∈ (sweep uri size free todo kept).items, x.ptr = p ∧ x.uri = uri := by
  fun_induction sweep uri size free todo kept with
  | case1 => cases hf
  | case2 free kept x rest hu =>
    cases hf
    exact ⟨_, List.mem_cons_self, rfl, hu⟩
  | case3 => cases hf
  | case4 _ _ _ _ _ _ _ ih => exact ih hf
  | case5 _ _ _ _ _ _ _ ih => exact ih hf
  | case6 _ _ _ _ _ _ _ ih => exact ih hf

theorem drained_subperm (free : Nat) (todo : List Item) :
    ((drained free todo).2.map Item.content).Subperm (todo.map Item.content) := by
  fun_induction drained free todo with
  | case1 => exact List.Subperm.refl _
  | case2 => exact List.Subperm.refl _
  | case3 free x rest _ _ ih =>
    refine ih.trans (List.Perm.subperm ?_)
    simp only [List.map_append, List.map_cons, List.map_nil, content_promoted]
    exact List.perm_append_comm
  | case4 free x rest _ ih => exact ih.trans (List.sublist_cons_self _ _).subperm

theorem drained_total (free : Nat) (todo : List Item) :
    (drained free todo).1 + sizes (drained free todo).2 = free + sizes todo := by
  fun_induction drained free todo with
  | case1 => rfl
  | case2 => simp
  | case3 _ _ _ _ _ ih =>
    simp at ih ⊢
    omega
  | case4 _ _ _ _ ih =>
    simp
    omega

/-- A pass leaves at most the entry that was promoted as the last one. -/
theorem drained_length (free : Nat) (todo : List Item) : (drained free todo).2.length ≤ 1 := by
  fun_induction drained free todo with
  | case1 => exact Nat.zero_le 1
  | case2 => exact Nat.le_refl 1
  | case3 _ _ _ _ _ ih => exact ih
  | case4 _ _ _ _ ih => exact ih

theorem drainedAll_subperm (size free : Nat) (todo : List Item) :
    ((drainedAll size free todo).2.map Item.content).Subperm (todo.map Item.content) := by
  fun_induction drainedAll size free todo with
  | case1 free todo _ ih => exact ih.trans (drained_subperm free todo)
  | case2 => exact List.Subperm.refl _

theorem drainedAll_total (size free : Nat) (todo : List Item) :
    (drainedAll size free todo).1 + sizes (drainedAll size free todo).2 = free + sizes todo := by
  fun_induction drainedAll size free todo with
  | case1 free todo _ ih => exact ih.trans (drained_total free todo)
  | case2 => rfl

/-- Enough is free in the end, if the whole account is enough. -/
theorem drainedAll_enough {size free : Nat} {todo : List Item} (h : size ≤ free + sizes todo) :
    size ≤ (drainedAll size free todo).1 := by
  fun_induction drainedAll size free todo with
  | case1 free todo _ ih => exact ih (h.trans (drained_total free todo).ge)
  | case2 free todo hn =>
    by_contra hlt
    obtain rfl : todo = [] := by
      by_contra hne
      exact hn ⟨by omega, hne⟩
    exact hlt h

end Csapp.ProxyCache
