import Mathlib
import Csapp.ProxyCache.Contents

/-!
# What a put evicts

The loops of `cache_bookkeeping` once more, this time writing down each
eviction and the free space just before it. Up to the first promoted entry the
walk meets the list as it was, tail first, and takes the cold entries while they
are needed; behind that it meets entries that were hot, and evicts them only
when the cold ones were not enough.

The second loop evicts without looking at the free space. That is harmless,
since an entry is kept by the walk only once there is room: the second loop runs
with at most one entry, the one the walk promoted last.
-/

namespace Csapp.ProxyCache

/-- A call of `cache_evict`, and `cache.freesz` before it. -/
structure Eviction where
  node : Ptr
  freesz : Nat

/-! ## The loops with a log -/

/-- `walk`, logged. -/
def walkLogged (pending : Ptr) : Nat → Cache → Ptr → List Eviction →
    Option ((Cache × Option Ptr) × List Eviction)
  | 0, _, _, _ => none
  | fuel + 1, c, node, log =>
    if node = head then some ((c, none), log)
    else if c.uri node = c.uri pending then
      some (((cachePromote c node).setPatience node defaultPatience, some node), log)
    else
      let node := c.prev node
      let last := c.next node
      if c.patience last ≤ 0 then walkLogged pending fuel (cachePromote c last) node log
      else if c.freesz < c.size pending then
        walkLogged pending fuel (cacheEvict c last) node (log ++ [⟨last, c.freesz⟩])
      else walkLogged pending fuel c node log

/-- `drain`, logged. -/
def drainLogged : Nat → Cache → Ptr → List Eviction → Option (Cache × List Eviction)
  | 0, _, _, _ => none
  | fuel + 1, c, node, log =>
    if node = head then some (c, log)
    else
      let node := c.prev node
      let last := c.next node
      if c.patience last ≤ 0 then drainLogged fuel (cachePromote c last) node log
      else drainLogged fuel (cacheEvict c last) node (log ++ [⟨last, c.freesz⟩])

/-- `drainWhile`, logged. -/
def drainWhileLogged (pending : Ptr) : Nat → Cache → List Eviction →
    Option (Cache × List Eviction)
  | 0, _, _ => none
  | fuel + 1, c, log =>
    if c.freesz < c.size pending then
      match drainLogged fuel c (c.prev head) log with
      | none => none
      | some (c, log) => drainWhileLogged pending fuel c log
    else some (c, log)

/-- `cache_bookkeeping`, logged. -/
def cacheBookkeepingLogged (fuel : Nat) (c : Cache) (pending : Ptr) :
    Option ((Cache × Option Ptr) × List Eviction) :=
  match walkLogged pending fuel c (c.prev head) [] with
  | none => none
  | some ((c, some found), log) => some ((c, some found), log)
  | some ((c, none), log) =>
    match drainWhileLogged pending fuel c log with
    | none => none
    | some (c, log) => some ((c, none), log)

/-- `cache_put`, logged. -/
def cachePutLogged (fuel : Nat) (c : Cache) (p : Ptr) (host loc buf : Str) :
    Option (Cache × List Eviction) :=
  let c := entryCreate c p host loc buf
  match cacheBookkeepingLogged fuel c p with
  | none => none
  | some ((c, some _), log) => some (c.free p, log)
  | some ((c, none), log) => some (cacheInsert (c.subFree buf.length) p, log)

/-! ## The log changes nothing -/

theorem walkLogged_erase (pending : Ptr) (fuel : Nat) (c : Cache) (node : Ptr)
    (log : List Eviction) :
    (walkLogged pending fuel c node log).map Prod.fst = walk pending fuel c node := by
  induction fuel generalizing c node log with
  | zero => rfl
  | succ fuel ih =>
    rw [walkLogged, walk]
    dsimp only
    split
    · rfl
    split
    · rfl
    split
    · exact ih _ _ _
    split
    · exact ih _ _ _
    · exact ih _ _ _

theorem drainLogged_erase (fuel : Nat) (c : Cache) (node : Ptr) (log : List Eviction) :
    (drainLogged fuel c node log).map Prod.fst = drain fuel c node := by
  induction fuel generalizing c node log with
  | zero => rfl
  | succ fuel ih =>
    rw [drainLogged, drain]
    dsimp only
    split
    · rfl
    split
    · exact ih _ _ _
    · exact ih _ _ _

theorem drainWhileLogged_erase (pending : Ptr) (fuel : Nat) (c : Cache) (log : List Eviction) :
    (drainWhileLogged pending fuel c log).map Prod.fst = drainWhile pending fuel c := by
  induction fuel generalizing c log with
  | zero => rfl
  | succ fuel ih =>
    rw [drainWhileLogged, drainWhile, ← drainLogged_erase fuel c (c.prev head) log]
    split
    · cases drainLogged fuel c (c.prev head) log with
      | none => rfl
      | some r => exact ih r.1 r.2
    · rfl

theorem cachePutLogged_erase (fuel : Nat) (c : Cache) (p : Ptr) (host loc buf : Str) :
    (cachePutLogged fuel c p host loc buf).map Prod.fst = cachePut fuel c p host loc buf := by
  unfold cachePutLogged cachePut cacheBookkeepingLogged cacheBookkeeping
  dsimp only
  rw [← walkLogged_erase p fuel _ _ []]
  cases walkLogged p fuel (entryCreate c p host loc buf) _ [] with
  | none => rfl
  | some r =>
    obtain ⟨⟨c₁, found⟩, log⟩ := r
    cases found with
    | some q => rfl
    | none =>
      simp only [Option.map_some, ← drainWhileLogged_erase p fuel c₁ log]
      cases drainWhileLogged p fuel c₁ log with
      | none => rfl
      | some r => rfl

/-! ## The log of the queue -/

/-- What the walk evicts, on the list of entries. -/
def evictions (uri : Str) (size free : Nat) (todo : List Item) : List Eviction :=
  match todo with
  | [] => []
  | x :: rest =>
    if x.uri = uri then []
    else if x.patience ≤ 0 then
      if rest = [] then [] else evictions uri size free (rest ++ [x.promoted])
    else if free < size then ⟨x.ptr, free⟩ :: evictions uri size (free + x.size) rest
    else evictions uri size free rest
termination_by weight todo
decreasing_by
  · rename_i h _
    have hx := chances_promoted h
    simp
    omega
  · have hx := weight_pos x
    simp
    omega
  · have hx := weight_pos x
    simp
    omega

theorem walkLogged_evictions {pending : Ptr} {fuel : Nat} {c : Cache} {todo kept : List Ptr}
    {log : List Eviction} {r : (Cache × Option Ptr) × List Eviction}
    (h : Listed c [pending] (todo.reverse ++ kept))
    (hb : c.freesz + sizes (todo.map (itemOf c)) < 18446744073709551616)
    (hw : walkLogged pending fuel c (todo.head?.getD head) log = some r) :
    r.2 = log ++ evictions (c.uri pending) (c.size pending) c.freesz (todo.map (itemOf c)) := by
  induction fuel generalizing c todo kept log with
  | zero => cases hw
  | succ fuel ih =>
    cases todo with
    | nil =>
      rw [List.map_nil, evictions, List.append_nil]
      cases hw
      rfl
    | cons x rest =>
      have ha := h.at
      rw [List.map_cons, sizes_cons] at hb
      rw [List.head?_cons, Option.getD_some, walkLogged, if_neg ha.ne_head] at hw
      dsimp only at hw
      rw [ha.back] at hw
      rw [List.map_cons, evictions]
      by_cases hu : c.uri x = c.uri pending
      · rw [if_pos hu] at hw
        rw [if_pos (show (itemOf c x).uri = _ from hu), List.append_nil]
        cases hw
        rfl
      rw [if_neg hu] at hw
      rw [if_neg (show ¬(itemOf c x).uri = _ from hu)]
      by_cases hp : c.patience x ≤ 0
      · rw [if_pos hp, ha.prev] at hw
        rw [if_pos (show (itemOf c x).patience ≤ 0 from hp)]
        cases rest with
        | nil =>
          -- the walk has stepped on to the head
          rw [List.map_nil, if_pos rfl, List.append_nil]
          cases fuel with
          | zero => cases hw
          | succ fuel =>
            cases hw
            rfl
        | cons y rest =>
          have hne : (y :: rest).map (itemOf c) ≠ [] := List.cons_ne_nil _ _
          rw [if_neg hne, ← ha.promoted_items]
          refine ih ha.promote ?_ hw
          change c.freesz + _ < _
          rw [ha.promoted_items, sizes_append, sizes_cons, size_promoted, sizes_nil]
          omega
      rw [if_neg hp, ha.prev] at hw
      rw [if_neg (show ¬(itemOf c x).patience ≤ 0 from hp)]
      by_cases hs : c.freesz < c.size pending
      · have hfree : (cacheEvict c x).freesz = c.freesz + c.size x :=
          cacheEvict_free (lt_of_le_of_lt (Nat.add_le_add_left (Nat.le_add_right _ _) _) hb)
        rw [if_pos hs] at hw
        rw [if_pos hs]
        have hi := ih ha.evict
          (by
            rw [hfree, Nat.add_assoc]
            exact hb) hw
        rw [hfree, List.append_assoc] at hi
        exact hi
      · rw [if_neg hs] at hw
        rw [if_neg hs]
        exact ih ha.listed (by omega) hw

/-! ## The second loop has one entry at most -/

/-- The walk keeps an entry only when there is room; else it leaves the one it
promoted last. -/
theorem sweep_left {uri : Str} {size free : Nat} {todo kept : List Item}
    (hk : kept = [] ∨ size ≤ free) (hn : (sweep uri size free todo kept).found = none) :
    size ≤ (sweep uri size free todo kept).free ∨
      (sweep uri size free todo kept).items.length ≤ 1 := by
  fun_induction sweep uri size free todo kept with
  | case1 free kept =>
    cases hk with
    | inl hk => simp [hk]
    | inr hk => exact .inl hk
  | case2 => cases hn
  | case3 free kept x =>
    cases hk with
    | inl hk => simp [hk]
    | inr hk => exact .inl hk
  | case4 _ _ _ _ _ _ _ ih => exact ih hk hn
  | case5 free kept x rest _ _ hs ih =>
    cases hk with
    | inl hk => exact ih (.inl hk) hn
    | inr hk => exact absurd hk (not_le.mpr hs)
  | case6 free kept x rest _ _ hs ih => exact ih (.inr (not_lt.mp hs)) hn

theorem drainLogged_short {fuel : Nat} {c : Cache} {hand l : List Ptr} {log : List Eviction}
    {r : Cache × List Eviction} (h : Listed c hand l) (hl : l.length ≤ 1)
    (hd : drainLogged fuel c (c.prev head) log = some r) :
    (∃ l', Listed r.1 hand l' ∧ l'.length ≤ 1) ∧ r.1.size = c.size ∧
      ∃ more, r.2 = log ++ more ∧ ∀ e ∈ more, e.freesz = c.freesz := by
  rw [h.last] at hd
  cases fuel with
  | zero => cases hd
  | succ fuel =>
  cases l with
  | nil =>
    cases hd
    exact ⟨⟨[], h, hl⟩, rfl, [], by simp⟩
  | cons x rest =>
    obtain rfl : rest = [] := by simpa using hl
    have ha : At c hand x [] [] := h.todo.at
    change drainLogged (fuel + 1) c x log = some r at hd
    rw [drainLogged, if_neg ha.ne_head] at hd
    dsimp only at hd
    rw [ha.back, ha.prev] at hd
    cases fuel with
    | zero => split at hd <;> cases hd
    | succ fuel =>
      split at hd
      next hp =>
        cases hd
        exact ⟨⟨[x], ha.promote, hl⟩, rfl, [], by simp⟩
      next hp =>
        cases hd
        exact ⟨⟨[], ha.evict, Nat.zero_le 1⟩, rfl, [⟨x, c.freesz⟩], rfl, by simp⟩

theorem drainWhileLogged_short {pending : Ptr} {fuel : Nat} {c : Cache} {hand l : List Ptr}
    {log : List Eviction} {r : Cache × List Eviction} (h : Listed c hand l) (hl : l.length ≤ 1)
    (hd : drainWhileLogged pending fuel c log = some r) :
    ∃ more, r.2 = log ++ more ∧ ∀ e ∈ more, e.freesz < c.size pending := by
  induction fuel generalizing c l log with
  | zero => cases hd
  | succ fuel ih =>
    rw [drainWhileLogged] at hd
    split at hd
    next hs =>
      cases hr : drainLogged fuel c (c.prev head) log with
      | none =>
        rw [hr] at hd
        cases hd
      | some s =>
        rw [hr] at hd
        obtain ⟨⟨l', hl', hlen⟩, hz, more₁, he₁, hm₁⟩ := drainLogged_short h hl hr
        obtain ⟨more₂, he₂, hm₂⟩ := ih hl' hlen hd
        refine ⟨more₁ ++ more₂, ?_, ?_⟩
        · rw [he₂, he₁, List.append_assoc]
        · intro e he
          cases List.mem_append.mp he with
          | inl he => exact lt_of_eq_of_lt (hm₁ e he) hs
          | inr he => exact hz ▸ hm₂ e he
    next hs =>
      cases hd
      exact ⟨[], by simp⟩

/-- With room, the second loop does nothing. -/
theorem drainWhileLogged_room {pending : Ptr} {fuel : Nat} {c : Cache} {log : List Eviction}
    {r : Cache × List Eviction} (h : c.size pending ≤ c.freesz)
    (hd : drainWhileLogged pending fuel c log = some r) : r = (c, log) := by
  cases fuel with
  | zero => cases hd
  | succ fuel =>
    rw [drainWhileLogged, if_neg (not_lt.mpr h)] at hd
    cases hd
    rfl

/-! ## The walk takes cold entries first -/

/-- The item has patience left, and so is not spared. -/
def Item.cold (x : Item) : Bool := 0 < x.patience

theorem filter_cold_of_hot {x : Item} (l : List Item) (hp : x.patience ≤ 0) :
    (x :: l).filter Item.cold = l.filter Item.cold :=
  List.filter_cons_of_neg (by simpa [Item.cold] using hp)

theorem filter_cold_of_cold {x : Item} (l : List Item) (hp : ¬x.patience ≤ 0) :
    (x :: l).filter Item.cold = x :: l.filter Item.cold :=
  List.filter_cons_of_pos (by simpa [Item.cold] using hp)

theorem evictions_free {uri : Str} {size free : Nat} {todo : List Item} :
    ∀ e ∈ evictions uri size free todo, e.freesz < size := by
  fun_induction evictions uri size free todo with
  | case1 => simp
  | case2 => simp
  | case3 => simp
  | case4 _ _ _ _ _ _ ih => exact ih
  | case5 free x rest _ _ hs ih =>
    intro e he
    cases he with
    | head => exact hs
    | tail _ he => exact ih e he
  | case6 _ _ _ _ _ _ ih => exact ih

theorem evictions_room {uri : Str} {size free : Nat} {todo : List Item} (h : size ≤ free) :
    evictions uri size free todo = [] := by
  fun_induction evictions uri size free todo with
  | case1 => rfl
  | case2 => rfl
  | case3 => rfl
  | case4 _ _ _ _ _ _ ih => exact ih h
  | case5 free x rest _ _ hs => exact absurd h (not_le.mpr hs)
  | case6 _ _ _ _ _ _ ih => exact ih h

theorem sweep_free_le (uri : Str) (size free : Nat) (todo kept : List Item) :
    free ≤ (sweep uri size free todo kept).free := by
  fun_induction sweep uri size free todo kept with
  | case1 => exact Nat.le_refl _
  | case2 => exact Nat.le_refl _
  | case3 => exact Nat.le_refl _
  | case4 _ _ _ _ _ _ _ ih => exact ih
  | case5 _ _ _ _ _ _ _ ih => exact (Nat.le_add_right _ _).trans ih
  | case6 _ _ _ _ _ _ _ ih => exact ih

/-- The cold entries of the list are enough, if they are enough at all. -/
theorem sweep_room {uri : Str} {size free : Nat} {todo behind kept : List Item}
    (hu : ∀ x ∈ todo, x.uri ≠ uri) (h : size ≤ free + sizes (todo.filter Item.cold)) :
    size ≤ (sweep uri size free (todo ++ behind) kept).free := by
  induction todo generalizing free behind kept with
  | nil => exact Nat.le_trans h (sweep_free_le _ _ _ _ _)
  | cons x todo ih =>
    have hx := hu x List.mem_cons_self
    have hu' : ∀ y ∈ todo, y.uri ≠ uri := fun y hy => hu y (List.mem_cons_of_mem _ hy)
    by_cases hs : free < size
    · by_cases hp : x.patience ≤ 0
      · rw [filter_cold_of_hot todo hp] at h
        have hr : todo ++ behind ≠ [] := by
          intro hr
          rw [List.append_eq_nil_iff] at hr
          rw [hr.1] at h
          exact absurd h (by simpa using hs)
        rw [List.cons_append, sweep_promote_eq hx hp hr, List.append_assoc]
        exact ih hu' h
      · rw [filter_cold_of_cold todo hp, sizes_cons] at h
        rw [List.cons_append, sweep_evict_eq hx hp hs]
        exact ih hu' (by omega)
    · exact (not_lt.mp hs).trans (sweep_free_le _ _ _ _ _)

/-- Entries taken in order until there is room. -/
def taken (size free : Nat) : List Item → List Eviction
  | [] => []
  | x :: l => if free < size then ⟨x.ptr, free⟩ :: taken size (free + x.size) l else []

theorem taken_room {size free : Nat} {l : List Item} (h : size ≤ free) : taken size free l = [] := by
  cases l with
  | nil => rfl
  | cons x l => rw [taken, if_neg (not_lt.mpr h)]

theorem evictions_pass {uri : Str} {size free : Nat} {todo behind : List Item}
    (hu : ∀ x ∈ todo, x.uri ≠ uri) :
    ∃ free' behind', evictions uri size free (todo ++ behind) =
        taken size free (todo.filter Item.cold) ++ evictions uri size free' behind' ∧
      (size ≤ free + sizes (todo.filter Item.cold) → size ≤ free') := by
  induction todo generalizing free behind with
  | nil => exact ⟨free, behind, rfl, fun h => h⟩
  | cons x todo ih =>
    have hx := hu x List.mem_cons_self
    have hu' : ∀ y ∈ todo, y.uri ≠ uri := fun y hy => hu y (List.mem_cons_of_mem _ hy)
    rw [List.cons_append, evictions, if_neg hx]
    by_cases hp : x.patience ≤ 0
    · rw [if_pos hp, filter_cold_of_hot todo hp]
      by_cases hr : todo ++ behind = []
      · rw [if_pos hr]
        rw [List.append_eq_nil_iff] at hr
        refine ⟨free, [], ?_, ?_⟩
        · rw [hr.1, evictions]
          rfl
        · rw [hr.1]
          exact fun h => h
      · rw [if_neg hr, List.append_assoc]
        exact ih hu'
    · rw [if_neg hp, filter_cold_of_cold todo hp, sizes_cons]
      by_cases hs : free < size
      · obtain ⟨free', behind', he, hsz⟩ := @ih (free + x.size) behind hu'
        rw [if_pos hs, he, taken, if_pos hs]
        refine ⟨free', behind', rfl, ?_⟩
        intro h
        exact hsz (by omega)
      · obtain ⟨free', behind', he, hsz⟩ := @ih free behind hu'
        rw [if_neg hs, he, taken_room (not_lt.mp hs), taken_room (not_lt.mp hs)]
        refine ⟨free', behind', rfl, ?_⟩
        intro _
        exact hsz (by omega)

/-- The shortest sequence that makes room, or all of it. -/
theorem taken_prefix (size free : Nat) (l : List Item) :
    ∃ k, (taken size free l).map Eviction.node = (l.take k).map Item.ptr ∧
      (∀ j < k, free + sizes (l.take j) < size) ∧
      (size ≤ free + sizes (l.take k) ∨ l.take k = l) := by
  induction l generalizing free with
  | nil => exact ⟨0, rfl, fun j hj => absurd hj (Nat.not_lt_zero j), .inr rfl⟩
  | cons x l ih =>
    rw [taken]
    by_cases hs : free < size
    · obtain ⟨k, hn, hj, hk⟩ := ih (free + x.size)
      rw [if_pos hs]
      refine ⟨k + 1, ?_, ?_, ?_⟩
      · simp [hn]
      · intro j hjk
        cases j with
        | zero => exact hs
        | succ j =>
          have := hj j (Nat.lt_of_succ_lt_succ hjk)
          rw [List.take_succ_cons, sizes_cons]
          omega
      · rw [List.take_succ_cons, sizes_cons]
        cases hk with
        | inl hk => exact .inl (by omega)
        | inr hk => exact .inr (congrArg _ hk)
    · rw [if_neg hs]
      exact ⟨0, rfl, fun j hj => absurd hj (Nat.not_lt_zero j), .inl (not_lt.mp hs)⟩

/-! ## The put -/

/-- The cold entries of the list, tail first. -/
def cold (c : Cache) (l : List Ptr) : List Ptr := l.reverse.filter fun q => 0 < c.patience q

/-- The bytes of the entries. -/
def total (c : Cache) (l : List Ptr) : Nat := (l.map c.size).sum

theorem total_eq (c : Cache) (l : List Ptr) : total c l = sizes (l.map (itemOf c)) := by
  simp [total, sizes, Function.comp_def, itemOf]

theorem cold_items (c : Cache) (l : List Ptr) :
    (l.reverse.map (itemOf c)).filter Item.cold = (cold c l).map (itemOf c) := by
  rw [List.filter_map]
  rfl

/-- The evictions of a put of `n` bytes into `c`, whose entries are `l`. -/
structure Frugal (c : Cache) (l : List Ptr) (n : Nat) (log : List Eviction) : Prop where
  needed : ∀ e ∈ log, e.freesz < n
  spared : n ≤ c.freesz + total c (cold c l) → ∀ e ∈ log, ¬c.patience e.node ≤ 0
  shortest : n ≤ c.freesz + total c (cold c l) →
    ∃ k, log.map Eviction.node = (cold c l).take k ∧
      n ≤ c.freesz + total c ((cold c l).take k) ∧
      ∀ j < k, c.freesz + total c ((cold c l).take j) < n
  all : c.freesz + total c (cold c l) < n → ∀ q ∈ cold c l, q ∈ log.map Eviction.node

/-- From what the walk evicts to what is evicted. -/
theorem Frugal.of_evictions {c : Cache} {l : List Ptr} {uri : Str} {n : Nat}
    {log : List Eviction} (hu : ∀ q ∈ l, c.uri q ≠ uri)
    (hlog : ∃ more, log = evictions uri n c.freesz (l.reverse.map (itemOf c)) ++ more ∧
      ∀ e ∈ more, e.freesz < n)
    (hroom : n ≤ c.freesz + total c (cold c l) →
      log = evictions uri n c.freesz (l.reverse.map (itemOf c))) : Frugal c l n log := by
  obtain ⟨more, rfl, hmore⟩ := hlog
  have hu' : ∀ x ∈ l.reverse.map (itemOf c), x.uri ≠ uri := by
    intro x hx
    obtain ⟨q, hq, rfl⟩ := List.mem_map.mp hx
    exact hu q (List.mem_reverse.mp hq)
  obtain ⟨free', behind', he, hsz⟩ := @evictions_pass uri n c.freesz _ [] hu'
  obtain ⟨k, hn, hj, hk⟩ := taken_prefix n c.freesz ((cold c l).map (itemOf c))
  rw [List.append_nil, cold_items] at he
  rw [cold_items, ← total_eq] at hsz
  simp only [← List.map_take, ← total_eq, List.map_map] at hn hj hk
  have hptr : ∀ m : List Ptr, m.map (Item.ptr ∘ itemOf c) = m := fun m => List.map_id m
  rw [hptr] at hn
  have hshort : n ≤ c.freesz + total c (cold c l) →
      ∃ k, (evictions uri n c.freesz (l.reverse.map (itemOf c)) ++ more).map Eviction.node =
          (cold c l).take k ∧ n ≤ c.freesz + total c ((cold c l).take k) ∧
        ∀ j < k, c.freesz + total c ((cold c l).take j) < n := by
    intro hr
    rw [hroom hr, he, evictions_room (hsz hr), List.append_nil]
    refine ⟨k, hn, ?_, hj⟩
    cases hk with
    | inl hk => exact hk
    | inr hk =>
      have hmap : (cold c l).take k = cold c l := by
        have := congrArg (List.map Item.ptr) hk
        rwa [List.map_map, List.map_map, hptr, hptr] at this
      rw [hmap]
      exact hr
  constructor
  · intro e hm
    cases List.mem_append.mp hm with
    | inl hm => exact evictions_free e hm
    | inr hm => exact hmore e hm
  · intro hr e hm
    obtain ⟨k, hk, -⟩ := hshort hr
    have hq : e.node ∈ cold c l := List.mem_of_mem_take (hk ▸ List.mem_map_of_mem hm)
    simpa [cold] using (List.mem_filter.mp hq).2
  · exact hshort
  · intro hr q hq
    have hall : (cold c l).take k = cold c l := by
      cases hk with
      | inl hk =>
        have hle : total c ((cold c l).take k) ≤ total c (cold c l) :=
          ((List.take_sublist k _).map c.size).sum_le_sum fun _ _ => Nat.zero_le _
        omega
      | inr hk =>
        have := congrArg (List.map Item.ptr) hk
        rwa [List.map_map, List.map_map, hptr, hptr] at this
    rw [he, List.map_append, List.map_append, hn, hall]
    exact List.mem_append_left _ (List.mem_append_left _ hq)

theorem erased {α : Type} {o : Option (α × List Eviction)} {a : α}
    (h : o.map Prod.fst = some a) : ∃ log, o = some (a, log) := by
  cases o with
  | none => cases h
  | some r =>
    cases h
    exact ⟨r.2, rfl⟩

/-- The walk of a put whose name is not there, and what it leaves. -/
theorem WellFormed.walk_fresh {maxsize : Nat} {c : Cache} {l : List Ptr} {p : Ptr}
    {host loc buf : Str} {fuel : Nat} {r : Cache × Option Ptr} (h : WellFormed maxsize c l)
    (hm : maxsize < 18446744073709551616) (hu : ∀ q ∈ l, c.uri q ≠ uriGen host loc)
    (hp : c.live p = false)
    (hw : walk p fuel (entryCreate c p host loc buf) (c.prev head) = some r) :
    r.2 = none ∧ r.1.size p = buf.length ∧
      (∃ l', Listed r.1 [p] l' ∧ (buf.length ≤ r.1.freesz ∨ l'.length ≤ 1)) ∧
      (buf.length ≤ c.freesz + total c (cold c l) → buf.length ≤ r.1.freesz) := by
  have hcz : (entryCreate c p host loc buf).size p = buf.length :=
    congrArg Item.size (itemOf_entryCreate_self c p host loc buf)
  obtain ⟨c₁, l₁, hw₁, hleft⟩ : ∃ c₁ l₁, walk p (weight (l.map (itemOf c)) + 1)
      (entryCreate c p host loc buf) _ = _ ∧ Left _ c₁ [p] l₁ _ _ :=
    h.holds.walk_entry hp (lt_of_eq_of_lt h.account.total hm) (Nat.lt_succ_self _)
  obtain rfl := same_answer (f := fun n => walk p n (entryCreate c p host loc buf) (c.prev head))
    (fun _ _ => walk_succ) hw₁ hw
  rw [← List.map_reverse] at hleft hw₁ hw ⊢
  have hu' : ∀ x ∈ l.reverse.map (itemOf c), x.uri ≠ uriGen host loc := by
    intro x hx
    obtain ⟨q, hq, rfl⟩ := List.mem_map.mp hx
    exact hu q (List.mem_reverse.mp hq)
  have hnone : (sweep (uriGen host loc) buf.length c.freesz (l.reverse.map (itemOf c)) []).found =
      none := by
    cases hf : (sweep (uriGen host loc) buf.length c.freesz (l.reverse.map (itemOf c)) []).found with
    | none => rfl
    | some q =>
      obtain ⟨y, hy, -, hyu⟩ := sweep_found hf
      obtain ⟨z, hz, hzc⟩ := mem_of_subperm (sweep_subperm _ _ _ _ _) hy
      rw [List.append_nil] at hz
      simp only [Item.content, Prod.mk.injEq] at hzc
      exact absurd (hzc.2.1.trans hyu) (hu' z hz)
  refine ⟨hnone, hleft.size ▸ hcz, ⟨l₁, hleft.listed, ?_⟩, ?_⟩
  · have hlen := congrArg List.length hleft.items
    rw [List.length_map] at hlen
    rw [hleft.free, hlen]
    exact sweep_left (.inl rfl) hnone
  · intro hroom
    rw [total_eq, ← cold_items] at hroom
    rw [hleft.free, ← List.append_nil (l.reverse.map (itemOf c))]
    exact sweep_room hu' hroom

theorem WellFormed.walk_log {maxsize : Nat} {c : Cache} {l : List Ptr} {p : Ptr}
    {host loc buf : Str} {fuel : Nat} {r : (Cache × Option Ptr) × List Eviction}
    (h : WellFormed maxsize c l) (hm : maxsize < 18446744073709551616) (hp : c.live p = false)
    (hw : walkLogged p fuel (entryCreate c p host loc buf) (c.prev head) [] = some r) :
    r.2 = evictions (uriGen host loc) buf.length c.freesz (l.reverse.map (itemOf c)) := by
  obtain ⟨hl, hr, hcu, hcz, hlast⟩ := h.holds.start hp host loc buf
  rw [hlast] at hw
  have he := walkLogged_evictions hl
    (by
      rw [hr, sizes_reverse]
      exact lt_of_eq_of_lt h.account.total hm) hw
  rw [hr, hcu, hcz] at he
  rw [List.map_reverse]
  exact he

theorem cachePutLogged_cases {fuel : Nat} {c c' : Cache} {p : Ptr} {host loc buf : Str}
    {log : List Eviction} (h : cachePutLogged fuel c p host loc buf = some (c', log)) :
    ∃ c₁ found log₁, walkLogged p fuel (entryCreate c p host loc buf) (c.prev head) [] =
        some ((c₁, found), log₁) ∧
      (found = none → ∃ c₂, drainWhileLogged p fuel c₁ log₁ = some (c₂, log)) := by
  unfold cachePutLogged cacheBookkeepingLogged at h
  dsimp only at h
  have hhead : (entryCreate c p host loc buf).prev head = c.prev head := rfl
  rw [hhead] at h
  cases hw : walkLogged p fuel (entryCreate c p host loc buf) (c.prev head) [] with
  | none => simp [hw] at h
  | some r =>
    obtain ⟨⟨c₁, found⟩, log₁⟩ := r
    refine ⟨c₁, found, log₁, rfl, ?_⟩
    rintro rfl
    cases hd : drainWhileLogged p fuel c₁ log₁ with
    | none => simp [hw, hd] at h
    | some r =>
      simp only [hw, hd, Option.some.injEq, Prod.mk.injEq] at h
      exact ⟨r.1, congrArg some (Prod.ext rfl h.2)⟩

/-- A put of a new name returns, and evicts no more than it needs, the cold
entries first. -/
theorem put_evictions {maxsize : Nat} {c : Cache} {host loc buf : Str} {p : Ptr}
    (hm : maxsize < 18446744073709551616) (h : Reach maxsize c) (hn : ¬Resident c host loc)
    (hp : c.live p = false) (hs : buf.length ≤ maxsize) :
    ∃ l, Ring c.next c.prev head l ∧ (head :: l).Nodup ∧
      (∃ fuel c', cachePut fuel c p host loc buf = some c') ∧
      ∀ fuel c', cachePut fuel c p host loc buf = some c' →
        ∃ log, cachePutLogged fuel c p host loc buf = some (c', log) ∧
          Frugal c l buf.length log := by
  obtain ⟨l, hl⟩ := h.wellFormed hm
  obtain ⟨fuel₀, c₀, -, hc₀, -⟩ : ∃ fuel c' l', cachePut fuel c p host loc buf = some c' ∧ _ :=
    hl.put_items hm hp hs
  refine ⟨l, hl.listed.ring, hl.listed.nodup_ring, ⟨fuel₀, c₀, hc₀⟩, ?_⟩
  intro fuel c' hc
  have hu : ∀ q ∈ l, c.uri q ≠ uriGen host loc := fun q hq he =>
    hn ⟨_, hl.entry_iff.mpr ⟨itemOf c q, List.mem_map_of_mem hq, he, rfl⟩⟩
  obtain ⟨log, hlog⟩ := erased ((cachePutLogged_erase fuel c p host loc buf).trans hc)
  obtain ⟨c₁, found, log₁, hw, hd⟩ := cachePutLogged_cases hlog
  have hev : log₁ = evictions (uriGen host loc) buf.length c.freesz _ := hl.walk_log hm hp hw
  have hwalk : walk p fuel (entryCreate c p host loc buf) (c.prev head) = some (c₁, found) := by
    rw [← walkLogged_erase p fuel _ _ [], hw]
    rfl
  obtain ⟨rfl, hsz, ⟨l₁, hl₁, hshort⟩, hroom⟩ := hl.walk_fresh hm hu hp hwalk
  obtain ⟨c₂, hd⟩ := hd rfl
  have hquiet : buf.length ≤ c₁.freesz → log = log₁ := fun hle =>
    congrArg Prod.snd (drainWhileLogged_room (hsz.trans_le hle) hd)
  refine ⟨log, hlog, Frugal.of_evictions hu ?_ ?_⟩
  · cases hshort with
    | inl hle => exact ⟨[], by rw [hquiet hle, hev, List.append_nil], by simp⟩
    | inr hlen =>
      obtain ⟨more, he, hlt⟩ := drainWhileLogged_short hl₁ hlen hd
      refine ⟨more, hev ▸ he, ?_⟩
      intro e hm
      exact (hlt e hm).trans_eq hsz
  · intro hle
    rw [hquiet (hroom hle), hev]

/-- Two bytes, one entry that fills them: the next entry takes its place. -/
theorem put_evictions_full : ∃ c c', cachePut 2 (cacheInit 2) 1 [97] [99] [1, 1] = some c ∧
    cachePut 4 c 2 [98] [99] [2] = some c' ∧
    ∃ l log, Ring c.next c.prev head l ∧ cachePutLogged 4 c 2 [98] [99] [2] = some (c', log) ∧
      Frugal c l 1 log := by
  have h₁ : cachePut 2 (cacheInit 2) 1 [97] [99] [1, 1] =
      some ((cachePut 2 (cacheInit 2) 1 [97] [99] [1, 1]).getD (cacheInit 2)) := rfl
  have r₁ := Reach.put Reach.init rfl (by decide) h₁
  have hn : ¬Resident ((cachePut 2 (cacheInit 2) 1 [97] [99] [1, 1]).getD (cacheInit 2))
      [98] [99] := by
    intro hr
    obtain ⟨data, l, hring, hnd, q, hq, hu, -⟩ := hr
    have hl : l = [1] := hring.unique (List.nodup_cons.mp hnd).1
      ⟨rfl, rfl, rfl, rfl⟩ (by decide)
    obtain rfl : q = 1 := by simpa [hl] using hq
    exact absurd hu (by decide)
  obtain ⟨l, hring, -, -, hall⟩ : ∃ l, Ring _ _ head l ∧ (head :: l).Nodup ∧ _ ∧ _ :=
    @put_evictions 2 _ [98] [99] [2] 2 (by decide) r₁ hn rfl (by decide)
  obtain ⟨log, hlog, hf⟩ := hall 4 _ rfl
  exact ⟨_, _, h₁, rfl, l, log, hring, hlog, hf⟩

end Csapp.ProxyCache
