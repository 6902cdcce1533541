import Mathlib
import Csapp.ProxyCache.Threads

/-!
# The threads and the atomic cache

The relation between the cache as the threads work on it and the cache on which
each call is one step. A put that is midway has changed the list already,
and even given memory back that another thread may since have got for an entry of its own,
before any of that has happened to the atomic cache. Until then the relation says
of its list that the rest of the two loops will make of it what `putItems` makes of
the atomic one.
-/

namespace Csapp.ProxyCache

/-- The list has been changed for a put that has not taken effect. -/
def Pc.midway : Pc → Bool
  | putWalk .. | putWhile .. | putDrain .. | putInsert .. => true
  | _ => false

theorem Pc.writing_of_midway {pc : Pc} (h : pc.midway = true) : pc.writing = true := by
  cases pc <;> first | rfl | cases h

theorem Pc.holding_of_writing {pc : Pc} (h : pc.writing = true) : pc.holding = true := by
  rw [Pc.holding, h, Bool.or_true]

theorem Pc.midway_of_writing {pc : Pc} (h : pc.writing = false) : pc.midway = false := by
  rw [← Bool.not_eq_true] at h ⊢
  exact fun hm => h (Pc.writing_of_midway hm)

theorem Pc.writing_of_holding {pc : Pc} (h : pc.holding = false) : pc.writing = false := by
  rw [← Bool.not_eq_true] at h ⊢
  exact fun hw => h (Pc.holding_of_writing hw)

/-- What the first loop makes of the list. -/
def swept (a : Cache) (la : List Ptr) (host loc buf : Str) : Swept :=
  sweep (uriGen host loc) buf.length a.freesz (la.map (itemOf a)).reverse []

/-- What the second loop makes of that. -/
def emptied (a : Cache) (la : List Ptr) (host loc buf : Str) : Nat × List Item :=
  drainedAll buf.length (swept a la host loc buf).free (swept a la host loc buf).items.reverse

/-- The entry in hand, for a put that has yet to take effect. -/
structure InHand (c : Cache) (la : List Ptr) (p : Ptr) (host loc buf : Str) : Prop where
  item : itemOf c p = created p host loc buf
  fresh : p ∉ head :: la

/-- Where a thread stands in the program and where it stands with the atomic cache
`a` of list `la`, when the list of the cache is `l`. -/
inductive Matches (c : Cache) (l : List Ptr) (a : Cache) (la : List Ptr) :
    Pc → Phase Op Res → Prop
  | idle : Matches c l a la .idle .idle
  | getRdlock {host loc buf : Str} {n : Nat} :
      Matches c l a la (.getRdlock (uriGen host loc) buf n) (.called (.get host loc buf n))
  | getFirst {host loc buf : Str} {n : Nat} :
      Matches c l a la (.getFirst (uriGen host loc) buf n) (.called (.get host loc buf n))
  | getLoop {host loc buf : Str} {n : Nat} {l₁ l₂ : List Ptr} : l = l₁ ++ l₂ →
      (∀ q ∈ l₁, c.uri q ≠ uriGen host loc) →
      Matches c l a la (.getLoop (uriGen host loc) buf n (l₂.head?.getD head))
        (.called (.get host loc buf n))
  | getCopy {host loc buf : Str} {n : Nat} {node : Ptr} : node ∈ l →
      c.uri node = uriGen host loc →
      Matches c l a la (.getCopy buf n node) (.called (.get host loc buf n))
  | getPatience {host loc buf buf' : Str} {n n' : Nat} {node : Ptr} : node ∈ l →
      c.uri node = uriGen host loc →
      buf' = memcpy (if n < c.size node then List.replicate (c.size node) 0 else buf) (c.data node)
        (c.size node) → n' = c.size node →
      Matches c l a la (.getPatience buf' n' node) (.called (.get host loc buf n))
  | getUnlock {hit : Bool} {buf : Str} {n : Nat} :
      Matches c l a la (.getUnlock hit buf n) (.done (.got hit buf n))
  | putCreate {host loc buf : Str} :
      Matches c l a la (.putCreate host loc buf) (.called (.put host loc buf))
  | putWrlock {host loc buf : Str} {p : Ptr} : itemOf c p = created p host loc buf →
      Matches c l a la (.putWrlock p buf.length) (.called (.put host loc buf))
  | putFirst {host loc buf : Str} {p : Ptr} : itemOf c p = created p host loc buf →
      Matches c l a la (.putFirst p buf.length) (.called (.put host loc buf))
  | putWalk {host loc buf : Str} {p : Ptr} {todo kept : List Ptr} : InHand c la p host loc buf →
      l = todo.reverse ++ kept →
      sweep (uriGen host loc) buf.length c.freesz (todo.map (itemOf c)) (kept.map (itemOf c)) =
        swept a la host loc buf →
      Matches c l a la (.putWalk p buf.length (todo.head?.getD head)) (.called (.put host loc buf))
  | putWhile {host loc buf : Str} {p : Ptr} : InHand c la p host loc buf →
      (swept a la host loc buf).found = none →
      drainedAll buf.length c.freesz (l.map (itemOf c)).reverse = emptied a la host loc buf →
      Matches c l a la (.putWhile p buf.length) (.called (.put host loc buf))
  | putDrain {host loc buf : Str} {p : Ptr} {todo : List Ptr} : InHand c la p host loc buf →
      (swept a la host loc buf).found = none → l = todo.reverse →
      drainedAll buf.length (drained c.freesz (todo.map (itemOf c))).1
        (drained c.freesz (todo.map (itemOf c))).2 = emptied a la host loc buf →
      Matches c l a la (.putDrain p buf.length (todo.head?.getD head)) (.called (.put host loc buf))
  | putDrained {host loc buf : Str} {p : Ptr} : InHand c la p host loc buf →
      (swept a la host loc buf).found = none →
      drainedAll buf.length c.freesz (l.map (itemOf c)).reverse = emptied a la host loc buf →
      Matches c l a la (.putDrain p buf.length head) (.called (.put host loc buf))
  | putInsert {host loc buf : Str} {p : Ptr} : InHand c la p host loc buf →
      (swept a la host loc buf).found = none →
      (c.freesz, (l.map (itemOf c)).reverse) = emptied a la host loc buf →
      buf.length ≤ c.freesz →
      Matches c l a la (.putInsert p buf.length) (.called (.put host loc buf))
  | putUnlock {p : Ptr} {found : Option Ptr} : Matches c l a la (.putUnlock p found) (.done .put)
  | putDestroy {p : Ptr} : Matches c l a la (.putDestroy p) (.done .put)
  | ret {r : Res} : Matches c l a la (.ret r) (.done r)

section

variable {c c' a a' : Cache} {l l' la la' : List Ptr} {pc : Pc} {ph : Phase Op Res}

theorem InHand.congr {p : Ptr} {host loc buf : Str} (h : InHand c la p host loc buf)
    (hi : itemOf c' p = itemOf c p) : InHand c' la p host loc buf :=
  ⟨hi.trans h.item, h.fresh⟩

/-- A step that changes no entry the thread can see. -/
theorem Matches.frame (h : Matches c l a la pc ph) (hf : c'.freesz = c.freesz)
    (hl : ∀ q ∈ l, itemOf c' q = itemOf c q)
    (hh : ∀ p, pc.hand = some p → itemOf c' p = itemOf c p) : Matches c' l a la pc ph := by
  have hmap : ∀ m : List Ptr, m ⊆ l → m.map (itemOf c') = m.map (itemOf c) := by
    intro m hm
    exact List.map_congr_left fun q hq => hl q (hm hq)
  cases h with
  | idle => exact .idle
  | getRdlock => exact .getRdlock
  | getFirst => exact .getFirst
  | getLoop he hu =>
      refine .getLoop he ?_
      intro q hq
      have hi := congrArg Item.uri (hl q (he ▸ List.mem_append_left _ hq))
      exact fun hc => hu q hq (hi.symm.trans hc)
  | getCopy hm hu => exact .getCopy hm ((congrArg Item.uri (hl _ hm)).trans hu)
  | getPatience hm hu hb hn =>
      have hs : c'.size _ = c.size _ := congrArg Item.size (hl _ hm)
      have hd : c'.data _ = c.data _ := congrArg Item.data (hl _ hm)
      refine .getPatience hm ((congrArg Item.uri (hl _ hm)).trans hu) ?_ (hn.trans hs.symm)
      rw [hs, hd]
      exact hb
  | getUnlock => exact .getUnlock
  | putCreate => exact .putCreate
  | putWrlock hi => exact .putWrlock ((hh _ rfl).trans hi)
  | putFirst hi => exact .putFirst ((hh _ rfl).trans hi)
  | putWalk hi he hs =>
      refine .putWalk (hi.congr (hh _ rfl)) he ?_
      rw [hf, hmap _ (by simp [he]), hmap _ (by simp [he])]
      exact hs
  | putWhile hi hn hd =>
      refine .putWhile (hi.congr (hh _ rfl)) hn ?_
      rw [hf, hmap _ (List.Subset.refl l)]
      exact hd
  | putDrain hi hn he hd =>
      refine .putDrain (hi.congr (hh _ rfl)) hn he ?_
      rw [hf, hmap _ (by simp [he])]
      exact hd
  | putDrained hi hn hd =>
      refine .putDrained (hi.congr (hh _ rfl)) hn ?_
      rw [hf, hmap _ (List.Subset.refl l)]
      exact hd
  | putInsert hi hn hd hle =>
      refine .putInsert (hi.congr (hh _ rfl)) hn ?_ (hf ▸ hle)
      rw [hf, hmap _ (List.Subset.refl l)]
      exact hd
  | putUnlock => exact .putUnlock
  | putDestroy => exact .putDestroy
  | ret => exact .ret

/-- The list means nothing to a thread that does not hold the lock. -/
theorem Matches.outside (h : Matches c l a la pc ph) (hn : pc.holding = false)
    (hh : ∀ p, pc.hand = some p → itemOf c' p = itemOf c p) : Matches c' l' a' la' pc ph := by
  cases h with
  | idle => exact .idle
  | getRdlock => exact .getRdlock
  | putCreate => exact .putCreate
  | putWrlock hi => exact .putWrlock ((hh _ rfl).trans hi)
  | putDestroy => exact .putDestroy
  | ret => exact .ret
  | getFirst | getLoop | getCopy | getPatience | getUnlock | putFirst | putWalk | putWhile
  | putDrain | putDrained | putInsert | putUnlock => cases hn

theorem Matches.enter (op : Op) : Matches c l a la (enter op) (.called op) := by
  cases op with
  | get => exact .getRdlock
  | put => exact .putCreate

theorem Matches.rdlock {uri buf : Str} {n : Nat} (h : Matches c l a la (.getRdlock uri buf n) ph) :
    Matches c l a la (.getFirst uri buf n) ph := by
  cases h with
  | getRdlock => exact .getFirst

theorem Matches.wrlock {p : Ptr} {n : Nat} (h : Matches c l a la (.putWrlock p n) ph) :
    Matches c l a la (.putFirst p n) ph := by
  cases h with
  | putWrlock hi => exact .putFirst hi

theorem Matches.idle_eq (h : Matches c l a la .idle ph) : ph = .idle := by
  cases h with
  | idle => rfl

theorem Matches.putCreate_eq {host loc buf : Str}
    (h : Matches c l a la (.putCreate host loc buf) ph) : ph = .called (.put host loc buf) := by
  cases h with
  | putCreate => rfl

theorem Matches.ret_eq {r : Res} (h : Matches c l a la (.ret r) ph) : ph = .done r := by
  cases h with
  | ret => rfl

/-- Nor does a patience to a thread that is not writing. -/
theorem Matches.patience {q : Ptr} {v v' : Int} (h : Matches c l a la pc ph)
    (hn : pc.writing = false) (hq : pc.hand ≠ some q) :
    Matches (c.setPatience q v) l (a.setPatience q v') la pc ph := by
  have hh : ∀ p, pc.hand = some p → itemOf (c.setPatience q v) p = itemOf c p := by
    intro p hp
    have hne : p ≠ q := fun he => hq (he ▸ hp)
    simp [itemOf, Cache.setPatience, hne]
  cases h with
  | getFirst => exact .getFirst
  | getLoop he hu => exact .getLoop he hu
  | getCopy hm hu => exact .getCopy hm hu
  | getPatience hm hu hb hs => exact .getPatience hm hu hb hs
  | getUnlock => exact .getUnlock
  | idle => exact .idle
  | getRdlock => exact .getRdlock
  | putCreate => exact .putCreate
  | putWrlock hi => exact .putWrlock ((hh _ rfl).trans hi)
  | putDestroy => exact .putDestroy
  | ret => exact .ret
  | putFirst | putWalk | putWhile | putDrain | putDrained | putInsert | putUnlock => cases hn

end

/-! ## All threads together -/

/-- The list is the atomic one, entry by entry. -/
structure View (c : Cache) (l : List Ptr) (a : Cache) (la : List Ptr) : Prop where
  list : l = la
  items : la.map (itemOf c) = la.map (itemOf a)
  free : c.freesz = a.freesz

variable {ι : Type}

/-- The threads and their lists, beside the atomic cache. -/
structure Related (maxsize : Nat) (s : Threads ι) (a : Cache) (ph : ι → Phase Op Res)
    (hand l la : List Ptr) : Prop where
  listed : Listed s.cache hand l
  atomic : WellFormed maxsize a la
  owned : ∀ p, p ∈ hand ↔ ∃ i, (s.pc i).hand = some p
  single : ∀ i j p, (s.pc i).hand = some p → (s.pc j).hand = some p → i = j
  alone : ∀ i j, (s.pc i).writing = true → (s.pc j).holding = true → i = j
  allowed : ∀ i op, ph i = .called op → fits maxsize op
  view : (∀ i, (s.pc i).midway = false) → View s.cache l a la
  matched : ∀ i, Matches s.cache l a la (s.pc i) (ph i)

theorem Related.init (ι : Type) (maxsize : Nat) :
    Related maxsize (Threads.init ι maxsize) (cacheInit maxsize) (fun _ => .idle) [] [] [] where
  listed := Listed.init maxsize
  atomic := WellFormed.init maxsize
  owned p := ⟨fun h => absurd h List.not_mem_nil, fun h => by
    obtain ⟨i, hi⟩ := h
    cases hi⟩
  single i j p h := by cases h
  alone i j h := by cases h
  allowed i op h := by cases h
  view _ := ⟨rfl, rfl, rfl⟩
  matched i := .idle

section

variable {maxsize : Nat} {s : Threads ι} {a a' : Cache} {ph : ι → Phase Op Res}
  {hand hand' l l' la la' : List Ptr} {i : ι} {c' : Cache} {pc pc' : Pc} {ph' : Phase Op Res}

theorem Related.others_idle (h : Related maxsize s a ph hand l la)
    (hi : (s.pc i).writing = true) : ∀ j, j ≠ i → (s.pc j).holding = false := by
  intro j hj
  rw [← Bool.not_eq_true]
  exact fun hh => hj (h.alone i j hi hh).symm

theorem Related.others_read (h : Related maxsize s a ph hand l la)
    (hi : (s.pc i).holding = true) : ∀ j, j ≠ i → (s.pc j).writing = false := by
  intro j hj
  rw [← Bool.not_eq_true]
  exact fun hw => hj (h.alone j i hw hi)

/-- Who holds the lock and is not midway sees what the atomic cache has. -/
theorem Related.entries (h : Related maxsize s a ph hand l la) (hpc : s.pc i = pc)
    (hi : pc.holding = true) (hm : pc.midway = false) : View s.cache l a la := by
  subst hpc
  refine h.view ?_
  intro j
  by_cases hj : j = i
  · rw [hj]
    exact hm
  · exact Pc.midway_of_writing (h.others_read hi j hj)

theorem Related.in_hand {p : Ptr} (h : Related maxsize s a ph hand l la) (hpc : s.pc i = pc)
    (hp : pc.hand = some p) : p ∈ hand :=
  (h.owned p).mpr ⟨i, hpc.symm ▸ hp⟩

/-- Who else has what in hand, when the thread that moves keeps its own. -/
theorem Related.owned_same (h : Related maxsize s a ph hand l la)
    (hp : pc'.hand = (s.pc i).hand) :
    ∀ p, p ∈ hand ↔ pc'.hand = some p ∨ ∃ j, j ≠ i ∧ (s.pc j).hand = some p := by
  intro p
  rw [h.owned p, hp]
  constructor
  · intro hj
    obtain ⟨j, hj⟩ := hj
    by_cases hji : j = i
    · exact .inl (hji ▸ hj)
    · exact .inr ⟨j, hji, hj⟩
  · intro hj
    cases hj with
    | inl hj => exact ⟨i, hj⟩
    | inr hj =>
        obtain ⟨j, -, hj⟩ := hj
        exact ⟨j, hj⟩

theorem Related.single_same (h : Related maxsize s a ph hand l la)
    (hp : pc'.hand = (s.pc i).hand) :
    ∀ j p, j ≠ i → (s.pc j).hand = some p → pc'.hand ≠ some p := by
  intro j p hj hjp hip
  exact hj (h.single j i p hjp (hp ▸ hip))

variable [DecidableEq ι]

/-- One thread moves, and the rest stay where they are. -/
theorem Related.step (h : Related maxsize s a ph hand l la) (listed : Listed c' hand' l')
    (atomic : WellFormed maxsize a' la')
    (owned : ∀ p, p ∈ hand' ↔ pc'.hand = some p ∨ ∃ j, j ≠ i ∧ (s.pc j).hand = some p)
    (single : ∀ j p, j ≠ i → (s.pc j).hand = some p → pc'.hand ≠ some p)
    (idle : pc'.writing = true → ∀ j, j ≠ i → (s.pc j).holding = false)
    (read : pc'.holding = true → ∀ j, j ≠ i → (s.pc j).writing = false)
    (allowed : ∀ op, ph' = .called op → fits maxsize op)
    (view : pc'.midway = false → (∀ j, j ≠ i → (s.pc j).midway = false) → View c' l' a' la')
    (self : Matches c' l' a' la' pc' ph')
    (others : ∀ j, j ≠ i → Matches c' l' a' la' (s.pc j) (ph j)) :
    Related maxsize (s.goto i c' pc') a' (Function.update ph i ph') hand' l' la' := by
  have hself : (s.goto i c' pc').pc i = pc' := Function.update_self ..
  have hother : ∀ j, j ≠ i → (s.goto i c' pc').pc j = s.pc j := fun j hj =>
    Function.update_of_ne hj ..
  refine ⟨listed, atomic, ?_, ?_, ?_, ?_, ?_, ?_⟩
  · intro p
    rw [owned p]
    constructor
    · intro hp
      cases hp with
      | inl hp => exact ⟨i, (congrArg Pc.hand hself).trans hp⟩
      | inr hp =>
          obtain ⟨j, hj, hp⟩ := hp
          exact ⟨j, (congrArg Pc.hand (hother j hj)).trans hp⟩
    · intro hp
      obtain ⟨j, hp⟩ := hp
      by_cases hj : j = i
      · rw [hj, hself] at hp
        exact .inl hp
      · rw [hother j hj] at hp
        exact .inr ⟨j, hj, hp⟩
  · intro j k p hp hq
    by_cases hj : j = i
    · by_cases hk : k = i
      · rw [hj, hk]
      · rw [hj, hself] at hp
        rw [hother k hk] at hq
        exact absurd hp (single k p hk hq)
    · rw [hother j hj] at hp
      by_cases hk : k = i
      · rw [hk, hself] at hq
        exact absurd hq (single j p hj hp)
      · rw [hother k hk] at hq
        exact h.single j k p hp hq
  · intro j k hw hk
    by_cases hj : j = i
    · by_cases hki : k = i
      · rw [hj, hki]
      · rw [hj, hself] at hw
        rw [hother k hki, idle hw k hki] at hk
        cases hk
    · rw [hother j hj] at hw
      by_cases hki : k = i
      · rw [hki, hself] at hk
        rw [read hk j hj] at hw
        cases hw
      · rw [hother k hki] at hk
        exact h.alone j k hw hk
  · intro j op hop
    by_cases hj : j = i
    · rw [hj, Function.update_self] at hop
      exact allowed op hop
    · rw [Function.update_of_ne hj] at hop
      exact h.allowed j op hop
  · intro hm
    refine view (hself ▸ hm i) ?_
    intro j hj
    exact hother j hj ▸ hm j
  · intro j
    by_cases hj : j = i
    · rw [hj, hself, Function.update_self]
      exact self
    · rw [hother j hj, Function.update_of_ne hj]
      exact others j hj

/-- A step that leaves the cache alone. -/
theorem Related.local (h : Related maxsize s a ph hand l la) (hp : pc'.hand = (s.pc i).hand)
    (idle : pc'.writing = true → ∀ j, j ≠ i → (s.pc j).holding = false)
    (read : pc'.holding = true → ∀ j, j ≠ i → (s.pc j).writing = false)
    (midway : pc'.midway = false → (s.pc i).midway = false)
    (allowed : ∀ op, ph' = .called op → fits maxsize op)
    (self : Matches s.cache l a la pc' ph') :
    Related maxsize (s.goto i s.cache pc') a (Function.update ph i ph') hand l la := by
  refine h.step h.listed h.atomic (h.owned_same hp) (h.single_same hp) idle read allowed ?_ self
    fun j _ => h.matched j
  intro hi hj
  refine h.view ?_
  intro j
  by_cases hji : j = i
  · exact hji ▸ midway hi
  · exact hj j hji

/-- A step outside the lock that leaves the cache alone. -/
theorem Related.apart (h : Related maxsize s a ph hand l la) (hpc : s.pc i = pc)
    (hp : pc'.hand = pc.hand) (hn : pc'.holding = false) (hm : pc.midway = false)
    (allowed : ∀ op, ph' = .called op → fits maxsize op)
    (self : Matches s.cache l a la pc' ph') :
    Related maxsize (s.goto i s.cache pc') a (Function.update ph i ph') hand l la := by
  subst hpc
  refine h.local hp ?_ ?_ (fun _ => hm) allowed self
  · intro hw
    rw [Pc.writing_of_holding hn] at hw
    cases hw
  · intro hr
    rw [hn] at hr
    cases hr

/-- A step of a call that goes on, with the cache as it was. -/
theorem Related.goes_on (h : Related maxsize s a ph hand l la) (hpc : s.pc i = pc)
    (hp : pc'.hand = pc.hand)
    (idle : pc'.writing = true → ∀ j, j ≠ i → (s.pc j).holding = false)
    (read : pc'.holding = true → ∀ j, j ≠ i → (s.pc j).writing = false)
    (hm : pc'.midway = false → pc.midway = false) (self : Matches s.cache l a la pc' (ph i)) :
    Related maxsize (s.goto i s.cache pc') a ph hand l la := by
  subst hpc
  have hl : Related maxsize (s.goto i s.cache pc') a (Function.update ph i (ph i)) hand l la :=
    h.local hp idle read hm (h.allowed i) self
  rw [Function.update_eq_self] at hl
  exact hl

/-- A step that neither takes the lock nor changes the cache. -/
theorem Related.quiet (h : Related maxsize s a ph hand l la) (hpc : s.pc i = pc)
    (hp : pc'.hand = pc.hand) (hw : pc'.writing = true → pc.writing = true)
    (hr : pc'.holding = true → pc.holding = true)
    (hm : pc'.midway = false → pc.midway = false) (self : Matches s.cache l a la pc' (ph i)) :
    Related maxsize (s.goto i s.cache pc') a ph hand l la := by
  subst hpc
  exact h.goes_on rfl hp (fun h' => h.others_idle (hw h')) (fun h' => h.others_read (hr h')) hm self

/-- An edit of the list by a put that is midway and stays so. -/
theorem Related.edit (h : Related maxsize s a ph hand l la) (hpc : s.pc i = pc)
    (hm : pc.midway = true) (hm' : pc'.midway = true) (hp : pc'.hand = pc.hand)
    (listed : Listed c' hand l') (hh : ∀ p ∈ hand, itemOf c' p = itemOf s.cache p)
    (self : Matches c' l' a la pc' (ph i)) : Related maxsize (s.goto i c' pc') a ph hand l' la := by
  subst hpc
  have hw := Pc.writing_of_midway hm
  have hl : Related maxsize (s.goto i c' pc') a (Function.update ph i (ph i)) hand l' la :=
    h.step listed h.atomic (h.owned_same hp) (h.single_same hp) (fun _ => h.others_idle hw)
      (fun _ => h.others_read (Pc.holding_of_writing hw)) (h.allowed i)
      (fun hf => by
        rw [hm'] at hf
        cases hf)
      self fun j hj => (h.matched j).outside (h.others_idle hw j hj)
        fun p hjp => hh p ((h.owned p).mpr ⟨j, hjp⟩)
  rw [Function.update_eq_self] at hl
  exact hl

/-- What is done to the cache takes effect on the atomic one. -/
theorem Related.effect (h : Related maxsize s a ph hand l la) (hpc : s.pc i = pc)
    (hm : pc.midway = true) {p : Ptr} {found : Option Ptr} (hhand : pc.hand = some p)
    (listed : Listed c' hand' l') (atomic : WellFormed maxsize a' la') (view : View c' l' a' la')
    (hh : ∀ q ∈ hand, itemOf c' q = itemOf s.cache q)
    (hhand' : ∀ q, q ∈ hand' ↔ (Pc.putUnlock p found).hand = some q ∨ q ∈ hand ∧ q ≠ p) :
    Related maxsize (s.goto i c' (.putUnlock p found)) a' (Function.update ph i (.done .put))
      hand' l' la' := by
  subst hpc
  have hw := Pc.writing_of_midway hm
  have hsub : ∀ q, (Pc.putUnlock p found).hand = some q → q = p := by
    intro q hq
    cases found with
    | none => cases hq
    | some x =>
        cases hq
        rfl
  refine h.step listed atomic ?_ ?_ (fun _ => h.others_idle hw)
    (fun _ => h.others_read (Pc.holding_of_writing hw)) ?_ (fun _ _ => view) .putUnlock ?_
  · intro q
    rw [hhand' q]
    refine or_congr_right ?_
    constructor
    · intro hq
      obtain ⟨j, hj⟩ := (h.owned q).mp hq.1
      refine ⟨j, ?_, hj⟩
      intro hji
      rw [hji, hhand] at hj
      exact hq.2 (Option.some.inj hj).symm
    · intro hq
      obtain ⟨j, hji, hj⟩ := hq
      refine ⟨(h.owned q).mpr ⟨j, hj⟩, ?_⟩
      intro hqp
      exact hji (h.single j i q hj (hqp ▸ hhand))
  · intro j q hj hjq hq
    exact hj (h.single j i q hjq (hsub q hq ▸ hhand))
  · intro op hop
    cases hop
  · intro j hj
    exact (h.matched j).outside (h.others_idle hw j hj)
      fun q hjq => hh q ((h.owned q).mpr ⟨j, hjq⟩)

end

end Csapp.ProxyCache
