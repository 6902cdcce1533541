import Mathlib
import Csapp.ProxyCache.Invariant

/-!
# The cache as a map

What a client can see of the cache is which names are resident and with which
bytes. A get changes none of it. A put of a name that is not there makes it
resident with its bytes; of every other name it can only make the bytes go away.
A put of a name that is there keeps its bytes, but the loop that looks for the
name is also the loop that makes room: what it evicts before it meets the name
is lost, although nothing is stored.
-/

namespace Csapp.ProxyCache

/-- The name is listed, with these bytes. -/
def Entry (c : Cache) (uri data : Str) : Prop :=
  ∃ l, Ring c.next c.prev head l ∧ (head :: l).Nodup ∧
    ∃ p ∈ l, c.uri p = uri ∧ c.data p = data ∧ c.size p = data.length

/-- An entry for the object is listed. -/
def Resident (c : Cache) (host loc : Str) : Prop := ∃ data, Entry c (uriGen host loc) data

/-- An item has the name and the data. -/
def Has (items : List Item) (uri data : Str) : Prop := ∃ x ∈ items, x.uri = uri ∧ x.data = data

theorem WellFormed.entry_iff {maxsize : Nat} {c : Cache} {l : List Ptr}
    (h : WellFormed maxsize c l) {uri data : Str} :
    Entry c uri data ↔ Has (l.map (itemOf c)) uri data := by
  constructor
  · intro he
    obtain ⟨l', hr, hnd, p, hp, hu, hd, -⟩ := he
    have hl := hr.unique (List.nodup_cons.mp hnd).1 h.listed.ring
      (List.nodup_cons.mp h.listed.nodup_ring).1
    exact ⟨itemOf c p, List.mem_map_of_mem (hl ▸ hp), hu, hd⟩
  · intro hh
    obtain ⟨x, hx, hu, hd⟩ := hh
    have hw := h.account.whole x hx
    obtain ⟨p, hp, rfl⟩ := List.mem_map.mp hx
    exact ⟨l, h.listed.ring, h.listed.nodup_ring, p, hp, hu, hd, hw.trans (congrArg _ hd)⟩

/-! ## What is left -/

theorem has_of_subperm {items items' : List Item} {uri data : Str}
    (hs : (items'.map Item.content).Subperm (items.map Item.content)) (h : Has items' uri data) :
    Has items uri data := by
  obtain ⟨x, hx, hu, hd⟩ := h
  obtain ⟨y, hy, hc⟩ := mem_of_subperm hs hx
  simp only [Item.content, Prod.mk.injEq] at hc
  exact ⟨y, hy, hc.2.1.trans hu, hc.2.2.1.trans hd⟩

/-- Distinct names: one entry for each. -/
theorem Has.unique {items : List Item} {uri d₁ d₂ : Str} (hn : (items.map Item.uri).Nodup)
    (h₁ : Has items uri d₁) (h₂ : Has items uri d₂) : d₁ = d₂ := by
  obtain ⟨x, hx, hxu, rfl⟩ := h₁
  obtain ⟨y, hy, hyu, rfl⟩ := h₂
  rw [List.inj_on_of_nodup_map hn hx hy (hxu.trans hyu.symm)]

/-- The walk stops at the name, if it is there, and keeps its bytes. -/
theorem sweep_finds {uri data : Str} {size free : Nat} {todo kept : List Item}
    (hk : ∀ x ∈ kept, x.uri ≠ uri) (h : Has todo uri data) :
    (∃ p, (sweep uri size free todo kept).found = some p) ∧
      Has (sweep uri size free todo kept).items uri data := by
  fun_induction sweep uri size free todo kept with
  | case1 =>
    obtain ⟨x, hx, -⟩ := h
    cases hx
  | case2 free kept x rest hu =>
    refine ⟨⟨x.ptr, rfl⟩, ?_⟩
    obtain ⟨y, hy, hyu, hyd⟩ := h
    cases hy with
    | head => exact ⟨_, List.mem_cons_self, hyu, hyd⟩
    | tail _ hy =>
      have hy : y ∈ rest := hy
      exact ⟨y, by simp [hy], hyu, hyd⟩
  | case3 free kept x hu =>
    obtain ⟨y, hy, hyu, -⟩ := h
    rw [List.mem_singleton] at hy
    exact absurd (hy ▸ hyu) hu
  | case4 free kept x rest hu _ _ ih =>
    refine ih hk ?_
    obtain ⟨y, hy, hyu, hyd⟩ := h
    cases hy with
    | head => exact absurd hyu hu
    | tail _ hy => exact ⟨y, List.mem_append_left _ hy, hyu, hyd⟩
  | case5 free kept x rest hu _ _ ih =>
    refine ih hk ?_
    obtain ⟨y, hy, hyu, hyd⟩ := h
    cases hy with
    | head => exact absurd hyu hu
    | tail _ hy => exact ⟨y, hy, hyu, hyd⟩
  | case6 free kept x rest hu _ _ ih =>
    refine ih ?_ ?_
    · intro y hy
      cases hy with
      | head => exact hu
      | tail _ hy => exact hk y hy
    · obtain ⟨y, hy, hyu, hyd⟩ := h
      cases hy with
      | head => exact absurd hyu hu
      | tail _ hy => exact ⟨y, hy, hyu, hyd⟩

theorem Has.reverse {items : List Item} {uri data : Str} (h : Has items uri data) :
    Has items.reverse uri data := by
  obtain ⟨x, hx, hu, hd⟩ := h
  exact ⟨x, List.mem_reverse.mpr hx, hu, hd⟩

/-- A name that is there stays, with its bytes. -/
theorem putItems_resident {free : Nat} {items : List Item} {x : Item} {data : Str}
    (h : Has items x.uri data) : Has (putItems free items x).2 x.uri data := by
  have hk : ∀ y ∈ ([] : List Item), y.uri ≠ x.uri := fun _ hy => absurd hy List.not_mem_nil
  obtain ⟨⟨q, hq⟩, hh⟩ : (∃ q, (sweep x.uri x.size free _ _).found = some q) ∧ _ :=
    sweep_finds hk h.reverse
  rw [putItems_found hq]
  exact hh

/-- A name that is not there comes in, with the new bytes. -/
theorem putItems_fresh {free : Nat} {items : List Item} {x : Item}
    (h : ∀ data, ¬Has items x.uri data) : Has (putItems free items x).2 x.uri x.data := by
  cases hf : (sweep x.uri x.size free items.reverse []).found with
  | some q =>
    obtain ⟨y, hy, -, hu⟩ := sweep_found hf
    obtain ⟨z, hz, hc⟩ := mem_of_subperm (sweep_items_subperm _ _ _ _) hy
    simp only [Item.content, Prod.mk.injEq] at hc
    exact absurd ⟨z, hz, hc.2.1.trans hu, rfl⟩ (h z.data)
  | none =>
    rw [putItems_none hf]
    exact ⟨x, List.mem_cons_self, rfl, rfl⟩

/-- Of the other names nothing comes in. -/
theorem putItems_other {free : Nat} {items : List Item} {x : Item} {uri data : Str}
    (hne : uri ≠ x.uri) (h : Has (putItems free items x).2 uri data) : Has items uri data := by
  cases hf : (sweep x.uri x.size free items.reverse []).found with
  | some q =>
    rw [putItems_found hf] at h
    exact has_of_subperm (sweep_items_subperm _ _ _ _) h
  | none =>
    rw [putItems_none hf] at h
    obtain ⟨y, hy, hu, hd⟩ := h
    cases hy with
    | head => exact absurd hu.symm hne
    | tail _ hy =>
      exact has_of_subperm ((rest_subperm _ _ _ _).trans (sweep_items_subperm _ _ _ _))
        ⟨y, hy, hu, hd⟩

/-! ## Keys -/

/-- The name determines host and location, as a host has no slash. -/
theorem uriGen_inj {host host' loc loc' : Str} (h : 47 ∉ host) (h' : 47 ∉ host')
    (he : uriGen host loc = uriGen host' loc') : host = host' ∧ loc = loc' := by
  unfold uriGen at he
  induction host generalizing host' with
  | nil =>
    cases host' with
    | nil => exact ⟨rfl, (List.cons.inj he).2⟩
    | cons b t =>
      rw [List.nil_append, List.cons_append] at he
      exact absurd (List.mem_cons.mpr (.inl (List.cons.inj he).1)) h'
  | cons a s ih =>
    cases host' with
    | nil =>
      rw [List.nil_append, List.cons_append] at he
      exact absurd (List.mem_cons.mpr (.inl (List.cons.inj he).1.symm)) h
    | cons b t =>
      rw [List.cons_append, List.cons_append] at he
      have hi := ih (fun hm => h (List.mem_cons_of_mem _ hm))
        (fun hm => h' (List.mem_cons_of_mem _ hm)) (List.cons.inj he).2
      exact ⟨congrArg₂ _ (List.cons.inj he).1 hi.1, hi.2⟩

/-! ## The calls -/

/-- What a put leaves. -/
structure PutAnswer (c : Cache) (host loc buf : Str) (c' : Cache) : Prop where
  fresh : ¬Resident c host loc → Entry c' (uriGen host loc) buf
  others : ∀ host' loc', 47 ∉ host' → host' ≠ host ∨ loc' ≠ loc → Resident c' host' loc' →
    ∀ data, Entry c' (uriGen host' loc') data ↔ Entry c (uriGen host' loc') data

/-- What a get answers, when `data` is the entry's bytes if there is one. -/
structure GetAnswer (c : Cache) (host loc data buf : Str) (bufsz : Nat) (c' : Cache) (hit : Bool)
    (buf' : Str) (bufsz' : Nat) : Prop where
  found : hit = true ↔ Resident c host loc
  size : hit = true → bufsz' = data.length
  bytes : hit = true → buf'.take bufsz' = data
  room : hit = true → buf.length = bufsz → buf'.length = max bufsz bufsz'
  miss : hit = false → buf' = buf ∧ bufsz' = bufsz
  kept : ∀ uri data, Entry c' uri data ↔ Entry c uri data

section

variable {maxsize : Nat} {c c' : Cache} {l : List Ptr} {p : Ptr} {host loc buf : Str}

/-- After a put another name is there only if it was. -/
theorem PutAnswer.resident (h : PutAnswer c host loc buf c') {host' loc' : Str}
    (hh : 47 ∉ host') (hne : ¬(host' = host ∧ loc' = loc)) (hr : Resident c' host' loc') :
    Resident c host' loc' := by
  have ho := h.others host' loc' hh (by tauto) hr
  obtain ⟨d, hd⟩ := hr
  exact ⟨d, (ho d).mp hd⟩

theorem WellFormed.put_answer (h : WellFormed maxsize c l) (hm : maxsize < 18446744073709551616)
    (hh : 47 ∉ host) (hp : c.live p = false) (hs : buf.length ≤ maxsize) {fuel : Nat}
    (hc : cachePut fuel c p host loc buf = some c') : PutAnswer c host loc buf c' := by
  obtain ⟨l', hl⟩ := h.put hm hp hs hc
  have hw := hl.wellFormed (putItems_account h.account hs rfl)
  constructor
  · intro hr
    rw [hw.entry_iff, hl.items]
    refine putItems_fresh (x := created p host loc buf) ?_
    intro data hd
    exact hr ⟨data, h.entry_iff.mpr hd⟩
  · intro host' loc' hh' hne hr data
    have hu : uriGen host' loc' ≠ (created p host loc buf).uri := by
      intro he
      have hi := uriGen_inj hh' hh he
      cases hne with
      | inl hne => exact hne hi.1
      | inr hne => exact hne hi.2
    have hold : ∀ d, Entry c' (uriGen host' loc') d → Entry c (uriGen host' loc') d := by
      intro d he
      rw [hw.entry_iff, hl.items] at he
      exact h.entry_iff.mpr (putItems_other hu he)
    refine ⟨hold data, ?_⟩
    intro he
    obtain ⟨d, hd⟩ := hr
    have heq := Has.unique h.account.uris (h.entry_iff.mp he) (h.entry_iff.mp (hold d hd))
    rw [heq]
    exact hd

/-- A put of a resident name keeps its bytes. -/
theorem WellFormed.put_resident (h : WellFormed maxsize c l) (hm : maxsize < 18446744073709551616)
    (hp : c.live p = false) (hs : buf.length ≤ maxsize) {fuel : Nat} {data : Str}
    (hc : cachePut fuel c p host loc buf = some c') (he : Entry c (uriGen host loc) data) :
    Entry c' (uriGen host loc) data := by
  obtain ⟨l', hl⟩ := h.put hm hp hs hc
  have hw := hl.wellFormed (putItems_account h.account hs rfl)
  rw [hw.entry_iff, hl.items]
  exact putItems_resident (x := created p host loc buf) (h.entry_iff.mp he)

theorem WellFormed.get_answer (h : WellFormed maxsize c l) {fuel bufsz bufsz' : Nat} {hit : Bool}
    {buf' data : Str} (hd : Resident c host loc → Entry c (uriGen host loc) data)
    (hc : cacheGet fuel c host loc buf bufsz = some (c', hit, buf', bufsz')) :
    GetAnswer c host loc data buf bufsz c' hit buf' bufsz' := by
  cases h.get_cases hc with
  | inl found =>
    obtain ⟨p, hp, hu, hr⟩ := found
    simp only [Prod.mk.injEq] at hr
    obtain ⟨rfl, rfl, rfl, rfl⟩ := hr
    have hw := h.account.whole _ (List.mem_map_of_mem hp)
    have he : Entry c (uriGen host loc) (c.data p) :=
      ⟨l, h.listed.ring, h.listed.nodup_ring, p, hp, hu, rfl, hw⟩
    have hdata : data = c.data p := Has.unique h.account.uris
      (h.entry_iff.mp (hd ⟨_, he⟩)) (h.entry_iff.mp he)
    change c.size p = (c.data p).length at hw
    constructor
    · exact ⟨fun _ => ⟨_, he⟩, fun _ => rfl⟩
    · intro _
      rw [hdata, hw]
    · intro _
      simp [memcpy, hw, hdata]
    · intro _ hb
      unfold memcpy
      split <;> simp <;> omega
    · intro hf
      cases hf
    · exact fun _ _ => Iff.rfl
  | inr none =>
    obtain ⟨hu, hr⟩ := none
    simp only [Prod.mk.injEq] at hr
    obtain ⟨rfl, rfl, rfl, rfl⟩ := hr
    have hn : ¬Resident c' host loc := by
      intro hres
      obtain ⟨d, hh⟩ := hres
      obtain ⟨x, hx, hxu, -⟩ := h.entry_iff.mp hh
      obtain ⟨p, hp, rfl⟩ := List.mem_map.mp hx
      exact hu p hp hxu
    constructor
    · exact ⟨fun hf => absurd hf Bool.false_ne_true, fun hres => absurd hres hn⟩
    · exact fun hf => absurd hf Bool.false_ne_true
    · exact fun hf => absurd hf Bool.false_ne_true
    · exact fun hf => absurd hf Bool.false_ne_true
    · exact fun _ => ⟨rfl, rfl⟩
    · exact fun _ _ => Iff.rfl

end

/-! ## Runs

`stored host loc` is the bytes of the put that last made the key resident. -/

/-- Runs, with what was last stored for each object. -/
inductive Stored (maxsize : Nat) : Cache → (Str → Str → Str) → Prop
  | init (stored : Str → Str → Str) : Stored maxsize (cacheInit maxsize) stored
  | fresh {c c' : Cache} {stored : Str → Str → Str} {p : Ptr} {host loc buf : Str} {fuel : Nat} :
      Stored maxsize c stored → 47 ∉ host → c.live p = false → buf.length ≤ maxsize →
      ¬Resident c host loc → cachePut fuel c p host loc buf = some c' →
      Stored maxsize c' fun h l => if h = host ∧ l = loc then buf else stored h l
  | again {c c' : Cache} {stored : Str → Str → Str} {p : Ptr} {host loc buf : Str} {fuel : Nat} :
      Stored maxsize c stored → 47 ∉ host → c.live p = false → buf.length ≤ maxsize →
      Resident c host loc → cachePut fuel c p host loc buf = some c' →
      Stored maxsize c' stored
  | get {c c' : Cache} {stored : Str → Str → Str} {host loc buf buf' : Str}
      {fuel bufsz bufsz' : Nat} {hit : Bool} : Stored maxsize c stored → 47 ∉ host →
      cacheGet fuel c host loc buf bufsz = some (c', hit, buf', bufsz') →
      Stored maxsize c' stored

theorem not_resident_init (maxsize : Nat) (host loc : Str) :
    ¬Resident (cacheInit maxsize) host loc := by
  intro hr
  obtain ⟨d, hd⟩ := hr
  obtain ⟨x, hx, -⟩ := (WellFormed.init maxsize).entry_iff.mp hd
  cases hx

/-- A resident key has the bytes that were stored last. -/
theorem Stored.entry {maxsize : Nat} {c : Cache} {stored : Str → Str → Str}
    (hm : maxsize < 18446744073709551616) (h : Stored maxsize c stored) :
    (∃ l, WellFormed maxsize c l) ∧ ∀ host loc, 47 ∉ host → Resident c host loc →
      Entry c (uriGen host loc) (stored host loc) := by
  induction h with
  | init stored =>
    refine ⟨⟨[], WellFormed.init maxsize⟩, ?_⟩
    intro host loc _ hr
    exact absurd hr (not_resident_init maxsize host loc)
  | @fresh c c' stored p host loc buf _ _ hh hp hs hn hc ih =>
    obtain ⟨⟨l, hl⟩, he⟩ := ih
    have ha := hl.put_answer hm hh hp hs hc
    refine ⟨hl.put_wellFormed hm hp hs hc, ?_⟩
    intro h' l' hh' hr
    dsimp only
    by_cases hk : h' = host ∧ l' = loc
    · rw [if_pos hk, hk.1, hk.2]
      exact ha.fresh hn
    · rw [if_neg hk]
      have ho := ha.others h' l' hh' (by tauto) hr
      exact (ho _).mpr (he h' l' hh' (ha.resident hh' hk hr))
  | @again c c' stored p host loc buf _ _ hh hp hs hn hc ih =>
    obtain ⟨⟨l, hl⟩, he⟩ := ih
    have ha := hl.put_answer hm hh hp hs hc
    refine ⟨hl.put_wellFormed hm hp hs hc, ?_⟩
    intro h' l' hh' hr
    by_cases hk : h' = host ∧ l' = loc
    · rw [hk.1, hk.2]
      exact hl.put_resident hm hp hs hc (he host loc hh hn)
    · have ho := ha.others h' l' hh' (by tauto) hr
      exact (ho _).mpr (he h' l' hh' (ha.resident hh' hk hr))
  | @get c c' stored host loc buf _ _ _ _ _ _ hh hc ih =>
    obtain ⟨⟨l, hl⟩, he⟩ := ih
    have ha := hl.get_answer (he host loc hh) hc
    refine ⟨⟨l, hl.get_wellFormed hc⟩, ?_⟩
    intro h' l' hh' hr
    refine (ha.kept _ _).mpr (he h' l' hh' ?_)
    obtain ⟨d, hd⟩ := hr
    exact ⟨d, (ha.kept _ _).mp hd⟩

/-- The cache is a map with eviction: in every reachable state each call returns,
and answers by what was stored. -/
theorem stored_map {maxsize : Nat} {c : Cache} {stored : Str → Str → Str}
    (hm : maxsize < 18446744073709551616) (h : Stored maxsize c stored) {host : Str}
    (hh : 47 ∉ host) (loc buf : Str) :
    (∀ p, c.live p = false → buf.length ≤ maxsize →
      (∃ fuel c', cachePut fuel c p host loc buf = some c') ∧
      ∀ fuel c', cachePut fuel c p host loc buf = some c' → PutAnswer c host loc buf c') ∧
    ∀ bufsz, (∃ fuel r, cacheGet fuel c host loc buf bufsz = some r) ∧
      ∀ fuel c' hit buf' bufsz', cacheGet fuel c host loc buf bufsz = some (c', hit, buf', bufsz') →
        GetAnswer c host loc (stored host loc) buf bufsz c' hit buf' bufsz' := by
  obtain ⟨⟨l, hl⟩, he⟩ := h.entry hm
  constructor
  · intro p hp hs
    refine ⟨?_, fun fuel c' hc => hl.put_answer hm hh hp hs hc⟩
    obtain ⟨fuel, c', -, hc, -⟩ : ∃ fuel c' l', cachePut fuel c p host loc buf = some c' ∧ _ :=
      hl.put_items hm hp hs
    exact ⟨fuel, c', hc⟩
  · intro bufsz
    refine ⟨hl.get_returns host loc buf bufsz, ?_⟩
    intro fuel c' hit buf' bufsz' hc
    exact hl.get_answer (he host loc hh) hc

/-- A put of three bytes and a get into a buffer of one. -/
theorem stored_map_hit : ∃ c c', cachePut 2 (cacheInit 10) 1 [97] [98] [1, 2, 3] = some c ∧
    cacheGet 3 c [97] [98] [0] 1 = some (c', true, [1, 2, 3], 3) ∧
    GetAnswer c [97] [98] [1, 2, 3] [0] 1 c' true [1, 2, 3] 3 := by
  have hp : cachePut 2 (cacheInit 10) 1 [97] [98] [1, 2, 3] = some _ := rfl
  have hs := Stored.fresh (Stored.init fun _ _ => []) (by decide) rfl (by decide)
    (not_resident_init 10 [97] [98]) hp
  refine ⟨_, _, hp, rfl, ?_⟩
  exact ((stored_map (by decide) hs (by decide) [98] [0]).2 1).2 3 _ _ _ _ rfl

end Csapp.ProxyCache
