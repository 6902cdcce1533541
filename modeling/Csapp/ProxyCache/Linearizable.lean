import Mathlib
import Csapp.ProxyCache.Relation

/-!
# The object cache is linearizable

A hit takes effect when the patience is counted down, a miss when the loop has
come round to the head, a put when its entry is listed or the entry of the name
is found. Every other step leaves the atomic cache where it is.
-/

namespace Csapp.ProxyCache

section

variable {maxsize : Nat} {c a : Cache} {l la : List Ptr} {host loc buf : Str}

theorem View.of_items (hi : l.map (itemOf c) = la.map (itemOf a)) (hf : c.freesz = a.freesz) :
    View c l a la := by
  have hp : ∀ (x : Cache) (m : List Ptr), (m.map (itemOf x)).map Item.ptr = m := by
    intro x m
    rw [List.map_map]
    exact List.map_id m
  have hl : l = la := by
    rw [← hp c l, hi, hp a la]
  exact ⟨hl, hl ▸ hi, hf⟩

theorem View.item (h : View c l a la) {q : Ptr} (hq : q ∈ l) : itemOf c q = itemOf a q :=
  List.map_inj_left.mp h.items q (h.list ▸ hq)

/-- No name is listed twice. -/
theorem WellFormed.uri_inj (h : WellFormed maxsize a la) {p q : Ptr} (hp : p ∈ la) (hq : q ∈ la)
    (he : a.uri p = a.uri q) : p = q := by
  have hnd := h.account.uris
  rw [List.map_map] at hnd
  exact List.inj_on_of_nodup_map hnd hp hq he

/-! ## The account of a put that is midway -/

theorem swept_total (h : WellFormed maxsize a la) :
    (swept a la host loc buf).free + sizes (swept a la host loc buf).items = maxsize := by
  have ht := sweep_total (uriGen host loc) buf.length a.freesz (la.map (itemOf a)).reverse []
  rw [sizes_reverse, sizes_nil, Nat.add_zero, h.account.total] at ht
  exact ht

theorem emptied_total (h : WellFormed maxsize a la) :
    (emptied a la host loc buf).1 + sizes (emptied a la host loc buf).2 = maxsize := by
  have ht := drainedAll_total buf.length (swept a la host loc buf).free
    (swept a la host loc buf).items.reverse
  rw [sizes_reverse, swept_total h] at ht
  exact ht

theorem walk_total {todo kept : List Ptr} (h : WellFormed maxsize a la)
    (hs : sweep (uriGen host loc) buf.length c.freesz (todo.map (itemOf c)) (kept.map (itemOf c)) =
      swept a la host loc buf) :
    c.freesz + sizes (todo.map (itemOf c)) + sizes (kept.map (itemOf c)) = maxsize := by
  rw [← sweep_total (uriGen host loc) buf.length, hs]
  exact swept_total h

theorem drain_total {todo : List Ptr} (h : WellFormed maxsize a la)
    (hd : drainedAll buf.length (drained c.freesz (todo.map (itemOf c))).1
      (drained c.freesz (todo.map (itemOf c))).2 = emptied a la host loc buf) :
    c.freesz + sizes (todo.map (itemOf c)) = maxsize := by
  rw [← drained_total, ← drainedAll_total buf.length, hd]
  exact emptied_total h

theorem while_total (h : WellFormed maxsize a la)
    (hd : drainedAll buf.length c.freesz (l.map (itemOf c)).reverse = emptied a la host loc buf) :
    c.freesz + sizes (l.map (itemOf c)) = maxsize := by
  rw [← sizes_reverse, ← drainedAll_total buf.length, hd]
  exact emptied_total h

/-! ## Calls on the atomic cache -/

/-- A put on the atomic cache, with the address the entry has already. -/
theorem WellFormed.atomic_put (h : WellFormed maxsize a la) (hm : maxsize < 18446744073709551616)
    {p : Ptr} (hp : p ∉ head :: la) (hs : buf.length ≤ maxsize) :
    ∃ a' la', CacheAct a (.put host loc buf) a' .put ∧ WellFormed maxsize a' la' ∧
      la'.map (itemOf a') =
        (putItems a.freesz (la.map (itemOf a)) (created p host loc buf)).2 ∧
      a'.freesz = (putItems a.freesz (la.map (itemOf a)) (created p host loc buf)).1 := by
  have hlive : a.live p = false := by
    rw [← Bool.not_eq_true]
    exact fun hl => hp ((h.listed.live p).mp hl)
  obtain ⟨fuel, a', la', hc, hh⟩ : ∃ fuel a' la', cachePut fuel a p host loc buf = some a' ∧ _ :=
    h.put_items hm hlive hs
  exact ⟨a', la', .put hlive hc, hh.wellFormed (putItems_account h.account hs rfl), hh.items,
    hh.free⟩

/-- A get that hits. -/
theorem WellFormed.atomic_hit (h : WellFormed maxsize a la) {node : Ptr} (hn : node ∈ la)
    (hu : a.uri node = uriGen host loc) (n : Nat) :
    CacheAct a (.get host loc buf n)
      (a.setPatience node ((a.patience node - 1).bmod 18446744073709551616))
      (.got true (memcpy (if n < a.size node then List.replicate (a.size node) 0 else buf)
        (a.data node) (a.size node)) (a.size node)) := by
  obtain ⟨fuel, r, hr⟩ := h.get_returns host loc buf n
  cases h.get_cases hr with
  | inl hit =>
      obtain ⟨p, hp, hpu, he⟩ := hit
      rw [h.uri_inj hp hn (hpu.trans hu.symm)] at he
      rw [he] at hr
      exact .get hr
  | inr miss => exact absurd hu (miss.1 node hn)

/-- A get that misses. -/
theorem WellFormed.atomic_miss (h : WellFormed maxsize a la)
    (hu : ∀ p ∈ la, a.uri p ≠ uriGen host loc) (n : Nat) :
    CacheAct a (.get host loc buf n) a (.got false buf n) := by
  obtain ⟨fuel, r, hr⟩ := h.get_returns host loc buf n
  cases h.get_cases hr with
  | inl hit =>
      obtain ⟨p, hp, hpu, -⟩ := hit
      exact absurd hpu (hu p hp)
  | inr miss =>
      rw [miss.2] at hr
      exact .get hr

end

/-! ## Steps that wait for nothing -/

variable {ι : Type} [DecidableEq ι]

/-- The atomic cache follows without showing anything. -/
def Follows (maxsize : Nat) (a : Cache) (ph : ι → Phase Op Res) (s' : Threads ι) : Prop :=
  ∃ x, Trace (AtomicStep (fits maxsize) CacheAct) (a, ph) [] x ∧
    ∃ hand l la, Related maxsize s' x.1 x.2 hand l la

section

variable {maxsize n : Nat} {s : Threads ι} {a c' : Cache} {ph : ι → Phase Op Res}
  {hand l la : List Ptr} {i : ι} {host loc buf : Str} {p node : Ptr} {pc' : Pc}

theorem Related.follows {s' : Threads ι} {l' la' hand' : List Ptr}
    (h : Related maxsize s' a ph hand' l' la') : Follows maxsize a ph s' :=
  ⟨(a, ph), .done, hand', l', la', h⟩

theorem Related.follows_act {s' : Threads ι} {a' : Cache} {op : Op} {r : Res}
    {l' la' hand' : List Ptr} (hop : ph i = .called op) (ha : CacheAct a op a' r)
    (h : Related maxsize s' a' (Function.update ph i (.done r)) hand' l' la') :
    Follows maxsize a ph s' :=
  ⟨(a', Function.update ph i (.done r)), .silent (.act hop ha) .done, hand', l', la', h⟩

theorem Related.run_getFirst (h : Related maxsize s a ph hand l la)
    (hpc : s.pc i = .getFirst (uriGen host loc) buf n)
    (hph : ph i = .called (.get host loc buf n))
    (hadv : advance s.cache (.getFirst (uriGen host loc) buf n) = some (c', pc')) :
    Follows maxsize a ph (s.goto i c' pc') := by
  obtain ⟨rfl, rfl⟩ := Prod.mk.inj (Option.some.inj hadv)
  refine Related.follows (h.quiet hpc rfl id id id ?_)
  rw [hph, Seg.next_start h.listed.ring]
  exact .getLoop (show l = [] ++ l from rfl) fun q hq => absurd hq List.not_mem_nil

theorem Related.run_getLoop {l₁ l₂ : List Ptr} (h : Related maxsize s a ph hand l la)
    (hpc : s.pc i = .getLoop (uriGen host loc) buf n (l₂.head?.getD head))
    (hph : ph i = .called (.get host loc buf n)) (hl : l = l₁ ++ l₂)
    (hu : ∀ q ∈ l₁, s.cache.uri q ≠ uriGen host loc)
    (hadv : advance s.cache (.getLoop (uriGen host loc) buf n (l₂.head?.getD head)) =
      some (c', pc')) :
    Follows maxsize a ph (s.goto i c' pc') := by
  cases l₂ with
  | nil =>
      -- round to the head: nothing of that name is listed
      obtain ⟨rfl, rfl⟩ := Prod.mk.inj (Option.some.inj hadv)
      have hv : View s.cache l a la := h.entries hpc rfl rfl
      have hmiss : ∀ p ∈ la, a.uri p ≠ uriGen host loc := by
        intro p hp
        rw [← hv.list] at hp
        have hi := congrArg Item.uri (hv.item hp)
        rw [hl, List.append_nil] at hp
        exact fun he => hu p hp (hi.trans he)
      exact Related.follows_act hph (h.atomic.atomic_miss hmiss n)
        (h.local (hpc ▸ rfl) (fun hf => by cases hf) (fun _ => h.others_read (hpc ▸ rfl))
          (fun _ => hpc ▸ rfl) (fun op hop => by cases hop) .getUnlock)
  | cons x l₂ =>
      have hx : x ∈ l := by simp [hl]
      have hne : x ≠ head := fun he =>
        (List.nodup_cons.mp h.listed.nodup_ring).1 (he ▸ hx)
      rw [List.head?_cons, Option.getD_some] at hpc hadv
      rw [advance, if_neg hne] at hadv
      by_cases hxu : s.cache.uri x = uriGen host loc
      · rw [if_pos hxu] at hadv
        obtain ⟨rfl, rfl⟩ := Prod.mk.inj (Option.some.inj hadv)
        refine Related.follows (h.quiet hpc rfl id id id ?_)
        rw [hph]
        exact .getCopy hx hxu
      · rw [if_neg hxu] at hadv
        obtain ⟨rfl, rfl⟩ := Prod.mk.inj (Option.some.inj hadv)
        refine Related.follows (h.quiet hpc rfl id id id ?_)
        have hr := h.listed.ring
        rw [hl] at hr
        rw [hph, Seg.next_start (seg_append.mp hr).2]
        refine .getLoop (show l = (l₁ ++ [x]) ++ l₂ by simp [hl]) ?_
        intro q hq
        rw [List.mem_append, List.mem_singleton] at hq
        cases hq with
        | inl hq => exact hu q hq
        | inr hq => exact hq ▸ hxu

theorem Related.run_getCopy (h : Related maxsize s a ph hand l la)
    (hpc : s.pc i = .getCopy buf n node) (hph : ph i = .called (.get host loc buf n))
    (hn : node ∈ l) (hu : s.cache.uri node = uriGen host loc)
    (hadv : advance s.cache (.getCopy buf n node) = some (c', pc')) :
    Follows maxsize a ph (s.goto i c' pc') := by
  obtain ⟨rfl, rfl⟩ := Prod.mk.inj (Option.some.inj hadv)
  refine Related.follows (h.quiet hpc rfl id id id ?_)
  rw [hph]
  exact .getPatience hn hu rfl rfl

theorem itemOf_setPatience_self (c : Cache) (q : Ptr) (v : Int) :
    itemOf (c.setPatience q v) q = { itemOf c q with patience := v } := by
  simp [itemOf, Cache.setPatience]

theorem itemOf_setPatience_ne (c : Cache) {q r : Ptr} (v : Int) (h : r ≠ q) :
    itemOf (c.setPatience q v) r = itemOf c r := by
  simp [itemOf, Cache.setPatience, h]

/-- The same patience for the same entry. -/
theorem View.setPatience {c : Cache} (h : View c l a la) (q : Ptr) (v : Int) :
    View (c.setPatience q v) l (a.setPatience q v) la where
  list := h.list
  items := by
    refine List.map_congr_left ?_
    intro r hr
    have hi := h.item (h.list.symm ▸ hr)
    by_cases hrq : r = q
    · subst hrq
      rw [itemOf_setPatience_self, itemOf_setPatience_self, hi]
    · rw [itemOf_setPatience_ne _ v hrq, itemOf_setPatience_ne _ v hrq, hi]
  free := h.free

theorem Related.count_down {hit : Bool} {buf' : Str} {n' : Nat}
    (h : Related maxsize s a ph hand l la) (hpc : s.pc i = .getPatience buf n node)
    (hn : node ∈ l) (v : Int) :
    Related maxsize (s.goto i (s.cache.setPatience node v) (.getUnlock hit buf' n'))
      (a.setPatience node v) (Function.update ph i (.done (.got hit buf' n'))) hand l la := by
  have hv : View s.cache l a la := h.entries hpc rfl rfl
  have hread : (s.pc i).holding = true := hpc ▸ rfl
  refine h.step (h.listed.setPatience node v) (h.atomic.setPatience node v)
    (h.owned_same (hpc ▸ rfl)) (h.single_same (hpc ▸ rfl)) (fun hf => by cases hf)
    (fun _ => h.others_read hread) ?_ (fun _ _ => hv.setPatience node _) .getUnlock ?_
  · intro op hop
    cases hop
  · intro j hj
    refine (h.matched j).patience (h.others_read hread j hj) ?_
    -- an entry in hand is not listed
    intro hjn
    exact h.listed.off_list ((h.owned node).mpr ⟨j, hjn⟩) (List.mem_cons_of_mem _ hn)

theorem Related.run_getPatience {buf' : Str} {n' : Nat} (h : Related maxsize s a ph hand l la)
    (hpc : s.pc i = .getPatience buf' n' node) (hph : ph i = .called (.get host loc buf n))
    (hn : node ∈ l) (hu : s.cache.uri node = uriGen host loc)
    (hb : buf' = memcpy
      (if n < s.cache.size node then List.replicate (s.cache.size node) 0 else buf)
      (s.cache.data node) (s.cache.size node)) (hs : n' = s.cache.size node)
    (hadv : advance s.cache (.getPatience buf' n' node) = some (c', pc')) :
    Follows maxsize a ph (s.goto i c' pc') := by
  obtain ⟨rfl, rfl⟩ := Prod.mk.inj (Option.some.inj hadv)
  have hv : View s.cache l a la := h.entries hpc rfl rfl
  have hi := hv.item hn
  have hpat : s.cache.patience node = a.patience node := congrArg Item.patience hi
  have hsz : s.cache.size node = a.size node := congrArg Item.size hi
  have hdt : s.cache.data node = a.data node := congrArg Item.data hi
  have hau : a.uri node = uriGen host loc := (congrArg Item.uri hi).symm.trans hu
  rw [hsz, hdt] at hb
  rw [hsz] at hs
  rw [hpat, hb, hs]
  exact Related.follows_act hph (h.atomic.atomic_hit (hv.list ▸ hn) hau n)
    (h.count_down hpc hn _)

theorem Related.run_getUnlock {hit : Bool} (h : Related maxsize s a ph hand l la)
    (hpc : s.pc i = .getUnlock hit buf n) (hph : ph i = .done (.got hit buf n))
    (hadv : advance s.cache (.getUnlock hit buf n) = some (c', pc')) :
    Follows maxsize a ph (s.goto i c' pc') := by
  obtain ⟨rfl, rfl⟩ := Prod.mk.inj (Option.some.inj hadv)
  refine Related.follows
    (h.quiet hpc rfl (fun hf => by cases hf) (fun hf => by cases hf) id ?_)
  rw [hph]
  exact .ret

/-! ## Steps of a put -/

theorem InHand.uri {c : Cache} (h : InHand c la p host loc buf) : c.uri p = uriGen host loc :=
  congrArg Item.uri h.item

theorem InHand.size {c : Cache} (h : InHand c la p host loc buf) : c.size p = buf.length :=
  congrArg Item.size h.item

theorem Left.item_hand {c c' : Cache} {free : Nat} {items : List Item} {q : Ptr}
    (h : Left c c' hand l free items) (hq : q ∈ hand) : itemOf c' q = itemOf c q := by
  unfold itemOf
  rw [h.hand q hq, h.uri, h.data, h.size]

theorem At.promote_hand {c : Cache} {x q : Ptr} {rest kept : List Ptr}
    (h : At c hand x rest kept) (hq : q ∈ hand) : itemOf (cachePromote c x) q = itemOf c q :=
  itemOf_promote_ne c (h.hand q hq)

theorem Related.run_putFirst (h : Related maxsize s a ph hand l la)
    (hpc : s.pc i = .putFirst p buf.length) (hph : ph i = .called (.put host loc buf))
    (hi : itemOf s.cache p = created p host loc buf)
    (hadv : advance s.cache (.putFirst p buf.length) = some (c', pc')) :
    Follows maxsize a ph (s.goto i c' pc') := by
  obtain ⟨rfl, rfl⟩ := Prod.mk.inj (Option.some.inj hadv)
  have hv : View s.cache l a la := h.entries hpc rfl rfl
  have hfresh := h.listed.off_list (h.in_hand hpc rfl)
  refine Related.follows (h.quiet hpc rfl id id (fun hf => by cases hf) ?_)
  rw [hph, h.listed.last]
  refine .putWalk ⟨hi, hv.list ▸ hfresh⟩ (show l = l.reverse.reverse ++ [] by simp) ?_
  rw [swept, List.map_reverse, hv.list, hv.items, hv.free, List.map_nil]

/-- The name is listed already. -/
theorem Related.put_found (h : Related maxsize s a ph hand l la)
    (hm : maxsize < 18446744073709551616) {x : Ptr} {todo kept : List Ptr} (hpc : s.pc i = .putWalk p buf.length x)
    (hph : ph i = .called (.put host loc buf)) (hi : InHand s.cache la p host loc buf)
    (ha : At s.cache hand x todo kept)
    (hs : sweep (uriGen host loc) buf.length s.cache.freesz ((x :: todo).map (itemOf s.cache))
      (kept.map (itemOf s.cache)) = swept a la host loc buf)
    (hu : s.cache.uri x = uriGen host loc) :
    Follows maxsize a ph (s.goto i
      ((cachePromote s.cache x).setPatience x defaultPatience) (.putUnlock p (some x))) := by
  have hf := ha.found
  have hp := h.in_hand hpc rfl
  rw [List.map_cons, sweep_found_eq (x := itemOf s.cache x) hu] at hs
  have hput : putItems a.freesz (la.map (itemOf a)) (created p host loc buf) = _ :=
    putItems_found (congrArg Swept.found hs).symm
  obtain ⟨a', la', hact, hwf, hitems, hfree⟩ :
      ∃ a' la', CacheAct a (.put host loc buf) a' .put ∧ _ :=
    h.atomic.atomic_put hm hi.fresh (h.allowed i _ hph)
  rw [hput] at hitems hfree
  have hv : View _ (x :: (todo.reverse ++ kept)) a' la' := View.of_items
    ((hf.items.trans (congrArg Swept.items hs)).trans hitems.symm)
    ((hf.free.trans (congrArg Swept.free hs)).trans hfree.symm)
  refine Related.follows_act hph hact (h.effect hpc rfl rfl hf.listed hwf hv
    (fun q hq => hf.item_hand hq) ?_)
  intro q
  constructor
  · intro hq
    by_cases hqp : q = p
    · exact .inl (congrArg some hqp.symm)
    · exact .inr ⟨hq, hqp⟩
  · intro hq
    cases hq with
    | inl hq => exact Option.some.inj hq ▸ hp
    | inr hq => exact hq.1

theorem Related.run_putWalk {todo kept : List Ptr} (h : Related maxsize s a ph hand l la)
    (hm : maxsize < 18446744073709551616)
    (hpc : s.pc i = .putWalk p buf.length (todo.head?.getD head))
    (hph : ph i = .called (.put host loc buf)) (hi : InHand s.cache la p host loc buf)
    (hl : l = todo.reverse ++ kept)
    (hs : sweep (uriGen host loc) buf.length s.cache.freesz (todo.map (itemOf s.cache))
      (kept.map (itemOf s.cache)) = swept a la host loc buf)
    (hadv : advance s.cache (.putWalk p buf.length (todo.head?.getD head)) = some (c', pc')) :
    Follows maxsize a ph (s.goto i c' pc') := by
  subst hl
  cases todo with
  | nil =>
      obtain ⟨rfl, rfl⟩ := Prod.mk.inj (Option.some.inj hadv)
      rw [List.map_nil, sweep] at hs
      refine Related.follows (h.quiet hpc rfl id id id ?_)
      rw [hph]
      refine .putWhile hi (congrArg Swept.found hs).symm ?_
      rw [emptied, ← hs]
      rfl
  | cons x rest =>
      have ha := h.listed.at
      have htot := walk_total h.atomic hs
      rw [List.map_cons, sizes_cons] at htot
      rw [List.head?_cons, Option.getD_some] at hpc hadv
      rw [advance, if_neg ha.ne_head, hi.uri, hi.size] at hadv
      by_cases hu : s.cache.uri x = uriGen host loc
      · rw [if_pos hu] at hadv
        obtain ⟨rfl, rfl⟩ := Prod.mk.inj (Option.some.inj hadv)
        exact h.put_found hm hpc hph hi ha hs hu
      rw [if_neg hu] at hadv
      dsimp only at hadv
      rw [ha.back] at hadv
      rw [List.map_cons] at hs
      by_cases hp : s.cache.patience x ≤ 0
      · rw [if_pos hp] at hadv
        obtain ⟨rfl, rfl⟩ := Prod.mk.inj (Option.some.inj hadv)
        have hhand := fun q (hq : q ∈ hand) => ha.promote_hand hq
        have hi' := hi.congr (hhand p (h.in_hand hpc rfl))
        rw [ha.prev]
        cases rest with
        | nil =>
            rw [List.map_nil, sweep_last_eq (x := itemOf s.cache x) hu hp] at hs
            refine Related.follows (h.edit hpc rfl rfl rfl ha.last.listed hhand ?_)
            rw [hph]
            refine .putWalk hi' (show x :: kept = [].reverse ++ (x :: kept) from rfl) ?_
            rw [List.map_nil, sweep, ha.last.items, ← hs]
            rfl
        | cons y rest =>
            have hne : (y :: rest).map (itemOf s.cache) ≠ [] := List.cons_ne_nil _ _
            rw [sweep_promote_eq (x := itemOf s.cache x) hu hp hne, ← ha.promoted_items,
              ← map_itemOf_promote s.cache ha.kept] at hs
            refine Related.follows (h.edit hpc rfl rfl rfl ha.promote hhand ?_)
            rw [hph]
            have hk : Matches _ _ a la
                (.putWalk p buf.length ((y :: rest ++ [x]).head?.getD head))
                (.called (.put host loc buf)) := .putWalk hi' rfl hs
            exact hk
      rw [if_neg hp] at hadv
      by_cases hz : s.cache.freesz < buf.length
      · rw [if_pos hz] at hadv
        obtain ⟨rfl, rfl⟩ := Prod.mk.inj (Option.some.inj hadv)
        have hfree : (cacheEvict s.cache x).freesz = s.cache.freesz + s.cache.size x := by
          refine cacheEvict_free ?_
          change s.cache.freesz + (s.cache.size x + _) + _ = _ at htot
          omega
        rw [sweep_evict_eq (x := itemOf s.cache x) hu hp hz] at hs
        rw [ha.prev]
        refine Related.follows (h.edit hpc rfl rfl rfl ha.evict (fun _ _ => rfl) ?_)
        rw [hph]
        refine .putWalk ⟨hi.item, hi.fresh⟩ rfl ?_
        rw [hfree]
        exact hs
      · rw [if_neg hz] at hadv
        obtain ⟨rfl, rfl⟩ := Prod.mk.inj (Option.some.inj hadv)
        rw [sweep_keep_eq (x := itemOf s.cache x) hu hp hz, ← List.map_cons] at hs
        rw [ha.prev]
        refine Related.follows (h.quiet hpc rfl id id id ?_)
        rw [hph]
        exact .putWalk hi (show _ = rest.reverse ++ (x :: kept) by simp) hs

theorem Related.run_putWhile (h : Related maxsize s a ph hand l la)
    (hpc : s.pc i = .putWhile p buf.length) (hph : ph i = .called (.put host loc buf))
    (hi : InHand s.cache la p host loc buf) (hn : (swept a la host loc buf).found = none)
    (hd : drainedAll buf.length s.cache.freesz (l.map (itemOf s.cache)).reverse =
      emptied a la host loc buf)
    (hadv : advance s.cache (.putWhile p buf.length) = some (c', pc')) :
    Follows maxsize a ph (s.goto i c' pc') := by
  rw [advance, hi.size] at hadv
  by_cases hz : s.cache.freesz < buf.length
  · rw [if_pos hz] at hadv
    obtain ⟨rfl, rfl⟩ := Prod.mk.inj (Option.some.inj hadv)
    refine Related.follows (h.quiet hpc rfl id id id ?_)
    rw [hph, h.listed.last]
    by_cases hl : l.reverse = []
    · rw [hl]
      exact .putDrained hi hn hd
    · have hne : (l.map (itemOf s.cache)).reverse ≠ [] := by
        rw [← List.map_reverse]
        exact fun he => hl (List.map_eq_nil_iff.mp he)
      rw [drainedAll, if_pos ⟨hz, hne⟩, ← List.map_reverse] at hd
      exact .putDrain hi hn (List.reverse_reverse l).symm hd
  · rw [if_neg hz] at hadv
    obtain ⟨rfl, rfl⟩ := Prod.mk.inj (Option.some.inj hadv)
    rw [drainedAll, if_neg fun hc => hz hc.1] at hd
    refine Related.follows (h.quiet hpc rfl id id id ?_)
    rw [hph]
    exact .putInsert hi hn hd (Nat.le_of_not_lt hz)

theorem Related.run_putDrained (h : Related maxsize s a ph hand l la)
    (hpc : s.pc i = .putDrain p buf.length head) (hph : ph i = .called (.put host loc buf))
    (hi : InHand s.cache la p host loc buf) (hn : (swept a la host loc buf).found = none)
    (hd : drainedAll buf.length s.cache.freesz (l.map (itemOf s.cache)).reverse =
      emptied a la host loc buf)
    (hadv : advance s.cache (.putDrain p buf.length head) = some (c', pc')) :
    Follows maxsize a ph (s.goto i c' pc') := by
  rw [advance, if_pos rfl] at hadv
  obtain ⟨rfl, rfl⟩ := Prod.mk.inj (Option.some.inj hadv)
  refine Related.follows (h.quiet hpc rfl id id id ?_)
  rw [hph]
  exact .putWhile hi hn hd

theorem Related.run_putDrain {todo : List Ptr} (h : Related maxsize s a ph hand l la)
    (hm : maxsize < 18446744073709551616)
    (hpc : s.pc i = .putDrain p buf.length (todo.head?.getD head))
    (hph : ph i = .called (.put host loc buf)) (hi : InHand s.cache la p host loc buf)
    (hn : (swept a la host loc buf).found = none) (hl : l = todo.reverse)
    (hd : drainedAll buf.length (drained s.cache.freesz (todo.map (itemOf s.cache))).1
      (drained s.cache.freesz (todo.map (itemOf s.cache))).2 = emptied a la host loc buf)
    (hadv : advance s.cache (.putDrain p buf.length (todo.head?.getD head)) = some (c', pc')) :
    Follows maxsize a ph (s.goto i c' pc') := by
  subst hl
  cases todo with
  | nil =>
      rw [List.map_nil, drained] at hd
      exact h.run_putDrained hpc hph hi hn hd hadv
  | cons x rest =>
      have ha : At s.cache hand x rest [] := h.listed.todo.at
      have htot := drain_total h.atomic hd
      rw [List.map_cons, sizes_cons] at htot
      rw [List.head?_cons, Option.getD_some] at hpc hadv
      rw [advance, if_neg ha.ne_head] at hadv
      dsimp only at hadv
      rw [ha.back] at hadv
      rw [List.map_cons] at hd
      by_cases hp : s.cache.patience x ≤ 0
      · rw [if_pos hp] at hadv
        obtain ⟨rfl, rfl⟩ := Prod.mk.inj (Option.some.inj hadv)
        have hhand := fun q (hq : q ∈ hand) => ha.promote_hand hq
        have hi' := hi.congr (hhand p (h.in_hand hpc rfl))
        rw [ha.prev]
        cases rest with
        | nil =>
            rw [List.map_nil, drained_last_eq (x := itemOf s.cache x) hp] at hd
            refine Related.follows (h.edit hpc rfl rfl rfl ha.last.listed hhand ?_)
            rw [hph]
            refine .putDrained hi' hn ?_
            rw [ha.last.items]
            exact hd
        | cons y rest =>
            have hne : (y :: rest).map (itemOf s.cache) ≠ [] := List.cons_ne_nil _ _
            rw [drained_promote_eq (x := itemOf s.cache x) hp hne, ← ha.promoted_items] at hd
            refine Related.follows (h.edit hpc rfl rfl rfl ha.promote hhand ?_)
            rw [hph]
            have hk : Matches _ _ a la
                (.putDrain p buf.length ((y :: rest ++ [x]).head?.getD head))
                (.called (.put host loc buf)) := .putDrain hi' hn (List.append_nil _) hd
            exact hk
      · rw [if_neg hp] at hadv
        obtain ⟨rfl, rfl⟩ := Prod.mk.inj (Option.some.inj hadv)
        have hfree : (cacheEvict s.cache x).freesz = s.cache.freesz + s.cache.size x := by
          refine cacheEvict_free ?_
          change s.cache.freesz + (s.cache.size x + _) = _ at htot
          omega
        rw [drained_evict_eq (x := itemOf s.cache x) hp] at hd
        rw [ha.prev]
        refine Related.follows (h.edit hpc rfl rfl rfl ha.evict (fun _ _ => rfl) ?_)
        rw [hph]
        refine .putDrain ⟨hi.item, hi.fresh⟩ hn (List.append_nil _) ?_
        rw [hfree]
        exact hd

/-- The entry goes into the list with what the loops have left. -/
theorem Related.run_putInsert (h : Related maxsize s a ph hand l la)
    (hm : maxsize < 18446744073709551616) (hpc : s.pc i = .putInsert p buf.length)
    (hph : ph i = .called (.put host loc buf)) (hi : InHand s.cache la p host loc buf)
    (hn : (swept a la host loc buf).found = none)
    (hd : (s.cache.freesz, (l.map (itemOf s.cache)).reverse) = emptied a la host loc buf)
    (hle : buf.length ≤ s.cache.freesz)
    (hadv : advance s.cache (.putInsert p buf.length) = some (c', pc')) :
    Follows maxsize a ph (s.goto i c' pc') := by
  obtain ⟨rfl, rfl⟩ := Prod.mk.inj (Option.some.inj hadv)
  have hp := h.in_hand hpc rfl
  have hput : putItems a.freesz (la.map (itemOf a)) (created p host loc buf) = _ :=
    putItems_none hn
  change putItems _ _ _ = ((emptied a la host loc buf).1 - buf.length,
    created p host loc buf :: (emptied a la host loc buf).2.reverse) at hput
  rw [← hd, List.reverse_reverse] at hput
  have hlt : s.cache.freesz < 18446744073709551616 := by
    have htot : (emptied a la host loc buf).1 + _ = maxsize := emptied_total h.atomic
    rw [← hd] at htot
    change s.cache.freesz + _ = _ at htot
    omega
  obtain ⟨a', la', hact, hwf, hitems, hfree⟩ :
      ∃ a' la', CacheAct a (.put host loc buf) a' .put ∧ _ :=
    h.atomic.atomic_put hm hi.fresh (h.allowed i _ hph)
  rw [hput] at hitems hfree
  have hv : View (cacheInsert (s.cache.subFree buf.length) p) (p :: l) a' la' := by
    refine View.of_items ?_ ?_
    · rw [itemOf_insert, itemOf_subFree, List.map_cons, hi.item]
      exact hitems.symm
    · rw [cacheInsert_free, subFree_of_le hle hlt]
      exact hfree.symm
  refine Related.follows_act hph hact (h.effect hpc rfl rfl (h.listed.subFree.insert_hand hp)
    hwf hv ?_ ?_)
  · intro q _
    rw [itemOf_insert, itemOf_subFree]
  · intro q
    have hnd := h.listed.nodup
    rw [List.nodup_cons, List.nodup_append] at hnd
    rw [hnd.2.1.mem_erase_iff]
    constructor
    · exact fun hq => .inr hq.symm
    · intro hq
      cases hq with
      | inl hq => cases hq
      | inr hq => exact hq.symm

theorem Related.run_putUnlock {found : Option Ptr} (h : Related maxsize s a ph hand l la)
    (hpc : s.pc i = .putUnlock p found) (hph : ph i = .done .put)
    (hadv : advance s.cache (.putUnlock p found) = some (c', pc')) :
    Follows maxsize a ph (s.goto i c' pc') := by
  cases found with
  | none =>
      obtain ⟨rfl, rfl⟩ := Prod.mk.inj (Option.some.inj hadv)
      refine Related.follows
        (h.quiet hpc rfl (fun hf => by cases hf) (fun hf => by cases hf) id ?_)
      rw [hph]
      exact .ret
  | some q =>
      obtain ⟨rfl, rfl⟩ := Prod.mk.inj (Option.some.inj hadv)
      refine Related.follows
        (h.quiet hpc rfl (fun hf => by cases hf) (fun hf => by cases hf) id ?_)
      rw [hph]
      exact .putDestroy

theorem Related.run_putDestroy (h : Related maxsize s a ph hand l la)
    (hpc : s.pc i = .putDestroy p) (hph : ph i = .done .put)
    (hadv : advance s.cache (.putDestroy p) = some (c', pc')) :
    Follows maxsize a ph (s.goto i c' pc') := by
  obtain ⟨rfl, rfl⟩ := Prod.mk.inj (Option.some.inj hadv)
  have hp := h.in_hand hpc rfl
  have hnd := h.listed.nodup
  rw [List.nodup_cons, List.nodup_append] at hnd
  have hrel : Related maxsize (s.goto i (s.cache.free p) (.ret .put)) a
      (Function.update ph i (.done .put)) (hand.erase p) l la := by
    refine h.step (h.listed.destroy hp) h.atomic ?_ (fun j q hj hjq hq => by cases hq)
      (fun hf => by cases hf) (fun hf => by cases hf) (fun op hop => by cases hop) ?_ .ret ?_
    · intro q
      rw [hnd.2.1.mem_erase_iff, h.owned_same (congrArg Pc.hand hpc.symm)]
      constructor
      · intro hq
        cases hq.2 with
        | inl hqp => exact absurd (Option.some.inj hqp).symm hq.1
        | inr hq => exact .inr hq
      · intro hq
        cases hq with
        | inl hq => cases hq
        | inr hq =>
            obtain ⟨j, hj, hjq⟩ := hq
            refine ⟨?_, .inr ⟨j, hj, hjq⟩⟩
            intro hqp
            refine hj (h.single j i q hjq ?_)
            rw [hpc, hqp]
            rfl
    · intro _ hm
      have hv : View s.cache l a la := by
        refine h.view ?_
        intro j
        by_cases hj : j = i
        · rw [hj, hpc]
          rfl
        · exact hm j hj
      exact ⟨hv.list, hv.items, hv.free⟩
    · intro j _
      exact (h.matched j).frame rfl (fun _ _ => rfl) (fun _ _ => rfl)
  rw [← hph, Function.update_eq_self] at hrel
  exact hrel.follows

end

/-! ## Every step -/

section

variable {maxsize : Nat} {s t : Threads ι} {a : Cache} {ph : ι → Phase Op Res}
  {hand l la : List Ptr} {i : ι}

theorem Related.run {c' : Cache} {pc pc' : Pc} {ph' : Phase Op Res}
    (h : Related maxsize s a ph hand l la) (hm : maxsize < 18446744073709551616)
    (hpc : s.pc i = pc) (hph : ph i = ph') (hk : Matches s.cache l a la pc ph')
    (hadv : advance s.cache pc = some (c', pc')) : Follows maxsize a ph (s.goto i c' pc') := by
  cases hk with
  | getFirst => exact h.run_getFirst hpc hph hadv
  | getLoop hl hu => exact h.run_getLoop hpc hph hl hu hadv
  | getCopy hn hu => exact h.run_getCopy hpc hph hn hu hadv
  | getPatience hn hu hb hs => exact h.run_getPatience hpc hph hn hu hb hs hadv
  | getUnlock => exact h.run_getUnlock hpc hph hadv
  | putFirst hi => exact h.run_putFirst hpc hph hi hadv
  | putWalk hi hl hs => exact h.run_putWalk hm hpc hph hi hl hs hadv
  | putWhile hi hn hd => exact h.run_putWhile hpc hph hi hn hd hadv
  | putDrain hi hn hl hd => exact h.run_putDrain hm hpc hph hi hn hl hd hadv
  | putDrained hi hn hd => exact h.run_putDrained hpc hph hi hn hd hadv
  | putInsert hi hn hd hle => exact h.run_putInsert hm hpc hph hi hn hd hle hadv
  | putUnlock => exact h.run_putUnlock hpc hph hadv
  | putDestroy => exact h.run_putDestroy hpc hph hadv
  | idle | getRdlock | putCreate | putWrlock | ret => cases hadv

/-- A new entry is in the hand of its thread alone. -/
theorem Related.create {host loc buf : Str} {p : Ptr} (h : Related maxsize s a ph hand l la)
    (hpc : s.pc i = .putCreate host loc buf) (hph : ph i = .called (.put host loc buf))
    (hp : s.cache.live p = false) :
    Related maxsize
      (s.goto i (entryCreate s.cache p host loc buf) (.putWrlock p buf.length)) a ph
      (p :: hand) l la := by
  have hf := h.listed.fresh hp
  rw [List.mem_cons, List.mem_append, not_or, not_or] at hf
  have hne : ∀ q, q ∈ hand ∨ q ∈ l →
      itemOf (entryCreate s.cache p host loc buf) q = itemOf s.cache q := by
    intro q hq
    refine itemOf_entryCreate_ne _ _ _ _ ?_
    intro hqp
    cases hq with
    | inl hq => exact hf.2.1 (hqp ▸ hq)
    | inr hq => exact hf.2.2 (hqp ▸ hq)
  have hrel : Related maxsize
      (s.goto i (entryCreate s.cache p host loc buf) (.putWrlock p buf.length)) a
      (Function.update ph i (ph i)) (p :: hand) l la := by
    refine h.step (h.listed.create hp host loc buf) h.atomic ?_ ?_ (fun hw => by cases hw)
      (fun hr => by cases hr) (h.allowed i) ?_ ?_ ?_
    · intro q
      rw [List.mem_cons, h.owned_same (congrArg Pc.hand hpc.symm)]
      constructor
      · intro hq
        cases hq with
        | inl hq => exact .inl (congrArg some hq.symm)
        | inr hq =>
            cases hq with
            | inl hq => cases hq
            | inr hq => exact .inr hq
      · intro hq
        cases hq with
        | inl hq => exact .inl (Option.some.inj hq).symm
        | inr hq => exact .inr (.inr hq)
    · intro j q hj hjq hq
      exact hf.2.1 (Option.some.inj hq ▸ (h.owned q).mpr ⟨j, hjq⟩)
    · intro _ hm
      have hv : View s.cache l a la := by
        refine h.view ?_
        intro j
        by_cases hj : j = i
        · rw [hj, hpc]
          rfl
        · exact hm j hj
      refine View.of_items ?_ hv.free
      rw [List.map_congr_left fun q hq => hne q (.inr hq), ← hv.items, hv.list]
    · rw [hph]
      exact .putWrlock (itemOf_entryCreate_self s.cache p host loc buf)
    · intro j _
      exact (h.matched j).frame rfl (fun q hq => hne q (.inr hq))
        fun q hq => hne q (.inl ((h.owned q).mpr ⟨j, hq⟩))
  rw [Function.update_eq_self] at hrel
  exact hrel

end

/-- The cache of the threads, and the atomic one. -/
def Linearized (maxsize : Nat) (s : Threads ι) (x : Cache × (ι → Phase Op Res)) : Prop :=
  ∃ hand l la, Related maxsize s x.1 x.2 hand l la

/-- Whatever a step shows, the atomic cache can show. -/
theorem simulates {maxsize : Nat} (hm : maxsize < 18446744073709551616) :
    Simulates (@Linearized ι maxsize) (Step maxsize) (AtomicStep (fits maxsize) CacheAct) := by
  intro s x b t hR hstep
  obtain ⟨hand, l, la, h⟩ := hR
  obtain ⟨i, hi⟩ := hstep
  obtain ⟨a, ph⟩ := x
  have hk : Matches s.cache l a la (s.pc i) (ph i) := h.matched i
  cases hi with
  | call hpc hop =>
      rename_i op
      rw [hpc] at hk
      have hout : (enter op).hand = none ∧ (enter op).holding = false := by
        cases op <;> exact ⟨rfl, rfl⟩
      refine ⟨_, .seen (.call hk.idle_eq hop) .done, hand, l, la, ?_⟩
      refine h.apart hpc hout.1 hout.2 rfl ?_ (.enter op)
      intro op' he
      cases he
      exact hop
  | create hpc hp =>
      rw [hpc] at hk
      exact ⟨_, .done, _, l, la, h.create hpc hk.putCreate_eq hp⟩
  | rdlock hpc hfree =>
      rw [hpc] at hk
      exact ⟨_, .done, hand, l, la, h.goes_on hpc rfl (fun hw => by cases hw)
        (fun _ j _ => hfree j) id hk.rdlock⟩
  | wrlock hpc hfree =>
      rw [hpc] at hk
      exact ⟨_, .done, hand, l, la, h.goes_on hpc rfl (fun _ j _ => hfree j)
        (fun _ j _ => Pc.writing_of_holding (hfree j)) id hk.wrlock⟩
  | run hadv =>
      obtain ⟨x, htr, hR⟩ := h.run hm rfl rfl hk hadv
      exact ⟨x, htr, hR⟩
  | ret hpc =>
      rw [hpc] at hk
      refine ⟨_, .seen (.ret hk.ret_eq) .done, hand, l, la, ?_⟩
      refine h.apart hpc rfl rfl rfl ?_ .idle
      intro op he
      cases he

theorem Linearized.init (ι : Type) (maxsize : Nat) :
    Linearized maxsize (Threads.init ι maxsize) (cacheInit maxsize, fun _ => .idle) :=
  ⟨[], [], [], Related.init ι maxsize⟩

/-- The cache is linearizable: of any number of threads and in any order of their
steps, the calls and what they return are ones of the cache on which every call is one
step, in a state that calls made one after another reach. -/
theorem cache_linearizable {maxsize : Nat} (hm : maxsize < 18446744073709551616)
    {tr : List (CallEvent ι Op Res)} (h : Shows (Step maxsize) (Threads.init ι maxsize) tr) :
    ∃ a ph, Trace (AtomicStep (fits maxsize) CacheAct) (cacheInit maxsize, fun _ => .idle) tr
      (a, ph) ∧ Reach maxsize a := by
  obtain ⟨s, hs⟩ := h
  obtain ⟨x, htr, -⟩ := (simulates hm).trace (Linearized.init ι maxsize) hs
  have hkeep := htr.keeps (I := fun x => Reach maxsize x.1 ∧
      ∀ i op, x.2 i = .called op → fits maxsize op)
    (fun _ _ _ hI hs => AtomicStep.keeps (fun _ _ _ _ hc hf ha => CacheAct.reach hc hf ha) hI hs)
    ⟨.init, fun i op he => by cases he⟩
  exact ⟨x.1, x.2, htr, hkeep.1⟩

/-- A get is called before a put of the same name has begun, and takes what it puts. -/
theorem cache_linearizable_two :
    ∃ a ph, Trace (AtomicStep (fits 10) CacheAct) (cacheInit 10, fun _ => .idle)
      [.call true (.get [97] [98] [] 0), .call false (.put [97] [98] [1, 2, 3]),
        .ret true (.got true [1, 2, 3] 3), .ret false .put] (a, ph) ∧ Reach 10 a := by
  have h : Shows (Step 10) (Threads.init Bool 10)
      [.call true (.get [97] [98] [] 0), .call false (.put [97] [98] [1, 2, 3]),
        .ret true (.got true [1, 2, 3] 3), .ret false .put] := by
    refine .seen ⟨true, .call rfl trivial⟩ ?_
    refine .seen ⟨false, .call rfl (show 3 ≤ 10 by decide)⟩ ?_
    refine .silent ⟨false, .create (p := 1) rfl rfl⟩ (.silent ⟨false, .wrlock rfl (by decide)⟩ ?_)
    refine .silent ⟨false, .run rfl⟩ (.silent ⟨false, .run rfl⟩ (.silent ⟨false, .run rfl⟩ ?_))
    refine .silent ⟨false, .run rfl⟩ (.silent ⟨false, .run rfl⟩ ?_)
    refine .silent ⟨true, .rdlock rfl (by decide)⟩ ?_
    refine .silent ⟨true, .run rfl⟩ (.silent ⟨true, .run rfl⟩ (.silent ⟨true, .run rfl⟩ ?_))
    refine .silent ⟨true, .run rfl⟩ (.silent ⟨true, .run rfl⟩ ?_)
    exact .seen ⟨true, .ret rfl⟩ (.seen ⟨false, .ret rfl⟩ .done)
  exact cache_linearizable (by decide) h

end Csapp.ProxyCache
