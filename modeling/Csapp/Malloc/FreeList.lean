import Mathlib
import Csapp.Lib.Ring
import Csapp.Malloc.Model

/-!
# The nine free lists

The class lists are rings threaded through the heap: the heads sit in the
prologue, the nodes are the payloads of free blocks. `free_list_insert` and
`free_list_remove` are read here once as what they do to the two link
functions; the ring library turns that into the new lists, and everything away
from the link words of the nodes is untouched.
-/

namespace Csapp.Malloc

/-! ## Reading links back -/

theorem next_lt (m : Mem) (x : Nat) : next m x < 4294967296 := get_lt m x

theorem prev_lt (m : Mem) (x : Nat) : prev m x < 4294967296 := get_lt m (x + 4)

theorem next_setNext {m : Mem} {x v : Nat} (hv : v < 4294967296) :
    next (setNext m x v) x = v := get_put_of_lt hv

theorem next_setNext_ne {m : Mem} {x y v : Nat} (hx : x % 8 = 0) (hy : y % 8 = 0)
    (hne : y ≠ x) : next (setNext m x v) y = next m y :=
  get_put_ne (by omega)

theorem prev_setNext {m : Mem} {x y v : Nat} (hx : x % 8 = 0) (hy : y % 8 = 0) :
    prev (setNext m x v) y = prev m y :=
  get_put_ne (by omega)

theorem next_setPrev {m : Mem} {x y v : Nat} (hx : x % 8 = 0) (hy : y % 8 = 0) :
    next (setPrev m x v) y = next m y :=
  get_put_ne (by omega)

theorem prev_setPrev {m : Mem} {x v : Nat} (hv : v < 4294967296) :
    prev (setPrev m x v) x = v := get_put_of_lt hv

theorem prev_setPrev_ne {m : Mem} {x y v : Nat} (hx : x % 8 = 0) (hy : y % 8 = 0)
    (hne : y ≠ x) : prev (setPrev m x v) y = prev m y :=
  get_put_ne (by omega)

/-! ## The two edits on the link functions -/

section Edits

variable {m : Mem} {h x : Nat}

theorem freeListInsert_next (hh : h % 8 = 0) (hx : x % 8 = 0) (hne : x ≠ h)
    (hf : next m h % 8 = 0) (hlt : x < 4294967296) :
    next (freeListInsert m h x) h = x ∧
      next (freeListInsert m h x) x = next m h ∧
      ∀ y, y % 8 = 0 → y ≠ h → y ≠ x →
        next (freeListInsert m h x) y = next m y := by
  have hf' : next (setPrev (setNext m x (next m h)) x h) h = next m h := by
    rw [next_setPrev hx hh, next_setNext_ne hx hh hne.symm]
  unfold freeListInsert
  simp only []
  rw [hf']
  refine ⟨next_setNext hlt, ?_, fun y hy hyh hyx => ?_⟩
  · rw [next_setNext_ne hh hx hne, next_setPrev hf hx, next_setPrev hx hx,
      next_setNext (next_lt m h)]
  · rw [next_setNext_ne hh hy hyh, next_setPrev hf hy, next_setPrev hx hy,
      next_setNext_ne hx hy hyx]

theorem freeListInsert_prev (hh : h % 8 = 0) (hx : x % 8 = 0) (hne : x ≠ h)
    (hf : next m h % 8 = 0) (hfx : next m h ≠ x) (hlt : x < 4294967296)
    (hhlt : h < 4294967296) :
    prev (freeListInsert m h x) x = h ∧
      prev (freeListInsert m h x) (next m h) = x ∧
      ∀ y, y % 8 = 0 → y ≠ next m h → y ≠ x →
        prev (freeListInsert m h x) y = prev m y := by
  have hf' : next (setPrev (setNext m x (next m h)) x h) h = next m h := by
    rw [next_setPrev hx hh, next_setNext_ne hx hh hne.symm]
  unfold freeListInsert
  simp only []
  rw [hf']
  refine ⟨?_, ?_, fun y hy hyf hyx => ?_⟩
  · rw [prev_setNext hh hx, prev_setPrev_ne hf hx hfx.symm, prev_setPrev hhlt]
  · rw [prev_setNext hh hf, prev_setPrev hlt]
  · rw [prev_setNext hh hy, prev_setPrev_ne hf hy hyf, prev_setPrev_ne hx hy hyx,
      prev_setNext hx hy]

theorem freeListRemove_links (hx : x % 8 = 0) (hn : next m x % 8 = 0)
    (hp : prev m x % 8 = 0) (hnx : next m x ≠ x) :
    next (freeListRemove m x) (prev m x) = next m x ∧
      prev (freeListRemove m x) (next m x) = prev m x ∧
      (∀ y, y % 8 = 0 → y ≠ prev m x → next (freeListRemove m x) y = next m y) ∧
      ∀ y, y % 8 = 0 → y ≠ next m x → prev (freeListRemove m x) y = prev m y := by
  have hp' : prev (setPrev m (next m x) (prev m x)) x = prev m x :=
    prev_setPrev_ne hn hx hnx.symm
  have hn' : next (setPrev m (next m x) (prev m x)) x = next m x :=
    next_setPrev hn hx
  unfold freeListRemove
  simp only []
  rw [hp', hn']
  refine ⟨next_setNext (next_lt m x), ?_, fun y hy hyp => ?_, fun y hy hyn => ?_⟩
  · rw [prev_setNext hp hn, prev_setPrev (prev_lt m x)]
  · rw [next_setNext_ne hp hy hyp, next_setPrev hn hy]
  · rw [prev_setNext hp hy, prev_setPrev_ne hn hy hyn]

end Edits

/-! ## The lists together -/

/-- Agreement away from the link words of the nodes in `N`. -/
def AgreeOffNodes (N : Nat → Prop) (m m' : Mem) : Prop :=
  ∀ a, (∀ x, N x → a < x ∨ x + 8 ≤ a) → m' a = m a

theorem AgreeOffNodes.get {N : Nat → Prop} {m m' : Mem} {p : Nat}
    (h : AgreeOffNodes N m m') (hp : ∀ x, N x → p + 4 ≤ x ∨ x + 8 ≤ p) :
    get m' p = get m p :=
  get_congr fun a _ _ => h a fun x hx => by
    have := hp x hx
    omega

theorem freeListInsert_agree {N : Nat → Prop} {m : Mem} {h x : Nat} (hh : N h)
    (hx : N x) (hf : N (next m h)) (hfe : next (setPrev (setNext m x (next m h)) x h) h
      = next m h) : AgreeOffNodes N m (freeListInsert m h x) := by
  intro a ha
  have h1 := ha _ hh
  have h2 := ha _ hx
  have h3 := ha _ hf
  unfold freeListInsert
  rw [hfe]
  unfold setNext setPrev
  rw [put_of_ne (by omega), put_of_ne (by omega), put_of_ne (by omega),
    put_of_ne (by omega)]

theorem freeListRemove_agree {N : Nat → Prop} {m : Mem} {x : Nat}
    (hn : N (next m x)) (hp : N (prev m x))
    (hpe : prev (setPrev m (next m x) (prev m x)) x = prev m x) :
    AgreeOffNodes N m (freeListRemove m x) := by
  intro a ha
  have h1 := ha _ hn
  have h2 := ha _ hp
  unfold freeListRemove
  rw [hpe]
  unfold setNext setPrev
  rw [put_of_ne (by omega), put_of_ne (by omega)]

/-- The nodes of the class lists: the heads and what hangs off them. -/
def IsNode (b : Nat) (fl : Nat → List Nat) (y : Nat) : Prop :=
  ∃ c, c < 9 ∧ y ∈ (b + 8 * c) :: fl c

/-- The memory holds the class lists `fl`: nine disjoint rings. -/
structure Rings (m : Mem) (b : Nat) (fl : Nat → List Nat) : Prop where
  ring : ∀ c, c < 9 → Ring (next m) (prev m) (b + 8 * c) (fl c)
  nodup : ∀ c, c < 9 → (fl c).Nodup
  disj : ∀ c d, c < 9 → d < 9 → c ≠ d → ∀ x ∈ fl c, x ∉ fl d
  fresh : ∀ c d, c < 9 → d < 9 → b + 8 * d ∉ fl c

theorem Rings.nodup_cons {m : Mem} {b : Nat} {fl : Nat → List Nat} (hr : Rings m b fl)
    {c : Nat} (hc : c < 9) : ((b + 8 * c) :: fl c).Nodup :=
  List.nodup_cons.mpr ⟨hr.fresh c c hc hc, hr.nodup c hc⟩

/-- Two rings have no node in common. -/
theorem Rings.cons_disj {m : Mem} {b : Nat} {fl : Nat → List Nat} (hr : Rings m b fl)
    {c d : Nat} (hc : c < 9) (hd : d < 9) (hcd : c ≠ d) {x : Nat}
    (hx : x ∈ (b + 8 * c) :: fl c) : x ∉ (b + 8 * d) :: fl d := by
  intro hx'
  rcases List.mem_cons.mp hx with rfl | hx
  · rcases List.mem_cons.mp hx' with he | hx'
    · omega
    · exact hr.fresh d c hd hc hx'
  · rcases List.mem_cons.mp hx' with rfl | hx'
    · exact hr.fresh c d hc hd hx
    · exact hr.disj c d hc hd hcd x hx hx'

/-- Nothing but the links is read: another memory with the same links. -/
theorem Rings.congr {m m' : Mem} {b : Nat} {fl : Nat → List Nat} (hr : Rings m b fl)
    (h : ∀ x, IsNode b fl x → next m' x = next m x ∧ prev m' x = prev m x) :
    Rings m' b fl where
  ring c hc := (hr.ring c hc).congr (fun z hz => (h z ⟨c, hc, hz⟩).1)
    fun z hz => (h z ⟨c, hc, hz⟩).2
  nodup := hr.nodup
  disj := hr.disj
  fresh := hr.fresh

/-- A node would have itself for neighbour only if the head were missing from the ring. -/
theorem Rings.next_ne {m : Mem} {b : Nat} {fl : Nat → List Nat} (hr : Rings m b fl)
    {c x : Nat} (hc : c < 9) (hx : x ∈ fl c) : next m x ≠ x := by
  intro he
  obtain ⟨l₁, l₂, hl⟩ := List.append_of_mem hx
  have hring := hr.ring c hc
  have hnd := hr.nodup c hc
  rw [hl] at hring hnd
  obtain ⟨-, hs⟩ := seg_append.mp hring
  cases l₂ with
  | nil => exact hr.fresh c c hc hc (hs.1.symm.trans he ▸ hx)
  | cons y l₂ =>
      obtain rfl : y = x := hs.1.symm.trans he
      have := (List.nodup_append.mp hnd).2.1
      exact (List.nodup_cons.mp this).1 List.mem_cons_self

section Lists

variable {N : Nat → Prop} {m : Mem} {b : Nat} {fl : Nat → List Nat}

theorem Rings.insert (hr : Rings m b fl) (hN : ∀ y, IsNode b fl y → N y)
    (hal : ∀ y, N y → y % 8 = 0 ∧ y < 4294967296) {c x : Nat} (hc : c < 9)
    (hx : N x) (hnew : ¬ IsNode b fl x) :
    Rings (freeListInsert m (b + 8 * c) x) b (Function.update fl c (x :: fl c)) ∧
      AgreeOffNodes N m (freeListInsert m (b + 8 * c) x) := by
  have hhN : N (b + 8 * c) := hN _ ⟨c, hc, List.mem_cons_self⟩
  have hfm := ((hr.ring c hc).next List.mem_cons_self).1
  have hfN : N (next m (b + 8 * c)) := hN _ ⟨c, hc, hfm⟩
  have hne : x ≠ b + 8 * c := fun he => hnew ⟨c, hc, he ▸ List.mem_cons_self⟩
  have hfx : next m (b + 8 * c) ≠ x := fun he => hnew ⟨c, hc, he ▸ hfm⟩
  obtain ⟨hn1, hn2, hn3⟩ := freeListInsert_next (hal _ hhN).1 (hal _ hx).1 hne
    (hal _ hfN).1 (hal _ hx).2
  obtain ⟨hp1, hp2, hp3⟩ := freeListInsert_prev (hal _ hhN).1 (hal _ hx).1 hne
    (hal _ hfN).1 hfx (hal _ hx).2 (hal _ hhN).2
  have hnode : ∀ d, d < 9 → ∀ z ∈ (b + 8 * d) :: fl d, z % 8 = 0 ∧ z ≠ x :=
    fun d hd z hz => ⟨(hal z (hN z ⟨d, hd, hz⟩)).1, fun he => hnew ⟨d, hd, he ▸ hz⟩⟩
  have hout : ∀ d, d < 9 → x ∉ fl d := fun d hd hxd =>
    hnew ⟨d, hd, List.mem_cons_of_mem _ hxd⟩
  refine ⟨⟨fun d hd => ?_, fun d hd => ?_, fun d e hd he hde => ?_, fun d e hd he => ?_⟩, ?_⟩
  · by_cases hdc : d = c
    · subst hdc
      rw [Function.update_self]
      refine (hr.ring d hd).insert (hr.nodup_cons hd) hn1 hn2 hp1 hp2
        (fun z hz => ?_) fun z hz hzf => ?_
      · have hz' := hnode d hd z (List.mem_cons_of_mem _ hz)
        exact hn3 z hz'.1 (fun he => hr.fresh d d hd hd (he ▸ hz)) hz'.2
      · exact hp3 z (hnode d hd z hz).1 hzf (hnode d hd z hz).2
    · rw [Function.update_of_ne hdc]
      refine (hr.ring d hd).congr (fun z hz => ?_) fun z hz => ?_
      · refine hn3 z (hnode d hd z hz).1 (fun he => ?_) (hnode d hd z hz).2
        exact hr.cons_disj hd hc hdc hz (he ▸ List.mem_cons_self)
      · refine hp3 z (hnode d hd z hz).1 (fun he => ?_) (hnode d hd z hz).2
        exact hr.cons_disj hd hc hdc hz (he ▸ hfm)
  · by_cases hdc : d = c
    · subst hdc
      rw [Function.update_self]
      exact List.nodup_cons.mpr ⟨hout d hd, hr.nodup d hd⟩
    · rw [Function.update_of_ne hdc]
      exact hr.nodup d hd
  · intro z hz hz'
    by_cases hdc : d = c <;> by_cases hec : e = c
    · exact hde (hdc.trans hec.symm)
    · rw [hdc, Function.update_self] at hz
      rw [Function.update_of_ne hec] at hz'
      rcases List.mem_cons.mp hz with rfl | hz
      · exact hout e he hz'
      · exact hr.disj c e hc he (Ne.symm hec) z hz hz'
    · rw [Function.update_of_ne hdc] at hz
      rw [hec, Function.update_self] at hz'
      rcases List.mem_cons.mp hz' with rfl | hz'
      · exact hout d hd hz
      · exact hr.disj d c hd hc hdc z hz hz'
    · rw [Function.update_of_ne hdc] at hz
      rw [Function.update_of_ne hec] at hz'
      exact hr.disj d e hd he hde z hz hz'
  · by_cases hdc : d = c
    · subst hdc
      rw [Function.update_self]
      intro hm
      rcases List.mem_cons.mp hm with rfl | hm
      · exact hnew ⟨e, he, List.mem_cons_self⟩
      · exact hr.fresh d e hd he hm
    · rw [Function.update_of_ne hdc]
      exact hr.fresh d e hd he
  · refine freeListInsert_agree hhN hx hfN ?_
    rw [next_setPrev (hal _ hx).1 (hal _ hhN).1,
      next_setNext_ne (hal _ hx).1 (hal _ hhN).1 hne.symm]

theorem Rings.remove (hr : Rings m b fl) (hN : ∀ y, IsNode b fl y → N y)
    (hal : ∀ y, N y → y % 8 = 0 ∧ y < 4294967296) {c x : Nat} (hc : c < 9)
    (hx : x ∈ fl c) :
    Rings (freeListRemove m x) b (Function.update fl c ((fl c).erase x)) ∧
      AgreeOffNodes N m (freeListRemove m x) := by
  have hxm : x ∈ (b + 8 * c) :: fl c := List.mem_cons_of_mem _ hx
  obtain ⟨hnm, hpn⟩ := (hr.ring c hc).next hxm
  obtain ⟨hpm, hnp⟩ := (hr.ring c hc).prev hxm
  have hnode : ∀ d, d < 9 → ∀ z ∈ (b + 8 * d) :: fl d, z % 8 = 0 :=
    fun d hd z hz => (hal z (hN z ⟨d, hd, hz⟩)).1
  obtain ⟨l₁, l₂, hl⟩ := List.append_of_mem hx
  have hnd := hr.nodup_cons hc
  rw [hl] at hnd
  have hxl₁ : x ∉ l₁ := fun hm => by
    have := (List.nodup_append.mp (List.nodup_cons.mp hnd).2).2.2 x hm x
    exact this List.mem_cons_self rfl
  have herase : (fl c).erase x = l₁ ++ l₂ := by
    rw [hl, List.erase_append_right _ hxl₁, List.erase_cons_head]
  have hring := hr.ring c hc
  rw [hl] at hring
  have hsub : ∀ z ∈ (b + 8 * c) :: (l₁ ++ l₂), z ∈ (b + 8 * c) :: fl c := by
    intro z hz
    rw [hl]
    simp only [List.mem_cons, List.mem_append] at hz ⊢
    tauto
  have hnx := hr.next_ne hc hx
  obtain ⟨hn1, hp1, hn2, hp2⟩ := freeListRemove_links (hnode c hc x hxm)
    (hnode c hc _ hnm) (hnode c hc _ hpm) hnx
  refine ⟨⟨fun d hd => ?_, fun d hd => ?_, fun d e hd he hde => ?_, fun d e hd he => ?_⟩, ?_⟩
  · by_cases hdc : d = c
    · subst hdc
      rw [Function.update_self, herase]
      exact hring.remove hnd hn1 hp1
        (fun z hz => hn2 z (hnode d hd z (hsub z hz)))
        fun z hz => hp2 z (hnode d hd z (hsub z hz))
    · rw [Function.update_of_ne hdc]
      refine (hr.ring d hd).congr (fun z hz => ?_) fun z hz => ?_
      · refine hn2 z (hnode d hd z hz) fun he => ?_
        exact hr.cons_disj hd hc hdc hz (he ▸ hpm)
      · refine hp2 z (hnode d hd z hz) fun he => ?_
        exact hr.cons_disj hd hc hdc hz (he ▸ hnm)
  · by_cases hdc : d = c
    · subst hdc
      rw [Function.update_self]
      exact (hr.nodup d hd).erase x
    · rw [Function.update_of_ne hdc]
      exact hr.nodup d hd
  · have hmono : ∀ f z, z ∈ Function.update fl c ((fl c).erase x) f → z ∈ fl f := by
      intro f z hz
      by_cases hfc : f = c
      · rw [hfc, Function.update_self] at hz
        exact hfc ▸ List.mem_of_mem_erase hz
      · rwa [Function.update_of_ne hfc] at hz
    exact fun z hz hz' => hr.disj d e hd he hde z (hmono d z hz) (hmono e z hz')
  · by_cases hdc : d = c
    · subst hdc
      rw [Function.update_self]
      exact fun hm => hr.fresh d e hd he (List.mem_of_mem_erase hm)
    · rw [Function.update_of_ne hdc]
      exact hr.fresh d e hd he
  · exact freeListRemove_agree (hN _ ⟨c, hc, hnm⟩) (hN _ ⟨c, hc, hpm⟩)
      (prev_setPrev_ne (hnode c hc _ hnm) (hnode c hc x hxm) hnx.symm)

end Lists

end Csapp.Malloc
