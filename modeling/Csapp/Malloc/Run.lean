import Mathlib
import Csapp.Malloc.Init

/-!
# Runs of the allocator

A run starts with a successful `mm_init` and goes on with any calls of
`mm_malloc`, `mm_free` and `mm_realloc`; between calls the user may write into
the blocks it holds. The state is the heap together with the pointers the user
holds and the size it last asked for at each. A realloc that fails ends the
run: what it leaves behind is the subject of another file.
-/

namespace Csapp.Malloc

/-- The heap and the live pointers with their requested sizes. -/
structure State where
  heap : Heap
  live : List (Nat × Nat)

/-- What the user holds after `mm_malloc(size)` has returned `p`. -/
def withNew (live : List (Nat × Nat)) (p size : Nat) : List (Nat × Nat) :=
  if p = 0 then live else (p, size) :: live

/-- The largest request that `ALLOC_SIZE` and the rounding in `extend_heap` map
without wrapping, whatever the heap; far above `2 ^ 31`. -/
def maxRequest : Nat := 4294963192

/-- One call, or a write of the user to a live payload. -/
inductive Step : State → State → Prop
  | malloc {h h' live size p} : size ≤ maxRequest → mmMalloc h size = some (h', p) →
      Step ⟨h, live⟩ ⟨h', withNew live p size⟩
  | freeNull {h h' live} : mmFree h 0 = some h' → Step ⟨h, live⟩ ⟨h', live⟩
  | free {h h' live p n} : (p, n) ∈ live → mmFree h p = some h' →
      Step ⟨h, live⟩ ⟨h', live.erase (p, n)⟩
  | reallocNull {h h' live size p} : size ≤ maxRequest →
      mmRealloc h 0 size = some (h', p) → Step ⟨h, live⟩ ⟨h', withNew live p size⟩
  | reallocFree {h h' live p n q} : (p, n) ∈ live → mmRealloc h p 0 = some (h', q) →
      Step ⟨h, live⟩ ⟨h', live.erase (p, n)⟩
  | realloc {h h' live p n size q} : (p, n) ∈ live → size ≠ 0 → size ≤ maxRequest →
      mmRealloc h p size = some (h', q) → q ≠ 0 →
      Step ⟨h, live⟩ ⟨h', (q, size) :: live.erase (p, n)⟩
  | write {h : Heap} {live p n m'} : (p, n) ∈ live →
      (∀ z, z < p ∨ p + n ≤ z → m' z = h.mem z) →
      Step ⟨h, live⟩ ⟨{ h with mem := m' }, live⟩

/-- The states of the runs from a successful `mm_init`. -/
inductive Reachable : State → Prop
  | init {h h'} : Fresh h → mmInit h = some (h', 0) → Reachable ⟨h', []⟩
  | step {s s'} : Reachable s → Step s s' → Reachable s'

/-! ## Who holds which block -/

/-- The user's blocks: allocated, and not the prologue. -/
def Owned (bs : List Blk) (beginHeap : Nat) (c : Blk) : Prop :=
  c ∈ bs ∧ c.alloc = true ∧ c ≠ prologue beginHeap

/-- The live pointers are the addresses of the owned blocks, and every block
has room for what was asked. -/
structure Tracks (A : Blk → Prop) (live : List (Nat × Nat)) : Prop where
  nodup : (live.map Prod.fst).Nodup
  block : ∀ p n, (p, n) ∈ live → ∃ c, A c ∧ c.addr = p ∧ n + 8 ≤ c.size
  held : ∀ c, A c → ∃ n, (c.addr, n) ∈ live

theorem Tracks.congr {A A' : Blk → Prop} {live : List (Nat × Nat)} (h : Tracks A live)
    (hA : ∀ c, A' c ↔ A c) : Tracks A' live where
  nodup := h.nodup
  block p n hm := by
    obtain ⟨c, hc, hrest⟩ := h.block p n hm
    exact ⟨c, (hA c).mpr hc, hrest⟩
  held c hc := h.held c ((hA c).mp hc)

theorem Tracks.add {A : Blk → Prop} {live : List (Nat × Nat)} (h : Tracks A live)
    {c : Blk} {n : Nat} (hnew : ∀ d, A d → d.addr ≠ c.addr) (hn : n + 8 ≤ c.size) :
    Tracks (fun d => A d ∨ d = c) ((c.addr, n) :: live) where
  nodup := by
    rw [List.map_cons]
    refine List.nodup_cons.mpr ⟨fun hm => ?_, h.nodup⟩
    obtain ⟨⟨p, k⟩, hpk, hp⟩ := List.mem_map.mp hm
    obtain ⟨d, hd, hda, -⟩ := h.block p k hpk
    exact hnew d hd (hda.trans hp)
  block p k hm := by
    rcases List.mem_cons.mp hm with he | hm
    · obtain ⟨rfl, rfl⟩ := Prod.mk.inj he
      exact ⟨c, Or.inr rfl, rfl, hn⟩
    · obtain ⟨d, hd, hrest⟩ := h.block p k hm
      exact ⟨d, Or.inl hd, hrest⟩
  held d hd := by
    rcases hd with hd | rfl
    · obtain ⟨k, hk⟩ := h.held d hd
      exact ⟨k, List.mem_cons_of_mem _ hk⟩
    · exact ⟨n, List.mem_cons_self⟩

theorem Tracks.remove {A : Blk → Prop} {live : List (Nat × Nat)} (h : Tracks A live)
    (hinj : ∀ c d, A c → A d → c.addr = d.addr → c = d) {c : Blk} {n : Nat} (hc : A c)
    (hm : (c.addr, n) ∈ live) :
    Tracks (fun d => A d ∧ d ≠ c) (live.erase (c.addr, n)) where
  nodup := h.nodup.sublist (List.erase_sublist.map _)
  block p k hk := by
    have hnd : live.Nodup := List.Nodup.of_map _ h.nodup
    obtain ⟨hne, hk'⟩ := hnd.mem_erase_iff.mp hk
    obtain ⟨d, hd, hda, hdn⟩ := h.block p k hk'
    refine ⟨d, ⟨hd, ?_⟩, hda, hdn⟩
    rintro rfl
    obtain rfl : d.addr = p := hda
    exact hne (List.inj_on_of_nodup_map h.nodup hk' hm rfl)
  held d hd := by
    obtain ⟨k, hk⟩ := h.held d hd.1
    refine ⟨k, (List.mem_erase_of_ne fun he => ?_).mpr hk⟩
    exact hd.2 (hinj d c hd.1 hc (Prod.mk.inj he).1)

/-! ## The invariant -/

/-- What holds of every state of a run. -/
structure RunInv (h : Heap) (live : List (Nat × Nat)) (bs : List Blk)
    (fl : Nat → List Nat) : Prop where
  rest : Rest h bs fl
  noAdj : NoAdj Blk.alloc bs
  tracks : Tracks (Owned bs h.beginHeap) live
  chunks : h.brk % 4096 = h.beginHeap % 4096

section

variable {h : Heap} {bs : List Blk} {fl : Nat → List Nat} {live : List (Nat × Nat)}

theorem allocSize_le {n : Nat} (hn : n ≤ maxRequest) : allocSize n ≤ 4294963200 := by
  unfold maxRequest at hn
  rw [allocSize_eq (by omega)]
  omega

theorem Rest.owned_inj (o : Rest h bs fl) (c d : Blk) (hc : Owned bs h.beginHeap c)
    (hd : Owned bs h.beginHeap d) (he : c.addr = d.addr) : c = d :=
  o.addr_inj (List.mem_append_left _ hc.1) (List.mem_append_left _ hd.1) he

theorem ne_prologue {c : Blk} {b : Nat} (hc : b + 80 ≤ c.addr) : c ≠ prologue b :=
  fun he => by
    have : c.addr = b := congrArg Blk.addr he
    omega

/-- `mm_malloc(size)` need not pass the end of the address space. -/
def MallocInRange (h : Heap) (size : Nat) : Prop := size ≠ 0 → AllocInRange h (allocSize size)

/-- `mm_realloc(ptr, size)`, of a live `ptr`, need not either: the run that `ptr` is
merged into is large enough, or there is a block for it in range. -/
def ReallocInRange (h : Heap) (ptr size : Nat) : Prop :=
  let r := coalesceWillFree h.mem ptr
  size ≠ 0 → get r.1 (hdrp r.2) < allocSize size →
    AllocInRange (marked h r.1 r.2) (allocSize size)

theorem RunInv.mallocInRange {size : Nat} {x : Heap × Nat} (hi : RunInv h live bs fl)
    (hm : mmMalloc h size = some x) : MallocInRange h size := fun h0 => by
  rw [mmMalloc_eq h0] at hm
  exact hi.rest.allocInRange hm

/-- On a heap in the lower half of the address space every call is in range. -/
theorem RunInv.inRange_of_le (hi : RunInv h live bs fl) (hm : h.maxAddr ≤ 2147483648)
    (p n : Nat) : MallocInRange h n ∧ ReallocInRange h p n := by
  -- neither marking nor merging moves the break, so the bound is the one of `h` itself
  have hbrk := hi.rest.vars.brkMax
  exact ⟨fun _ => hi.rest.allocInRange_of_le hm _, fun _ _ _ hsize => by
    show h.brk + _ < _
    omega⟩

/-- `mm_malloc` answers `NULL`, or carves out a block. -/
theorem RunInv.malloc_cases {size : Nat} (hi : RunInv h live bs fl) (hs : size ≤ maxRequest)
    (hr : MallocInRange h size) :
    mmMalloc h size = some (h, 0) ∨ ∃ h' p bs' fl' s, mmMalloc h size = some (h', p) ∧
      Allocated h h' bs (allocSize size) p bs' fl' s := by
  have hle := allocSize_le hs
  unfold maxRequest at hs
  by_cases h0 : size = 0
  · left
    unfold mmMalloc
    rw [if_pos h0]
  · have hb := allocSize_bounds (show size ≤ 4294967280 by omega)
    rw [mmMalloc_eq h0]
    cases allocateBlock_spec hi.rest hb.2.2.2.2 hb.1 hb.2.2.2.1 (by omega) (hr h0) with
    | inl hal => exact .inl hal.1
    | inr hal =>
      obtain ⟨h', p, bs', fl', s, hal, hA, -⟩ := hal
      exact .inr ⟨h', p, bs', fl', s, hal, hA⟩

/-- The step of `mm_malloc`. -/
theorem RunInv.malloc {size : Nat} (hi : RunInv h live bs fl) (hs : size ≤ maxRequest)
    (hr : MallocInRange h size) :
    ∃ h' p, mmMalloc h size = some (h', p) ∧
      ∃ bs' fl', RunInv h' (withNew live p size) bs' fl' := by
  rcases hi.malloc_cases hs hr with hm | ⟨h', p, bs', fl', s, hm, hA⟩
  · refine ⟨h, 0, hm, bs, fl, ?_⟩
    unfold withNew
    rw [if_pos rfl]
    exact hi
  · unfold maxRequest at hs
    have hb := allocSize_bounds (show size ≤ 4294967280 by omega)
    refine ⟨h', p, hm, bs', fl', hA.inv, ?_, ?_, ?_⟩
    · exact hA.carve.noAdj rfl (fun _ hc => hc) hi.noAdj
    · have hge := hA.ge
      have hroom := hA.room
      unfold withNew
      rw [if_neg (by omega)]
      have hpn : (⟨p, s, true⟩ : Blk) ≠ prologue h.beginHeap := ne_prologue hge
      refine (hi.tracks.add (c := ⟨p, s, true⟩) (fun d hd he => ?_)
        (by show size + 8 ≤ s; omega)).congr fun c => ?_
      · refine hA.fresh hd.1 hd.2.1 (hA.inv.addr_inj ?_ ?_ he)
        · exact List.mem_append_left _ ((hA.carve.mem_iff hd.2.1).mpr (Or.inl hd.1))
        · exact List.mem_append_left _ hA.carve.alloc.2
      · unfold Owned
        show c ∈ bs' ∧ _ ∧ c ≠ prologue h'.beginHeap ↔
          (c ∈ bs ∧ _ ∧ c ≠ prologue h.beginHeap) ∨ _
        rw [hA.beginEq]
        constructor
        · rintro ⟨h1, h2, h3⟩
          rcases (hA.carve.mem_iff h2).mp h1 with h1 | h1
          · exact Or.inl ⟨h1, h2, h3⟩
          · exact Or.inr h1
        · rintro (⟨h1, h2, h3⟩ | rfl)
          · exact ⟨(hA.carve.mem_iff h2).mpr (Or.inl h1), h2, h3⟩
          · exact ⟨hA.carve.alloc.2, rfl, hpn⟩
    · rw [hA.brkMod, hA.beginEq]
      exact hi.chunks

/-- A live pointer is the address of a block in the row. -/
theorem RunInv.liveBlk (hi : RunInv h live bs fl) {p n : Nat} (hp : (p, n) ∈ live) :
    ∃ l c r, bs = l ++ c :: r ∧ c.addr = p ∧ c.alloc = true ∧
      c ≠ prologue h.beginHeap ∧ n + 8 ≤ c.size := by
  obtain ⟨c, ⟨hm, ha, hne⟩, hcp, hn⟩ := hi.tracks.block p n hp
  obtain ⟨l, r, hbs⟩ := List.append_of_mem hm
  exact ⟨l, c, r, hbs, hcp, ha, hne, hn⟩

theorem RunInv.live_pos (hi : RunInv h live bs fl) {p n : Nat} (hp : (p, n) ∈ live) :
    p ≠ 0 := by
  obtain ⟨l, c, r, rfl, rfl, -, -, -⟩ := hi.liveBlk hp
  have h8 := hi.rest.vars.begin8
  have := (hi.rest.mem (b := c) (by simp)).1
  omega

/-- What is left of the user's blocks when `b` has been merged into a free one. -/
theorem Tracks.free {l r l' r' : List Blk} {b x : Blk} {a a' e e' n : Nat}
    (o : Rest h (l ++ b :: r) fl)
    (ht : Tracks (Owned (l ++ b :: r) h.beginHeap) live) (hb : b ≠ prologue h.beginHeap)
    (ha : b.alloc = true) (hm : (b.addr, n) ∈ live) (hl : TrimLeft l a l' a')
    (hr : TrimRight r e r' e') (hx : x.alloc = false) :
    Tracks (Owned (l' ++ x :: r') h.beginHeap) (live.erase (b.addr, n)) := by
  refine (ht.remove o.owned_inj ⟨by simp, ha, hb⟩ hm).congr fun c => ?_
  unfold Owned
  constructor
  · rintro ⟨h1, h2, h3⟩
    have hcx : c ≠ x := fun he => Bool.noConfusion ((he ▸ h2).symm.trans hx)
    have hc := (o.merge_iff hb hl hr h2).mp ((mem_middle.mp h1).resolve_right hcx)
    exact ⟨⟨hc.1, h2, h3⟩, hc.2⟩
  · rintro ⟨⟨h1, h2, h3⟩, h4⟩
    exact ⟨mem_middle.mpr (Or.inl ((o.merge_iff hb hl hr h2).mpr ⟨h1, h4⟩)), h2, h3⟩

/-- The step of `mm_free`. -/
theorem RunInv.free {p n : Nat} (hi : RunInv h live bs fl) (hp : (p, n) ∈ live) :
    ∃ h', mmFreeNonnull h p = some h' ∧
      ∃ bs' fl', RunInv h' (live.erase (p, n)) bs' fl' := by
  obtain ⟨l, b, r, rfl, rfl, ha, hb, -⟩ := hi.liveBlk hp
  obtain ⟨m', l', a', r', e', fl', heq, o', hl, hr, -⟩ := mmFreeNonnull_spec hi.rest ha hb
  have ht : Tracks (Owned (l' ++ ⟨a', e' - a', false⟩ :: r') h.beginHeap)
      (live.erase (b.addr, n)) := Tracks.free hi.rest hi.tracks hb ha hp hl hr rfl
  exact ⟨_, heq, _, fl', o', hi.noAdj.merge hl hr (fun _ _ => rfl) _, ht, hi.chunks⟩

/-- The step of a realloc that gives a new block. -/
theorem RunInv.reallocated {h' : Heap} {l r bs' : List Blk} {b : Blk} {n k q s : Nat}
    {fl' : Nat → List Nat} (hi : RunInv h live (l ++ b :: r) fl)
    (ha : b.alloc = true) (hb : b ≠ prologue h.beginHeap) (hp : (b.addr, n) ∈ live)
    (hk : k ≤ 4294967280)
    (hR : Reallocated h h' l b r (allocSize k) q bs' fl' s) :
    RunInv h' ((q, k) :: live.erase (b.addr, n)) bs' fl' := by
  have hroom := hR.room
  have hbnd := allocSize_bounds hk
  have hQ : (⟨q, s, true⟩ : Blk) ∈ bs' := (hR.allocIff _ rfl).mpr (Or.inr rfl)
  have hrem := hi.tracks.remove hi.rest.owned_inj ⟨by simp, ha, hb⟩ hp
  have hadd := hrem.add (c := ⟨q, s, true⟩) (n := k) (fun d hd he => by
    have hd' : d ∈ bs' := (hR.allocIff d hd.1.2.1).mpr (Or.inl ⟨hd.1.1, hd.2⟩)
    exact hR.fresh d hd.1.1 hd.1.2.1 hd.2 (hR.inv.addr_inj
      (List.mem_append_left _ hd') (List.mem_append_left _ hQ) he))
    (by show k + 8 ≤ s; omega)
  refine ⟨hR.inv, hR.noAdj, hadd.congr fun c => ?_, by rw [hR.brkMod, hR.beginEq, hi.chunks]⟩
  unfold Owned
  rw [hR.beginEq]
  constructor
  · rintro ⟨h1, h2, h3⟩
    exact ((hR.allocIff c h2).mp h1).imp_left fun hc => ⟨⟨hc.1, h2, h3⟩, hc.2⟩
  · rintro (⟨⟨h1, h2, h3⟩, h4⟩ | rfl)
    · exact ⟨(hR.allocIff c h2).mpr (Or.inl ⟨h1, h4⟩), h2, h3⟩
    · exact ⟨hQ, rfl, ne_prologue hR.ge⟩

theorem RunInv.reallocInRange {p n size : Nat} {x : Heap × Nat} (hi : RunInv h live bs fl)
    (hp : (p, n) ∈ live) (hm : mmRealloc h p size = some x) : ReallocInRange h p size := by
  intro h0 hlt
  obtain ⟨l, b, r, rfl, rfl, ha, hb, -⟩ := hi.liveBlk hp
  obtain ⟨m, l', a', e', r', fl', hM⟩ := hi.rest.merged ha hb
  rw [hM.eq] at hlt ⊢
  rw [hM.hdr] at hlt
  exact hM.allocInRange (hi.live_pos hp) h0 hm (Nat.not_le.mpr hlt)

/-- `mm_realloc` on a live pointer answers `NULL`, or gives a new block for the old. -/
theorem RunInv.realloc_cases {p n size : Nat} (hi : RunInv h live bs fl)
    (hp : (p, n) ∈ live) (h0 : size ≠ 0) (hs : size ≤ maxRequest)
    (hr : ReallocInRange h p size) :
    (∃ h', mmRealloc h p size = some (h', 0)) ∨
      ∃ l b r h' q bs' fl' s, bs = l ++ b :: r ∧ b.addr = p ∧ b.alloc = true ∧
        b ≠ prologue h.beginHeap ∧ n + 8 ≤ b.size ∧ mmRealloc h p size = some (h', q) ∧
        Reallocated h h' l b r (allocSize size) q bs' fl' s := by
  have hle := allocSize_le hs
  unfold maxRequest at hs
  obtain ⟨l, b, r, rfl, rfl, ha, hb, hn⟩ := hi.liveBlk hp
  obtain ⟨m, l', a', e', r', fl', hM⟩ := hi.rest.merged ha hb
  have hbnd := allocSize_bounds (show size ≤ 4294967280 by omega)
  have hr' : ¬ allocSize size ≤ e' - a' → AllocInRange (marked h m a') (allocSize size) := by
    intro hfit
    have hx := hr h0
    rw [hM.eq, hM.hdr] at hx
    exact hx (Nat.lt_of_not_le hfit)
  rcases mmRealloc_spec hi.rest hb hi.noAdj hM h0 (by omega) (by omega) hr' with
    ⟨hfit, hal⟩ | ⟨h', q, bs', fl₃, s, heq, hR⟩
  · obtain ⟨m', hm'⟩ : ∃ m', uncoalesceWasResvd (marked h m a').mem
        (marked h m a').beginHeap a' b.addr (Malloc.size h.mem (hdrp b.addr)) = some m' :=
      uncoalesceWasResvd_isSome (hi.rest.mem (b := b) (by simp)).2.2.2.2.1
    exact Or.inl ⟨_, mmRealloc_fail (hi.live_pos hp) h0 hM.eq (by rwa [hM.hdr]) hal hm'⟩
  · exact Or.inr ⟨l, b, r, h', q, bs', fl₃, s, rfl, rfl, ha, hb, hn, heq, hR⟩

/-- The step of `mm_realloc` on a live pointer: it returns, and if not `NULL`,
a heap in order. -/
theorem RunInv.realloc {p n size : Nat} (hi : RunInv h live bs fl)
    (hp : (p, n) ∈ live) (h0 : size ≠ 0) (hs : size ≤ maxRequest)
    (hr : ReallocInRange h p size) :
    ∃ h' q, mmRealloc h p size = some (h', q) ∧
      (q ≠ 0 → ∃ bs' fl', RunInv h' ((q, size) :: live.erase (p, n)) bs' fl') := by
  rcases hi.realloc_cases hp h0 hs hr with
    ⟨h', heq⟩ | ⟨l, b, r, h', q, bs', fl', s, rfl, rfl, ha, hb, -, heq, hR⟩
  · exact ⟨h', 0, heq, fun hq => absurd rfl hq⟩
  · unfold maxRequest at hs
    exact ⟨h', q, heq, fun _ => ⟨bs', fl', hi.reallocated ha hb hp (by omega) hR⟩⟩

/-- A user write inside a live block. -/
theorem RunInv.write {p n : Nat} {m' : Mem} (hi : RunInv h live bs fl)
    (hp : (p, n) ∈ live) (hm : ∀ z, z < p ∨ p + n ≤ z → m' z = h.mem z) :
    RunInv { h with mem := m' } live bs fl := by
  obtain ⟨c, ⟨hc, hca, hcp⟩, rfl, hn⟩ := hi.tracks.block p n hp
  refine ⟨hi.rest.userWrite fun z hz => hm z ?_, hi.noAdj, hi.tracks, hi.chunks⟩
  by_contra hin
  exact hz ⟨c, hc, hca, hcp, by omega, by omega⟩

theorem RunInv.init {h h' : Heap} (hf : Fresh h) (hm : mmInit h = some (h', 0)) :
    ∃ bs fl, RunInv h' [] bs fl := by
  obtain ⟨h'', fl, heq, o, hb, -, -, hk⟩ := mmInit_spec hf (mmInit_room hf hm)
  rw [heq] at hm
  obtain rfl : h'' = h' := (Prod.mk.inj (Option.some.inj hm)).1
  refine ⟨_, fl, o, ?_, ⟨List.nodup_nil, fun p n hp => absurd hp List.not_mem_nil,
    fun c hc => ?_⟩, by omega⟩
  · exact List.isChain_cons_cons.mpr ⟨Or.inl rfl, List.isChain_singleton _⟩
  · obtain ⟨h1, h2, h3⟩ := hc
    rw [hb] at h3
    rcases List.mem_cons.mp h1 with h1 | h1
    · exact absurd h1 h3
    · rw [List.mem_singleton.mp h1] at h2
      exact Bool.noConfusion h2

theorem RunInv.step {s s' : State} {bs : List Blk} {fl : Nat → List Nat}
    (hi : RunInv s.heap s.live bs fl) (hs : Step s s') :
    ∃ bs' fl', RunInv s'.heap s'.live bs' fl' := by
  cases hs with
  | malloc hsz hm =>
      obtain ⟨h', p, heq, bs', fl', hi'⟩ := hi.malloc hsz (hi.mallocInRange hm)
      obtain ⟨rfl, rfl⟩ := Prod.mk.inj (Option.some.inj (heq.symm.trans hm))
      exact ⟨bs', fl', hi'⟩
  | freeNull hm =>
      obtain rfl := Option.some.inj hm
      exact ⟨bs, fl, hi⟩
  | free hp hm =>
      obtain ⟨h', heq, bs', fl', hi'⟩ := hi.free hp
      unfold mmFree at hm
      rw [if_neg (hi.live_pos hp), heq] at hm
      obtain rfl := Option.some.inj hm
      exact ⟨bs', fl', hi'⟩
  | reallocNull hsz hm =>
      unfold mmRealloc at hm
      rw [if_pos rfl] at hm
      obtain ⟨h', p, heq, bs', fl', hi'⟩ := hi.malloc hsz (hi.mallocInRange hm)
      obtain ⟨rfl, rfl⟩ := Prod.mk.inj (Option.some.inj (heq.symm.trans hm))
      exact ⟨bs', fl', hi'⟩
  | reallocFree hp hm =>
      obtain ⟨h', heq, bs', fl', hi'⟩ := hi.free hp
      unfold mmRealloc at hm
      rw [if_neg (hi.live_pos hp), if_pos rfl, heq, Option.bind_eq_bind,
        Option.bind_some] at hm
      obtain rfl := (Prod.mk.inj (Option.some.inj hm)).1
      exact ⟨bs', fl', hi'⟩
  | realloc hp h0 hsz hm hq =>
      obtain ⟨h', q, heq, hi'⟩ := hi.realloc hp h0 hsz (hi.reallocInRange hp hm)
      obtain ⟨rfl, rfl⟩ := Prod.mk.inj (Option.some.inj (heq.symm.trans hm))
      exact hi' hq
  | write hp hm => exact ⟨bs, fl, hi.write hp hm⟩

theorem Reachable.inv {s : State} (hr : Reachable s) :
    ∃ bs fl, RunInv s.heap s.live bs fl := by
  induction hr with
  | init hf hm => exact RunInv.init hf hm
  | step _ hs ih =>
      obtain ⟨bs, fl, hi⟩ := ih
      exact hi.step hs

end

end Csapp.Malloc
