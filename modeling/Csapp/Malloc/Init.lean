import Mathlib
import Csapp.Malloc.Calls

/-!
# `mm_init`

A successful `mm_init` leaves a heap at rest with two blocks: the prologue, in
which the nine list heads point at themselves, and one free block up to the
epilogue.
-/

namespace Csapp.Malloc

theorem freeListInit_links {m : Mem} {x : Nat} (hx : x < 4294967296) :
    next (freeListInit m x) x = x ∧ prev (freeListInit m x) x = x := by
  have hp : prev (setPrev m x x) x = x := prev_setPrev hx
  unfold freeListInit
  dsimp only
  rw [hp]
  refine ⟨next_setNext hx, ?_⟩
  exact (get_put_ne (by omega)).trans hp

theorem freeListInit_agree (m : Mem) (x : Nat) :
    AgreeOff x (x + 8) m (freeListInit m x) := fun z hz => by
  unfold freeListInit setNext setPrev
  rw [put_of_ne (by omega), put_of_ne (by omega)]

/-- `class_list_init` from class `i` on: every head from there on is an empty
list, and nothing but those heads is written. -/
theorem classListInit_spec {b : Nat} (hb : b + 80 < 4294967296) :
    ∀ {fuel i : Nat} {m : Mem}, i ≤ 9 → 9 < i + fuel →
      (∀ c, i ≤ c → c < 9 →
        next (classListInit b fuel i (16 * 2 ^ i) m) (b + 8 * c) = b + 8 * c ∧
          prev (classListInit b fuel i (16 * 2 ^ i) m) (b + 8 * c) = b + 8 * c) ∧
        AgreeOff (b + 8 * i) (b + 72) m (classListInit b fuel i (16 * 2 ^ i) m) := by
  intro fuel
  induction fuel with
  | zero =>
      intro i m h9 hf
      omega
  | succ fuel ih =>
      intro i m h9 hf
      have hch : chunkSize = 4096 := rfl
      unfold classListInit
      rw [hch]
      rcases Nat.lt_or_ge i 9 with hi | hi
      · have hp : 2 ^ i ≤ 2 ^ 8 := Nat.pow_le_pow_right (by omega) (by omega)
        rw [if_pos (by omega), classHead_eq (by omega), u32_of_lt (by omega),
          show 2 * (16 * 2 ^ i) = 16 * 2 ^ (i + 1) by rw [Nat.pow_succ]; omega]
        obtain ⟨hlinks, hag⟩ := ih (i := i + 1) (m := freeListInit m (b + 8 * i))
          (by omega) (by omega)
        refine ⟨fun c hc hc9 => ?_, fun z hz => ?_⟩
        · rcases Nat.eq_or_lt_of_le hc with rfl | hc
          · obtain ⟨h1, h2⟩ := freeListInit_links (m := m) (x := b + 8 * i) (by omega)
            exact ⟨(hag.get (by omega)).trans h1, (hag.get (by omega)).trans h2⟩
          · exact hlinks c hc hc9
        · rw [hag z (by omega), freeListInit_agree m _ z (by omega)]
      · rw [if_neg (by
          have : 2 ^ 9 ≤ 2 ^ i := Nat.pow_le_pow_right (by omega) hi
          omega)]
        exact ⟨fun c hc hc9 => by omega, AgreeOff.refl _ _ _⟩

theorem prologueSize_eq : prologueSize 32 minAlloc dsize = 80 := by
  decide

/-- A heap on which `mm_init` may be called. -/
structure Fresh (h : Heap) : Prop where
  brk8 : 8 ≤ h.brk
  brkMod : h.brk % 8 = 0
  start : h.startBrk ≤ h.brk
  brkMax : h.brk ≤ h.maxAddr
  maxLt : h.maxAddr < 4294967296

theorem extendSize_init (m : Mem) : extendSize m chunkSize 0 = 4096 := by
  unfold extendSize
  rw [if_neg fun hc => hc.1 rfl]
  rfl

theorem mmInit_refused {h : Heap} (hr : SbrkInRange h 4096) (hlt : h.maxAddr < h.brk + 4096) :
    mmInit h = some (h, -1) := by
  have hx : extendHeap h chunkSize 0 = some (h, 0) := by
    unfold extendHeap
    dsimp only
    rw [extendSize_init, memSbrk_refused hr (Or.inr hlt)]
  unfold mmInit
  rw [hx, Option.bind_eq_bind, Option.bind_some]
  dsimp only
  rw [if_pos rfl]
  rfl

theorem mmInit_undefined {h : Heap} (hf : Fresh h) (hr : ¬ SbrkInRange h 4096) :
    mmInit h = none := by
  obtain ⟨hlow, hsb⟩ := memSbrk_wraps hr hf.brkMax hf.maxLt
  have hx : extendHeap h chunkSize 0 = none := by
    unfold extendHeap
    dsimp only
    rw [extendSize_init, hsb]
    exact if_pos hlow
  unfold mmInit
  rw [hx]
  rfl

/-- `mm_init` succeeds only with room for a chunk. -/
theorem mmInit_room {h h' : Heap} (hf : Fresh h) (hm : mmInit h = some (h', 0)) :
    h.brk + 4096 ≤ h.maxAddr := by
  by_contra hlt
  by_cases hr : SbrkInRange h 4096
  · rw [mmInit_refused hr (by omega)] at hm
    exact absurd (Prod.mk.inj (Option.some.inj hm)).2 (by decide)
  · rw [mmInit_undefined hf hr] at hm
    cases hm

/-- The heap `mm_init` has built when it calls `free_node`. -/
theorem mmInit_open {h : Heap} (hf : Fresh h) (hroom : h.brk + 4096 ≤ h.maxAddr) :
    let m₁ := put h.mem (h.brk + 4092) 5
    let m₂ := classListInit h.brk 32 0 16 (metaPut m₁ h.brk 81)
    Open { h with mem := m₂, brk := h.brk + 4096, beginHeap := h.brk,
                  endHeap := h.brk + 4096 }
      [prologue h.brk] (h.brk + 80) (h.brk + 4096) [] fun _ => [] := by
  intro m₁ m₂
  have h8 := hf.brk8
  have hmod := hf.brkMod
  have hmax := hf.maxLt
  obtain ⟨hlinks, hag⟩ : (∀ c, 0 ≤ c → c < 9 → next m₂ (h.brk + 8 * c) = h.brk + 8 * c ∧
      prev m₂ (h.brk + 8 * c) = h.brk + 8 * c) ∧
      AgreeOff h.brk (h.brk + 72) (metaPut m₁ h.brk 81) m₂ :=
    classListInit_spec (by omega) (by omega : 0 ≤ 9) (by omega : 9 < 0 + 32)
  obtain ⟨ht, hout⟩ := metaPut_spec (m := m₁) (b := prologue h.brk) (v := 81) rfl
    (by show 8 ≤ h.brk; omega) (by show 16 ≤ 80; omega) (by show 80 % 8 = 0; omega)
    (by show h.brk + 80 < _; omega)
  simp only [prologue] at hout
  refine ⟨⟨h8, hmod, hf.start, rfl, hroom, hmax⟩, ⟨[], rfl⟩, ?_, by omega, rfl,
    by omega, ?_, fun c hc => ?_, ⟨fun c hc => ?_, ?_, ?_, ?_⟩, fun c hc x => ?_⟩
  · exact ⟨rfl, by show 16 ≤ 80; omega, by show 80 % 8 = 0; omega, rfl⟩
  · show get m₂ (h.brk + 4096 - 4) = 5
    rw [hag.get (by omega), get_congr fun z h1 h2 => hout z (by omega) (by omega)]
    exact get_put_of_lt (by omega)
  · obtain rfl := List.mem_singleton.mp hc
    obtain ⟨ht1, ht2⟩ := ht
    simp only [prologue] at ht1 ht2
    show get m₂ (h.brk - 4) = _ ∧ get m₂ (h.brk + 80 - 8) = _
    rw [hag.get (by omega), hag.get (by omega)]
    exact ⟨ht1, ht2⟩
  · exact hlinks c (Nat.zero_le c) hc
  · exact fun c _ => List.nodup_nil
  · exact fun c d _ _ _ x hx => absurd hx List.not_mem_nil
  · exact fun c d _ _ => List.not_mem_nil
  · constructor
    · intro hx
      cases hx
    · rintro ⟨b, hb, -, hbf, -⟩
      rw [List.append_nil, List.mem_singleton] at hb
      rw [hb] at hbf
      exact Bool.noConfusion hbf

/-- The first `extend_heap`. -/
theorem extendHeap_init {h : Heap} (hf : Fresh h) (hroom : h.brk + 4096 ≤ h.maxAddr) :
    extendHeap h chunkSize 0 =
      some ({ h with mem := put h.mem (h.brk + 4092) 5, brk := h.brk + 4096,
                     endHeap := h.brk + 4096 }, h.brk) := by
  have h8 := hf.brk8
  have hmax := hf.maxLt
  have hsb := memSbrk_granted (h := h) (n := 4096) (by omega) hroom hmax
  unfold extendHeap
  dsimp only
  rw [extendSize_init, hsb]
  dsimp only
  rw [u32_of_lt (by omega), if_neg (by omega), hdrp_eq (by omega) (by omega),
    if_neg (by omega)]
  rfl

/-- Where `mm_init` puts the prologue and the first block: the break is aligned. -/
theorem prologue_layout {h : Heap} (hf : Fresh h) (hroom : h.brk + 4096 ≤ h.maxAddr) :
    align (u32 (h.brk + 80)) = h.brk + 80 ∧ sub32 (h.brk + 80) 80 = h.brk ∧
      sub32 (h.brk + 4096) (h.brk + 80) = 4016 := by
  have hmod := hf.brkMod
  have hmax := hf.maxLt
  refine ⟨?_, ?_, ?_⟩
  · unfold align sizeMask u32 alignment
    omega
  · rw [sub32_of_le (by omega) (by omega)]
    omega
  · rw [sub32_of_le (by omega) (by omega)]
    omega

theorem mmInit_spec {h : Heap} (hf : Fresh h) (hroom : h.brk + 4096 ≤ h.maxAddr) :
    ∃ h' fl, mmInit h = some (h', 0) ∧
      Rest h' [prologue h.brk, ⟨h.brk + 80, 4016, false⟩] fl ∧
      h'.beginHeap = h.brk ∧ h'.startBrk = h.startBrk ∧ h'.maxAddr = h.maxAddr ∧
      h'.brk = h.brk + 4096 := by
  have h8 := hf.brk8
  have hmod := hf.brkMod
  have hmax := hf.maxLt
  have o := mmInit_open hf hroom
  simp only at o
  obtain ⟨m₂, hm₂⟩ : ∃ m₂, m₂ = classListInit h.brk 32 0 16
      (metaPut (put h.mem (h.brk + 4092) 5) h.brk 81) := ⟨_, rfl⟩
  rw [← hm₂] at o
  obtain ⟨ht, hout⟩ := metaPut_spec (m := m₂) (b := ⟨h.brk + 80, 4016, false⟩)
    (v := 4016) rfl (by show 8 ≤ h.brk + 80; omega) (by show 16 ≤ 4016; omega)
    (by show 4016 % 8 = 0; omega) (by show h.brk + 80 + 4016 < _; omega)
  simp only at hout
  have ow := o.write fun z hz => hout z (by omega) (by omega)
  obtain ⟨m₃, fl, hfn, o', -, -⟩ := freeNode_spec ow (b := ⟨h.brk + 80, 4016, false⟩) rfl
    (by show 16 ≤ 4016; omega) (by show 4016 % 8 = 0; omega)
    (by show h.brk + 80 + 4016 ≤ h.brk + 4096; omega) rfl ht
  simp only at hfn
  refine ⟨_, fl, ?_, o'.rest, rfl, rfl, rfl, rfl⟩
  have hx := extendHeap_init hf hroom
  obtain ⟨hal, hpro, hsz⟩ := prologue_layout hf hroom
  unfold mmInit
  rw [hx, Option.bind_eq_bind, Option.bind_some]
  dsimp only
  rw [if_neg (by omega), prologueSize_eq, hal, hpro, hsz,
    show pack 80 1 = 81 from rfl, show minAlloc = 16 from rfl, ← hm₂, hfn, Option.bind_eq_bind,
    Option.bind_some]
  rfl

end Csapp.Malloc
