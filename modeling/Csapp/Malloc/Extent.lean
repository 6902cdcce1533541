import Mathlib
import Csapp.Malloc.Inside

/-!
# The one word outside of the heap

`mm_init` means the prologue, `prosz` bytes with its header and footer, to be the
first thing in the heap. But `prosz` bytes before the first payload stands the
prologue's payload, not its header: on a break that is aligned already, the
header is written to the word before `mem_heap_lo()`. That word is read again
whenever the first block behind the prologue is freed, by itself or in a
realloc. No other access of any call leaves the heap.
-/

namespace Csapp.Malloc

/-- The word at `p` lies in the heap that starts at `lo`. -/
def inHeap (lo brk p : Nat) : Bool := lo ≤ p ∧ p + 4 ≤ brk

/-- The same, or it is the word before the heap. -/
def inHeapOrBefore (lo brk p : Nat) : Bool := p + 4 = lo ∨ lo ≤ p ∧ p + 4 ≤ brk

theorem inHeap_passes (lo k : Nat) : Passes (inHeap lo k) lo k := by
  intro p h1 h2
  simp [inHeap, h1, h2]

theorem inHeapOrBefore_passes (lo k : Nat) : Passes (inHeapOrBefore lo k) lo k := by
  intro p h1 h2
  simp [inHeapOrBefore, h1, h2]

theorem inHeap_before {lo : Nat} (h : 8 ≤ lo) (k : Nat) : inHeap lo k (lo - 4) = false := by
  simp [inHeap]
  omega

theorem inHeapOrBefore_before {lo : Nat} (h : 8 ≤ lo) (k : Nat) :
    inHeapOrBefore lo k (lo - 4) = true := by
  simp [inHeapOrBefore]
  omega

/-! ## `mm_init` -/

theorem checked_classListInit {W : Nat → Bool} {b : Nat} (hb : b + 80 < 4294967296)
    (hW : Passes W b (b + 80)) :
    ∀ {fuel i : Nat} {m : Mem}, i ≤ 9 →
      Checked.classListInit W b fuel i (16 * 2 ^ i) m =
        some (classListInit b fuel i (16 * 2 ^ i) m) := by
  intro fuel
  induction fuel with
  | zero =>
      intro i m h9
      rfl
  | succ fuel ih =>
      intro i m h9
      have hch : chunkSize = 4096 := rfl
      unfold Checked.classListInit classListInit
      rw [hch]
      by_cases hle : 16 * 2 ^ i ≤ 4096
      · have hi : i < 9 := by
          by_contra hge
          have : 2 ^ 9 ≤ 2 ^ i := Nat.pow_le_pow_right (by omega) (by omega)
          omega
        rw [if_pos hle, if_pos hle, classHead_eq (by omega), u32_of_lt (by omega),
          show 2 * (16 * 2 ^ i) = 16 * 2 ^ (i + 1) by rw [Nat.pow_succ]; omega,
          Checked.freeListInit_eq (hW _ (by omega) (by omega)) (hW _ (by omega) (by omega)),
          Option.bind_eq_bind, Option.bind_some, ih (by omega)]
      · rw [if_neg hle, if_neg hle]

section

variable {h : Heap} {W : Nat → Nat → Bool}

theorem checked_extendHeap_init (hf : Fresh h) (hroom : h.brk + 4096 ≤ h.maxAddr)
    (hW : ∀ k, Passes (W k) h.brk k) :
    Checked.extendHeap W h chunkSize 0 = extendHeap h chunkSize 0 := by
  have h8 := hf.brk8
  have hmax := hf.maxLt
  have hx : Checked.extendSize (W h.brk) h.mem chunkSize 0 = some 4096 := by
    rw [checked_extendSize fun h0 => absurd rfl h0, extendSize_init]
  have hsb := memSbrk_granted (h := h) (n := 4096) (by omega) hroom hmax
  have hst : Checked.store (W (h.brk + 4096)) h.mem (h.brk + 4092) (pack wsize 1) =
      some (put h.mem (h.brk + 4092) 5) :=
    Checked.store_eq (hW _ _ (by omega) (by omega))
  rw [extendHeap_init hf hroom]
  unfold Checked.extendHeap
  rw [hx, Option.bind_eq_bind, Option.bind_some, hsb]
  dsimp only
  rw [u32_of_lt (by omega), if_neg (by omega), hdrp_eq (by omega) (by omega),
    show h.brk + 4096 - 4 = h.brk + 4092 by omega, hst]
  rfl

/-- The header of the prologue is the word before the break that `mm_init` found. -/
theorem refused_mmInit (hf : Fresh h) (hroom : h.brk + 4096 ≤ h.maxAddr)
    (hW : ∀ k, Passes (W k) h.brk k) (hp : W (h.brk + 4096) (h.brk - 4) = false) :
    Checked.mmInit W h = none := by
  have h8 := hf.brk8
  have hmax := hf.maxLt
  obtain ⟨hal, hpro, -⟩ := prologue_layout hf hroom
  have hput : ∀ m v, Checked.metaPut (W (h.brk + 4096)) m h.brk v = none := by
    intro m v
    unfold Checked.metaPut
    rw [hdrp_eq (by omega) (by omega), Checked.store_refused hp]
    rfl
  unfold Checked.mmInit
  rw [checked_extendHeap_init hf hroom hW, extendHeap_init hf hroom, Option.bind_eq_bind,
    Option.bind_some]
  dsimp only
  rw [if_neg (by omega), prologueSize_eq, hal, hpro, hput]
  rfl

theorem checked_mmInit (hf : Fresh h) (hroom : h.brk + 4096 ≤ h.maxAddr)
    (hW : ∀ k, Passes (W k) h.brk k) (hp : W (h.brk + 4096) (h.brk - 4) = true) :
    Checked.mmInit W h = mmInit h := by
  have h8 := hf.brk8
  have hmod := hf.brkMod
  have hmax := hf.maxLt
  obtain ⟨hal, hpro, hsz⟩ := prologue_layout hf hroom
  have hWh := hW (h.brk + 4096)
  -- the prologue: its header by hypothesis, its footer in the heap
  have hput₁ : ∀ m, Checked.metaPut (W (h.brk + 4096)) m h.brk 81 = some (metaPut m h.brk 81) := by
    intro m
    have hh : hdrp h.brk = h.brk - 4 := hdrp_eq (by omega) (by omega)
    refine Checked.metaPut_eq ?_ ?_
    · rw [hh]
      exact hp
    · have hfp : ftrp (put m (hdrp h.brk) 81) h.brk = h.brk + 80 - 8 :=
        ftrp_put (b := prologue h.brk) rfl h8 (by show 80 % 8 = 0; omega)
          (by show h.brk + 80 < _; omega)
      rw [hfp]
      exact hWh _ (by omega) (by omega)
  have hlists : ∀ m, Checked.classListInit (W (h.brk + 4096)) h.brk 32 0 16 m =
      some (classListInit h.brk 32 0 16 m) := fun m =>
    checked_classListInit (by omega)
      (fun p h1 h2 => hWh p h1 (by omega)) (by omega : 0 ≤ 9)
  have hput₂ : ∀ m, Checked.metaPut (W (h.brk + 4096)) m (h.brk + 80) 4016 =
      some (metaPut m (h.brk + 80) 4016) := fun m =>
    checked_metaPut (b := ⟨h.brk + 80, 4016, false⟩) hWh rfl (by show 8 ≤ h.brk + 80; omega)
      (by show 16 ≤ 4016; omega) (by show 4016 % 8 = 0; omega)
      (by show h.brk + 4 ≤ h.brk + 80; omega) (by show h.brk + 80 + 4016 ≤ _; omega) (by omega)
  have o := mmInit_open hf hroom
  simp only at o
  obtain ⟨m₂, hm₂⟩ : ∃ m₂, m₂ = classListInit h.brk 32 0 16
      (metaPut (put h.mem (h.brk + 4092) 5) h.brk 81) := ⟨_, rfl⟩
  rw [← hm₂] at o
  obtain ⟨ht, hout⟩ := metaPut_spec (m := m₂) (b := ⟨h.brk + 80, 4016, false⟩)
    (v := 4016) rfl (by show 8 ≤ h.brk + 80; omega) (by show 16 ≤ 4016; omega)
    (by show 4016 % 8 = 0; omega) (by show h.brk + 80 + 4016 < _; omega)
  simp only at hout
  have ow := o.write fun z hz => hout z (by omega) (by omega)
  have hfree := ow.checked_freeNode (b := ⟨h.brk + 80, 4016, false⟩) hWh rfl
    (by show 16 ≤ 4016; omega) (by show h.brk + 80 + 4016 ≤ h.brk + 4096; omega) rfl ht
  dsimp only at hfree
  have h81 : pack 80 1 = 81 := rfl
  have hmin : minAlloc = 16 := rfl
  unfold Checked.mmInit mmInit
  rw [checked_extendHeap_init hf hroom hW, extendHeap_init hf hroom]
  simp only [Option.bind_eq_bind, Option.bind_some]
  rw [if_neg (by omega), if_neg (by omega), prologueSize_eq, hal, hpro, hsz, h81, hmin]
  simp only [hput₁, hlists, hput₂, ← hm₂, hfree, Option.bind_some]

end

/-! ## Runs on one heap -/

/-- The runs that begin with `mm_init` on `h₀`. -/
inductive Run (h₀ : Heap) : State → Prop
  | init {h : Heap} : mmInit h₀ = some (h, 0) → Run h₀ ⟨h, []⟩
  | step {s s' : State} : Run h₀ s → Step s s' → Run h₀ s'

theorem Run.reachable {h₀ : Heap} {s : State} (hf : Fresh h₀) (hr : Run h₀ s) : Reachable s := by
  induction hr with
  | init hm => exact Reachable.init hf hm
  | step _ hs ih => exact ih.step hs

/-- No call moves the low end of the heap, or its prologue. -/
def SameBase (h h' : Heap) : Prop := h'.beginHeap = h.beginHeap ∧ h'.startBrk = h.startBrk

theorem RunInv.malloc_base {h h' : Heap} {bs : List Blk} {fl : Nat → List Nat}
    {live : List (Nat × Nat)} {n p : Nat} (hi : RunInv h live bs fl) (hn : n ≤ maxRequest)
    (hm : mmMalloc h n = some (h', p)) : SameBase h h' := by
  cases hi.malloc_cases hn (hi.mallocInRange hm) with
  | inl heq =>
    rw [heq] at hm
    cases hm
    exact ⟨rfl, rfl⟩
  | inr hA =>
    obtain ⟨h₁, p₁, bs', fl', s, heq, hA⟩ := hA
    rw [heq] at hm
    cases hm
    exact ⟨hA.beginEq, hA.startEq⟩

theorem mmFreeNonnull_base {h h' : Heap} {p : Nat} (hm : mmFreeNonnull h p = some h') :
    SameBase h h' := by
  unfold mmFreeNonnull at hm
  cases hf : freeNode (coalesceWillFree h.mem p).1 h.beginHeap (coalesceWillFree h.mem p).2 with
  | none => simp [hf] at hm
  | some m =>
    simp only [hf, Option.bind_eq_bind, Option.bind_some] at hm
    cases hm
    exact ⟨rfl, rfl⟩

theorem RunInv.step_base {s s' : State} {bs : List Blk} {fl : Nat → List Nat}
    (hi : RunInv s.heap s.live bs fl) (hs : Step s s') : SameBase s.heap s'.heap := by
  cases hs with
  | malloc hsz hm => exact hi.malloc_base hsz hm
  | freeNull hm =>
    cases hm
    exact ⟨rfl, rfl⟩
  | free hp hm =>
    unfold mmFree at hm
    rw [if_neg (hi.live_pos hp)] at hm
    exact mmFreeNonnull_base hm
  | reallocNull hsz hm =>
    unfold mmRealloc at hm
    rw [if_pos rfl] at hm
    exact hi.malloc_base hsz hm
  | @reallocFree h h' live p n q hp hm =>
    unfold mmRealloc at hm
    rw [if_neg (hi.live_pos hp), if_pos rfl] at hm
    cases hf : mmFreeNonnull h p with
    | none => simp [hf] at hm
    | some h₁ =>
      simp only [hf, Option.bind_eq_bind, Option.bind_some] at hm
      cases hm
      exact mmFreeNonnull_base hf
  | realloc hp h0 hsz hm hq =>
    cases hi.realloc_cases hp h0 hsz (hi.reallocInRange hp hm) with
    | inl heq =>
      obtain ⟨h₁, heq⟩ := heq
      rw [heq] at hm
      cases hm
      exact absurd rfl hq
    | inr hR =>
      obtain ⟨l, b, r, h₁, q₁, bs', fl', s, -, -, -, -, -, heq, hR⟩ := hR
      rw [heq] at hm
      cases hm
      exact ⟨hR.beginEq, hR.startEq⟩
  | write hp hm => exact ⟨rfl, rfl⟩

theorem Run.base {h₀ : Heap} {s : State} (hf : Fresh h₀) (hr : Run h₀ s) :
    s.heap.beginHeap = h₀.brk ∧ s.heap.startBrk = h₀.startBrk := by
  induction hr with
  | init hm =>
    obtain ⟨bs, fl, hi⟩ := RunInv.init hf hm
    obtain ⟨h', fl', heq, -, hb, hst, -⟩ := mmInit_spec hf (mmInit_room hf hm)
    rw [heq] at hm
    cases hm
    exact ⟨hb, hst⟩
  | step hr hs ih =>
    obtain ⟨bs, fl, hi⟩ := (hr.reachable hf).inv
    have hb := hi.step_base hs
    exact ⟨hb.1.trans ih.1, hb.2.trans ih.2⟩

/-! ## The calls of a run -/

/-- A call of the package. -/
inductive Call
  | malloc (size : Nat)
  | free (ptr : Nat)
  | realloc (ptr size : Nat)

/-- The heap and the pointer that the call returns; `NULL` for `mm_free`. -/
def Call.run (h : Heap) : Call → Option (Heap × Nat)
  | .malloc n => mmMalloc h n
  | .free p => (mmFree h p).map (·, 0)
  | .realloc p n => mmRealloc h p n

/-- The call, with its accesses tested. -/
def Call.checked (W : Nat → Nat → Bool) (h : Heap) : Call → Option (Heap × Nat)
  | .malloc n => Checked.mmMalloc W h n
  | .free p => (Checked.mmFree W h p).map (·, 0)
  | .realloc p n => Checked.mmRealloc W h p n

/-- The block that the call frees or moves, if any. -/
def Call.ptr : Call → Nat
  | .malloc _ => 0
  | .free p => p
  | .realloc p _ => p

/-- What the user may call: live pointers or `NULL`, sizes that do not wrap, and no
realloc that fails. -/
def Call.Proper (s : State) : Call → Prop
  | .malloc n => n ≤ maxRequest
  | .free p => p = 0 ∨ ∃ k, (p, k) ∈ s.live
  | .realloc p n => n ≤ maxRequest ∧ (p = 0 ∨ ∃ k, (p, k) ∈ s.live) ∧
      (p ≠ 0 → n ≠ 0 → ∀ h', mmRealloc s.heap p n ≠ some (h', 0))

/-- The call need not pass the end of the address space. -/
def Call.InRange (h : Heap) : Call → Prop
  | .malloc n => MallocInRange h n
  | .free _ => True
  | .realloc p n => if p = 0 then MallocInRange h n else ReallocInRange h p n

section

variable {h : Heap} {bs : List Blk} {fl : Nat → List Nat} {live : List (Nat × Nat)}
  {W : Nat → Nat → Bool}

theorem RunInv.last_ne (hi : RunInv h live bs fl) : h.endHeap ≠ h.beginHeap + 80 := by
  have htop := hi.rest.vars.top
  have hc := hi.chunks
  omega

theorem RunInv.checked_malloc (hi : RunInv h live bs fl) (hW : ∀ k, Passes (W k) h.beginHeap k)
    {n : Nat} (hn : n ≤ maxRequest) : Checked.mmMalloc W h n = mmMalloc h n :=
  hi.rest.checked_mmMalloc hn hi.last_ne hW

theorem RunInv.checked_free (hi : RunInv h live bs fl) (hW : ∀ k, Passes (W k) h.beginHeap k)
    {p k : Nat} (hp : (p, k) ∈ live)
    (hb : p = h.beginHeap + 80 → W h.brk (h.beginHeap - 4) = true) :
    Checked.mmFreeNonnull W h p = mmFreeNonnull h p := by
  obtain ⟨l, b, r, rfl, rfl, ha, hne, -⟩ := hi.liveBlk hp
  exact hi.rest.checked_mmFreeNonnull ha hne hW hb

/-- A call that passes the word before the heap, if it frees the first block. -/
theorem RunInv.checked_call (hi : RunInv h live bs fl)
    (hW : ∀ k, Passes (W k) h.beginHeap k) {c : Call} (hc : c.Proper ⟨h, live⟩)
    (hr : c.InRange h) (hb : c.ptr = h.beginHeap + 80 → W h.brk (h.beginHeap - 4) = true) :
    c.checked W h = c.run h := by
  cases c with
  | malloc n => exact hi.checked_malloc hW hc
  | free p =>
    change (Checked.mmFree W h p).map _ = (mmFree h p).map _
    unfold Checked.mmFree mmFree
    by_cases h0 : p = 0
    · rw [if_pos h0, if_pos h0]
    · obtain ⟨k, hk⟩ := hc.resolve_left h0
      rw [if_neg h0, if_neg h0, hi.checked_free hW hk hb]
  | realloc p n =>
    obtain ⟨hn, hp, hok⟩ := hc
    change Checked.mmRealloc W h p n = mmRealloc h p n
    change if p = 0 then MallocInRange h n else ReallocInRange h p n at hr
    by_cases h0 : p = 0
    · unfold Checked.mmRealloc mmRealloc
      rw [if_pos h0, if_pos h0, hi.checked_malloc hW hn]
    · obtain ⟨k, hk⟩ := hp.resolve_left h0
      rw [if_neg h0] at hr
      by_cases hn0 : n = 0
      · unfold Checked.mmRealloc mmRealloc
        rw [if_neg h0, if_neg h0, if_pos hn0, if_pos hn0, hi.checked_free hW hk hb]
      · obtain ⟨h', q, heq, -⟩ := hi.realloc hk hn0 hn hr
        have hq : q ≠ 0 := by
          rintro rfl
          exact hok h0 hn0 h' heq
        obtain ⟨l, b, r, rfl, rfl, ha, hne, -⟩ := hi.liveBlk hk
        exact (hi.rest.checked_mmRealloc ha hne hn0 hn hi.last_ne hW hb heq hq).trans heq.symm

/-- The call that frees or moves the first block cannot do without it. -/
theorem RunInv.refused_call (hi : RunInv h live bs fl) {c : Call} (hc : c.Proper ⟨h, live⟩)
    (hfirst : c.ptr = h.beginHeap + 80) (hb : W h.brk (h.beginHeap - 4) = false) :
    c.checked W h = none := by
  have hfree : ∀ {p k : Nat}, (p, k) ∈ live → p = h.beginHeap + 80 →
      Checked.mmFreeNonnull W h p = none := by
    intro p k hk hp
    obtain ⟨l, b, r, rfl, rfl, ha, hne, -⟩ := hi.liveBlk hk
    exact hi.rest.refused_mmFreeNonnull ha hne hp hb
  cases c with
  | malloc n => exact absurd hfirst (by simp [Call.ptr])
  | free p =>
    have h0 : p ≠ 0 := by
      rintro rfl
      exact absurd hfirst (by simp [Call.ptr])
    obtain ⟨k, hk⟩ := hc.resolve_left h0
    change (Checked.mmFree W h p).map _ = none
    unfold Checked.mmFree
    rw [if_neg h0, hfree hk hfirst]
    rfl
  | realloc p n =>
    have h0 : p ≠ 0 := by
      rintro rfl
      exact absurd hfirst (by simp [Call.ptr])
    obtain ⟨k, hk⟩ := hc.2.1.resolve_left h0
    change Checked.mmRealloc W h p n = none
    unfold Checked.mmRealloc
    rw [if_neg h0]
    by_cases hn0 : n = 0
    · rw [if_pos hn0, hfree hk hfirst]
      rfl
    · obtain ⟨l, b, r, rfl, rfl, ha, hne, -⟩ := hi.liveBlk hk
      have hco := hi.rest.refused_coalesce ha hne hfirst hb
      rw [if_neg hn0]
      cases hs : Checked.size (W h.brk) h.mem (hdrp b.addr) with
      | none => simp only [hs, Option.bind_eq_bind, Option.bind_none]
      | some s => simp only [hs, hco, Option.bind_eq_bind, Option.bind_some, Option.bind_none]

theorem RunInv.call_returns (hi : RunInv h live bs fl) {c : Call} (hc : c.Proper ⟨h, live⟩)
    (hin : c.InRange h) : ∃ r, c.run h = some r := by
  have hr : Returns ⟨h, live⟩ := hi.returns
  cases c with
  | malloc n => exact hr.1 n hc hin
  | free p =>
    unfold Call.run
    by_cases h0 : p = 0
    · exact ⟨(h, 0), by simp [h0, mmFree]⟩
    · obtain ⟨k, hk⟩ := hc.resolve_left h0
      obtain ⟨h', hf⟩ := hr.2.1 p k hk
      exact ⟨(h', 0), by simp [hf]⟩
  | realloc p n =>
    change ∃ r, mmRealloc h p n = some r
    change if p = 0 then MallocInRange h n else ReallocInRange h p n at hin
    by_cases h0 : p = 0
    · rw [if_pos h0] at hin
      unfold mmRealloc
      rw [if_pos h0]
      exact hr.1 n hc.1 hin
    · rw [if_neg h0] at hin
      obtain ⟨k, hk⟩ := hc.2.1.resolve_left h0
      exact hr.2.2 p k n hk hc.1 hin

end

/-- `mm_init` always leaves the heap, by the one word before it. Allowing for that word,
every access of `mm_init` and of every later call is inside, as long as the call need not
pass the end of the address space; and a call needs the word exactly when it frees or moves
the first block. -/
theorem run_accesses {h₀ : Heap} (hf : Fresh h₀) (he : h₀.startBrk = h₀.brk) {h : Heap}
    (hm : mmInit h₀ = some (h, 0)) :
    Checked.mmInit (inHeap h₀.startBrk) h₀ = none ∧
      Checked.mmInit (inHeapOrBefore h₀.startBrk) h₀ = some (h, 0) ∧
      ∀ s, Run h₀ s → ∀ c : Call, c.Proper s → c.InRange s.heap →
        c.checked (inHeapOrBefore h₀.startBrk) s.heap = c.run s.heap ∧
        (c.checked (inHeap h₀.startBrk) s.heap = c.run s.heap ↔ c.ptr ≠ h₀.startBrk + 80) := by
  have h8 := hf.brk8
  have hroom := mmInit_room hf hm
  rw [he]
  refine ⟨?_, ?_, ?_⟩
  · exact refused_mmInit hf hroom (inHeap_passes _) (inHeap_before h8 _)
  · rw [checked_mmInit hf hroom (inHeapOrBefore_passes _) (inHeapOrBefore_before h8 _), hm]
  · intro s hr c hc hin
    obtain ⟨bs, fl, hi⟩ := (hr.reachable hf).inv
    have hb := (hr.base hf).1
    rw [← hb]
    rw [← hb] at h8
    constructor
    · exact hi.checked_call (inHeapOrBefore_passes _) hc hin fun _ =>
        inHeapOrBefore_before h8 _
    · constructor
      · intro heq hfirst
        obtain ⟨r, hrun⟩ := hi.call_returns hc hin
        rw [hi.refused_call hc hfirst (inHeap_before h8 _), hrun] at heq
        cases heq
      · intro hne
        exact hi.checked_call (inHeap_passes _) hc hin fun hfirst => absurd hfirst hne

/-- On the empty heap of 64 KiB. -/
theorem run_accesses_empty : ∃ h, mmInit emptyHeap = some (h, 0) ∧
    Checked.mmInit (inHeap 4096) emptyHeap = none ∧
    Checked.mmInit (inHeapOrBefore 4096) emptyHeap = some (h, 0) := by
  obtain ⟨h, -, hm, -⟩ := mmInit_spec emptyHeap_fresh (by decide)
  have hr := run_accesses emptyHeap_fresh rfl hm
  exact ⟨h, hm, hr.1, hr.2.1⟩

/-- The first store of the prologue is to the address 4092 of a heap that starts at 4096. -/
theorem run_leaves_heap : ¬∀ h₀ h, Fresh h₀ → h₀.startBrk = h₀.brk →
    mmInit h₀ = some (h, 0) →
    Checked.mmInit (inHeap h₀.startBrk) h₀ = some (h, 0) ∧
      ∀ s, Run h₀ s → ∀ c : Call, c.Proper s →
        c.checked (inHeap h₀.startBrk) s.heap = c.run s.heap := by
  intro hall
  obtain ⟨h, -, hm, -⟩ := mmInit_spec emptyHeap_fresh (by decide)
  have hin := (hall emptyHeap h emptyHeap_fresh rfl hm).1
  have hout : Checked.mmInit (inHeap emptyHeap.startBrk) emptyHeap = none :=
    refused_mmInit emptyHeap_fresh (by decide) (inHeap_passes _) (inHeap_before (by decide) _)
  rw [hout] at hin
  cases hin

end Csapp.Malloc
