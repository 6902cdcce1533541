import Mathlib
import Csapp.Malloc.Driver
import Csapp.Malloc.Grow
import Csapp.Malloc.Payload
import Csapp.Malloc.Extent

/-!
# The driver accepts the allocator

On a trace that frees and reallocates only what it holds, no check of
`eval_mm_valid` fails on `mm.c`: what can stop it is a call that answers `NULL`
because the simulated memory is used up, and with room for every request the
trace is accepted. The state of the driver is tied to a run of the allocator,
so the geometry of the payloads and the bytes in them come from its invariant.
-/

namespace Csapp.Malloc

section

variable {h : Heap} {bs : List Blk} {fl : Nat → List Nat} {live : List (Nat × Nat)}

/-! ## Payloads -/

/-- Where a live payload lies. -/
theorem RunInv.payload (hi : RunInv h live bs fl) {p n : Nat} (hp : (p, n) ∈ live) :
    p % 8 = 0 ∧ h.startBrk + 80 ≤ p ∧ p + n + 8 ≤ h.brk ∧ h.brk < 4294967296 := by
  obtain ⟨c, ⟨hc, ha, hne⟩, rfl, hn⟩ := hi.tracks.block p n hp
  have hm := hi.rest.mem (List.mem_append_left _ hc)
  have hv := hi.rest.vars
  have hlt := hv.lt
  have hst := hv.start
  have htop := hv.top
  have hlow := hm.2.2.2.2.2.2.resolve_left hne
  exact ⟨hm.2.2.2.2.1, by omega, by omega, by omega⟩

/-- Two live payloads are apart. -/
theorem RunInv.payloads_apart (hi : RunInv h live bs fl) {p n q k : Nat} (hp : (p, n) ∈ live)
    (hq : (q, k) ∈ live) (hne : p ≠ q) : p + n ≤ q ∨ q + k ≤ p := by
  obtain ⟨c, ⟨hc, -, -⟩, rfl, hn⟩ := hi.tracks.block p n hp
  obtain ⟨d, ⟨hd, -, -⟩, rfl, hk⟩ := hi.tracks.block q k hq
  rcases hi.rest.apart (List.mem_append_left _ hc) (List.mem_append_left _ hd) with
    rfl | hap | hap
  · exact absurd rfl hne
  · omega
  · omega

/-- The bytes asked for are inside the payload. -/
theorem RunInv.samePayload_bytes (hi : RunInv h live bs fl) {h' : Heap} {p n : Nat}
    (hp : (p, n) ∈ live) (hs : SamePayload h h' p) {j : Nat} (hj : j < n) :
    h'.mem (p + j) = h.mem (p + j) := by
  obtain ⟨c, ⟨hc, -, -⟩, rfl, hn⟩ := hi.tracks.block p n hp
  refine hs (c.addr + j) (Nat.le_add_right _ _) ?_
  rw [(hi.rest.macros hc).2.1]
  omega

theorem Run.inv {h₀ : Heap} {s : State} (hf : Fresh h₀) (hr : Run h₀ s) :
    ∃ bs fl, RunInv s.heap s.live bs fl := (hr.reachable hf).inv

end

namespace Driver

/-! ## Traces that may be run -/

/-- What the trace has done with an index. -/
inductive Status
  | null | live | freed
deriving DecidableEq

/-- What a request does with its index. -/
def after (status : Int → Status) (op : TraceOp) : Int → Status :=
  match op.type with
  | .alloc => Function.update status op.index .live
  | .realloc => Function.update status op.index (if op.size = 0 then .null else .live)
  | .free =>
    if op.index = -1 ∨ status op.index = .null then status
    else Function.update status op.index .freed

/-- A request that a program may make. -/
def Proper (numIds : Nat) (status : Int → Status) (op : TraceOp) : Prop :=
  match op.type with
  | .alloc => InBounds numIds op.index ∧ 0 < op.size ∧ op.size < 2147483648
  | .realloc => InBounds numIds op.index ∧ op.size < 2147483648 ∧ status op.index ≠ .freed
  | .free => op.index = -1 ∨ InBounds numIds op.index ∧ status op.index ≠ .freed

/-- Every request is one that a program may make. -/
def WellFormed (numIds : Nat) : (Int → Status) → List TraceOp → Prop
  | _, [] => True
  | status, op :: ops => Proper numIds status op ∧ WellFormed numIds (after status op) ops

/-- The room of a request. -/
def TraceOp.room (op : TraceOp) : Nat := if op.type = .free then 0 else Malloc.room op.size

/-- Room for every request of the trace. -/
def traceRoom (ops : List TraceOp) : Nat := (ops.map TraceOp.room).sum

/-- The end of the memory leaves so much of the address space behind it that no request
of the trace passes its end, nor the first one of `mm_init`. -/
def InSpace (maxAddr : Nat) (ops : List TraceOp) : Prop :=
  maxAddr + 4096 < 4294967296 ∧ ∀ op ∈ ops, maxAddr + op.room < 4294967296

/-! ## The state of the driver and the run of the allocator -/

/-- The range of a payload. -/
def toRange (x : Nat × Nat) : Range := ⟨x.1, x.1 + x.2 - 1⟩

/-- What the driver knows is what the allocator has handed out. -/
structure Inv (h₀ : Heap) (st : St Heap) (status : Int → Status) (live : List (Nat × Nat)) :
    Prop where
  run : Run h₀ ⟨st.heap, live⟩
  ranges : st.ranges = live.map toRange
  pos : ∀ x ∈ live, 0 < x.2
  null : ∀ i, status i = .null → st.blocks i = 0 ∧ st.blockSizes i = 0
  held : ∀ i, status i = .live → (st.blocks i, st.blockSizes i) ∈ live ∧
    ∀ j < st.blockSizes i, st.heap.mem (st.blocks i + j) = fill i
  distinct : ∀ i j, status i = .live → status j = .live → st.blocks i = st.blocks j → i = j

section
variable {h₀ h' : Heap} {st : St Heap} {status : Int → Status} {live live' : List (Nat × Nat)}
  {bs : List Blk} {fl : Nat → List Nat}

theorem hits_iff {r : Range} {lo hi : Nat} :
    r.hits lo hi = true ↔ (r.lo ≤ lo ∧ lo ≤ r.hi) ∨ (r.lo ≤ hi ∧ hi ≤ r.hi) := by
  simp only [Range.hits, Bool.or_eq_true, Bool.and_eq_true, decide_eq_true_eq]

/-- A new payload passes every check of `add_range`. -/
theorem addRange_ok {h : Heap} {p n : Nat} (hi : RunInv h ((p, n) :: live) bs fl)
    (hpos : ∀ x ∈ (p, n) :: live, 0 < x.2) :
    addRange h.startBrk (h.brk - 1) (live.map toRange) p n =
      some (.ok (((p, n) :: live).map toRange)) := by
  have hn : 0 < n := hpos (p, n) List.mem_cons_self
  obtain ⟨hmod, hlo, hhi, hlt⟩ := hi.payload (p := p) (n := n) List.mem_cons_self
  have hu : u32 (p + n - 1) = p + n - 1 := u32_of_lt (by omega)
  have hnone : (live.map toRange).find? (·.hits p (p + n - 1)) = none := by
    rw [List.find?_eq_none]
    intro r hr
    obtain ⟨⟨q, k⟩, hq, rfl⟩ := List.mem_map.mp hr
    have hne : p ≠ q := by
      rintro rfl
      exact (List.nodup_cons.mp hi.tracks.nodup).1 (List.mem_map.mpr ⟨_, hq, rfl⟩)
    have hk : 0 < k := hpos (q, k) (List.mem_cons_of_mem _ hq)
    have hap := hi.payloads_apart List.mem_cons_self (List.mem_cons_of_mem _ hq) hne
    rw [hits_iff]
    dsimp only [toRange]
    omega
  have hal : alignment = 8 := rfl
  rw [addRange, if_neg (by omega)]
  dsimp only
  rw [hu, hal, if_neg (by omega), if_neg (by omega), hnone]
  rfl

theorem removeRange_live {p k : Nat} : ∀ {live : List (Nat × Nat)},
    (live.map Prod.fst).Nodup → (p, k) ∈ live →
      removeRange (live.map toRange) p = (live.erase (p, k)).map toRange
  | (q, j) :: live, hn, hm => by
      obtain ⟨hq, hn⟩ := List.nodup_cons.mp hn
      rw [removeRange, List.map_cons]
      by_cases he : q = p
      · subst he
        rcases List.mem_cons.mp hm with hm | hm
        · rw [hm, List.erase_cons_head, List.eraseP_cons_of_pos (by simp [toRange])]
        · exact absurd (List.mem_map.mpr ⟨_, hm, rfl⟩) hq
      · have hm : (p, k) ∈ live := (List.mem_cons.mp hm).resolve_left
          fun h => he (Prod.mk.inj h).1.symm
        have hne : ¬decide ((toRange (q, j)).lo = p) = true := fun h => he (of_decide_eq_true h)
        rw [List.eraseP_cons_of_neg (p := fun r : Range => decide (r.lo = p)) hne,
          List.erase_cons_tail (by simp [he]), List.map_cons]
        exact congrArg _ (removeRange_live hn hm)

theorem removeRange_null {live : List (Nat × Nat)} (h : ∀ p n, (p, n) ∈ live → p ≠ 0) :
    removeRange (live.map toRange) 0 = live.map toRange := by
  refine List.eraseP_of_forall_not fun r hr => ?_
  obtain ⟨⟨q, k⟩, hq, rfl⟩ := List.mem_map.mp hr
  exact fun hd => h q k hq (of_decide_eq_true hd)

theorem memset_zero (m : Mem) (p : Nat) (c : UInt8) : memset m p c 0 = m :=
  funext fun _ => if_neg (by omega)

/-- What one index does, when the others keep their blocks and the bytes in them. -/
theorem Inv.update {i : Int} {b z : Nat} {s : Status} (hi : Inv h₀ st status live)
    (hrun : Run h₀ ⟨h', live'⟩) (hpos : ∀ x ∈ live', 0 < x.2)
    (hothers : ∀ j, j ≠ i → status j = .live → (st.blocks j, st.blockSizes j) ∈ live' ∧
      ∀ t < st.blockSizes j, h'.mem (st.blocks j + t) = st.heap.mem (st.blocks j + t))
    (hnull : s = .null → b = 0 ∧ z = 0)
    (hlive : s = .live → (b, z) ∈ live' ∧ (∀ t < z, h'.mem (b + t) = fill i) ∧
      ∀ j, j ≠ i → status j = .live → st.blocks j ≠ b) :
    Inv h₀ ⟨h', live'.map toRange, Function.update st.blocks i b,
      Function.update st.blockSizes i z⟩ (Function.update status i s) live' := by
  refine ⟨hrun, rfl, hpos, fun j hs => ?_, fun j hs => ?_, fun j j' hs hs' he => ?_⟩
  · dsimp only
    by_cases hj : j = i
    · subst hj
      rw [Function.update_self] at hs ⊢
      rw [Function.update_self]
      exact hnull hs
    · rw [Function.update_of_ne hj] at hs ⊢
      rw [Function.update_of_ne hj]
      exact hi.null j hs
  · dsimp only
    by_cases hj : j = i
    · subst hj
      rw [Function.update_self] at hs ⊢
      rw [Function.update_self]
      exact ⟨(hlive hs).1, (hlive hs).2.1⟩
    · rw [Function.update_of_ne hj] at hs ⊢
      rw [Function.update_of_ne hj]
      obtain ⟨hm, hk⟩ := hothers j hj hs
      exact ⟨hm, fun t ht => (hk t ht).trans ((hi.held j hs).2 t ht)⟩
  · dsimp only at he
    by_cases hj : j = i
    · subst hj
      by_cases hj' : j' = j
      · exact hj'.symm
      · rw [Function.update_self] at hs he
        rw [Function.update_of_ne hj'] at hs' he
        exact absurd he.symm ((hlive hs).2.2 j' hj' hs')
    · rw [Function.update_of_ne hj] at hs he
      by_cases hj' : j' = i
      · subst hj'
        rw [Function.update_self] at hs' he
        exact absurd he ((hlive hs').2.2 j hj hs)
      · rw [Function.update_of_ne hj'] at hs' he
        exact hi.distinct j j' hs hs' he

/-- A block placed for `i`, when the others have kept their bytes. -/
theorem Inv.place {i : Int} {p n : Nat} (hf : Fresh h₀) (hi : Inv h₀ st status live)
    (hrun : Run h₀ ⟨h', (p, n) :: live'⟩) (hn : 0 < n) (hsub : ∀ x ∈ live', x ∈ live)
    (hkeep : ∀ q k, (q, k) ∈ live' → ∀ j < k, h'.mem (q + j) = st.heap.mem (q + j))
    (hothers : ∀ j, j ≠ i → status j = .live → (st.blocks j, st.blockSizes j) ∈ live') :
    Inv h₀ (st.remember mmPackage h' (((p, n) :: live').map toRange) i p n)
      (Function.update status i .live) ((p, n) :: live') := by
  obtain ⟨bs, fl, hri⟩ := hrun.inv hf
  have hnew : ∀ q k, (q, k) ∈ live' → q ≠ p := fun q k hq he =>
    (List.nodup_cons.mp hri.tracks.nodup).1 (List.mem_map.mpr ⟨_, hq, he⟩)
  have hrun' : Run h₀ ⟨{ h' with mem := memset h'.mem p (fill i) n }, (p, n) :: live'⟩ :=
    hrun.step (Step.write (p := p) (n := n) List.mem_cons_self fun z hz => if_neg (by omega))
  refine hi.update hrun' (List.forall_mem_cons.mpr ⟨hn, fun x hx => hi.pos x (hsub x hx)⟩)
    (fun j hj hs => ?_) (fun h => Status.noConfusion h)
    fun _ => ⟨List.mem_cons_self, fun t ht => if_pos (by omega), fun j hj hs =>
      hnew _ _ (hothers j hj hs)⟩
  have hm := hothers j hj hs
  refine ⟨List.mem_cons_of_mem _ hm, fun t ht => ?_⟩
  have hap := hri.payloads_apart List.mem_cons_self (List.mem_cons_of_mem _ hm) (hnew _ _ hm).symm
  rw [← hkeep _ _ hm t ht]
  exact if_neg (by omega)

/-- What `erase` leaves to the other indices. -/
theorem Inv.others_erase {i : Int} (hi : Inv h₀ st status live) (hs : status i = .live) :
    ∀ j, j ≠ i → status j = .live →
      (st.blocks j, st.blockSizes j) ∈ live.erase (st.blocks i, st.blockSizes i) := by
  intro j hj hsj
  refine (List.mem_erase_of_ne fun he => hj ?_).mpr (hi.held j hsj).1
  exact hi.distinct j i hsj hs (Prod.mk.inj he).1

/-- What a request may come to. -/
def Outcome (h₀ : Heap) (st : St Heap) (status : Int → Status) (op : TraceOp)
    (r : Except Problem (St Heap)) : Prop :=
  (∃ st' live', r = .ok st' ∧ Inv h₀ st' (after status op) live' ∧
    Grown st.heap st'.heap op.room) ∨
  (r = .error .mallocFailed ∨ r = .error .reallocFailed) ∧ Short st.heap op.room

theorem Inv.alloc {i : Int} {n : Nat} (hf : Fresh h₀) (hi : Inv h₀ st status live) (hn : 0 < n)
    (hmax : n < 2147483648) (hsp : st.heap.maxAddr + Malloc.room n < 4294967296) :
    ∃ r, evalAlloc mmPackage st i n = some r ∧ Outcome h₀ st status ⟨.alloc, i, n⟩ r := by
  obtain ⟨bs, fl, hri⟩ := hi.run.inv hf
  have hle : n ≤ maxRequest := by
    unfold maxRequest
    omega
  obtain ⟨h', p, hm, -⟩ := hri.malloc hle (hri.inRange_of_room hle hsp).1
  obtain ⟨hg, hs⟩ := hri.malloc_grown (by omega) hle hm
  have hm' : mmPackage.malloc st.heap n = some (h', p) := hm
  rw [evalAlloc, hm']
  dsimp only
  by_cases hp : p = 0
  · exact ⟨_, if_pos hp, .inr ⟨.inl rfl, hs hp⟩⟩
  · rw [if_neg hp]
    have hrun := hi.run.step (Step.malloc hle hm)
    rw [withNew, if_neg hp] at hrun
    obtain ⟨bs', fl', hri'⟩ := hrun.inv hf
    have hadd : addRange (mmPackage.heapLo h') (mmPackage.heapHi h') st.ranges p n =
        some (.ok (((p, n) :: live).map toRange)) := by
      rw [hi.ranges]
      exact addRange_ok hri' (List.forall_mem_cons.mpr ⟨hn, hi.pos⟩)
    rw [hadd]
    refine ⟨_, rfl, .inl ⟨_, (p, n) :: live, rfl, hi.place hf hrun hn (fun _ hx => hx)
      (fun q k hq j hj => ?_) (fun j _ hs => (hi.held j hs).1), ?_⟩⟩
    · exact hri.samePayload_bytes hq (hri.malloc_payload hle hm hq) hj
    · exact ⟨hg.ge, hg.le, hg.maxEq⟩

/-- The pointer of an erased block is not live any more. -/
theorem ne_of_erase {h : Heap} {p k q j : Nat} (hi : RunInv h live bs fl) (hp : (p, k) ∈ live)
    (hq : (q, j) ∈ live.erase (p, k)) : q ≠ p := fun he => by
  have hnd := List.Nodup.of_map _ hi.tracks.nodup
  have hk := List.inj_on_of_nodup_map hi.tracks.nodup (List.mem_of_mem_erase hq) hp he
  exact ((List.Nodup.mem_erase_iff hnd).mp hq).1 hk

theorem live_ne_null (hi : RunInv st.heap live bs fl) : ∀ p n, (p, n) ∈ live → p ≠ 0 :=
  fun _ _ hp => hi.live_pos hp

theorem preserved_zero (m : Mem) (p : Nat) (i : Int) : preserved m p i 0 = true := rfl

/-- A realloc to nothing, of nothing or of a block. -/
theorem Inv.shrink {i : Int} (hf : Fresh h₀) (hi : Inv h₀ st status live)
    (hs : status i ≠ .freed) : ∃ r, evalRealloc mmPackage st i 0 = some r ∧
      Outcome h₀ st status ⟨.realloc, i, 0⟩ r := by
  obtain ⟨bs, fl, hri⟩ := hi.run.inv hf
  -- The heap and the blocks that are left.
  obtain ⟨h', live', hm, hrun, hranges, hsub, hkeep, hothers, hg⟩ : ∃ h' live',
      mmRealloc st.heap (st.blocks i) 0 = some (h', 0) ∧ Run h₀ ⟨h', live'⟩ ∧
      removeRange (live.map toRange) (st.blocks i) = live'.map toRange ∧
      (∀ x ∈ live', x ∈ live) ∧
      (∀ q k, (q, k) ∈ live' → ∀ j < k, h'.mem (q + j) = st.heap.mem (q + j)) ∧
      (∀ j, j ≠ i → status j = .live → (st.blocks j, st.blockSizes j) ∈ live') ∧
      Grown st.heap h' (Malloc.room 0) := by
    cases hst : status i with
    | freed => exact absurd hst hs
    | null =>
        rw [(hi.null i hst).1]
        exact ⟨st.heap, live, rfl, hi.run, removeRange_null (live_ne_null hri), fun _ hx => hx,
          fun _ _ _ _ _ => rfl, fun j _ hj => (hi.held j hj).1, Grown.refl st.heap st.heap.mem _⟩
    | live =>
        obtain ⟨hp, -⟩ := hi.held i hst
        obtain ⟨h', heq, -⟩ := hri.free hp
        have hm : mmRealloc st.heap (st.blocks i) 0 = some (h', 0) := by
          rw [mmRealloc, if_neg (hri.live_pos hp), if_pos rfl, heq]
          rfl
        refine ⟨h', _, hm, hi.run.step (Step.reallocFree hp hm),
          removeRange_live hri.tracks.nodup hp, fun _ hx => List.mem_of_mem_erase hx,
          fun q k hq j hj => ?_, hi.others_erase hst, mmFreeNonnull_grown heq _⟩
        exact hri.samePayload_bytes (List.mem_of_mem_erase hq)
          (hri.free_payload hp heq (List.mem_of_mem_erase hq) (ne_of_erase hri hp hq)) hj
  have hm' : mmPackage.realloc st.heap (st.blocks i) 0 = some (h', 0) := hm
  rw [evalRealloc]
  dsimp only
  rw [hm']
  dsimp only
  rw [if_neg fun h => h.2 rfl, if_neg (Nat.lt_irrefl 0), hi.ranges, hranges]
  dsimp only
  rw [Nat.min_zero, preserved_zero, if_pos rfl]
  refine ⟨_, rfl, .inl ⟨_, live', rfl, ?_, ⟨hg.ge, hg.le, hg.maxEq⟩⟩⟩
  rw [St.remember, show mmPackage.setMem h' (memset (mmPackage.mem h') 0 (fill i) 0) = h' by
    rw [memset_zero]; rfl]
  exact hi.update hrun (fun x hx => hi.pos x (hsub x hx))
    (fun j hj hs => ⟨hothers j hj hs, hkeep _ _ (hothers j hj hs)⟩) (fun _ => ⟨rfl, rfl⟩)
    (fun h => Status.noConfusion h)

/-- A realloc to `n` bytes, of nothing or of a block. -/
theorem Inv.resize {i : Int} {n : Nat} (hf : Fresh h₀) (hi : Inv h₀ st status live) (hn : 0 < n)
    (hmax : n < 2147483648) (hs : status i ≠ .freed)
    (hsp : st.heap.maxAddr + Malloc.room n < 4294967296) :
    ∃ r, evalRealloc mmPackage st i n = some r ∧ Outcome h₀ st status ⟨.realloc, i, n⟩ r := by
  obtain ⟨bs, fl, hri⟩ := hi.run.inv hf
  have hle : n ≤ maxRequest := by
    unfold maxRequest
    omega
  -- The call refuses, or gives a block with the bytes of the old one.
  obtain ⟨h', q, hm, hg, hq⟩ : ∃ h' q, mmRealloc st.heap (st.blocks i) n = some (h', q) ∧
      (Grown st.heap h' (Malloc.room n) ∧ (q = 0 → Short st.heap (Malloc.room n))) ∧
      (q ≠ 0 → ∃ live', Run h₀ ⟨h', (q, n) :: live'⟩ ∧
        removeRange (live.map toRange) (st.blocks i) = live'.map toRange ∧
        (∀ x ∈ live', x ∈ live) ∧
        (∀ r k, (r, k) ∈ live' → ∀ j < k, h'.mem (r + j) = st.heap.mem (r + j)) ∧
        (∀ j, j ≠ i → status j = .live → (st.blocks j, st.blockSizes j) ∈ live') ∧
        ∀ j < min (st.blockSizes i) n, h'.mem (q + j) = fill i) := by
    cases hst : status i with
    | freed => exact absurd hst hs
    | null =>
        obtain ⟨h', q, hm, -⟩ := hri.malloc hle (hri.inRange_of_room hle hsp).1
        obtain ⟨hb, hz⟩ := hi.null i hst
        have hm' : mmRealloc st.heap 0 n = some (h', q) := by rwa [mmRealloc, if_pos rfl]
        rw [hb, hz]
        refine ⟨h', q, hm', hri.malloc_grown (by omega) hle hm, fun hq => ⟨live, ?_,
          removeRange_null (live_ne_null hri), fun _ hx => hx, fun r k hr j hj =>
            hri.samePayload_bytes hr (hri.malloc_payload hle hm hr) hj,
          fun j _ hj => (hi.held j hj).1, fun j hj => absurd hj (by omega)⟩⟩
        have hrun := hi.run.step (Step.reallocNull hle hm')
        rwa [withNew, if_neg hq] at hrun
    | live =>
        obtain ⟨hp, hbytes⟩ := hi.held i hst
        have hin := (hri.inRange_of_room hle hsp).2 _ _ hp
        obtain ⟨h', q, hm, -⟩ := hri.realloc hp (by omega) hle hin
        refine ⟨h', q, hm, hri.realloc_grown hp (by omega) hle hm, fun hq => ?_⟩
        obtain ⟨hkeep, hcopy⟩ := hri.realloc_payload hp (by omega) hle hm hq
        refine ⟨_, hi.run.step (Step.realloc hp (by omega) hle hm hq),
          removeRange_live hri.tracks.nodup hp, fun _ hx => List.mem_of_mem_erase hx,
          fun r k hr j hj => ?_, hi.others_erase hst, fun j hj => ?_⟩
        · exact hri.samePayload_bytes (List.mem_of_mem_erase hr)
            (hkeep r k (List.mem_of_mem_erase hr) (ne_of_erase hri hp hr)) hj
        · exact (hcopy j hj).trans (hbytes j (by omega))
  have hm' : mmPackage.realloc st.heap (st.blocks i) n = some (h', q) := hm
  rw [evalRealloc]
  dsimp only
  rw [hm']
  dsimp only
  by_cases hq0 : q = 0
  · exact ⟨_, if_pos ⟨hq0, by omega⟩, .inr ⟨.inr rfl, hg.2 hq0⟩⟩
  · obtain ⟨live', hrun, hranges, hsub, hkeep, hothers, hcopy⟩ := hq hq0
    obtain ⟨bs', fl', hri'⟩ := hrun.inv hf
    have hadd : addRange (mmPackage.heapLo h') (mmPackage.heapHi h')
        (removeRange st.ranges (st.blocks i)) q n =
          some (.ok (((q, n) :: live').map toRange)) := by
      rw [hi.ranges, hranges]
      exact addRange_ok hri' (List.forall_mem_cons.mpr ⟨hn, fun x hx => hi.pos x (hsub x hx)⟩)
    have hpres : preserved (mmPackage.mem h') q i (min (st.blockSizes i) n) = true :=
      List.all_eq_true.mpr fun j hj => decide_eq_true (hcopy j (List.mem_range.mp hj))
    rw [if_neg fun h => hq0 h.1, if_pos hn, hadd]
    dsimp only
    rw [hpres, if_pos rfl]
    refine ⟨_, rfl, .inl ⟨_, (q, n) :: live', rfl, ?_, ⟨hg.1.ge, hg.1.le, hg.1.maxEq⟩⟩⟩
    have hafter : after status ⟨.realloc, i, n⟩ = Function.update status i .live :=
      congrArg (Function.update status i) (if_neg (by dsimp only; omega))
    rw [hafter]
    exact hi.place hf hrun hn hsub hkeep hothers

/-- A request that leaves all as it is. -/
theorem Inv.same (hi : Inv h₀ st status live) {op : TraceOp} (ha : after status op = status) :
    Outcome h₀ st status op (.ok { st with heap := st.heap, ranges := live.map toRange }) := by
  refine .inl ⟨_, live, rfl, ?_, Grown.refl st.heap st.heap.mem _⟩
  rw [ha]
  exact ⟨hi.run, rfl, hi.pos, hi.null, hi.held, hi.distinct⟩

theorem Inv.free {i : Int} (hf : Fresh h₀) (hi : Inv h₀ st status live) (n : Nat)
    (hs : i = -1 ∨ status i ≠ .freed) : ∃ r, evalFree mmPackage st i = some r ∧
      Outcome h₀ st status ⟨.free, i, n⟩ r := by
  obtain ⟨bs, fl, hri⟩ := hi.run.inv hf
  have hfree0 : mmPackage.free st.heap 0 = some st.heap := rfl
  rw [evalFree]
  by_cases h1 : i = -1
  · rw [if_pos h1, if_pos h1, hfree0, hi.ranges]
    exact ⟨_, rfl, hi.same (if_pos (.inl h1))⟩
  · rw [if_neg h1, if_neg h1, hi.ranges]
    cases hst : status i with
    | freed => exact absurd hst (hs.resolve_left h1)
    | null =>
        rw [(hi.null i hst).1, hfree0, removeRange_null (live_ne_null hri)]
        exact ⟨_, rfl, hi.same (if_pos (.inr hst))⟩
    | live =>
        obtain ⟨hp, -⟩ := hi.held i hst
        obtain ⟨h', heq, -⟩ := hri.free hp
        have hm : mmFree st.heap (st.blocks i) = some h' := by
          rwa [mmFree, if_neg (hri.live_pos hp)]
        have hm' : mmPackage.free st.heap (st.blocks i) = some h' := hm
        rw [hm', removeRange_live hri.tracks.nodup hp]
        refine ⟨_, rfl, .inl ⟨_, live.erase (st.blocks i, st.blockSizes i), rfl, ?_,
          mmFreeNonnull_grown heq _⟩⟩
        have hafter : after status ⟨.free, i, n⟩ = Function.update status i .freed :=
          if_neg fun h => h.elim h1 fun h => by
            rw [hst] at h
            exact Status.noConfusion h
        have hu := @Inv.update h₀ h' st status live _ i (st.blocks i) (st.blockSizes i) .freed hi
          (hi.run.step (Step.free hp hm)) (fun x hx => hi.pos x (List.mem_of_mem_erase hx))
          (fun j hj hs => ⟨hi.others_erase hst j hj hs, fun t ht => ?_⟩)
          (fun h => Status.noConfusion h) (fun h => Status.noConfusion h)
        · rw [Function.update_eq_self, Function.update_eq_self] at hu
          rw [hafter]
          exact hu
        · have hq := hi.others_erase hst j hj hs
          exact hri.samePayload_bytes (List.mem_of_mem_erase hq)
            (hri.free_payload hp heq (List.mem_of_mem_erase hq) (ne_of_erase hri hp hq)) ht

/-- One request of a proper trace. -/
theorem Inv.op {numIds : Nat} {op : TraceOp} (hf : Fresh h₀) (hi : Inv h₀ st status live)
    (hp : Proper numIds status op) (hsp : st.heap.maxAddr + op.room < 4294967296) :
    ∃ r, evalOp mmPackage numIds st op = some r ∧ Outcome h₀ st status op r := by
  obtain ⟨type, index, size⟩ := op
  rw [evalOp]
  cases type with
  | alloc =>
      obtain ⟨hb, hn, hmax⟩ := hp
      rw [if_neg fun h => h.1 hb]
      exact hi.alloc hf hn hmax hsp
  | realloc =>
      obtain ⟨hb, hmax, hs⟩ := hp
      rw [if_neg fun h => h.1 hb]
      rcases Nat.eq_zero_or_pos size with h0 | hn
      · rw [show size = 0 from h0]
        exact hi.shrink hf hs
      · exact hi.resize hf hn hmax hs hsp
  | free =>
      rw [if_neg fun h => hp.elim (fun h1 => h.2 ⟨rfl, h1⟩) fun hb => h.1 hb.1]
      exact hi.free hf size (hp.imp_right And.right)

/-- The loop, on a proper trace. -/
theorem Inv.ops {numIds : Nat} (hf : Fresh h₀) : ∀ {ops : List TraceOp} {st : St Heap}
    {status : Int → Status} {live : List (Nat × Nat)} (i : Nat), Inv h₀ st status live →
    WellFormed numIds status ops →
    (∀ op ∈ ops, st.heap.maxAddr + op.room < 4294967296) →
    (∃ st', evalOps mmPackage numIds i st ops = some (.ok st')) ∨
      ∃ k e, evalOps mmPackage numIds i st ops = some (.error (k, e)) ∧
        (e = .mallocFailed ∨ e = .reallocFailed) ∧ Short st.heap (traceRoom ops)
  | [], st, _, _, i, _, _, _ => .inl ⟨st, rfl⟩
  | op :: ops, st, status, live, i, hi, hw, hsp => by
      obtain ⟨hsp₁, hsp₂⟩ := List.forall_mem_cons.mp hsp
      obtain ⟨r, hr, hout⟩ := hi.op hf hw.1 hsp₁
      have hroom : traceRoom (op :: ops) = op.room + traceRoom ops := List.sum_cons
      rw [evalOps, hr, hroom]
      rcases hout with ⟨st', live', rfl, hi', hg⟩ | ⟨he, hs⟩
      · rw [← hg.maxEq] at hsp₂
        rcases Inv.ops hf (i + 1) hi' hw.2 hsp₂ with hok | ⟨k, e, hev, he, hs⟩
        · exact .inl hok
        · refine .inr ⟨k, e, hev, he, ?_⟩
          have hle := hg.le
          have hmax := hg.maxEq
          rcases hs with hs | hs
          · exact .inl (by omega)
          · exact .inr (by omega)
      · refine .inr ?_
        rcases he with rfl | rfl
        · exact ⟨i, _, rfl, .inl rfl, hs.mono (Nat.le_add_right _ _)⟩
        · exact ⟨i, _, rfl, .inr rfl, hs.mono (Nat.le_add_right _ _)⟩

end

/-- `eval_mm_valid` on `mm.c` and a proper trace, in an address space that goes on behind
the memory: it accepts, or a call has answered `NULL`, for which the memory has to be too
small for what the trace asks. -/
theorem eval_mm_valid_accepts {h : Heap} {numIds : Nat} {ops : List TraceOp}
    (hf : Fresh { h with brk := h.startBrk }) (hw : WellFormed numIds (fun _ => .null) ops)
    (hsp : InSpace h.maxAddr ops) :
    (∃ st, evalMmValid mmPackage numIds h ops = some (.ok st)) ∨
      ∃ i e, evalMmValid mmPackage numIds h ops = some (.error (i, e)) ∧
        (e = .initFailed ∨ e = .mallocFailed ∨ e = .reallocFailed) ∧
        (h.maxAddr < h.startBrk + 4096 + traceRoom ops ∨ 2147483648 ≤ traceRoom ops) := by
  have hreset : mmPackage.resetBrk h = { h with brk := h.startBrk } := rfl
  have hinit : mmPackage.init = mmInit := by rw [mmPackage]
  rw [evalMmValid, hreset, hinit]
  by_cases hroom : h.startBrk + 4096 ≤ h.maxAddr
  · obtain ⟨h', fl, hm, -, -, -, hmax, hbrk⟩ := mmInit_spec hf hroom
    rw [hm]
    dsimp only
    rw [if_neg (Int.lt_irrefl 0)]
    have hi : Inv { h with brk := h.startBrk } ⟨h', [], fun _ => 0, fun _ => 0⟩ (fun _ => .null)
        [] :=
      ⟨Run.init hm, rfl, fun x hx => absurd hx List.not_mem_nil, fun _ _ => ⟨rfl, rfl⟩,
        fun _ hs => Status.noConfusion hs, fun _ _ hs => Status.noConfusion hs⟩
    rcases Inv.ops hf 0 hi hw (by rw [hmax]; exact hsp.2) with hok | ⟨k, e, hev, he, hs⟩
    · exact .inl hok
    · refine .inr ⟨k, e, hev, .inr he, ?_⟩
      rcases hs with hs | hs
      · left
        dsimp only at hs hmax hbrk
        omega
      · exact .inr hs
  · refine .inr ⟨0, .initFailed, ?_, .inl rfl, .inl (by omega)⟩
    have hin : SbrkInRange { h with brk := h.startBrk } 4096 := fun _ => by
      have := hf.brkMax
      have := hsp.1
      dsimp only at *
      omega
    rw [mmInit_refused hin (by dsimp only; omega)]
    rfl

/-- A block that is allocated, moved and freed, and a `free` of nothing. -/
def sampleTrace : List TraceOp :=
  [⟨.alloc, 0, 100⟩, ⟨.realloc, 0, 300⟩, ⟨.free, 0, 0⟩, ⟨.free, -1, 0⟩, ⟨.realloc, 1, 0⟩]

theorem eval_mm_valid_accepts_sample :
    ∃ st, evalMmValid mmPackage 2 emptyHeap sampleTrace = some (.ok st) := by
  have hf : Fresh { emptyHeap with brk := emptyHeap.startBrk } := by constructor <;> decide
  have hw : WellFormed 2 (fun _ => .null) sampleTrace :=
    ⟨⟨⟨by decide, by decide⟩, by decide, by decide⟩,
      ⟨⟨by decide, by decide⟩, by decide, by decide⟩,
      .inr ⟨⟨by decide, by decide⟩, by decide⟩, .inl rfl,
      ⟨⟨by decide, by decide⟩, by decide, by decide⟩, trivial⟩
  have hsp : InSpace emptyHeap.maxAddr sampleTrace := ⟨by decide, by decide⟩
  refine (eval_mm_valid_accepts hf hw hsp).resolve_right fun ⟨_, _, _, _, hroom⟩ => ?_
  exact absurd hroom (by decide)

end Driver

end Csapp.Malloc
