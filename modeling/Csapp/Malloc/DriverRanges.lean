import Mathlib
import Csapp.Malloc.DriverValid

/-!
# What the driver accepts

The other direction, for any malloc package: what an accepted run says about
the payloads. `add_range` asks whether an end of the new payload is in an old
one, and not whether an end of an old one is in the new one. So of two live
payloads, after an accepted run, either they are apart or the one that came later
reaches over the other at both ends; and a package that does so is accepted.

`Tracked` is the invariant. What the driver forgets of an index, when it takes its
range away, is the same as calling the index freed, so that a realloc is a `remove`
and an `add`.
-/

namespace Csapp.Malloc

namespace Driver

/-- The ranges share no byte. -/
def Apart (r q : Range) : Prop := r.hi < q.lo ∨ q.hi < r.lo

/-- `r` goes over `q` at both ends. -/
def Covers (r q : Range) : Prop := r.lo < q.lo ∧ q.hi < r.hi

/-- A newer range `r` and an older one. -/
def Checked (r q : Range) : Prop := Apart r q ∨ Covers r q

theorem checked_of_not_hits {r q : Range} (h : ¬q.hits r.lo r.hi = true) : Checked r q := by
  rw [hits_iff] at h
  rw [Checked, Apart, Covers]
  omega

/-- What a successful `add_range` has checked. -/
theorem addRange_eq_ok {heapLo heapHi lo size : Nat} {ranges ranges' : List Range}
    (ha : addRange heapLo heapHi ranges lo size = some (.ok ranges')) :
    0 < size ∧ lo % 8 = 0 ∧ (∀ q ∈ ranges, ¬q.hits lo (u32 (lo + size - 1)) = true) ∧
      ranges' = ⟨lo, u32 (lo + size - 1)⟩ :: ranges := by
  rw [addRange] at ha
  dsimp only at ha
  split at ha
  · cases ha
  next h0 =>
    split at ha
    · cases ha
    next h8 =>
      split at ha
      · cases ha
      split at ha
      · cases ha
      · next hnone =>
          cases ha
          exact ⟨Nat.pos_of_ne_zero h0, not_not.mp h8, List.find?_eq_none.mp hnone, rfl⟩

section
variable {H : Type} {P : Package H} {numIds : Nat} {status : Int → Status} {st st' : St H}
  {h : H} {ranges : List Range} {i : Int} {p n : Nat}

/-- What is asked of a package: a block does not go past the end of the address
space, and a realloc to nothing gives `NULL`. -/
structure Package.Sane (P : Package H) : Prop where
  malloc_end : ∀ h h' n p, P.malloc h n = some (h', p) → n < 2147483648 → p + n ≤ 4294967296
  realloc_end : ∀ h h' q n p, P.realloc h q n = some (h', p) → n < 2147483648 →
    p + n ≤ 4294967296
  realloc_zero : ∀ h h' q p, P.realloc h q 0 = some (h', p) → p = 0

/-! ## One request -/

theorem evalAlloc_eq_ok (he : evalAlloc P st i n = some (.ok st')) :
    ∃ h p ranges, P.malloc st.heap n = some (h, p) ∧ p ≠ 0 ∧
      addRange (P.heapLo h) (P.heapHi h) st.ranges p n = some (.ok ranges) ∧
      st' = st.remember P h ranges i p n := by
  rw [evalAlloc] at he
  split at he
  · cases he
  next h p hm =>
    split at he
    · cases he
    next hp =>
      split at he
      · cases he
      · cases he
      · next ranges hadd =>
          cases he
          exact ⟨h, p, ranges, hm, hp, hadd, rfl⟩

theorem evalRealloc_eq_ok (he : evalRealloc P st i n = some (.ok st')) :
    ∃ h p ranges, P.realloc st.heap (st.blocks i) n = some (h, p) ∧ (p = 0 → n = 0) ∧
      (if 0 < n then
        addRange (P.heapLo h) (P.heapHi h) (removeRange st.ranges (st.blocks i)) p n
       else some (.ok (removeRange st.ranges (st.blocks i)))) = some (.ok ranges) ∧
      st' = st.remember P h ranges i p n := by
  rw [evalRealloc] at he
  dsimp only at he
  split at he
  · cases he
  next h p hm =>
    split at he
    · cases he
    next hp =>
      split at he
      · cases he
      · cases he
      · next ranges hadd =>
          split at he
          · cases he
            exact ⟨h, p, ranges, hm, fun h0 => not_not.mp fun hn => hp ⟨h0, hn⟩, hadd, rfl⟩
          · cases he

theorem evalFree_eq_ok (he : evalFree P st i = some (.ok st')) :
    ∃ h, st' = { st with
      heap := h, ranges := if i = -1 then st.ranges else removeRange st.ranges (st.blocks i) } := by
  rw [evalFree] at he
  split at he
  · cases he
  next h hm =>
    cases he
    refine ⟨h, ?_⟩
    by_cases hi : i = -1
    · rw [if_pos hi, if_pos hi]
    · rw [if_neg hi, if_neg hi, if_neg hi]

/-! ## The invariant -/

/-- The payload of an index. -/
def St.payload (st : St H) (i : Int) : Range := toRange (st.blocks i, st.blockSizes i)

/-- What the list of ranges says of the blocks. -/
structure Tracked (status : Int → Status) (st : St H) : Prop where
  pairs : st.ranges.Pairwise Checked
  ends : ∀ r ∈ st.ranges, r.lo ≠ 0 ∧ r.lo % 8 = 0 ∧ r.lo ≤ r.hi
  null : ∀ i, status i = .null → st.blocks i = 0
  held : ∀ i, status i = .live → st.payload i ∈ st.ranges
  distinct : ∀ i j, status i = .live → status j = .live → st.blocks i = st.blocks j → i = j

theorem Tracked.heap (ht : Tracked status st) (h : H) : Tracked status { st with heap := h } :=
  ⟨ht.pairs, ht.ends, ht.null, ht.held, ht.distinct⟩

/-- An index that is not `i`, after `i` has got the status `s`. -/
theorem update_other {s t : Status} {j : Int} (hs : s ≠ t)
    (hj : Function.update status i s j = t) : j ≠ i ∧ status j = t := by
  by_cases h : j = i
  · subst h
    rw [Function.update_self] at hj
    exact absurd hj hs
  · rw [Function.update_of_ne h] at hj
    exact ⟨h, hj⟩

/-- The range of `i` is no more about `i`, whether it is taken from the list or not. -/
theorem Tracked.forget (ht : Tracked status st) (i : Int) :
    Tracked (Function.update status i .freed) st :=
  ⟨ht.pairs, ht.ends, fun j hj => ht.null j (update_other (by decide) hj).2,
    fun j hj => ht.held j (update_other (by decide) hj).2,
    fun j k hj hk => ht.distinct j k (update_other (by decide) hj).2
      (update_other (by decide) hk).2⟩

theorem Tracked.remove (ht : Tracked status st) (hs : status i = .live) :
    Tracked (Function.update status i .freed)
      { st with ranges := removeRange st.ranges (st.blocks i) } := by
  have hf := ht.forget i
  refine ⟨ht.pairs.sublist List.eraseP_sublist,
    fun r hr => ht.ends r (List.mem_of_mem_eraseP hr), hf.null, fun j hj => ?_, hf.distinct⟩
  obtain ⟨hji, hj'⟩ := update_other (by decide) hj
  have hne : st.blocks j ≠ st.blocks i := fun he => hji (ht.distinct j i hj' hs he)
  refine (List.mem_eraseP_of_neg ?_).mpr (ht.held j hj')
  rw [decide_eq_true_eq]
  exact hne

/-- No range is at `NULL`. -/
theorem Tracked.remove_null (ht : Tracked status st) (hs : status i = .null) :
    removeRange st.ranges (st.blocks i) = st.ranges :=
  List.eraseP_of_forall_not fun r hr => by
    simpa only [ht.null i hs, decide_eq_true_eq] using (ht.ends r hr).1

/-- A realloc and a `free` of `i` both begin so. -/
theorem Tracked.removed (ht : Tracked status st) (hs : status i ≠ .freed) :
    Tracked (Function.update status i .freed)
      { st with ranges := removeRange st.ranges (st.blocks i) } := by
  match hi : status i with
  | .null =>
      rw [ht.remove_null hi]
      exact ht.forget i
  | .live => exact ht.remove hi
  | .freed => exact absurd hi hs

theorem Tracked.add {heapLo heapHi : Nat}
    (ht : Tracked (Function.update status i .freed) st)
    (ha : addRange heapLo heapHi st.ranges p n = some (.ok ranges)) (hp : p ≠ 0)
    (hend : p + n ≤ 4294967296) :
    Tracked (Function.update status i .live) (st.remember P h ranges i p n) := by
  obtain ⟨hn, h8, hhits, rfl⟩ := addRange_eq_ok ha
  have hhi : u32 (p + n - 1) = p + n - 1 := Nat.mod_eq_of_lt (by omega)
  rw [hhi] at hhits ⊢
  -- what is known of an index other than `i` is what `ht` says of it
  have hother : ∀ {j : Int} {t : Status}, j ≠ i → Function.update status i .live j = t →
      Function.update status i .freed j = t := by
    intro j t hj h
    rwa [Function.update_of_ne hj] at h ⊢
  have hold : ∀ {j : Int}, j ≠ i → Function.update status i .live j = .live →
      st.blocks j ≠ p := by
    intro j hj h heq
    have hmem := ht.held j (hother hj h)
    have hle := (ht.ends _ hmem).2.2
    refine hhits _ hmem (hits_iff.mpr (.inl ⟨Nat.le_of_eq heq, ?_⟩))
    exact Nat.le_trans (Nat.le_of_eq heq.symm) hle
  refine ⟨List.pairwise_cons.mpr ⟨fun q hq => ?_, ht.pairs⟩,
    List.forall_mem_cons.mpr ⟨⟨hp, h8, by dsimp only; omega⟩, ht.ends⟩, fun j hj => ?_,
    fun j hj => ?_, fun j k hj hk hjk => ?_⟩
  · exact checked_of_not_hits (hhits q hq)
  · have hji := (update_other (by decide) hj).1
    simpa only [St.remember, Function.update_of_ne hji] using ht.null j (hother hji hj)
  · by_cases hji : j = i
    · subst hji
      simp [St.payload, St.remember, toRange]
    · have hmem := ht.held j (hother hji hj)
      simpa only [St.payload, St.remember, Function.update_of_ne hji] using
        List.mem_cons_of_mem _ hmem
  · simp only [St.remember] at hjk
    by_cases hji : j = i
    · by_cases hki : k = i
      · exact hji.trans hki.symm
      · rw [hji, Function.update_self, Function.update_of_ne hki] at hjk
        exact absurd hjk.symm (hold hki hk)
    · by_cases hki : k = i
      · rw [hki, Function.update_self, Function.update_of_ne hji] at hjk
        exact absurd hjk (hold hji hj)
      · rw [Function.update_of_ne hji, Function.update_of_ne hki] at hjk
        exact ht.distinct j k (hother hji hj) (hother hki hk) hjk

/-- A realloc to nothing. -/
theorem Tracked.clear (ht : Tracked (Function.update status i .freed) st) :
    Tracked (Function.update status i .null) (st.remember P h st.ranges i 0 0) := by
  have hother : ∀ {j : Int}, Function.update status i .null j = .live →
      j ≠ i ∧ Function.update status i .freed j = .live := by
    intro j h
    obtain ⟨hji, hj⟩ := update_other (by decide) h
    exact ⟨hji, by rwa [Function.update_of_ne hji]⟩
  refine ⟨ht.pairs, ht.ends, fun j hj => ?_, fun j hj => ?_, fun j k hj hk hjk => ?_⟩
  · by_cases hji : j = i
    · rw [hji]
      exact Function.update_self ..
    · rw [Function.update_of_ne hji] at hj
      simpa only [St.remember, Function.update_of_ne hji] using
        ht.null j (by rwa [Function.update_of_ne hji])
  · obtain ⟨hji, hj'⟩ := hother hj
    simpa only [St.payload, St.remember, Function.update_of_ne hji] using ht.held j hj'
  · obtain ⟨hji, hj'⟩ := hother hj
    obtain ⟨hki, hk'⟩ := hother hk
    simp only [St.remember, Function.update_of_ne hji, Function.update_of_ne hki] at hjk
    exact ht.distinct j k hj' hk' hjk

/-! ## The run -/

theorem Tracked.op {op : TraceOp} (hP : P.Sane) (ht : Tracked status st)
    (hw : Proper numIds status op) (he : evalOp P numIds st op = some (.ok st')) :
    Tracked (after status op) st' := by
  obtain ⟨type, i, n⟩ := op
  rw [evalOp] at he
  split at he
  · cases he
  cases type with
  | alloc =>
      obtain ⟨-, -, hn⟩ := hw
      obtain ⟨h, p, ranges, hm, hp, hadd, rfl⟩ := evalAlloc_eq_ok he
      exact (ht.forget i).add hadd hp (hP.malloc_end _ _ _ _ hm hn)
  | realloc =>
      obtain ⟨-, hn, hs⟩ := hw
      obtain ⟨h, p, ranges, hm, hp, hadd, rfl⟩ := evalRealloc_eq_ok he
      have hr := ht.removed hs
      by_cases h0 : n = 0
      · subst h0
        cases hadd
        cases hP.realloc_zero _ _ _ _ hm
        exact hr.clear
      · rw [if_pos (Nat.pos_of_ne_zero h0)] at hadd
        have hadded := hr.add (P := P) (h := h) hadd (fun hp0 => h0 (hp hp0))
          (hP.realloc_end _ _ _ _ _ hm hn)
        simp only [after, if_neg h0]
        exact hadded
  | free =>
      obtain ⟨h, rfl⟩ := evalFree_eq_ok he
      by_cases hi : i = -1
      · simpa only [after, hi, true_or, if_true] using ht.heap h
      · obtain ⟨-, hs⟩ := hw.resolve_left hi
        simp only [after, hi, false_or, if_false]
        by_cases h0 : status i = .null
        · rw [if_pos h0, ht.remove_null h0]
          exact ht.heap h
        · rw [if_neg h0]
          exact (ht.removed hs).heap h

theorem Tracked.ops (hP : P.Sane) : ∀ {ops : List TraceOp} {status : Int → Status} {k : Nat}
    {st st' : St H}, Tracked status st → WellFormed numIds status ops →
    evalOps P numIds k st ops = some (.ok st') → Tracked (ops.foldl after status) st'
  | [], _, _, _, _, ht, _, he => by
      cases he
      exact ht
  | _ :: _, _, _, _, _, ht, hw, he => by
      rw [evalOps] at he
      split at he
      · cases he
      · cases he
      · next hop =>
          rw [List.foldl_cons]
          exact Tracked.ops hP (ht.op hP hw.1 hop) hw.2 he

/-- After a run that `eval_mm_valid` accepts, of a proper trace and any sane package:
the payloads of two indices are aligned, and apart unless one covers the other. -/
theorem accepted_payloads {h : H} {ops : List TraceOp} {i j : Int} (hP : P.Sane)
    (hw : WellFormed numIds (fun _ => .null) ops)
    (he : evalMmValid P numIds h ops = some (.ok st))
    (hi : ops.foldl after (fun _ => .null) i = .live)
    (hj : ops.foldl after (fun _ => .null) j = .live) (hij : i ≠ j) :
    st.blocks i % 8 = 0 ∧ st.blocks j % 8 = 0 ∧
      (Apart (st.payload i) (st.payload j) ∨ Covers (st.payload i) (st.payload j) ∨
        Covers (st.payload j) (st.payload i)) := by
  rw [evalMmValid] at he
  split at he
  · cases he
  next h' r hinit =>
    split at he
    · cases he
    have hstart : Tracked (fun _ => .null) (⟨h', [], fun _ => 0, fun _ => 0⟩ : St H) :=
      ⟨List.Pairwise.nil, fun r hr => absurd hr List.not_mem_nil, fun _ _ => rfl,
        fun _ hs => Status.noConfusion hs, fun _ _ hs => Status.noConfusion hs⟩
    have ht := hstart.ops hP hw he
    have hmi := ht.held i hi
    have hmj := ht.held j hj
    have hne : st.payload i ≠ st.payload j := fun heq =>
      hij (ht.distinct i j hi hj (congrArg Range.lo heq))
    refine ⟨(ht.ends _ hmi).2.1, (ht.ends _ hmj).2.1, ?_⟩
    -- which of the two is the newer one is not known here
    have : Std.Symm fun r q => Checked r q ∨ Checked q r := ⟨fun _ _ => Or.symm⟩
    have hpairs : st.ranges.Pairwise fun r q => Checked r q ∨ Checked q r := ht.pairs.imp Or.inl
    rcases hpairs.forall hmi hmj hne with (ha | hc) | (ha | hc)
    · exact .inl ha
    · exact .inr (.inl hc)
    · exact .inl ha.symm
    · exact .inr (.inr hc)

end

/-- A package that puts its second block around the first. -/
def around : Package Nat where
  resetBrk _ := 0
  init _ := some (0, 0)
  malloc h _ := some (h + 1, if h = 0 then 16 else 8)
  realloc _ _ _ := none
  free h _ := some h
  mem _ := fun _ => 0
  setMem h _ := h
  heapLo _ := 0
  heapHi _ := 4096

/-- Two requests, the second of which `around` places around the first. -/
def aroundTrace : List TraceOp := [⟨.alloc, 0, 8⟩, ⟨.alloc, 1, 24⟩]

theorem accepted_payloads_around :
    ∃ st, evalMmValid around 2 0 aroundTrace = some (.ok st) ∧
      Covers (st.payload 1) (st.payload 0) ∧
      (Apart (st.payload 0) (st.payload 1) ∨ Covers (st.payload 0) (st.payload 1) ∨
        Covers (st.payload 1) (st.payload 0)) := by
  have hP : around.Sane := by
    refine ⟨fun h h' n p hm hn => ?_, fun _ _ _ _ _ hm => ?_, fun _ _ _ _ hm => ?_⟩
    · cases hm
      split <;> omega
    · cases hm
    · cases hm
  have hw : WellFormed 2 (fun _ => .null) aroundTrace :=
    ⟨⟨⟨by decide, by decide⟩, by decide, by decide⟩,
      ⟨⟨by decide, by decide⟩, by decide, by decide⟩, trivial⟩
  refine ⟨_, rfl, ⟨by decide, by decide⟩, ?_⟩
  exact (accepted_payloads (h := 0) (i := 0) (j := 1) hP hw rfl rfl rfl (by decide)).2.2

end Driver

end Csapp.Malloc
