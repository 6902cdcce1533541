import Mathlib
import Csapp.Y86.NcopyRun

/-!
# What `ncopy.ys` reads

`step_state` is a function, so the run to `ret` that `reaches_done` gives is the only
one, and what its steps touch is all that is ever touched. When the tail stops in
the middle of a pair, the second load of the pair is on that run, and its address
is the one behind the source.
-/

namespace Csapp.Y86

variable {base : Nat} {s₀ : State} {k j i : Nat} {held : List (RegId × Nat)} {s : State}

/-- One call of `step_state` before the `ret`. -/
def BeforeRet (s t : State) : Prop := ¬AtRet s ∧ Aok s t

/-- The call comes to its `ret`, and up to there it reads source words and writes
destination words only. -/
structure StaysInside (s₀ : State) : Prop where
  inside : ∀ t, Relation.ReflTransGen BeforeRet s₀ t → ¬AtRet t → Inside s₀ (lenOf s₀) t
  returns : ∃ t, Relation.ReflTransGen BeforeRet s₀ t ∧ AtRet t

theorem beforeRet_deterministic : Relator.RightUnique BeforeRet := by
  intro s t u ht hu
  exact (Prod.mk.inj (ht.2.symm.trans hu.2)).1

theorem Touch.beforeRet {avail : Nat} {s t : State} (h : Touch s₀ avail s t) : BeforeRet s t :=
  ⟨h.2.1, h.1⟩

theorem AtDone.atRet {avail : Nat} (h : Ready s₀ base avail) (hs : AtDone base s₀ s) : AtRet s := by
  obtain ⟨j, rem, hs⟩ := hs
  have hline : decode s.m s.pc = _ := hs.pc ▸ decode_line (hs.code h) (k := 123) rfl
  exact ⟨_, hline, rfl⟩

theorem staysInside (h : Ready s₀ base (lenOf s₀)) (hpaired : ¬Unpaired (lenOf s₀)) :
    StaysInside s₀ := by
  obtain ⟨u, hrun, hu⟩ := reaches_done h fun hodd => absurd hodd hpaired
  have hret := hu.atRet h
  refine ⟨fun t ht hnot => ?_, u, Relation.ReflTransGen.mono (fun _ _ => Touch.beforeRet) _ _ hrun,
    hret⟩
  rcases visited beforeRet_deterministic (fun _ _ => Touch.beforeRet) hrun
    (fun v hv => hv.1 hret) ht with he | ⟨t', ht'⟩
  · exact absurd (he ▸ hret) hnot
  · exact ht'.2.2

/-- The next instruction loads the word behind the source, if there is one. -/
structure Overreads (s₀ s : State) : Prop where
  not_atRet : ¬AtRet s
  outside : ¬Inside s₀ (lenOf s₀) s
  fault : s₀.m.len < srcOf s₀ + 8 * lenOf s₀ + 8 → stepState s = (s, .adr)

theorem Holds.overreads {n t : Nat} {rem : Int} {d : Word} {rA : RegId}
    (h : Ready s₀ base (lenOf s₀)) (hs : Holds base s₀ k j i n rem held s)
    (hk : ncopy[k]? = some (.mrmovq d rdi rA)) (hd : d = BitVec.ofNat 64 (8 * t))
    (hw : lenOf s₀ = j + t) (hpos : 0 < lenOf s₀) (hA : rA ≠ regNone) : Overreads s₀ s := by
  have hsrc := h.src hpos
  have hlen := s₀.m.len_lt
  have ha : d + s.r rdi = BitVec.ofNat 64 (srcOf s₀ + 8 * lenOf s₀) := by
    rw [hs.src, hd, ← BitVec.ofNat_add]
    congr 1
    omega
  refine ⟨not_atRet (hs.code h) hk hs.pc (by simp), fun hin => ?_, fun hend => ?_⟩
  · have hline : decode s.m s.pc = _ := hs.pc ▸ decode_line (hs.code h) hk
    obtain ⟨w, hlt, he⟩ := (hin _ hline).1 _ loadAddr_mrmovq
    have hnat := congrArg BitVec.toNat (ha.symm.trans he)
    rw [BitVec.toNat_ofNat, BitVec.toNat_ofNat] at hnat
    omega
  · refine fault_mrmovq (hs.code h) hk hs.pc hA (by decide) (ha ▸ noWord_past (by omega) ?_)
    rw [hs.len]
    exact hend

theorem reaches_overread (h : Ready s₀ base (lenOf s₀)) (hodd : Unpaired (lenOf s₀)) :
    Reaches (Touch s₀ (lenOf s₀)) s₀ (Overreads s₀) := by
  refine (reaches_words h).andThen ?_
  rintro s (hs | ⟨j, hs, hj, hl, h8⟩)
  · rcases hodd with hodd | hodd | hodd <;> omega
  rcases hodd with hodd | hodd | hodd
  · refine (hs.load (t := 0) h rfl rfl rfl (by omega) (by decide) (by simp)).mono ?_
    intro s hs
    exact hs.overreads (t := 1) h rfl rfl (by omega) (by omega) (by decide)
  · refine (tail_pair₁ h hs hj (by omega)).andThen ?_
    rintro s (hs | ⟨-, hs⟩)
    · omega
    refine (hs.load (t := 2) h rfl rfl rfl (by omega) (by decide) (by simp)).mono ?_
    intro s hs
    exact hs.overreads (t := 3) h rfl rfl (by omega) (by omega) (by decide)
  · refine (tail_pair₁ h hs hj (by omega)).andThen ?_
    rintro s (hs | ⟨-, hs⟩)
    · omega
    refine (tail_pair₂ h hs (by omega) (by omega)).andThen ?_
    rintro s (hs | ⟨-, hs⟩)
    · omega
    refine (hs.load (t := 4) h rfl rfl rfl (by omega) (by decide) (by simp)).mono ?_
    intro s hs
    exact hs.overreads (t := 5) h rfl rfl (by omega) (by omega) (by decide)

theorem not_staysInside (h : Ready s₀ base (lenOf s₀)) (hodd : Unpaired (lenOf s₀)) :
    ¬StaysInside s₀ := by
  intro hstays
  obtain ⟨t, hrun, ht⟩ := reaches_overread h hodd
  exact ht.outside (hstays.inside t
    (Relation.ReflTransGen.mono (fun _ _ => Touch.beforeRet) _ _ hrun) ht.not_atRet)

/-- Where memory ends with the source, the call faults. -/
theorem faults_at_end (h : Ready s₀ base (lenOf s₀)) (hodd : Unpaired (lenOf s₀))
    (hend : s₀.m.len < srcOf s₀ + 8 * lenOf s₀ + 8) :
    Reaches Aok s₀ fun s => (stepState s).2 = .adr := by
  refine ((reaches_overread h hodd).weaken fun s t hst => hst.1).mono ?_
  intro s hs
  rw [hs.fault hend]

/-- `ncopy` stays inside its arrays exactly if the length is not one, three or five
more than a multiple of eight. -/
theorem staysInside_iff (h : Ready s₀ base (lenOf s₀)) :
    StaysInside s₀ ↔ ¬Unpaired (lenOf s₀) :=
  ⟨fun hstays hodd => not_staysInside h hodd hstays, staysInside h⟩

/-- The demo with the three source words at the end of memory. -/
def ncopyEdge : State :=
  { ncopyDemo with r := fun x => if x = rdi then 4072 else ncopyDemo.r x }

theorem ncopyEdge_ready : Ready ncopyEdge 0 (lenOf ncopyEdge) := by
  have h := ncopyDemo_called
  have hsrc : srcOf ncopyEdge = 4072 := rfl
  have hdst : dstOf ncopyEdge = 3072 := rfl
  have hlenOf : lenOf ncopyEdge = 3 := rfl
  have hm : ncopyEdge.m.len = 4096 := rfl
  refine ⟨h.code, rfl, Nat.le_refl _, fun _ => by omega, fun _ => by omega, ?_, h.apart_code⟩
  intro b
  simp only [InDst, InSrc]
  omega

theorem staysInside_iff_edge : StaysInside ncopyEdge ↔ ¬Unpaired (lenOf ncopyEdge) :=
  staysInside_iff ncopyEdge_ready

theorem ncopy_overreads :
    ¬∀ s₀ base, Ready s₀ base (lenOf s₀) → StaysInside s₀ := by
  intro h
  exact not_staysInside ncopyEdge_ready (.inr (.inl rfl)) (h _ _ ncopyEdge_ready)

end Csapp.Y86
