import Mathlib
import Csapp.Y86.SeqRefines

/-!
# What a faulting instruction leaves

Of the fourteen branches of `step_state`, `ret`, `rmmovq` and `mrmovq` try their
memory access before they write anything. `call`, `pushq` and `popq` move the
stack pointer first, and when the access then fails the moved pointer stays.
The sequential simulator keeps the updates of an instruction pending until the
next step, which a status other than `STAT_AOK` does not let come.
-/

namespace Csapp.Y86

/-! ## Accesses that fail -/

/-- The byte behind the instruction byte can be read and names a register in its
high half. -/
def NamesRegister (s : State) : Prop :=
  ∃ byte1, getByteVal s.m (s.pc + 1) = some byte1 ∧ regValid (hi4 byte1) = true

/-- The instruction at the program counter is a call, a push or a pop with all its
bytes in memory whose word on the stack is not. -/
def StackFault (s : State) : Prop :=
  ∃ byte0, getByteVal s.m s.pc = some byte0 ∧
    ((IType.ofNibble (hi4 byte0) = .call ∧ ¬NoWord s.m (s.pc + 1) ∧
        NoWord s.m (s.r regRsp - 8)) ∨
      (IType.ofNibble (hi4 byte0) = .pushq ∧ NamesRegister s ∧ NoWord s.m (s.r regRsp - 8)) ∨
      (IType.ofNibble (hi4 byte0) = .popq ∧ NamesRegister s ∧ NoWord s.m (s.r regRsp)))

/-! ## `step_state` -/

/-- The call returns a status other than `STAT_AOK` only with the state it was given. -/
def FaultKeeps (x : State × Stat) (s : State) : Prop := x.2 ≠ .aok → x.1 = s

theorem moved_ne {s : State} {v : Word} (hv : v ≠ s.r regRsp) :
    { s with r := setRegVal s.r regRsp v } ≠ s := by
  intro h
  have hr : setRegVal s.r regRsp v regRsp = s.r regRsp := congrArg (fun s => s.r regRsp) h
  rw [setRegVal_self v (by decide)] at hr
  exact hv hr

theorem faultKeeps_check {s : State} {x : State × Stat} {g : Bool} {e : Stat} :
    FaultKeeps (if !g then (s, e) else x) s ↔ (g = true → FaultKeeps x s) := by
  cases g with
  | false => exact iff_of_true (fun _ => rfl) (fun h => absurd h Bool.false_ne_true)
  | true => exact ⟨fun h _ => h, fun h => h rfl⟩

/-- An access behind a moved stack pointer: the state is kept exactly if it succeeds. -/
theorem faultKeeps_moved {α : Type} {s : State} {x : State × Stat} {v : Word} {o : Option α}
    (hv : v ≠ s.r regRsp) (hn : o = none → x = ({ s with r := setRegVal s.r regRsp v }, .adr))
    (hs : ∀ a, o = some a → x.2 = .aok) : FaultKeeps x s ↔ ¬o = none := by
  cases o with
  | none =>
    rw [hn rfl]
    exact iff_of_false (fun h => moved_ne hv (h nofun)) (fun h => h rfl)
  | some a => exact iff_of_true (fun h => absurd (hs a rfl) h) nofun

theorem execute_faultKeeps {s : State} {d : Decoded} (hc : d.hi0 ≠ .call) (hu : d.hi0 ≠ .pushq)
    (ho : d.hi0 ≠ .popq) : FaultKeeps (execute s d) s := by
  rw [FaultKeeps, execute]
  cases ht : d.hi0 <;> dsimp only
  case call => exact absurd ht hc
  case pushq => exact absurd ht hu
  case popq => exact absurd ht ho
  all_goals
    repeat' split
    all_goals
      first
        | exact fun _ => rfl
        | exact fun h => absurd rfl h

theorem getRegVal_rsp (r : Regs) : getRegVal r regRsp = r regRsp := if_neg (by decide)

theorem sub_eight_ne (w : Word) : w - 8 ≠ w := by
  simp

theorem add_eight_ne (w : Word) : w + 8 ≠ w := by
  simp

theorem execute_call_faultKeeps {s : State} {d : Decoded} (ht : d.hi0 = .call) :
    FaultKeeps (execute s d) s ↔
      (d.ok1 = true → d.okc = true → ¬NoWord s.m (s.r regRsp - 8)) := by
  rw [execute, ht]
  dsimp only
  rw [faultKeeps_check, faultKeeps_check, getRegVal_rsp, ← setWordVal_noWord (v := d.ftpc)]
  refine imp_congr_right fun _ => imp_congr_right fun _ => faultKeeps_moved (sub_eight_ne _) ?_ ?_
  · intro h
    rw [h]
  · intro m h
    rw [h]

theorem execute_pushq_faultKeeps {s : State} {d : Decoded} (ht : d.hi0 = .pushq) :
    FaultKeeps (execute s d) s ↔
      (d.ok1 = true → regValid d.hi1 = true → ¬NoWord s.m (s.r regRsp - 8)) := by
  rw [execute, ht]
  dsimp only
  rw [faultKeeps_check, faultKeeps_check, getRegVal_rsp,
    ← setWordVal_noWord (v := getRegVal s.r d.hi1)]
  refine imp_congr_right fun _ => imp_congr_right fun _ => faultKeeps_moved (sub_eight_ne _) ?_ ?_
  · intro h
    rw [h]
  · intro m h
    rw [h]

theorem execute_popq_faultKeeps {s : State} {d : Decoded} (ht : d.hi0 = .popq) :
    FaultKeeps (execute s d) s ↔
      (d.ok1 = true → regValid d.hi1 = true → ¬NoWord s.m (s.r regRsp)) := by
  rw [execute, ht]
  dsimp only
  rw [faultKeeps_check, faultKeeps_check, getRegVal_rsp, ← getWordVal_noWord]
  refine imp_congr_right fun _ => imp_congr_right fun _ => faultKeeps_moved (add_eight_ne _) ?_ ?_
  · intro h
    rw [h]
  · intro v h
    rw [h]

/-! ## From the bytes -/

/-- The fields of a stack instruction, in terms of what is in memory. -/
theorem decode_stack {s : State} {byte0 : Byte} (h0 : getByteVal s.m s.pc = some byte0) :
    ∃ d, decode s.m s.pc = some d ∧ d.hi0 = IType.ofNibble (hi4 byte0) ∧
      (d.hi0 = .call → d.ok1 = true ∧ (d.okc = true ↔ ¬NoWord s.m (s.pc + 1))) ∧
      (needRegids d.hi0 = true → (NamesRegister s ↔ d.ok1 = true ∧ regValid d.hi1 = true)) := by
  refine ⟨_, by rw [decode, h0], rfl, fun ht => ?_, fun ht => ?_⟩
  · dsimp only at ht ⊢
    rw [ht, ← getWordVal_noWord]
    refine ⟨rfl, ?_⟩
    change (getWordVal s.m (s.pc + 1)).isSome = true ↔ _
    rw [Option.isSome_iff_ne_none]
  · dsimp only at ht ⊢
    rw [NamesRegister, if_pos ht, ht]
    cases getByteVal s.m (s.pc + 1) with
    | none => exact iff_of_false (fun h => nomatch h.choose_spec.1) (fun h => nomatch h.1)
    | some byte1 => simp

/-- The code's promise fails at one kind of state and at no other. -/
theorem stepState_faultKeeps (s : State) : FaultKeeps (stepState s) s ↔ ¬StackFault s := by
  rw [stepState, StackFault]
  cases h0 : getByteVal s.m s.pc with
  | none =>
    have hd : decode s.m s.pc = none := by rw [decode, h0]
    rw [hd]
    exact iff_of_true (fun _ => rfl) (fun h => nomatch h.choose_spec.1)
  | some byte0 =>
    obtain ⟨d, hd, ht, hc, hr⟩ := decode_stack h0
    rw [hd]
    simp only [Option.some.injEq, exists_eq_left', ← ht]
    cases hi : d.hi0
    case call =>
      obtain ⟨h1, h2⟩ := hc hi
      simp [execute_call_faultKeeps hi, h1, h2]
    case pushq => simp [execute_pushq_faultKeeps hi, hr (by rw [hi]; rfl)]
    case popq => simp [execute_popq_faultKeeps hi, hr (by rw [hi]; rfl)]
    all_goals
      refine iff_of_true (execute_faultKeeps ?_ ?_ ?_) ?_ <;> simp [hi]

/-- The start state of a program whose first instruction is `pushq %rax`. -/
def pushFirst : State :=
  newState ⟨fun i => if i = 0 then 0xA0 else if i = 1 then 0x0F else 0, 8192, memSize_lt⟩

theorem pushFirst_fault_moves :
    ¬((stepState pushFirst).2 ≠ .aok → (stepState pushFirst).1 = pushFirst) := by
  intro h
  have hr : (stepState pushFirst).1.r regRsp = pushFirst.r regRsp :=
    congrArg (fun s => s.r regRsp) (h (by decide))
  revert hr
  decide

/-! ## The sequential simulator -/

namespace Seq

/-- The simulator after `k` calls of `sim_step`. -/
def simSteps (x : Sim) : Nat → Sim
  | 0 => x
  | k + 1 => (simStep (simSteps x k)).1

theorem simSteps_succ (x : Sim) (k : Nat) :
    simSteps x (k + 1) = simSteps (simStep x).1 k := by
  induction k with
  | zero => rfl
  | succ k ih => exact congrArg (fun x => (simStep x).1) ih

/-- A step writes what was pending when it was called, and nothing of its own. -/
theorem simStep_writes (x : Sim) :
    (simStep x).1.reg = (updateState x).reg ∧ (simStep x).1.mem = (updateState x).mem ∧
      (simStep x).1.cc = (updateState x).cc := ⟨rfl, rfl, rfl⟩

/-- The first step with another status is the last one. -/
theorem simLoop_stops {n : Nat} {x : RunResult} (hx : x.status = .aok)
    (h : (simLoop n x).status ≠ .aok) :
    ∃ k < n, (∀ i < k, (simStep (simSteps x.sim i)).2 = .aok) ∧
      (simLoop n x).status = (simStep (simSteps x.sim k)).2 ∧
      (simLoop n x).sim = simSteps x.sim (k + 1) := by
  induction n generalizing x with
  | zero => exact absurd hx h
  | succ n ih =>
    rw [simLoop] at h ⊢
    by_cases hs : (simStep x.sim).2 = .aok
    · rw [if_neg (not_not.mpr hs)] at h ⊢
      obtain ⟨k, hk, hbefore, hstat, hsim⟩ := ih hs h
      refine ⟨k + 1, Nat.succ_lt_succ hk, ?_, ?_, ?_⟩
      · intro i hi
        cases i with
        | zero => exact hs
        | succ i =>
          rw [simSteps_succ]
          exact hbefore i (Nat.lt_of_succ_lt_succ hi)
      · rw [simSteps_succ]
        exact hstat
      · rw [simSteps_succ]
        exact hsim
    · rw [if_pos hs]
      exact ⟨0, Nat.succ_pos n, fun i hi => absurd hi (Nat.not_lt_zero i), rfl, rfl⟩

/-- The run ends in the state that the steps before the last one lead to: what the
last one has pending is not applied. -/
def DropsPending (n : Nat) (x : Sim) : Prop :=
  ∃ k < n, (∀ i < k, (simStep (simSteps x i)).2 = .aok) ∧
    (simRun n x).status = (simStep (simSteps x k)).2 ∧
    (simRun n x).sim.reg = (updateState (simSteps x k)).reg ∧
    (simRun n x).sim.mem = (updateState (simSteps x k)).mem ∧
    (simRun n x).sim.cc = (updateState (simSteps x k)).cc

theorem simRun_dropsPending {n : Nat} {x : Sim} (h : (simRun n x).status ≠ .aok) :
    DropsPending n x := by
  obtain ⟨k, hk, hbefore, hstat, hsim⟩ := simLoop_stops rfl h
  refine ⟨k, hk, hbefore, hstat, ?_⟩
  rw [simRun, hsim]
  exact simStep_writes (simSteps x k)

end Seq

/-- A faulting call leaves the state alone except where a stack access fails; the
sequential simulator never writes anything of a faulting instruction. At the last eight
positive addresses, where the test of the source overflows, this is what the test says
when its sum is exact. -/
theorem fault_changes_nothing_iff (s : State) :
    (((stepState s).2 ≠ .aok → (stepState s).1 = s) ∧
      ∀ n x, (Seq.simRun n x).status ≠ .aok → Seq.DropsPending n x) ↔ ¬StackFault s :=
  Iff.trans (and_iff_left fun _ _ => Seq.simRun_dropsPending) (stepState_faultKeeps s)

end Csapp.Y86
