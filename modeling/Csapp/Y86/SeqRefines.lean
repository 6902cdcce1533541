import Mathlib
import Csapp.Y86.Seq

/-!
# The sequential simulator against `step_state`

The signals of one step, applied at the next one, are what `step_state` does in
place: one case per instruction type, once for an arbitrary state. A run then
keeps the pending updates one instruction ahead of the applied ones.
-/

namespace Csapp.Y86.Seq

/-! ## Fetch and decode -/

theorem needRegids_eq (t : IType) : Hcl.needRegids t = needRegids t := by cases t <;> rfl

theorem needValC_eq (t : IType) : Hcl.needValC t = needImm t := by cases t <;> rfl

/-- What `step_state` has decoded, seen as the result of a fetch. -/
def Fetched.ofDecoded (d : Decoded) : Fetched :=
  ⟨false, d.hi0, d.lo0, d.hi1, d.lo1, d.cval, d.ftpc⟩

theorem fetch_eq {m : Mem} {pc : Word} {d : Decoded} (hd : decode m pc = some d)
    (h1 : d.ok1 = true) : fetch m pc = .ofDecoded d := by
  unfold decode at hd
  split at hd
  · cases hd
  · next byte0 h0 =>
      injection hd with hd
      subst hd
      simp only [fetch, Fetched.ofDecoded, h0, Option.isNone_some, Option.getD_some, Hcl.icode,
        Hcl.ifun, needRegids_eq, needValC_eq, Bool.false_eq_true, if_false]
      by_cases hr : needRegids (IType.ofNibble (hi4 byte0)) = true
      · simp only [hr, Bool.not_true, Bool.false_or] at h1
        obtain ⟨byte1, hb⟩ := Option.isSome_iff_exists.mp h1
        simp only [hr, hb, if_true, Option.map_some, Option.getD_some]
      · simp [hr]

/-- `step_state` went on past its address tests. -/
theorem execute_ok1 {s : State} {d : Decoded} (hd : decode s.m s.pc = some d)
    (h : (execute s d).2 = .aok ∨ (execute s d).2 = .hlt) : d.ok1 = true := by
  by_contra hn
  have hn : d.ok1 = false := by simpa using hn
  have hr : needRegids d.hi0 = true := by
    unfold decode at hd
    split at hd
    · cases hd
    · injection hd with hd
      subst hd
      simp at hn
      exact hn.1
  unfold execute at h
  cases ht : d.hi0 <;> simp [ht, needRegids] at hr <;> simp [ht, hn] at h

/-! ## One instruction -/

/-- The state that the signals of `s` describe. -/
def commit (s : State) (g : Signals) : State where
  pc := g.pcIn
  r := setRegVal (setRegVal s.r g.destE g.vale) g.destM g.valm
  m := if g.memWrite then (setWordVal s.m g.memAddr g.memData).getD s.m else s.m
  cc := g.ccIn

theorem setRegVal_none (r : Regs) (v : Word) : setRegVal r regNone v = r := by
  funext x
  simp [setRegVal]

theorem getRegVal_port (r : Regs) (id : RegId) :
    (if id = regNone then 0#64 else getRegVal r id) = getRegVal r id := by
  unfold getRegVal
  split <;> rfl

/-- A base register field that is not valid adds nothing. -/
theorem regValid_base (r : Regs) (id : RegId) (c : Word) :
    (if id = regNone then c else c + getRegVal r id) = c + getRegVal r id := by
  split
  · next h => rw [h]; exact (BitVec.add_zero c).symm
  · rfl

theorem getWordVal_eq_none {m : Mem} {pos : Word} (val : Word) :
    getWordVal m pos = none ↔ setWordVal m pos val = none := by
  unfold getWordVal setWordVal
  split <;> simp

theorem setWordVal_ne_none {m m' : Mem} {pos val : Word} (h : setWordVal m pos val = some m') :
    getWordVal m pos ≠ none := by
  rw [ne_eq, getWordVal_eq_none val, h]
  exact Option.some_ne_none m'

theorem push_addr (a : Word) : 18446744073709551608#64 + a = a - 8#64 := by
  bv_omega

theorem computeAlu_add (a b : Word) : computeAlu aAdd a b = a + b := rfl

/-- The signals are evaluated for each type of instruction; what is left are the
tests of `step_state` and the outcome of its one memory access. -/
theorem signals_commit {s : State} {d : Decoded} {v : Word}
    (h : (execute s d).2 = .aok) :
    (signals s.m s.r s.cc v (.ofDecoded d)).status = .aok ∧
      commit s (signals s.m s.r s.cc v (.ofDecoded d)) = (execute s d).1 := by
  revert h
  unfold execute
  cases ht : d.hi0 <;>
    simp [ht, signals, commit, Fetched.ofDecoded, Hcl.memRead, Hcl.memWrite, Hcl.dstM, dstE, setCC,
      newPc, stat, Hcl.instrValid, setRegVal_none, Hcl.srcA, Hcl.srcB, Hcl.aluA, Hcl.aluB,
      Hcl.alufun, Hcl.memAddr, memData, computeAlu_add, regValid, getRegVal_port, regValid_base,
      push_addr]
  case rrmovq =>
    split_ifs <;> simp [setRegVal_none]
  case irmovq => split_ifs <;> simp
  case rmmovq =>
    split_ifs <;> try simp
    cases hm : setWordVal s.m (d.cval + getRegVal s.r d.lo1) (getRegVal s.r d.hi1) with
    | none => simp
    | some m => simp [setWordVal_ne_none hm]
  case mrmovq =>
    split_ifs <;> try simp
    cases hm : getWordVal s.m (d.cval + getRegVal s.r d.lo1) <;> simp
  case alu => split_ifs <;> simp
  case jmp => split_ifs <;> simp
  case call =>
    split_ifs <;> try simp
    cases hm : setWordVal s.m (getRegVal s.r regRsp - 8#64) d.ftpc with
    | none => simp
    | some m => simp [setWordVal_ne_none hm]
  case ret =>
    cases hm : getWordVal s.m (getRegVal s.r regRsp) <;> simp [BitVec.add_comm]
  case pushq =>
    split_ifs <;> try simp
    cases hm : setWordVal s.m (getRegVal s.r regRsp - 8#64) (getRegVal s.r d.hi1) with
    | none => simp
    | some m => simp [setWordVal_ne_none hm]
  case popq =>
    split_ifs <;> try simp
    cases hm : getWordVal s.m (getRegVal s.r regRsp) <;> simp [BitVec.add_comm]
  case iaddq => split_ifs <;> simp [BitVec.add_comm]

theorem hi0_of_hlt {s : State} {d : Decoded} (h : (execute s d).2 = .hlt) : d.hi0 = .halt := by
  unfold execute at h
  cases ht : d.hi0 <;> simp only [ht] at h ⊢
  all_goals
    exfalso
    revert h
    repeat' split
    all_goals
      intro h
      cases h

theorem execute_halt {s : State} {d : Decoded} (h : d.hi0 = .halt) : execute s d = (s, .hlt) := by
  unfold execute
  rw [h]

theorem signals_halt {s : State} {d : Decoded} {v : Word} (h : d.hi0 = .halt) :
    (signals s.m s.r s.cc v (.ofDecoded d)).status = .hlt ∧
      commit s (signals s.m s.r s.cc v (.ofDecoded d)) = { s with pc := d.ftpc } := by
  simp [h, signals, commit, Fetched.ofDecoded, Hcl.memRead, Hcl.memWrite, Hcl.dstM, dstE, setCC,
    newPc, stat, Hcl.instrValid, setRegVal_none]

/-! ## Runs -/

/-- The pending updates of `x`, applied, give `s`. -/
structure Matches (x : Sim) (s : State) : Prop where
  mem : (updateState x).mem = s.m
  reg : (updateState x).reg = s.r
  cc : (updateState x).cc = s.cc
  pc : (updateState x).pcIn = s.pc

theorem matches_reset (mem : Mem) : Matches (simReset mem) (newState mem) where
  mem := rfl
  reg := by
    change setRegVal (setRegVal (fun _ => 0) regNone 0) regNone 0 = fun _ => 0
    rw [setRegVal_none, setRegVal_none]
  cc := rfl
  pc := rfl

/-- The signals that a step computes when its updated state is `s`. -/
theorem simStep_signals {x : Sim} {s : State} {d : Decoded} (hm : Matches x s)
    (hd : decode s.m s.pc = some d) (h1 : d.ok1 = true) :
    let g := signals s.m s.r s.cc x.valm (.ofDecoded d)
    (simStep x).2 = g.status ∧ (simStep x).1.mem = s.m ∧ (simStep x).1.reg = s.r ∧
      (simStep x).1.cc = s.cc ∧ ((updateState (simStep x).1).mem = (commit s g).m ∧
        (updateState (simStep x).1).reg = (commit s g).r ∧
        (updateState (simStep x).1).cc = (commit s g).cc ∧
        (updateState (simStep x).1).pcIn = (commit s g).pc) := by
  obtain ⟨h2, h3, h4, h5⟩ := hm
  unfold simStep
  dsimp only
  rw [h2, h3, h4, h5, fetch_eq hd h1]
  exact ⟨rfl, rfl, rfl, rfl, rfl, rfl, rfl, rfl⟩

theorem decode_of_ne_adr {s : State} (h : (stepState s).2 ≠ .adr) :
    ∃ d, decode s.m s.pc = some d ∧ stepState s = execute s d := by
  unfold stepState at h ⊢
  cases hd : decode s.m s.pc with
  | none =>
    rw [hd] at h
    exact absurd rfl h
  | some d => exact ⟨d, rfl, rfl⟩

theorem simStep_aok {x : Sim} {s : State} (hm : Matches x s) (h : (stepState s).2 = .aok) :
    (simStep x).2 = .aok ∧ Matches (simStep x).1 (stepState s).1 := by
  obtain ⟨d, hd, he⟩ := decode_of_ne_adr (s := s) (by rw [h]; decide)
  rw [he] at h ⊢
  obtain ⟨g1, -, -, -, g2, g3, g4, g5⟩ := simStep_signals hm hd (execute_ok1 hd (.inl h))
  obtain ⟨hs, hc⟩ := signals_commit (v := x.valm) h
  rw [hc] at g2 g3 g4 g5
  exact ⟨g1.trans hs, g2, g3, g4, g5⟩

theorem simStep_hlt {x : Sim} {s : State} (hm : Matches x s) (h : (stepState s).2 = .hlt) :
    (simStep x).2 = .hlt ∧ (simStep x).1.reg = s.r ∧ (simStep x).1.mem = s.m ∧
      (simStep x).1.cc = s.cc := by
  obtain ⟨d, hd, he⟩ := decode_of_ne_adr (s := s) (by rw [h]; decide)
  rw [he] at h
  obtain ⟨g1, g2, g3, g4, -⟩ := simStep_signals hm hd (execute_ok1 hd (.inr h))
  exact ⟨g1.trans (signals_halt (hi0_of_hlt h)).1, g3, g2, g4⟩

theorem simLoop_halts {k n : Nat} {x : RunResult} {s : State} (hm : Matches x.sim s)
    (h : HaltsAfter s k) (hk : k < n) :
    (simLoop n x).icount = x.icount + k + 1 ∧ (simLoop n x).status = .hlt ∧
      (simLoop n x).sim.reg = (steps s k).r ∧ (simLoop n x).sim.mem = (steps s k).m ∧
      (simLoop n x).sim.cc = (steps s k).cc := by
  induction k generalizing n x s with
  | zero =>
    obtain ⟨n, rfl⟩ : ∃ m, n = m + 1 := ⟨n - 1, by omega⟩
    obtain ⟨h1, h2, h3, h4⟩ := simStep_hlt hm h.hlt
    have hne : (simStep x.sim).2 ≠ .aok := by
      rw [h1]
      decide
    unfold simLoop
    dsimp only
    rw [if_pos hne]
    exact ⟨rfl, h1, h2, h3, h4⟩
  | succ k ih =>
    obtain ⟨n, rfl⟩ : ∃ m, n = m + 1 := ⟨n - 1, by omega⟩
    obtain ⟨h1, h2⟩ := simStep_aok hm (h.aok 0 (Nat.succ_pos k))
    unfold simLoop
    dsimp only
    rw [if_neg (not_not.mpr h1), steps_succ]
    have hr : _ ∧ _ :=
      ih (x := ⟨x.icount + 1, (simStep x.sim).2, (simStep x.sim).1⟩) h2 h.tail
        (Nat.lt_of_succ_lt_succ hk)
    refine ⟨?_, hr.2⟩
    rw [hr.1]
    dsimp only
    omega

/-- A program that `step_state` executes to its halt in `k + 1` calls is
executed by the simulator in as many instructions, with the same result. -/
theorem simRun_refines {mem : Mem} {k maxInstr : Nat} (h : HaltsAfter (newState mem) k)
    (hk : k + 1 ≤ maxInstr) :
    let x := simRun maxInstr (simReset mem)
    let s := steps (newState mem) (k + 1)
    x.icount = k + 1 ∧ x.status = .hlt ∧ x.sim.reg = s.r ∧ x.sim.mem = s.m ∧ x.sim.cc = s.cc := by
  have hl : steps (newState mem) (k + 1) = steps (newState mem) k := by
    obtain ⟨d, hd, he⟩ := decode_of_ne_adr (s := steps (newState mem) k) (by rw [h.hlt]; decide)
    have hh := h.hlt
    rw [he] at hh
    exact (congrArg Prod.fst he).trans (congrArg Prod.fst (execute_halt (hi0_of_hlt hh)))
  obtain ⟨h1, h2⟩ := simLoop_halts (x := ⟨0, .aok, simReset mem⟩) (matches_reset mem) h
    (Nat.lt_of_succ_le hk)
  refine ⟨?_, ?_⟩
  · exact h1.trans (by rw [Nat.zero_add])
  · rw [hl]
    exact h2

/-- `irmovq $5, %rax; irmovq $-7, %rcx; addq %rcx, %rax; rmmovq %rax, 0x40(%rbx); halt`. -/
def storeSum : Mem :=
  ⟨fun a => [0x30, 0xF0, 5, 0, 0, 0, 0, 0, 0, 0, 0x30, 0xF1, 0xF9, 0xFF, 0xFF, 0xFF, 0xFF, 0xFF,
    0xFF, 0xFF, 0x60, 0x10, 0x40, 0x03, 0x40].getD a 0, 8192, memSize_lt⟩

/-- The simulator has written the sum where `step_state` writes it. -/
theorem simRun_refines_sum :
    (simRun 100 (simReset storeSum)).icount = 5 ∧
    (simRun 100 (simReset storeSum)).status = .hlt ∧
    (simRun 100 (simReset storeSum)).sim.reg = (steps (newState storeSum) 5).r ∧
    (simRun 100 (simReset storeSum)).sim.mem = (steps (newState storeSum) 5).m ∧
    (simRun 100 (simReset storeSum)).sim.cc = (steps (newState storeSum) 5).cc ∧
    (steps (newState storeSum) 5).r 0 = -2 ∧
    getWordVal (steps (newState storeSum) 5).m 0x40 = some (-2) ∧
    (steps (newState storeSum) 5).cc ≠ defaultCC := by
  have h : HaltsAfter (newState storeSum) 4 := by
    refine ⟨?_, by decide⟩
    intro i hi
    interval_cases i <;> decide
  obtain ⟨h₁, h₂, h₃, h₄, h₅⟩ := simRun_refines h (show 4 + 1 ≤ 100 by decide)
  exact ⟨h₁, h₂, h₃, h₄, h₅, by decide, by decide, by decide⟩

end Csapp.Y86.Seq
