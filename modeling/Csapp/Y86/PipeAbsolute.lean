import Mathlib
import Csapp.Y86.PipeRefines

/-!
# Memory operands without a base register

`RNONE` in the field rB stands for no base register, and in a destination field
for no destination. The forwarding chain of `d_valB` compares the two, so the
base of an absolute operand is taken from the youngest older instruction that
leaves a destination free. In every reachable state the base is zero exactly
when the value found that way happens to be zero; which value it is can be read
off the instructions in E, M and W.
-/

namespace Csapp.Y86.Pipe

/-! ## Reachable states -/

/-- The states between two calls of `sim_step_pipe`. -/
inductive Reach : Sim → Prop
  | reset {mem} : Reach (simReset mem)
  | step {s k} : Reach s → Reach (simStepPipe k s).1

/-- Which destination fields an instruction can have. -/
structure Ports (icode : IType) (deste destm : RegId) : Prop where
  load : icode ∉ [.mrmovq, .popq] → destm = regNone
  stack : icode ∈ [.pushq, .popq, .call, .ret] → deste = regRsp
  free : icode ∉ [.rrmovq, .irmovq, .alu, .iaddq, .pushq, .popq, .call, .ret] → deste = regNone

/-- What holds after every clock edge: the destination fields fit their
instructions, only a read leaves a value in W, and behind a `ret` there are
bubbles. -/
structure Sane (p : Stages) : Prop where
  portsE : Ports p.E.icode p.E.deste p.E.destm
  portsM : Ports p.M.icode p.M.deste p.M.destm
  portsW : Ports p.W.icode p.W.deste p.W.destm
  valm : p.W.icode ∉ [.mrmovq, .popq, .ret] → p.W.valm = 0
  statD : p.D.icode = .ret → p.D.status = .aok
  statE : p.E.icode = .ret → p.E.status = .aok
  statM : p.M.icode = .ret → p.M.status = .aok
  failW : p.W.icode = .ret → exceptional p.W.status = true → p.W.valm = 0
  retE : p.E.icode = .ret → p.D.icode = .nop
  retM : p.M.icode = .ret → p.E.icode = .nop ∧ p.D.icode = .nop
  retW : p.W.icode = .ret → p.W.valm = 0 ∨ p.D.icode = .nop

theorem Ports.nop : Ports .nop regNone regNone := by
  refine ⟨fun _ => rfl, ?_, fun _ => rfl⟩
  intro h
  revert h
  decide

theorem sane_bubbles : Sane bubbles where
  portsE := Ports.nop
  portsM := Ports.nop
  portsW := Ports.nop
  valm _ := rfl
  statD h := by cases h
  statE h := by cases h
  statM h := by cases h
  failW h := by cases h
  retE h := by cases h
  retM h := by cases h
  retW h := by cases h

theorem dPorts (D : IfId) : Ports D.icode (dDstE D) (Hcl.dstM D.icode D.ra) := by
  refine ⟨?_, ?_, ?_⟩
  · intro h
    exact if_neg h
  · intro h
    unfold dDstE
    rw [if_neg, if_pos h]
    revert h
    cases D.icode <;> decide
  · intro h
    unfold dDstE
    rw [if_neg, if_neg]
    · revert h
      cases D.icode <;> decide
    · revert h
      cases D.icode <;> decide

theorem Ports.execute {E : IdEx} {cnd : Bool} (h : Ports E.icode E.deste E.destm) :
    Ports E.icode (eDstE E cnd) E.destm := by
  unfold eDstE
  refine ⟨h.load, ?_, ?_⟩
  · intro hi
    rw [if_neg]
    · exact h.stack hi
    · intro hr
      rw [hr.1] at hi
      revert hi
      decide
  · intro hi
    split
    · rfl
    · exact h.free hi

theorem fetch_ret {mem : Mem} {pc : Word} (h : (fetch mem pc).icode = .ret) :
    (fetch mem pc).status = .aok := by
  unfold fetch at h ⊢
  dsimp only at h ⊢
  rw [h]
  unfold fStat
  rw [if_neg]
  · rfl
  · intro hn
    rw [hn] at h
    cases h

/-! ## The registers after an edge -/

theorem cycle_D_cases (c : Sim) : (cycle c).curr.D = ifOut c ∨ (cycle c).curr.D = c.curr.D ∨
    (cycle c).curr.D.icode = .nop := by
  rw [cycle_D]
  cases pipeCntl _ _
  · exact .inl rfl
  · exact .inr (.inl rfl)
  · exact .inr (.inr rfl)
  · exact .inr (.inr rfl)

/-- E takes what decode computed or a bubble. -/
theorem cycle_E_cases (c : Sim) :
    ((cycle c).curr.E = idOut c ∧ loadUse c.curr.E (idOut c) = false) ∨
      (cycle c).curr.E = bubbleIdEx := by
  rw [cycle_E]
  cases hl : loadUse c.curr.E (idOut c) <;> cases mispredicted c.curr.E (exOut c)
  · exact .inl ⟨rfl, rfl⟩
  · exact .inr rfl
  · exact .inr rfl
  · exact .inr rfl

theorem cycle_M_cases (c : Sim) :
    (cycle c).curr.M = exOut c ∨ (cycle c).curr.M = bubbleExMem := by
  have hm : (cycle c).curr.M = latch bubbleExMem { bubbleExMem with status := .pip }
    (pipeCntl false (mBubble (memOut c).next c.curr.W)) c.curr.M (exOut c) := rfl
  rw [hm]
  cases mBubble (memOut c).next c.curr.W
  · exact .inl rfl
  · exact .inr rfl

theorem cycle_W_cases (c : Sim) : (cycle c).curr.W = (memOut c).next ∨
    ((cycle c).curr.W = c.curr.W ∧ exceptional c.curr.W.status = true) := by
  cases h : exceptional c.curr.W.status with
  | false => exact .inl (cycle_W h)
  | true =>
    refine .inr ⟨?_, rfl⟩
    change latch _ _ (pipeCntl (exceptional c.curr.W.status) false) _ _ = _
    rw [h]
    rfl

theorem memOut_valm {c : Sim} (h : c.curr.M.icode ∉ [.mrmovq, .popq, .ret]) :
    (memOut c).next.valm = 0 := by
  change (if Hcl.memRead c.curr.M.icode then _ else _) = _
  rw [if_neg]
  unfold Hcl.memRead
  rw [decide_eq_false h]
  exact Bool.false_ne_true

/-- Only a failing read gives a sound instruction an exceptional status, and then
there is no value. -/
theorem memOut_fail {c : Sim} (hs : c.curr.M.status = .aok)
    (he : exceptional (memOut c).next.status = true) : (memOut c).next.valm = 0 := by
  change exceptional (mStat ((Hcl.memRead c.curr.M.icode || Hcl.memWrite c.curr.M.icode) &&
    (getWordVal c.mem _).isNone) c.curr.M) = true at he
  change (if Hcl.memRead c.curr.M.icode then (getWordVal c.mem _).getD 0 else 0) = 0
  cases hw : getWordVal c.mem (Hcl.memAddr c.curr.M.icode c.curr.M.vale c.curr.M.vala) with
  | none => split <;> rfl
  | some v =>
    rw [hw] at he
    unfold mStat at he
    rw [Option.isNone_some, Bool.and_false, if_neg Bool.false_ne_true, hs] at he
    cases he

theorem Sane.behind_ret {c : Sim} (h : Sane c.curr)
    (hr : c.curr.E.icode = .ret ∨ c.curr.M.icode = .ret) : (cycle c).curr.D.icode = .nop := by
  have hl : loadUse c.curr.E (idOut c) = false := by
    refine loadUse_of_icode ?_
    rcases hr with hr | hr
    · rw [hr]
      decide
    · rw [(h.retM hr).1]
      decide
  rw [cycle_ret hl]
  · rfl
  · unfold retInside
    rcases hr with hr | hr <;> rw [hr] <;> simp

theorem Sane.step {c : Sim} (h : Sane c.curr) : Sane (cycle c).curr where
  portsE := by
    rcases cycle_E_cases c with ⟨he, -⟩ | he
    · rw [he]
      exact dPorts c.curr.D
    · rw [he]
      exact Ports.nop
  portsM := by
    rcases cycle_M_cases c with hm | hm
    · rw [hm]
      exact h.portsE.execute
    · rw [hm]
      exact Ports.nop
  portsW := by
    rcases cycle_W_cases c with hw | ⟨hw, -⟩
    · rw [hw]
      exact h.portsM
    · rw [hw]
      exact h.portsW
  valm := by
    rcases cycle_W_cases c with hw | ⟨hw, -⟩
    · rw [hw]
      exact memOut_valm
    · rw [hw]
      exact h.valm
  statD := by
    rcases cycle_D_cases c with hd | hd | hd
    · rw [hd]
      exact fetch_ret
    · rw [hd]
      exact h.statD
    · intro hr
      rw [hd] at hr
      cases hr
  statE := by
    rcases cycle_E_cases c with ⟨he, -⟩ | he
    · rw [he]
      exact h.statD
    · intro hr
      rw [he] at hr
      cases hr
  statM := by
    rcases cycle_M_cases c with hm | hm
    · rw [hm]
      exact h.statE
    · intro hr
      rw [hm] at hr
      cases hr
  failW := by
    rcases cycle_W_cases c with hw | ⟨hw, -⟩
    · rw [hw]
      intro hr
      exact memOut_fail (h.statM hr)
    · rw [hw]
      exact h.failW
  retE := by
    rcases cycle_E_cases c with ⟨he, hl⟩ | he
    · intro hr
      rw [he] at hr
      rw [cycle_ret hl]
      · rfl
      · unfold retInside
        rw [show c.curr.D.icode = .ret from hr]
        rfl
    · intro hr
      rw [he] at hr
      cases hr
  retM := by
    intro hr
    rcases cycle_M_cases c with hm | hm
    · have hE : c.curr.E.icode = .ret := by
        rw [hm] at hr
        exact hr
      refine ⟨?_, h.behind_ret (.inl hE)⟩
      rcases cycle_E_cases c with ⟨he, -⟩ | he
      · rw [he]
        exact h.retE hE
      · rw [he]
        rfl
    · rw [hm] at hr
      cases hr
  retW := by
    intro hr
    rcases cycle_W_cases c with hw | ⟨hw, he⟩
    · rw [hw] at hr
      exact .inr (h.behind_ret (.inr hr))
    · rw [hw] at hr ⊢
      exact .inl (h.failW hr he)

/-- A state between two calls is the reset state or has just been computed from
registers that are sane. -/
theorem Reach.sane {s : Sim} (h : Reach s) :
    (∃ mem, s = simReset mem) ∨ ∃ c, s = doStages c ∧ Sane c.curr := by
  induction h with
  | @reset mem => exact .inl ⟨mem, rfl⟩
  | step _ ih =>
    refine .inr ⟨_, rfl, ?_⟩
    rcases ih with ⟨mem, rfl⟩ | ⟨c, rfl, hc⟩
    · exact sane_bubbles
    · exact hc.step

/-! ## When the base is zero -/

/-- W forwards zero for `RNONE`. -/
def QuietW (W : MemWb) : Prop :=
  match W.icode with
  | .mrmovq => if W.destm = regNone then W.valm = 0 else W.vale = 0
  | .popq => if W.destm = regNone then W.valm = 0 else True
  | _ => True

/-- M, or else W, forwards zero for `RNONE`. -/
def QuietM (mem : Mem) (M : ExMem) (W : MemWb) : Prop :=
  match M.icode with
  | .mrmovq => if M.destm = regNone then (getWordVal mem M.vale).getD 0 = 0 else M.vale = 0
  | .popq => if M.destm = regNone then (getWordVal mem M.vala).getD 0 = 0 else QuietW W
  | _ => True

/-- The instruction in E writes a register through its ALU port, and then `rest`
decides, or its ALU result is zero. -/
def QuietE (cc : CC) (E : IdEx) (rest : Prop) : Prop :=
  match E.icode with
  | .rmmovq | .mrmovq => E.valc + E.valb = 0
  | .rrmovq => if condHolds cc E.ifun = false ∨ E.deste = regNone then E.vala = 0 else rest
  | .irmovq => if E.deste = regNone then E.valc = 0 else rest
  | .iaddq => if E.deste = regNone then E.valc + E.valb = 0 else rest
  | .alu => if E.deste = regNone then computeAlu E.ifun E.vala E.valb = 0 else rest
  | .pushq | .popq | .call | .ret => rest
  | _ => True

/-- No older instruction drives a value into a base that is not there. -/
def Quiet (s : Sim) : Prop := QuietE s.cc s.curr.E (QuietM s.mem s.curr.M s.curr.W)

/-- What the chain gives for `RNONE` from W on. -/
def noneW (W : MemWb) : Word :=
  if regNone = W.destm then W.valm else if regNone = W.deste then W.vale else 0

/-- What it gives from M on. -/
def noneM (M : ExMem) (m W : MemWb) : Word :=
  if regNone = M.destm then m.valm else if regNone = M.deste then M.vale else noneW W

theorem forward_none (e M : ExMem) (m W : MemWb) :
    forward regNone e M m W 0 = if e.deste = regNone then e.vale else noneM M m W := by
  rw [if_congr (eq_comm (a := e.deste)) rfl rfl]
  rfl

theorem Sane.noneW_iff {p : Stages} (h : Sane p) (hd : p.D.icode ≠ .nop) :
    noneW p.W = 0 ↔ QuietW p.W := by
  have hports := h.portsW
  have hret : p.W.icode = .ret → p.W.valm = 0 := fun hr => (h.retW hr).resolve_right hd
  have hval := h.valm
  revert hports hret hval
  unfold noneW QuietW
  cases hi : p.W.icode
  case mrmovq =>
    intro hp _ _
    dsimp only
    rw [hp.free (by decide), if_pos rfl]
    simp only [eq_comm (a := regNone)]
    split <;> rfl
  case popq =>
    intro hp _ _
    dsimp only
    rw [hp.stack (by decide), if_neg (by decide : regNone ≠ regRsp)]
    simp only [eq_comm (a := regNone)]
    split <;> simp
  case ret =>
    intro hp hr _
    dsimp only
    rw [hp.load (by decide), if_pos rfl, hr rfl]
    simp
  all_goals
    intro hp _ hv
    dsimp only
    rw [hp.load (by decide), if_pos rfl, hv (by decide)]
    simp

theorem Sane.noneM_iff {c : Sim} (h : Sane c.curr) (hd : c.curr.D.icode ≠ .nop) :
    noneM c.curr.M (memOut c).next c.curr.W = 0 ↔ QuietM c.mem c.curr.M c.curr.W := by
  have hports := h.portsM
  have hret : c.curr.M.icode ≠ .ret := fun hr => hd (h.retM hr).2
  have hval : (memOut c).next.valm = if Hcl.memRead c.curr.M.icode then
    (getWordVal c.mem (Hcl.memAddr c.curr.M.icode c.curr.M.vale c.curr.M.vala)).getD 0 else 0 := rfl
  revert hports hret hval
  unfold noneM QuietM
  cases hi : c.curr.M.icode
  case mrmovq =>
    intro hp _ hv
    dsimp only
    rw [hp.free (by decide), if_pos rfl, hv]
    simp only [eq_comm (a := regNone)]
    split <;> rfl
  case popq =>
    intro hp _ hv
    dsimp only
    rw [hp.stack (by decide), if_neg (by decide : regNone ≠ regRsp), hv]
    simp only [eq_comm (a := regNone)]
    split
    · rfl
    · exact h.noneW_iff hd
  case ret =>
    intro _ hr _
    exact absurd rfl hr
  all_goals
    intro hp _ hv
    dsimp only
    rw [hp.load (by decide), if_pos rfl, hv]
    simp [Hcl.memRead]

theorem eDstE_of_ne {E : IdEx} {cnd : Bool} (h : E.icode ≠ .rrmovq) :
    eDstE E cnd = E.deste := if_neg fun hn => h hn.1

theorem Ports.noneE_iff {cc : CC} {E : IdEx} (h : Ports E.icode E.deste E.destm) {rest : Word}
    {P : Prop} (hr : rest = 0 ↔ P) :
    (if eDstE E (condHolds cc E.ifun) = regNone then eValE E else rest) = 0 ↔
      QuietE cc E P := by
  have hs := h.stack
  have hf := h.free
  have hne : E.icode ≠ .rrmovq → eDstE E (condHolds cc E.ifun) = E.deste := eDstE_of_ne
  revert hs hf hne
  unfold QuietE eValE
  cases hi : E.icode
  case rmmovq | mrmovq =>
    intro _ hf hne
    rw [hne (by decide), if_pos (hf (by decide))]
    rfl
  case rrmovq =>
    intro _ _ _
    unfold eDstE
    rw [hi]
    cases condHolds cc E.ifun
    · simp [Hcl.alufun, Hcl.aluA, Hcl.aluB, Seq.computeAlu_add]
    · simp only [Bool.true_eq_false, and_false, if_false, false_or]
      split
      · simp [Hcl.alufun, Hcl.aluA, Hcl.aluB, Seq.computeAlu_add]
      · exact hr
  case irmovq | iaddq | alu =>
    intro _ _ hne
    rw [hne (by decide)]
    dsimp only
    split
    · simp [Hcl.alufun, Hcl.aluA, Hcl.aluB, Seq.computeAlu_add]
    · exact hr
  case pushq | popq | call | ret =>
    intro hs _ hne
    rw [hne (by decide), hs (by decide), if_neg (by decide)]
    exact hr
  all_goals
    intro _ hf hne
    rw [hne (by decide), if_pos (hf (by decide))]
    simp [Hcl.alufun, Hcl.aluA, Hcl.aluB, Seq.computeAlu_add]

/-- For an absolute operand in D that moves to E, the latched base is zero in
exactly the quiet states. -/
theorem absolute_valb_iff {s : Sim} (h : Reach s) (hd : s.curr.D.icode ∈ [.rmmovq, .mrmovq])
    (hb : s.curr.D.rb = regNone) (ho : s.ops.E = .load) : s.next.E.valb = 0 ↔ Quiet s := by
  rcases h.sane with ⟨mem, rfl⟩ | ⟨c, rfl, hs⟩
  · have hn : IType.nop ∉ [.rmmovq, .mrmovq] := by decide
    exact absurd hd hn
  · have hd : c.curr.D.icode ∈ [.rmmovq, .mrmovq] := hd
    have hb : c.curr.D.rb = regNone := hb
    have hnop : c.curr.D.icode ≠ .nop := by
      intro hn
      rw [hn] at hd
      revert hd
      decide
    have hsrc : Hcl.srcB c.curr.D.icode c.curr.D.rb = regNone := by
      rw [hb]
      rw [List.mem_cons, List.mem_singleton] at hd
      rcases hd with hd | hd <;> rw [hd] <;> rfl
    have hval : (doStages c).next.E.valb =
        if (exOut c).deste = regNone then (exOut c).vale
        else noneM c.curr.M (memOut c).next c.curr.W := by
      rw [← forward_none]
      change forward (Hcl.srcB c.curr.D.icode c.curr.D.rb) _ _ _ _ (getRegVal _ _) = _
      rw [hsrc]
      rfl
    rw [hval]
    exact hs.portsE.noneE_iff (hs.noneM_iff hnop)

/-- The simulator after `n` cycles. -/
def after (mem : Mem) : Nat → Sim
  | 0 => simReset mem
  | n + 1 => (simStepPipe 100 (after mem n)).1

theorem reach_after (mem : Mem) (n : Nat) : Reach (after mem n) := by
  induction n with
  | zero => exact .reset
  | succ n ih => exact .step ih

/-- `mrmovq 0, %rax; popq %rbx; irmovq $5, %rcx; rmmovq %rax, 0x40; halt`. -/
def storeFourth : Mem :=
  ⟨fun a => [0x50, 0x0F, 0, 0, 0, 0, 0, 0, 0, 0, 0xB0, 0x3F, 0x30, 0xF1, 5, 0, 0, 0, 0, 0, 0, 0,
    0x40, 0x0F, 0x40].getD a 0, 8192, memSize_lt⟩

/-- The three instructions in front of the store leave its base alone. -/
theorem absolute_valb_iff_fourth : (after storeFourth 5).curr.E.icode = .irmovq ∧
    (after storeFourth 5).curr.M.icode = .popq ∧ (after storeFourth 5).curr.W.icode = .mrmovq ∧
    (after storeFourth 5).next.E.valb = 0 := by
  have hE : (after storeFourth 5).curr.E.icode = .irmovq := by decide
  have hM : (after storeFourth 5).curr.M.icode = .popq := by decide
  have hW : (after storeFourth 5).curr.W.icode = .mrmovq := by decide
  have h := absolute_valb_iff (reach_after storeFourth 5) (by decide) (by decide) (by decide)
  refine ⟨hE, hM, hW, h.mpr ?_⟩
  rw [Quiet, QuietE, hE]
  dsimp only
  rw [if_neg (by decide), QuietM, hM]
  dsimp only
  rw [if_neg (by decide), QuietW, hW]
  dsimp only
  rw [if_neg (by decide)]
  decide

/-- `rmmovq %rax, 0x100; rmmovq %rax, 0x40; halt`. -/
def storeTwice : Mem :=
  ⟨fun a => if a = 0 ∨ a = 10 ∨ a = 12 then 0x40 else if a = 1 ∨ a = 11 then 0x0F
    else if a = 3 then 1 else 0, 512, by decide⟩

/-- The second store takes the address of the first for its base. -/
theorem absolute_valb_stale : Reach (after storeTwice 3) ∧
    (after storeTwice 3).curr.D.icode = .rmmovq ∧ (after storeTwice 3).curr.D.rb = regNone ∧
    (after storeTwice 3).ops.E = .load ∧ (after storeTwice 3).curr.D.valc = 0x40 ∧
    (after storeTwice 3).next.E.valb = 0x100 :=
  ⟨reach_after storeTwice 3, by decide, by decide, by decide, by decide, by decide⟩

end Csapp.Y86.Pipe
