import Mathlib
import Csapp.Y86.Hcl

/-!
# The pipelined simulator

`psim.c` with the control logic of `pipe-full.hcl`. A call of `sim_step_pipe`
first applies the pending updates and clocks the five pipeline registers, and
then computes the stages in the order fetch, memory, execute, decode, so that
decode sees what the later stages have just produced. A signal of the HCL file
is a function of the registers and stage results it reads: capital letters are
the current registers, small ones the results of this cycle.
-/

namespace Csapp.Y86.Pipe

/-! ## Pipeline registers -/

/-- `pc_ele`, register F. -/
structure PcEle where
  pc : Word
  status : Stat

/-- `if_id_ele`, register D. -/
structure IfId where
  icode : IType
  ifun : Fun
  ra : RegId
  rb : RegId
  valc : Word
  valp : Word
  status : Stat

/-- `id_ex_ele`, register E. -/
structure IdEx where
  icode : IType
  ifun : Fun
  valc : Word
  vala : Word
  valb : Word
  srca : RegId
  srcb : RegId
  deste : RegId
  destm : RegId
  status : Stat

/-- `ex_mem_ele`, register M. -/
structure ExMem where
  icode : IType
  ifun : Fun
  takebranch : Bool
  vale : Word
  vala : Word
  deste : RegId
  destm : RegId
  srca : RegId
  status : Stat

/-- `mem_wb_ele`, register W. -/
structure MemWb where
  icode : IType
  ifun : Fun
  vale : Word
  valm : Word
  deste : RegId
  destm : RegId
  status : Stat

/-- `bubble_pc`. -/
def bubblePc : PcEle := ⟨0, .aok⟩

/-- `bubble_if_id`. -/
def bubbleIfId : IfId := ⟨.nop, 0, regNone, regNone, 0, 0, .bub⟩

/-- `bubble_id_ex`. -/
def bubbleIdEx : IdEx := ⟨.nop, 0, 0, 0, 0, regNone, regNone, regNone, regNone, .bub⟩

/-- The initializer of the source leaves out `srca`; `STAT_BUB` is zero. -/
def bubbleExMem : ExMem := ⟨.nop, 0, false, 0, 0, regNone, regNone, 0, .bub⟩

/-- `bubble_mem_wb`. -/
def bubbleMemWb : MemWb := ⟨.nop, 0, 0, 0, regNone, regNone, .bub⟩

/-! ## Fetch -/

/-- `f_pc`: behind a branch not taken, at a return address, or as predicted. -/
def fPc (F : PcEle) (M : ExMem) (W : MemWb) : Word :=
  if M.icode = .jmp ∧ M.takebranch = false then M.vala
  else if W.icode = .ret then W.valm
  else F.pc

/-- `f_stat`. -/
def fStat (imemError instrValid : Bool) (icode : IType) : Stat :=
  if imemError then .adr
  else if !instrValid then .ins
  else if icode = .halt then .hlt
  else .aok

/-- `f_predPC`: branches are predicted taken. -/
def fPredPC (icode : IType) (valC valP : Word) : Word :=
  if icode ∈ [.jmp, .call] then valC else valP

/-- The instruction fetched at `pc`. It counts as readable when its first byte
and the byte five further on are. -/
def fetch (mem : Mem) (pc : Word) : IfId :=
  let instr := getByteVal mem pc
  let imemError := instr.isNone || (getByteVal mem (pc + 5)).isNone
  let icode := Hcl.icode imemError (IType.ofNibble (hi4 (instr.getD 0x10)))
  let regids := if Hcl.needRegids icode then (getByteVal mem (pc + 1)).getD 0xFF else 0xFF
  let valp := if Hcl.needRegids icode then pc + 2 else pc + 1
  { icode := icode
    ifun := Hcl.ifun imemError (lo4 (instr.getD 0x10))
    ra := hi4 regids
    rb := lo4 regids
    valc := if Hcl.needValC icode then (getWordVal mem valp).getD 0 else 0
    valp := if Hcl.needValC icode then valp + 8 else valp
    status := fStat imemError (Hcl.instrValid icode) icode }

/-- The predicted successor of a fetched instruction. -/
def predict (f : IfId) : PcEle :=
  ⟨fPredPC f.icode f.valc f.valp, if f.status = .aok then .aok else .bub⟩

/-- `do_if_stage`: the next D and the next F. -/
def doIfStage (mem : Mem) (F : PcEle) (M : ExMem) (W : MemWb) : IfId × PcEle :=
  let f := fetch mem (fPc F M W)
  (f, predict f)

/-! ## Memory -/

/-- `m_stat`. -/
def mStat (dmemError : Bool) (M : ExMem) : Stat := if dmemError then .adr else M.status

/-- What the memory stage leaves: the pending write and the next W. -/
structure MemOut where
  memAddr : Word
  memData : Word
  memWrite : Bool
  next : MemWb

/-- `do_mem_stage`. -/
def doMemStage (mem : Mem) (M : ExMem) : MemOut :=
  let read := Hcl.memRead M.icode
  let memAddr := Hcl.memAddr M.icode M.vale M.vala
  let memWrite := Hcl.memWrite M.icode
  let word := getWordVal mem memAddr
  let dmemError := (read || memWrite) && word.isNone
  { memAddr := memAddr
    memData := M.vala
    memWrite := memWrite
    next :=
      { icode := M.icode
        ifun := M.ifun
        vale := M.vale
        valm := if read then word.getD 0 else 0
        deste := M.deste
        destm := M.destm
        status := mStat dmemError M } }

/-! ## Execute -/

/-- The statuses that stop the machine. -/
def exceptional (st : Stat) : Bool := st ∈ [.adr, .ins, .hlt]

/-- `set_cc`: not behind an instruction that faults. -/
def setCC (E : IdEx) (m : MemWb) (W : MemWb) : Bool :=
  E.icode ∈ [.alu, .iaddq] && !exceptional m.status && !exceptional W.status

/-- `e_dstE`: none for a conditional move that does not move. -/
def eDstE (E : IdEx) (cnd : Bool) : RegId :=
  if E.icode = .rrmovq ∧ cnd = false then regNone else E.deste

/-- The ALU output. -/
def eValE (E : IdEx) : Word :=
  computeAlu (Hcl.alufun E.icode E.ifun) (Hcl.aluA E.icode E.vala E.valc)
    (Hcl.aluB E.icode E.valb)

/-- The next M and the pending condition codes. -/
def doExStage (cc ccIn : CC) (E : IdEx) (m : MemWb) (W : MemWb) : ExMem × CC :=
  let cnd := condHolds cc E.ifun
  ({ icode := E.icode
     ifun := E.ifun
     takebranch := cnd
     vale := eValE E
     vala := E.vala
     deste := eDstE E cnd
     destm := E.destm
     srca := E.srca
     status := E.status },
   if setCC E m W then
     computeCC (Hcl.alufun E.icode E.ifun) (Hcl.aluA E.icode E.vala E.valc)
       (Hcl.aluB E.icode E.valb)
   else ccIn)

/-! ## Decode and write back -/

/-- `d_dstE`. -/
def dDstE (D : IfId) : RegId :=
  if D.icode ∈ [.rrmovq, .irmovq, .alu, .iaddq] then D.rb
  else if D.icode ∈ [.pushq, .popq, .call, .ret] then regRsp
  else regNone

/-- The value of the register `src`: the youngest older write that is under way,
else what the register file has. -/
def forward (src : RegId) (e : ExMem) (M : ExMem) (m : MemWb) (W : MemWb) (rval : Word) : Word :=
  if src = e.deste then e.vale
  else if src = M.destm then m.valm
  else if src = M.deste then M.vale
  else if src = W.destm then W.valm
  else if src = W.deste then W.vale
  else rval

/-- `d_valA`. -/
def dValA (D : IfId) (srcA : RegId) (e : ExMem) (M : ExMem) (m : MemWb) (W : MemWb)
    (rvalA : Word) : Word :=
  if D.icode ∈ [.call, .jmp] then D.valp else forward srcA e M m W rvalA

/-- `d_valB`. -/
def dValB (srcB : RegId) (e : ExMem) (M : ExMem) (m : MemWb) (W : MemWb) (rvalB : Word) : Word :=
  forward srcB e M m W rvalB

/-- `Stat`: a bubble counts as `STAT_AOK`. -/
def stat (W : MemWb) : Stat := if W.status = .bub then .aok else W.status

/-- The next E. -/
def doIdStage (reg : Regs) (D : IfId) (e : ExMem) (M : ExMem) (m : MemWb) (W : MemWb) : IdEx :=
  let srca := Hcl.srcA D.icode D.ra
  let srcb := Hcl.srcB D.icode D.rb
  { icode := D.icode
    ifun := D.ifun
    valc := D.valc
    vala := dValA D srca e M m W (getRegVal reg srca)
    valb := dValB srcb e M m W (getRegVal reg srcb)
    srca := srca
    srcb := srcb
    deste := dDstE D
    destm := Hcl.dstM D.icode D.ra
    status := D.status }

/-! ## Pipeline register control -/

/-- `p_stat_t`. -/
inductive POp
  | load | stall | bubble | error
deriving DecidableEq, Repr

/-- `pipe_cntl`. -/
def pipeCntl (stall bubble : Bool) : POp :=
  if stall then if bubble then .error else .stall
  else if bubble then .bubble else .load

/-- A load/use hazard: D reads what a load in E is still to fetch. -/
def loadUse (E d : IdEx) : Bool :=
  E.icode ∈ [.mrmovq, .popq] && E.destm ∈ [d.srca, d.srcb]

/-- A `ret` that has not reached W. -/
def retInside (D : IfId) (E : IdEx) (M : ExMem) : Bool :=
  IType.ret ∈ [D.icode, E.icode, M.icode]

/-- A branch that E has just found not taken. -/
def mispredicted (E : IdEx) (e : ExMem) : Bool := E.icode = .jmp && !e.takebranch

/-- `F_stall`. -/
def fStall (D : IfId) (E d : IdEx) (M : ExMem) : Bool := loadUse E d || retInside D E M

/-- `D_stall`. -/
def dStall (E d : IdEx) : Bool := loadUse E d

/-- `D_bubble`. -/
def dBubble (D : IfId) (E d : IdEx) (e M : ExMem) : Bool :=
  mispredicted E e || !loadUse E d && retInside D E M

/-- `E_bubble`. -/
def eBubble (E d : IdEx) (e : ExMem) : Bool := mispredicted E e || loadUse E d

/-- `M_bubble`. -/
def mBubble (m W : MemWb) : Bool := exceptional m.status || exceptional W.status

/-- `W_stall`. -/
def wStall (W : MemWb) : Bool := exceptional W.status

/-- `update_pipes` on one register, with the status `STAT_PIP` that a register
whose control signals conflict is given afterwards. -/
def latch {α : Type} (bubble error : α) (op : POp) (current next : α) : α :=
  match op with
  | .load => next
  | .stall => current
  | .bubble => bubble
  | .error => error

/-! ## The simulator -/

/-- The five registers, or their next contents. -/
structure Stages where
  F : PcEle
  D : IfId
  E : IdEx
  M : ExMem
  W : MemWb

/-- The control signals of the registers. -/
structure Ops where
  F : POp
  D : POp
  E : POp
  M : POp
  W : POp

/-- The globals of `psim.c` that live from one cycle to the next. -/
structure Sim where
  mem : Mem
  reg : Regs
  cc : CC
  ccIn : CC
  wbDestE : RegId
  wbValE : Word
  wbDestM : RegId
  wbValM : Word
  memAddr : Word
  memData : Word
  memWrite : Bool
  curr : Stages
  next : Stages
  ops : Ops

/-- The registers after `sim_reset`. -/
def bubbles : Stages := ⟨bubblePc, bubbleIfId, bubbleIdEx, bubbleExMem, bubbleMemWb⟩

/-- `sim_reset` and a loaded memory. -/
def simReset (mem : Mem) : Sim where
  mem := mem
  reg := fun _ => 0
  cc := defaultCC
  ccIn := defaultCC
  wbDestE := regNone
  wbValE := 0
  wbDestM := regNone
  wbValM := 0
  memAddr := 0
  memData := 0
  memWrite := false
  curr := bubbles
  next := bubbles
  ops := ⟨.load, .load, .load, .load, .load⟩

/-- `update_state`. -/
def updateState (updateMem updateCC : Bool) (s : Sim) : Sim :=
  { s with
    reg := setRegVal (setRegVal s.reg s.wbDestE s.wbValE) s.wbDestM s.wbValM
    mem := if updateMem && s.memWrite then (setWordVal s.mem s.memAddr s.memData).getD s.mem
      else s.mem
    cc := if updateCC then s.ccIn else s.cc }

/-- `update_pipes`. -/
def updatePipes (s : Sim) : Sim :=
  { s with
    curr :=
      { F := latch bubblePc { bubblePc with status := .pip } s.ops.F s.curr.F s.next.F
        D := latch bubbleIfId { bubbleIfId with status := .pip } s.ops.D s.curr.D s.next.D
        E := latch bubbleIdEx { bubbleIdEx with status := .pip } s.ops.E s.curr.E s.next.E
        M := latch bubbleExMem { bubbleExMem with status := .pip } s.ops.M s.curr.M s.next.M
        W := latch bubbleMemWb { bubbleMemWb with status := .pip } s.ops.W s.curr.W s.next.W } }

/-- The stages of one cycle and `do_stall_check`. -/
def doStages (s : Sim) : Sim :=
  let c := s.curr
  let f := doIfStage s.mem c.F c.M c.W
  let mo := doMemStage s.mem c.M
  let ex := doExStage s.cc s.ccIn c.E mo.next c.W
  let e := ex.1
  let d := doIdStage s.reg c.D e c.M mo.next c.W
  { s with
    ccIn := ex.2
    wbDestE := c.W.deste
    wbValE := c.W.vale
    wbDestM := c.W.destm
    wbValM := c.W.valm
    memAddr := mo.memAddr
    memData := mo.memData
    memWrite := mo.memWrite
    next := ⟨f.2, f.1, d, e, mo.next⟩
    ops :=
      { F := pipeCntl (fStall c.D c.E d c.M) false
        D := pipeCntl (dStall c.E d) (dBubble c.D c.E d e c.M)
        E := pipeCntl false (eBubble c.E d e)
        M := pipeCntl false (mBubble mo.next c.W)
        W := pipeCntl (wStall c.W) false } }

/-- One cycle, with `maxInstr` instructions still to complete. -/
def simStepPipe (maxInstr : Nat) (s : Sim) : Sim × Stat :=
  let aheadMem := if s.curr.W.status ≠ .bub then 1 else 0
  let aheadEx := aheadMem + if s.next.W.status ≠ .bub then 1 else 0
  let s := doStages (updatePipes (updateState (aheadMem < maxInstr) (aheadEx < maxInstr) s))
  (s, stat s.curr.W)

/-- What `sim_run_pipe` returns and leaves behind. -/
structure RunResult where
  icount : Nat
  status : Stat
  sim : Sim

/-- The loop of `sim_run_pipe` with `n` cycles to go. -/
def simLoop (maxInstr : Nat) : Nat → RunResult → RunResult
  | 0, x => x
  | n + 1, x =>
    if maxInstr ≤ x.icount then x
    else
      let y := simStepPipe (maxInstr - x.icount) x.sim
      let x := ⟨if y.2 ≠ .bub then x.icount + 1 else x.icount, y.2, y.1⟩
      if y.2 ≠ .aok ∧ y.2 ≠ .bub then x else simLoop maxInstr n x

/-- `sim_run_pipe`. -/
def simRunPipe (maxInstr maxCycle : Nat) (s : Sim) : RunResult :=
  simLoop maxInstr maxCycle ⟨0, .aok, s⟩

end Csapp.Y86.Pipe
