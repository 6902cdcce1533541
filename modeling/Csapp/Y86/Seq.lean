import Mathlib
import Csapp.Y86.Hcl

/-!
# The sequential simulator

`ssim.c` with the control logic of `seq-full.hcl`. A call of `sim_step` first
applies the updates its predecessor left pending and then computes its own; the
state between two calls is therefore the register file, the memory and the
condition codes together with the pending signals.
-/

namespace Csapp.Y86.Seq

/-! ## Signals that differ from the pipeline's -/

/-- `dstE`. -/
def dstE (icode : IType) (cnd : Bool) (rB : RegId) : RegId :=
  if icode ∈ [.rrmovq] && cnd then rB
  else if icode ∈ [.irmovq, .alu, .iaddq] then rB
  else if icode ∈ [.pushq, .popq, .call, .ret] then regRsp
  else regNone

/-- `set_cc`. -/
def setCC (icode : IType) : Bool := icode ∈ [.alu, .iaddq]

/-- `mem_data`. -/
def memData (icode : IType) (valA valP : Word) : Word :=
  if icode ∈ [.rmmovq, .pushq] then valA
  else if icode = .call then valP
  else 0

/-- `Stat`. -/
def stat (imemError dmemError instrValid : Bool) (icode : IType) : Stat :=
  if imemError || dmemError then .adr
  else if !instrValid then .ins
  else if icode = .halt then .hlt
  else .aok

/-- `new_pc`. -/
def newPc (icode : IType) (cnd : Bool) (valC valM valP : Word) : Word :=
  if icode = .call then valC
  else if icode = .jmp && cnd then valC
  else if icode = .ret then valM
  else valP

/-! ## One step -/

/-- What the fetch of an instruction leaves in the globals. -/
structure Fetched where
  imemError : Bool
  icode : IType
  ifun : Fun
  ra : RegId
  rb : RegId
  valc : Word
  valp : Word

/-- The fetch of `sim_step`. -/
def fetch (mem : Mem) (pc : Word) : Fetched :=
  let instr := getByteVal mem pc
  let imemError := instr.isNone
  -- `HPACK(I_NOP, F_NONE)` when there is no byte
  let icode := Hcl.icode imemError (IType.ofNibble (hi4 (instr.getD 0x10)))
  let regids := getByteVal mem (pc + 1)
  let valp := if Hcl.needRegids icode then pc + 2 else pc + 1
  { imemError := imemError
    icode := icode
    ifun := Hcl.ifun imemError (lo4 (instr.getD 0x10))
    ra := if Hcl.needRegids icode then (regids.map hi4).getD regNone else regNone
    rb := if Hcl.needRegids icode then (regids.map lo4).getD regNone else regNone
    valc := if Hcl.needValC icode then (getWordVal mem valp).getD 0 else 0
    valp := if Hcl.needValC icode then valp + 8 else valp }

/-- The signals that the rest of the step computes. -/
structure Signals where
  srcA : RegId
  srcB : RegId
  vala : Word
  valb : Word
  cond : Bool
  destE : RegId
  destM : RegId
  vale : Word
  ccIn : CC
  memAddr : Word
  memData : Word
  valm : Word
  memWrite : Bool
  dmemError : Bool
  status : Stat
  pcIn : Word

/-- The rest of the step after the fetch; `valm0` is what an earlier step left
in `valm`, which a failing read does not change. -/
def signals (mem : Mem) (reg : Regs) (cc : CC) (valm0 : Word) (f : Fetched) : Signals :=
  let srcA := Hcl.srcA f.icode f.ra
  let srcB := Hcl.srcB f.icode f.rb
  let vala := if srcA ≠ regNone then getRegVal reg srcA else 0
  let valb := if srcB ≠ regNone then getRegVal reg srcB else 0
  let cond := condHolds cc f.ifun
  let aluA := Hcl.aluA f.icode vala f.valc
  let aluB := Hcl.aluB f.icode valb
  let alufun := Hcl.alufun f.icode f.ifun
  let vale := computeAlu alufun aluA aluB
  let memAddr := Hcl.memAddr f.icode vale vala
  let read := getWordVal mem memAddr
  let valm := if Hcl.memRead f.icode then read.getD valm0 else 0
  let dmemError := (Hcl.memRead f.icode || Hcl.memWrite f.icode) && read.isNone
  { srcA := srcA
    srcB := srcB
    vala := vala
    valb := valb
    cond := cond
    destE := dstE f.icode cond f.rb
    destM := Hcl.dstM f.icode f.ra
    vale := vale
    ccIn := if setCC f.icode then computeCC alufun aluA aluB else cc
    memAddr := memAddr
    memData := memData f.icode vala f.valp
    valm := valm
    memWrite := Hcl.memWrite f.icode
    dmemError := dmemError
    status := stat f.imemError dmemError (Hcl.instrValid f.icode) f.icode
    pcIn := newPc f.icode cond f.valc valm f.valp }

/-- The globals that live from one step to the next. -/
structure Sim where
  mem : Mem
  reg : Regs
  cc : CC
  ccIn : CC
  pcIn : Word
  destE : RegId
  vale : Word
  destM : RegId
  valm : Word
  memWrite : Bool
  memAddr : Word
  memData : Word

/-- `sim_reset` and a loaded memory. -/
def simReset (mem : Mem) : Sim where
  mem := mem
  reg := fun _ => 0
  cc := defaultCC
  ccIn := defaultCC
  pcIn := 0
  destE := regNone
  vale := 0
  destM := regNone
  valm := 0
  memWrite := false
  memAddr := 0
  memData := 0

/-- `update_state`. -/
def updateState (s : Sim) : Sim :=
  { s with
    cc := s.ccIn
    reg := setRegVal (setRegVal s.reg s.destE s.vale) s.destM s.valm
    mem := if s.memWrite then (setWordVal s.mem s.memAddr s.memData).getD s.mem else s.mem }

/-- `sim_step`. -/
def simStep (s : Sim) : Sim × Stat :=
  let s := updateState s
  let g := signals s.mem s.reg s.cc s.valm (fetch s.mem s.pcIn)
  ({ s with
     ccIn := g.ccIn, pcIn := g.pcIn, destE := g.destE, vale := g.vale, destM := g.destM
     valm := g.valm, memWrite := g.memWrite, memAddr := g.memAddr, memData := g.memData },
   g.status)

/-- What `sim_run` returns and leaves behind. -/
structure RunResult where
  icount : Nat
  status : Stat
  sim : Sim

/-- The loop of `sim_run` with `n` instructions to go. -/
def simLoop : Nat → RunResult → RunResult
  | 0, x => x
  | n + 1, x =>
    let y := simStep x.sim
    let x := ⟨x.icount + 1, y.2, y.1⟩
    if y.2 ≠ .aok then x else simLoop n x

/-- `sim_run`. -/
def simRun (maxInstr : Nat) (s : Sim) : RunResult := simLoop maxInstr ⟨0, .aok, s⟩

end Csapp.Y86.Seq
