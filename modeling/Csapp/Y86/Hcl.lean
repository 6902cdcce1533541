import Mathlib
import Csapp.Y86.Isa

/-!
# Control signals of both processors

The signals that `seq-full.hcl` and `pipe-full.hcl` define alike, over the
fields they read. In HCL a word expression with no matching case is zero.
-/

namespace Csapp.Y86.Hcl

/-! ## Fetch -/

/-- `icode`, `f_icode`: a `nop` where the fetch has failed. -/
def icode (imemError : Bool) (imemIcode : IType) : IType :=
  if imemError then .nop else imemIcode

/-- `ifun`, `f_ifun`: `FNONE` where the fetch has failed. -/
def ifun (imemError : Bool) (imemIfun : Fun) : Fun :=
  if imemError then 0 else imemIfun

/-- `instr_valid`. -/
def instrValid (icode : IType) : Bool :=
  icode ∈ [.nop, .halt, .rrmovq, .irmovq, .rmmovq, .mrmovq, .alu, .iaddq, .jmp, .call, .ret,
    .pushq, .popq]

/-- `need_regids`: the instruction has a register byte. -/
def needRegids (icode : IType) : Bool :=
  icode ∈ [.rrmovq, .alu, .iaddq, .pushq, .popq, .irmovq, .rmmovq, .mrmovq]

/-- `need_valC`: the instruction has a constant word. -/
def needValC (icode : IType) : Bool :=
  icode ∈ [.irmovq, .rmmovq, .mrmovq, .iaddq, .jmp, .call]

/-! ## Decode -/

/-- `srcA`, `d_srcA`: the register `valA` is read from. -/
def srcA (icode : IType) (rA : RegId) : RegId :=
  if icode ∈ [.rrmovq, .rmmovq, .alu, .pushq] then rA
  else if icode ∈ [.popq, .ret] then regRsp
  else regNone

/-- `srcB`, `d_srcB`: the register `valB` is read from. -/
def srcB (icode : IType) (rB : RegId) : RegId :=
  if icode ∈ [.alu, .iaddq, .rmmovq, .mrmovq] then rB
  else if icode ∈ [.pushq, .popq, .call, .ret] then regRsp
  else regNone

/-- `dstM`, `d_dstM`: the register that takes the word read. -/
def dstM (icode : IType) (rA : RegId) : RegId :=
  if icode ∈ [.mrmovq, .popq] then rA else regNone

/-! ## Execute -/

/-- `aluA`: the first input of the ALU. -/
def aluA (icode : IType) (valA valC : Word) : Word :=
  if icode ∈ [.rrmovq, .alu] then valA
  else if icode ∈ [.irmovq, .rmmovq, .mrmovq, .iaddq] then valC
  else if icode ∈ [.call, .pushq] then -8
  else if icode ∈ [.ret, .popq] then 8
  else 0

/-- `aluB`: the second input of the ALU. -/
def aluB (icode : IType) (valB : Word) : Word :=
  if icode ∈ [.rmmovq, .mrmovq, .alu, .iaddq, .call, .pushq, .ret, .popq] then valB
  else 0

/-- `alufun`: addition, except for `IOPQ`. -/
def alufun (icode : IType) (ifun : Fun) : Fun :=
  if icode = .alu then ifun else aAdd

/-! ## Memory -/

/-- `mem_read`. -/
def memRead (icode : IType) : Bool := icode ∈ [.mrmovq, .popq, .ret]

/-- `mem_write`. -/
def memWrite (icode : IType) : Bool := icode ∈ [.rmmovq, .pushq, .call]

/-- `mem_addr`: the sum of the ALU, or `valA` for `popq` and `ret`. -/
def memAddr (icode : IType) (valE valA : Word) : Word :=
  if icode ∈ [.rmmovq, .pushq, .call, .mrmovq] then valE
  else if icode ∈ [.popq, .ret] then valA
  else 0

end Csapp.Y86.Hcl
