import Mathlib
import Csapp.Hcl2c.Table
import Csapp.Y86.Pipe

/-!
# The control logic of the pipelined simulator

`pipe-full.hcl`, statement by statement, and what its signals are in a cycle of
the simulator. The file compiles, and each function of the C file returns what
the model of the simulator uses at that place: the processor is the one that the
compiled control logic describes.
-/

namespace Csapp.Hcl2c.PipeFull

open Y86 Y86.Pipe

/-! ## The globals of a cycle

A cycle reads the registers `s.curr` and computes what the stages leave for the
next one: `f` fetch, `m` memory, `e` execute and `d` decode. -/

/-- The fetch of this cycle. -/
def f (s : Sim) : IfId := (doIfStage s.mem s.curr.F s.curr.M s.curr.W).1

/-- The memory stage of this cycle. -/
def m (s : Sim) : MemOut := doMemStage s.mem s.curr.M

/-- The execute stage of this cycle. -/
def e (s : Sim) : ExMem := (doExStage s.cc s.ccIn s.curr.E (m s).next s.curr.W).1

/-- The decode stage of this cycle. -/
def d (s : Sim) : IdEx := doIdStage s.reg s.curr.D (e s) s.curr.M (m s).next s.curr.W

/-- The byte at the fetch address. -/
def instr (s : Sim) : Option Byte := getByteVal s.mem (fPc s.curr.F s.curr.M s.curr.W)

/-- `imem_error`. -/
def imemError (s : Sim) : Bool :=
  (instr s).isNone || (getByteVal s.mem (fPc s.curr.F s.curr.M s.curr.W + 5)).isNone

/-- `imem_icode`. -/
def imemIcode (s : Sim) : IType := IType.ofNibble (hi4 ((instr s).getD 0x10))

/-- `imem_ifun`. -/
def imemIfun (s : Sim) : Fun := lo4 ((instr s).getD 0x10)

/-- `dmem_error`. -/
def dmemError (s : Sim) : Bool :=
  (Y86.Hcl.memRead s.curr.M.icode || Y86.Hcl.memWrite s.curr.M.icode) &&
    (getWordVal s.mem (m s).memAddr).isNone

/-! ## Declarations -/

/-- The signals that the file declares. -/
inductive Signal
  | const (c : Const) | SBUB | F_predPC | imem_icode | imem_ifun | f_icode | f_ifun | f_valC |
  f_valP | imem_error | instr_valid | D_icode | D_rA | D_rB | D_valP | d_srcA | d_srcB | d_rvalA
  | d_rvalB | E_icode | E_ifun | E_valC | E_srcA | E_valA | E_srcB | E_valB | E_dstE | E_dstM |
  e_valE | e_Cnd | e_dstE | M_stat | M_icode | M_ifun | M_valA | M_dstE | M_valE | M_dstM |
  M_Cnd | dmem_error | m_valM | m_stat | W_stat | W_icode | W_dstE | W_valE | W_dstM | W_valM
deriving DecidableEq, Repr

namespace Signal

/-- A signal with its quoted string. -/
def sym : Signal → Sym
  | .const c => c.sym
  | .SBUB => ⟨"SBUB", "STAT_BUB", false⟩
  | .F_predPC => ⟨"F_predPC", "pc_curr->pc", false⟩
  | .imem_icode => ⟨"imem_icode", "imem_icode", false⟩
  | .imem_ifun => ⟨"imem_ifun", "imem_ifun", false⟩
  | .f_icode => ⟨"f_icode", "if_id_next->icode", false⟩
  | .f_ifun => ⟨"f_ifun", "if_id_next->ifun", false⟩
  | .f_valC => ⟨"f_valC", "if_id_next->valc", false⟩
  | .f_valP => ⟨"f_valP", "if_id_next->valp", false⟩
  | .imem_error => ⟨"imem_error", "imem_error", true⟩
  | .instr_valid => ⟨"instr_valid", "instr_valid", true⟩
  | .D_icode => ⟨"D_icode", "if_id_curr->icode", false⟩
  | .D_rA => ⟨"D_rA", "if_id_curr->ra", false⟩
  | .D_rB => ⟨"D_rB", "if_id_curr->rb", false⟩
  | .D_valP => ⟨"D_valP", "if_id_curr->valp", false⟩
  | .d_srcA => ⟨"d_srcA", "id_ex_next->srca", false⟩
  | .d_srcB => ⟨"d_srcB", "id_ex_next->srcb", false⟩
  | .d_rvalA => ⟨"d_rvalA", "d_regvala", false⟩
  | .d_rvalB => ⟨"d_rvalB", "d_regvalb", false⟩
  | .E_icode => ⟨"E_icode", "id_ex_curr->icode", false⟩
  | .E_ifun => ⟨"E_ifun", "id_ex_curr->ifun", false⟩
  | .E_valC => ⟨"E_valC", "id_ex_curr->valc", false⟩
  | .E_srcA => ⟨"E_srcA", "id_ex_curr->srca", false⟩
  | .E_valA => ⟨"E_valA", "id_ex_curr->vala", false⟩
  | .E_srcB => ⟨"E_srcB", "id_ex_curr->srcb", false⟩
  | .E_valB => ⟨"E_valB", "id_ex_curr->valb", false⟩
  | .E_dstE => ⟨"E_dstE", "id_ex_curr->deste", false⟩
  | .E_dstM => ⟨"E_dstM", "id_ex_curr->destm", false⟩
  | .e_valE => ⟨"e_valE", "ex_mem_next->vale", false⟩
  | .e_Cnd => ⟨"e_Cnd", "ex_mem_next->takebranch", true⟩
  | .e_dstE => ⟨"e_dstE", "ex_mem_next->deste", false⟩
  | .M_stat => ⟨"M_stat", "ex_mem_curr->status", false⟩
  | .M_icode => ⟨"M_icode", "ex_mem_curr->icode", false⟩
  | .M_ifun => ⟨"M_ifun", "ex_mem_curr->ifun", false⟩
  | .M_valA => ⟨"M_valA", "ex_mem_curr->vala", false⟩
  | .M_dstE => ⟨"M_dstE", "ex_mem_curr->deste", false⟩
  | .M_valE => ⟨"M_valE", "ex_mem_curr->vale", false⟩
  | .M_dstM => ⟨"M_dstM", "ex_mem_curr->destm", false⟩
  | .M_Cnd => ⟨"M_Cnd", "ex_mem_curr->takebranch", true⟩
  | .dmem_error => ⟨"dmem_error", "dmem_error", true⟩
  | .m_valM => ⟨"m_valM", "mem_wb_next->valm", false⟩
  | .m_stat => ⟨"m_stat", "mem_wb_next->status", false⟩
  | .W_stat => ⟨"W_stat", "mem_wb_curr->status", false⟩
  | .W_icode => ⟨"W_icode", "mem_wb_curr->icode", false⟩
  | .W_dstE => ⟨"W_dstE", "mem_wb_curr->deste", false⟩
  | .W_valE => ⟨"W_valE", "mem_wb_curr->vale", false⟩
  | .W_dstM => ⟨"W_dstM", "mem_wb_curr->destm", false⟩
  | .W_valM => ⟨"W_valM", "mem_wb_curr->valm", false⟩

/-- All of them, in order. -/
def all : List Signal :=
    [.const .INOP, .const .IHALT, .const .IRRMOVQ, .const .IIRMOVQ, .const .IRMMOVQ, .const
    .IMRMOVQ, .const .IOPQ, .const .IJXX, .const .ICALL, .const .IRET, .const .IPUSHQ, .const
    .IPOPQ, .const .IIADDQ, .const .FNONE, .const .RRSP, .const .RNONE, .const .ALUADD, .SBUB,
    .const .SAOK, .const .SADR, .const .SINS, .const .SHLT, .F_predPC, .imem_icode, .imem_ifun,
    .f_icode, .f_ifun, .f_valC, .f_valP, .imem_error, .instr_valid, .D_icode, .D_rA, .D_rB,
    .D_valP, .d_srcA, .d_srcB, .d_rvalA, .d_rvalB, .E_icode, .E_ifun, .E_valC, .E_srcA, .E_valA,
    .E_srcB, .E_valB, .E_dstE, .E_dstM, .e_valE, .e_Cnd, .e_dstE, .M_stat, .M_icode, .M_ifun,
    .M_valA, .M_dstE, .M_valE, .M_dstM, .M_Cnd, .dmem_error, .m_valM, .m_stat, .W_stat,
    .W_icode, .W_dstE, .W_valE, .W_dstM, .W_valM]

/-- What a signal is in the cycle that starts in `s`. -/
def value (s : Sim) : Signal → Int
  | .const c => c.value
  | .SBUB => Hcl2c.stat .bub
  | .F_predPC => s.curr.F.pc.toInt
  | .imem_icode => itype (imemIcode s)
  | .imem_ifun => nibble (imemIfun s)
  | .f_icode => itype (f s).icode
  | .f_ifun => nibble (f s).ifun
  | .f_valC => (f s).valc.toInt
  | .f_valP => (f s).valp.toInt
  | .imem_error => ofBool (imemError s)
  | .instr_valid => ofBool (Y86.Hcl.instrValid (f s).icode)
  | .D_icode => itype s.curr.D.icode
  | .D_rA => nibble s.curr.D.ra
  | .D_rB => nibble s.curr.D.rb
  | .D_valP => s.curr.D.valp.toInt
  | .d_srcA => nibble (d s).srca
  | .d_srcB => nibble (d s).srcb
  | .d_rvalA => (getRegVal s.reg (d s).srca).toInt
  | .d_rvalB => (getRegVal s.reg (d s).srcb).toInt
  | .E_icode => itype s.curr.E.icode
  | .E_ifun => nibble s.curr.E.ifun
  | .E_valC => s.curr.E.valc.toInt
  | .E_srcA => nibble s.curr.E.srca
  | .E_valA => s.curr.E.vala.toInt
  | .E_srcB => nibble s.curr.E.srcb
  | .E_valB => s.curr.E.valb.toInt
  | .E_dstE => nibble s.curr.E.deste
  | .E_dstM => nibble s.curr.E.destm
  | .e_valE => (e s).vale.toInt
  | .e_Cnd => ofBool (e s).takebranch
  | .e_dstE => nibble (e s).deste
  | .M_stat => Hcl2c.stat s.curr.M.status
  | .M_icode => itype s.curr.M.icode
  | .M_ifun => nibble s.curr.M.ifun
  | .M_valA => s.curr.M.vala.toInt
  | .M_dstE => nibble s.curr.M.deste
  | .M_valE => s.curr.M.vale.toInt
  | .M_dstM => nibble s.curr.M.destm
  | .M_Cnd => ofBool s.curr.M.takebranch
  | .dmem_error => ofBool (dmemError s)
  | .m_valM => (m s).next.valm.toInt
  | .m_stat => Hcl2c.stat (m s).next.status
  | .W_stat => Hcl2c.stat s.curr.W.status
  | .W_icode => itype s.curr.W.icode
  | .W_dstE => nibble s.curr.W.deste
  | .W_valE => s.curr.W.vale.toInt
  | .W_dstM => nibble s.curr.W.destm
  | .W_valM => s.curr.W.valm.toInt

end Signal

theorem mem_all (k : Signal) : k ∈ Signal.all := by
  rcases k with ⟨⟨⟩⟩ | _ <;> decide

theorem names_nodup : (Signal.all.map fun k => k.sym.name).Nodup := by decide

theorem svals_nodup : (Signal.all.map fun k => k.sym.sval).Nodup := by decide

/-- The table of symbols behind the declarations. -/
def table : Table Signal := ⟨Signal.all, Signal.sym, mem_all, names_nodup, svals_nodup⟩

/-! ## Definitions -/

/-- The signals that the file defines. -/
inductive Control
  | f_pc | f_icode | f_ifun | instr_valid | f_stat | need_regids | need_valC | f_predPC
  | d_srcA | d_srcB | d_dstE | d_dstM | d_valA | d_valB | aluA | aluB | alufun | set_cc | e_valA
  | e_dstE | mem_addr | mem_read | mem_write | m_stat | w_dstE | w_valE | w_dstM | w_valM | Stat
  | F_bubble | F_stall | D_stall | D_bubble | E_stall | E_bubble | M_stall | M_bubble | W_stall
  | W_bubble
deriving DecidableEq, Repr

section

open Signal Csapp.Hcl2c.Const

/-- A signal in an expression. -/
abbrev sg (k : Signal) : Expr := table.sig k

/-- A constant of the file. -/
abbrev cst (c : Const) : Expr := sg (.const c)

/-- `a in { c, cs }`. -/
abbrev isIn (a : Signal) (c : Const) (cs : List Const) : Expr := table.isIn Signal.const a c cs

/-- `a == b`. -/
abbrev eqs (a b : Signal) : Expr := table.eqs a b

/-- `a == c`. -/
abbrev is (a : Signal) (c : Const) : Expr := eqs a (.const c)

/-- The conditions for a load/use hazard. -/
def loadUseHcl : Expr :=
  .and (isIn E_icode IMRMOVQ [IPOPQ]) (.ele (sg E_dstM) (sg d_srcA) (.of [sg d_srcB]))

/-- A `ret` in the pipeline. -/
def retHcl : Expr := .ele (cst IRET) (sg D_icode) (.of [sg E_icode, sg M_icode])

/-- The test for a branch not taken. -/
def mispredictedHcl : Expr := .and (is E_icode IJXX) (.not (sg e_Cnd))

/-- The right side of a definition. -/
def hcl : Control → Expr
  | .f_pc =>
    select [(.and (is M_icode IJXX) (.not (sg M_Cnd)), sg M_valA), (is W_icode IRET, sg W_valM),
      dflt (sg F_predPC)]
  | .f_icode => select [(sg imem_error, cst INOP), dflt (sg imem_icode)]
  | .f_ifun => select [(sg imem_error, cst FNONE), dflt (sg imem_ifun)]
  | .instr_valid =>
    isIn f_icode INOP [IHALT, IRRMOVQ, IIRMOVQ, IRMMOVQ, IMRMOVQ, IOPQ, IIADDQ, IJXX, ICALL, IRET,
      IPUSHQ, IPOPQ]
  | .f_stat =>
    select [(sg imem_error, cst SADR), (.not (sg instr_valid), cst SINS),
      (is f_icode IHALT, cst SHLT), dflt (cst SAOK)]
  | .need_regids =>
    isIn f_icode IRRMOVQ [IOPQ, IIADDQ, IPUSHQ, IPOPQ, IIRMOVQ, IRMMOVQ, IMRMOVQ]
  | .need_valC => isIn f_icode IIRMOVQ [IRMMOVQ, IMRMOVQ, IIADDQ, IJXX, ICALL]
  | .f_predPC => select [(isIn f_icode IJXX [ICALL], sg f_valC), dflt (sg f_valP)]
  | .d_srcA =>
    select [(isIn D_icode IRRMOVQ [IRMMOVQ, IOPQ, IPUSHQ], sg D_rA),
      (isIn D_icode IPOPQ [IRET], cst RRSP), dflt (cst RNONE)]
  | .d_srcB =>
    select [(isIn D_icode IOPQ [IIADDQ, IRMMOVQ, IMRMOVQ], sg D_rB),
      (isIn D_icode IPUSHQ [IPOPQ, ICALL, IRET], cst RRSP), dflt (cst RNONE)]
  | .d_dstE =>
    select [(isIn D_icode IRRMOVQ [IIRMOVQ, IOPQ, IIADDQ], sg D_rB),
      (isIn D_icode IPUSHQ [IPOPQ, ICALL, IRET], cst RRSP), dflt (cst RNONE)]
  | .d_dstM => select [(isIn D_icode IMRMOVQ [IPOPQ], sg D_rA), dflt (cst RNONE)]
  | .d_valA =>
    select [(isIn D_icode ICALL [IJXX], sg D_valP), (eqs d_srcA e_dstE, sg e_valE),
      (eqs d_srcA M_dstM, sg m_valM), (eqs d_srcA M_dstE, sg M_valE),
      (eqs d_srcA W_dstM, sg W_valM), (eqs d_srcA W_dstE, sg W_valE), dflt (sg d_rvalA)]
  | .d_valB =>
    select [(eqs d_srcB e_dstE, sg e_valE), (eqs d_srcB M_dstM, sg m_valM),
      (eqs d_srcB M_dstE, sg M_valE), (eqs d_srcB W_dstM, sg W_valM),
      (eqs d_srcB W_dstE, sg W_valE), dflt (sg d_rvalB)]
  | .aluA =>
    select [(isIn E_icode IRRMOVQ [IOPQ], sg E_valA),
      (isIn E_icode IIRMOVQ [IRMMOVQ, IMRMOVQ, IIADDQ], sg E_valC),
      (isIn E_icode ICALL [IPUSHQ], .num "-8"), (isIn E_icode IRET [IPOPQ], .num "8")]
  | .aluB =>
    select [(isIn E_icode IRMMOVQ [IMRMOVQ, IOPQ, IIADDQ, ICALL, IPUSHQ, IRET, IPOPQ], sg E_valB),
      (isIn E_icode IRRMOVQ [IIRMOVQ], .num "0")]
  | .alufun => select [(is E_icode IOPQ, sg E_ifun), dflt (cst ALUADD)]
  | .set_cc =>
    .and (.and (isIn E_icode IOPQ [IIADDQ]) (.not (isIn m_stat SADR [SINS, SHLT])))
      (.not (isIn W_stat SADR [SINS, SHLT]))
  | .e_valA => sg E_valA
  | .e_dstE => select [(.and (is E_icode IRRMOVQ) (.not (sg e_Cnd)), cst RNONE), dflt (sg E_dstE)]
  | .mem_addr =>
    select [(isIn M_icode IRMMOVQ [IPUSHQ, ICALL, IMRMOVQ], sg M_valE),
      (isIn M_icode IPOPQ [IRET], sg M_valA)]
  | .mem_read => isIn M_icode IMRMOVQ [IPOPQ, IRET]
  | .mem_write => isIn M_icode IRMMOVQ [IPUSHQ, ICALL]
  | .m_stat => select [(sg dmem_error, cst SADR), dflt (sg M_stat)]
  | .w_dstE => sg W_dstE
  | .w_valE => sg W_valE
  | .w_dstM => sg W_dstM
  | .w_valM => sg W_valM
  | .Stat => select [(eqs W_stat SBUB, cst SAOK), dflt (sg W_stat)]
  | .F_bubble => .num "0"
  | .F_stall => .or loadUseHcl retHcl
  | .D_stall => loadUseHcl
  | .D_bubble => .or mispredictedHcl (.and (.not loadUseHcl) retHcl)
  | .E_stall => .num "0"
  | .E_bubble => .or mispredictedHcl loadUseHcl
  | .M_stall => .num "0"
  | .M_bubble => .or (isIn m_stat SADR [SINS, SHLT]) (isIn W_stat SADR [SINS, SHLT])
  | .W_stall => isIn W_stat SADR [SINS, SHLT]
  | .W_bubble => .num "0"

end

namespace Control

/-- The name that is defined. -/
def name : Control → String
  | .f_pc => "f_pc"
  | .f_icode => "f_icode"
  | .f_ifun => "f_ifun"
  | .instr_valid => "instr_valid"
  | .f_stat => "f_stat"
  | .need_regids => "need_regids"
  | .need_valC => "need_valC"
  | .f_predPC => "f_predPC"
  | .d_srcA => "d_srcA"
  | .d_srcB => "d_srcB"
  | .d_dstE => "d_dstE"
  | .d_dstM => "d_dstM"
  | .d_valA => "d_valA"
  | .d_valB => "d_valB"
  | .aluA => "aluA"
  | .aluB => "aluB"
  | .alufun => "alufun"
  | .set_cc => "set_cc"
  | .e_valA => "e_valA"
  | .e_dstE => "e_dstE"
  | .mem_addr => "mem_addr"
  | .mem_read => "mem_read"
  | .mem_write => "mem_write"
  | .m_stat => "m_stat"
  | .w_dstE => "w_dstE"
  | .w_valE => "w_valE"
  | .w_dstM => "w_dstM"
  | .w_valM => "w_valM"
  | .Stat => "Stat"
  | .F_bubble => "F_bubble"
  | .F_stall => "F_stall"
  | .D_stall => "D_stall"
  | .D_bubble => "D_bubble"
  | .E_stall => "E_stall"
  | .E_bubble => "E_bubble"
  | .M_stall => "M_stall"
  | .M_bubble => "M_bubble"
  | .W_stall => "W_stall"
  | .W_bubble => "W_bubble"

/-- `bool` rather than `word`. -/
def isbool : Control → Bool
  | .instr_valid | .need_regids | .need_valC | .set_cc | .mem_read | .mem_write | .F_bubble
  | .F_stall | .D_stall | .D_bubble | .E_stall | .E_bubble | .M_stall | .M_bubble | .W_stall
  | .W_bubble => true
  | _ => false

/-- All of them, in order. -/
def all : List Control :=
  [.f_pc, .f_icode, .f_ifun, .instr_valid, .f_stat, .need_regids, .need_valC, .f_predPC, .d_srcA,
    .d_srcB, .d_dstE, .d_dstM, .d_valA, .d_valB, .aluA, .aluB, .alufun, .set_cc, .e_valA, .e_dstE,
    .mem_addr, .mem_read, .mem_write, .m_stat, .w_dstE, .w_valE, .w_dstM, .w_valM, .Stat,
    .F_bubble, .F_stall, .D_stall, .D_bubble, .E_stall, .E_bubble, .M_stall, .M_bubble, .W_stall,
    .W_bubble]

/-- What the model of the simulator has in the place where the simulator calls
the function. -/
def model (s : Sim) : Control → Int
  | .f_pc => (fPc s.curr.F s.curr.M s.curr.W).toInt
  | .f_icode => itype (f s).icode
  | .f_ifun => nibble (f s).ifun
  | .instr_valid => ofBool (Y86.Hcl.instrValid (f s).icode)
  | .f_stat => Hcl2c.stat (f s).status
  | .need_regids => ofBool (Y86.Hcl.needRegids (f s).icode)
  | .need_valC => ofBool (Y86.Hcl.needValC (f s).icode)
  | .f_predPC => (predict (f s)).pc.toInt
  | .d_srcA => nibble (d s).srca
  | .d_srcB => nibble (d s).srcb
  | .d_dstE => nibble (d s).deste
  | .d_dstM => nibble (d s).destm
  | .d_valA => (d s).vala.toInt
  | .d_valB => (d s).valb.toInt
  | .aluA => (Y86.Hcl.aluA s.curr.E.icode s.curr.E.vala s.curr.E.valc).toInt
  | .aluB => (Y86.Hcl.aluB s.curr.E.icode s.curr.E.valb).toInt
  | .alufun => nibble (Y86.Hcl.alufun s.curr.E.icode s.curr.E.ifun)
  | .set_cc => ofBool (setCC s.curr.E (m s).next s.curr.W)
  | .e_valA => (e s).vala.toInt
  | .e_dstE => nibble (e s).deste
  | .mem_addr => (m s).memAddr.toInt
  | .mem_read => ofBool (Y86.Hcl.memRead s.curr.M.icode)
  | .mem_write => ofBool (m s).memWrite
  | .m_stat => Hcl2c.stat (m s).next.status
  | .w_dstE => nibble s.curr.W.deste
  | .w_valE => s.curr.W.vale.toInt
  | .w_dstM => nibble s.curr.W.destm
  | .w_valM => s.curr.W.valm.toInt
  | .Stat => Hcl2c.stat (Pipe.stat s.curr.W)
  | .F_bubble => 0
  | .F_stall => ofBool (fStall s.curr.D s.curr.E (d s) s.curr.M)
  | .D_stall => ofBool (dStall s.curr.E (d s))
  | .D_bubble => ofBool (dBubble s.curr.D s.curr.E (d s) (e s) s.curr.M)
  | .E_stall => 0
  | .E_bubble => ofBool (eBubble s.curr.E (d s) (e s))
  | .M_stall => 0
  | .M_bubble => ofBool (mBubble (m s).next s.curr.W)
  | .W_stall => ofBool (wStall s.curr.W)
  | .W_bubble => 0

end Control

/-! ## The values -/

/-- The value of every name of the file in the cycle that starts in `s`. -/
abbrev names (s : Sim) : String → Int := signals table.syms (table.env (Signal.value s))

section

attribute [local simp] Expr.value Signal.value Const.value ofBool_eq_zero hcl Control.model

/-- Each definition has the value that the model of the simulator has there. -/
theorem hcl_value (s : Sim) (k : Control) : (hcl k).value (names s) = k.model s := by
  cases k with
  | f_pc => simp [fPc]
  | f_icode => simp [f, doIfStage, fetch, Y86.Hcl.icode, imemError, imemIcode, instr]
  | f_ifun => simp [f, doIfStage, fetch, Y86.Hcl.ifun, imemError, imemIfun, instr]
  | instr_valid => simp [Y86.Hcl.instrValid]
  | f_stat => simp [f, doIfStage, fetch, fStat, imemError, instr]
  | need_regids => simp [Y86.Hcl.needRegids]
  | need_valC => simp [Y86.Hcl.needValC]
  | f_predPC => simp [predict, fPredPC]
  | d_srcA => simp [d, doIdStage, Y86.Hcl.srcA]
  | d_srcB => simp [d, doIdStage, Y86.Hcl.srcB]
  | d_dstE => simp [d, doIdStage, dDstE]
  | d_dstM => simp [d, doIdStage, Y86.Hcl.dstM]
  | d_valA => simp [d, doIdStage, dValA, forward]
  | d_valB => simp [d, doIdStage, dValB, forward]
  | aluA =>
      have h8 : atoll "8" = 8 := by decide
      have hm8 : atoll "-8" = -8 := by decide
      simp [Y86.Hcl.aluA, h8, hm8]
  | aluB => simp [Y86.Hcl.aluB, atoll_zero]
  | alufun => simp [Y86.Hcl.alufun]
  | set_cc => simp [setCC, exceptional]
  | e_valA => simp [e, doExStage]
  | e_dstE => simp [e, doExStage, eDstE]
  | mem_addr => simp [m, doMemStage, Y86.Hcl.memAddr]
  | mem_read => simp [Y86.Hcl.memRead]
  | mem_write => simp [m, doMemStage, Y86.Hcl.memWrite]
  | m_stat => simp [m, doMemStage, mStat, dmemError]
  | w_dstE | w_valE | w_dstM | w_valM => simp
  | Stat => simp [Pipe.stat]
  | F_stall => simp [fStall, loadUseHcl, retHcl, loadUse, retInside]
  | D_stall => simp [dStall, loadUseHcl, loadUse]
  | D_bubble =>
      simp [dBubble, loadUseHcl, retHcl, loadUse, retInside, mispredictedHcl, mispredicted]
  | E_bubble => simp [eBubble, loadUseHcl, loadUse, mispredictedHcl, mispredicted]
  | M_bubble => simp [mBubble, exceptional]
  | W_stall => simp [wStall, exceptional]
  | F_bubble | E_stall | M_stall | W_bubble => simp [atoll_zero]

end

/-- What is declared Boolean is Boolean in every cycle. -/
theorem value_bool (s : Sim) (k : Signal) (hk : k.sym.isbool = true) :
    k.value s = 0 ∨ k.value s = 1 := by
  cases k with
  | const c => cases c <;> cases hk
  | imem_error | instr_valid | e_Cnd | M_Cnd | dmem_error => exact ofBool_bit _
  | _ => cases hk

/-! ## The file -/

/-- The quoted lines at the head of the file. -/
def quotes : List Statement :=
  [.quote "#include <stdio.h>", .quote "#include \"isa.h\"", .quote "#include \"pipeline.h\"",
    .quote "#include \"stages.h\"", .quote "#include \"sim.h\"",
    .quote "int sim_main(int argc, char *argv[]);",
    .quote "int main(int argc, char *argv[])\x7breturn sim_main(argc,argv);\x7d"]

/-- `pipe-full.hcl`. -/
def pipeFull : List Statement :=
  quotes ++ table.statements ++ Control.all.map fun k => .funct k.isbool k.name (hcl k)

theorem pipeFull_ok : fileOk [] pipeFull = true := by decide

theorem mem_controls (k : Control) : k ∈ Control.all := by cases k <;> decide

/-- `pipe-full.hcl` compiles, and in every cycle each function of the C file
returns what the model of the simulator uses in its place. -/
theorem pipeFull_compiles :
    ∃ out, compile pipeFull = some out ∧
      ∀ k : Control, ∃ pre body post code,
        out = pre ++ (genHeader k.name ++ (body ++ genFooter)) ++ post ∧
          CDerives 0 (toks body) code ∧ (∀ code', CDerives 0 (toks body) code' → code' = code) ∧
          ∀ s : Sim, ceval (table.env (Signal.value s)) code = k.model s := by
  obtain ⟨out, hout, h⟩ := table.compile_functs rfl pipeFull_ok
  refine ⟨out, hout, fun k => ?_⟩
  obtain ⟨pre, body, post, code, ho, hd, hu, hv⟩ := h k (mem_controls k)
  exact ⟨pre, body, post, code, ho, hd, hu,
    fun s => (hv (Signal.value s) (value_bool s)).trans (hcl_value s k)⟩

end Csapp.Hcl2c.PipeFull
