import Mathlib
import Csapp.Hcl2c.Table
import Csapp.Y86.Seq

/-!
# The control logic of the sequential simulator

`seq-full.hcl`, as `PipeFull` does it for the pipeline: the file compiles, and
each function of the C file returns what the model of `sim_step` uses there.
-/

namespace Csapp.Hcl2c.SeqFull

open Y86 Y86.Seq

/-! ## The globals of a step

The step starts behind `update_state`, in `s`; `f` is what it has fetched and `g`
what it computes from it. -/

/-- The fetch of this step. -/
def f (s : Sim) : Fetched := fetch s.mem s.pcIn

/-- The rest of this step. -/
def g (s : Sim) : Signals := Seq.signals s.mem s.reg s.cc s.valm (f s)

/-- The first byte of the instruction. -/
def instr (s : Sim) : Option Byte := getByteVal s.mem s.pcIn

/-! ## Declarations -/

/-- The signals that the file declares. -/
inductive Signal
  | const (c : Const) | pc | imem_icode | imem_ifun | icode | ifun | rA | rB | valC | valP
  | imem_error | instr_valid | valA | valB | valE | Cnd | valM | dmem_error
deriving DecidableEq, Repr

namespace Signal

/-- A signal with its quoted string. -/
def sym : Signal → Sym
  | .const c => c.sym
  | .pc => ⟨"pc", "pc", false⟩
  | .imem_icode => ⟨"imem_icode", "imem_icode", false⟩
  | .imem_ifun => ⟨"imem_ifun", "imem_ifun", false⟩
  | .icode => ⟨"icode", "icode", false⟩
  | .ifun => ⟨"ifun", "ifun", false⟩
  | .rA => ⟨"rA", "ra", false⟩
  | .rB => ⟨"rB", "rb", false⟩
  | .valC => ⟨"valC", "valc", false⟩
  | .valP => ⟨"valP", "valp", false⟩
  | .imem_error => ⟨"imem_error", "imem_error", true⟩
  | .instr_valid => ⟨"instr_valid", "instr_valid", true⟩
  | .valA => ⟨"valA", "vala", false⟩
  | .valB => ⟨"valB", "valb", false⟩
  | .valE => ⟨"valE", "vale", false⟩
  | .Cnd => ⟨"Cnd", "cond", true⟩
  | .valM => ⟨"valM", "valm", false⟩
  | .dmem_error => ⟨"dmem_error", "dmem_error", true⟩

/-- All of them, in order. -/
def all : List Signal :=
  [.const .INOP, .const .IHALT, .const .IRRMOVQ, .const .IIRMOVQ, .const .IRMMOVQ,
    .const .IMRMOVQ, .const .IOPQ, .const .IJXX, .const .ICALL, .const .IRET, .const .IPUSHQ,
    .const .IPOPQ, .const .IIADDQ, .const .FNONE, .const .RRSP, .const .RNONE, .const .ALUADD,
    .const .SAOK, .const .SADR, .const .SINS, .const .SHLT, .pc, .imem_icode, .imem_ifun, .icode,
    .ifun, .rA, .rB, .valC, .valP, .imem_error, .instr_valid, .valA, .valB, .valE, .Cnd, .valM,
    .dmem_error]

/-- What a signal is in the step that starts in `s`. -/
def value (s : Sim) : Signal → Int
  | .const c => c.value
  | .pc => s.pcIn.toInt
  | .imem_icode => itype (IType.ofNibble (hi4 ((instr s).getD 0x10)))
  | .imem_ifun => nibble (lo4 ((instr s).getD 0x10))
  | .icode => itype (f s).icode
  | .ifun => nibble (f s).ifun
  | .rA => nibble (f s).ra
  | .rB => nibble (f s).rb
  | .valC => (f s).valc.toInt
  | .valP => (f s).valp.toInt
  | .imem_error => ofBool (instr s).isNone
  | .instr_valid => ofBool (Y86.Hcl.instrValid (f s).icode)
  | .valA => (g s).vala.toInt
  | .valB => (g s).valb.toInt
  | .valE => (g s).vale.toInt
  | .Cnd => ofBool (g s).cond
  | .valM => (g s).valm.toInt
  | .dmem_error => ofBool (g s).dmemError

end Signal

theorem mem_all (k : Signal) : k ∈ Signal.all := by
  rcases k with ⟨⟨⟩⟩ | _ <;> decide

theorem names_nodup : (Signal.all.map fun k => k.sym.name).Nodup := by decide

theorem svals_nodup : (Signal.all.map fun k => k.sym.sval).Nodup := by decide

/-- The table of symbols behind the declarations. -/
def table : Table Signal := ⟨Signal.all, Signal.sym, mem_all, names_nodup, svals_nodup⟩

/-! ## Definitions -/

/-- The signals that the file defines. -/
inductive Control
  | icode | ifun | instr_valid | need_regids | need_valC | srcA | srcB | dstE | dstM | aluA | aluB
  | alufun | set_cc | mem_read | mem_write | mem_addr | mem_data | Stat | new_pc
deriving DecidableEq, Repr

section

open Signal Csapp.Hcl2c.Const

/-- A signal of the file. -/
abbrev sg (k : Signal) : Expr := table.sig k

/-- A constant of the file. -/
abbrev cst (c : Const) : Expr := sg (.const c)

/-- `a in { c, cs }`. -/
abbrev isIn (a : Signal) (c : Const) (cs : List Const) : Expr := table.isIn Signal.const a c cs

/-- `a == c`. -/
abbrev is (a : Signal) (c : Const) : Expr := table.eqs a (.const c)

/-- The right side of a definition. -/
def hcl : Control → Expr
  | .icode => select [(sg imem_error, cst INOP), dflt (sg imem_icode)]
  | .ifun => select [(sg imem_error, cst FNONE), dflt (sg imem_ifun)]
  | .instr_valid =>
    isIn icode INOP [IHALT, IRRMOVQ, IIRMOVQ, IRMMOVQ, IMRMOVQ, IOPQ, IIADDQ, IJXX, ICALL, IRET,
      IPUSHQ, IPOPQ]
  | .need_regids => isIn icode IRRMOVQ [IOPQ, IIADDQ, IPUSHQ, IPOPQ, IIRMOVQ, IRMMOVQ, IMRMOVQ]
  | .need_valC => isIn icode IIRMOVQ [IRMMOVQ, IMRMOVQ, IIADDQ, IJXX, ICALL]
  | .srcA =>
    select [(isIn icode IRRMOVQ [IRMMOVQ, IOPQ, IPUSHQ], sg rA),
      (isIn icode IPOPQ [IRET], cst RRSP), dflt (cst RNONE)]
  | .srcB =>
    select [(isIn icode IOPQ [IIADDQ, IRMMOVQ, IMRMOVQ], sg rB),
      (isIn icode IPUSHQ [IPOPQ, ICALL, IRET], cst RRSP), dflt (cst RNONE)]
  | .dstE =>
    select [(.and (isIn icode IRRMOVQ []) (sg Cnd), sg rB),
      (isIn icode IIRMOVQ [IOPQ, IIADDQ], sg rB),
      (isIn icode IPUSHQ [IPOPQ, ICALL, IRET], cst RRSP), dflt (cst RNONE)]
  | .dstM => select [(isIn icode IMRMOVQ [IPOPQ], sg rA), dflt (cst RNONE)]
  | .aluA =>
    select [(isIn icode IRRMOVQ [IOPQ], sg valA),
      (isIn icode IIRMOVQ [IRMMOVQ, IMRMOVQ, IIADDQ], sg valC),
      (isIn icode ICALL [IPUSHQ], .num "-8"), (isIn icode IRET [IPOPQ], .num "8")]
  | .aluB =>
    select [(isIn icode IRMMOVQ [IMRMOVQ, IOPQ, IIADDQ, ICALL, IPUSHQ, IRET, IPOPQ], sg valB),
      (isIn icode IRRMOVQ [IIRMOVQ], .num "0")]
  | .alufun => select [(is icode IOPQ, sg ifun), dflt (cst ALUADD)]
  | .set_cc => isIn icode IOPQ [IIADDQ]
  | .mem_read => isIn icode IMRMOVQ [IPOPQ, IRET]
  | .mem_write => isIn icode IRMMOVQ [IPUSHQ, ICALL]
  | .mem_addr =>
    select [(isIn icode IRMMOVQ [IPUSHQ, ICALL, IMRMOVQ], sg valE),
      (isIn icode IPOPQ [IRET], sg valA)]
  | .mem_data => select [(isIn icode IRMMOVQ [IPUSHQ], sg valA), (is icode ICALL, sg valP)]
  | .Stat =>
    select [(.or (sg imem_error) (sg dmem_error), cst SADR), (.not (sg instr_valid), cst SINS),
      (is icode IHALT, cst SHLT), dflt (cst SAOK)]
  | .new_pc =>
    select [(is icode ICALL, sg valC), (.and (is icode IJXX) (sg Cnd), sg valC),
      (is icode IRET, sg valM), dflt (sg valP)]

end

namespace Control

/-- The name that is defined. -/
def name : Control → String
  | .icode => "icode"
  | .ifun => "ifun"
  | .instr_valid => "instr_valid"
  | .need_regids => "need_regids"
  | .need_valC => "need_valC"
  | .srcA => "srcA"
  | .srcB => "srcB"
  | .dstE => "dstE"
  | .dstM => "dstM"
  | .aluA => "aluA"
  | .aluB => "aluB"
  | .alufun => "alufun"
  | .set_cc => "set_cc"
  | .mem_read => "mem_read"
  | .mem_write => "mem_write"
  | .mem_addr => "mem_addr"
  | .mem_data => "mem_data"
  | .Stat => "Stat"
  | .new_pc => "new_pc"

/-- `bool` rather than `word`. -/
def isbool : Control → Bool
  | .instr_valid | .need_regids | .need_valC | .set_cc | .mem_read | .mem_write => true
  | _ => false

/-- All of them, in order. -/
def all : List Control :=
  [.icode, .ifun, .instr_valid, .need_regids, .need_valC, .srcA, .srcB, .dstE, .dstM, .aluA, .aluB,
    .alufun, .set_cc, .mem_read, .mem_write, .mem_addr, .mem_data, .Stat, .new_pc]

/-- What the model of the simulator has in the place where the simulator calls
the function. -/
def model (s : Sim) : Control → Int
  | .icode => itype (f s).icode
  | .ifun => nibble (f s).ifun
  | .instr_valid => ofBool (Y86.Hcl.instrValid (f s).icode)
  | .need_regids => ofBool (Y86.Hcl.needRegids (f s).icode)
  | .need_valC => ofBool (Y86.Hcl.needValC (f s).icode)
  | .srcA => nibble (g s).srcA
  | .srcB => nibble (g s).srcB
  | .dstE => nibble (g s).destE
  | .dstM => nibble (g s).destM
  | .aluA => (Y86.Hcl.aluA (f s).icode (g s).vala (f s).valc).toInt
  | .aluB => (Y86.Hcl.aluB (f s).icode (g s).valb).toInt
  | .alufun => nibble (Y86.Hcl.alufun (f s).icode (f s).ifun)
  | .set_cc => ofBool (setCC (f s).icode)
  | .mem_read => ofBool (Y86.Hcl.memRead (f s).icode)
  | .mem_write => ofBool (g s).memWrite
  | .mem_addr => (g s).memAddr.toInt
  | .mem_data => (g s).memData.toInt
  | .Stat => Hcl2c.stat (g s).status
  | .new_pc => (g s).pcIn.toInt

end Control

/-! ## The values -/

/-- The value of every name of the file in the step that starts in `s`. -/
abbrev names (s : Sim) : String → Int := Hcl2c.signals table.syms (table.env (Signal.value s))

section

attribute [local simp] Expr.value Signal.value Const.value ofBool_eq_zero hcl Control.model

/-- Each definition has the value that the model of the simulator has there. -/
theorem hcl_value (s : Sim) (k : Control) : (hcl k).value (names s) = k.model s := by
  cases k with
  | icode => simp [f, fetch, Y86.Hcl.icode, instr]
  | ifun => simp [f, fetch, Y86.Hcl.ifun, instr]
  | instr_valid => simp [Y86.Hcl.instrValid]
  | need_regids => simp [Y86.Hcl.needRegids]
  | need_valC => simp [Y86.Hcl.needValC]
  | srcA => simp [g, Seq.signals, Y86.Hcl.srcA]
  | srcB => simp [g, Seq.signals, Y86.Hcl.srcB]
  | dstE => simp [g, Seq.signals, Seq.dstE]
  | dstM => simp [g, Seq.signals, Y86.Hcl.dstM]
  | aluA =>
      have h8 : atoll "8" = 8 := by decide
      have hm8 : atoll "-8" = -8 := by decide
      simp [Y86.Hcl.aluA, h8, hm8]
  | aluB => simp [Y86.Hcl.aluB, atoll_zero]
  | alufun => simp [Y86.Hcl.alufun]
  | set_cc => simp [setCC]
  | mem_read => simp [Y86.Hcl.memRead]
  | mem_write => simp [g, Seq.signals, Y86.Hcl.memWrite]
  | mem_addr => simp [g, Seq.signals, Y86.Hcl.memAddr]
  | mem_data => simp [g, Seq.signals, Seq.memData]
  | Stat => simp [g, Seq.signals, Seq.stat, f, fetch, instr]
  | new_pc => simp [g, Seq.signals, Seq.newPc]

end

/-- What is declared Boolean is Boolean in every step. -/
theorem value_bool (s : Sim) (k : Signal) (hk : k.sym.isbool = true) :
    k.value s = 0 ∨ k.value s = 1 := by
  cases k with
  | const c => cases c <;> cases hk
  | imem_error | instr_valid | Cnd | dmem_error => exact ofBool_bit _
  | _ => cases hk

/-! ## The file -/

/-- The quoted lines at the head of the file. -/
def quotes : List Statement :=
  [.quote "#include <stdio.h>", .quote "#include \"isa.h\"", .quote "#include \"sim.h\"",
    .quote "int sim_main(int argc, char *argv[]);", .quote "word_t gen_pc()\x7breturn 0;\x7d",
    .quote "int main(int argc, char *argv[])",
    .quote "  \x7bplusmode=0;return sim_main(argc,argv);\x7d"]

/-- `seq-full.hcl`. -/
def seqFull : List Statement :=
  quotes ++ table.statements ++ Control.all.map fun k => .funct k.isbool k.name (hcl k)

theorem seqFull_ok : fileOk [] seqFull = true := by decide

theorem mem_controls (k : Control) : k ∈ Control.all := by cases k <;> decide

/-- `seq-full.hcl` compiles, and in every step each function of the C file
returns what the model of the simulator uses in its place. -/
theorem seqFull_compiles :
    ∃ out, compile seqFull = some out ∧
      ∀ k : Control, ∃ pre body post code,
        out = pre ++ (genHeader k.name ++ (body ++ genFooter)) ++ post ∧
          CDerives 0 (toks body) code ∧ (∀ code', CDerives 0 (toks body) code' → code' = code) ∧
          ∀ s : Sim, ceval (table.env (Signal.value s)) code = k.model s := by
  obtain ⟨out, hout, h⟩ := table.compile_functs rfl seqFull_ok
  refine ⟨out, hout, fun k => ?_⟩
  obtain ⟨pre, body, post, code, ho, hd, hu, hv⟩ := h k (mem_controls k)
  exact ⟨pre, body, post, code, ho, hd, hu,
    fun s => (hv (Signal.value s) (value_bool s)).trans (hcl_value s k)⟩

end Csapp.Hcl2c.SeqFull
