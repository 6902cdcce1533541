import Mathlib
import Csapp.Yas.RoundTrip

/-!
# Source that is an assembly program

A line of the source may be blank, a label, an instruction, or a label and an
instruction, in the forms the assembler accepts. For a source of such lines the
two passes do what `assemble` says: the first finds every label where
`lineAddr` puts it, the second writes the bytes of `encode`, and `load_mem`
puts them one behind the other from address zero. So whatever is proved of a
program assembled in memory holds of the program that is in its source file.
-/

namespace Csapp.Yas

open Y86

/-! ## The forms of an instruction -/

/-- `reg_name`. -/
def regName (id : RegId) : String := regTable.getD id.toNat "----"

theorem findRegister_regName : ∀ id : RegId, id ≠ regNone → findRegister (regName id) = id.toNat := by
  decide

/-- How a constant is written. -/
def immTok : Imm String → Token
  | .num val => .num val
  | .sym name => .ident name

/-- A memory reference. -/
inductive MemToks : Imm String → RegId → List Token → Prop
  | disp (imm : Imm String) : MemToks imm regNone [immTok imm]
  | base {rB : RegId} (h : rB ≠ regNone) :
    MemToks (.num 0) rB [.punct '(', .reg (regName rB), .punct ')']
  | both (imm : Imm String) {rB : RegId} (h : rB ≠ regNone) :
    MemToks imm rB [immTok imm, .punct '(', .reg (regName rB), .punct ')']

/-- Instructions without operands. -/
def plainInsns : List (String × IType × Fun) :=
  [("nop", .nop, 0), ("halt", .halt, 0), ("ret", .ret, 0)]

/-- The instructions with two registers. -/
def regInsns : List (String × IType × Fun) :=
  [("rrmovq", .rrmovq, 0), ("cmovle", .rrmovq, 1), ("cmovl", .rrmovq, 2), ("cmove", .rrmovq, 3),
    ("cmovne", .rrmovq, 4), ("cmovge", .rrmovq, 5), ("cmovg", .rrmovq, 6), ("addq", .alu, 0),
    ("subq", .alu, 1), ("andq", .alu, 2), ("xorq", .alu, 3)]

/-- With a constant and a register. -/
def immInsns : List (String × IType × Fun) := [("irmovq", .irmovq, 0), ("iaddq", .iaddq, 0)]

/-- With a destination. -/
def destInsns : List (String × IType × Fun) :=
  [("jmp", .jmp, 0), ("jle", .jmp, 1), ("jl", .jmp, 2), ("je", .jmp, 3), ("jne", .jmp, 4),
    ("jge", .jmp, 5), ("jg", .jmp, 6), ("call", .call, 0)]

/-- With one register. -/
def stackInsns : List (String × IType × Fun) := [("pushq", .pushq, 0), ("popq", .popq, 0)]

/-- The tokens of an instruction, in the order of the source. A field that the
instruction does not have is free, where its encoding leaves it out. -/
inductive InsnToks : Insn String → List Token → Prop
  | plain {name : String} {t : IType} {fn : Fun} (rA rB : RegId) (imm : Imm String)
    (h : (name, t, fn) ∈ plainInsns) : InsnToks ⟨t, fn, rA, rB, imm⟩ [.instr name]
  | regs {name : String} {t : IType} {fn : Fun} {rA rB : RegId} (imm : Imm String)
    (h : (name, t, fn) ∈ regInsns) (hA : rA ≠ regNone) (hB : rB ≠ regNone) :
    InsnToks ⟨t, fn, rA, rB, imm⟩
      [.instr name, .reg (regName rA), .punct ',', .reg (regName rB)]
  | imm {name : String} {t : IType} {fn : Fun} {rB : RegId} (imm : Imm String)
    (h : (name, t, fn) ∈ immInsns) (hB : rB ≠ regNone) :
    InsnToks ⟨t, fn, regNone, rB, imm⟩ [.instr name, immTok imm, .punct ',', .reg (regName rB)]
  | store {rA rB : RegId} {imm : Imm String} {toks : List Token} (hA : rA ≠ regNone)
    (h : MemToks imm rB toks) :
    InsnToks ⟨.rmmovq, 0, rA, rB, imm⟩
      (.instr "rmmovq" :: .reg (regName rA) :: .punct ',' :: toks)
  | load {rA rB : RegId} {imm : Imm String} {toks : List Token} (hA : rA ≠ regNone)
    (h : MemToks imm rB toks) :
    InsnToks ⟨.mrmovq, 0, rA, rB, imm⟩
      (.instr "mrmovq" :: toks ++ [.punct ',', .reg (regName rA)])
  | dest {name : String} {t : IType} {fn : Fun} (rA rB : RegId) (imm : Imm String)
    (h : (name, t, fn) ∈ destInsns) : InsnToks ⟨t, fn, rA, rB, imm⟩ [.instr name, immTok imm]
  | stack {name : String} {t : IType} {fn : Fun} {rA : RegId} (imm : Imm String)
    (h : (name, t, fn) ∈ stackInsns) (hA : rA ≠ regNone) :
    InsnToks ⟨t, fn, rA, regNone, imm⟩ [.instr name, .reg (regName rA)]

/-! ## The table -/

/-- The entry of an instruction of one form. -/
def Entry (bytes : Nat) (arg1 : Arg) (pos1 hi1 : Nat) (arg2 : Arg) (pos2 hi2 : Nat)
    (q : String × IType × Fun) : Prop :=
  findInstr q.1 =
    some ⟨q.1, hpack q.2.1.code q.2.2, bytes, arg1, pos1, hi1, arg2, pos2, hi2⟩ ∧
  q.1 ≠ ".pos" ∧ q.1 ≠ ".align" ∧ insnLen q.2.1 = bytes ∧
  needRegids q.2.1 = (bytes % 8 == 2) ∧ needImm q.2.1 = decide (8 ≤ bytes)

instance (bytes : Nat) (arg1 : Arg) (pos1 hi1 : Nat) (arg2 : Arg) (pos2 hi2 : Nat)
    (q : String × IType × Fun) : Decidable (Entry bytes arg1 pos1 hi1 arg2 pos2 hi2 q) :=
  inferInstanceAs (Decidable (_ ∧ _))

theorem entry_plain : ∀ q ∈ plainInsns, Entry 1 .noArg 0 0 .noArg 0 0 q := by decide

theorem entry_regs : ∀ q ∈ regInsns, Entry 2 .rArg 1 1 .rArg 1 0 q := by decide

theorem entry_imm : ∀ q ∈ immInsns, Entry 10 .iArg 2 8 .rArg 1 0 q := by decide

theorem entry_store : Entry 10 .rArg 1 1 .mArg 1 0 ("rmmovq", .rmmovq, 0) := by decide

theorem entry_load : Entry 10 .mArg 1 0 .rArg 1 1 ("mrmovq", .mrmovq, 0) := by decide

theorem entry_dest : ∀ q ∈ destInsns, Entry 9 .iArg 1 8 .noArg 0 0 q := by decide

theorem entry_stack : ∀ q ∈ stackInsns, Entry 2 .rArg 1 1 .noArg 0 0 q := by decide

/-! ## Operands -/

theorem byte_high : ∀ rA rB : RegId,
    (hpack regNone rB &&& 0x0F) ||| BitVec.ofNat 8 rA.toNat <<< 4 = hpack rA rB := by
  decide

theorem byte_low : ∀ rA rB : RegId,
    (hpack rA regNone &&& 0xF0) ||| BitVec.ofNat 8 rB.toNat = hpack rA rB := by
  decide

theorem byte_mem : ∀ rA rB : RegId,
    (hpack rA regNone &&& 0xF0) ||| (BitVec.ofNat 8 rB.toNat &&& 0x0F) = hpack rA rB := by
  decide

/-- The value of a constant, when its symbol is in the table. -/
def immVal (symbols : Symbols) : Imm String → Option Word
  | .num val => some val
  | .sym name => (findSymbol symbols name).map (BitVec.ofInt 64)

section
variable {symbols : Symbols} {toks : List Token} {code : Nat → Byte} {err : Bool} {val : Word}

theorem getReg_high {rA rB : RegId} (hA : rA ≠ regNone) (hc : code 1 = hpack regNone rB) :
    getReg 1 1 ⟨.reg (regName rA) :: toks, code, err⟩ =
      ⟨toks, Function.update code 1 (hpack rA rB), err⟩ := by
  rw [getReg]
  dsimp only [Operands.tok, Operands.next, List.headD_cons, List.tail_cons]
  rw [findRegister_regName rA hA, if_pos (by decide), hc, byte_high]

theorem getReg_low {rA rB : RegId} (hB : rB ≠ regNone) (hc : code 1 = hpack rA regNone) :
    getReg 1 0 ⟨.reg (regName rB) :: toks, code, err⟩ =
      ⟨toks, Function.update code 1 (hpack rA rB), err⟩ := by
  rw [getReg]
  dsimp only [Operands.tok, Operands.next, List.headD_cons, List.tail_cons]
  rw [findRegister_regName rB hB, if_neg (by decide), hc, byte_low]

theorem symbol_immVal {name : String} (a : Operands) (h : immVal symbols (.sym name) = some val) :
    a.symbol symbols name = (val, a) := by
  obtain ⟨pos, hp, hv⟩ := Option.map_eq_some_iff.mp h
  rw [Operands.symbol, hp]
  exact Prod.ext hv rfl

theorem getNum_immTok {imm : Imm String} (pos bytes : Nat) (h : immVal symbols imm = some val) :
    getNum symbols pos bytes 0 ⟨immTok imm :: toks, code, err⟩ =
      ⟨toks, setBytes code pos bytes val, err⟩ := by
  cases imm with
  | num v =>
      have hv : v = val := Option.some.inj h
      change Operands.mk toks (setBytes code pos bytes (v - 0)) err = _
      rw [hv, show val - 0 = val from BitVec.sub_zero val]
  | sym name =>
      have hs := symbol_immVal ⟨.ident name :: toks, code, err⟩ h
      rw [getNum]
      dsimp only [immTok, Operands.tok, List.headD_cons]
      rw [hs]
      dsimp only [Operands.next, List.tail_cons]
      rw [show val - 0 = val from BitVec.sub_zero val]

theorem getDisp_immTok {imm : Imm String} (h : immVal symbols imm = some val) :
    getDisp symbols ⟨immTok imm :: toks, code, err⟩ = (val, ⟨toks, code, err⟩) := by
  cases imm with
  | num v =>
      cases Option.some.inj h
      rfl
  | sym name =>
      have hs := symbol_immVal ⟨.ident name :: toks, code, err⟩ h
      rw [getDisp]
      dsimp only [immTok, Operands.tok, List.headD_cons]
      rw [hs]
      rfl

theorem getBase_reg {rB : RegId} (hB : rB ≠ regNone) :
    getBase ⟨.punct '(' :: .reg (regName rB) :: .punct ')' :: toks, code, err⟩ =
      (some rB.toNat, ⟨toks, code, err⟩) := by
  rw [← findRegister_regName rB hB]
  rfl

/-- A memory reference, up to a token that does not go on with it. -/
theorem getMem_memToks {imm : Imm String} {rA rB : RegId} {ref : List Token}
    (h : MemToks imm rB ref) (hv : immVal symbols imm = some val)
    (hend : toks.headD .err ≠ .punct '(') (hc : code 1 = hpack rA regNone) :
    getMem symbols 1 ⟨ref ++ toks, code, err⟩ =
      ⟨toks, setBytes (Function.update code 1 (hpack rA rB)) 2 8 val, err⟩ := by
  rw [getMem]
  cases h with
  | disp imm =>
      have hnone : BitVec.ofNat 8 15 = BitVec.ofNat 8 regNone.toNat := rfl
      have hb : getBase ⟨toks, code, err⟩ = (some 15, ⟨toks, code, err⟩) := if_neg hend
      rw [List.singleton_append, getDisp_immTok hv]
      dsimp only
      rw [hb]
      dsimp only
      rw [hc, hnone, byte_mem]
  | base hB =>
      have hd : getDisp symbols
          ⟨[.punct '(', .reg (regName rB), .punct ')'] ++ toks, code, err⟩ =
            (0, ⟨.punct '(' :: .reg (regName rB) :: .punct ')' :: toks, code, err⟩) := rfl
      have h0 : 0 = val := Option.some.inj hv
      rw [hd, h0]
      dsimp only
      rw [getBase_reg hB]
      dsimp only
      rw [hc, byte_mem]
  | both imm hB =>
      have hd : getDisp symbols
          ⟨[immTok imm, .punct '(', .reg (regName rB), .punct ')'] ++ toks, code, err⟩ =
            (val, ⟨.punct '(' :: .reg (regName rB) :: .punct ')' :: toks, code, err⟩) :=
        getDisp_immTok hv
      rw [hd]
      dsimp only
      rw [getBase_reg hB]
      dsimp only
      rw [hc, byte_mem]

theorem rArg_ne : Arg.rArg ≠ .noArg := by decide

theorem comma_ne : Token.punct ',' ≠ .punct '(' := by decide

theorem getOperands_one {instr : Instr} {a a' : Operands} (h2 : instr.arg2 = .noArg)
    (h : getArg symbols instr.arg1 instr.arg1pos instr.arg1hi a = a') :
    getOperands symbols instr a = (a', true) := by
  subst h
  exact if_pos h2

theorem getOperands_two {instr : Instr} {a a' a'' : Operands} (h2 : instr.arg2 ≠ .noArg)
    (h : getArg symbols instr.arg1 instr.arg1pos instr.arg1hi a = a')
    (hc : a'.tok = .punct ',')
    (h' : getArg symbols instr.arg2 instr.arg2pos instr.arg2hi a'.next = a'') :
    getOperands symbols instr a = (a'', true) := by
  subst h h'
  exact (if_neg h2).trans (if_pos hc)

/-- The constant stands behind the bytes before it. -/
theorem map_setBytes (code : Nat → Byte) (k : Nat) (val : Word) :
    (List.range (k + 8)).map (setBytes code k 8 val) = (List.range k).map code ++ wordBytes val := by
  rw [List.range_add, List.map_append, List.map_map, wordBytes]
  congr 1
  · refine List.map_congr_left fun i hi => ?_
    have hk : i < k := List.mem_range.mp hi
    exact if_neg (by omega)
  · refine List.map_congr_left fun i hi => ?_
    have h8 : i < 8 := List.mem_range.mp hi
    change setBytes code k 8 val (k + i) = _
    rw [setBytes, if_pos (by omega), Nat.add_sub_cancel_left]

theorem update_setBytes {pos k : Nat} (c : Byte) (val : Word) (h : pos < k) :
    Function.update (setBytes code k 8 val) pos c =
      setBytes (Function.update code pos c) k 8 val := by
  funext j
  rcases eq_or_ne j pos with rfl | hj
  · rw [Function.update_self, setBytes, if_neg (by omega), Function.update_self]
  · rw [Function.update_of_ne hj, setBytes, setBytes, Function.update_of_ne hj]

theorem getMem_end {imm : Imm String} {rA rB : RegId} {ref : List Token}
    (h : MemToks imm rB ref) (hv : immVal symbols imm = some val)
    (hc : code 1 = hpack rA regNone) :
    getMem symbols 1 ⟨ref, code, err⟩ =
      ⟨[], setBytes (Function.update code 1 (hpack rA rB)) 2 8 val, err⟩ := by
  have hm := @getMem_memToks symbols [] code err val imm rA rB ref h hv (by decide) hc
  rwa [List.append_nil] at hm

end

/-- The code when the operands are taken. -/
def startCode (code : Nat → Byte) (c : Byte) : Nat → Byte :=
  Function.update (Function.update code 0 c) 1 (hpack regNone regNone)

@[simp] theorem startCode_zero (code : Nat → Byte) (c : Byte) : startCode code c 0 = c := rfl

@[simp] theorem startCode_one (code : Nat → Byte) (c : Byte) :
    startCode code c 1 = hpack regNone regNone := rfl

/-- What the second pass makes of an instruction of the source. -/
def Encodes (i : Insn String) (instr : Instr) (rest : List Token) : Prop :=
  ∀ (symbols : Symbols) (val : Word) (code : Nat → Byte) (err : Bool),
    (needImm i.itype = true → immVal symbols i.imm = some val) →
      ∃ code', getOperands symbols instr ⟨rest, startCode code instr.code, err⟩ =
          (⟨[], code', err⟩, true) ∧
        (List.range instr.bytes).map code' = encode i val

/-- The entry for an instruction of the source, and its operands. -/
theorem InsnToks.encodes {i : Insn String} {toks : List Token} (h : InsnToks i toks) :
    ∃ name rest instr, toks = .instr name :: rest ∧ findInstr name = some instr ∧
      name ≠ ".pos" ∧ name ≠ ".align" ∧ instr.bytes = insnLen i.itype ∧ Encodes i instr rest := by
  cases h with
  | @plain name t fn rA rB imm h =>
      obtain ⟨hf, hp, ha, hl, hr, hi⟩ := entry_plain _ h
      refine ⟨name, [], _, rfl, hf, hp, ha, hl.symm, fun symbols val code err _ =>
        ⟨startCode code _, rfl, ?_⟩⟩
      dsimp only at hr hi
      rw [encode, hr, hi]
      rfl
  | @regs name t fn rA rB imm h hA hB =>
      obtain ⟨hf, hp, ha, hl, hr, hi⟩ := entry_regs _ h
      refine ⟨name, _, _, rfl, hf, hp, ha, hl.symm, fun symbols val code err _ => ⟨_,
        getOperands_two rArg_ne (getReg_high hA (startCode_one _ _)) rfl
          (getReg_low hB rfl), ?_⟩⟩
      dsimp only at hr hi
      rw [encode, hr, hi]
      rfl
  | @imm name t fn rB imm h hB =>
      obtain ⟨hf, hp, ha, hl, hr, hi⟩ := entry_imm _ h
      refine ⟨name, _, _, rfl, hf, hp, ha, hl.symm, fun symbols val code err hv => ⟨_,
        getOperands_two rArg_ne (getNum_immTok 2 8 (hv hi)) rfl
          (getReg_low hB rfl), ?_⟩⟩
      dsimp only at hr hi
      rw [encode, hr, hi, update_setBytes _ val (by decide)]
      exact map_setBytes _ 2 val
  | @store rA rB imm toks hA h =>
      obtain ⟨hf, hp, ha, hl, hr, hi⟩ := entry_store
      refine ⟨_, _, _, rfl, hf, hp, ha, hl.symm, fun symbols val code err hv => ⟨_,
        getOperands_two (by decide) (getReg_high hA (startCode_one _ _)) rfl
          (getMem_end h (hv hi) rfl), ?_⟩⟩
      dsimp only at hr hi
      rw [encode, hr, hi]
      exact map_setBytes _ 2 val
  | @load rA rB imm toks hA h =>
      obtain ⟨hf, hp, ha, hl, hr, hi⟩ := entry_load
      refine ⟨_, _, _, rfl, hf, hp, ha, hl.symm, fun symbols val code err hv => ⟨_,
        getOperands_two rArg_ne (getMem_memToks h (hv hi) comma_ne (startCode_one _ _)) rfl
          (getReg_high hA rfl), ?_⟩⟩
      dsimp only at hr hi
      rw [encode, hr, hi, update_setBytes _ val (by decide)]
      exact map_setBytes _ 2 val
  | @dest name t fn rA rB imm h =>
      obtain ⟨hf, hp, ha, hl, hr, hi⟩ := entry_dest _ h
      refine ⟨name, _, _, rfl, hf, hp, ha, hl.symm, fun symbols val code err hv => ⟨_,
        getOperands_one rfl (getNum_immTok 1 8 (hv hi)), ?_⟩⟩
      dsimp only at hr hi
      rw [encode, hr, hi]
      exact map_setBytes _ 1 val
  | @stack name t fn rA imm h hA =>
      obtain ⟨hf, hp, ha, hl, hr, hi⟩ := entry_stack _ h
      refine ⟨name, _, _, rfl, hf, hp, ha, hl.symm, fun symbols val code err _ => ⟨_,
        getOperands_one rfl (getReg_high hA (startCode_one _ _)), ?_⟩⟩
      dsimp only at hr hi
      rw [encode, hr, hi]
      rfl

/-! ## Lines -/

/-- The tokens of a line of a program. -/
inductive LineToks : List Token → List (Line String) → Prop
  | blank : LineToks [] []
  | label (name : String) : LineToks [.ident name, .punct ':'] [.label name]
  | insn {i : Insn String} {toks : List Token} (h : InsnToks i toks) : LineToks toks [.insn i]
  | both (name : String) {i : Insn String} {toks : List Token} (h : InsnToks i toks) :
    LineToks (.ident name :: .punct ':' :: toks) [.label name, .insn i]

/-- A line of the source, short enough for the buffers. -/
structure Written (l : SrcLine) (p : List (Line String)) : Prop where
  toks : LineToks l.toks p
  strpos : l.strpos ≤ strMax
  text : Readable l.text

/-- The bytes of a program. -/
def codeSize (p : List (Line String)) : Nat := (p.map Line.size).sum

/-- What the first pass adds to the table of symbols. -/
def symtab : Nat → List (Line String) → Symbols
  | _, [] => []
  | b, .label name :: p => (name, (b : Int)) :: symtab b p
  | b, .insn i :: p => symtab (b + insnLen i.itype) p

theorem codeSize_append (p q : List (Line String)) :
    codeSize (p ++ q) = codeSize p + codeSize q := by
  rw [codeSize, List.map_append, List.sum_append]
  rfl

theorem symtab_append : ∀ (b : Nat) (p q : List (Line String)),
    symtab b (p ++ q) = symtab b p ++ symtab (b + codeSize p) q
  | b, [], q => rfl
  | b, .label name :: p, q => by
      have hsize : codeSize (.label name :: p) = codeSize p := Nat.zero_add _
      rw [List.cons_append, symtab, symtab, symtab_append b p q, hsize, List.cons_append]
  | b, .insn i :: p, q => by
      rw [List.cons_append, symtab, symtab, symtab_append _ p q, codeSize, codeSize, List.map_cons,
        List.sum_cons, Line.size, Nat.add_assoc]

theorem length_symtab : ∀ (b : Nat) (p : List (Line String)),
    (symtab b p).length = (labels p).length
  | _, [] => rfl
  | b, .label _ :: p => congrArg (· + 1) (length_symtab b p)
  | b, .insn i :: p => length_symtab (b + insnLen i.itype) p

theorem labels_append (p q : List (Line String)) : labels (p ++ q) = labels p ++ labels q :=
  List.filterMap_append

/-- Both tables give a name the first line that has it. -/
theorem findSymbol_symtab (name : String) : ∀ (b : Nat) (p : List (Line String)),
    findSymbol (symtab b p) name = (Y86.findSymbol b p name).map Nat.cast
  | _, [] => rfl
  | b, .label l :: p => by
      rw [symtab, findSymbol, Y86.findSymbol, List.find?_cons]
      by_cases h : l = name
      · rw [if_pos h, decide_eq_true h]
        rfl
      · rw [if_neg h, decide_eq_false h]
        exact findSymbol_symtab name b p
  | b, .insn i :: p => findSymbol_symtab name (b + insnLen i.itype) p

theorem findSymbol_of_mem {name : String} : ∀ (b : Nat) (p : List (Line String)),
    name ∈ labels p → ∃ pos, Y86.findSymbol b p name = some pos
  | b, .label l :: p, h => by
      rw [Y86.findSymbol]
      by_cases hl : l = name
      · exact ⟨b, if_pos hl⟩
      · rw [if_neg hl]
        rcases List.mem_cons.mp h with he | h
        · exact absurd he.symm hl
        · exact findSymbol_of_mem b p h
  | b, .insn i :: p, h => findSymbol_of_mem (b + insnLen i.itype) p h

/-- A symbol of the program has the value that `get_num` of the model has. -/
theorem immVal_symtab {p : List (Line String)} {imm : Imm String}
    (h : ∀ name, imm = .sym name → name ∈ labels p) :
    immVal (symtab 0 p) imm = some (Y86.getNum 0 p imm) := by
  cases imm with
  | num val => rfl
  | sym name =>
      obtain ⟨pos, hpos⟩ := findSymbol_of_mem 0 p (h name rfl)
      rw [immVal, findSymbol_symtab, Y86.getNum, hpos]
      exact congrArg some (BitVec.ofInt_natCast 64 pos)

/-! ## The passes -/

section
variable {b : Nat} {symbols : Symbols} {code : Nat → Byte} {err : Bool} {out : List Printed}
  {txt : CStr} {toks : List Token} {i : Insn String}

theorem finishInstr_first (h : InsnToks i toks) (hb : b + insnLen i.itype < 2147483648) :
    finishInstr false txt toks ⟨b, symbols, code, err, out⟩ =
      some ⟨(b + insnLen i.itype : Nat), symbols, code, err, out⟩ := by
  obtain ⟨name, rest, instr, rfl, hf, hp, ha, hl, -⟩ := h.encodes
  rw [← hl] at hb
  have hfit : FitsInt ((b : Int) + (instr.bytes : Nat)) := by
    rw [FitsInt]
    omega
  rw [finishInstr, ← hl]
  dsimp only [List.headD_cons, List.tail_cons]
  rw [if_neg hp, if_neg ha, instrLine, hf]
  dsimp only [Option.getD_some]
  rw [if_neg (Option.some_ne_none instr)]
  dsimp only
  rw [if_neg (not_not.mpr hfit), if_pos rfl, Nat.cast_add]

theorem finishInstr_second {val : Word} (h : InsnToks i toks)
    (hb : b + insnLen i.itype ≤ 0xFFFF)
    (hv : needImm i.itype = true → immVal symbols i.imm = some val) :
    ∃ code', finishInstr true txt toks ⟨b, symbols, code, err, out⟩ =
      some ⟨(b + insnLen i.itype : Nat), symbols, code', err,
        out ++ [⟨b, some (encode i val), txt⟩]⟩ := by
  obtain ⟨name, rest, instr, rfl, hf, hp, ha, hl, henc⟩ := h.encodes
  obtain ⟨code', hops, hcode⟩ := henc symbols val code err hv
  rw [← hl] at hb
  have hfit : FitsInt ((b : Int) + (instr.bytes : Nat)) := by
    rw [FitsInt]
    omega
  refine ⟨code', ?_⟩
  rw [finishInstr, ← hl]
  dsimp only [List.headD_cons, List.tail_cons]
  rw [if_neg hp, if_neg ha, instrLine, hf]
  dsimp only [Option.getD_some]
  rw [if_neg (Option.some_ne_none instr)]
  dsimp only
  rw [startCode] at hops
  rw [hops, hcode]
  dsimp only
  rw [if_neg (not_not.mpr hfit), if_neg (by decide), if_pos rfl, St.print,
    if_neg (by decide), if_neg (by dsimp only; omega), Nat.cast_add]

theorem MemToks.length_le {imm : Imm String} {rB : RegId} {ref : List Token}
    (h : MemToks imm rB ref) : ref.length ≤ 4 := by
  cases h <;> simp

theorem InsnToks.length_le (h : InsnToks i toks) : toks.length ≤ 7 := by
  cases h with
  | store hA h =>
      have hl := h.length_le
      simp only [List.length_cons]
      omega
  | load hA h =>
      have hl := h.length_le
      simp only [List.length_append, List.length_cons, List.length_nil]
      omega
  | _ => simp

theorem LineToks.length_le {p : List (Line String)} (h : LineToks toks p) :
    toks.length ≤ tokPerLine := by
  have h12 : tokPerLine = 12 := rfl
  cases h with
  | blank => simp
  | label name => simp [h12]
  | insn h =>
      have hl := h.length_le
      omega
  | both name h =>
      have hl := h.length_le
      simp only [List.length_cons]
      omega

theorem InsnToks.ne_nil (h : InsnToks i toks) : toks ≠ [] := by
  obtain ⟨_, _, _, rfl, -⟩ := h.encodes
  exact List.cons_ne_nil _ _

theorem immTok_ne (imm : Imm String) (name : String) : Token.instr name ≠ immTok imm := by
  cases imm <;> simp [immTok]

theorem MemToks.no_instr {imm : Imm String} {rB : RegId} {ref : List Token}
    (h : MemToks imm rB ref) (name : String) : .instr name ∉ ref := by
  cases h <;> simp [immTok_ne]

/-- No directive is among the tokens of an instruction. -/
theorem InsnToks.no_pos (h : InsnToks i toks) : .instr ".pos" ∉ toks := by
  cases h with
  | plain rA rB imm h =>
      have hp := (entry_plain _ h).2.1.symm
      simpa using hp
  | regs imm h hA hB =>
      have hp := (entry_regs _ h).2.1.symm
      simpa using hp
  | imm imm h hB =>
      have hp := (entry_imm _ h).2.1.symm
      simpa [immTok_ne] using hp
  | store hA h => simp [h.no_instr]
  | load hA h => simp [h.no_instr]
  | dest rA rB imm h =>
      have hp := (entry_dest _ h).2.1.symm
      simpa [immTok_ne] using hp
  | stack imm h hA =>
      have hp := (entry_stack _ h).2.1.symm
      simpa using hp

theorem LineToks.nonnegPos {p : List (Line String)} (h : LineToks toks p) : NonnegPos toks := by
  have hno : .instr ".pos" ∉ toks := by
    cases h with
    | blank => simp
    | label name => simp
    | insn h => exact h.no_pos
    | both name h => simpa using h.no_pos
  intro pre v rest he
  exact absurd (by rw [he]; simp) hno

/-- The tests in front of `finish_line` pass. -/
theorem Written.fits {l : SrcLine} {p : List (Line String)} (h : Written l p) :
    ¬(tokPerLine < l.toks.length ∨ strMax ≤ l.text.length + 1) ∧ ¬strMax < l.strpos := by
  have hl := h.toks.length_le
  have ht := h.text.1
  have h4096 : strMax = 4096 := rfl
  exact ⟨by omega, Nat.not_lt.mpr h.strpos⟩

/-- A line in the first pass. -/
theorem finishLine_first {l : SrcLine} {p : List (Line String)} (h : Written l p)
    (hb : b + codeSize p < 2147483648) (hs : symbols.length + (labels p).length ≤ stab) :
    finishLine false ⟨b, symbols, code, err, out⟩ l =
      some ⟨(b + codeSize p : Nat), symbols ++ symtab b p, code, err, out⟩ := by
  obtain ⟨hfit, hstr⟩ := h.fits
  obtain ⟨txt, toks⟩ := l
  have ht : LineToks toks p := h.toks
  rw [finishLine, if_neg hfit]
  have hadd : ∀ name : String, symbols.length + 1 ≤ stab →
      St.addSymbol false name ⟨b, symbols, code, err, out⟩ =
        some ⟨b, symbols ++ [(name, (b : Int))], code, err, out⟩ := fun name hs => by
    rw [St.addSymbol, if_neg (by decide), if_neg (by dsimp only; omega)]
  cases ht with
  | blank =>
      rw [symtab, List.append_nil]
      rfl
  | label name =>
      dsimp only
      rw [if_neg hstr, if_pos (show [Token.punct ':'].headD .err = .punct ':' from rfl),
        hadd name hs]
      rfl
  | @insn i toks hi =>
      obtain ⟨name, rest, instr, rfl, -⟩ := hi.encodes
      dsimp only
      rw [if_neg hstr, finishInstr_first hi hb, symtab, symtab, List.append_nil]
      rfl
  | @both name i toks hi =>
      have hsize : codeSize [.label name, .insn i] = insnLen i.itype := Nat.zero_add _
      rw [hsize] at hb ⊢
      dsimp only
      rw [if_neg hstr, if_pos (show (Token.punct ':' :: toks).headD .err = .punct ':' from rfl),
        hadd name hs]
      dsimp only
      rw [if_neg (show (Token.punct ':' :: toks).tail ≠ [] from hi.ne_nil)]
      refine (finishInstr_first hi hb).trans ?_
      rfl

/-- A line in the second pass, which prints its code at its address. -/
theorem finishLine_second {l : SrcLine} {p P : List (Line String)} (h : Written l p)
    (hb : b + codeSize p ≤ 0xFFFF)
    (hv : ∀ i, .insn i ∈ p → needImm i.itype = true →
      immVal symbols i.imm = some (Y86.getNum 0 P i.imm)) :
    ∃ (code' : Nat → Byte) (o : Printed), finishLine true ⟨b, symbols, code, err, out⟩ l =
        some ⟨(b + codeSize p : Nat), symbols, code', err, out ++ [o]⟩ ∧
      o.pos = (b : Int) ∧ o.code.getD [] = p.flatMap (encodeLine 0 P) := by
  obtain ⟨hfit, hstr⟩ := h.fits
  obtain ⟨txt, toks⟩ := l
  have ht : LineToks toks p := h.toks
  rw [finishLine, if_neg hfit]
  cases ht with
  | blank => exact ⟨code, ⟨b, none, txt⟩, rfl, rfl, rfl⟩
  | label name =>
      refine ⟨code, ⟨b, some [], txt⟩, ?_, rfl, rfl⟩
      have hb' : b ≤ 0xFFFF := hb
      dsimp only
      rw [if_neg hstr, if_pos (show [Token.punct ':'].headD .err = .punct ':' from rfl),
        St.addSymbol, if_pos rfl]
      dsimp only
      rw [if_pos (show [Token.punct ':'].tail = [] from rfl), St.print, if_neg (by decide),
        if_neg (by dsimp only; omega)]
      rfl
  | @insn i toks hi =>
      have hval := hv i List.mem_cons_self
      obtain ⟨code', hfin⟩ := @finishInstr_second b symbols code err out txt _ i _ hi hb hval
      obtain ⟨name, rest, instr, rfl, -⟩ := hi.encodes
      refine ⟨code', ⟨b, some (encode i (Y86.getNum 0 P i.imm)), txt⟩, ?_, rfl, ?_⟩
      · dsimp only
        rw [if_neg hstr, hfin]
        rfl
      · rw [List.flatMap_cons, List.flatMap_nil, List.append_nil]
        rfl
  | @both name i toks hi =>
      have hsize : codeSize [.label name, .insn i] = insnLen i.itype := Nat.zero_add _
      rw [hsize] at hb ⊢
      have hval := hv i (List.mem_cons_of_mem _ List.mem_cons_self)
      obtain ⟨code', hfin⟩ := @finishInstr_second b symbols code err out txt _ i _ hi hb hval
      refine ⟨code', ⟨b, some (encode i (Y86.getNum 0 P i.imm)), txt⟩, ?_, rfl, ?_⟩
      · dsimp only
        rw [if_neg hstr, if_pos (show (Token.punct ':' :: toks).headD .err = .punct ':' from rfl),
          St.addSymbol, if_pos rfl]
        dsimp only
        rw [if_neg (show (Token.punct ':' :: toks).tail ≠ [] from hi.ne_nil)]
        exact hfin
      · rw [List.flatMap_cons, List.flatMap_cons, List.flatMap_nil, List.append_nil]
        rfl

/-- A first pass finds the symbols of the whole program. -/
theorem yylex_first {src : List SrcLine} {ps : List (List (Line String))}
    (h : List.Forall₂ Written src ps) :
    ∀ {b : Nat} {symbols : Symbols}, b + codeSize ps.flatten < 2147483648 →
      symbols.length + (labels ps.flatten).length ≤ stab →
      yylex false ⟨b, symbols, code, err, out⟩ src =
        some ⟨(b + codeSize ps.flatten : Nat), symbols ++ symtab b ps.flatten, code, err, out⟩ := by
  induction h with
  | nil =>
      intro b symbols _ _
      exact congrArg some (by rw [List.flatten_nil, symtab, List.append_nil]; rfl)
  | @cons l p src ps hl _ ih =>
      intro b symbols hb hs
      rw [List.flatten_cons, codeSize_append] at hb
      rw [List.flatten_cons, labels_append, List.length_append] at hs
      rw [yylex, List.foldlM_cons, finishLine_first hl (by omega) (by omega)]
      refine (@ih (b + codeSize p) (symbols ++ symtab b p) (by omega) ?_).trans ?_
      · rw [List.length_append, length_symtab]
        omega
      · rw [List.flatten_cons, codeSize_append, symtab_append, List.append_assoc, Nat.add_assoc]

/-- Lines of code one behind the other. -/
inductive Contiguous : Nat → List Printed → List Byte → Prop
  | nil (b : Nat) : Contiguous b [] []
  | cons {b : Nat} {o : Printed} {outs : List Printed} {bytes : List Byte}
    (hp : o.pos = (b : Int)) (h : Contiguous (b + (o.code.getD []).length) outs bytes) :
    Contiguous b (o :: outs) (o.code.getD [] ++ bytes)

/-- A second pass prints the bytes of the program one behind the other. -/
theorem yylex_second {P : List (Line String)} {src : List SrcLine}
    {ps : List (List (Line String))} (h : List.Forall₂ Written src ps) :
    ∀ {b : Nat} {code : Nat → Byte} {out : List Printed}, b + codeSize ps.flatten ≤ 0xFFFF →
      (∀ i, .insn i ∈ ps.flatten → needImm i.itype = true →
        immVal symbols i.imm = some (Y86.getNum 0 P i.imm)) →
      ∃ s outs, yylex true ⟨b, symbols, code, err, out⟩ src = some s ∧ s.hitError = err ∧
        s.out = out ++ outs ∧ Contiguous b outs (ps.flatten.flatMap (encodeLine 0 P)) := by
  induction h with
  | nil =>
      intro b code out _ _
      exact ⟨_, [], rfl, rfl, (List.append_nil out).symm, .nil b⟩
  | @cons l p src ps hl _ ih =>
      intro b code out hb hv
      rw [List.flatten_cons, codeSize_append] at hb
      obtain ⟨code', o, hline, hpos, hcode⟩ := @finishLine_second b symbols code err out l p P hl
        (by omega) fun i hi => hv i (by rw [List.flatten_cons]; exact List.mem_append_left _ hi)
      have hsize : (o.code.getD []).length = codeSize p := by
        rw [hcode, List.length_flatMap, codeSize]
        exact congrArg List.sum (List.map_congr_left fun x _ => length_encodeLine 0 P x)
      obtain ⟨s, outs, hrest, herr, hout, hcont⟩ := @ih (b + codeSize p) code' (out ++ [o])
        (by omega) fun i hi => hv i (by rw [List.flatten_cons]; exact List.mem_append_right _ hi)
      refine ⟨s, o :: outs, ?_, herr, ?_, ?_⟩
      · rw [yylex, List.foldlM_cons, hline]
        exact hrest
      · rw [hout, List.append_assoc, List.singleton_append]
      · rw [List.flatten_cons, List.flatMap_append, ← hcode]
        exact .cons hpos (by rwa [hsize])

end

/-! ## In memory -/

theorem chunks_cons (o : Printed) (outs : List Printed) :
    chunks (o :: outs) = (o.code.map fun code => (o.pos.toNat, code)).toList ++ chunks outs := by
  rw [chunks, List.filterMap_cons]
  cases o.code <;> rfl

/-- The bytes of the program are the image of its listing. -/
theorem Contiguous.image {b : Nat} {outs : List Printed} {bytes : List Byte}
    (h : Contiguous b outs bytes) (a : Nat) :
    image (chunks outs) a = if b ≤ a then bytes[a - b]? else none := by
  induction h with
  | nil b => simp [chunks, Yas.image]
  | @cons b o outs bytes hp h ih =>
      have hstep : Yas.image (chunks (o :: outs)) a =
          (Yas.image (chunks outs) a).or (if b ≤ a then (o.code.getD [])[a - b]? else none) := by
        rw [chunks_cons]
        cases hc : o.code with
        | none => simp
        | some code =>
            have hb : o.pos.toNat = b := by rw [hp, Int.toNat_natCast]
            rw [Option.map_some, hb]
            rfl
      rw [hstep, ih]
      by_cases hb : b ≤ a
      · rw [if_pos hb, if_pos hb]
        rcases Nat.lt_or_ge (a - b) (o.code.getD []).length with hlt | hge
        · rw [if_neg (by omega), List.getElem?_append_left hlt, Option.none_or]
        · rw [if_pos (by omega), List.getElem?_append_right hge, List.getElem?_eq_none hge,
            Option.or_none, Nat.sub_add_eq]
      · rw [if_neg hb, if_neg (by omega), if_neg hb]
        rfl

theorem Contiguous.room {m : Mem} {b : Nat} {outs : List Printed} {bytes : List Byte}
    (h : Contiguous b outs bytes) (hm : b + bytes.length ≤ m.len) :
    Room m (chunks outs) ∧ size (chunks outs) = bytes.length := by
  induction h with
  | nil b => exact ⟨fun c hc => absurd hc List.not_mem_nil, rfl⟩
  | @cons b o outs bytes hp h ih =>
      rw [List.length_append] at hm
      obtain ⟨hroom, hsize⟩ := ih (by omega)
      rw [chunks_cons]
      cases hc : o.code with
      | none => exact ⟨hroom, hsize⟩
      | some code =>
          rw [hc] at hm
          have hb : o.pos.toNat = b := by rw [hp, Int.toNat_natCast]
          refine ⟨List.forall_mem_cons.mpr ⟨fun _ => ?_, hroom⟩, ?_⟩
          · dsimp only [Option.getD_some] at hm ⊢
            omega
          · rw [List.length_append, ← hsize]
            rfl

theorem written_of_mem {src : List SrcLine} {ps : List (List (Line String))}
    (h : List.Forall₂ Written src ps) : ∀ l ∈ src, ∃ p, Written l p := by
  induction h with
  | nil => exact fun l hl => absurd hl List.not_mem_nil
  | cons hl _ ih => exact List.forall_mem_cons.mpr ⟨⟨_, hl⟩, ih⟩

/-- A source that is a program assembles without an error, and what the listing
loads is the program that `assemble` has, at address zero. -/
theorem yas_assembles {src : List SrcLine} {ps : List (List (Line String))} (m : Mem)
    (h : List.Forall₂ Written src ps)
    (hsize : (assemble 0 ps.flatten).length ≤ 0xFFFF)
    (hlabels : (labels ps.flatten).length ≤ stab)
    (hsym : ∀ i name, .insn i ∈ ps.flatten → needImm i.itype = true → i.imm = .sym name →
      name ∈ labels ps.flatten)
    (hm : (assemble 0 ps.flatten).length ≤ m.len) :
    ∃ out m', yas src = some (out, false) ∧
      loadMem m (listing out) = some (m', (assemble 0 ps.flatten).length) ∧
      CodeAt m' 0 (assemble 0 ps.flatten) ∧ m'.len = m.len ∧
      ∀ a, (assemble 0 ps.flatten).length ≤ a → m'.contents a = m.contents a := by
  have hcs : codeSize ps.flatten = (assemble 0 ps.flatten).length :=
    (length_assemble 0 ps.flatten).symm
  have hfirst := @yylex_first (fun _ => 0) false [] src ps h 0 [] (by omega)
    (by rw [List.length_nil]; omega)
  rw [List.nil_append] at hfirst
  obtain ⟨s, outs, hsecond, herr, hout, hcont⟩ := @yylex_second (symtab 0 ps.flatten) false
    ps.flatten src ps h 0 (fun _ => 0) [] (by omega)
    fun i hi hn => immVal_symtab fun name he => hsym i name hi hn he
  have hyas : yas src = some (outs, false) := by
    rw [yas]
    rw [show initSt = ⟨(0 : Nat), [], fun _ => 0, false, []⟩ from rfl, hfirst]
    dsimp only
    rw [if_neg (by decide)]
    change Option.map _ (yylex true ⟨(0 : Nat), symtab 0 ps.flatten, fun _ => 0, false, []⟩ src) = _
    rw [hsecond, Option.map_some, hout, herr]
    rfl
  have hread : ∀ l ∈ src, Readable l.text := fun l hl => by
    obtain ⟨p, hw⟩ := written_of_mem h l hl
    exact hw.text
  have hpos : ∀ l ∈ src, NonnegPos l.toks := fun l hl => by
    obtain ⟨p, hw⟩ := written_of_mem h l hl
    exact hw.toks.nonnegPos
  obtain ⟨hroom, hlen⟩ := @Contiguous.room m _ _ _ hcont (by rw [Nat.zero_add]; exact hm)
  refine ⟨outs, written m (chunks outs), hyas, ?_, ⟨?_, fun i hi => ?_⟩, rfl, fun a ha => ?_⟩
  · rw [loadMem_listing (listed_of_yas hyas hread hpos), storeChunks_room hroom, hlen,
      Nat.zero_add]
    rfl
  · rw [Nat.zero_add]
    exact hm
  · change _ = some ((image (chunks outs) (0 + i)).getD (m.contents (0 + i)))
    rw [hcont.image, if_pos (Nat.zero_le _), Nat.zero_add, Nat.sub_zero]
    change (assemble 0 ps.flatten)[i]? = some ((assemble 0 ps.flatten)[i]?.getD _)
    rw [List.getElem?_eq_getElem hi, Option.getD_some]
  · change (image (chunks outs) a).getD (m.contents a) = m.contents a
    rw [hcont.image, if_pos (Nat.zero_le _), Nat.sub_zero]
    change ((assemble 0 ps.flatten)[a]?).getD (m.contents a) = m.contents a
    rw [List.getElem?_eq_none ha, Option.getD_none]

/-- A loop, as it is written. -/
def loopSource : List SrcLine :=
  [⟨text "# count down", []⟩,
    ⟨text "loop: iaddq $-1,%rax",
      [.ident "loop", .punct ':', .instr "iaddq", .num (-1), .punct ',', .reg "%rax"]⟩,
    ⟨text "  jne loop", [.instr "jne", .ident "loop"]⟩,
    ⟨text "  mrmovq 8(%rdi),%r10", [.instr "mrmovq", .num 8, .punct '(', .reg "%rdi", .punct ')',
      .punct ',', .reg "%r10"]⟩,
    ⟨text "  ret", [.instr "ret"]⟩]

/-- And as a program. -/
def loopLines : List (List (Line String)) :=
  [[], [.label "loop", .iaddq (-1) rax], [.jne "loop"], [.mrmovq 8 rdi r10], [.ret]]

theorem written_loop : List.Forall₂ Written loopSource loopLines := by
  refine .cons ⟨.blank, by decide, by decide, by decide⟩ (.cons ⟨?_, by decide, by decide, by decide⟩
    (.cons ⟨?_, by decide, by decide, by decide⟩ (.cons ⟨?_, by decide, by decide, by decide⟩
      (.cons ⟨?_, by decide, by decide, by decide⟩ .nil))))
  · exact .both "loop" (@InsnToks.imm "iaddq" .iaddq 0 rax (.num (-1)) (by decide) (by decide))
  · exact .insn (.dest regNone regNone (.sym "loop") (by decide))
  · exact .insn (.load (by decide) (.both (.num 8) (by decide)))
  · exact .insn (.plain regNone regNone (.num 0) (by decide))

theorem yas_assembles_loop : ∃ out m', yas loopSource = some (out, false) ∧
    loadMem ⟨fun _ => 0, 8192, memSize_lt⟩ (listing out) =
      some (m', (assemble 0 loopLines.flatten).length) ∧
    CodeAt m' 0 (assemble 0 loopLines.flatten) ∧ m'.len = 8192 ∧
    ∀ a, (assemble 0 loopLines.flatten).length ≤ a → m'.contents a = 0 :=
  yas_assembles ⟨fun _ => 0, 8192, memSize_lt⟩ written_loop (by decide) (by decide)
    (by
      intro i name hi hn he
      simp only [loopLines, List.flatten_cons, List.flatten_nil, List.cons_append, List.nil_append,
        List.append_nil, List.mem_cons, reduceCtorEq, false_or, List.not_mem_nil, or_false,
        Line.iaddq, Line.jne, Line.jxx, Line.mrmovq, Line.ret, Line.insn.injEq] at hi
      rcases hi with rfl | rfl | rfl | rfl
      · cases he
      · cases he
        decide
      · cases he
      · cases he)
    (by decide)

end Csapp.Yas
