import Mathlib
import Csapp.Lib.Strtol
import Csapp.Y86.Asm

/-!
# The assembler, line by line

`yas.c` with the tables of `isa.c` it reads: the two passes over the lines,
the table of symbols, the operands and the listing. `yas-grammar.lex` cuts the
source into lines of tokens; that step is left out, and a line is its text with
its tokens. `tpos` is what is left of the tokens, and past the last one there
is `TOK_ERR`, as `start_line` leaves it.

`none` is a run that stops (`exit(1)`) or that leaves what C defines: a line
too long for its arrays, a full table of symbols, an overflow of `bytepos`.
-/

namespace Csapp.Yas

open Y86

/-! ## Tables -/

/-- `token_rec`, with the field that its type uses. -/
inductive Token
  | ident (sval : String)
  | num (ival : Word)
  | reg (sval : String)
  | instr (sval : String)
  | punct (cval : Char)
  | err
deriving DecidableEq

/-- `arg_t`. -/
inductive Arg
  | rArg | mArg | iArg | noArg
deriving DecidableEq

/-- `instr_t`. For a constant, `arg1hi` is its number of bytes. -/
structure Instr where
  name : String
  code : Byte
  bytes : Nat
  arg1 : Arg
  arg1pos : Nat
  arg1hi : Nat
  arg2 : Arg
  arg2pos : Nat
  arg2hi : Nat
deriving DecidableEq

/-- `instruction_set`, without its closing entry. -/
def instructionSet : List Instr :=
  [⟨"nop", hpack 1 0, 1, .noArg, 0, 0, .noArg, 0, 0⟩,
    ⟨"halt", hpack 0 0, 1, .noArg, 0, 0, .noArg, 0, 0⟩,
    ⟨"rrmovq", hpack 2 0, 2, .rArg, 1, 1, .rArg, 1, 0⟩,
    ⟨"cmovle", hpack 2 1, 2, .rArg, 1, 1, .rArg, 1, 0⟩,
    ⟨"cmovl", hpack 2 2, 2, .rArg, 1, 1, .rArg, 1, 0⟩,
    ⟨"cmove", hpack 2 3, 2, .rArg, 1, 1, .rArg, 1, 0⟩,
    ⟨"cmovne", hpack 2 4, 2, .rArg, 1, 1, .rArg, 1, 0⟩,
    ⟨"cmovge", hpack 2 5, 2, .rArg, 1, 1, .rArg, 1, 0⟩,
    ⟨"cmovg", hpack 2 6, 2, .rArg, 1, 1, .rArg, 1, 0⟩,
    ⟨"irmovq", hpack 3 0, 10, .iArg, 2, 8, .rArg, 1, 0⟩,
    ⟨"rmmovq", hpack 4 0, 10, .rArg, 1, 1, .mArg, 1, 0⟩,
    ⟨"mrmovq", hpack 5 0, 10, .mArg, 1, 0, .rArg, 1, 1⟩,
    ⟨"addq", hpack 6 0, 2, .rArg, 1, 1, .rArg, 1, 0⟩,
    ⟨"subq", hpack 6 1, 2, .rArg, 1, 1, .rArg, 1, 0⟩,
    ⟨"andq", hpack 6 2, 2, .rArg, 1, 1, .rArg, 1, 0⟩,
    ⟨"xorq", hpack 6 3, 2, .rArg, 1, 1, .rArg, 1, 0⟩,
    ⟨"jmp", hpack 7 0, 9, .iArg, 1, 8, .noArg, 0, 0⟩,
    ⟨"jle", hpack 7 1, 9, .iArg, 1, 8, .noArg, 0, 0⟩,
    ⟨"jl", hpack 7 2, 9, .iArg, 1, 8, .noArg, 0, 0⟩,
    ⟨"je", hpack 7 3, 9, .iArg, 1, 8, .noArg, 0, 0⟩,
    ⟨"jne", hpack 7 4, 9, .iArg, 1, 8, .noArg, 0, 0⟩,
    ⟨"jge", hpack 7 5, 9, .iArg, 1, 8, .noArg, 0, 0⟩,
    ⟨"jg", hpack 7 6, 9, .iArg, 1, 8, .noArg, 0, 0⟩,
    ⟨"call", hpack 8 0, 9, .iArg, 1, 8, .noArg, 0, 0⟩,
    ⟨"ret", hpack 9 0, 1, .noArg, 0, 0, .noArg, 0, 0⟩,
    ⟨"pushq", hpack 10 0, 2, .rArg, 1, 1, .noArg, 0, 0⟩,
    ⟨"popq", hpack 11 0, 2, .rArg, 1, 1, .noArg, 0, 0⟩,
    ⟨"iaddq", hpack 12 0, 10, .iArg, 2, 8, .rArg, 1, 0⟩,
    ⟨"pop2", hpack 13 0, 0, .noArg, 0, 0, .noArg, 0, 0⟩,
    ⟨".byte", 0, 1, .iArg, 0, 1, .noArg, 0, 0⟩,
    ⟨".word", 0, 2, .iArg, 0, 2, .noArg, 0, 0⟩,
    ⟨".long", 0, 4, .iArg, 0, 4, .noArg, 0, 0⟩,
    ⟨".quad", 0, 8, .iArg, 0, 8, .noArg, 0, 0⟩]

/-- `bad_instr`. -/
def invalidInstr : Instr := ⟨"XXX", 0, 0, .noArg, 0, 0, .noArg, 0, 0⟩

/-- `find_instr`. -/
def findInstr (name : String) : Option Instr := instructionSet.find? (·.name = name)

/-- The names of `reg_table` below `REG_NONE`, in its order. -/
def regTable : List String :=
  ["%rax", "%rcx", "%rdx", "%rbx", "%rsp", "%rbp", "%rsi", "%rdi", "%r8", "%r9", "%r10", "%r11",
    "%r12", "%r13", "%r14"]

/-- `REG_ERR`. -/
def regErr : Nat := 16

/-- `find_register`. -/
def findRegister (name : String) : Nat := (regTable.findIdx? (· = name)).getD regErr

/-! ## Operands -/

/-- What is read and written while the operands of a line are taken. -/
structure Operands where
  toks : List Token
  code : Nat → Byte
  hitError : Bool

/-- `tokens[tpos]`. -/
def Operands.tok (a : Operands) : Token := a.toks.headD .err

/-- `tpos++`. -/
def Operands.next (a : Operands) : Operands := { a with toks := a.toks.tail }

/-- `fail`: the error is noted. -/
def Operands.fail (a : Operands) : Operands := { a with hitError := true }

/-- Bytes `codepos` to `codepos + bytes` of the code are those of `val`. -/
def setBytes (code : Nat → Byte) (codepos bytes : Nat) (val : Word) : Nat → Byte := fun k =>
  if codepos ≤ k ∧ k < codepos + bytes then val.extractLsb' (8 * (k - codepos)) 8 else code k

/-- `symbol_table`. -/
abbrev Symbols := List (String × Int)

/-- `find_symbol`. A name that is not there is an error, and `-1`. -/
def findSymbol (symbols : Symbols) (name : String) : Option Int :=
  (symbols.find? (·.1 = name)).map Prod.snd

/-- A constant that is a symbol: its value, and the state with the error if
there is one. -/
def Operands.symbol (symbols : Symbols) (name : String) (a : Operands) : Word × Operands :=
  match findSymbol symbols name with
  | some pos => (BitVec.ofInt 64 pos, a)
  | none => (-1, a.fail)

/-- `get_reg`. -/
def getReg (codepos hi : Nat) (a : Operands) : Operands :=
  match a.tok with
  | .reg sval =>
    let rval : Byte := BitVec.ofNat 8 (findRegister sval)
    let c := a.code codepos
    let c := if hi ≠ 0 then (c &&& 0x0F) ||| rval <<< 4 else (c &&& 0xF0) ||| rval
    { a.next with code := Function.update a.code codepos c }
  | _ => a.fail

/-- `get_num`. -/
def getNum (symbols : Symbols) (codepos bytes : Nat) (offset : Word) (a : Operands) : Operands :=
  let store (val : Word) (a : Operands) : Operands :=
    { a.next with code := setBytes a.code codepos bytes (val - offset) }
  match a.tok with
  | .num ival => store ival a
  | .ident sval => store (a.symbol symbols sval).1 (a.symbol symbols sval).2
  | _ => a.fail

/-- The optional displacement of `get_mem`. -/
def getDisp (symbols : Symbols) (a : Operands) : Word × Operands :=
  match a.tok with
  | .num ival => (ival, a.next)
  | .ident sval => ((a.symbol symbols sval).1, (a.symbol symbols sval).2.next)
  | _ => (0, a)

/-- The optional register of `get_mem`, and `none` after an error. -/
def getBase (a : Operands) : Option Nat × Operands :=
  if a.tok = .punct '(' then
    match a.next.tok with
    | .reg sval =>
      let b := a.next.next
      match b.tok with
      | .punct c => if c = ')' then (some (findRegister sval), b.next) else (none, b.next.fail)
      | _ => (none, b.fail)
    | _ => (none, a.next.fail)
  else (some 15, a)

/-- `get_mem`. -/
def getMem (symbols : Symbols) (codepos : Nat) (a : Operands) : Operands :=
  let (val, a) := getDisp symbols a
  match getBase a with
  | (none, a) => a
  | (some rval, a) =>
    let c := (a.code codepos &&& 0xF0) ||| (BitVec.ofNat 8 rval &&& 0x0F)
    { a with code := setBytes (Function.update a.code codepos c) (codepos + 1) 8 val }

/-- One operand, by its kind. -/
def getArg (symbols : Symbols) (arg : Arg) (pos hi : Nat) (a : Operands) : Operands :=
  match arg with
  | .rArg => getReg pos hi a
  | .mArg => getMem symbols pos a
  | .iArg => getNum symbols pos hi 0 a
  | .noArg => a

/-- The operands of `instr`. Without its comma nothing is printed. -/
def getOperands (symbols : Symbols) (instr : Instr) (a : Operands) : Operands × Bool :=
  let a := getArg symbols instr.arg1 instr.arg1pos instr.arg1hi a
  if instr.arg2 = .noArg then (a, true)
  else if a.tok = .punct ',' then
    (getArg symbols instr.arg2 instr.arg2pos instr.arg2hi a.next, true)
  else (a.fail, false)

/-! ## The listing -/

/-- A call of `print_code`: the bytes of `code`, or none when the line has no
token. -/
structure Printed where
  pos : Int
  code : Option (List Byte)
  text : CStr

/-- A digit as `hexstuff` writes it. -/
def hexDigit (h : Nat) : UInt8 := if h < 10 then UInt8.ofNat (h + 48) else UInt8.ofNat (h - 10 + 97)

/-- The digits that `hexstuff` writes. -/
def hexstuff (value : Word) (len : Nat) : CStr :=
  (List.range len).reverse.map fun i => hexDigit (value.sshiftRight (4 * i) &&& 0xF).toNat

/-- `t` is written over `s` from `pos` on. -/
def overlay (s : CStr) (pos : Nat) (t : CStr) : CStr := s.take pos ++ t ++ s.drop (pos + t.length)

/-- The address and the code in `outstring`. -/
def codeField (outstring : CStr) (pos : Int) (digits : Nat) (code : List Byte) : CStr :=
  code.zipIdx.foldl (fun s b => overlay s (7 + 2 * b.2) (hexstuff (b.1.setWidth 64) 2))
    (overlay outstring 2 (hexstuff (BitVec.ofInt 64 pos) digits))

/-- `print_code`: the line it prints. -/
def printCode (p : Printed) : CStr :=
  (if p.pos > 0xFFF then
      match p.code with
      | some code => codeField (text "0x0000:                      | ") p.pos 4 code
      | none => text "                             | "
    else
      match p.code with
      | some code => codeField (text "0x000:                      | ") p.pos 3 code
      | none => text "                            | ") ++ p.text ++ [10]

/-- The output file. -/
def listing (out : List Printed) : CStr := out.flatMap printCode

/-! ## The two passes -/

/-- A line of the source. -/
structure SrcLine where
  text : CStr
  toks : List Token

/-- The globals of `yas.c` that the passes change. -/
structure St where
  bytepos : Int
  symbols : Symbols
  code : Nat → Byte
  hitError : Bool
  out : List Printed

/-- `fail`. -/
def St.fail (s : St) : St := { s with hitError := true }

/-- `TOK_PER_LINE`. -/
def tokPerLine : Nat := 12

/-- `STRMAX`. -/
def strMax : Nat := 4096

/-- `STAB`. -/
def stab : Nat := 1000

/-- What the token takes of `strbuf`. -/
def Token.strlen : Token → Nat
  | .ident s | .reg s | .instr s => s.length + 1
  | _ => 0

/-- What a line takes of `strbuf`. -/
def SrcLine.strpos (l : SrcLine) : Nat := (l.toks.map Token.strlen).sum

/-- The value of an `int` assigned from a word. -/
def toInt (val : Word) : Int := (val.setWidth 32).toInt

/-- The number is an `int`. -/
def FitsInt (v : Int) : Prop := -2147483648 ≤ v ∧ v < 2147483648

instance (v : Int) : Decidable (FitsInt v) := inferInstanceAs (Decidable (_ ∧ _))

/-- `print_code` in the second pass. -/
def St.print (second : Bool) (p : Printed) (s : St) : Option St :=
  if second = false then some s
  else if p.code.isSome ∧ p.pos > 0xFFFF then none
  else some { s with out := s.out ++ [p] }

/-- `add_symbol` in the first pass. -/
def St.addSymbol (second : Bool) (name : String) (s : St) : Option St :=
  if second then some s
  else if stab ≤ s.symbols.length then none
  else some { s with symbols := s.symbols ++ [(name, s.bytepos)] }

/-- `finish_line` after `.pos`. -/
def posLine (second : Bool) (text : CStr) (toks : List Token) (s : St) : Option St :=
  match toks.headD .err with
  | .num ival => St.print second ⟨toInt ival, some [], text⟩ { s with bytepos := toInt ival }
  | _ => some s.fail

/-- `finish_line` after `.align`. -/
def alignLine (second : Bool) (text : CStr) (toks : List Token) (s : St) : Option St :=
  match toks.headD .err with
  | .num ival =>
    let a := toInt ival
    if a ≤ 0 then some s.fail
    else if ¬FitsInt (s.bytepos + a) then none
    else
      let bytepos := (s.bytepos + a - 1).tdiv a * a
      St.print second ⟨bytepos, some [], text⟩ { s with bytepos := bytepos }
  | _ => some s.fail

/-- `finish_line` with an instruction. -/
def instrLine (second : Bool) (text : CStr) (sval : String) (toks : List Token) (s : St) :
    Option St :=
  let instr := (findInstr sval).getD invalidInstr
  let s := if findInstr sval = none then s.fail else s
  if ¬FitsInt (s.bytepos + instr.bytes) then none
  else
    let savebytepos := s.bytepos
    let s := { s with bytepos := s.bytepos + instr.bytes }
    if second = false then some s
    else
      let code := Function.update (Function.update s.code 0 instr.code) 1 (hpack regNone regNone)
      match getOperands s.symbols instr ⟨toks, code, s.hitError⟩ with
      | (a, printed) =>
        let s := { s with code := a.code, hitError := a.hitError }
        if printed then
          St.print second ⟨savebytepos, some ((List.range instr.bytes).map a.code), text⟩ s
        else some s

/-- `finish_line` from the instruction on. -/
def finishInstr (second : Bool) (text : CStr) (toks : List Token) (s : St) : Option St :=
  match toks.headD .err with
  | .instr sval =>
    if sval = ".pos" then posLine second text toks.tail s
    else if sval = ".align" then alignLine second text toks.tail s
    else instrLine second text sval toks.tail s
  | _ => some s.fail

/-- `finish_line`, for a line whose tokens have been added. -/
def finishLine (second : Bool) (s : St) (l : SrcLine) : Option St :=
  if tokPerLine < l.toks.length ∨ strMax ≤ l.text.length + 1 then none
  else
    match l.toks with
    | [] => St.print second ⟨s.bytepos, none, l.text⟩ s
    | t :: rest =>
      if strMax < l.strpos then some s.fail
      else
        match t with
        | .ident sval =>
          if rest.headD .err = .punct ':' then
            match St.addSymbol second sval s with
            | none => none
            | some s =>
              if rest.tail = [] then St.print second ⟨s.bytepos, some [], l.text⟩ s
              else finishInstr second l.text rest.tail s
          else some s.fail
        | t => finishInstr second l.text (t :: rest) s

/-- `yylex`: one pass. -/
def yylex (second : Bool) (s : St) (src : List SrcLine) : Option St :=
  src.foldlM (finishLine second) s

/-- Before the first pass. -/
def initSt : St := ⟨0, [], fun _ => 0, false, []⟩

/-- `main` of `yas`: the lines printed, and `hit_error` at the end. -/
def yas (src : List SrcLine) : Option (List Printed × Bool) :=
  match yylex false initSt src with
  | none => none
  | some s =>
    if s.hitError then none
    else (yylex true { s with bytepos := 0 } src).map fun s => (s.out, s.hitError)

end Csapp.Yas
