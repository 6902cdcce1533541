import Mathlib
import Csapp.Lib.Strtol

/-!
# The HCL compiler

`hcl.y` and `node.c`, in the build that generates C. A pointer to a node is the
list of the nodes that `next` leads to from there, so that `NULL` is the empty
list and `concat` appends. The actions of the grammar build the nodes and check
their arguments; `gen_expr` prints an expression through `outgen_print`, which
is recorded call by call.

An error is reported and counted, and the program goes on; that it gives up
after `ERRLIM` of them only cuts the output of a compilation that has failed.
-/

namespace Csapp.Hcl2c

/-! ## Nodes -/

/-- `node_type_t`. -/
inductive NodeType
  | quote | var | num | and | or | not | comp | ele | case
deriving DecidableEq, Repr

/-- `node_rec`, without `ref` and with `next` in the pointers. -/
inductive Node
  | mk (type : NodeType) (isbool : Bool) (sval : String) (arg1 arg2 : List Node)

/-- `node_ptr`. -/
abbrev NodePtr := List Node

/-- `type` of a node. -/
def Node.type : Node → NodeType
  | mk type _ _ _ _ => type

/-- A symbol with its quoted string, both of `sym_tab`. -/
structure Sym where
  name : String
  sval : String
  isbool : Bool
deriving DecidableEq, Repr

/-- `SYM_LIM`. -/
def symLim : Nat := 100

/-- `find_symbol`. -/
def findSymbol (tab : List Sym) (name : String) : Option Sym := tab.find? (·.name = name)

/-- `atoll`, of a number that fits. -/
def atoll (s : String) : Int := ((strtol (text s)).map Prod.fst).getD 0

/-- The errors that `check_arg` reports. An unknown variable is reported twice. -/
def checkArg (tab : List Sym) (arg : NodePtr) (wantbool : Bool) : Nat :=
  match arg with
  | [] => 1
  | .mk type isbool sval _ _ :: _ =>
    match type with
    | .var =>
      match findSymbol tab sval with
      | none => 2
      | some qval => if wantbool ≠ qval.isbool then 1 else 0
    | .num => if wantbool ∧ sval ≠ "0" ∧ sval ≠ "1" then 1 else 0
    | _ => if wantbool ≠ isbool then 1 else 0

/-! ## The actions of the grammar

Each returns the node and the errors it reports. -/

/-- `make_var`. -/
def makeVar (name : String) : NodePtr × Nat := ([.mk .var false name [] []], 0)

/-- `make_num`. -/
def makeNum (name : String) : NodePtr × Nat := ([.mk .num false name [] []], 0)

/-- `make_not`. -/
def makeNot (tab : List Sym) (arg : NodePtr) : NodePtr × Nat :=
  ([.mk .not true "!" arg []], checkArg tab arg true)

/-- `make_and`. -/
def makeAnd (tab : List Sym) (arg1 arg2 : NodePtr) : NodePtr × Nat :=
  ([.mk .and true "&" arg1 arg2], checkArg tab arg1 true + checkArg tab arg2 true)

/-- `make_or`. -/
def makeOr (tab : List Sym) (arg1 arg2 : NodePtr) : NodePtr × Nat :=
  ([.mk .or true "|" arg1 arg2], checkArg tab arg1 true + checkArg tab arg2 true)

/-- `make_comp`. -/
def makeComp (tab : List Sym) (op : String) (arg1 arg2 : NodePtr) : NodePtr × Nat :=
  ([.mk .comp true op arg1 arg2], checkArg tab arg1 false + checkArg tab arg2 false)

/-- The loop over `next` checks what follows `arg1`, and never an element. -/
def makeEle (tab : List Sym) (arg1 arg2 : NodePtr) : NodePtr × Nat :=
  ([.mk .ele true "in" arg1 arg2],
    checkArg tab arg1 false + (arg1.map fun ele => checkArg tab [ele] false).sum)

/-- `make_case`. -/
def makeCase (tab : List Sym) (arg1 arg2 : NodePtr) : NodePtr × Nat :=
  ([.mk .case false ":" arg1 arg2], checkArg tab arg1 true + checkArg tab arg2 false)

/-! ## Source expressions -/

/-- The comparisons of `hcl.lex`. -/
inductive Comp
  | eq | ne | lt | le | gt | ge
deriving DecidableEq, Repr

/-- `yytext` of a comparison. -/
def Comp.text : Comp → String
  | .eq => "=="
  | .ne => "!="
  | .lt => "<"
  | .le => "<="
  | .gt => ">"
  | .ge => ">="

mutual

/-- What the grammar reads as `expr`. A set has a first element. -/
inductive Expr
  | var (name : String)
  | num (name : String)
  | not (e : Expr)
  | and (a b : Expr)
  | or (a b : Expr)
  | comp (op : Comp) (a b : Expr)
  | ele (a e : Expr) (es : Exprs)
  | case (arms : Arms)

/-- The further elements of a set. -/
inductive Exprs
  | nil
  | cons (e : Expr) (es : Exprs)

/-- The arms of a case expression. -/
inductive Arms
  | nil
  | cons (c v : Expr) (arms : Arms)

end

/-- An action after those of its arguments. -/
def after (errs : Nat) (r : NodePtr × Nat) : NodePtr × Nat := (r.1, errs + r.2)

mutual

/-- The node of an expression, and the errors reported on the way. -/
def Expr.build (tab : List Sym) : Expr → NodePtr × Nat
  | .var name => makeVar name
  | .num name => makeNum name
  | .not e => after (e.build tab).2 (makeNot tab (e.build tab).1)
  | .and a b => after ((a.build tab).2 + (b.build tab).2) (makeAnd tab (a.build tab).1 (b.build tab).1)
  | .or a b => after ((a.build tab).2 + (b.build tab).2) (makeOr tab (a.build tab).1 (b.build tab).1)
  | .comp op a b =>
    after ((a.build tab).2 + (b.build tab).2)
      (makeComp tab op.text (a.build tab).1 (b.build tab).1)
  | .ele a e es =>
    after ((a.build tab).2 + ((e.build tab).2 + (es.build tab).2))
      (makeEle tab (a.build tab).1 ((e.build tab).1 ++ (es.build tab).1))
  | .case arms => arms.build tab

/-- `exprlist`, each `concat`enated to those before. -/
def Exprs.build (tab : List Sym) : Exprs → NodePtr × Nat
  | .nil => ([], 0)
  | .cons e es => ((e.build tab).1 ++ (es.build tab).1, (e.build tab).2 + (es.build tab).2)

/-- `caselist`, likewise. -/
def Arms.build (tab : List Sym) : Arms → NodePtr × Nat
  | .nil => ([], 0)
  | .cons c v arms =>
    let arm := after ((c.build tab).2 + (v.build tab).2) (makeCase tab (c.build tab).1 (v.build tab).1)
    (arm.1 ++ (arms.build tab).1, arm.2 + (arms.build tab).2)

end

/-! ## Code generation -/

/-- A call that writes, moves the indentation or reports an error. -/
inductive Out
  | print (fmt : String) (arg : String)
  | puts (s : String)
  | terminate
  | upindent
  | downindent
  | error
deriving DecidableEq, Repr

/-- `gen_expr` of a variable: its quoted string. -/
def genVar (tab : List Sym) (name : String) : List Out :=
  match findSymbol tab name with
  | some qstring => [.print "(%s)" qstring.sval]
  | none => [.error, .error]

/-- The code of a node between parentheses. -/
def genParen (body : List Out) : List Out :=
  .print "(" "" :: .upindent :: (body ++ [.print ")" "", .downindent])

/-- The code of an operator between its operands. -/
def genBin (op : Out) (a b : Option (List Out)) : Option (List Out) :=
  a.bind fun a => b.map fun b => genParen (a ++ op :: b)

mutual

/-- `gen_expr`; `none` if it follows a null pointer. -/
def genExpr (tab : List Sym) : NodePtr → Option (List Out)
  | [] => none
  | .mk .quote _ _ _ _ :: _ => some [.error]
  | .mk .var _ sval _ _ :: _ => some (genVar tab sval)
  | .mk .num _ sval _ _ :: _ => some [.puts sval]
  | .mk .and _ _ arg1 arg2 :: _ => genBin (.print " & " "") (genExpr tab arg1) (genExpr tab arg2)
  | .mk .or _ _ arg1 arg2 :: _ => genBin (.print " | " "") (genExpr tab arg1) (genExpr tab arg2)
  | .mk .not _ _ arg1 _ :: _ => (genExpr tab arg1).map fun a => .print "!" "" :: a
  | .mk .comp _ sval arg1 arg2 :: _ =>
    genBin (.print " %s " sval) (genExpr tab arg1) (genExpr tab arg2)
  | .mk .ele _ _ arg1 arg2 :: _ => (genEle tab (genExpr tab arg1) arg2).map genParen
  | .mk .case isbool sval arg1 arg2 :: next =>
    (genArms tab (.mk .case isbool sval arg1 arg2 :: next)).map genParen
termination_by ptr => (sizeOf ptr, 1)

/-- The loop over the elements of a set, `a` the code of `arg1`. -/
def genEle (tab : List Sym) (a : Option (List Out)) : NodePtr → Option (List Out)
  | [] => some []
  | ele :: next =>
    a.bind fun a => (genExpr tab (ele :: next)).bind fun e => (genEle tab (some a) next).map fun r =>
      a ++ .print " == " "" :: (e ++ ((if next = [] then [] else [.print " || " ""]) ++ r))
termination_by ptr => (sizeOf ptr, 2)

/-- The loop over the arms of a case expression. A default arm ends it. -/
def genArms (tab : List Sym) : NodePtr → Option (List Out)
  | [] => some [.print "0" ""]
  | .mk _ _ _ [] _ :: _ => none
  | .mk _ _ _ (.mk type isbool sval arg1 arg2 :: rest) v :: next =>
    if type = .num ∧ atoll sval = 1 then genExpr tab v
    else
      (genExpr tab (.mk type isbool sval arg1 arg2 :: rest)).bind fun c =>
        (genExpr tab v).bind fun v => (genArms tab next).map fun r =>
          c ++ .print " ? " "" :: (v ++ .print " : " "" :: r)
termination_by ptr => (sizeOf ptr, 0)

end

/-- What `gen_funct` prints before the expression. -/
def genHeader (var : String) : List Out :=
  [.print "long long gen_%s()" var, .terminate, .print "\x7b" "", .terminate, .print "    return " ""]

/-- What it prints behind it. -/
def genFooter : List Out := [.print ";" "", .terminate, .print "\x7d" "", .terminate, .terminate]

/-- `gen_funct`. -/
def genFunct (tab : List Sym) (var : String) (expr : NodePtr) (isbool : Bool) : Option (List Out) :=
  if expr = [] then some [.error]
  else
    (genExpr tab expr).map fun body =>
      List.replicate (checkArg tab expr isbool) .error ++ (genHeader var ++ (body ++ genFooter))

/-! ## Statements -/

/-- `statement` of the grammar. -/
inductive Statement
  | quote (qstring : String)
  | sig (isbool : Bool) (var qstring : String)
  | funct (isbool : Bool) (var : String) (expr : Expr)

/-- The symbol table and all that has been written. -/
structure Compiler where
  tab : List Sym
  out : List Out

/-- `add_arg`. -/
def addArg (c : Compiler) (isbool : Bool) (var qstring : String) : Compiler :=
  if symLim ≤ c.tab.length then { c with out := c.out ++ [.error] }
  else { c with tab := c.tab ++ [⟨var, qstring, isbool⟩] }

/-- The action of a statement. -/
def Statement.exec (c : Compiler) : Statement → Option Compiler
  | .quote qstring => some { c with out := c.out ++ [.puts qstring, .puts "\n"] }
  | .sig isbool var qstring => some (addArg c isbool var qstring)
  | .funct isbool var expr =>
    (genFunct c.tab var (expr.build c.tab).1 isbool).map fun code =>
      { c with out := c.out ++ (List.replicate (expr.build c.tab).2 .error ++ code) }

/-- `yyparse`, with the statements of the file. -/
def yyparse (c : Compiler) : List Statement → Option Compiler
  | [] => some c
  | s :: ss => (s.exec c).bind fun c => yyparse c ss

/-- The errors reported. -/
def errcnt (out : List Out) : Nat := out.count .error

/-- `main` on a file: what it has written, if it returns zero. -/
def compile (file : List Statement) : Option (List Out) :=
  (yyparse ⟨[], []⟩ file).bind fun c => if errcnt c.out = 0 then some c.out else none

end Csapp.Hcl2c
