import Mathlib
import Csapp.Hcl2c.Typed
import Csapp.Y86.Hcl

/-!
# The signals of a control file

A control file declares signals, each with the C text that stands for it. `Table`
is such a list of declarations over a type of signals; given what the signals
are, `Table.env` is what the C text evaluates to. The constants are those that
both control files declare, with the numbers that `isa.h` gives them.
-/

namespace Csapp.Hcl2c

open Y86

/-! ## Declarations -/

/-- The declarations of a file: no name and no C text occurs twice. -/
structure Table (K : Type) where
  all : List K
  sym : K → Sym
  complete : ∀ k, k ∈ all
  names : (all.map fun k => (sym k).name).Nodup
  svals : (all.map fun k => (sym k).sval).Nodup

theorem find?_key {K : Type} {f : K → String} {l : List K} (h : (l.map f).Nodup) {k : K}
    (hk : k ∈ l) : l.find? (fun x => f x = f k) = some k := by
  induction l with
  | nil => cases hk
  | cons x l ih =>
      rw [List.map_cons, List.nodup_cons] at h
      rcases List.mem_cons.mp hk with rfl | hk
      · exact List.find?_cons_of_pos (by simp)
      · have hne : f x ≠ f k := fun he => h.1 (he ▸ List.mem_map_of_mem hk)
        rw [List.find?_cons_of_neg (by simpa using hne)]
        exact ih h.2 hk

section

variable {K : Type} (t : Table K) (value : K → Int)

/-- The symbols in the order of their declarations. -/
def Table.syms : List Sym := t.all.map t.sym

/-- The C text of a signal evaluates to its value. -/
def Table.env (q : String) : Int := ((t.all.find? fun k => (t.sym k).sval = q).map value).getD 0

variable {t value}

theorem Table.find_eq (k : K) : findSymbol t.syms (t.sym k).name = some (t.sym k) := by
  rw [findSymbol, Table.syms, List.find?_map]
  have h := find?_key t.names (t.complete k)
  exact congrArg (Option.map t.sym) h

theorem Table.env_eq (k : K) : t.env value (t.sym k).sval = value k := by
  rw [Table.env, find?_key t.svals (t.complete k)]
  rfl

theorem Table.signals_eq (k : K) : signals t.syms (t.env value) (t.sym k).name = value k := by
  rw [signals, Table.find_eq]
  exact Table.env_eq k

theorem Table.boolEnv (h : ∀ k, (t.sym k).isbool = true → value k = 0 ∨ value k = 1) :
    BoolEnv t.syms (t.env value) := by
  intro q hq hb
  obtain ⟨k, -, rfl⟩ := List.mem_map.mp hq
  rw [Table.env_eq]
  exact h k hb

/-- What the file writes for a signal. -/
def Table.sig (t : Table K) (k : K) : Expr := .var (t.sym k).name

@[simp] theorem Table.value_sig (k : K) :
    (t.sig k).value (signals t.syms (t.env value)) = value k := Table.signals_eq k

end

/-! ## A file that declares, and then defines -/

theorem declared_append (ss ss' : List Statement) :
    declared (ss ++ ss') = declared ss ++ declared ss' := by
  induction ss with
  | nil => rfl
  | cons s ss ih =>
      rw [List.cons_append, declared_cons s (ss ++ ss'), ih, declared_cons s ss, List.append_assoc]

/-- The declarations of a table as statements. -/
def Table.statements {K : Type} (t : Table K) : List Statement :=
  t.all.map fun k => .sig (t.sym k).isbool (t.sym k).name (t.sym k).sval

theorem Table.declared_eq {K : Type} (t : Table K) : declared t.statements = t.syms := by
  rw [Table.statements, Table.syms]
  induction t.all with
  | nil => rfl
  | cons k l ih =>
      rw [List.map_cons, List.map_cons, declared, ih]

/-- The definitions of a file, which declare nothing. -/
theorem declared_functs {C : Type} {l : List C} {isbool : C → Bool} {name : C → String}
    {expr : C → Expr} :
    declared (l.map fun c => .funct (isbool c) (name c) (expr c)) = [] := by
  induction l with
  | nil => rfl
  | cons c l ih =>
      rw [List.map_cons, declared, ih]

/-- A file that quotes, declares a table and then gives definitions, and that
passes the check: it compiles, and each function of the C file returns the value
of its definition, whatever the signals are. -/
theorem Table.compile_functs {K C : Type} (t : Table K) {quotes : List Statement}
    {functs : List C} {isbool : C → Bool} {name : C → String} {expr : C → Expr}
    (hq : declared quotes = [])
    (hok : fileOk [] (quotes ++ t.statements ++
      functs.map fun c => .funct (isbool c) (name c) (expr c)) = true) :
    ∃ out, compile (quotes ++ t.statements ++
        functs.map fun c => .funct (isbool c) (name c) (expr c)) = some out ∧
      ∀ c ∈ functs, ∃ pre body post code,
        out = pre ++ (genHeader (name c) ++ (body ++ genFooter)) ++ post ∧
          CDerives 0 (toks body) code ∧ (∀ code', CDerives 0 (toks body) code' → code' = code) ∧
          ∀ value : K → Int,
            (∀ k, (t.sym k).isbool = true → value k = 0 ∨ value k = 1) →
              ceval (t.env value) code = (expr c).value (signals t.syms (t.env value)) := by
  obtain ⟨out, hout⟩ := compile_ok hok
  refine ⟨out, hout, fun c hc => ?_⟩
  have hp : (expr c).plain = true :=
    fileOk_plain hok (List.mem_append_right _ (List.mem_map_of_mem hc))
  obtain ⟨l, l', rfl⟩ := List.append_of_mem hc
  rw [List.map_append, List.map_cons, ← List.append_assoc] at hout
  obtain ⟨-, pre, body, post, ho, code, hd, hv⟩ := compile_function hout rfl hp
  refine ⟨pre, body, post, code, ho, hd, fun code' hd' => hd'.unique hd, fun value hb => ?_⟩
  have htab : declared (quotes ++ t.statements ++
      l.map fun c => .funct (isbool c) (name c) (expr c)) = t.syms := by
    rw [declared_append, declared_append, hq, t.declared_eq, declared_functs, List.append_nil,
      List.nil_append]
  rw [htab] at hv
  exact hv (t.env value) (Table.boolEnv hb)

/-! ## Numbers -/

/-- The number of `itype_t`, or of the nibble. -/
def itype : IType → Int
  | .halt => 0
  | .nop => 1
  | .rrmovq => 2
  | .irmovq => 3
  | .rmmovq => 4
  | .mrmovq => 5
  | .alu => 6
  | .jmp => 7
  | .call => 8
  | .ret => 9
  | .pushq => 10
  | .popq => 11
  | .iaddq => 12
  | .pop2 => 13
  | .bad14 => 14
  | .bad15 => 15

@[simp] theorem itype_inj {a b : IType} : itype a = itype b ↔ a = b := by
  revert a b
  have h : Function.Injective itype := by
    rintro (_ | _ | _ | _ | _ | _ | _ | _ | _ | _ | _ | _ | _ | _ | _ | _)
      (_ | _ | _ | _ | _ | _ | _ | _ | _ | _ | _ | _ | _ | _ | _ | _) hab <;> first | rfl | cases hab
  exact fun {a b} => h.eq_iff

/-- The number of `stat_t`. -/
def stat : Stat → Int
  | .bub => 0
  | .aok => 1
  | .hlt => 2
  | .adr => 3
  | .ins => 4
  | .pip => 5

@[simp] theorem stat_inj {a b : Stat} : stat a = stat b ↔ a = b := by
  cases a <;> cases b <;> simp [stat]

/-- The number of a register, a function code or a condition. -/
def nibble (x : BitVec 4) : Int := x.toNat

@[simp] theorem nibble_inj {a b : BitVec 4} : nibble a = nibble b ↔ a = b := by
  rw [nibble, nibble, Int.natCast_inj, BitVec.toNat_inj]

section

variable {p : Prop} [Decidable p]

@[simp] theorem itype_ite {a b : IType} :
    itype (if p then a else b) = if p then itype a else itype b := apply_ite itype p a b

@[simp] theorem stat_ite {a b : Stat} :
    stat (if p then a else b) = if p then stat a else stat b := apply_ite stat p a b

@[simp] theorem nibble_ite {a b : BitVec 4} :
    nibble (if p then a else b) = if p then nibble a else nibble b := apply_ite nibble p a b

/-- `word_t` is signed. -/
@[simp] theorem word_ite {a b : Word} :
    (if p then a else b).toInt = if p then a.toInt else b.toInt := apply_ite BitVec.toInt p a b

end

/-- A Boolean signal holds if it is not zero. -/
@[simp high] theorem ofBool_ne_zero {b : Bool} : ofBool b ≠ 0 ↔ b = true := by
  cases b <;> decide

/-! ## Constants -/

/-- The symbolic constants of `isa.h` that the files declare. -/
inductive Const
  | INOP | IHALT | IRRMOVQ | IIRMOVQ | IRMMOVQ | IMRMOVQ | IOPQ | IJXX | ICALL | IRET | IPUSHQ
  | IPOPQ | IIADDQ | FNONE | RRSP | RNONE | ALUADD | SAOK | SADR | SINS | SHLT
deriving DecidableEq, Repr

/-- A constant with its quoted string. -/
def Const.sym : Const → Sym
  | .INOP => ⟨"INOP", "I_NOP", false⟩
  | .IHALT => ⟨"IHALT", "I_HALT", false⟩
  | .IRRMOVQ => ⟨"IRRMOVQ", "I_RRMOVQ", false⟩
  | .IIRMOVQ => ⟨"IIRMOVQ", "I_IRMOVQ", false⟩
  | .IRMMOVQ => ⟨"IRMMOVQ", "I_RMMOVQ", false⟩
  | .IMRMOVQ => ⟨"IMRMOVQ", "I_MRMOVQ", false⟩
  | .IOPQ => ⟨"IOPQ", "I_ALU", false⟩
  | .IJXX => ⟨"IJXX", "I_JMP", false⟩
  | .ICALL => ⟨"ICALL", "I_CALL", false⟩
  | .IRET => ⟨"IRET", "I_RET", false⟩
  | .IPUSHQ => ⟨"IPUSHQ", "I_PUSHQ", false⟩
  | .IPOPQ => ⟨"IPOPQ", "I_POPQ", false⟩
  | .IIADDQ => ⟨"IIADDQ", "I_IADDQ", false⟩
  | .FNONE => ⟨"FNONE", "F_NONE", false⟩
  | .RRSP => ⟨"RRSP", "REG_RSP", false⟩
  | .RNONE => ⟨"RNONE", "REG_NONE", false⟩
  | .ALUADD => ⟨"ALUADD", "A_ADD", false⟩
  | .SAOK => ⟨"SAOK", "STAT_AOK", false⟩
  | .SADR => ⟨"SADR", "STAT_ADR", false⟩
  | .SINS => ⟨"SINS", "STAT_INS", false⟩
  | .SHLT => ⟨"SHLT", "STAT_HLT", false⟩

/-- Its value in C. -/
def Const.value : Const → Int
  | .INOP => itype .nop
  | .IHALT => itype .halt
  | .IRRMOVQ => itype .rrmovq
  | .IIRMOVQ => itype .irmovq
  | .IRMMOVQ => itype .rmmovq
  | .IMRMOVQ => itype .mrmovq
  | .IOPQ => itype .alu
  | .IJXX => itype .jmp
  | .ICALL => itype .call
  | .IRET => itype .ret
  | .IPUSHQ => itype .pushq
  | .IPOPQ => itype .popq
  | .IIADDQ => itype .iaddq
  | .FNONE => nibble 0
  | .RRSP => nibble regRsp
  | .RNONE => nibble regNone
  | .ALUADD => nibble aAdd
  | .SAOK => stat .aok
  | .SADR => stat .adr
  | .SINS => stat .ins
  | .SHLT => stat .hlt

/-! ## Writing expressions -/

/-- The elements of a set, from a list. -/
def Exprs.of : List Expr → Exprs
  | [] => .nil
  | e :: es => .cons e (.of es)

/-- The arms of a case expression, from a list. -/
def Arms.of : List (Expr × Expr) → Arms
  | [] => .nil
  | (c, v) :: arms => .cons c v (.of arms)

@[simp] theorem Exprs.has_nil (ρ : String → Int) (x : Int) : (Exprs.of []).has ρ x = false := rfl

@[simp] theorem Exprs.has_cons (ρ : String → Int) (x : Int) (e : Expr) (es : List Expr) :
    (Exprs.of (e :: es)).has ρ x = (decide (x = e.value ρ) || (Exprs.of es).has ρ x) := by
  rw [Exprs.of, Exprs.has, Bool.decide_or, Bool.decide_eq_true]

@[simp] theorem Arms.value_nil (ρ : String → Int) : (Arms.of []).value ρ = 0 := rfl

@[simp] theorem Arms.value_cons (ρ : String → Int) (c v : Expr) (arms : List (Expr × Expr)) :
    (Arms.of ((c, v) :: arms)).value ρ =
      if c.value ρ ≠ 0 then v.value ρ else (Arms.of arms).value ρ := by
  rw [Arms.of, Arms.value]

/-- A case expression. -/
def select (arms : List (Expr × Expr)) : Expr := .case (.of arms)

/-- The default arm. -/
def dflt (v : Expr) : Expr × Expr := (.num "1", v)

@[simp] theorem value_select (ρ : String → Int) (arms : List (Expr × Expr)) :
    (select arms).value ρ = (Arms.of arms).value ρ := by
  rw [select, Expr.value]

@[simp] theorem value_dflt (ρ : String → Int) (v : Expr) :
    (Arms.of [dflt v]).value ρ = v.value ρ := by
  simp [dflt, Expr.value, atoll_one]

section

variable {K : Type} (t : Table K) (const : Const → K)

/-- `a in { c, cs }`. -/
def Table.isIn (a : K) (c : Const) (cs : List Const) : Expr :=
  .ele (t.sig a) (t.sig (const c)) (.of (cs.map fun c => t.sig (const c)))

/-- `a == b`. -/
def Table.eqs (a b : K) : Expr := .comp .eq (t.sig a) (t.sig b)

variable {t const} {value : K → Int}

@[simp] theorem Table.value_isIn (a : K) (c : Const) (cs : List Const) :
    (t.isIn const a c cs).value (signals t.syms (t.env value)) =
      ofBool (value a ∈ (c :: cs).map fun c => value (const c)) := by
  have hs : (Exprs.of (cs.map fun c => t.sig (const c))).has (signals t.syms (t.env value))
      (value a) = decide (value a ∈ cs.map fun c => value (const c)) := by
    induction cs with
    | nil => simp
    | cons c' cs ih => simp [ih]
  rw [Table.isIn, Expr.value, Table.value_sig, Table.value_sig, hs]
  simp

@[simp] theorem Table.value_eqs (a b : K) :
    (t.eqs a b).value (signals t.syms (t.env value)) = ofBool (value a = value b) := by
  simp [Table.eqs, Expr.value, Comp.holds]

end

end Csapp.Hcl2c
