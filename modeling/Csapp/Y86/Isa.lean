import Mathlib

/-!
# The Y86-64 instruction set

`isa.c`: memory, register file, ALU, condition codes, and `step_state`, which
executes one instruction in place and returns its status. An address is a
signed 64-bit word and is compared as one; the bounds tests of the word
accessors are read over the integers. The register file is indexed by the
four-bit register field, where `0xF` reads zero and drops writes.

Tests of the form `reg_valid` and `get_word_val` stand in the order of the
source, so a failing instruction leaves exactly the state the source leaves.
-/

namespace Csapp.Y86

/-- `word_t`. -/
abbrev Word := BitVec 64

/-- `byte_t`. -/
abbrev Byte := BitVec 8

/-- `reg_id_t`, as a field of an instruction. -/
abbrev RegId := BitVec 4

/-- A function code, a condition or an ALU operation: the low nibble. -/
abbrev Fun := BitVec 4

/-! ## Memory -/

/-- `mem_rec`. The length is a C `int`. -/
structure Mem where
  contents : Nat → Byte
  len : Nat
  len_lt : len < 2147483648

/-- `MEM_SIZE` is a length. -/
theorem memSize_lt : 8192 < 2147483648 := by decide

/-- `get_byte_val`; `none` is `FALSE`. -/
def getByteVal (m : Mem) (pos : Word) : Option Byte :=
  if pos.toInt < 0 ∨ (m.len : Int) ≤ pos.toInt then none else some (m.contents pos.toNat)

/-- The word in the eight bytes from `a` on, low byte first. -/
def loadWord (contents : Nat → Byte) (a : Nat) : Word :=
  (List.range 8).foldl (fun val i => val ||| (contents (a + i)).setWidth 64 <<< (8 * i)) 0

theorem loadWord_congr {f g : Nat → Byte} {a : Nat} (h : ∀ i < 8, f (a + i) = g (a + i)) :
    loadWord f a = loadWord g a := by
  unfold loadWord
  refine List.foldl_ext _ _ _ fun val i hi => ?_
  rw [h i (List.mem_range.mp hi)]

/-- The bytes of `val`, low byte first, from `a` on. -/
def storeWord (contents : Nat → Byte) (a : Nat) (val : Word) : Nat → Byte := fun b =>
  if a ≤ b ∧ b < a + 8 then val.extractLsb' (8 * (b - a)) 8 else contents b

/-- `get_word_val`. The `pos + 8` of the source is computed in a signed `long`: from
`pos = 2 ^ 63 - 8` on it overflows, which C leaves undefined. Here the sum is exact, and
those eight addresses fail like all others outside. -/
def getWordVal (m : Mem) (pos : Word) : Option Word :=
  if pos.toInt < 0 ∨ (m.len : Int) < pos.toInt + 8 then none
  else some (loadWord m.contents pos.toNat)

/-- `set_word_val`, with the same sum. -/
def setWordVal (m : Mem) (pos val : Word) : Option Mem :=
  if pos.toInt < 0 ∨ (m.len : Int) < pos.toInt + 8 then none
  else some { m with contents := storeWord m.contents pos.toNat val }

/-- The word at `pos` is not in memory. -/
def NoWord (m : Mem) (pos : Word) : Prop := pos.toInt < 0 ∨ (m.len : Int) < pos.toInt + 8

theorem getWordVal_noWord {m : Mem} {pos : Word} : getWordVal m pos = none ↔ NoWord m pos := by
  rw [getWordVal, NoWord]
  split_ifs with h
  · exact iff_of_true rfl h
  · exact iff_of_false id h

theorem setWordVal_noWord {m : Mem} {pos v : Word} :
    setWordVal m pos v = none ↔ NoWord m pos := by
  rw [setWordVal, NoWord]
  split_ifs with h
  · exact iff_of_true rfl h
  · exact iff_of_false id h

/-! ## Registers -/

def rax : RegId := 0
def rcx : RegId := 1
def rdx : RegId := 2
def regRsp : RegId := 4
def rsi : RegId := 6
def rdi : RegId := 7
def r8 : RegId := 8
def r9 : RegId := 9
def r10 : RegId := 10
def r11 : RegId := 11

/-- `REG_NONE`. -/
def regNone : RegId := 15

/-- The register file. -/
abbrev Regs := RegId → Word

/-- `get_reg_val`: nothing is read through `REG_NONE`. -/
def getRegVal (r : Regs) (id : RegId) : Word := if id = regNone then 0 else r id

/-- `set_reg_val`: nothing is written through it. -/
def setRegVal (r : Regs) (id : RegId) (val : Word) : Regs := fun x =>
  if id ≠ regNone ∧ x = id then val else r x

theorem setRegVal_self {r : Regs} {x : RegId} (v : Word) (h : x ≠ regNone) :
    setRegVal r x v x = v := by
  simp [setRegVal, h]

theorem setRegVal_ne {r : Regs} {x y : RegId} (v : Word) (h : y ≠ x) :
    setRegVal r x v y = r y := by
  simp [setRegVal, h]

/-- `reg_valid`, of a register field. -/
def regValid (id : RegId) : Bool := id ≠ regNone

/-! ## ALU and condition codes -/

def aAdd : Fun := 0
def aSub : Fun := 1
def aAnd : Fun := 2
def aXor : Fun := 3

/-- `compute_alu`. -/
def computeAlu (op : Fun) (argA argB : Word) : Word :=
  if op = aAdd then argA + argB
  else if op = aSub then argB - argA
  else if op = aAnd then argA &&& argB
  else if op = aXor then argA ^^^ argB
  else 0

/-- `cc_t`, unpacked. -/
structure CC where
  zf : Bool
  sf : Bool
  of : Bool
deriving DecidableEq, Repr

/-- `DEFAULT_CC`. -/
def defaultCC : CC := ⟨true, false, false⟩

/-- `compute_cc`. -/
def computeCC (op : Fun) (argA argB : Word) : CC :=
  let val := computeAlu op argA argB
  let ovf :=
    if op = aAdd then
      (decide (argA.toInt < 0) == decide (argB.toInt < 0)) &&
        (decide (val.toInt < 0) != decide (argA.toInt < 0))
    else if op = aSub then
      (decide (argA.toInt > 0) == decide (argB.toInt < 0)) &&
        (decide (val.toInt < 0) != decide (argB.toInt < 0))
    else false
  ⟨val == 0, decide (val.toInt < 0), ovf⟩

/-- `cond_holds`. -/
def condHolds (cc : CC) (bcond : Fun) : Bool :=
  match bcond.toNat with
  | 0 => true
  | 1 => (cc.sf ^^ cc.of) || cc.zf
  | 2 => cc.sf ^^ cc.of
  | 3 => cc.zf
  | 4 => !cc.zf
  | 5 => !(cc.sf ^^ cc.of)
  | 6 => !(cc.sf ^^ cc.of) && !cc.zf
  | _ => false

/-! ## Instructions -/

/-- `itype_t`, with the two nibbles that stand for no instruction type. -/
inductive IType
  | halt | nop | rrmovq | irmovq | rmmovq | mrmovq | alu | jmp | call | ret | pushq | popq
  | iaddq | pop2 | bad14 | bad15
deriving DecidableEq, Repr

/-- The instruction type in the high half of the first byte. -/
def IType.ofNibble (n : BitVec 4) : IType :=
  match n.toNat with
  | 0 => .halt
  | 1 => .nop
  | 2 => .rrmovq
  | 3 => .irmovq
  | 4 => .rmmovq
  | 5 => .mrmovq
  | 6 => .alu
  | 7 => .jmp
  | 8 => .call
  | 9 => .ret
  | 10 => .pushq
  | 11 => .popq
  | 12 => .iaddq
  | 13 => .pop2
  | 14 => .bad14
  | _ => .bad15

/-- `HI4`. -/
def hi4 (b : Byte) : BitVec 4 := b.extractLsb' 4 4

/-- `LO4`. -/
def lo4 (b : Byte) : BitVec 4 := b.extractLsb' 0 4

/-- `stat_t`. -/
inductive Stat
  | bub | aok | hlt | adr | ins | pip
deriving DecidableEq, Repr

/-- `state_rec`. -/
structure State where
  pc : Word
  r : Regs
  m : Mem
  cc : CC

/-- `%rsp`. -/
def spOf (s : State) : Nat := (s.r regRsp).toNat

theorem stack_eq (s : State) : s.r regRsp = BitVec.ofNat 64 (spOf s) := by
  rw [spOf, BitVec.ofNat_toNat, BitVec.setWidth_eq]

/-- `new_state` on a loaded memory. -/
def newState (m : Mem) : State := ⟨0, fun _ => 0, m, defaultCC⟩

/-- What `step_state` has in its locals before it branches on the type. -/
structure Decoded where
  hi0 : IType
  lo0 : Fun
  ok1 : Bool
  hi1 : RegId
  lo1 : RegId
  okc : Bool
  cval : Word
  ftpc : Word

/-- `need_regids` in `step_state`. -/
def needRegids (hi0 : IType) : Bool :=
  hi0 ∈ [.rrmovq, .alu, .pushq, .popq, .irmovq, .rmmovq, .mrmovq, .iaddq]

/-- `need_imm` in `step_state`. -/
def needImm (hi0 : IType) : Bool :=
  hi0 ∈ [.irmovq, .rmmovq, .mrmovq, .jmp, .call, .iaddq]

/-- The part of `step_state` before the branch; `none` when the first byte is
out of memory. -/
def decode (m : Mem) (pc : Word) : Option Decoded :=
  match getByteVal m pc with
  | none => none
  | some byte0 =>
    let hi0 := IType.ofNibble (hi4 byte0)
    let byte1 := getByteVal m (pc + 1)
    let ftpc1 := if needRegids hi0 then pc + 2 else pc + 1
    let cval := getWordVal m ftpc1
    some {
      hi0 := hi0
      lo0 := lo4 byte0
      ok1 := !needRegids hi0 || byte1.isSome
      hi1 := if needRegids hi0 then hi4 (byte1.getD 0) else regNone
      lo1 := if needRegids hi0 then lo4 (byte1.getD 0) else regNone
      okc := !needImm hi0 || cval.isSome
      cval := if needImm hi0 then cval.getD 0 else 0
      ftpc := if needImm hi0 then ftpc1 + 8 else ftpc1 }

/-- The branches of `step_state`. -/
def execute (s : State) (d : Decoded) : State × Stat :=
  match d.hi0 with
  | .nop => ({ s with pc := d.ftpc }, .aok)
  | .halt => (s, .hlt)
  | .rrmovq =>
    if !d.ok1 then (s, .adr)
    else if !regValid d.hi1 then (s, .ins)
    else if !regValid d.lo1 then (s, .ins)
    else
      let val := getRegVal s.r d.hi1
      ({ s with r := if condHolds s.cc d.lo0 then setRegVal s.r d.lo1 val else s.r
                pc := d.ftpc }, .aok)
  | .irmovq =>
    if !d.ok1 then (s, .adr)
    else if !d.okc then (s, .ins)
    else if !regValid d.lo1 then (s, .ins)
    else ({ s with r := setRegVal s.r d.lo1 d.cval, pc := d.ftpc }, .aok)
  | .rmmovq =>
    if !d.ok1 then (s, .adr)
    else if !d.okc then (s, .ins)
    else if !regValid d.hi1 then (s, .ins)
    else
      let addr := if regValid d.lo1 then d.cval + getRegVal s.r d.lo1 else d.cval
      match setWordVal s.m addr (getRegVal s.r d.hi1) with
      | none => (s, .adr)
      | some m => ({ s with m := m, pc := d.ftpc }, .aok)
  | .mrmovq =>
    if !d.ok1 then (s, .adr)
    else if !d.okc then (s, .ins)
    else if !regValid d.hi1 then (s, .ins)
    else
      let addr := if regValid d.lo1 then d.cval + getRegVal s.r d.lo1 else d.cval
      match getWordVal s.m addr with
      | none => (s, .adr)
      | some val => ({ s with r := setRegVal s.r d.hi1 val, pc := d.ftpc }, .aok)
  | .alu =>
    if !d.ok1 then (s, .adr)
    else
      let argA := getRegVal s.r d.hi1
      let argB := getRegVal s.r d.lo1
      ({ s with r := setRegVal s.r d.lo1 (computeAlu d.lo0 argA argB)
                cc := computeCC d.lo0 argA argB, pc := d.ftpc }, .aok)
  | .jmp =>
    if !d.ok1 then (s, .adr)
    else if !d.okc then (s, .adr)
    else ({ s with pc := if condHolds s.cc d.lo0 then d.cval else d.ftpc }, .aok)
  | .call =>
    if !d.ok1 then (s, .adr)
    else if !d.okc then (s, .adr)
    else
      let val := getRegVal s.r regRsp - 8
      -- the stack pointer is moved before the store is tried
      let r := setRegVal s.r regRsp val
      match setWordVal s.m val d.ftpc with
      | none => ({ s with r := r }, .adr)
      | some m => ({ s with r := r, m := m, pc := d.cval }, .aok)
  | .ret =>
    let dval := getRegVal s.r regRsp
    match getWordVal s.m dval with
    | none => (s, .adr)
    | some val => ({ s with r := setRegVal s.r regRsp (dval + 8), pc := val }, .aok)
  | .pushq =>
    if !d.ok1 then (s, .adr)
    else if !regValid d.hi1 then (s, .ins)
    else
      let val := getRegVal s.r d.hi1
      let dval := getRegVal s.r regRsp - 8
      let r := setRegVal s.r regRsp dval
      match setWordVal s.m dval val with
      | none => ({ s with r := r }, .adr)
      | some m => ({ s with r := r, m := m, pc := d.ftpc }, .aok)
  | .popq =>
    if !d.ok1 then (s, .adr)
    else if !regValid d.hi1 then (s, .ins)
    else
      let dval := getRegVal s.r regRsp
      let r := setRegVal s.r regRsp (dval + 8)
      match getWordVal s.m dval with
      | none => ({ s with r := r }, .adr)
      | some val => ({ s with r := setRegVal r d.hi1 val, pc := d.ftpc }, .aok)
  | .iaddq =>
    if !d.ok1 then (s, .adr)
    else if !d.okc then (s, .ins)
    else if !regValid d.lo1 then (s, .ins)
    else
      let argB := getRegVal s.r d.lo1
      ({ s with r := setRegVal s.r d.lo1 (argB + d.cval)
                cc := computeCC aAdd d.cval argB, pc := d.ftpc }, .aok)
  | .pop2 | .bad14 | .bad15 => (s, .ins)

/-- `step_state`. -/
def stepState (s : State) : State × Stat :=
  match decode s.m s.pc with
  | none => (s, .adr)
  | some d => execute s d

/-! ## What an instruction touches -/

/-- Every register field that the instruction uses names a register. -/
def RealOperands (t : IType) (rA rB : RegId) : Prop :=
  (t ∈ [.rrmovq, .rmmovq, .mrmovq, .alu, .pushq, .popq] → rA ≠ regNone) ∧
    (t ∈ [.rrmovq, .irmovq, .rmmovq, .mrmovq, .alu, .iaddq] → rB ≠ regNone)

/-- The number of bytes of an instruction. -/
def insnLen (t : IType) : Nat :=
  1 + (if needRegids t then 1 else 0) + if needImm t then 8 else 0

/-- Where the instruction stores a word, if it stores one. -/
def storeAddr (s : State) (d : Decoded) : Option Word :=
  match d.hi0 with
  | .rmmovq => some (if regValid d.lo1 then d.cval + getRegVal s.r d.lo1 else d.cval)
  | .pushq | .call => some (getRegVal s.r regRsp - 8)
  | _ => none

/-- Where the instruction reads a word, if it reads one. -/
def loadAddr (s : State) (d : Decoded) : Option Word :=
  match d.hi0 with
  | .mrmovq => some (if regValid d.lo1 then d.cval + getRegVal s.r d.lo1 else d.cval)
  | .popq | .ret => some (getRegVal s.r regRsp)
  | _ => none

theorem setWordVal_frame {m m' : Mem} {pos val : Word} (h : setWordVal m pos val = some m') :
    m'.len = m.len ∧ ∀ b, ¬(pos.toNat ≤ b ∧ b < pos.toNat + 8) → m'.contents b = m.contents b := by
  unfold setWordVal at h
  split at h
  · cases h
  · injection h with h
    subst h
    refine ⟨rfl, ?_⟩
    intro b hb
    exact if_neg hb

/-- Memory changes at the stored word only. -/
theorem execute_frame (s : State) (d : Decoded) :
    (execute s d).1.m.len = s.m.len ∧
      ∀ b, (∀ a, storeAddr s d = some a → ¬(a.toNat ≤ b ∧ b < a.toNat + 8)) →
        (execute s d).1.m.contents b = s.m.contents b := by
  have hstore : ∀ {pos val : Word} {m' : Mem}, setWordVal s.m pos val = some m' →
      storeAddr s d = some pos → m'.len = s.m.len ∧
        ∀ b, (∀ a, storeAddr s d = some a → ¬(a.toNat ≤ b ∧ b < a.toNat + 8)) →
          m'.contents b = s.m.contents b := by
    intro pos val m' h ha
    obtain ⟨h1, h2⟩ := setWordVal_frame h
    exact ⟨h1, fun b hb => h2 b (hb pos ha)⟩
  have hsame : s.m.len = s.m.len ∧
      ∀ b, (∀ a, storeAddr s d = some a → ¬(a.toNat ≤ b ∧ b < a.toNat + 8)) →
        s.m.contents b = s.m.contents b := ⟨rfl, fun _ _ => rfl⟩
  unfold execute
  cases ht : d.hi0 <;> dsimp only
  case rmmovq =>
    split_ifs <;> try exact hsame
    all_goals
      split
      · exact hsame
      · next m' hm => exact hstore hm (by simp_all [storeAddr])
  case call | pushq =>
    split_ifs <;> try exact hsame
    all_goals
      split
      · exact hsame
      · next m' hm => exact hstore hm (by simp [storeAddr, ht])
  all_goals
    repeat' split
    all_goals exact hsame

/-! ## Runs -/

/-- The state after `n` calls of `step_state`. -/
def steps (s : State) : Nat → State
  | 0 => s
  | n + 1 => (stepState (steps s n)).1

/-- The call after `n` successful ones returns `STAT_HLT`. -/
structure HaltsAfter (s : State) (n : Nat) : Prop where
  aok : ∀ i < n, (stepState (steps s i)).2 = .aok
  hlt : (stepState (steps s n)).2 = .hlt

theorem steps_succ (s : State) (n : Nat) : steps s (n + 1) = steps (stepState s).1 n := by
  induction n with
  | zero => rfl
  | succ n ih => exact congrArg (fun s => (stepState s).1) ih

theorem HaltsAfter.tail {s : State} {n : Nat} (h : HaltsAfter s (n + 1)) :
    HaltsAfter (stepState s).1 n where
  aok i hi := by
    rw [← steps_succ]
    exact h.aok (i + 1) (Nat.succ_lt_succ hi)
  hlt := by
    rw [← steps_succ]
    exact h.hlt

end Csapp.Y86
