import Mathlib
import Csapp.Y86.SeqRefines
import Csapp.Y86.Pipe

/-!
# One instruction in each pipeline register

An instruction that `step_state` executes in the state `s` is described once, by
the signals of the sequential processor; for each pipeline register there is
then a relation saying that the register holds that instruction, and one lemma
for each stage that carries the instruction from its register to the next. What
a stage needs from outside (the code bytes, the operand values, the condition
codes, the memory) is a hypothesis of its lemma.
-/

namespace Csapp.Y86.Pipe

/-! ## The instruction -/

/-- The instruction that `step_state` executes in `s`. -/
def insn (s : State) : Seq.Fetched := Seq.fetch s.m s.pc

/-- Its signals. -/
def sig (s : State) : Seq.Signals := Seq.signals s.m s.r s.cc 0 (insn s)

/-- `step_state` executes an instruction in `s`. -/
def Executes (s : State) : Prop := (stepState s).2 = .aok ∨ (stepState s).2 = .hlt

/-- Its register fields name registers. -/
def Real (s : State) : Prop := RealOperands (insn s).icode (insn s).ra (insn s).rb

theorem Executes.decode {s : State} (h : Executes s) :
    ∃ d, decode s.m s.pc = some d ∧ insn s = .ofDecoded d ∧ stepState s = execute s d := by
  obtain ⟨d, hd, he⟩ := Seq.decode_of_ne_adr (s := s) (by rcases h with h | h <;> rw [h] <;> decide)
  have h1 : (execute s d).2 = .aok ∨ (execute s d).2 = .hlt := by
    rw [← he]
    exact h
  exact ⟨d, hd, Seq.fetch_eq hd (Seq.execute_ok1 hd h1), he⟩

/-- The signals, committed, are the next state; after a halt the program counter
is the exception. -/
theorem Executes.commit {s : State} (h : Executes s) :
    (sig s).status = (stepState s).2 ∧ (stepState s).1.r = (Seq.commit s (sig s)).r ∧
      (stepState s).1.m = (Seq.commit s (sig s)).m ∧
      (stepState s).1.cc = (Seq.commit s (sig s)).cc ∧
      ((insn s).icode ≠ .halt → (stepState s).1.pc = (sig s).pcIn) := by
  obtain ⟨d, hd, hi, he⟩ := h.decode
  unfold Executes at h
  unfold sig
  rw [hi, he]
  rw [he] at h
  rcases h with h | h
  · obtain ⟨hs, hc⟩ := Seq.signals_commit (v := 0) h
    rw [hc, hs, h]
    refine ⟨rfl, rfl, rfl, rfl, ?_⟩
    intro _
    rw [← hc]
    rfl
  · have hh := Seq.hi0_of_hlt h
    obtain ⟨hs, hc⟩ := Seq.signals_halt (s := s) (v := 0) hh
    rw [hc, hs, Seq.execute_halt hh]
    exact ⟨rfl, rfl, rfl, rfl, fun hn => absurd hh hn⟩

theorem Executes.status {s : State} (h : Executes s) :
    (insn s).imemError = false ∧ (sig s).dmemError = false ∧
      Hcl.instrValid (insn s).icode = true ∧
      (stepState s).2 = if (insn s).icode = .halt then .hlt else .aok := by
  have hs := h.commit.1
  have hst : (sig s).status =
      Seq.stat (insn s).imemError (sig s).dmemError (Hcl.instrValid (insn s).icode)
        (insn s).icode := rfl
  rw [hst] at hs
  unfold Executes at h
  rw [← hs] at h ⊢
  unfold Seq.stat at h ⊢
  split at h
  · rcases h with h | h <;> cases h
  · next h1 =>
      split at h
      · rcases h with h | h <;> cases h
      · next h2 =>
          rw [if_neg h1, if_neg h2]
          refine ⟨?_, ?_, by simpa using h2, rfl⟩ <;> simp_all

/-! ## The kinds of instruction a pipeline tells apart -/

/-- How an instruction leaves the pipeline behind it. -/
inductive Kind
  | plain | untaken | ret | halt
deriving DecidableEq

/-- Plain is what the fetch stage predicts. -/
def kind (s : State) : Kind :=
  if (insn s).icode = .halt then .halt
  else if (insn s).icode = .ret then .ret
  else if (insn s).icode = .jmp ∧ (sig s).cond = false then .untaken
  else .plain

theorem kind_halt {s : State} : kind s = .halt ↔ (insn s).icode = .halt := by
  unfold kind
  split_ifs <;> simp_all

theorem kind_ret {s : State} : kind s = .ret ↔ (insn s).icode = .ret := by
  unfold kind
  split_ifs <;> simp_all

theorem kind_untaken {s : State} :
    kind s = .untaken ↔ (insn s).icode = .jmp ∧ (sig s).cond = false := by
  unfold kind
  split_ifs <;> simp_all

theorem pcIn_plain {s : State} (h : kind s = .plain) :
    (sig s).pcIn = fPredPC (insn s).icode (insn s).valc (insn s).valp := by
  have hp : (sig s).pcIn = Seq.newPc (insn s).icode (sig s).cond (insn s).valc (sig s).valm
    (insn s).valp := rfl
  rw [hp]
  unfold kind at h
  unfold Seq.newPc fPredPC
  split_ifs at h ⊢ <;> simp_all

theorem pcIn_ret {s : State} (h : (insn s).icode = .ret) : (sig s).pcIn = (sig s).valm := by
  have hp : (sig s).pcIn = Seq.newPc (insn s).icode (sig s).cond (insn s).valc (sig s).valm
    (insn s).valp := rfl
  rw [hp, h]
  rfl

theorem pcIn_untaken {s : State} (h : kind s = .untaken) : (sig s).pcIn = (insn s).valp := by
  have hp : (sig s).pcIn = Seq.newPc (insn s).icode (sig s).cond (insn s).valc (sig s).valm
    (insn s).valp := rfl
  obtain ⟨h1, h2⟩ := kind_untaken.mp h
  rw [hp, h1, h2]
  rfl

/-! ## Fetch -/

/-- What register D holds for the instruction of `s`. -/
def ofInsn (s : State) : IfId where
  icode := (insn s).icode
  ifun := (insn s).ifun
  ra := (insn s).ra
  rb := (insn s).rb
  valc := (insn s).valc
  valp := (insn s).valp
  status := if (insn s).icode = .halt then .hlt else .aok

/-- `mem` has the code bytes of the instruction of `s`. -/
def SameCode (mem : Mem) (s : State) : Prop :=
  mem.len = s.m.len ∧ ∀ a, s.pc.toNat ≤ a → a < s.pc.toNat + insnLen (insn s).icode →
    mem.contents a = s.m.contents a

theorem getByteVal_congr {m m' : Mem} {pos : Word} (hl : m.len = m'.len)
    (hc : m.contents pos.toNat = m'.contents pos.toNat) : getByteVal m pos = getByteVal m' pos := by
  unfold getByteVal
  rw [hl, hc]

theorem getWordVal_congr {m m' : Mem} {pos : Word} (hl : m.len = m'.len)
    (hc : ∀ b, pos.toNat ≤ b → b < pos.toNat + 8 → m.contents b = m'.contents b) :
    getWordVal m pos = getWordVal m' pos := by
  unfold getWordVal
  rw [hl, loadWord_congr fun i hi => hc _ (by omega) (by omega)]

theorem getByteVal_range {m : Mem} {pos : Word} (h : getByteVal m pos ≠ none) :
    pos.toNat < m.len ∧ pos.toNat < 2147483648 := by
  unfold getByteVal at h
  have hl := m.len_lt
  split at h
  · exact absurd rfl h
  · next hn =>
      have h1 := pos.isLt
      rw [BitVec.toInt_eq_toNat_cond] at hn
      split at hn <;> omega

theorem toNat_add_small {pc : Word} {k : Nat} (h : pc.toNat < 2147483648) (hk : k < 16) :
    (pc + BitVec.ofNat 64 k).toNat = pc.toNat + k := by
  rw [BitVec.toNat_add, BitVec.toNat_ofNat]
  omega

theorem insn_readable {s : State} (h : Executes s) : getByteVal s.m s.pc ≠ none := by
  obtain ⟨d, hd, -⟩ := h.decode
  intro hn
  unfold Csapp.Y86.decode at hd
  rw [hn] at hd
  cases hd

theorem regids_readable {s : State} (h : Executes s)
    (hn : Hcl.needRegids (insn s).icode = true) : getByteVal s.m (s.pc + 1) ≠ none := by
  obtain ⟨d, hd, hi, he⟩ := h.decode
  unfold Executes at h
  rw [he] at h
  have h1 := Seq.execute_ok1 hd h
  rw [hi, Seq.needRegids_eq] at hn
  unfold Csapp.Y86.decode at hd
  split at hd
  · cases hd
  · injection hd with hd
    subst hd
    dsimp only [Seq.Fetched.ofDecoded] at hn h1
    rw [hn, Bool.not_true, Bool.false_or] at h1
    exact Option.isSome_iff_ne_none.mp h1

theorem sameCode_fetch {mem : Mem} {s : State} (h : Executes s) (hc : SameCode mem s) :
    getByteVal mem s.pc = getByteVal s.m s.pc ∧
      (Hcl.needRegids (insn s).icode = true →
        getByteVal mem (s.pc + 1) = getByteVal s.m (s.pc + 1)) ∧
      (Hcl.needValC (insn s).icode = true →
        let valp := if Hcl.needRegids (insn s).icode then s.pc + 2 else s.pc + 1
        getWordVal mem valp = getWordVal s.m valp) := by
  obtain ⟨hl, hc⟩ := hc
  have hr := (getByteVal_range (insn_readable h)).2
  have h1 : (s.pc + 1).toNat = s.pc.toNat + 1 := toNat_add_small hr (by decide : 1 < 16)
  have h2 : (s.pc + 2).toNat = s.pc.toNat + 2 := toNat_add_small hr (by decide : 2 < 16)
  unfold insnLen at hc
  rw [← Seq.needRegids_eq, ← Seq.needValC_eq] at hc
  refine ⟨?_, ?_, ?_⟩
  · exact getByteVal_congr hl (hc _ (Nat.le_refl _) (by omega))
  · intro hn
    rw [if_pos hn] at hc
    exact getByteVal_congr hl (hc _ (by omega) (by omega))
  · intro hn
    rw [if_pos hn] at hc
    refine getWordVal_congr hl ?_
    intro b hb1 hb2
    split at hb1
    · next hg =>
        rw [if_pos hg] at hb2 hc
        exact hc b (by omega) (by omega)
    · next hg =>
        rw [if_neg hg] at hb2 hc
        exact hc b (by omega) (by omega)

theorem byte_after {s : State} (h : Executes s) (h5 : s.pc.toNat + 5 < s.m.len) :
    (getByteVal s.m (s.pc + 5)).isNone = false := by
  have hr := (getByteVal_range (insn_readable h)).2
  have h1 : (s.pc + 5).toNat = s.pc.toNat + 5 := toNat_add_small hr (by decide : 5 < 16)
  unfold getByteVal
  rw [if_neg]
  · rfl
  · rw [BitVec.toInt_eq_toNat_cond, h1]
    have hl := s.m.len_lt
    split <;> omega

/-- The fetch stage, at the address of the instruction of `s`. -/
theorem fetch_insn {mem : Mem} {s : State} (h : Executes s) (hc : SameCode mem s)
    (h5 : s.pc.toNat + 5 < s.m.len) : fetch mem s.pc = ofInsn s := by
  obtain ⟨f1, f2, f3⟩ := sameCode_fetch h hc
  have f4 : (getByteVal mem (s.pc + 5)).isNone = false := by
    have hb := byte_after h h5
    unfold getByteVal at hb ⊢
    rw [hc.1]
    split at hb
    · cases hb
    · next hn =>
        rw [if_neg hn]
        rfl
  obtain ⟨byte0, hb⟩ := Option.ne_none_iff_exists'.mp (insn_readable h)
  have hv := h.status.2.2.1
  have hr := regids_readable h
  unfold ofInsn fetch
  unfold insn Seq.fetch at f2 f3 hv hr ⊢
  simp only [f1, hb, f4, Option.isNone_some, Bool.or_self, Hcl.icode, Hcl.ifun, Bool.false_eq_true,
    if_false, Option.getD_some] at f2 f3 hv hr ⊢
  rw [IfId.mk.injEq]
  refine ⟨rfl, rfl, ?_, ?_, ?_, rfl, ?_⟩
  · split
    · next hn =>
        obtain ⟨byte1, hb1⟩ := Option.ne_none_iff_exists'.mp (hr hn)
        rw [f2 hn, hb1]
        rfl
    · rfl
  · split
    · next hn =>
        obtain ⟨byte1, hb1⟩ := Option.ne_none_iff_exists'.mp (hr hn)
        rw [f2 hn, hb1]
        rfl
    · rfl
  · split
    · next hn => rw [f3 hn]
    · rfl
  · unfold fStat
    rw [hv]
    rfl

/-! ## The registers -/

/-- `v` is the A value of the instruction: the return address of a call, the
fall-through of a jump, otherwise the operand, if there is one. -/
structure ValA (s : State) (v : Word) : Prop where
  valp : (insn s).icode ∈ [.call, .jmp] → v = (insn s).valp
  port : (sig s).srcA ≠ regNone → v = (sig s).vala

/-- E holds the instruction at `s`. -/
structure HoldsE (E : IdEx) (s : State) : Prop where
  icode : E.icode = (insn s).icode
  ifun : E.ifun = (insn s).ifun
  valc : E.valc = (insn s).valc
  vala : ValA s E.vala
  valb : (sig s).srcB ≠ regNone → E.valb = (sig s).valb
  deste : E.deste = dDstE (ofInsn s)
  destm : E.destm = (sig s).destM
  status : E.status = (ofInsn s).status

/-- M holds it. -/
structure HoldsM (M : ExMem) (s : State) : Prop where
  icode : M.icode = (insn s).icode
  takebranch : M.takebranch = (sig s).cond
  vale : M.vale = (sig s).vale
  vala : ValA s M.vala
  deste : M.deste = (sig s).destE
  destm : M.destm = (sig s).destM
  status : M.status = (ofInsn s).status

/-- W holds it. -/
structure HoldsW (W : MemWb) (s : State) : Prop where
  icode : W.icode = (insn s).icode
  vale : W.vale = (sig s).vale
  valm : W.valm = (sig s).valm
  deste : W.deste = (sig s).destE
  destm : W.destm = (sig s).destM
  status : W.status = (ofInsn s).status

/-- E holds nothing: the bubble, or what decode makes of one. -/
structure BubE (E : IdEx) : Prop where
  icode : E.icode = .nop
  deste : E.deste = regNone
  destm : E.destm = regNone
  status : E.status = .bub

/-- M holds a bubble. -/
structure BubM (M : ExMem) : Prop where
  icode : M.icode = .nop
  deste : M.deste = regNone
  destm : M.destm = regNone
  status : M.status = .bub

/-- W holds a bubble. -/
structure BubW (W : MemWb) : Prop where
  icode : W.icode = .nop
  deste : W.deste = regNone
  destm : W.destm = regNone
  status : W.status = .bub

theorem status_insn (s : State) :
    (ofInsn s).status = if (insn s).icode = .halt then .hlt else .aok := rfl

theorem status_ne_bub (s : State) : (ofInsn s).status ≠ .bub := by
  rw [status_insn]
  split <;> decide

theorem status_plain {s : State} (h : kind s ≠ .halt) : (ofInsn s).status = .aok := by
  rw [status_insn, if_neg (mt kind_halt.mpr h)]

theorem status_halt {s : State} (h : kind s = .halt) : (ofInsn s).status = .hlt := by
  rw [status_insn, if_pos (kind_halt.mp h)]

/-! ## Decode -/

theorem bubE_bubble : BubE bubbleIdEx := ⟨rfl, rfl, rfl, rfl⟩

theorem doIdStage_bubble {reg : Regs} {e M : ExMem} {m W : MemWb} :
    BubE (doIdStage reg bubbleIfId e M m W) := ⟨rfl, rfl, rfl, rfl⟩

theorem vala_port (s : State) (h : (sig s).srcA ≠ regNone) : (sig s).vala = s.r (sig s).srcA := by
  have hv : (sig s).vala = if (sig s).srcA ≠ regNone then getRegVal s.r (sig s).srcA else 0 := rfl
  rw [hv, if_pos h, getRegVal, if_neg h]

theorem valb_port (s : State) (h : (sig s).srcB ≠ regNone) : (sig s).valb = s.r (sig s).srcB := by
  have hv : (sig s).valb = if (sig s).srcB ≠ regNone then getRegVal s.r (sig s).srcB else 0 := rfl
  rw [hv, if_pos h, getRegVal, if_neg h]

theorem doIdStage_holds {reg : Regs} {s : State} {e M : ExMem} {m W : MemWb}
    (hf : ∀ src, src ≠ regNone → src = (sig s).srcA ∨ src = (sig s).srcB →
      forward src e M m W (getRegVal reg src) = s.r src) :
    HoldsE (doIdStage reg (ofInsn s) e M m W) s where
  icode := rfl
  ifun := rfl
  valc := rfl
  vala :=
    { valp := by
        intro h
        exact if_pos h
      port := by
        intro h
        have hn : (ofInsn s).icode ∉ [.call, .jmp] := by
          intro hc
          refine h ?_
          change Hcl.srcA (insn s).icode (insn s).ra = regNone
          change (insn s).icode ∈ _ at hc
          rw [List.mem_cons, List.mem_singleton] at hc
          rcases hc with hc | hc <;> rw [hc] <;> rfl
        rw [vala_port s h, ← hf _ h (.inl rfl)]
        exact if_neg hn }
  valb h := by
    rw [valb_port s h, ← hf _ h (.inr rfl)]
    rfl
  deste := rfl
  destm := rfl
  status := rfl

/-! ## Execute -/

theorem doExStage_bubble {cc ccIn : CC} {E : IdEx} {m W : MemWb} (h : BubE E) :
    BubM (doExStage cc ccIn E m W).1 ∧ (doExStage cc ccIn E m W).2 = ccIn := by
  obtain ⟨h1, h2, h3, h4⟩ := h
  refine ⟨⟨h1, ?_, h3, h4⟩, ?_⟩
  · change eDstE E _ = regNone
    unfold eDstE
    rw [h2, ite_self]
  · have hs : setCC E m W = false := by
      unfold setCC
      rw [h1]
      rfl
    unfold doExStage
    dsimp only
    rw [hs, if_neg Bool.false_ne_true]

/-- Decode leaves the condition of a move open, execute closes it. -/
theorem eDstE_eq {D : IfId} {E : IdEx} {cnd : Bool} (h1 : E.icode = D.icode)
    (h2 : E.deste = dDstE D) : eDstE E cnd = Seq.dstE D.icode cnd D.rb := by
  obtain ⟨icode, ifun, ra, rb, valc, valp, status⟩ := D
  unfold eDstE
  rw [h2, h1]
  unfold dDstE Seq.dstE
  cases icode <;> cases cnd <;> simp

theorem aluA_holds {E : IdEx} {s : State} (h : HoldsE E s) (hr : Real s) :
    Hcl.aluA E.icode E.vala E.valc = Hcl.aluA (insn s).icode (sig s).vala (insn s).valc := by
  rw [h.icode, h.valc]
  unfold Hcl.aluA
  split
  · next hi =>
      refine h.vala.port ?_
      change Hcl.srcA (insn s).icode (insn s).ra ≠ regNone
      have ha := hr.1
      rw [List.mem_cons, List.mem_singleton] at hi
      rcases hi with hi | hi <;> rw [hi] at ha ⊢ <;> exact ha (by decide)
  · rfl

theorem aluB_holds {E : IdEx} {s : State} (h : HoldsE E s) (hr : Real s) :
    Hcl.aluB E.icode E.valb = Hcl.aluB (insn s).icode (sig s).valb := by
  rw [h.icode]
  unfold Hcl.aluB
  split
  · next hi =>
      refine h.valb ?_
      change Hcl.srcB (insn s).icode (insn s).rb ≠ regNone
      have hb := hr.2
      revert hb
      cases hc : (insn s).icode <;> rw [hc] at hi <;> simp [Hcl.srcB] at hi ⊢ <;> decide
  · rfl

theorem doExStage_holds {cc ccIn : CC} {E : IdEx} {s : State} {m W : MemWb} (h : HoldsE E s)
    (hr : Real s) (hcc : cc = s.cc) :
    HoldsM (doExStage cc ccIn E m W).1 s where
  icode := h.icode
  takebranch := by
    change condHolds cc E.ifun = condHolds s.cc (insn s).ifun
    rw [hcc, h.ifun]
  vale := by
    change computeAlu (Hcl.alufun E.icode E.ifun) _ _ = computeAlu _ _ _
    rw [aluA_holds h hr, aluB_holds h hr, h.icode, h.ifun]
    rfl
  vala := h.vala
  deste := by
    change eDstE E (condHolds cc E.ifun) = _
    rw [h.ifun, hcc]
    exact eDstE_eq (D := ofInsn s) h.icode h.deste
  destm := h.destm
  status := h.status

theorem doExStage_cc {cc ccIn : CC} {E : IdEx} {s : State} {m W : MemWb} (hs : Executes s)
    (h : HoldsE E s) (hr : Real s) (hcc : cc = s.cc) (hin : ccIn = cc)
    (hm : exceptional m.status = false) (hw : exceptional W.status = false) :
    (doExStage cc ccIn E m W).2 = (stepState s).1.cc := by
  rw [hs.commit.2.2.2.1]
  change (if setCC E m W then computeCC _ _ _ else ccIn) =
    if Seq.setCC (insn s).icode then computeCC (Hcl.alufun (insn s).icode (insn s).ifun)
      (Hcl.aluA (insn s).icode (sig s).vala (insn s).valc)
      (Hcl.aluB (insn s).icode (sig s).valb) else s.cc
  rw [aluA_holds h hr, aluB_holds h hr, hin, hcc]
  unfold setCC Seq.setCC
  rw [hm, hw, h.icode, h.ifun]
  simp

/-! ## Memory -/

theorem doMemStage_bubble {mem : Mem} {M : ExMem} (h : BubM M) :
    BubW (doMemStage mem M).next ∧ (doMemStage mem M).memWrite = false := by
  obtain ⟨h1, h2, h3, h4⟩ := h
  have hr : Hcl.memRead M.icode = false := by rw [h1]; rfl
  have hw : Hcl.memWrite M.icode = false := by rw [h1]; rfl
  refine ⟨⟨h1, h2, h3, ?_⟩, hw⟩
  change mStat ((Hcl.memRead M.icode || Hcl.memWrite M.icode) && _) M = .bub
  rw [hr, hw]
  exact h4

theorem memAddr_holds {M : ExMem} {s : State} (h : HoldsM M s) :
    Hcl.memAddr M.icode M.vale M.vala = (sig s).memAddr := by
  change _ = Hcl.memAddr (insn s).icode (sig s).vale (sig s).vala
  rw [h.icode, h.vale]
  unfold Hcl.memAddr
  split
  · rfl
  · split
    · next hi =>
        refine h.vala.port ?_
        change Hcl.srcA (insn s).icode (insn s).ra ≠ regNone
        rw [List.mem_cons, List.mem_singleton] at hi
        have hr : regRsp ≠ regNone := by decide
        rcases hi with hi | hi <;> rw [hi] <;> exact hr
    · rfl

theorem doMemStage_holds {mem : Mem} {M : ExMem} {s : State} (hs : Executes s) (h : HoldsM M s)
    (hm : mem = s.m) : HoldsW (doMemStage mem M).next s where
  icode := h.icode
  vale := h.vale
  valm := by
    change (if Hcl.memRead M.icode then (getWordVal mem _).getD 0 else 0) =
      if Hcl.memRead (insn s).icode then (getWordVal s.m (sig s).memAddr).getD 0 else 0
    rw [memAddr_holds h, h.icode, hm]
  deste := h.deste
  destm := h.destm
  status := by
    have hd := hs.status.2.1
    change mStat ((Hcl.memRead M.icode || Hcl.memWrite M.icode) &&
      (getWordVal mem (Hcl.memAddr M.icode M.vale M.vala)).isNone) M = _
    have he : (sig s).dmemError = ((Hcl.memRead (insn s).icode || Hcl.memWrite (insn s).icode) &&
      (getWordVal s.m (sig s).memAddr).isNone) := rfl
    rw [memAddr_holds h, h.icode, hm, ← he, hd]
    exact h.status

/-- The memory after the pending write. -/
theorem doMemStage_mem {mem : Mem} {M : ExMem} {s : State} (hs : Executes s) (h : HoldsM M s)
    (hr : Real s) (hm : mem = s.m) :
    (if (doMemStage mem M).memWrite then
      (setWordVal mem (doMemStage mem M).memAddr (doMemStage mem M).memData).getD mem else mem) =
      (stepState s).1.m := by
  rw [hs.commit.2.2.1]
  change (if Hcl.memWrite M.icode then
      (setWordVal mem (Hcl.memAddr M.icode M.vale M.vala) M.vala).getD mem else mem) =
    if Hcl.memWrite (insn s).icode then (setWordVal s.m (sig s).memAddr (sig s).memData).getD s.m
    else s.m
  rw [memAddr_holds h, h.icode, hm]
  split
  · next hw =>
      have hv : M.vala = (sig s).memData := by
        change M.vala = Seq.memData (insn s).icode (sig s).vala (insn s).valp
        have h1 := h.vala.valp
        have h2 := h.vala.port
        have ha := hr.1
        change Hcl.srcA (insn s).icode (insn s).ra ≠ regNone → _ at h2
        revert h1 h2 ha
        cases hc : (insn s).icode <;> rw [hc] at hw <;>
          simp [Hcl.memWrite, Hcl.srcA, Seq.memData] at hw ⊢ <;> tauto
      rw [hv]
  · rfl

/-! ## Write back -/

theorem writeback_bubble {reg : Regs} {W : MemWb} (h : BubW W) :
    setRegVal (setRegVal reg W.deste W.vale) W.destm W.valm = reg := by
  rw [h.deste, h.destm, Seq.setRegVal_none, Seq.setRegVal_none]

theorem writeback_holds {reg : Regs} {W : MemWb} {s : State} (hs : Executes s) (h : HoldsW W s)
    (hr : reg = s.r) :
    setRegVal (setRegVal reg W.deste W.vale) W.destm W.valm = (stepState s).1.r := by
  rw [hs.commit.2.1, h.deste, h.vale, h.destm, h.valm, hr]
  rfl

end Csapp.Y86.Pipe
