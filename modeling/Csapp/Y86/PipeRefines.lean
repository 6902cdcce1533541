import Mathlib
import Csapp.Y86.PipeStages

/-!
# The pipelined simulator against `step_state`

The run of `step_state` is a sequence of states; the pipeline holds a window of
it. The invariant is read from the oldest register to the youngest: W is a
bubble or holds instruction `n`, and then M is a bubble or holds the next one,
and so on to the program counter that F predicts. Three kinds of instruction
break the chain. Behind a halt anything may follow, since nothing behind it
reaches memory; behind a branch that turns out not taken anything may follow
until E has seen it, and bubbles from then on; behind a `ret` there are only
bubbles until it has reached W.

A cycle carries each register's claim to the next register, youngest last: the
lemma for a register hands the one behind it what it needs to know about the
older ones.
-/

namespace Csapp.Y86.Pipe

/-! ## One cycle -/

/-- From one clock edge to the next, the limits on instructions aside. -/
def cycle (c : Sim) : Sim := updatePipes (updateState true true (doStages c))

/-- What the memory stage gives in this cycle. -/
def memOut (c : Sim) : MemOut := doMemStage c.mem c.curr.M

/-- What the execute stage gives. -/
def exOut (c : Sim) : ExMem :=
  (doExStage c.cc c.ccIn c.curr.E (memOut c).next c.curr.W).1

/-- What the decode stage gives. -/
def idOut (c : Sim) : IdEx :=
  doIdStage c.reg c.curr.D (exOut c) c.curr.M (memOut c).next c.curr.W

/-- What the fetch gives. -/
def ifOut (c : Sim) : IfId := fetch c.mem (fPc c.curr.F c.curr.M c.curr.W)

/-- The register file once W is written back. -/
def regsM (c : Sim) : Regs :=
  setRegVal (setRegVal c.reg c.curr.W.deste c.curr.W.vale) c.curr.W.destm c.curr.W.valm

/-- The register file once M is written back too. -/
def regsE (c : Sim) : Regs :=
  setRegVal (setRegVal (regsM c) c.curr.M.deste c.curr.M.vale) c.curr.M.destm
    (memOut c).next.valm

theorem cycle_mem (c : Sim) : (cycle c).mem =
    if (memOut c).memWrite then (setWordVal c.mem (memOut c).memAddr (memOut c).memData).getD c.mem
    else c.mem := rfl

theorem cycle_cc (c : Sim) :
    (cycle c).cc = (doExStage c.cc c.ccIn c.curr.E (memOut c).next c.curr.W).2 := rfl

theorem cycle_ccIn (c : Sim) : (cycle c).ccIn = (cycle c).cc := rfl

theorem cycle_W {c : Sim} (h : exceptional c.curr.W.status = false) :
    (cycle c).curr.W = (memOut c).next := by
  change latch _ _ (pipeCntl (exceptional c.curr.W.status) false) _ _ = _
  rw [h]
  rfl

theorem cycle_M {c : Sim} (hm : exceptional (memOut c).next.status = false)
    (hw : exceptional c.curr.W.status = false) : (cycle c).curr.M = exOut c := by
  change latch _ _ (pipeCntl false (exceptional (memOut c).next.status ||
    exceptional c.curr.W.status)) _ _ = _
  rw [hm, hw]
  rfl

theorem cycle_F {c : Sim} : (cycle c).curr.F =
    latch bubblePc { bubblePc with status := .pip }
      (pipeCntl (loadUse c.curr.E (idOut c) || retInside c.curr.D c.curr.E c.curr.M) false)
      c.curr.F (predict (ifOut c)) := rfl

theorem cycle_D {c : Sim} : (cycle c).curr.D =
    latch bubbleIfId { bubbleIfId with status := .pip }
      (pipeCntl (loadUse c.curr.E (idOut c)) (mispredicted c.curr.E (exOut c) ||
        !loadUse c.curr.E (idOut c) && retInside c.curr.D c.curr.E c.curr.M))
      c.curr.D (ifOut c) := rfl

theorem cycle_E {c : Sim} : (cycle c).curr.E =
    latch bubbleIdEx { bubbleIdEx with status := .pip }
      (pipeCntl false (mispredicted c.curr.E (exOut c) || loadUse c.curr.E (idOut c)))
      c.curr.E (idOut c) := rfl

/-- A load/use hazard: F and D stay. -/
theorem cycle_stall {c : Sim} (hl : loadUse c.curr.E (idOut c) = true)
    (hm : mispredicted c.curr.E (exOut c) = false) :
    (cycle c).curr.F = c.curr.F ∧ (cycle c).curr.D = c.curr.D ∧
      (cycle c).curr.E = bubbleIdEx := by
  rw [cycle_F, cycle_D, cycle_E, hl, hm]
  exact ⟨rfl, rfl, rfl⟩

/-- No hazard: everything moves on. -/
theorem cycle_go {c : Sim} (hl : loadUse c.curr.E (idOut c) = false)
    (hm : mispredicted c.curr.E (exOut c) = false)
    (hr : retInside c.curr.D c.curr.E c.curr.M = false) :
    (cycle c).curr.F = predict (ifOut c) ∧ (cycle c).curr.D = ifOut c := by
  rw [cycle_F, cycle_D, hl, hm, hr]
  exact ⟨rfl, rfl⟩

theorem cycle_E_go {c : Sim} (hl : loadUse c.curr.E (idOut c) = false)
    (hm : mispredicted c.curr.E (exOut c) = false) : (cycle c).curr.E = idOut c := by
  rw [cycle_E, hl, hm]
  rfl

/-- A `ret` in the pipeline: what has been fetched is dropped. -/
theorem cycle_ret {c : Sim} (hl : loadUse c.curr.E (idOut c) = false)
    (hr : retInside c.curr.D c.curr.E c.curr.M = true) : (cycle c).curr.D = bubbleIfId := by
  rw [cycle_D, hl, hr]
  cases mispredicted c.curr.E (exOut c) <;> rfl

/-- A branch not taken: the two instructions behind it are dropped. -/
theorem cycle_squash {c : Sim} (hl : loadUse c.curr.E (idOut c) = false)
    (hm : mispredicted c.curr.E (exOut c) = true) :
    (cycle c).curr.D = bubbleIfId ∧ (cycle c).curr.E = bubbleIdEx := by
  rw [cycle_D, cycle_E, hl, hm]
  exact ⟨rfl, rfl⟩

/-- Behind a bubble in D there is one in E. -/
theorem cycle_E_bubble {c : Sim} (h : c.curr.D = bubbleIfId) : BubE (cycle c).curr.E := by
  have hd : BubE (idOut c) := by
    unfold idOut
    rw [h]
    exact doIdStage_bubble
  rw [cycle_E]
  cases (mispredicted c.curr.E (exOut c) || loadUse c.curr.E (idOut c))
  · exact hd
  · exact bubE_bubble

theorem loadUse_of_icode {E d : IdEx} (h : E.icode ∉ [.mrmovq, .popq]) : loadUse E d = false := by
  unfold loadUse
  rw [decide_eq_false h, Bool.false_and]

theorem mispredicted_of_icode {E : IdEx} {e : ExMem} (h : E.icode ≠ .jmp) :
    mispredicted E e = false := by
  unfold mispredicted
  rw [decide_eq_false h, Bool.false_and]

theorem retInside_false {D : IfId} {E : IdEx} {M : ExMem} (hd : D.icode ≠ .ret)
    (he : E.icode ≠ .ret) (hm : M.icode ≠ .ret) : retInside D E M = false := by
  unfold retInside
  simp [hd.symm, he.symm, hm.symm]

/-! ## Forwarding -/

theorem setRegVal_apply {r : Regs} {a b x : RegId} {v w : Word} (hx : x ≠ regNone) :
    setRegVal (setRegVal r a v) b w x = if x = b then w else if x = a then v else r x := by
  unfold setRegVal
  by_cases hb : x = b
  · rw [if_pos hb, if_pos ⟨hb ▸ hx, hb⟩]
  · rw [if_neg hb, if_neg (fun h => hb h.2)]
    by_cases ha : x = a
    · rw [if_pos ha, if_pos ⟨ha ▸ hx, ha⟩]
    · rw [if_neg ha, if_neg (fun h => ha h.2)]

/-- The forwarded value is the register in the state before the instruction in D. -/
theorem forward_eq {c : Sim} {r : Regs} {src : RegId} (dm : RegId) (v : Word)
    (hx : src ≠ regNone) (hd : src ≠ dm)
    (hr : r = setRegVal (setRegVal (regsE c) (exOut c).deste (exOut c).vale) dm v) :
    forward src (exOut c) c.curr.M (memOut c).next c.curr.W (getRegVal c.reg src) = r src := by
  have hm : (memOut c).next.destm = c.curr.M.destm := rfl
  rw [hr, setRegVal_apply hx, if_neg hd]
  unfold regsE
  rw [setRegVal_apply hx]
  unfold regsM
  rw [setRegVal_apply hx]
  unfold forward getRegVal
  rw [if_neg hx]

/-! ## The invariant -/

section

variable (tr : Nat → State)

/-- The run of `step_state`, continued after its end. -/
structure Run : Prop where
  next : ∀ n, tr (n + 1) = (stepState (tr n)).1
  exec : ∀ n, Executes (tr n)
  real : ∀ n, Real (tr n)
  code : ∀ i n, i ≤ n → SameCode (tr i).m (tr n)
  room : ∀ n, (tr n).pc.toNat + 5 < (tr n).m.len

/-- D and F are those of instruction `n` of the run. -/
inductive DOk (c : Sim) (n : Nat) : Prop
  | bubble : c.curr.D = bubbleIfId → c.curr.F.pc = (tr n).pc → DOk c n
  | holds : c.curr.D = ofInsn (tr n) →
      (kind (tr n) = .plain → c.curr.F.pc = (tr (n + 1)).pc) → DOk c n

/-- So are E and what is younger. -/
inductive EOk (c : Sim) (n : Nat) : Prop
  | bubble : BubE c.curr.E → DOk tr c n → EOk c n
  | plain : HoldsE c.curr.E (tr n) → kind (tr n) = .plain → DOk tr c (n + 1) → EOk c n
  | ret : HoldsE c.curr.E (tr n) → kind (tr n) = .ret → c.curr.D = bubbleIfId → EOk c n
  | untaken : HoldsE c.curr.E (tr n) → kind (tr n) = .untaken → EOk c n
  | halt : HoldsE c.curr.E (tr n) → kind (tr n) = .halt → EOk c n

/-- So are M and what is younger. -/
inductive MOk (c : Sim) (n : Nat) : Prop
  | bubble : BubM c.curr.M → c.cc = (tr n).cc → EOk tr c n → MOk c n
  | plain : HoldsM c.curr.M (tr n) → kind (tr n) = .plain → c.cc = (tr (n + 1)).cc →
      EOk tr c (n + 1) → MOk c n
  | turn : HoldsM c.curr.M (tr n) → kind (tr n) = .ret ∨ kind (tr n) = .untaken →
      c.cc = (tr (n + 1)).cc → BubE c.curr.E → c.curr.D = bubbleIfId → MOk c n
  | halt : HoldsM c.curr.M (tr n) → kind (tr n) = .halt → c.cc = (tr (n + 1)).cc → MOk c n

/-- So is the whole pipeline. -/
inductive WOk (c : Sim) (n : Nat) : Prop
  | bubble : BubW c.curr.W → c.mem = (tr n).m → MOk tr c n → WOk c n
  | straight : HoldsW c.curr.W (tr n) → kind (tr n) = .plain ∨ kind (tr n) = .untaken →
      c.mem = (tr (n + 1)).m → MOk tr c (n + 1) → WOk c n
  | ret : HoldsW c.curr.W (tr n) → kind (tr n) = .ret → c.mem = (tr (n + 1)).m →
      c.cc = (tr (n + 1)).cc → BubM c.curr.M → BubE c.curr.E → c.curr.D = bubbleIfId → WOk c n
  | halt : HoldsW c.curr.W (tr n) → kind (tr n) = .halt → c.mem = (tr (n + 1)).m →
      c.cc = (tr (n + 1)).cc → WOk c n

/-- `n` instructions have been written back. -/
structure Inv (c : Sim) (n : Nat) : Prop where
  reg : c.reg = (tr n).r
  ccIn : c.ccIn = c.cc
  wb : WOk tr c n

end

variable {tr : Nat → State}

theorem Run.pc_next (hrun : Run tr) {n : Nat} (h : kind (tr n) ≠ .halt) :
    (tr (n + 1)).pc = (sig (tr n)).pcIn := by
  rw [hrun.next]
  exact (hrun.exec n).commit.2.2.2.2 (mt kind_halt.mpr h)

/-- What has just been fetched at the right place is in D. -/
theorem Run.dOk_fetch (hrun : Run tr) {c : Sim} {n i : Nat}
    (hpc : fPc c.curr.F c.curr.M c.curr.W = (tr n).pc) (hi : i ≤ n) (hmem : c.mem = (tr i).m)
    (hgo : (cycle c).curr.F = predict (ifOut c) ∧ (cycle c).curr.D = ifOut c) :
    DOk tr (cycle c) n := by
  have hf : ifOut c = ofInsn (tr n) := by
    unfold ifOut
    rw [hpc, hmem]
    exact fetch_insn (hrun.exec n) (hrun.code i n hi) (hrun.room n)
  obtain ⟨h1, h2⟩ := hgo
  refine .holds (h2.trans hf) ?_
  intro hk
  rw [h1, hf, hrun.pc_next (by rw [hk]; decide), pcIn_plain hk]
  rfl

/-! ## D and F -/

/-- What the older registers promise to D: nothing redirects the fetch, memory is
that of an earlier state, and every operand can be had by forwarding. -/
structure Behind (tr : Nat → State) (c : Sim) (n : Nat) : Prop where
  pc : fPc c.curr.F c.curr.M c.curr.W = c.curr.F.pc
  mem : ∃ i ≤ n, c.mem = (tr i).m
  retE : c.curr.E.icode ≠ .ret
  retM : c.curr.M.icode ≠ .ret
  hit : mispredicted c.curr.E (exOut c) = false
  fwd : ∀ src, src ≠ regNone → (c.curr.E.icode ∈ [.mrmovq, .popq] → src ≠ c.curr.E.destm) →
    forward src (exOut c) c.curr.M (memOut c).next c.curr.W (getRegVal c.reg src) = (tr n).r src

/-- Without a load/use hazard D moves to E intact. -/
theorem Behind.decode {c : Sim} {n : Nat} (hb : Behind tr c n)
    (hd : c.curr.D = ofInsn (tr n)) (hl : loadUse c.curr.E (idOut c) = false) :
    HoldsE (idOut c) (tr n) := by
  unfold loadUse at hl
  have hsa : (idOut c).srca = (sig (tr n)).srcA := by
    unfold idOut
    rw [hd]
    rfl
  have hsb : (idOut c).srcb = (sig (tr n)).srcB := by
    unfold idOut
    rw [hd]
    rfl
  rw [hsa, hsb] at hl
  unfold idOut
  rw [hd]
  refine doIdStage_holds ?_
  intro src hne hsrc
  refine hb.fwd src hne ?_
  intro hload he
  rw [decide_eq_true hload, Bool.true_and, decide_eq_false_iff_not] at hl
  refine hl ?_
  rw [← he]
  rcases hsrc with hsrc | hsrc <;> rw [hsrc] <;> simp

theorem Behind.step (hrun : Run tr) {c : Sim} {n : Nat} (hb : Behind tr c n) (hd : DOk tr c n) :
    EOk tr (cycle c) n := by
  obtain ⟨i, hi, hmem⟩ := hb.mem
  cases hl : loadUse c.curr.E (idOut c) with
  | true =>
    obtain ⟨h1, h2, h3⟩ := cycle_stall hl hb.hit
    refine .bubble (h3 ▸ bubE_bubble) ?_
    cases hd with
    | bubble g1 g2 => exact .bubble (h2.trans g1) (by rw [h1]; exact g2)
    | holds g1 g2 => exact .holds (h2.trans g1) (by rw [h1]; exact g2)
  | false =>
    cases hd with
    | bubble g1 g2 =>
      refine .bubble (cycle_E_bubble g1) ?_
      refine hrun.dOk_fetch (hb.pc.trans g2) hi hmem (cycle_go hl hb.hit ?_)
      exact retInside_false (by rw [g1]; decide) hb.retE hb.retM
    | holds g1 g2 =>
      have he : HoldsE (cycle c).curr.E (tr n) := by
        rw [cycle_E_go hl hb.hit]
        exact hb.decode g1 hl
      have hicode : c.curr.D.icode = (insn (tr n)).icode := by
        rw [g1]
        rfl
      cases hk : kind (tr n) with
      | plain =>
        refine .plain he hk ?_
        refine hrun.dOk_fetch (hb.pc.trans (g2 hk)) (Nat.le_succ_of_le hi) hmem
          (cycle_go hl hb.hit ?_)
        refine retInside_false ?_ hb.retE hb.retM
        intro hr
        rw [kind_ret.mpr (hicode.symm.trans hr)] at hk
        cases hk
      | untaken => exact .untaken he hk
      | ret =>
        refine .ret he hk (cycle_ret hl ?_)
        unfold retInside
        rw [hicode, kind_ret.mp hk]
        rfl
      | halt => exact .halt he hk

/-! ## E -/

/-- What the older registers promise to E. -/
structure BehindM (tr : Nat → State) (c : Sim) (n : Nat) : Prop where
  pc : fPc c.curr.F c.curr.M c.curr.W = c.curr.F.pc
  mem : ∃ i ≤ n, c.mem = (tr i).m
  retM : c.curr.M.icode ≠ .ret
  ccIn : c.ccIn = c.cc
  quietM : exceptional (memOut c).next.status = false
  quietW : exceptional c.curr.W.status = false
  regs : regsE c = (tr n).r

theorem BubE.quiet {E : IdEx} {d : IdEx} {e : ExMem} (h : BubE E) :
    loadUse E d = false ∧ mispredicted E e = false ∧ E.icode ≠ .ret := by
  refine ⟨loadUse_of_icode ?_, mispredicted_of_icode ?_, ?_⟩ <;> rw [h.icode] <;> decide

/-- A bubble in E passes to M and leaves the condition codes alone. -/
theorem BubE.step {c : Sim} (h : BubE c.curr.E) (hc : c.ccIn = c.cc)
    (hm : exceptional (memOut c).next.status = false)
    (hw : exceptional c.curr.W.status = false) :
    BubM (cycle c).curr.M ∧ (cycle c).cc = c.cc := by
  obtain ⟨h1, h2⟩ :
      BubM (doExStage c.cc c.ccIn c.curr.E (memOut c).next c.curr.W).1 ∧
        (doExStage c.cc c.ccIn c.curr.E (memOut c).next c.curr.W).2 = c.ccIn :=
    doExStage_bubble h
  refine ⟨?_, ?_⟩
  · rw [cycle_M hm hw]
    exact h1
  · rw [cycle_cc, h2, hc]

/-- The destination of a load is the only register that the ALU results and the
older registers do not give. -/
theorem HoldsE.fwd (hrun : Run tr) {c : Sim} {n : Nat} (he : HoldsE c.curr.E (tr n))
    (hx : HoldsM (exOut c) (tr n)) (hr : regsE c = (tr n).r) {src : RegId} (hne : src ≠ regNone)
    (hload : c.curr.E.icode ∈ [.mrmovq, .popq] → src ≠ c.curr.E.destm) :
    forward src (exOut c) c.curr.M (memOut c).next c.curr.W (getRegVal c.reg src) =
      (tr (n + 1)).r src := by
  refine forward_eq (sig (tr n)).destM (sig (tr n)).valm hne ?_ ?_
  · rw [← he.destm]
    by_cases hi : c.curr.E.icode ∈ [.mrmovq, .popq]
    · exact hload hi
    · rw [he.destm]
      change src ≠ Hcl.dstM (insn (tr n)).icode (insn (tr n)).ra
      rw [he.icode] at hi
      unfold Hcl.dstM
      rw [if_neg hi]
      exact hne
  · rw [hrun.next, (hrun.exec n).commit.2.1, hr, hx.deste, hx.vale]
    rfl

theorem BehindM.step (hrun : Run tr) {c : Sim} {n : Nat} (hb : BehindM tr c n)
    (hcc : c.cc = (tr n).cc) (he : EOk tr c n) : MOk tr (cycle c) n := by
  have hholds : ∀ h : HoldsE c.curr.E (tr n), HoldsM (exOut c) (tr n) ∧
      HoldsM (cycle c).curr.M (tr n) ∧ (cycle c).cc = (tr (n + 1)).cc := by
    intro h
    have hx : HoldsM (exOut c) (tr n) := doExStage_holds h (hrun.real n) hcc
    refine ⟨hx, ?_, ?_⟩
    · rw [cycle_M hb.quietM hb.quietW]
      exact hx
    · rw [cycle_cc, hrun.next]
      exact doExStage_cc (hrun.exec n) h (hrun.real n) hcc hb.ccIn hb.quietM hb.quietW
  cases he with
  | bubble h hd =>
    obtain ⟨hl, hm, hr⟩ := BubE.quiet (d := idOut c) (e := exOut c) h
    obtain ⟨g1, g2⟩ := h.step hb.ccIn hb.quietM hb.quietW
    refine .bubble g1 (g2.trans hcc) (Behind.step hrun ?_ hd)
    refine ⟨hb.pc, hb.mem, hr, hb.retM, hm, ?_⟩
    intro src hne _
    refine forward_eq regNone 0 hne hne ?_
    have hx : BubM (exOut c) := (doExStage_bubble h).1
    rw [hx.deste, Seq.setRegVal_none, Seq.setRegVal_none, hb.regs]
  | plain h hk hd =>
    obtain ⟨hx, hM, hc⟩ := hholds h
    refine .plain hM hk hc (Behind.step hrun ?_ hd)
    obtain ⟨i, hi, hmem⟩ := hb.mem
    refine ⟨hb.pc, ⟨i, Nat.le_succ_of_le hi, hmem⟩, ?_, hb.retM, ?_, ?_⟩
    · intro hr
      rw [kind_ret.mpr (h.icode.symm.trans hr)] at hk
      cases hk
    · unfold mispredicted
      rw [h.icode, hx.takebranch]
      by_contra hn
      rw [Bool.not_eq_false, Bool.and_eq_true, decide_eq_true_eq, Bool.not_eq_true'] at hn
      rw [kind_untaken.mpr hn] at hk
      cases hk
    · intro src hne hload
      exact h.fwd hrun hx hb.regs hne hload
  | ret h hk hd =>
    obtain ⟨-, hM, hc⟩ := hholds h
    refine .turn hM (.inl hk) hc (cycle_E_bubble hd) (cycle_ret ?_ ?_)
    · refine loadUse_of_icode ?_
      rw [h.icode, kind_ret.mp hk]
      decide
    · unfold retInside
      rw [h.icode, kind_ret.mp hk]
      simp
  | untaken h hk =>
    obtain ⟨hx, hM, hc⟩ := hholds h
    obtain ⟨hi, hcond⟩ := kind_untaken.mp hk
    have hs := cycle_squash (c := c) ?_ ?_
    · exact .turn hM (.inr hk) hc (hs.2 ▸ bubE_bubble) hs.1
    · refine loadUse_of_icode ?_
      rw [h.icode, hi]
      decide
    · unfold mispredicted
      rw [h.icode, hi, hx.takebranch, hcond]
      rfl
  | halt h hk =>
    obtain ⟨-, hM, hc⟩ := hholds h
    exact .halt hM hk hc

/-! ## M -/

theorem quiet_of_bubble {W : MemWb} (h : BubW W) : exceptional W.status = false := by
  rw [h.status]
  rfl

theorem quiet_of_holds {W : MemWb} {s : State} (h : HoldsW W s) (hk : kind s ≠ .halt) :
    exceptional W.status = false := by
  rw [h.status, status_plain hk]
  rfl

theorem fPc_straight {F : PcEle} {M : ExMem} {W : MemWb}
    (hm : M.icode = .jmp → M.takebranch = true) (hw : W.icode ≠ .ret) : fPc F M W = F.pc := by
  unfold fPc
  rw [if_neg, if_neg hw]
  intro h
  rw [hm h.1] at h
  cases h.2

/-- What W promises to M. -/
structure BehindW (tr : Nat → State) (c : Sim) (n : Nat) : Prop where
  mem : c.mem = (tr n).m
  ccIn : c.ccIn = c.cc
  retW : c.curr.W.icode ≠ .ret
  quietW : exceptional c.curr.W.status = false
  regs : regsM c = (tr n).r

theorem BehindW.step (hrun : Run tr) {c : Sim} {n : Nat} (hb : BehindW tr c n)
    (hm : MOk tr c n) : WOk tr (cycle c) n := by
  have hW := cycle_W hb.quietW
  have hholds : ∀ h : HoldsM c.curr.M (tr n), HoldsW (memOut c).next (tr n) ∧
      HoldsW (cycle c).curr.W (tr n) ∧ (cycle c).mem = (tr (n + 1)).m := by
    intro h
    have hw : HoldsW (memOut c).next (tr n) := doMemStage_holds (hrun.exec n) h hb.mem
    refine ⟨hw, hW ▸ hw, ?_⟩
    rw [cycle_mem, hrun.next]
    exact doMemStage_mem (hrun.exec n) h (hrun.real n) hb.mem
  have hregs : ∀ h : HoldsW (memOut c).next (tr n), regsE c = (tr (n + 1)).r := by
    intro h
    rw [hrun.next]
    exact writeback_holds (hrun.exec n) h hb.regs
  cases hm with
  | bubble h hcc he =>
    obtain ⟨h1, h2⟩ : BubW (memOut c).next ∧ (memOut c).memWrite = false :=
      doMemStage_bubble h
    refine .bubble (hW ▸ h1) ?_ ?_
    · rw [cycle_mem]
      rw [h2]
      exact hb.mem
    · refine BehindM.step hrun ?_ hcc he
      refine ⟨fPc_straight ?_ hb.retW, ⟨n, Nat.le_refl n, hb.mem⟩, ?_, hb.ccIn,
        quiet_of_bubble h1, hb.quietW, ?_⟩
      · intro hj
        rw [h.icode] at hj
        cases hj
      · rw [h.icode]
        decide
      · unfold regsE
        rw [h.deste, h.destm, Seq.setRegVal_none, Seq.setRegVal_none]
        exact hb.regs
  | plain h hk hcc he =>
    obtain ⟨hw, hW', hmem⟩ := hholds h
    refine .straight hW' (.inl hk) hmem (BehindM.step hrun ?_ hcc he)
    refine ⟨fPc_straight ?_ hb.retW, ⟨n, Nat.le_succ n, hb.mem⟩, ?_, hb.ccIn,
      quiet_of_holds hw (by rw [hk]; decide), hb.quietW, hregs hw⟩
    · intro hj
      by_contra hn
      have hu : kind (tr n) = .untaken :=
        kind_untaken.mpr ⟨h.icode.symm.trans hj, h.takebranch.symm.trans (by simpa using hn)⟩
      rw [hk] at hu
      cases hu
    · intro hr
      rw [kind_ret.mpr (h.icode.symm.trans hr)] at hk
      cases hk
  | turn h hk hcc hE hD =>
    obtain ⟨hw, hW', hmem⟩ := hholds h
    have hnh : kind (tr n) ≠ .halt := by rcases hk with hk | hk <;> rw [hk] <;> decide
    obtain ⟨hM', hcc'⟩ := hE.step hb.ccIn (quiet_of_holds hw hnh) hb.quietW
    obtain ⟨hl, hmis, hrE⟩ := BubE.quiet (d := idOut c) (e := exOut c) hE
    rcases hk with hk | hk
    · refine .ret hW' hk hmem (hcc'.trans hcc) hM' (cycle_E_bubble hD) (cycle_ret hl ?_)
      unfold retInside
      rw [h.icode, kind_ret.mp hk]
      simp
    · refine .straight hW' (.inr hk) hmem ?_
      obtain ⟨hi, hcond⟩ := kind_untaken.mp hk
      refine .bubble hM' (hcc'.trans hcc) (.bubble (cycle_E_bubble hD) ?_)
      refine hrun.dOk_fetch ?_ (Nat.le_succ n) hb.mem (cycle_go hl hmis ?_)
      · unfold fPc
        rw [if_pos ⟨h.icode.trans hi, h.takebranch.trans hcond⟩, hrun.pc_next hnh,
          pcIn_untaken hk]
        refine h.vala.valp ?_
        rw [hi]
        decide
      · refine retInside_false ?_ hrE ?_
        · rw [hD]
          decide
        · rw [h.icode, hi]
          decide
  | halt h hk hcc =>
    obtain ⟨hw, hW', hmem⟩ := hholds h
    refine .halt hW' hk hmem ?_
    have hs : setCC c.curr.E (memOut c).next c.curr.W = false := by
      unfold setCC
      rw [hw.status, status_halt hk]
      simp [exceptional]
    rw [cycle_cc]
    change (if setCC c.curr.E (memOut c).next c.curr.W then _ else c.ccIn) = _
    rw [hs, hb.ccIn]
    exact hcc

/-! ## W and the whole pipeline -/

/-- Unless the halt has been reached, a cycle keeps the invariant, and writes an
instruction back exactly when W holds one. -/
theorem Inv.step (hrun : Run tr) {c : Sim} {n : Nat} (h : Inv tr c n)
    (hw : c.curr.W.status ≠ .hlt) :
    (c.curr.W.status = .bub ∧ Inv tr (cycle c) n) ∨
      (c.curr.W.status ≠ .bub ∧ kind (tr n) ≠ .halt ∧ Inv tr (cycle c) (n + 1)) := by
  obtain ⟨hreg, hcc, hwb⟩ := h
  have hholds : ∀ g : HoldsW c.curr.W (tr n), c.curr.W.status ≠ .bub ∧
      (cycle c).reg = (tr (n + 1)).r := by
    intro g
    refine ⟨g.status ▸ status_ne_bub (tr n), ?_⟩
    rw [hrun.next]
    exact writeback_holds (hrun.exec n) g hreg
  cases hwb with
  | bubble g hmem hm =>
    have hr : regsM c = (tr n).r := (writeback_bubble g).trans hreg
    refine .inl ⟨g.status, hr, cycle_ccIn c, BehindW.step hrun ?_ hm⟩
    exact ⟨hmem, hcc, by rw [g.icode]; decide, quiet_of_bubble g, hr⟩
  | straight g hk hmem hm =>
    obtain ⟨g1, g2⟩ := hholds g
    have hnh : kind (tr n) ≠ .halt := by rcases hk with hk | hk <;> rw [hk] <;> decide
    refine .inr ⟨g1, hnh, g2, cycle_ccIn c, BehindW.step hrun ?_ hm⟩
    refine ⟨hmem, hcc, ?_, quiet_of_holds g hnh, g2⟩
    intro hr
    rw [kind_ret.mpr (g.icode.symm.trans hr)] at hk
    rcases hk with hk | hk <;> cases hk
  | ret g hk hmem hcc' hM hE hD =>
    obtain ⟨g1, g2⟩ := hholds g
    have hnh : kind (tr n) ≠ .halt := by rw [hk]; decide
    have hq := quiet_of_holds g hnh
    obtain ⟨h1, h2⟩ : BubW (memOut c).next ∧ (memOut c).memWrite = false :=
      doMemStage_bubble hM
    obtain ⟨hM', hccE⟩ := hE.step hcc (quiet_of_bubble h1) hq
    obtain ⟨hl, hmis, hrE⟩ := BubE.quiet (d := idOut c) (e := exOut c) hE
    refine .inr ⟨g1, hnh, g2, cycle_ccIn c, .bubble (cycle_W hq ▸ h1) ?_ ?_⟩
    · rw [cycle_mem]
      rw [h2]
      exact hmem
    · refine .bubble hM' (hccE.trans hcc') (.bubble (cycle_E_bubble hD) ?_)
      refine hrun.dOk_fetch ?_ (Nat.le_refl _) hmem (cycle_go hl hmis ?_)
      · unfold fPc
        rw [hM.icode, g.icode, kind_ret.mp hk, g.valm, hrun.pc_next hnh,
          pcIn_ret (kind_ret.mp hk)]
        rfl
      · refine retInside_false ?_ hrE ?_
        · rw [hD]
          decide
        · rw [hM.icode]
          decide
  | halt g hk =>
    refine absurd ?_ hw
    rw [g.status, status_halt hk]

end Csapp.Y86.Pipe
