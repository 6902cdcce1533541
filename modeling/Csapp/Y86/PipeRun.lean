import Mathlib
import Csapp.Y86.PipeRefines

/-!
# Whole runs of the pipelined simulator

A cycle either writes an instruction back or moves the oldest instruction one
register on, so the halt of the program reaches W. The conditions that a program
must meet for this are stated on the run of `step_state` alone: register fields
that name registers, no store into an instruction executed later, and room for
the byte that the fetch stage probes.
-/

namespace Csapp.Y86.Pipe

variable {tr : Nat → State}

/-! ## Progress -/

/-- How far the oldest instruction is from W. -/
def distance (s : Stages) : Nat :=
  if s.W.status ≠ .bub then 0
  else if s.M.status ≠ .bub then 1
  else if s.E.status ≠ .bub then 2
  else if s.D.status ≠ .bub then 3
  else 4

theorem distance_le (s : Stages) : distance s ≤ 4 := by
  unfold distance
  split_ifs <;> decide

theorem Inv.oldest {c : Sim} {n : Nat} (h : Inv tr c n) (hw : c.curr.W.status = .bub) :
    c.curr.M.status ≠ .bub ∨ (BubM c.curr.M ∧
      (c.curr.E.status ≠ .bub ∨ (BubE c.curr.E ∧
        (c.curr.D.status ≠ .bub ∨ c.curr.D = bubbleIfId)))) := by
  have hn := status_ne_bub (tr n)
  cases h.wb with
  | bubble _ _ hm =>
    cases hm with
    | bubble hM _ he =>
      refine .inr ⟨hM, ?_⟩
      cases he with
      | bubble hE hd =>
        refine .inr ⟨hE, ?_⟩
        cases hd with
        | bubble hD => exact .inr hD
        | holds hD =>
          rw [hD]
          exact .inl hn
      | plain hE | ret hE | untaken hE | halt hE =>
        rw [hE.status]
        exact .inl hn
    | plain hM | turn hM | halt hM =>
      rw [hM.status]
      exact .inl hn
  | straight g | ret g | halt g => exact absurd (g.status.symm.trans hw) hn

theorem fetch_status_ne_bub (mem : Mem) (pc : Word) : (fetch mem pc).status ≠ .bub := by
  unfold fetch fStat
  dsimp only
  split_ifs <;> decide

theorem distance_lt {c : Sim} {n : Nat} (h : Inv tr c n) (hw : c.curr.W.status = .bub) :
    distance (cycle c).curr < distance c.curr := by
  have hqw : exceptional c.curr.W.status = false := by rw [hw]; rfl
  have hW := cycle_W hqw
  unfold distance
  rw [if_neg (not_not.mpr hw)]
  rcases h.oldest hw with hM | ⟨hM, hE⟩
  · have hs : (cycle c).curr.W.status ≠ .bub := by
      rw [hW]
      change mStat _ c.curr.M ≠ .bub
      unfold mStat
      split
      · decide
      · exact hM
    rw [if_pos hs, if_pos hM]
    decide
  · obtain ⟨hb, -⟩ : BubW (memOut c).next ∧ _ := doMemStage_bubble hM
    have hm := cycle_M (quiet_of_bubble hb) hqw
    rw [hW, if_neg (not_not.mpr hb.status), if_neg (not_not.mpr hM.status)]
    rcases hE with hE | ⟨hE, hD⟩
    · have hs : (cycle c).curr.M.status ≠ .bub := by
        rw [hm]
        exact hE
      rw [if_pos hs, if_pos hE]
      decide
    · obtain ⟨hl, hmis, hrE⟩ := BubE.quiet (d := idOut c) (e := exOut c) hE
      have he := cycle_E_go hl hmis
      rw [if_neg (not_not.mpr hE.status)]
      rcases hD with hD | hD
      · have hs : (cycle c).curr.E.status ≠ .bub := by
          rw [he]
          exact hD
        rw [if_pos hs, if_pos hD]
        split_ifs <;> decide
      · have hr : retInside c.curr.D c.curr.E c.curr.M = false := by
          refine retInside_false ?_ hrE ?_
          · rw [hD]
            decide
          · rw [hM.icode]
            decide
        have hs : (cycle c).curr.D.status ≠ .bub := by
          rw [(cycle_go hl hmis hr).2]
          exact fetch_status_ne_bub _ _
        have hd : c.curr.D.status = .bub := by
          rw [hD]
          rfl
        rw [if_pos hs, if_neg (not_not.mpr hd)]
        split_ifs <;> decide

/-! ## The halt is reached -/

theorem Inv.status {c : Sim} {n : Nat} (h : Inv tr c n) :
    c.curr.W.status = .bub ∨ c.curr.W.status = .aok ∨ c.curr.W.status = .hlt := by
  have hs : (ofInsn (tr n)).status = .aok ∨ (ofInsn (tr n)).status = .hlt := by
    rw [status_insn]
    split
    · exact .inr rfl
    · exact .inl rfl
  cases h.wb with
  | bubble g => exact .inl g.status
  | straight g | ret g | halt g =>
    rw [g.status]
    exact .inr hs

theorem Inv.halted {c : Sim} {n : Nat} (h : Inv tr c n) (hw : c.curr.W.status = .hlt) :
    kind (tr n) = .halt ∧ c.mem = (tr (n + 1)).m ∧ c.cc = (tr (n + 1)).cc := by
  cases h.wb with
  | bubble g =>
    rw [g.status] at hw
    cases hw
  | straight g hk =>
    rw [g.status, status_plain (by rcases hk with hk | hk <;> rw [hk] <;> decide)] at hw
    cases hw
  | ret g hk =>
    rw [g.status, status_plain (by rw [hk]; decide)] at hw
    cases hw
  | halt g hk hmem hcc => exact ⟨hk, hmem, hcc⟩

/-- The cycles up to the one in which the halt is in W. -/
theorem Inv.reaches (hrun : Run tr) {K : Nat} (hK : kind (tr K) = .halt) {c : Sim} {n : Nat}
    (hn : n ≤ K) (h : Inv tr c n) :
    ∃ i, (∀ j < i, (cycle^[j] c).curr.W.status = .bub ∨ (cycle^[j] c).curr.W.status = .aok) ∧
      (cycle^[i] c).curr.W.status = .hlt ∧ ∃ m ≤ K, Inv tr (cycle^[i] c) m := by
  -- an instruction written back outweighs any new distance
  induction hr : 5 * (K - n) + distance c.curr using Nat.strong_induction_on
    generalizing c n with
  | _ r ih =>
    by_cases hw : c.curr.W.status = .hlt
    · refine ⟨0, ?_, hw, n, hn, h⟩
      intro j hj
      cases hj
    · have hnext : ∃ m ≤ K, Inv tr (cycle c) m ∧
          5 * (K - m) + distance (cycle c).curr < r := by
        rcases h.step hrun hw with ⟨hb, hi⟩ | ⟨-, hk, hi⟩
        · have hd := distance_lt h hb
          exact ⟨n, hn, hi, by omega⟩
        · have hne : n ≠ K := by
            intro he
            rw [he] at hk
            exact hk hK
          have hd := distance_le (cycle c).curr
          exact ⟨n + 1, by omega, hi, by omega⟩
      obtain ⟨m, hm, hi, hlt⟩ := hnext
      obtain ⟨i, h1, h2⟩ := ih _ hlt hm hi rfl
      refine ⟨i + 1, ?_, h2⟩
      intro j hj
      cases j with
      | zero =>
        rcases h.status with hs | hs | hs
        · exact .inl hs
        · exact .inr hs
        · exact absurd hs hw
      | succ j => exact h1 j (Nat.lt_of_succ_lt_succ hj)

/-! ## The loop of the simulator -/

/-- The clock edge, the limits on instructions aside. -/
def edge (s : Sim) : Sim := updatePipes (updateState true true s)

theorem simStepPipe_eq {k : Nat} {s : Sim} (hk : 2 < k) :
    simStepPipe k s = (doStages (edge s), stat (edge s).curr.W) := by
  have h1 : (if s.curr.W.status ≠ .bub then 1 else 0) ≤ 1 := by split_ifs <;> decide
  have h2 : (if s.next.W.status ≠ .bub then 1 else 0) ≤ 1 := by split_ifs <;> decide
  unfold simStepPipe edge
  dsimp only
  rw [decide_eq_true (Nat.lt_of_le_of_lt h1 (by omega)),
    decide_eq_true (Nat.lt_of_le_of_lt (Nat.add_le_add h1 h2) hk)]
  rfl

theorem stat_hlt {W : MemWb} (h : W.status = .hlt) : stat W = .hlt := by
  unfold stat
  rw [h]
  rfl

theorem stat_running {W : MemWb} (h : W.status = .bub ∨ W.status = .aok) : stat W = .aok := by
  unfold stat
  rcases h with h | h <;> rw [h] <;> rfl

theorem simLoop_halts {maxInstr i n : Nat} {x : RunResult}
    (hrun : ∀ j < i, (cycle^[j] (edge x.sim)).curr.W.status = .bub ∨
      (cycle^[j] (edge x.sim)).curr.W.status = .aok)
    (hhlt : (cycle^[i] (edge x.sim)).curr.W.status = .hlt) (hn : i < n)
    (hi : x.icount + i + 2 < maxInstr) :
    (simLoop maxInstr n x).status = .hlt ∧
      (simLoop maxInstr n x).sim = doStages (cycle^[i] (edge x.sim)) := by
  induction i generalizing n x with
  | zero =>
    obtain ⟨n, rfl⟩ : ∃ m, n = m + 1 := ⟨n - 1, by omega⟩
    have hst : stat (edge x.sim).curr.W = .hlt := stat_hlt hhlt
    unfold simLoop
    dsimp only
    rw [if_neg (by omega), simStepPipe_eq (by omega)]
    dsimp only
    rw [hst, if_pos (by decide)]
    exact ⟨rfl, rfl⟩
  | succ i ih =>
    obtain ⟨n, rfl⟩ : ∃ m, n = m + 1 := ⟨n - 1, by omega⟩
    have hst : stat (edge x.sim).curr.W = .aok := stat_running (hrun 0 (Nat.succ_pos i))
    unfold simLoop
    dsimp only
    rw [if_neg (by omega), simStepPipe_eq (by omega)]
    dsimp only
    rw [hst, if_neg (by decide), if_pos (by decide)]
    refine ih (x := ⟨x.icount + 1, .aok, doStages (edge x.sim)⟩) ?_ hhlt (by omega) ?_
    · intro j hj
      exact hrun (j + 1) (Nat.succ_lt_succ hj)
    · change x.icount + 1 + i + 2 < maxInstr
      omega

theorem inv_reset (tr : Nat → State) (mem : Mem) (h : tr 0 = newState mem) :
    Inv tr (edge (simReset mem)) 0 where
  reg := by
    rw [h]
    change setRegVal (setRegVal (fun _ => 0) regNone 0) regNone 0 = fun _ => 0
    rw [Seq.setRegVal_none, Seq.setRegVal_none]
  ccIn := rfl
  wb := by
    refine .bubble ⟨rfl, rfl, rfl, rfl⟩ (by rw [h]; rfl) ?_
    refine .bubble ⟨rfl, rfl, rfl, rfl⟩ (by rw [h]; rfl) ?_
    exact .bubble ⟨rfl, rfl, rfl, rfl⟩ (.bubble rfl (by rw [h]; rfl))

/-! ## Programs -/

/-- The run of `step_state` from `s`, as far as its halt after `K` steps: every
register field names a register, the byte five after each instruction is in
memory, and no store writes a byte of an instruction executed later. -/
structure Pipelinable (s : State) (K : Nat) : Prop where
  real : ∀ i ≤ K, ∀ d, decode (steps s i).m (steps s i).pc = some d →
    RealOperands d.hi0 d.hi1 d.lo1
  room : ∀ i ≤ K, (steps s i).pc.toNat + 5 < s.m.len
  code : ∀ i j, i < j → j ≤ K → ∀ d e a,
    decode (steps s i).m (steps s i).pc = some d → storeAddr (steps s i) d = some a →
      decode (steps s j).m (steps s j).pc = some e →
        ∀ b, a.toNat ≤ b → b < a.toNat + 8 →
          ¬((steps s j).pc.toNat ≤ b ∧ b < (steps s j).pc.toNat + insnLen e.hi0)

end Csapp.Y86.Pipe

namespace Csapp.Y86

open Pipe

variable {s : State} {K : Nat}

theorem HaltsAfter.executes (h : HaltsAfter s K) {i : Nat} (hi : i ≤ K) :
    Executes (steps s i) := by
  rcases Nat.lt_or_eq_of_le hi with hlt | he
  · exact .inl (h.aok i hlt)
  · exact .inr (he ▸ h.hlt)

/-- A halt leaves the state as it is. -/
theorem HaltsAfter.stays (h : HaltsAfter s K) (n : Nat) : steps s (K + n) = steps s K := by
  induction n with
  | zero => rfl
  | succ n ih =>
    obtain ⟨d, -, -, he⟩ := (h.executes (Nat.le_refl K)).decode
    have hh := h.hlt
    rw [he] at hh
    change (stepState (steps s (K + n))).1 = steps s K
    rw [ih, he, Seq.execute_halt (Seq.hi0_of_hlt hh)]

theorem HaltsAfter.steps_min (h : HaltsAfter s K) (n : Nat) :
    steps s n = steps s (min n K) := by
  rcases Nat.le_total n K with hn | hn
  · rw [min_eq_left hn]
  · obtain ⟨m, rfl⟩ := Nat.exists_eq_add_of_le hn
    rw [min_eq_right hn, h.stays]

theorem HaltsAfter.len (h : HaltsAfter s K) {i : Nat} (hi : i ≤ K) :
    (steps s i).m.len = s.m.len := by
  induction i with
  | zero => rfl
  | succ i ih =>
    have hi' := Nat.le_of_succ_le hi
    obtain ⟨d, -, -, he⟩ := (h.executes hi').decode
    change (stepState (steps s i)).1.m.len = s.m.len
    rw [he, (execute_frame _ d).1]
    exact ih hi'

end Csapp.Y86

namespace Csapp.Y86.Pipe

variable {s : State} {K : Nat}

theorem Pipelinable.sameCode (hp : Pipelinable s K) (h : HaltsAfter s K) {i j : Nat}
    (hij : i ≤ j) (hj : j ≤ K) : SameCode (steps s i).m (steps s j) := by
  refine ⟨(h.len (hij.trans hj)).trans (h.len hj).symm, ?_⟩
  intro b hb1 hb2
  obtain ⟨e, he, hie, -⟩ := (h.executes hj).decode
  -- from `i` up to `j`, one instruction at a time
  obtain ⟨k, rfl⟩ := Nat.exists_eq_add_of_le hij
  induction k generalizing i with
  | zero => rfl
  | succ k ih =>
    have hlt : i < i + (k + 1) := by omega
    obtain ⟨d, hd, -, hx⟩ := (h.executes (i := i) (by omega)).decode
    have hstep : (steps s (i + 1)).m.contents b = (steps s i).m.contents b := by
      change (stepState (steps s i)).1.m.contents b = _
      rw [hx]
      refine (execute_frame _ d).2 b ?_
      intro a ha hab
      refine hp.code i (i + (k + 1)) hlt hj d e a hd ha he b hab.1 hab.2 ⟨hb1, ?_⟩
      rw [hie] at hb2
      exact hb2
    have hidx : i + 1 + k = i + (k + 1) := by omega
    rw [← hstep]
    have hr := ih (i := i + 1) (by omega)
    rw [hidx] at hr
    exact hr hj hb1 hb2 he hie

theorem Pipelinable.run (hp : Pipelinable s K) (h : HaltsAfter s K) : Run (steps s) where
  next _ := rfl
  exec n := by
    rw [h.steps_min n]
    exact h.executes (min_le_right n K)
  real n := by
    have hn := min_le_right n K
    obtain ⟨d, hd, hi, -⟩ := (h.executes hn).decode
    have hr := hp.real _ hn d hd
    unfold Real
    rw [h.steps_min n, hi]
    exact hr
  code i n hin := by
    rw [h.steps_min n, h.steps_min i]
    exact hp.sameCode h (min_le_min_right K hin) (min_le_right n K)
  room n := by
    have hn := min_le_right n K
    rw [h.steps_min n, h.len hn]
    exact hp.room _ hn

/-- Given enough instructions and cycles, the pipelined simulator ends as
`step_state` does. -/
theorem simRunPipe_refines {mem : Mem} (h : HaltsAfter (newState mem) K)
    (hp : Pipelinable (newState mem) K) :
    ∃ N, ∀ maxInstr maxCycle, N ≤ maxInstr → N ≤ maxCycle →
      let x := simRunPipe maxInstr maxCycle (simReset mem)
      let s := steps (newState mem) (K + 1)
      x.status = .hlt ∧ x.sim.reg = s.r ∧ x.sim.mem = s.m ∧ x.sim.cc = s.cc := by
  have hrun := hp.run h
  have hkind : ∀ i ≤ K, kind (steps (newState mem) i) = .halt → i = K := by
    intro i hi hk
    by_contra hne
    have hs := (h.executes hi).status.2.2.2
    rw [if_pos (kind_halt.mp hk), h.aok i (by omega)] at hs
    cases hs
  have hK : kind (steps (newState mem) K) = .halt := by
    have hs := (h.executes (Nat.le_refl K)).status.2.2.2
    rw [h.hlt] at hs
    refine kind_halt.mpr ?_
    by_contra hne
    rw [if_neg hne] at hs
    cases hs
  obtain ⟨i, h1, h2, m, hm, hinv⟩ :=
    (inv_reset (steps (newState mem)) mem rfl).reaches hrun hK (Nat.zero_le K)
  refine ⟨i + 3, ?_⟩
  intro maxInstr maxCycle hi hc
  obtain ⟨g1, g2⟩ := simLoop_halts (x := ⟨0, .aok, simReset mem⟩) (n := maxCycle) h1 h2
    (by omega) (show 0 + i + 2 < maxInstr by omega)
  obtain ⟨hk, hmem, hcc⟩ := hinv.halted h2
  have hmK := hkind m hm hk
  subst hmK
  have hreg := hinv.reg
  have hstay : steps (newState mem) (m + 1) = steps (newState mem) m := h.stays 1
  refine ⟨g1, ?_, ?_, ?_⟩
  · exact (congrArg Sim.reg g2).trans (hreg.trans (congrArg State.r hstay.symm))
  · exact (congrArg Sim.mem g2).trans hmem
  · exact (congrArg Sim.cc g2).trans hcc

/-- `irmovq $5, %rax; halt`. -/
def loadHalt : Mem :=
  ⟨fun a => if a = 0 then 0x30 else if a = 1 then 0xF0 else if a = 2 then 5 else 0, 16, by decide⟩

theorem simRunPipe_refines_load : ∃ N, ∀ maxInstr maxCycle, N ≤ maxInstr → N ≤ maxCycle →
    (simRunPipe maxInstr maxCycle (simReset loadHalt)).status = .hlt ∧
      (simRunPipe maxInstr maxCycle (simReset loadHalt)).sim.reg 0 = 5 := by
  have h : HaltsAfter (newState loadHalt) 1 := by
    refine ⟨?_, by decide⟩
    intro i hi
    obtain rfl : i = 0 := by omega
    decide
  have h0 : decode (steps (newState loadHalt) 0).m (steps (newState loadHalt) 0).pc =
      some ⟨.irmovq, 0, true, 15, 0, true, 5, 10⟩ := by rfl
  have h1 : decode (steps (newState loadHalt) 1).m (steps (newState loadHalt) 1).pc =
      some ⟨.halt, 0, true, 15, 15, true, 0, 11⟩ := by rfl
  have hp : Pipelinable (newState loadHalt) 1 := by
    refine ⟨?_, ?_, ?_⟩
    · intro i hi d hd
      rcases Nat.le_one_iff_eq_zero_or_eq_one.mp hi with rfl | rfl
      · rw [h0] at hd
        cases hd
        exact ⟨by decide, by decide⟩
      · rw [h1] at hd
        cases hd
        exact ⟨by decide, by decide⟩
    · intro i hi
      rcases Nat.le_one_iff_eq_zero_or_eq_one.mp hi with rfl | rfl <;> decide
    · intro i j hij hj d e a hd ha
      obtain rfl : i = 0 := by omega
      rw [h0] at hd
      cases hd
      cases ha
  obtain ⟨N, hN⟩ := simRunPipe_refines h hp
  refine ⟨N, ?_⟩
  intro maxInstr maxCycle hi hc
  obtain ⟨g1, g2, -⟩ := hN maxInstr maxCycle hi hc
  refine ⟨g1, (congrFun g2 0).trans ?_⟩
  decide

end Csapp.Y86.Pipe
