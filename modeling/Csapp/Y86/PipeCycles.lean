import Mathlib
import Csapp.Y86.PipeRun

/-!
# How many cycles a program takes

`sim_step_pipe` counts the instructions that reach W and, from the first of them
on, the cycles; `psim` prints their quotient as the CPI. Here both counts are
given by the run of `step_state` alone: one cycle for each instruction, one more
for each load whose successor reads what it loads, two more for each branch not
taken, three more for each `ret`.

`Inv` says what a register holds if it holds something, and leaves open how many
bubbles are between two instructions. The gap predicates pin that down: behind
instruction `n` there are as many as `penalty` says, and no more.
-/

namespace Csapp.Y86.Pipe

/-! ## The counters -/

/-- The statics `cycles`, `instructions` and `starting_up`. -/
structure Perf where
  cycles : Nat
  instructions : Nat
  startingUp : Bool

/-- The performance monitoring of `sim_step_pipe`, with the W it leaves. -/
def Perf.tick (p : Perf) (W : MemWb) : Perf :=
  if W.status ≠ .bub ∧ W.icode ≠ .pop2 then ⟨p.cycles + 1, p.instructions + 1, false⟩
  else if p.startingUp then p
  else { p with cycles := p.cycles + 1 }

/-- The loop of `sim_run_pipe`, and the counters with it. -/
def simLoopPerf (maxInstr : Nat) : Nat → RunResult × Perf → RunResult × Perf
  | 0, x => x
  | n + 1, x =>
    if maxInstr ≤ x.1.icount then x
    else
      let y := simStepPipe (maxInstr - x.1.icount) x.1.sim
      let r : RunResult := ⟨if y.2 ≠ .bub then x.1.icount + 1 else x.1.icount, y.2, y.1⟩
      let x := (r, x.2.tick y.1.curr.W)
      if y.2 ≠ .aok ∧ y.2 ≠ .bub then x else simLoopPerf maxInstr n x

/-- `sim_run_pipe`, with the counters. -/
def simRunPipePerf (maxInstr maxCycle : Nat) (s : Sim) : RunResult × Perf :=
  simLoopPerf maxInstr maxCycle (⟨0, .aok, s⟩, ⟨0, 0, true⟩)

theorem simLoopPerf_fst {maxInstr n : Nat} :
    ∀ {x : RunResult × Perf}, (simLoopPerf maxInstr n x).1 = simLoop maxInstr n x.1 := by
  induction n with
  | zero => exact fun {_} => rfl
  | succ n ih =>
    intro x
    rw [simLoopPerf, simLoop]
    dsimp only
    split
    · rfl
    · split
      · rfl
      · exact ih

/-! ## What an instruction costs -/

section
variable (tr : Nat → State)

/-- Instruction `n` loads a register that the next one reads. -/
def loadUseAt (n : Nat) : Bool :=
  (insn (tr n)).icode ∈ [.mrmovq, .popq] &&
    ((sig (tr n)).destM = (sig (tr (n + 1))).srcA || (sig (tr n)).destM = (sig (tr (n + 1))).srcB)

/-- The bubbles behind instruction `n`. -/
def penalty (n : Nat) : Nat :=
  match kind (tr n) with
  | .plain => if loadUseAt tr n then 1 else 0
  | .untaken => 2
  | .ret => 3
  | .halt => 0

end

variable {tr : Nat → State}

theorem penalty_plain {n : Nat} (h : kind (tr n) = .plain) :
    penalty tr n = if loadUseAt tr n then 1 else 0 := by
  rw [penalty, h]

theorem penalty_le (tr : Nat → State) (n : Nat) : penalty tr n ≤ 3 := by
  rw [penalty]
  cases kind (tr n) with
  | plain =>
    dsimp only
    split <;> decide
  | untaken | ret | halt =>
    dsimp only
    omega

/-! ## Gaps

From each register on: `p` of them are empty, and then comes instruction `n`. -/

/-- From D on there are that many bubbles before the next instruction. -/
def GapD (c : Sim) : Nat → Prop
  | 0 => c.curr.D.status ≠ .bub
  | _ + 1 => c.curr.D.status = .bub

section
variable (tr : Nat → State) (c : Sim)

/-- From E on, where instruction `n` is next. -/
def GapE : Nat → Nat → Prop
  | 0, n => c.curr.E.status ≠ .bub ∧ (kind (tr n) = .plain → GapD c 0)
  | p + 1, _ => c.curr.E.status = .bub ∧ GapD c p

/-- From M on. -/
def GapM : Nat → Nat → Prop
  | 0, n => c.curr.M.status ≠ .bub ∧
      (kind (tr n) = .plain → GapE tr c (penalty tr n) (n + 1))
  | p + 1, n => c.curr.M.status = .bub ∧ GapE tr c p n

/-- From W on. -/
def GapW : Nat → Nat → Prop
  | 0, n => c.curr.W.status ≠ .bub ∧
      (kind (tr n) ≠ .halt → GapM tr c (penalty tr n) (n + 1))
  | p + 1, n => c.curr.W.status = .bub ∧ GapM tr c p n

end

section
variable {c : Sim} {n p : Nat}

/-- Nothing in the way: D is filled by the fetch. -/
theorem gapD_fetched (hl : loadUse c.curr.E (idOut c) = false)
    (hm : mispredicted c.curr.E (exOut c) = false)
    (hr : retInside c.curr.D c.curr.E c.curr.M = false) : GapD (cycle c) 0 := by
  rw [GapD, (cycle_go hl hm hr).2]
  exact fetch_status_ne_bub _ _

theorem icode_ne_ret {s : State} (h : kind s = .plain) : (insn s).icode ≠ .ret := by
  intro hr
  rw [kind_ret.mpr hr] at h
  cases h

/-- A plain instruction in E is no branch that goes the other way. -/
theorem HoldsE.hit {s : State} (he : HoldsE c.curr.E s) (hx : HoldsM (exOut c) s)
    (hk : kind s = .plain) : mispredicted c.curr.E (exOut c) = false := by
  rw [mispredicted, he.icode, hx.takebranch]
  by_contra hn
  rw [Bool.not_eq_false, Bool.and_eq_true, decide_eq_true_eq, Bool.not_eq_true'] at hn
  rw [kind_untaken.mpr hn] at hk
  cases hk

theorem HoldsE.loadUse_eq (he : HoldsE c.curr.E (tr n)) (hd : c.curr.D = ofInsn (tr (n + 1))) :
    loadUse c.curr.E (idOut c) = loadUseAt tr n := by
  have hsa : (idOut c).srca = (sig (tr (n + 1))).srcA := by
    rw [idOut, hd]
    rfl
  have hsb : (idOut c).srcb = (sig (tr (n + 1))).srcB := by
    rw [idOut, hd]
    rfl
  rw [loadUse, loadUseAt, hsa, hsb, he.icode, he.destm, ← Bool.decide_or]
  congr 2
  rw [List.mem_cons, List.mem_singleton]

theorem GapE.step (hrun : Run tr) (hM : c.curr.M.icode ≠ .ret) (hcc : c.cc = (tr n).cc)
    (hqm : exceptional (memOut c).next.status = false)
    (hqw : exceptional c.curr.W.status = false) (he : EOk tr c n) (hp : p ≤ 2)
    (hg : GapE tr c p n) : GapM tr (cycle c) p n := by
  have hM' : (cycle c).curr.M.status = c.curr.E.status := by
    rw [cycle_M hqm hqw]
    rfl
  have hE' (hl : loadUse c.curr.E (idOut c) = false)
      (hm : mispredicted c.curr.E (exOut c) = false) :
      (cycle c).curr.E.status = c.curr.D.status := by
    rw [cycle_E_go hl hm]
    rfl
  cases p with
  | zero =>
    obtain ⟨hE, hD⟩ := hg
    refine ⟨hM'.trans_ne hE, fun hk => ?_⟩
    cases he with
    | bubble h _ => exact absurd h.status hE
    | ret _ hk' | untaken _ hk' | halt _ hk' =>
      rw [hk'] at hk
      cases hk
    | plain h _ hd =>
      have hD := hD hk
      cases hd with
      | bubble g => exact absurd (by rw [g]; rfl) hD
      | holds g =>
        have hx : HoldsM (exOut c) (tr n) := doExStage_holds h (hrun.real n) hcc
        have hm := h.hit hx hk
        have hl := h.loadUse_eq g
        rw [penalty_plain hk]
        cases hu : loadUseAt tr n with
        | true =>
          rw [hu] at hl
          obtain ⟨-, h2, h3⟩ := cycle_stall hl hm
          rw [if_pos rfl]
          refine ⟨h3 ▸ rfl, ?_⟩
          rw [GapD, h2]
          exact hD
        | false =>
          rw [hu] at hl
          rw [if_neg (by decide)]
          refine ⟨(hE' hl hm).trans_ne hD, fun hk' => gapD_fetched hl hm ?_⟩
          refine retInside_false ?_ ?_ hM
          · rw [g]
            exact icode_ne_ret hk'
          · rw [h.icode]
            exact icode_ne_ret hk
  | succ p =>
    obtain ⟨hE, hD⟩ := hg
    refine ⟨hM'.trans hE, ?_⟩
    cases he with
    | plain h | ret h | untaken h | halt h =>
      exact absurd (h.status.symm.trans hE) (status_ne_bub (tr n))
    | bubble h hd =>
      obtain ⟨hl, hm, hr⟩ := BubE.quiet (d := idOut c) (e := exOut c) h
      cases p with
      | zero =>
        refine ⟨(hE' hl hm).trans_ne hD, fun hk => gapD_fetched hl hm ?_⟩
        refine retInside_false ?_ hr hM
        cases hd with
        | bubble g =>
          rw [g]
          decide
        | holds g =>
          rw [g]
          exact icode_ne_ret hk
      | succ p =>
        -- two bubbles, and the next instruction is fetched now
        obtain rfl : p = 0 := by omega
        refine ⟨(hE' hl hm).trans hD, gapD_fetched hl hm ?_⟩
        refine retInside_false ?_ hr hM
        cases hd with
        | bubble g =>
          rw [g]
          decide
        | holds g =>
          refine absurd hD ?_
          rw [GapD, g]
          exact status_ne_bub _

/-- What M holds goes to W, and a bubble stays a bubble. -/
theorem memOut_status (c : Sim) (h : c.curr.M.status ≠ .bub) :
    (memOut c).next.status ≠ .bub := by
  change mStat _ c.curr.M ≠ .bub
  rw [mStat]
  split
  · decide
  · exact h

theorem GapM.step (hrun : Run tr) (hmem : c.mem = (tr n).m) (hcc : c.ccIn = c.cc)
    (hqw : exceptional c.curr.W.status = false) (hm : MOk tr c n) (hp : p ≤ 3)
    (hg : GapM tr c p n) : GapW tr (cycle c) p n := by
  have hW := cycle_W hqw
  cases p with
  | zero =>
    obtain ⟨hM, hE⟩ := hg
    refine ⟨hW ▸ memOut_status c hM, fun hnh => ?_⟩
    cases hm with
    | bubble h => exact absurd h.status hM
    | halt _ hk => exact absurd hk hnh
    | plain h hk hcc' he =>
      have hw : HoldsW (memOut c).next (tr n) := doMemStage_holds (hrun.exec n) h hmem
      refine GapE.step hrun ?_ hcc' (quiet_of_holds hw hnh) hqw he ?_ (hE hk)
      · rw [h.icode]
        exact icode_ne_ret hk
      · rw [penalty_plain hk]
        split <;> decide
    | turn h hk hcc' hE hD =>
      have hw : HoldsW (memOut c).next (tr n) := doMemStage_holds (hrun.exec n) h hmem
      obtain ⟨hM', -⟩ := hE.step hcc (quiet_of_holds hw hnh) hqw
      obtain ⟨hl, hmis, hrE⟩ := BubE.quiet (d := idOut c) (e := exOut c) hE
      have hE' := cycle_E_bubble hD
      rcases hk with hk | hk
      · rw [penalty, hk]
        refine ⟨hM'.status, hE'.status, ?_⟩
        have hr : retInside c.curr.D c.curr.E c.curr.M = true := by
          rw [retInside, h.icode, kind_ret.mp hk]
          simp
        rw [GapD, cycle_ret hl hr]
        rfl
      · rw [penalty, hk]
        refine ⟨hM'.status, hE'.status, gapD_fetched hl hmis (retInside_false ?_ hrE ?_)⟩
        · rw [hD]
          decide
        · rw [h.icode, (kind_untaken.mp hk).1]
          decide
  | succ p =>
    obtain ⟨hM, hE⟩ := hg
    cases hm with
    | plain h | turn h | halt h =>
      exact absurd (h.status.symm.trans hM) (status_ne_bub (tr n))
    | bubble h hcc' he =>
      obtain ⟨hb, -⟩ : BubW (memOut c).next ∧ _ := doMemStage_bubble h
      refine ⟨hW ▸ hb.status, ?_⟩
      refine GapE.step hrun ?_ hcc' (quiet_of_bubble hb) hqw he (by omega) hE
      rw [h.icode]
      decide

/-! ## One cycle of the whole pipeline -/

/-- An empty W waits for the next instruction. -/
theorem Inv.wait (hrun : Run tr) (h : Inv tr c n) (hp : p ≤ 3) (hg : GapW tr c (p + 1) n) :
    c.curr.W.status = .bub ∧ Inv tr (cycle c) n ∧ GapW tr (cycle c) p n := by
  obtain ⟨hW, hM⟩ := hg
  have hne : c.curr.W.status ≠ .hlt := by
    rw [hW]
    decide
  refine ⟨hW, ?_, ?_⟩
  · rcases h.step hrun hne with ⟨-, hi⟩ | ⟨hn, -⟩
    · exact hi
    · exact absurd hW hn
  · cases h.wb with
    | straight g | ret g | halt g =>
      exact absurd (g.status.symm.trans hW) (status_ne_bub (tr n))
    | bubble g hmem hm =>
      exact GapM.step hrun hmem h.ccIn (quiet_of_bubble g) hm hp hM

/-- The instruction in W is written back. -/
theorem Inv.retire (hrun : Run tr) (h : Inv tr c n) (hk : kind (tr n) ≠ .halt)
    (hg : GapW tr c 0 n) :
    HoldsW c.curr.W (tr n) ∧ Inv tr (cycle c) (n + 1) ∧
      GapW tr (cycle c) (penalty tr n) (n + 1) := by
  obtain ⟨hW, hM⟩ := hg
  have hM := hM hk
  have hnext (g : HoldsW c.curr.W (tr n)) : Inv tr (cycle c) (n + 1) := by
    have hne : c.curr.W.status ≠ .hlt := by
      rw [g.status, status_plain hk]
      decide
    rcases h.step hrun hne with ⟨hb, -⟩ | ⟨-, -, hi⟩
    · exact absurd hb hW
    · exact hi
  cases h.wb with
  | bubble g => exact absurd g.status hW
  | halt _ hk' => exact absurd hk' hk
  | straight g _ hmem hm =>
    exact ⟨g, hnext g,
      GapM.step hrun hmem h.ccIn (quiet_of_holds g hk) hm (penalty_le tr n) hM⟩
  | ret g hk' _ _ hMb hE hD =>
    refine ⟨g, hnext g, ?_⟩
    have hq := quiet_of_holds g hk
    obtain ⟨hb, -⟩ : BubW (memOut c).next ∧ _ := doMemStage_bubble hMb
    obtain ⟨hl, hmis, hrE⟩ := BubE.quiet (d := idOut c) (e := exOut c) hE
    obtain ⟨hM', -⟩ := hE.step h.ccIn (quiet_of_bubble hb) hq
    rw [penalty, hk']
    refine ⟨cycle_W hq ▸ hb.status, hM'.status, (cycle_E_bubble hD).status,
      gapD_fetched hl hmis (retInside_false ?_ hrE ?_)⟩
    · rw [hD]
      decide
    · rw [hMb.icode]
      decide

end

/-! ## The whole run -/

/-- A cycle, and the count of the W it begins with. -/
def tick (x : Sim × Perf) : Sim × Perf := (cycle x.1, x.2.tick x.1.curr.W)

theorem tick_iterate_fst (i : Nat) (x : Sim × Perf) : (tick^[i] x).1 = cycle^[i] x.1 := by
  induction i generalizing x with
  | zero => rfl
  | succ i ih => exact ih (tick x)

/-- W runs on for `i` cycles. -/
def Running (c : Sim) (i : Nat) : Prop :=
  ∀ j < i, (cycle^[j] c).curr.W.status = .bub ∨ (cycle^[j] c).curr.W.status = .aok

theorem Running.succ {c : Sim} {i : Nat}
    (h0 : c.curr.W.status = .bub ∨ c.curr.W.status = .aok) (h : Running (cycle c) i) :
    Running c (i + 1) := by
  intro j hj
  cases j with
  | zero => exact h0
  | succ j => exact h j (Nat.lt_of_succ_lt_succ hj)

theorem Running.add {c : Sim} {i k : Nat} (hi : Running c i) (hk : Running (cycle^[i] c) k) :
    Running c (k + i) := by
  intro j hj
  rcases Nat.lt_or_ge j i with hlt | hge
  · exact hi j hlt
  · obtain ⟨d, rfl⟩ := Nat.exists_eq_add_of_le hge
    rw [Nat.add_comm i d, Function.iterate_add_apply]
    exact hk d (by omega)

/-- `p` cycles with nothing in W. -/
def Perf.idle (q : Perf) (p : Nat) : Perf :=
  if q.startingUp then q else { q with cycles := q.cycles + p }

theorem idle_idle (q : Perf) (p k : Nat) : (q.idle p).idle k = q.idle (p + k) := by
  obtain ⟨cycles, instructions, startingUp⟩ := q
  cases startingUp with
  | true => rfl
  | false => exact congrArg (Perf.mk · instructions false) (Nat.add_assoc cycles p k)

theorem idle_zero (q : Perf) : q.idle 0 = q := by
  rw [Perf.idle]
  split <;> rfl

theorem tick_bubble {W : MemWb} {q : Perf} (h : W.status = .bub) : q.tick W = q.idle 1 := by
  rw [Perf.tick, if_neg fun hn => hn.1 h, Perf.idle]

theorem tick_holds {s : State} (hs : Executes s) {W : MemWb} {q : Perf} (h : HoldsW W s) :
    q.tick W = ⟨q.cycles + 1, q.instructions + 1, false⟩ := by
  rw [Perf.tick, if_pos]
  refine ⟨h.status ▸ status_ne_bub s, ?_⟩
  intro hp
  have hv := hs.status.2.2.1
  rw [← h.icode, hp] at hv
  exact absurd hv (by decide)

/-- The bubbles in front of instruction `n`. -/
theorem Inv.waits (hrun : Run tr) {n p : Nat} :
    ∀ {c : Sim} {q : Perf}, Inv tr c n → p ≤ 4 → GapW tr c p n → Running c p ∧
      Inv tr (cycle^[p] c) n ∧ GapW tr (cycle^[p] c) 0 n ∧
      (tick^[p] (c, q)).2 = q.idle p := by
  induction p with
  | zero =>
    intro c q h _ hg
    exact ⟨fun j hj => absurd hj (Nat.not_lt_zero j), h, hg, (idle_zero q).symm⟩
  | succ p ih =>
    intro c q h hp hg
    obtain ⟨hb, hi, hg'⟩ := h.wait hrun (by omega) hg
    obtain ⟨g1, g2, g3, g4⟩ := ih (q := q.tick c.curr.W) hi (by omega) hg'
    refine ⟨.succ (.inl hb) g1, g2, g3, ?_⟩
    rw [Function.iterate_succ_apply, tick, g4, tick_bubble hb, idle_idle, Nat.add_comm]

/-- What the instructions from `n` on cost, `k` of them. -/
def cost (tr : Nat → State) (n k : Nat) : Nat := ((List.range' n k).map (penalty tr)).sum + k

/-- From instruction `n` in W to the halt, which is instruction `n + k`. -/
theorem Inv.finishes (hrun : Run tr) {k : Nat} :
    ∀ {n : Nat} {c : Sim} {q : Perf}, Inv tr c n → GapW tr c 0 n →
      (∀ j < k, kind (tr (n + j)) ≠ .halt) → kind (tr (n + k)) = .halt →
      let i := cost tr n k
      Running c i ∧ Inv tr (cycle^[i] c) (n + k) ∧ (cycle^[i] c).curr.W.status = .hlt ∧
        (tick^[i + 1] (c, q)).2 = ⟨q.cycles + i + 1, q.instructions + k + 1, false⟩ := by
  induction k with
  | zero =>
    intro n c q h hg _ hk
    refine ⟨fun j hj => absurd hj (Nat.not_lt_zero j), h, ?_⟩
    have g : HoldsW c.curr.W (tr n) := by
      cases h.wb with
      | bubble g => exact absurd g.status hg.1
      | straight g | ret g | halt g => exact g
    refine ⟨g.status.trans (status_halt hk), ?_⟩
    exact tick_holds (hrun.exec n) g
  | succ k ih =>
    intro n c q h hg hne hk
    have hk0 : kind (tr n) ≠ .halt := hne 0 (Nat.succ_pos k)
    obtain ⟨g, hi, hg'⟩ := h.retire hrun hk0 hg
    have hp := penalty_le tr n
    obtain ⟨w1, w2, w3, w4⟩ := hi.waits (q := q.tick c.curr.W) hrun (by omega) hg'
    have hidx : n + 1 + k = n + (k + 1) := by omega
    obtain ⟨f1, f2, f3, f4⟩ := ih (q := (tick^[penalty tr n] (tick (c, q))).2) w2 w3
      (fun j hj => by
        have := hne (j + 1) (by omega)
        rwa [show n + (j + 1) = n + 1 + j by omega] at this)
      (by rwa [hidx])
    have hcost : cost tr n (k + 1) = cost tr (n + 1) k + penalty tr n + 1 := by
      simp only [cost, List.range'_succ, List.map_cons, List.sum_cons]
      omega
    dsimp only
    rw [hcost]
    have hcyc : cycle^[cost tr (n + 1) k + penalty tr n + 1] c =
        cycle^[cost tr (n + 1) k] (cycle^[penalty tr n] (cycle c)) := by
      rw [Function.iterate_succ_apply, Function.iterate_add_apply]
    rw [hidx] at f2
    refine ⟨.succ (.inr ?_) (w1.add f1), hcyc ▸ f2, hcyc ▸ f3, ?_⟩
    · rw [g.status]
      exact status_plain hk0
    · have htick : tick^[cost tr (n + 1) k + penalty tr n + 1 + 1] (c, q) =
          tick^[cost tr (n + 1) k + 1] (tick^[penalty tr n] (tick (c, q))) := by
        rw [← Function.iterate_succ_apply tick (penalty tr n), ← Function.iterate_add_apply]
        congr 1
        omega
      have hpair : tick^[penalty tr n] (tick (c, q)) = (cycle^[penalty tr n] (cycle c),
          (tick^[penalty tr n] (tick (c, q))).2) :=
        Prod.ext (tick_iterate_fst _ _) rfl
      rw [htick, hpair, f4]
      change (tick^[penalty tr n] (cycle c, q.tick c.curr.W)).2 = _ at w4
      change Perf.mk ((tick^[penalty tr n] (cycle c, q.tick c.curr.W)).2.cycles + _ + 1)
        ((tick^[penalty tr n] (cycle c, q.tick c.curr.W)).2.instructions + _ + 1) false = _
      rw [w4, tick_holds (hrun.exec n) g]
      dsimp only [Perf.idle]
      rw [if_neg (by decide)]
      congr 1 <;> dsimp only <;> omega

theorem simLoopPerf_halts {maxInstr i n : Nat} {x : RunResult × Perf}
    (hrun : Running (edge x.1.sim) i)
    (hhlt : (cycle^[i] (edge x.1.sim)).curr.W.status = .hlt) (hn : i < n)
    (hi : x.1.icount + i + 2 < maxInstr) :
    (simLoopPerf maxInstr n x).2 = (tick^[i + 1] (edge x.1.sim, x.2)).2 := by
  induction i generalizing n x with
  | zero =>
    obtain ⟨n, rfl⟩ : ∃ m, n = m + 1 := ⟨n - 1, by omega⟩
    have hst : stat (edge x.1.sim).curr.W = .hlt := stat_hlt hhlt
    rw [simLoopPerf]
    dsimp only
    rw [if_neg (by omega), simStepPipe_eq (by omega)]
    dsimp only
    rw [hst, if_pos (by decide)]
    rfl
  | succ i ih =>
    obtain ⟨n, rfl⟩ : ∃ m, n = m + 1 := ⟨n - 1, by omega⟩
    have hst : stat (edge x.1.sim).curr.W = .aok := stat_running (hrun 0 (Nat.succ_pos i))
    rw [simLoopPerf]
    dsimp only
    rw [if_neg (by omega), simStepPipe_eq (by omega)]
    dsimp only
    rw [hst, if_neg (by decide), if_pos (by decide)]
    refine ih (x := (⟨x.1.icount + 1, .aok, doStages (edge x.1.sim)⟩,
      x.2.tick (edge x.1.sim).curr.W)) ?_ hhlt (by omega) ?_
    · intro j hj
      exact hrun (j + 1) (Nat.succ_lt_succ hj)
    · change x.1.icount + 1 + i + 2 < maxInstr
      omega

theorem loadUseAt_plain {n : Nat} (h : loadUseAt tr n = true) : kind (tr n) = .plain := by
  rw [loadUseAt, Bool.and_eq_true, decide_eq_true_eq] at h
  have hl := h.1
  cases hk : kind (tr n) with
  | plain => rfl
  | untaken =>
    rw [(kind_untaken.mp hk).1] at hl
    exact absurd hl (by decide)
  | ret =>
    rw [kind_ret.mp hk] at hl
    exact absurd hl (by decide)
  | halt =>
    rw [kind_halt.mp hk] at hl
    exact absurd hl (by decide)

section
variable (tr : Nat → State) (k : Nat)

/-- How many of the first `k` instructions are of a kind. -/
def countKind (kd : Kind) : Nat := (List.range k).countP fun i => kind (tr i) = kd

/-- How many of the first `k` instructions load what the next one reads. -/
def countLoadUse : Nat := (List.range k).countP (loadUseAt tr)

end

theorem penalty_eq (tr : Nat → State) (n : Nat) : penalty tr n =
    (if loadUseAt tr n then 1 else 0) + 2 * (if kind (tr n) = .untaken then 1 else 0) +
      3 * (if kind (tr n) = .ret then 1 else 0) := by
  have hl : loadUseAt tr n = true → kind (tr n) = .plain := loadUseAt_plain
  rw [penalty]
  cases hk : kind (tr n) with
  | plain => simp
  | untaken | ret | halt =>
    rw [hk] at hl
    rw [if_neg fun h => Kind.noConfusion (hl h)]
    decide

theorem cost_eq (tr : Nat → State) (k : Nat) :
    cost tr 0 k = k + countLoadUse tr k + 2 * countKind tr k .untaken +
      3 * countKind tr k .ret := by
  rw [cost, ← List.range_eq_range', countLoadUse, countKind, countKind]
  induction k with
  | zero => rfl
  | succ k ih =>
    rw [List.range_succ, List.map_append, List.sum_append, List.countP_append,
      List.countP_append, List.countP_append]
    simp only [List.map_cons, List.map_nil, List.sum_cons, List.sum_nil, List.countP_cons,
      List.countP_nil, penalty_eq tr k, decide_eq_true_eq]
    omega

/-- The counters of the pipelined simulator when a program has halted: `K + 1`
instructions, and the cycles that the run of `step_state` tells. -/
theorem simRunPipe_cycles {mem : Mem} {K maxInstr maxCycle : Nat}
    (h : HaltsAfter (newState mem) K) (hp : Pipelinable (newState mem) K) :
    let tr := steps (newState mem)
    let total := K + 1 + countLoadUse tr K + 2 * countKind tr K .untaken +
      3 * countKind tr K .ret
    total + 5 < maxInstr → total + 3 < maxCycle →
      let x := simRunPipePerf maxInstr maxCycle (simReset mem)
      x.1 = simRunPipe maxInstr maxCycle (simReset mem) ∧ x.1.status = .hlt ∧
        x.2.instructions = K + 1 ∧ x.2.cycles = total := by
  intro tr total hi hc x
  have hrun : Run tr := hp.run h
  have hgap : GapW tr (edge (simReset mem)) 4 0 := ⟨rfl, rfl, rfl, rfl⟩
  have hne : ∀ j < K, kind (tr (0 + j)) ≠ .halt := by
    intro j hj hk
    have hs := (h.executes (Nat.le_of_lt hj)).status.2.2.2
    rw [Nat.zero_add] at hk
    rw [if_pos (kind_halt.mp hk), h.aok j hj] at hs
    cases hs
  have hK : kind (tr (0 + K)) = .halt := by
    have hs := (h.executes (Nat.le_refl K)).status.2.2.2
    rw [h.hlt] at hs
    rw [Nat.zero_add]
    refine kind_halt.mpr ?_
    by_contra hn
    rw [if_neg hn] at hs
    cases hs
  obtain ⟨w1, w2, w3, w4⟩ := (inv_reset tr mem rfl).waits (q := ⟨0, 0, true⟩) hrun
    (Nat.le_refl 4) hgap
  obtain ⟨f1, -, f3, f4⟩ := w2.finishes (q := ⟨0, 0, true⟩) hrun w3 hne hK
  have htotal : cost tr 0 K + 1 = total := by
    have := cost_eq tr K
    omega
  have hstart : tick^[4] (edge (simReset mem), ⟨0, 0, true⟩) =
      (cycle^[4] (edge (simReset mem)), ⟨0, 0, true⟩) :=
    Prod.ext (tick_iterate_fst _ _) w4
  have hrunning := w1.add f1
  have hhlt : (cycle^[cost tr 0 K + 4] (edge (simReset mem))).curr.W.status = .hlt := by
    rw [Function.iterate_add_apply]
    exact f3
  have hfst : x.1 = simRunPipe maxInstr maxCycle (simReset mem) := simLoopPerf_fst
  have hperf : x.2 = ⟨0 + cost tr 0 K + 1, 0 + K + 1, false⟩ := by
    refine (simLoopPerf_halts (x := (⟨0, .aok, simReset mem⟩, ⟨0, 0, true⟩)) hrunning hhlt
      (by omega) (show 0 + (cost tr 0 K + 4) + 2 < maxInstr by omega)).trans ?_
    rw [show cost tr 0 K + 4 + 1 = cost tr 0 K + 1 + 4 by omega, Function.iterate_add_apply]
    dsimp only
    rw [hstart]
    exact f4
  refine ⟨hfst, ?_, ?_, ?_⟩
  · rw [hfst]
    exact (simLoop_halts (x := ⟨0, .aok, simReset mem⟩) (n := maxCycle) hrunning hhlt
      (by omega) (show 0 + (cost tr 0 K + 4) + 2 < maxInstr by omega)).1
  · rw [hperf]
    dsimp only
    omega
  · rw [hperf]
    dsimp only
    omega

/-- `mrmovq (%rbx), %rax; rrmovq %rax, %rcx; halt`. -/
def loadUseHalt : Mem :=
  ⟨fun a => if a = 0 then 0x50 else if a = 1 then 0x03 else if a = 10 then 0x20
    else if a = 11 then 0x01 else 0, 24, by decide⟩

theorem simRunPipe_cycles_load :
    (simRunPipePerf 100 100 (simReset loadUseHalt)).2.instructions = 3 ∧
      (simRunPipePerf 100 100 (simReset loadUseHalt)).2.cycles = 4 := by
  have h : HaltsAfter (newState loadUseHalt) 2 := by
    refine ⟨?_, by decide⟩
    intro i hi
    obtain rfl | rfl : i = 0 ∨ i = 1 := by omega
    · decide
    · decide
  have h0 : decode (steps (newState loadUseHalt) 0).m (steps (newState loadUseHalt) 0).pc =
      some ⟨.mrmovq, 0, true, 0, 3, true, 0, 10⟩ := by rfl
  have h1 : decode (steps (newState loadUseHalt) 1).m (steps (newState loadUseHalt) 1).pc =
      some ⟨.rrmovq, 0, true, 0, 1, true, 0, 12⟩ := by rfl
  have h2 : decode (steps (newState loadUseHalt) 2).m (steps (newState loadUseHalt) 2).pc =
      some ⟨.halt, 0, true, 15, 15, true, 0, 13⟩ := by rfl
  have hp : Pipelinable (newState loadUseHalt) 2 := by
    refine ⟨?_, ?_, ?_⟩
    · intro i hi d hd
      obtain rfl | rfl | rfl : i = 0 ∨ i = 1 ∨ i = 2 := by omega
      · rw [h0] at hd
        cases hd
        exact ⟨by decide, by decide⟩
      · rw [h1] at hd
        cases hd
        exact ⟨by decide, by decide⟩
      · rw [h2] at hd
        cases hd
        exact ⟨by decide, by decide⟩
    · intro i hi
      obtain rfl | rfl | rfl : i = 0 ∨ i = 1 ∨ i = 2 := by omega
      · decide
      · decide
      · decide
    · intro i j hij hj d e a hd ha
      obtain rfl | rfl : i = 0 ∨ i = 1 := by omega
      · rw [h0] at hd
        cases hd
        cases ha
      · rw [h1] at hd
        cases hd
        cases ha
  have hl : countLoadUse (steps (newState loadUseHalt)) 2 = 1 := by decide
  have hu : countKind (steps (newState loadUseHalt)) 2 .untaken = 0 := by decide
  have hr : countKind (steps (newState loadUseHalt)) 2 .ret = 0 := by decide
  have hall := @simRunPipe_cycles _ _ 100 100 h hp
  dsimp only at hall
  rw [hl, hu, hr] at hall
  exact (hall (by decide) (by decide)).2.2

end Csapp.Y86.Pipe
