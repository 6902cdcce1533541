import Mathlib
import Csapp.Y86.PipeAbsolute

/-!
# Forwarding

`regsM` and `regsE` are the register file behind W and behind M; `regsD` is the one
behind E, which the instruction in D should see. It is what the simulator itself
has in its registers three cycles later, unless something goes wrong on the way.

The forwarding chain has no entry for what a load in E will read. That an
instruction only leaves D when it does not need it is the load/use condition, and
that condition looks at two instruction codes only: no other instruction has a
destination for a load.
-/

namespace Csapp.Y86.Pipe

/-- The register file once E is written back too. A load sees the store of M. -/
def regsD (c : Sim) : Regs :=
  setRegVal (setRegVal (regsE c) (exOut c).deste (exOut c).vale) (exOut c).destm
    (doMemStage (cycle c).mem (exOut c)).next.valm

/-- What E loads, D does not read unless it is held back. -/
theorem Sane.ne_destm {c : Sim} (hs : Sane c.curr) {d : IdEx} (hl : loadUse c.curr.E d = false)
    {src : RegId} (hx : src ≠ regNone) (hsrc : src = d.srca ∨ src = d.srcb) :
    src ≠ (exOut c).destm := by
  intro he
  have hdest : c.curr.E.destm = src := he.symm
  by_cases hload : c.curr.E.icode ∈ [.mrmovq, .popq]
  · have hread : c.curr.E.destm ∈ [d.srca, d.srcb] := by
      rw [hdest]
      exact List.mem_pair.mpr hsrc
    rw [loadUse, decide_eq_true hload, decide_eq_true hread] at hl
    cases hl
  · exact hx (hdest.symm.trans (hs.portsE.load hload))

theorem Sane.forward {c : Sim} (hs : Sane c.curr) (hl : loadUse c.curr.E (idOut c) = false)
    {src : RegId} (hx : src ≠ regNone) (hsrc : src = (idOut c).srca ∨ src = (idOut c).srcb) :
    forward src (exOut c) c.curr.M (memOut c).next c.curr.W (getRegVal c.reg src) =
      regsD c src :=
  forward_eq _ _ hx (hs.ne_destm hl hx hsrc) rfl

/-- `srcA` and `srcB` of the instruction in D. -/
def dSrcA (s : Sim) : RegId := Hcl.srcA s.curr.D.icode s.curr.D.ra

/-- `d_srcB`. -/
def dSrcB (s : Sim) : RegId := Hcl.srcB s.curr.D.icode s.curr.D.rb

/-- What E latches for a register is its value behind all older instructions. -/
theorem latched_eq {s : Sim} (h : Reach s) (hop : s.ops.E = .load) :
    (dSrcA s ≠ regNone → s.curr.D.icode ∉ [.call, .jmp] →
      (updatePipes s).curr.E.vala = regsD s (dSrcA s)) ∧
    (dSrcB s ≠ regNone → (updatePipes s).curr.E.valb = regsD s (dSrcB s)) := by
  have hE : (updatePipes s).curr.E = s.next.E := by
    change latch _ _ s.ops.E _ _ = _
    rw [hop]
    rfl
  rw [hE]
  rcases h.sane with ⟨mem, rfl⟩ | ⟨c, rfl, hs⟩
  · exact ⟨fun hx => absurd rfl hx, fun hx => absurd rfl hx⟩
  · have hl : loadUse c.curr.E (idOut c) = false := by
      cases hl : loadUse c.curr.E (idOut c) with
      | false => rfl
      | true =>
        change pipeCntl false (mispredicted c.curr.E (exOut c) || loadUse c.curr.E (idOut c)) = _
          at hop
        rw [hl, Bool.or_true] at hop
        cases hop
    constructor
    · intro hx hcall
      have hfwd := hs.forward hl hx (.inl rfl)
      refine Eq.trans ?_ hfwd
      exact if_neg hcall
    · intro hx
      exact hs.forward hl hx (.inr rfl)

/-- `irmovq $7, %rax; rmmovq %rax, 0x100`. -/
def immStore : Mem :=
  ⟨fun a => if a = 0 then 0x30 else if a = 1 then 0xF0 else if a = 2 then 7
    else if a = 10 then 0x40 else if a = 11 then 0x0F else if a = 13 then 1 else 0, 288, by decide⟩

/-- The first is in E when the second reads its result in D. -/
theorem latched_eq_immediate :
    (updatePipes (after immStore 3)).curr.E.vala =
      regsD (after immStore 3) (dSrcA (after immStore 3)) :=
  (latched_eq (reach_after immStore 3) (by decide)).1 (by decide) (by decide)

example : (updatePipes (after immStore 3)).curr.E.vala = 7 := by decide

end Csapp.Y86.Pipe
