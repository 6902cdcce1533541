import Mathlib
import Csapp.Shell.Model

/-!
# The job table mirrors the children

Between a `waitpid` that reports an exit and the `deletejob` that follows, the
job of a child that is gone is still listed; between `fork` and `addjob` a child
is not yet listed. Apart from these two the table and the children agree, and
the job in the foreground is the one the main flow is about to wait for, or whose
report it holds. The handler can take reports away at any point where SIGCHLD
is not blocked, but never one that somebody else holds.
-/

namespace Csapp.Shell

/-- The report that the main flow has collected and not acted on. -/
def Main.report : Main → Option (Int × Report)
  | .got pid status | .reap pid status | .waitReap pid status => some (pid, status)
  | _ => none

/-- The report that the handler has collected and not yet recorded. -/
def Handler.report : Handler → Option (Int × Report)
  | .reap pid status => some (pid, status)
  | _ => none

/-- The child that is not in the table yet. -/
def Main.adding : Main → Option Int
  | .add pid _ _ => some pid
  | _ => none

/-- The job in the foreground, if it is still there. -/
def Main.current : Main → Option Int
  | .restore pid false | .waitfg pid | .got pid _ | .reap pid _ => some pid
  | _ => none

/-- The child has a job. -/
def Table.Lists (t : Table) (pid : Int) : Prop := ∃ i, (t.jobs i).pid = pid

/-- Somebody is about to delete the job. -/
def State.Owes (s : State) (pid : Int) : Prop :=
  s.main.report = some (pid, .exited) ∨ s.handler.report = some (pid, .exited)

/-- The jobs are the children, up to those on their way into or out of the table. -/
structure Tracked (s : State) : Prop where
  inj : ∀ i k, (s.table.jobs i).pid ≠ 0 → (s.table.jobs i).pid = (s.table.jobs k).pid → i = k
  nonneg : ∀ i, 0 ≤ (s.table.jobs i).pid
  pos : ∀ p ∈ s.children, 0 < p
  listed : ∀ p, p ≠ 0 → s.table.Lists p → p ∈ s.children ∧ s.main.adding ≠ some p ∨ s.Owes p
  fg : ∀ i, (s.table.jobs i).pid ≠ 0 → (s.table.jobs i).state = .FG →
    s.main.current = some (s.table.jobs i).pid
  adding : ∀ p, s.main.adding = some p → p ∈ s.children
  quiet : s.handler ≠ .idle → s.main.unblocked = true
  heldMain : ∀ p r, s.main.report = some (p, r) → 0 < p ∧ (r = .exited → p ∉ s.children)
  heldHandler : ∀ p r, s.handler.report = some (p, r) → 0 < p ∧ (r = .exited → p ∉ s.children)
  apart : ∀ p, s.main.report = some (p, .exited) → s.handler.report ≠ some (p, .exited)

theorem Tracked.init : Tracked init where
  inj _ _ h := absurd rfl h
  nonneg _ := Int.le_refl 0
  pos _ h := absurd h (Finset.notMem_empty _)
  listed p h hl := hl.elim fun _ hi => absurd hi.symm h
  fg _ h := absurd rfl h
  adding _ h := by cases h
  quiet h := absurd rfl h
  heldMain _ _ h := by cases h
  heldHandler _ _ h := by cases h
  apart _ h := by cases h

/-! ## One lemma for each kind of change -/

section

variable {s : State}

theorem Tracked.inj_pid (h : Tracked s) {p : Int} (hp : 0 < p) (i k : Slot)
    (hi : (s.table.jobs i).pid = p) (hk : (s.table.jobs k).pid = p) : i = k :=
  h.inj i k (by omega) (hi.trans hk.symm)

/-- Only the program points change. -/
theorem Tracked.move (h : Tracked s) {m : Main} {c : Handler} (hr : m.report = s.main.report)
    (hc : c.report = s.handler.report) (ha : m.adding = s.main.adding)
    (hf : ∀ i, (s.table.jobs i).pid ≠ 0 → (s.table.jobs i).state = .FG →
      m.current = some (s.table.jobs i).pid)
    (hq : c ≠ .idle → m.unblocked = true) : Tracked { s with main := m, handler := c } where
  inj := h.inj
  nonneg := h.nonneg
  pos := h.pos
  listed p hp hl := by
    change p ∈ s.children ∧ m.adding ≠ some p ∨
      m.report = some (p, .exited) ∨ c.report = some (p, .exited)
    rw [hr, hc, ha]
    exact h.listed p hp hl
  fg := hf
  adding p hp := h.adding p (ha ▸ hp)
  quiet := hq
  heldMain p r hp := h.heldMain p r (hr ▸ hp)
  heldHandler p r hp := h.heldHandler p r (hc ▸ hp)
  apart p hp hh := h.apart p (hr ▸ hp) (hc ▸ hh)

theorem mem_collect {p q : Int} {r : Report} {rest : List Report} :
    q ∈ (s.collect p r rest).children ↔ q ∈ s.children ∧ ¬(r = .exited ∧ q = p) := by
  unfold State.collect
  dsimp only
  split
  next hr => simp [hr, and_comm]
  next hr => simp [hr]

/-- A report is collected by the main flow or by the handler. -/
theorem Tracked.collect (h : Tracked s) {p : Int} {r : Report} (rest : List Report)
    (hp : p ∈ s.children) {m : Main} {c : Handler}
    (hown : m.report = some (p, r) ∧ s.main.report = none ∧ c.report = s.handler.report ∨
      m.report = s.main.report ∧ s.handler.report = none ∧ c.report = some (p, r))
    (ha : m.adding = none) (hf : m.current = s.main.current)
    (hq : c ≠ .idle → m.unblocked = true) :
    Tracked { s.collect p r rest with main := m, handler := c } where
  inj := h.inj
  nonneg := h.nonneg
  pos q hq := by
    have hq : q ∈ (s.collect p r rest).children := hq
    exact h.pos q (mem_collect.mp hq).1
  listed q hq hl := by
    have hl := h.listed q hq hl
    change q ∈ (s.collect p r rest).children ∧ m.adding ≠ some q ∨
      m.report = some (q, .exited) ∨ c.report = some (q, .exited)
    rw [mem_collect]
    by_cases hx : r = .exited ∧ q = p
    · obtain ⟨rfl, rfl⟩ := hx
      cases hown with
      | inl ho => exact .inr (.inl ho.1)
      | inr ho => exact .inr (.inr ho.2.2)
    · cases hl with
      | inl hl => exact .inl ⟨⟨hl.1, hx⟩, by simp [ha]⟩
      | inr hl =>
        cases hl with
        | inl hl =>
          cases hown with
          | inl ho => simp [ho.2.1] at hl
          | inr ho => exact .inr (.inl (ho.1.trans hl))
        | inr hl =>
          cases hown with
          | inl ho => exact .inr (.inr (ho.2.2.trans hl))
          | inr ho => simp [ho.2.1] at hl
  fg i hi hs := hf.trans (h.fg i hi hs)
  adding q hq := by
    change m.adding = some q at hq
    simp [ha] at hq
  quiet := hq
  heldMain q r' hq := by
    change m.report = some (q, r') at hq
    change 0 < q ∧ (r' = .exited → q ∉ (s.collect p r rest).children)
    rw [mem_collect]
    cases hown with
    | inl ho =>
      rw [ho.1] at hq
      cases hq
      exact ⟨h.pos p hp, fun hr hm => hm.2 ⟨hr, rfl⟩⟩
    | inr ho =>
      have hh := h.heldMain q r' (ho.1.symm.trans hq)
      exact ⟨hh.1, fun hr hm => hh.2 hr hm.1⟩
  heldHandler q r' hq := by
    change c.report = some (q, r') at hq
    change 0 < q ∧ (r' = .exited → q ∉ (s.collect p r rest).children)
    rw [mem_collect]
    cases hown with
    | inl ho =>
      have hh := h.heldHandler q r' (ho.2.2.symm.trans hq)
      exact ⟨hh.1, fun hr hm => hh.2 hr hm.1⟩
    | inr ho =>
      rw [ho.2.2] at hq
      cases hq
      exact ⟨h.pos p hp, fun hr hm => hm.2 ⟨hr, rfl⟩⟩
  apart q hq hh := by
    change m.report = some (q, .exited) at hq
    change c.report = some (q, .exited) at hh
    cases hown with
    | inl ho =>
      rw [ho.1] at hq
      cases hq
      exact (h.heldHandler p .exited (ho.2.2.symm.trans hh)).2 rfl hp
    | inr ho =>
      rw [ho.2.2] at hh
      cases hh
      exact (h.heldMain p .exited (ho.1.symm.trans hq)).2 rfl hp

/-- Who is listed after a child is reaped. -/
theorem Tracked.lists_reap (h : Tracked s) {p q : Int} (r : Report) (hp : 0 < p) (hq : q ≠ 0) :
    (reapChild s.table p r).Lists q ↔ s.table.Lists q ∧ ¬(r = .exited ∧ q = p) := by
  have hj := reapChild_jobs r h.nonneg (h.inj_pid hp)
  constructor
  · intro hl
    obtain ⟨i, hi⟩ := hl
    by_cases hip : (s.table.jobs i).pid = p
    · rw [(hj i).2 hip] at hi
      cases r with
      | stopped => exact ⟨⟨i, hi⟩, fun hx => by cases hx.1⟩
      | exited => exact absurd hi.symm hq
    · rw [(hj i).1 hip] at hi
      exact ⟨⟨i, hi⟩, fun hx => hip (hi.trans hx.2)⟩
  · intro hl
    obtain ⟨⟨i, hi⟩, hx⟩ := hl
    refine ⟨i, ?_⟩
    by_cases hip : (s.table.jobs i).pid = p
    · rw [(hj i).2 hip]
      cases r with
      | stopped => exact hi
      | exited => exact absurd ⟨rfl, hi.symm.trans hip⟩ hx
    · rw [(hj i).1 hip]
      exact hi

/-- A job after reaping is a job of before. -/
theorem Tracked.job_reap (h : Tracked s) {p : Int} (r : Report) (hp : 0 < p) {i : Slot}
    (hi : ((reapChild s.table p r).jobs i).pid ≠ 0) :
    ((reapChild s.table p r).jobs i).pid = (s.table.jobs i).pid ∧
    (((reapChild s.table p r).jobs i).state = .FG →
      (s.table.jobs i).state = .FG ∧ (s.table.jobs i).pid ≠ p) := by
  have hj := reapChild_jobs r h.nonneg (h.inj_pid hp) i
  by_cases hip : (s.table.jobs i).pid = p
  · rw [hj.2 hip] at hi ⊢
    cases r with
    | stopped => exact ⟨rfl, fun hs => by cases hs⟩
    | exited => exact absurd rfl hi
  · rw [hj.1 hip]
    exact ⟨rfl, fun hs => ⟨hs, hip⟩⟩

/-- A report is acted on, by the one who holds it. -/
theorem Tracked.reap (h : Tracked s) {p : Int} {r : Report} {m : Main} {c : Handler}
    (hown : s.main.report = some (p, r) ∧ m.report = none ∧ c.report = s.handler.report ∨
      s.handler.report = some (p, r) ∧ c.report = none ∧ m.report = s.main.report)
    (ha : m.adding = none) (hf : ∀ q, s.main.current = some q → q ≠ p → m.current = some q)
    (hq : c ≠ .idle → m.unblocked = true) :
    Tracked { s with table := reapChild s.table p r, main := m, handler := c } := by
  have hp : 0 < p ∧ (r = .exited → p ∉ s.children) := by
    cases hown with
    | inl ho => exact h.heldMain p r ho.1
    | inr ho => exact h.heldHandler p r ho.1
  constructor
  · intro i k hi he
    change ((reapChild s.table p r).jobs i).pid ≠ 0 at hi
    change ((reapChild s.table p r).jobs i).pid = ((reapChild s.table p r).jobs k).pid at he
    have hk : ((reapChild s.table p r).jobs k).pid ≠ 0 := he ▸ hi
    have hji := (h.job_reap r hp.1 hi).1
    have hjk := (h.job_reap r hp.1 hk).1
    exact h.inj i k (hji ▸ hi) (hji ▸ hjk ▸ he)
  · intro i
    change 0 ≤ ((reapChild s.table p r).jobs i).pid
    by_cases hi : ((reapChild s.table p r).jobs i).pid = 0
    · omega
    · rw [(h.job_reap r hp.1 hi).1]
      exact h.nonneg i
  · exact h.pos
  · intro q hq0 hl
    have hl := (h.lists_reap r hp.1 hq0).mp hl
    have ho := h.listed q hq0 hl.1
    change q ∈ s.children ∧ m.adding ≠ some q ∨
      m.report = some (q, .exited) ∨ c.report = some (q, .exited)
    cases ho with
    | inl ho => exact .inl ⟨ho.1, by simp [ha]⟩
    | inr ho =>
      have hne : (p, r) ≠ (q, Report.exited) := by
        intro he
        cases he
        exact hl.2 ⟨rfl, rfl⟩
      cases ho with
      | inl ho =>
        cases hown with
        | inl hw => exact absurd (Option.some.inj (hw.1.symm.trans ho)) hne
        | inr hw => exact .inr (.inl (hw.2.2.trans ho))
      | inr ho =>
        cases hown with
        | inl hw => exact .inr (.inr (hw.2.2.trans ho))
        | inr hw => exact absurd (Option.some.inj (hw.1.symm.trans ho)) hne
  · intro i hi hs
    have hj := h.job_reap r hp.1 hi
    have hs := hj.2 hs
    change m.current = some ((reapChild s.table p r).jobs i).pid
    rw [hj.1]
    exact hf _ (h.fg i (hj.1 ▸ hi) hs.1) hs.2
  · intro q hq
    change m.adding = some q at hq
    simp [ha] at hq
  · exact hq
  · intro q r' hr
    change m.report = some (q, r') at hr
    cases hown with
    | inl hw => simp [hw.2.1] at hr
    | inr hw => exact h.heldMain q r' (hw.2.2.symm.trans hr)
  · intro q r' hr
    change c.report = some (q, r') at hr
    cases hown with
    | inl hw => exact h.heldHandler q r' (hw.2.2.symm.trans hr)
    | inr hw => simp [hw.2.1] at hr
  · intro q hr hh
    change m.report = some (q, .exited) at hr
    change c.report = some (q, .exited) at hh
    cases hown with
    | inl hw => simp [hw.2.1] at hr
    | inr hw => simp [hw.2.1] at hh

/-- The children do what they like. -/
theorem Tracked.kids (h : Tracked s) (kid : Int → Kid) : Tracked { s with kid := kid } :=
  ⟨h.inj, h.nonneg, h.pos, h.listed, h.fg, h.adding, h.quiet, h.heldMain, h.heldHandler, h.apart⟩

theorem Tracked.no_fg (h : Tracked s) (hc : s.main.current = none) (i : Slot)
    (hi : (s.table.jobs i).pid ≠ 0) : (s.table.jobs i).state ≠ .FG := by
  intro hs
  have hf := h.fg i hi hs
  simp [hc] at hf

/-- A new child, not yet listed. -/
theorem Tracked.fork (h : Tracked s) {p : Int} {m : Main} (k : Kid) (hidle : s.handler = .idle)
    (hr : s.main.report = none) (hc : s.main.current = none) (hp : 0 < p) (hn : p ∉ s.children)
    (hr' : m.report = none) (ha' : m.adding = some p) :
    Tracked { s with
      children := insert p s.children
      kid := Function.update s.kid p k
      main := m } where
  inj := h.inj
  nonneg := h.nonneg
  pos q hq := by
    cases Finset.mem_insert.mp hq with
    | inl he => exact he ▸ hp
    | inr hq => exact h.pos q hq
  listed q hq hl := by
    have ho := h.listed q hq hl
    change q ∈ insert p s.children ∧ m.adding ≠ some q ∨
      m.report = some (q, .exited) ∨ s.handler.report = some (q, .exited)
    cases ho with
    | inl ho =>
      refine .inl ⟨Finset.mem_insert_of_mem ho.1, ?_⟩
      intro he
      rw [ha'] at he
      exact hn (Option.some.inj he ▸ ho.1)
    | inr ho =>
      cases ho with
      | inl ho => simp [hr] at ho
      | inr ho => simp [hidle, Handler.report] at ho
  fg i hi hs := absurd hs (h.no_fg hc i hi)
  adding q hq := by
    change m.adding = some q at hq
    rw [ha'] at hq
    exact Option.some.inj hq ▸ Finset.mem_insert_self _ _
  quiet hne := absurd hidle hne
  heldMain q r hq := by
    change m.report = some (q, r) at hq
    simp [hr'] at hq
  heldHandler q r hq := by
    change s.handler.report = some (q, r) at hq
    simp [hidle, Handler.report] at hq
  apart q hq := by
    change m.report = some (q, .exited) at hq
    simp [hr'] at hq

/-- The child that is not listed yet has no slot. -/
theorem Tracked.unlisted (h : Tracked s) {p : Int} (ha : s.main.adding = some p)
    (hidle : s.handler = .idle) (hr : s.main.report = none) : ¬s.table.Lists p := by
  intro hl
  have hp := h.pos p (h.adding p ha)
  cases h.listed p (by omega) hl with
  | inl ho => exact ho.2 ha
  | inr ho =>
    cases ho with
    | inl ho => simp [hr] at ho
    | inr ho => simp [hidle, Handler.report] at ho

/-- The new child is listed, if there is a slot. -/
theorem Tracked.add (h : Tracked s) {p : Int} {m : Main} {state : JobState}
    {cmdline : List UInt8} (hidle : s.handler = .idle) (hr : s.main.report = none)
    (ha : s.main.adding = some p) (hc : s.main.current = none) (hr' : m.report = none)
    (ha' : m.adding = none) (hc' : state = .FG → m.current = some p) :
    Tracked { s with table := (s.table.addjob p state cmdline).2, main := m } := by
  have hp := h.pos p (h.adding p ha)
  have hun := h.unlisted ha hidle hr
  have hjobs := addjob_old_or_new s.table p state cmdline
  have hone : ∀ i k, ((s.table.addjob p state cmdline).2.jobs i).pid = p →
      ((s.table.addjob p state cmdline).2.jobs k).pid = p → i = k := fun i k hi hk =>
    addjob_one (fun j hj => hun ⟨j, hj⟩) state cmdline hi hk
  constructor
  · intro i k hi he
    change ((s.table.addjob p state cmdline).2.jobs i).pid ≠ 0 at hi
    change ((s.table.addjob p state cmdline).2.jobs i).pid =
      ((s.table.addjob p state cmdline).2.jobs k).pid at he
    cases hjobs i with
    | inl hji =>
      cases hjobs k with
      | inl hjk =>
        rw [hji] at hi he
        rw [hjk] at he
        exact h.inj i k hi he
      | inr hjk => exact hone i k (he.trans hjk.1) hjk.1
    | inr hji => exact hone i k hji.1 (he.symm.trans hji.1)
  · intro i
    change 0 ≤ ((s.table.addjob p state cmdline).2.jobs i).pid
    cases hjobs i with
    | inl hj =>
      rw [hj]
      exact h.nonneg i
    | inr hj => omega
  · exact h.pos
  · intro q hq hl
    obtain ⟨i, hi⟩ := hl
    change ((s.table.addjob p state cmdline).2.jobs i).pid = q at hi
    refine .inl ⟨?_, by simp [ha']⟩
    cases hjobs i with
    | inl hj =>
      rw [hj] at hi
      cases h.listed q hq ⟨i, hi⟩ with
      | inl ho => exact ho.1
      | inr ho =>
        cases ho with
        | inl ho => simp [hr] at ho
        | inr ho => simp [hidle, Handler.report] at ho
    | inr hj =>
      rw [← hi, hj.1]
      exact h.adding p ha
  · intro i hi hs
    change ((s.table.addjob p state cmdline).2.jobs i).pid ≠ 0 at hi
    change ((s.table.addjob p state cmdline).2.jobs i).state = .FG at hs
    change m.current = some ((s.table.addjob p state cmdline).2.jobs i).pid
    cases hjobs i with
    | inl hj =>
      rw [hj] at hi hs
      exact absurd hs (h.no_fg hc i hi)
    | inr hj =>
      rw [hj.1]
      exact hc' (hj.2.symm.trans hs)
  · intro q hq
    change m.adding = some q at hq
    simp [ha'] at hq
  · exact fun hne => absurd hidle hne
  · intro q r hq
    change m.report = some (q, r) at hq
    simp [hr'] at hq
  · exact h.heldHandler
  · intro q hq
    change m.report = some (q, .exited) at hq
    simp [hr'] at hq

/-- A job is put into the foreground or the background. -/
theorem Tracked.job (h : Tracked s) {i : Slot} {m : Main} {state : JobState} (kid : Int → Kid)
    (hidle : s.handler = .idle) (hr : s.main.report = none) (hc : s.main.current = none)
    (hr' : m.report = none) (ha' : m.adding = none)
    (hc' : state = .FG → m.current = some (s.table.jobs i).pid) :
    Tracked { s with table := s.table.setState i state, kid := kid, main := m } where
  inj k k' hk he := by
    change ((s.table.setState i state).jobs k).pid ≠ 0 at hk
    change ((s.table.setState i state).jobs k).pid = ((s.table.setState i state).jobs k').pid at he
    rw [setState_pid] at hk he
    rw [setState_pid] at he
    exact h.inj k k' hk he
  nonneg k := by
    change 0 ≤ ((s.table.setState i state).jobs k).pid
    rw [setState_pid]
    exact h.nonneg k
  pos := h.pos
  listed q hq hl := by
    obtain ⟨k, hk⟩ := hl
    change ((s.table.setState i state).jobs k).pid = q at hk
    rw [setState_pid] at hk
    refine .inl ⟨?_, by simp [ha']⟩
    cases h.listed q hq ⟨k, hk⟩ with
    | inl ho => exact ho.1
    | inr ho =>
      cases ho with
      | inl ho => simp [hr] at ho
      | inr ho => simp [hidle, Handler.report] at ho
  fg k hk hs := by
    change ((s.table.setState i state).jobs k).pid ≠ 0 at hk
    change ((s.table.setState i state).jobs k).state = .FG at hs
    change m.current = some ((s.table.setState i state).jobs k).pid
    rw [setState_pid] at hk ⊢
    by_cases hki : k = i
    · subst hki
      rw [setState_self] at hs
      exact hc' hs
    · rw [setState_ne _ hki] at hs
      exact absurd hs (h.no_fg hc k hk)
  adding q hq := by
    change m.adding = some q at hq
    simp [ha'] at hq
  quiet hne := absurd hidle hne
  heldMain q r hq := by
    change m.report = some (q, r) at hq
    simp [hr'] at hq
  heldHandler := h.heldHandler
  apart q hq := by
    change m.report = some (q, .exited) at hq
    simp [hr'] at hq

end

/-! ## Steps -/

/-- The main flow goes on, with no job in the foreground before and after. -/
theorem Tracked.proceed {s : State} (h : Tracked s) {m₀ m : Main} (hidle : s.handler = .idle)
    (hm : s.main = m₀) (h₀ : m₀.report = none ∧ m₀.adding = none ∧ m₀.current = none)
    (h₁ : m.report = none ∧ m.adding = none) : Tracked { s with main := m } := by
  subst hm
  exact h.move (h₁.1.trans h₀.1.symm) rfl (h₁.2.trans h₀.2.1.symm)
    (fun i hi hf => absurd hf (h.no_fg h₀.2.2 i hi)) (absurd hidle)

theorem Tracked.mainStep {s s' : State} (h : Tracked s) (hidle : s.handler = .idle)
    (hs : MainStep s s') : Tracked s' := by
  cases hs with
  | eval bg cmdline hm => exact h.proceed hidle hm ⟨rfl, rfl, rfl⟩ ⟨rfl, rfl⟩
  | forkFailed hm => exact h.proceed hidle hm ⟨rfl, rfl, rfl⟩ ⟨rfl, rfl⟩
  | fork pid hm hp hn =>
    exact h.fork _ hidle (by rw [hm]; rfl) (by rw [hm]; rfl) hp hn rfl rfl
  | @add pid bg cmdline hm hbg =>
    refine h.add hidle (by rw [hm]; rfl) (by rw [hm]; rfl) (by rw [hm]; rfl) rfl rfl ?_
    intro hs
    cases bg with
    | false => rfl
    | true => cases hs
  | doBgfg bg arg_jid id hm => exact h.proceed hidle hm ⟨rfl, rfl, rfl⟩ ⟨rfl, rfl⟩
  | noJob hm hj => exact h.proceed hidle hm ⟨rfl, rfl, rfl⟩ ⟨rfl, rfl⟩
  | @job bg arg_jid id i keep hm hj hp =>
    refine h.job _ hidle (by rw [hm]; rfl) (by rw [hm]; rfl) rfl rfl ?_
    intro hs
    cases bg with
    | false => rfl
    | true => cases hs
  | restoreBg hm => exact h.proceed hidle hm ⟨rfl, rfl, rfl⟩ ⟨rfl, rfl⟩
  | restoreFg hm =>
    refine h.move (by rw [hm]; rfl) rfl (by rw [hm]; rfl) ?_ (absurd hidle)
    intro i hi hf
    have hc := h.fg i hi hf
    rw [hm] at hc
    exact hc
  | waitfg hm hp hr =>
    exact h.collect _ hp (.inl ⟨rfl, by rw [hm]; rfl, rfl⟩) rfl (by rw [hm]; rfl) (absurd hidle)
  | @noChild pid hm hp =>
    refine h.move (by rw [hm]; rfl) rfl (by rw [hm]; rfl) ?_ (absurd hidle)
    intro i hi hf
    -- the foreground job would be that of the child that is gone
    have hc := h.fg i hi hf
    rw [hm] at hc
    have hpid : pid = (s.table.jobs i).pid := Option.some.inj hc
    cases h.listed pid (hpid ▸ hi) ⟨i, hpid.symm⟩ with
    | inl ho => exact absurd ho.1 hp
    | inr ho => simp [State.Owes, hm, hidle, Main.report, Handler.report] at ho
  | block hm =>
    refine h.move (by rw [hm]; rfl) rfl (by rw [hm]; rfl) ?_ (absurd hidle)
    intro i hi hf
    have hc := h.fg i hi hf
    rw [hm] at hc
    exact hc
  | @reap pid status hm =>
    refine h.reap (.inl ⟨by rw [hm]; rfl, rfl, rfl⟩) rfl ?_ (absurd hidle)
    intro q hq hne
    rw [hm] at hq
    exact absurd (Option.some.inj hq).symm hne
  | wait pid hm hp hr =>
    exact h.collect _ hp (.inl ⟨rfl, by rw [hm]; rfl, rfl⟩) rfl (by rw [hm]; rfl) (absurd hidle)
  | @waitReap pid status hm =>
    refine h.reap (.inl ⟨by rw [hm]; rfl, rfl, rfl⟩) rfl ?_ (absurd hidle)
    intro q hq hne
    simp [hm, Main.current] at hq
  | waitDone hm hq => exact h.proceed hidle hm ⟨rfl, rfl, rfl⟩ ⟨rfl, rfl⟩
  | leave hm => exact h.proceed hidle hm ⟨rfl, rfl, rfl⟩ ⟨rfl, rfl⟩

theorem Tracked.handlerStep {s s' : State} (h : Tracked s) (hs : HandlerStep s s') :
    Tracked s' := by
  have hu : s.handler ≠ .idle → s.main.adding = none := by
    intro hne
    have hq := h.quiet hne
    cases hm : s.main <;> simp_all [Main.unblocked, Main.adding]
  cases hs with
  | start hidle hb =>
    exact h.move rfl (by rw [hidle]; rfl) rfl h.fg fun _ => hb
  | wait pid hw hp hr =>
    have hne : s.handler ≠ .idle := by simp [hw]
    exact h.collect _ hp (.inr ⟨rfl, by rw [hw]; rfl, rfl⟩) (hu hne) rfl fun _ => h.quiet hne
  | reap hw =>
    have hne : s.handler ≠ .idle := by simp [hw]
    exact h.reap (.inr ⟨by rw [hw]; rfl, rfl, rfl⟩) (hu hne) (fun _ hq _ => hq)
      fun _ => h.quiet hne
  | done hw hq =>
    exact h.move rfl (by rw [hw]; rfl) rfl h.fg fun hne => absurd rfl hne

theorem Tracked.step {s s' : State} (h : Tracked s) (hs : Step s s') : Tracked s' := by
  cases hs with
  | main hidle hs => exact h.mainStep hidle hs
  | handler hs => exact h.handlerStep hs
  | kid hs =>
    cases hs with
    | stop => exact h.kids _
    | cont => exact h.kids _
    | exit => exact h.kids _

theorem Run.tracked {C : State → State → Prop} {s : State} (h : Run C s) : Tracked s := by
  induction h with
  | init => exact Tracked.init
  | step _ hs _ ih => exact ih.step hs

/-! ## Every child is listed -/

/-- Every child has a job. -/
def Full (s : State) : Prop :=
  ∀ p ∈ s.children, s.main.adding ≠ some p → s.table.Lists p

/-- With at most sixteen children there is a slot for the new one. -/
theorem Tracked.room {s : State} (h : Tracked s) {p : Int} (ha : s.main.adding = some p)
    (hidle : s.handler = .idle) (hr : s.main.report = none) (hcard : s.children.card ≤ 16) :
    ∃ i, (s.table.jobs i).pid = 0 := by
  by_contra hfull
  have hlive : ∀ i, (s.table.jobs i).pid ≠ 0 := fun i hi => hfull ⟨i, hi⟩
  have hp := h.adding p ha
  -- sixteen slots, all of children other than the new one
  have hsub : Finset.univ.image (fun i => (s.table.jobs i).pid) ⊆ s.children.erase p := by
    intro q hq
    obtain ⟨i, -, hi⟩ := Finset.mem_image.mp hq
    have hq0 : q ≠ 0 := hi ▸ hlive i
    refine Finset.mem_erase.mpr ⟨?_, ?_⟩
    · intro he
      exact h.unlisted ha hidle hr ⟨i, hi.trans he⟩
    · cases h.listed q hq0 ⟨i, hi⟩ with
      | inl ho => exact ho.1
      | inr ho =>
        cases ho with
        | inl ho => simp [hr] at ho
        | inr ho => simp [hidle, Handler.report] at ho
  have hinj : Function.Injective fun i => (s.table.jobs i).pid :=
    fun i k he => h.inj i k (hlive i) he
  have hc := Finset.card_le_card hsub
  rw [Finset.card_image_of_injective _ hinj, Finset.card_erase_of_mem hp, Finset.card_univ,
    Fintype.card_fin] at hc
  unfold maxJobs at hc
  omega

section

variable {s s' : State}

theorem Full.same (h : Full s) (hc : s'.children ⊆ s.children) (ht : s'.table = s.table)
    (ha : s'.main.adding = s.main.adding) : Full s' := by
  intro p hp hne
  rw [ht]
  exact h p (hc hp) (ha ▸ hne)

theorem collect_subset (s : State) (p : Int) (r : Report) (rest : List Report) :
    (s.collect p r rest).children ⊆ s.children := fun _ hq => (mem_collect.mp hq).1

theorem Full.reap (h : Full s) (ht : Tracked s) {p : Int} {r : Report} {m : Main} {c : Handler}
    (hown : s.main.report = some (p, r) ∨ s.handler.report = some (p, r))
    (ha : s.main.adding = none) :
    Full { s with table := reapChild s.table p r, main := m, handler := c } := by
  have hp : 0 < p ∧ (r = .exited → p ∉ s.children) := by
    cases hown with
    | inl ho => exact ht.heldMain p r ho
    | inr ho => exact ht.heldHandler p r ho
  intro q hq _
  have hq : q ∈ s.children := hq
  have hpos := ht.pos q hq
  refine (ht.lists_reap r hp.1 (by omega)).mpr ⟨h q hq (by simp [ha]), ?_⟩
  intro hx
  exact hp.2 hx.1 (hx.2 ▸ hq)

theorem Full.mainStep (h : Full s) (ht : Tracked s) (hidle : s.handler = .idle)
    (hcard : s.children.card ≤ 16) (hs : MainStep s s') : Full s' := by
  cases hs with
  | eval bg cmdline hm => exact h.same (fun _ => id) rfl (by rw [hm]; rfl)
  | forkFailed hm => exact h.same (fun _ => id) rfl (by rw [hm]; rfl)
  | @fork bg cmdline pid hm hp hn =>
    intro q hq hne
    cases Finset.mem_insert.mp hq with
    | inl he => exact absurd (congrArg some he.symm) hne
    | inr hq => exact h q hq (by simp [hm, Main.adding])
  | @add pid bg cmdline hm hbg =>
    obtain ⟨k, hk⟩ := ht.room (by rw [hm]; rfl) hidle (by rw [hm]; rfl) hcard
    intro q hq _
    have hpos := ht.pos q hq
    cases addjob_cases s.table pid (if bg then .BG else .FG) cmdline with
    | inl full => exact absurd hk (full.1 k)
    | inr room =>
      obtain ⟨i, hi, -, hj⟩ := room
      by_cases hqp : q = pid
      · refine ⟨i, ?_⟩
        change ((s.table.addjob pid _ cmdline).2.jobs i).pid = q
        rw [hj, Function.update_self, hqp]
      · obtain ⟨j, hjq⟩ := h q hq (by simpa [hm, Main.adding] using Ne.symm hqp)
        have hji : j ≠ i := by
          intro he
          rw [he, hi] at hjq
          omega
        refine ⟨j, ?_⟩
        change ((s.table.addjob pid _ cmdline).2.jobs j).pid = q
        rw [hj, Function.update_of_ne hji, hjq]
  | doBgfg bg arg_jid id hm => exact h.same (fun _ hp => hp) rfl (by rw [hm]; rfl)
  | noJob hm hj => exact h.same (fun _ => id) rfl (by rw [hm]; rfl)
  | @job bg arg_jid id i keep hm hj hp =>
    intro q hq _
    obtain ⟨k, hk⟩ := h q hq (by simp [hm, Main.adding])
    exact ⟨k, (setState_pid _ _ _ _).trans hk⟩
  | restoreBg hm => exact h.same (fun _ => id) rfl (by rw [hm]; rfl)
  | restoreFg hm => exact h.same (fun _ => id) rfl (by rw [hm]; rfl)
  | @waitfg pid status rest hm hp hr =>
    exact h.same (collect_subset s pid status rest) rfl (by rw [hm]; rfl)
  | noChild hm hp => exact h.same (fun _ => id) rfl (by rw [hm]; rfl)
  | block hm => exact h.same (fun _ => id) rfl (by rw [hm]; rfl)
  | reap hm => exact h.reap ht (.inl (by rw [hm]; rfl)) (by rw [hm]; rfl)
  | @wait status rest pid hm hp hr =>
    exact h.same (collect_subset s pid status rest) rfl (by rw [hm]; rfl)
  | waitReap hm => exact h.reap ht (.inl (by rw [hm]; rfl)) (by rw [hm]; rfl)
  | waitDone hm hq => exact h.same (fun _ => id) rfl (by rw [hm]; rfl)
  | leave hm => exact h.same (fun _ => id) rfl (by rw [hm]; rfl)

theorem Full.step (h : Full s) (ht : Tracked s) (hcard : s.children.card ≤ 16) (hs : Step s s') :
    Full s' := by
  cases hs with
  | main hidle hs => exact h.mainStep ht hidle hcard hs
  | handler hs =>
    cases hs with
    | start hidle hb => exact h.same (fun _ => id) rfl rfl
    | @wait status rest pid hw hp hr =>
      exact h.same (collect_subset s pid status rest) rfl rfl
    | reap hw =>
      refine h.reap ht (.inr (by rw [hw]; rfl)) ?_
      have hq := ht.quiet (by simp [hw])
      cases hm : s.main <;> simp_all [Main.unblocked, Main.adding]
    | done hw hq => exact h.same (fun _ => id) rfl rfl
  | kid hs =>
    cases hs with
    | stop => exact h
    | cont => exact h
    | exit => exact h

end

/-- A run with never more than sixteen children not yet reaped. -/
def AtMost16 (_ s' : State) : Prop := s'.children.card ≤ 16

instance (s s' : State) : Decidable (AtMost16 s s') := inferInstanceAs (Decidable (_ ≤ 16))

theorem Run.full {s : State} (h : Run AtMost16 s) : Full s ∧ s.children.card ≤ 16 := by
  induction h with
  | init => exact ⟨fun p hp => absurd hp (Finset.notMem_empty p), Nat.zero_le _⟩
  | step hr hs hc ih => exact ⟨ih.1.step hr.tracked ih.2 hs, hc⟩

/-- Before the next command, the live jobs are the children, each once, and none is in
the foreground; and at no time are two. -/
theorem run_mirror {s : State} (h : Run AtMost16 s) :
    (s.main = .prompt → s.handler = .idle →
      (∀ p, p ≠ 0 → ((∃ i, (s.table.jobs i).pid = p) ↔ p ∈ s.children)) ∧
      (∀ i k, (s.table.jobs i).pid ≠ 0 → (s.table.jobs i).pid = (s.table.jobs k).pid → i = k) ∧
      ∀ i, (s.table.jobs i).pid ≠ 0 → (s.table.jobs i).state ≠ .FG) ∧
    ∀ i k, (s.table.jobs i).pid ≠ 0 → (s.table.jobs i).state = .FG →
      (s.table.jobs k).pid ≠ 0 → (s.table.jobs k).state = .FG → i = k := by
  have ht := h.tracked
  constructor
  · intro hm hidle
    refine ⟨?_, ht.inj, fun i hi => ht.no_fg (by rw [hm]; rfl) i hi⟩
    intro p hp
    constructor
    · intro hl
      cases ht.listed p hp hl with
      | inl ho => exact ho.1
      | inr ho => simp [State.Owes, hm, hidle, Main.report, Handler.report] at ho
    · intro hc
      exact h.full.1 p hc (by simp [hm, Main.adding])
  · intro i k hi hif hk hkf
    have h₁ := ht.fg i hi hif
    have h₂ := ht.fg k hk hkf
    exact ht.inj i k hi (Option.some.inj (h₁.symm.trans h₂))

/-- A job in the background. -/
theorem run_mirror_bg : ∃ s, Run AtMost16 s ∧ s.main = .prompt ∧ s.handler = .idle ∧
    s.children = {5} ∧ ∀ p, p ≠ 0 → ((∃ i, (s.table.jobs i).pid = p) ↔ p ∈ s.children) := by
  have h₁ : Run AtMost16 _ := Run.step Run.init (.main rfl (.eval true [] rfl)) (by decide)
  have h₂ := Run.step h₁ (.main rfl (.fork 5 rfl (by decide) (by decide)))
    (by decide)
  have h₃ := Run.step h₂ (.main rfl (.add rfl fun _ => by decide))
    (by decide)
  have h₄ := Run.step h₃ (.main rfl (.restoreBg rfl)) (by decide)
  exact ⟨_, h₄, rfl, rfl, rfl, ((run_mirror h₄).1 rfl rfl).1⟩

end Csapp.Shell
