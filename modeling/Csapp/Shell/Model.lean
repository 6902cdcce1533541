import Mathlib
import Csapp.Shell.Jobs

/-!
# The shell, its handler and its children

Three parties change the state: the main flow (`eval`, `do_bgfg`, `waitfg`), the
SIGCHLD handler, which runs to its end on top of the main flow wherever SIGCHLD
is not blocked, and the children, which stop, go on and exit at any moment. Both
the main flow and the handler collect reports from the kernel: each stop and
each exit is a report that one `waitpid` takes away.

A program point is a state of the main flow or of the handler just before the
next call that matters to the others; what happens between two of them is one
step. Commands that touch neither children nor jobs leave the state as it is and
are left out, and so is the SIGINT handler, whose signal is only one more reason
for a child to stop or exit. `fg` and `bg` are given live jobs.
-/

namespace Csapp.Shell

/-- `WIFSTOPPED(status)` or not. -/
inductive Report
  | stopped
  | exited
  deriving DecidableEq

/-- A child in the kernel, with the reports not yet collected, the oldest first. -/
structure Kid where
  stopped : Bool
  dead : Bool
  reports : List Report

/-- Where the main flow stands. -/
inductive Main
  /-- about to read a command line -/
  | prompt
  /-- `eval`, SIGCHLD blocked -/
  | fork (bg : Bool) (cmdline : List UInt8)
  | add (pid : Int) (bg : Bool) (cmdline : List UInt8)
  /-- `do_bgfg`, SIGCHLD blocked -/
  | bgfg (bg arg_jid : Bool) (id : Int)
  /-- at the `restore_signal` of either -/
  | restore (pid : Int) (bg : Bool)
  /-- in the `waitpid` of `waitfg` -/
  | waitfg (pid : Int)
  | got (pid : Int) (status : Report)
  /-- `waitfg`, SIGCHLD blocked -/
  | reap (pid : Int) (status : Report)
  /-- at the `waitpid` of `wait_childs` -/
  | wait
  | waitReap (pid : Int) (status : Report)
  | leave

/-- Where the SIGCHLD handler stands. -/
inductive Handler
  | idle
  | wait
  | reap (pid : Int) (status : Report)

/-- The shell and its children. -/
structure State where
  table : Table
  children : Finset Int
  kid : Int → Kid
  main : Main
  handler : Handler

/-- Before the first command line. -/
def init : State := ⟨initjobs, ∅, fun _ => ⟨false, false, []⟩, .prompt, .idle⟩

/-- SIGCHLD is not blocked. -/
def Main.unblocked : Main → Bool
  | .prompt | .waitfg _ | .got _ _ => true
  | _ => false

/-- `job->state = state` -/
def Table.setState (t : Table) (i : Slot) (state : JobState) : Table :=
  t.set i { t.jobs i with state := state }

/-- `reap_child` -/
def reapChild (t : Table) (pid : Int) (status : Report) : Table :=
  match t.getjobpid pid with
  | none => t
  | some i =>
    match status with
    | .stopped => t.setState i .ST
    | .exited => t.deletejob i

/-- The child `pid` becomes `k`. -/
def State.setKid (s : State) (pid : Int) (k : Kid) : State :=
  { s with kid := Function.update s.kid pid k }

/-- What `waitpid` does in the kernel when it reports `status` of `pid`; `rest` stays
to be reported. -/
def State.collect (s : State) (pid : Int) (status : Report) (rest : List Report) : State :=
  { s with
    children := if status = .exited then s.children.erase pid else s.children
    kid := Function.update s.kid pid { s.kid pid with reports := rest } }

/-- A child goes on. The kernel may forget a stop that nobody has collected. -/
def Kid.continued (k : Kid) (keep : Bool) : Kid :=
  if k.dead then k
  else { k with stopped := false, reports := if keep then k.reports else [] }

/-- Nothing to report: `waitpid` with `WNOHANG` returns 0, or -1 if there is no child. -/
def State.silent (s : State) : Prop := ∀ p ∈ s.children, (s.kid p).reports = []

/-- The main flow. It stands still while the handler runs. -/
inductive MainStep : State → State → Prop
  | eval {s} (bg : Bool) (cmdline : List UInt8) : s.main = .prompt →
      MainStep s { s with main := .fork bg cmdline }
  | forkFailed {s bg cmdline} : s.main = .fork bg cmdline → MainStep s { s with main := .prompt }
  | fork {s bg cmdline} (pid : Int) : s.main = .fork bg cmdline → 0 < pid → pid ∉ s.children →
      MainStep s { s with
        children := insert pid s.children
        kid := Function.update s.kid pid ⟨false, false, []⟩
        main := .add pid bg cmdline }
  /-- `infobg` reads through the result. -/
  | add {s pid bg cmdline} : s.main = .add pid bg cmdline →
      (bg = true → (s.table.addjob pid .BG cmdline).1 ≠ none) →
      MainStep s { s with
        table := (s.table.addjob pid (if bg then .BG else .FG) cmdline).2
        main := .restore pid bg }
  | doBgfg {s} (bg arg_jid : Bool) (id : Int) : s.main = .prompt →
      MainStep s { s with main := .bgfg bg arg_jid id }
  | noJob {s bg arg_jid id} : s.main = .bgfg bg arg_jid id →
      (if arg_jid then s.table.getjobjid id else s.table.getjobpid id) = none →
      MainStep s { s with main := .prompt }
  | job {s bg arg_jid id i} (keep : Bool) : s.main = .bgfg bg arg_jid id →
      (if arg_jid then s.table.getjobjid id else s.table.getjobpid id) = some i →
      (s.table.jobs i).pid ≠ 0 →
      MainStep s { s with
        table := s.table.setState i (if bg then .BG else .FG)
        kid := Function.update s.kid (s.table.jobs i).pid
          ((s.kid (s.table.jobs i).pid).continued keep)
        main := .restore (s.table.jobs i).pid bg }
  | restoreBg {s pid} : s.main = .restore pid true → MainStep s { s with main := .prompt }
  | restoreFg {s pid} : s.main = .restore pid false → MainStep s { s with main := .waitfg pid }
  | waitfg {s pid status rest} : s.main = .waitfg pid → pid ∈ s.children →
      (s.kid pid).reports = status :: rest →
      MainStep s { s.collect pid status rest with main := .got pid status }
  /-- `ECHILD` -/
  | noChild {s pid} : s.main = .waitfg pid → pid ∉ s.children →
      MainStep s { s with main := .prompt }
  | block {s pid status} : s.main = .got pid status →
      MainStep s { s with main := .reap pid status }
  | reap {s pid status} : s.main = .reap pid status →
      MainStep s { s with table := reapChild s.table pid status, main := .wait }
  | wait {s status rest} (pid : Int) : s.main = .wait → pid ∈ s.children →
      (s.kid pid).reports = status :: rest →
      MainStep s { s.collect pid status rest with main := .waitReap pid status }
  | waitReap {s pid status} : s.main = .waitReap pid status →
      MainStep s { s with table := reapChild s.table pid status, main := .wait }
  | waitDone {s} : s.main = .wait → s.silent → MainStep s { s with main := .leave }
  | leave {s} : s.main = .leave → MainStep s { s with main := .prompt }

/-- The SIGCHLD handler. -/
inductive HandlerStep : State → State → Prop
  | start {s} : s.handler = .idle → s.main.unblocked = true →
      HandlerStep s { s with handler := .wait }
  | wait {s status rest} (pid : Int) : s.handler = .wait → pid ∈ s.children →
      (s.kid pid).reports = status :: rest →
      HandlerStep s { s.collect pid status rest with handler := .reap pid status }
  | reap {s pid status} : s.handler = .reap pid status →
      HandlerStep s { s with table := reapChild s.table pid status, handler := .wait }
  | done {s} : s.handler = .wait → s.silent → HandlerStep s { s with handler := .idle }

/-- The children. -/
inductive KidStep : State → State → Prop
  | stop {s} (pid : Int) : pid ∈ s.children → (s.kid pid).stopped = false →
      (s.kid pid).dead = false →
      KidStep s (s.setKid pid ⟨true, false, (s.kid pid).reports ++ [.stopped]⟩)
  | cont {s} (pid : Int) (keep : Bool) : pid ∈ s.children →
      KidStep s (s.setKid pid ((s.kid pid).continued keep))
  | exit {s} (pid : Int) (keep : Bool) : pid ∈ s.children → (s.kid pid).dead = false →
      KidStep s (s.setKid pid
        ⟨false, true, (if keep then (s.kid pid).reports else []) ++ [.exited]⟩)

/-- A step of the main flow, while the handler does not run, of the handler or of a child. -/
inductive Step : State → State → Prop
  | main {s s'} : s.handler = .idle → MainStep s s' → Step s s'
  | handler {s s'} : HandlerStep s s' → Step s s'
  | kid {s s'} : KidStep s s' → Step s s'

/-- The states of a run whose steps all meet the condition. -/
inductive Run (C : State → State → Prop) : State → Prop
  | init : Run C init
  | step {s s'} : Run C s → Step s s' → C s s' → Run C s'

/-! ## The table under the calls -/

theorem getjobpid_absent {t : Table} {pid : Int} (hn : ∀ i, 0 ≤ (t.jobs i).pid)
    (h : t.getjobpid pid = none) (i : Slot) : (t.jobs i).pid ≠ pid := by
  by_cases h0 : 0 ≤ pid
  · exact getjobpid_none h0 h i
  · have hi := hn i
    omega

@[simp] theorem setState_self (t : Table) (i : Slot) (state : JobState) :
    (t.setState i state).jobs i = { t.jobs i with state := state } := by
  simp [Table.setState, Table.set]

theorem setState_ne (t : Table) {i k : Slot} (h : k ≠ i) (state : JobState) :
    (t.setState i state).jobs k = t.jobs k := by
  simp [Table.setState, Table.set, h]

@[simp] theorem setState_pid (t : Table) (i k : Slot) (state : JobState) :
    ((t.setState i state).jobs k).pid = (t.jobs k).pid := by
  by_cases h : k = i
  · subst h
    simp
  · rw [setState_ne t h]

@[simp] theorem deletejob_self (t : Table) (i : Slot) : (t.deletejob i).jobs i = clearjob := by
  simp [deletejob_jobs]

theorem deletejob_ne (t : Table) {i k : Slot} (h : k ≠ i) :
    (t.deletejob i).jobs k = t.jobs k := by
  simp [deletejob_jobs, h]

/-- Reaping leaves the other jobs alone; the child's own is stopped or gone. -/
theorem reapChild_jobs {t : Table} {pid : Int} (status : Report)
    (hn : ∀ i, 0 ≤ (t.jobs i).pid) (hi : ∀ i k, (t.jobs i).pid = pid → (t.jobs k).pid = pid → i = k)
    (k : Slot) :
    ((t.jobs k).pid ≠ pid → (reapChild t pid status).jobs k = t.jobs k) ∧
    ((t.jobs k).pid = pid → (reapChild t pid status).jobs k =
      match status with
      | .stopped => { t.jobs k with state := .ST }
      | .exited => clearjob) := by
  unfold reapChild
  cases hg : t.getjobpid pid with
  | none => exact ⟨fun _ => rfl, fun hk => absurd hk (getjobpid_absent hn hg k)⟩
  | some i =>
    have hp := getjobpid_some hg
    constructor
    · intro hk
      have hki : k ≠ i := fun he => hk (he ▸ hp)
      cases status with
      | stopped => exact setState_ne t hki _
      | exited => exact deletejob_ne t hki
    · intro hk
      have hki : k = i := hi k i hk hp
      subst hki
      cases status with
      | stopped => exact setState_self t k _
      | exited => exact deletejob_self t k

end Csapp.Shell
