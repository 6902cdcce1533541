import Mathlib
import Csapp.Shell.Mirror

/-!
# The stop that nobody waits for

Between `restore_signal` and the return of `waitpid` in `waitfg` SIGCHLD is not
blocked, and the handler takes any report it finds. If it takes the exit of the
foreground job, `waitpid` fails and `waitfg` returns. If it takes the stop, the
job is recorded as stopped and `waitpid` goes on waiting. As long as the handler
never takes that one report, the job waited for is in the foreground.
-/

namespace Csapp.Shell

/-- The shell is blocked in `waitfg` on a job that is recorded as stopped, and there is
nothing to report of it. -/
def Stuck (s : State) : Prop :=
  ∃ pid i, s.main = .waitfg pid ∧ s.handler = .idle ∧ pid ∈ s.children ∧
    (s.kid pid).reports = [] ∧ (s.table.jobs i).pid = pid ∧ (s.table.jobs i).state = .ST

/-- The handler does not take the stop of the job that the main flow waits for. -/
def LeavesStop (s s' : State) : Prop :=
  ∀ pid, s.main = .waitfg pid → s.handler = .wait → s'.handler ≠ .reap pid .stopped

/-- The job that the main flow waits for, or is about to. -/
def Main.awaits : Main → Option Int
  | .restore pid false | .waitfg pid => some pid
  | _ => none

/-- It is in the foreground, and nobody is about to record it as stopped. -/
def Awaited (s : State) : Prop :=
  ∀ pid, s.main.awaits = some pid → pid ≠ 0 ∧
    (∀ i, (s.table.jobs i).pid = pid → (s.table.jobs i).state = .FG) ∧
    s.handler.report ≠ some (pid, .stopped)

section

variable {s s' : State}

theorem Awaited.nothing (h : s.main.awaits = none) : Awaited s := by
  intro pid hp
  simp [h] at hp

theorem Awaited.same (h : Awaited s) (ht : s'.table = s.table)
    (hm : s'.main.awaits = s.main.awaits) (hh : s'.handler.report = none ∨
      s'.handler.report = s.handler.report) : Awaited s' := by
  intro pid hp
  have ha := h pid (hm ▸ hp)
  refine ⟨ha.1, ?_, ?_⟩
  · rw [ht]
    exact ha.2.1
  · cases hh with
    | inl hh => simp [hh]
    | inr hh =>
      rw [hh]
      exact ha.2.2

/-- After `addjob` the new child's job, if it has one, is in the state asked for. -/
theorem Tracked.added (h : Tracked s) {pid : Int} {bg : Bool} {cmdline : List UInt8}
    (hm : s.main = .add pid bg cmdline) (hidle : s.handler = .idle) (state : JobState) (i : Slot)
    (hi : ((s.table.addjob pid state cmdline).2.jobs i).pid = pid) :
    ((s.table.addjob pid state cmdline).2.jobs i).state = state := by
  have hun := h.unlisted (p := pid) (by rw [hm]; rfl) hidle (by rw [hm]; rfl)
  cases addjob_old_or_new s.table pid state cmdline i with
  | inl old =>
    rw [old] at hi
    exact absurd ⟨i, hi⟩ hun
  | inr new => exact new.2

theorem Awaited.mainStep (h : Awaited s) (ht : Tracked s) (hidle : s.handler = .idle)
    (hs : MainStep s s') : Awaited s' := by
  cases hs with
  | eval => exact .nothing rfl
  | forkFailed => exact .nothing rfl
  | fork => exact .nothing rfl
  | @add pid bg cmdline hm hbg =>
    cases bg with
    | true => exact .nothing rfl
    | false =>
      intro q hq
      cases hq
      have hpos := ht.pos pid (ht.adding pid (by rw [hm]; rfl))
      refine ⟨by omega, fun i hi => ht.added hm hidle .FG i hi, ?_⟩
      change s.handler.report ≠ _
      simp [hidle, Handler.report]
  | doBgfg => exact .nothing rfl
  | noJob => exact .nothing rfl
  | @job bg arg_jid id i keep hm hj hp =>
    cases bg with
    | true => exact .nothing rfl
    | false =>
      intro q hq
      cases hq
      refine ⟨hp, ?_, ?_⟩
      · intro k hk
        change ((s.table.setState i .FG).jobs k).pid = _ at hk
        change ((s.table.setState i .FG).jobs k).state = .FG
        rw [setState_pid] at hk
        rw [ht.inj i k hp hk.symm]
        simp
      · change s.handler.report ≠ _
        simp [hidle, Handler.report]
  | restoreBg => exact .nothing rfl
  | restoreFg hm => exact h.same rfl (by rw [hm]; rfl) (.inr rfl)
  | waitfg => exact .nothing rfl
  | noChild => exact .nothing rfl
  | block => exact .nothing rfl
  | reap => exact .nothing rfl
  | wait => exact .nothing rfl
  | waitReap => exact .nothing rfl
  | waitDone => exact .nothing rfl
  | leave => exact .nothing rfl

theorem Awaited.handlerStep (h : Awaited s) (ht : Tracked s) (hs : HandlerStep s s')
    (hc : LeavesStop s s') : Awaited s' := by
  cases hs with
  | start => exact h.same rfl rfl (.inl rfl)
  | @wait status rest pid hw hp hr =>
    intro q hq
    have hq : s.main.awaits = some q := hq
    have ha := h q hq
    refine ⟨ha.1, ha.2.1, ?_⟩
    have hu := ht.quiet (by simp [hw])
    -- SIGCHLD is not blocked, so the main flow is in `waitpid`
    have hm : s.main = .waitfg q := by
      cases hm : s.main <;> rw [hm] at hq hu <;> simp_all [Main.awaits, Main.unblocked]
    intro he
    change some (pid, status) = some (q, Report.stopped) at he
    cases he
    exact hc _ hm hw rfl
  | @reap pid status hw =>
    intro q hq
    have hq : s.main.awaits = some q := hq
    have ha := h q hq
    have hheld := ht.heldHandler pid status (by rw [hw]; rfl)
    refine ⟨ha.1, ?_, ?_⟩
    · intro i hi
      change ((reapChild s.table pid status).jobs i).pid = q at hi
      change ((reapChild s.table pid status).jobs i).state = .FG
      have hj := reapChild_jobs status ht.nonneg (ht.inj_pid hheld.1) i
      by_cases hip : (s.table.jobs i).pid = pid
      · rw [hj.2 hip] at hi
        cases status with
        | stopped =>
          -- this is the report that nobody may hold
          have hne := ha.2.2
          rw [hw, ← hi, hip] at hne
          exact absurd rfl hne
        | exited => exact absurd hi.symm ha.1
      · rw [hj.1 hip] at hi ⊢
        exact ha.2.1 i hi
    · exact fun he => by cases he
  | done => exact h.same rfl rfl (.inl rfl)

theorem Awaited.step (h : Awaited s) (ht : Tracked s) (hs : Step s s') (hc : LeavesStop s s') :
    Awaited s' := by
  cases hs with
  | main hidle hs => exact h.mainStep ht hidle hs
  | handler hs => exact h.handlerStep ht hs hc
  | kid hs =>
    cases hs with
    | stop => exact h
    | cont => exact h
    | exit => exact h

end

theorem Run.awaited {s : State} (h : Run LeavesStop s) : Awaited s := by
  induction h with
  | init => exact .nothing rfl
  | step hr hs hc ih => exact ih.step hr.tracked hs hc

/-- Where the handler leaves that report alone, the shell is never stuck. -/
theorem run_not_stuck {s : State} (h : Run LeavesStop s) : ¬Stuck s := by
  intro hst
  obtain ⟨pid, i, hm, -, -, -, hi, hs⟩ := hst
  have ha := (h.awaited pid (by rw [hm]; rfl)).2.1 i hi
  simp [hs] at ha

/-- The job in the foreground stops, and `waitfg` itself collects the stop. -/
theorem run_not_stuck_fg : ∃ s i, Run LeavesStop s ∧ s.main = .prompt ∧ 5 ∈ s.children ∧
    (s.table.jobs i).pid = 5 ∧ (s.table.jobs i).state = .ST ∧ ¬Stuck s := by
  have h₁ : Run LeavesStop _ := Run.step Run.init (.main rfl (.eval false [] rfl))
    (fun _ hm => by cases hm)
  have h₂ := Run.step h₁ (.main rfl (.fork 5 rfl (by decide) (by decide)))
    (fun _ hm => by cases hm)
  have h₃ := Run.step h₂ (.main rfl (.add rfl fun hb => by cases hb)) (fun _ hm => by cases hm)
  have h₄ := Run.step h₃ (.main rfl (.restoreFg rfl)) (fun _ hm => by cases hm)
  have h₅ := Run.step h₄ (.kid (.stop 5 (by decide) rfl rfl)) (fun _ _ hh => by cases hh)
  have h₆ := Run.step h₅ (.main rfl (.waitfg rfl (by decide) rfl)) (fun _ _ hh => by cases hh)
  have h₇ := Run.step h₆ (.main rfl (.block rfl)) (fun _ hm => by cases hm)
  have h₈ := Run.step h₇ (.main rfl (.reap rfl)) (fun _ hm => by cases hm)
  have h₉ := Run.step h₈ (.main rfl (.waitDone rfl fun p hp => by
    have hp : p ∈ ({5} : Finset Int) := hp
    rw [Finset.mem_singleton.mp hp]
    rfl)) (fun _ hm => by cases hm)
  have h := Run.step h₉ (.main rfl (.leave rfl)) (fun _ hm => by cases hm)
  exact ⟨_, ⟨0, by decide⟩, h, rfl, by decide, rfl, rfl, run_not_stuck h⟩

/-- The job stops before the main flow is in `waitpid`, and the handler runs. -/
theorem run_stuck : ¬∀ s, Run (fun _ _ => True) s → ¬Stuck s := by
  intro h
  have h₁ : Run (fun _ _ => True) _ := Run.step Run.init (.main rfl (.eval false [] rfl)) trivial
  have h₂ := Run.step h₁ (.main rfl (.fork 5 rfl (by decide) (by decide))) trivial
  have h₃ := Run.step h₂ (.main rfl (.add rfl fun hb => by cases hb)) trivial
  have h₄ := Run.step h₃ (.kid (.stop 5 (by decide) rfl rfl)) trivial
  have h₅ := Run.step h₄ (.main rfl (.restoreFg rfl)) trivial
  have h₆ := Run.step h₅ (.handler (.start rfl rfl)) trivial
  have h₇ := Run.step h₆ (.handler (.wait 5 rfl (by decide) rfl)) trivial
  have h₈ := Run.step h₇ (.handler (.reap rfl)) trivial
  refine h _ (Run.step h₈ (.handler (.done rfl ?_)) trivial)
    ⟨5, ⟨0, by decide⟩, rfl, rfl, by decide, rfl, rfl, rfl⟩
  intro p hp
  have hp : p ∈ ({5} : Finset Int) := hp
  rw [Finset.mem_singleton.mp hp]
  rfl

end Csapp.Shell
