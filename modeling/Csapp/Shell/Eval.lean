import Mathlib
import Csapp.Shell.Bgfg
import Csapp.Shell.Parse

/-!
# `eval` and the signal mask

One call of `eval` in the shell process. What the kernel decides is a parameter:
whether `fork` succeeds, what the `waitpid` calls return, and what a local
variable holds before anything is written to it.

The handler can run wherever SIGCHLD is not blocked. Before `eval` blocks it, it
might as well have run before the call, and behind the last `restore_signal` as
well after it; what is left is the time between the `restore_signal` of `eval` or
`do_bgfg` and the `block_sigchld` of `waitfg`.

Through `NULL`, or past an array, anything can happen: the call is undefined. What
the builtins print is in their events; nothing else that is printed is kept.
-/

namespace Csapp.Shell

/-- `sigset_t` -/
abbrev Sigset := Finset Nat

/-- `SIGCHLD` -/
def sigchld : Nat := 17

/-- `SIGKILL` -/
def sigkill : Nat := 9

/-- `SIGSTOP` -/
def sigstop : Nat := 19

/-- The signals that a process has blocked; the kernel leaves two of them out. -/
structure Mask where
  set : Sigset
  kill : sigkill ∉ set
  stop : sigstop ∉ set

/-- `block_sigchld(&oldset)`, with the `oldset` it writes. -/
def blockSigchld (m : Mask) : Mask × Sigset :=
  (⟨insert sigchld m.set, by simpa [sigkill, sigchld] using m.kill,
    by simpa [sigstop, sigchld] using m.stop⟩, m.set)

/-- `restore_signal(&oldset)` -/
def restoreSignal (oldset : Sigset) : Mask :=
  ⟨oldset \ {sigkill, sigstop}, by simp, by simp⟩

/-- Children and what `waitpid` reports of them, in its order. -/
abbrev Reports := List (Int × Report)

/-- How a `waitpid` that waits for one child ends. -/
inductive Waited
  | child (status : Report)
  | echild
  /-- with another `errno` -/
  | failed

/-- What the kernel decides during one call of `eval`. -/
structure World where
  /-- `oldset` in `do_bgfg` and in `listjobs`, before `block_sigchld` -/
  junk : Sigset
  /-- the child, if there is one -/
  fork : Option Int
  /-- what the handler collects before `waitfg` blocks SIGCHLD -/
  handled : Reports
  /-- the `waitpid` of `waitfg` -/
  waited : Waited
  /-- what the `wait_childs` of `waitfg` collects -/
  collected : Reports

/-- The shell process; `array` and `argv` keep what the last call left in them. -/
structure Proc where
  mask : Mask
  table : Table
  array : CStr
  argv : Nat → Option Nat

/-- How a call ends. -/
inductive Outcome
  | returned (s : Proc)
  | exited
  | undefined

/-- `reap_child` on each report. -/
def reapAll (reports : Reports) (t : Table) : Table :=
  reports.foldl (fun t r => reapChild t r.1 r.2) t

/-- `wait_childs`, with the reports that `waitpid` gives it until there are none. -/
def waitChilds (reports : Reports) (s : Proc) : Proc :=
  { s with table := reapAll reports s.table }

/-- `sigchld_handler` -/
def sigchldHandler (reports : Reports) (s : Proc) : Proc := waitChilds reports s

/-- `sigint_tstp_handler`, with the signal that it sends and to whom. -/
def sigintTstpHandler (sig : Nat) (s : Proc) : Proc × Option (Int × Nat) :=
  let b := blockSigchld s.mask
  let s := { s with mask := b.1 }
  match s.table.getjobfg with
  | none => ({ s with mask := restoreSignal b.2 }, none)
  | some i => ({ s with mask := restoreSignal b.2 }, some ((s.table.jobs i).pid, sig))

/-- `waitfg`, behind what the handler may collect before it blocks SIGCHLD. -/
def waitfg (w : World) (s : Proc) (pid : Int) : Outcome :=
  let s := sigchldHandler w.handled s
  match w.waited with
  | .failed => .exited
  | .echild => .returned s
  | .child status =>
    let b := blockSigchld s.mask
    let s := { s with mask := b.1, table := reapChild s.table pid status }
    let s := waitChilds w.collected s
    .returned { s with mask := restoreSignal b.2 }

/-- The job in slot `i`, as `listjobs` prints it. -/
def listed (i : Slot) (job : Job) : CStr :=
  text "[" ++ text (toString job.jid) ++ text "] (" ++ text (toString job.pid) ++ text ") " ++
    (match job.state with
      | .BG => text "Running "
      | .FG => text "Foreground "
      | .ST => text "Stopped "
      | .UNDEF =>
        text "listjobs: Internal error: job[" ++ text (toString i.val) ++ text "].state=0 ") ++
    job.cmdline

/-- `listjobs`: the live slots are printed with SIGCHLD blocked. -/
def listjobs (t : Table) : List Event :=
  let live := (List.finRange maxJobs).filter fun i => (t.jobs i).pid ≠ 0
  .blockSigchld :: (live.map fun i => .print (listed i (t.jobs i))) ++ [.restoreSignal]

/-- What a builtin does besides changing the table, with its `oldset`. -/
def runEvents (w : World) : Proc → Sigset → List Event → Outcome
  | s, _, [] => .returned s
  | s, oldset, .print _ :: events => runEvents w s oldset events
  | s, oldset, .killpg _ :: events => runEvents w s oldset events
  | s, _, .blockSigchld :: events =>
    let b := blockSigchld s.mask
    runEvents w { s with mask := b.1 } b.2 events
  | s, oldset, .restoreSignal :: events =>
    runEvents w { s with mask := restoreSignal oldset } oldset events
  | s, oldset, .waitfg pid :: events =>
    match waitfg w s pid with
    | .returned s => runEvents w s oldset events
    | .exited => .exited
    | .undefined => .undefined

/-- `builtin_cmd`, with `argv[0]` and `argv[1]`; `none` if it returns 0. -/
def builtinCmd (w : World) (s : Proc) (prgnam : CStr) (argv1 : Option CStr) : Option Outcome :=
  if prgnam = text "fg" ∨ prgnam = text "bg" then
    let r := doBgfg s.table prgnam argv1
    some (runEvents w { s with table := r.1 } w.junk r.2)
  else if prgnam = text "jobs" then some (runEvents w s w.junk (listjobs s.table))
  else if prgnam = text "quit" then some .exited
  else none

/-- `eval` behind `builtin_cmd`, in the parent. -/
def launch (w : World) (s : Proc) (bg : Bool) (cmdline : CStr) : Outcome :=
  let b := blockSigchld s.mask
  match w.fork with
  | none => .returned { s with mask := restoreSignal b.2 }
  | some pid =>
    let r := s.table.addjob pid (if bg then .BG else .FG) cmdline
    -- `infobg(job)`
    if bg ∧ r.1 = none then .undefined
    else
      let s := { s with table := r.2, mask := restoreSignal b.2 }
      if bg then .returned s else waitfg w s pid

/-- `eval` behind `parseline`. -/
def evalParsed (w : World) (s : Proc) (bg : Bool) (cmdline : CStr)
    (argv0 argv1 : Option CStr) : Outcome :=
  match argv0 with
  | none => .returned s
  | some prgnam => (builtinCmd w s prgnam argv1).getD (launch w s bg cmdline)

/-- `eval`; undefined where `parseline` leaves its arrays. -/
def eval (w : World) (s : Proc) (cmdline : CStr) : Outcome :=
  match parseline s.array s.argv cmdline with
  | none => .undefined
  | some (p, bg) =>
    if Contained cmdline p then
      evalParsed w { s with array := p.array, argv := p.argv } bg cmdline (p.arg 0) (p.arg 1)
    else .undefined

/-! ## The mask -/

/-- What was saved comes back. -/
@[simp] theorem restoreSignal_saved (m : Mask) : restoreSignal (blockSigchld m).2 = m := by
  obtain ⟨set, hkill, hstop⟩ := m
  have hset : set \ {sigkill, sigstop} = set := by
    rw [Finset.sdiff_eq_self_iff_disjoint, Finset.disjoint_insert_right,
      Finset.disjoint_singleton_right]
    exact ⟨hkill, hstop⟩
  simp only [restoreSignal, blockSigchld, hset]

theorem sigchldHandler_mask (reports : Reports) (s : Proc) :
    (sigchldHandler reports s).mask = s.mask := rfl

theorem sigintTstpHandler_mask (sig : Nat) (s : Proc) :
    (sigintTstpHandler sig s).1.mask = s.mask := by
  simp only [sigintTstpHandler]
  cases s.table.getjobfg with
  | none => exact restoreSignal_saved s.mask
  | some i => exact restoreSignal_saved s.mask

theorem waitfg_mask {w : World} {s s' : Proc} {pid : Int} (h : waitfg w s pid = .returned s') :
    s'.mask = s.mask := by
  simp only [waitfg] at h
  cases hw : w.waited with
  | failed =>
    rw [hw] at h
    cases h
  | echild =>
    rw [hw] at h
    cases h
    rfl
  | child status =>
    rw [hw] at h
    cases h
    exact restoreSignal_saved s.mask

theorem launch_mask {w : World} {s s' : Proc} {bg : Bool} {cmdline : CStr}
    (h : launch w s bg cmdline = .returned s') : s'.mask = s.mask := by
  simp only [launch] at h
  cases hf : w.fork with
  | none =>
    rw [hf] at h
    cases h
    exact restoreSignal_saved s.mask
  | some pid =>
    rw [hf] at h
    dsimp only at h
    rw [restoreSignal_saved] at h
    cases bg with
    | false =>
      rw [if_neg fun hb => Bool.false_ne_true hb.1, if_neg Bool.false_ne_true] at h
      have hmask := waitfg_mask h
      exact hmask
    | true =>
      by_cases hn : (s.table.addjob pid (if true then .BG else .FG) cmdline).1 = none
      · rw [if_pos ⟨rfl, hn⟩] at h
        cases h
      · rw [if_neg fun hb => hn hb.2, if_pos rfl] at h
        cases h
        rfl

/-- A number that `fg` and `bg` take. -/
def Numeral (arg : CStr) : Prop := ∃ v, Decimal (idPtr arg) v ∧ InLong v

theorem doBgfg_numeral (t : Table) (argv0 : CStr) {arg : CStr} (h : Numeral arg) :
    (∃ out, (doBgfg t argv0 (some arg)).2 = [.blockSigchld, .print out, .restoreSignal]) ∨
    ∃ i, doBgfg t argv0 (some arg) = resume t argv0 i := by
  obtain ⟨v, hd, hv⟩ := h
  cases hs : t.search (argJid arg) (int32 v) with
  | some i => exact .inr ⟨i, doBgfg_resume hd hv hs⟩
  | none =>
    have hd := strtol_whole.mpr hd
    rw [idPtr] at hd
    rw [argJid] at hs
    left
    simp only [doBgfg, hd, hs, hv, not_true, ne_eq, or_self, if_false]
    exact ⟨_, rfl⟩

theorem doBgfg_malformed {t : Table} {argv0 arg : CStr} (h : ¬Numeral arg) :
    doBgfg t argv0 (some arg) = (t, badArgument argv0) := by
  rw [doBgfg]
  cases hd : strtol (if arg.head? = some 37 then arg.tail else arg) with
  | none => rfl
  | some r =>
    obtain ⟨v, endptr⟩ := r
    refine if_pos ?_
    by_contra hok
    rw [not_or, not_not, not_not] at hok
    obtain ⟨rfl, hv⟩ := hok
    exact h ⟨v, strtol_whole.mp hd, hv⟩

theorem runEvents_fg (w : World) (s : Proc) (oldset : Sigset) (pid : Int) :
    runEvents w s oldset [.blockSigchld, .killpg pid, .restoreSignal, .waitfg pid] =
      waitfg w s pid := by
  have hrun : runEvents w s oldset [.blockSigchld, .killpg pid, .restoreSignal, .waitfg pid] =
      runEvents w { s with mask := restoreSignal (blockSigchld s.mask).2 }
        (blockSigchld s.mask).2 [.waitfg pid] := rfl
  rw [hrun, restoreSignal_saved]
  change runEvents w s _ [.waitfg pid] = _
  rw [runEvents]
  cases waitfg w s pid with
  | returned s' => rfl
  | exited => rfl
  | undefined => rfl

theorem runEvents_print (w : World) (s : Proc) (oldset : Sigset) {α : Type} (out : α → CStr)
    (l : List α) (events : List Event) :
    runEvents w s oldset (l.map (fun i => .print (out i)) ++ events) =
      runEvents w s oldset events := by
  induction l with
  | nil => rfl
  | cons i l ih =>
    rw [List.map_cons, List.cons_append, runEvents]
    exact ih

/-- `listjobs` restores what it has saved. -/
theorem runEvents_listjobs (w : World) (s : Proc) (oldset : Sigset) :
    runEvents w s oldset (listjobs s.table) = .returned s := by
  rw [listjobs, List.cons_append, runEvents]
  rw [runEvents_print, runEvents, restoreSignal_saved]
  rfl

/-- Without a malformed argument, `do_bgfg` restores what it has saved. -/
theorem runEvents_mask {w : World} {s s' : Proc} {t : Table} {argv0 : CStr}
    {argv1 : Option CStr} (hok : ∀ arg, argv1 = some arg → Numeral arg)
    (h : runEvents w s w.junk (doBgfg t argv0 argv1).2 = .returned s') : s'.mask = s.mask := by
  cases argv1 with
  | none =>
    cases h
    rfl
  | some arg =>
    rcases doBgfg_numeral t argv0 (hok arg rfl) with ⟨out, ho⟩ | ⟨i, hi⟩
    · rw [ho] at h
      cases h
      exact restoreSignal_saved s.mask
    · rw [hi] at h
      simp only [resume] at h
      cases hb : isBg argv0 with
      | true =>
        rw [hb] at h
        cases h
        exact restoreSignal_saved s.mask
      | false =>
        rw [hb] at h
        exact waitfg_mask ((runEvents_fg w s w.junk _).symm.trans h)

/-! ## `eval` on any line -/

/-- A line that `parseline` can take. -/
def Parsable (cmdline : CStr) : Prop :=
  cmdline ≠ [] ∧ (words (lineText cmdline)).length ≤ maxArgs

/-- The arguments of a line. -/
def args (cmdline : CStr) : List CStr := arguments (words (lineText cmdline))

theorem eval_parsed {cmdline : CStr} (h : Delivered cmdline) (hp : Parsable cmdline) (w : World)
    (s : Proc) :
    ∃ array argv, eval w s cmdline =
      evalParsed w { s with array := array, argv := argv }
        (background (words (lineText cmdline))) cmdline (args cmdline)[0]? (args cmdline)[1]? := by
  obtain ⟨p, hs, hholds, -⟩ := parseline_words s.array s.argv h.string
  have hlen : (args cmdline).length = 0 ∨ 1 ≤ (args cmdline).length := by omega
  refine ⟨p.array, p.argv, ?_⟩
  rw [eval, hs]
  dsimp only
  rw [if_pos ((contained_iff h hs).mpr hp), hholds 0 (Nat.zero_le _)]
  rcases hlen with hlen | hlen
  · have hnil : args cmdline = [] := List.eq_nil_of_length_eq_zero hlen
    rw [args] at hnil
    rw [args, hnil]
    rfl
  · rw [hholds 1 hlen]
    rfl

theorem eval_undefined {cmdline : CStr} (h : Delivered cmdline) (hp : ¬Parsable cmdline)
    (w : World) (s : Proc) : eval w s cmdline = .undefined := by
  obtain ⟨p, hs, -⟩ := parseline_words s.array s.argv h.string
  rw [eval, hs]
  exact if_neg fun hc => hp ((contained_iff h hs).mp hc)

/-- `fg` or `bg` with an argument that is no number. -/
def Malformed (cmdline : CStr) : Prop :=
  Parsable cmdline ∧
    ((args cmdline)[0]? = some (text "fg") ∨ (args cmdline)[0]? = some (text "bg")) ∧
      ∃ arg, (args cmdline)[1]? = some arg ∧ ¬Numeral arg

/-- The mask on return, of `eval` and of both handlers, is the one on entry. -/
structure KeepsMask (cmdline : CStr) : Prop where
  eval : ∀ w s s', Tables s.table → eval w s cmdline = .returned s' → s'.mask = s.mask
  sigchldHandler : ∀ reports s, (sigchldHandler reports s).mask = s.mask
  sigintTstpHandler : ∀ sig s, (sigintTstpHandler sig s).1.mask = s.mask

theorem evalParsed_mask {w : World} {s s' : Proc} {bg : Bool} {cmdline : CStr}
    {argv0 argv1 : Option CStr}
    (hok : (argv0 = some (text "fg") ∨ argv0 = some (text "bg")) →
      ∀ arg, argv1 = some arg → Numeral arg)
    (h : evalParsed w s bg cmdline argv0 argv1 = .returned s') : s'.mask = s.mask := by
  cases argv0 with
  | none =>
    cases h
    rfl
  | some prgnam =>
    simp only [evalParsed, builtinCmd] at h
    by_cases hfg : prgnam = text "fg" ∨ prgnam = text "bg"
    · rw [if_pos hfg, Option.getD_some] at h
      have hmask := runEvents_mask (hok (hfg.imp (congrArg some) (congrArg some))) h
      exact hmask
    by_cases hjobs : prgnam = text "jobs"
    · rw [if_neg hfg, if_pos hjobs, Option.getD_some, runEvents_listjobs] at h
      cases h
      rfl
    by_cases hquit : prgnam = text "quit"
    · rw [if_neg hfg, if_neg hjobs, if_pos hquit] at h
      cases h
    · rw [if_neg hfg, if_neg hjobs, if_neg hquit] at h
      exact launch_mask h

/-- With a malformed argument, the mask is what the stack had. -/
theorem evalParsed_malformed {w : World} {s : Proc} {bg : Bool} {cmdline : CStr}
    {argv0 argv1 : Option CStr} {arg : CStr}
    (hfg : argv0 = some (text "fg") ∨ argv0 = some (text "bg")) (harg : argv1 = some arg)
    (hn : ¬Numeral arg) :
    evalParsed w s bg cmdline argv0 argv1 = .returned { s with mask := restoreSignal w.junk } := by
  obtain ⟨prgnam, rfl, hname⟩ : ∃ prgnam, argv0 = some prgnam ∧
      (prgnam = text "fg" ∨ prgnam = text "bg") := by
    rcases hfg with rfl | rfl
    · exact ⟨_, rfl, .inl rfl⟩
    · exact ⟨_, rfl, .inr rfl⟩
  simp only [evalParsed, builtinCmd]
  rw [if_pos hname, Option.getD_some, harg, doBgfg_malformed hn]
  rfl

/-- No job, and no signal blocked. -/
def freshProc : Proc :=
  ⟨⟨∅, Finset.notMem_empty _, Finset.notMem_empty _⟩, initjobs, [], fun _ => none⟩

theorem Malformed.not_keepsMask {cmdline : CStr} (h : Delivered cmdline)
    (hm : Malformed cmdline) : ¬KeepsMask cmdline := by
  intro hk
  obtain ⟨hp, hfg, arg, harg, hn⟩ := hm
  have hs : Tables freshProc.table := .init
  obtain ⟨array, argv, he⟩ := eval_parsed h hp ⟨{1}, none, [], .echild, []⟩ freshProc
  rw [evalParsed_malformed hfg harg hn] at he
  have hmask : (restoreSignal {1}).set = freshProc.mask.set :=
    congrArg Mask.set (hk.eval _ _ _ hs he)
  exact absurd hmask (by decide)

/-- Every return restores the mask exactly if the line is not `fg` or `bg` with a
malformed argument. -/
theorem keepsMask_iff {cmdline : CStr} (h : Delivered cmdline) :
    KeepsMask cmdline ↔ ¬Malformed cmdline := by
  constructor
  · exact fun hk hm => hm.not_keepsMask h hk
  · intro hm
    refine ⟨fun w s s' _ he => ?_, sigchldHandler_mask, sigintTstpHandler_mask⟩
    by_cases hp : Parsable cmdline
    · obtain ⟨array, argv, he'⟩ := eval_parsed h hp w s
      rw [he'] at he
      have hok : ((args cmdline)[0]? = some (text "fg") ∨ (args cmdline)[0]? = some (text "bg")) →
          ∀ arg, (args cmdline)[1]? = some arg → Numeral arg := by
        intro hfg arg harg
        by_contra hn
        exact hm ⟨hp, hfg, arg, harg, hn⟩
      have hmask := evalParsed_mask hok he
      exact hmask
    · rw [eval_undefined h hp] at he
      cases he

theorem keepsMask_iff_fg : KeepsMask (text "fg %1\n") ↔ ¬Malformed (text "fg %1\n") :=
  keepsMask_iff ⟨by decide, by decide⟩

theorem eval_loses_mask : ¬∀ cmdline, Delivered cmdline → KeepsMask cmdline := by
  intro h
  have hline : text "fg foo\n" = List.replicate 0 32 ++ (text "fg foo" ++ [10]) := by decide
  have hspell : Spells [text "fg", text "foo"] (text "fg foo") :=
    .cons (text "fg") (n := 1) (by decide) (.last (text "foo") 0)
  have hclean : ∀ arg ∈ [text "fg", text "foo"], Clean arg := by simp [Clean, text]
  have hwords : words (lineText (text "fg foo\n")) = [text "fg", text "foo"] := by
    rw [hline]
    exact hspell.lineText 0 hclean
  have hargs : args (text "fg foo\n") = [text "fg", text "foo"] := by
    rw [args, hwords]
    decide
  have hd : Delivered (text "fg foo\n") := ⟨by decide, by decide⟩
  have hfoo : ¬Numeral (text "foo") := by
    intro hn
    obtain ⟨v, hv, -⟩ := hn
    have hnone : strtol (idPtr (text "foo")) = none := by decide
    exact absurd (hnone.symm.trans (strtol_whole.mpr hv)) (Option.some_ne_none _).symm
  have hm : Malformed (text "fg foo\n") := by
    refine ⟨⟨by decide, by rw [hwords]; decide⟩, ?_, text "foo", ?_, hfoo⟩
    · rw [hargs]
      exact .inl rfl
    · rw [hargs]
      rfl
  exact hm.not_keepsMask hd (h _ hd)

/-! ## A full table -/

theorem reapChild_absent {t : Table} {pid : Int} (status : Report)
    (h : ∀ i, (t.jobs i).pid ≠ pid) : reapChild t pid status = t := by
  rw [reapChild]
  cases hg : t.getjobpid pid with
  | none => rfl
  | some i => exact absurd (getjobpid_some hg) (h i)

/-- Reaping brings no new pid in. -/
theorem reapChild_pid {t : Table} {pid p : Int} (status : Report) (h0 : p ≠ 0)
    (h : ∀ i, (t.jobs i).pid ≠ p) (i : Slot) : ((reapChild t pid status).jobs i).pid ≠ p := by
  rw [reapChild]
  cases t.getjobpid pid with
  | none => exact h i
  | some k =>
    cases status with
    | stopped =>
      dsimp only
      rw [setState_pid]
      exact h i
    | exited =>
      dsimp only
      rw [deletejob_jobs]
      by_cases hi : i = k
      · rw [hi, Function.update_self]
        exact h0.symm
      · rw [Function.update_of_ne hi]
        exact h i

theorem reapAll_pid {t : Table} {p : Int} (reports : Reports) (h0 : p ≠ 0)
    (h : ∀ i, (t.jobs i).pid ≠ p) (i : Slot) : ((reapAll reports t).jobs i).pid ≠ p := by
  induction reports generalizing t with
  | nil => exact h i
  | cons r reports ih => exact ih (reapChild_pid r.2 h0 h)

/-- What is collected of the other children, and nothing else, changes a table that
the child is not in. -/
theorem waitfg_returned {w : World} (s : Proc) {pid : Int} (hw : w.waited ≠ .failed)
    (hpid : 0 < pid) :
    ∃ s', waitfg w s pid = .returned s' ∧
      ((∀ i, (s.table.jobs i).pid ≠ pid) →
        ∃ reports, reports <+: w.handled ++ w.collected ∧ s'.table = reapAll reports s.table) := by
  rw [waitfg]
  cases hwait : w.waited with
  | failed => exact absurd hwait hw
  | echild => exact ⟨_, rfl, fun _ => ⟨_, List.prefix_append _ _, rfl⟩⟩
  | child status =>
    refine ⟨_, rfl, fun habs => ⟨_, List.prefix_rfl, ?_⟩⟩
    have habs' := reapAll_pid w.handled hpid.ne' habs
    rw [reapAll, List.foldl_append]
    exact congrArg (reapAll w.collected) (reapChild_absent status habs')

/-- What the kernel promises: a new child has a pid of its own, and the wait for it
fails only if it is gone. -/
structure Kernel (w : World) (s : Proc) : Prop where
  fork : ∀ pid, w.fork = some pid → 0 < pid ∧ ∀ i, (s.table.jobs i).pid ≠ pid
  waited : w.waited ≠ .failed

/-- No slot is free. -/
def Table.Crowded (t : Table) : Prop := ∀ i, (t.jobs i).pid ≠ 0

theorem addjob_full {t : Table} (h : t.Crowded) (pid : Int) (state : JobState)
    (cmdline : List UInt8) : t.addjob pid state cmdline = (none, t) := by
  rcases addjob_cases t pid state cmdline with hn | ⟨i, hi, -⟩
  · exact hn.2
  · exact absurd hi (h i)

theorem launch_undefined {w : World} {s : Proc} (cmdline : CStr) (h : s.table.Crowded)
    (hf : w.fork ≠ none) : launch w s true cmdline = .undefined := by
  rw [launch]
  cases hw : w.fork with
  | none => exact absurd hw hf
  | some pid =>
    dsimp only
    rw [addjob_full h]
    rfl

theorem launch_returned {w : World} {s : Proc} {bg : Bool} (cmdline : CStr) (hk : Kernel w s)
    (h : ¬(s.table.Crowded ∧ bg = true ∧ w.fork ≠ none)) :
    ∃ s', launch w s bg cmdline = .returned s' ∧ (s.table.Crowded →
      ∃ reports, reports <+: w.handled ++ w.collected ∧ s'.table = reapAll reports s.table) := by
  rw [launch]
  cases hw : w.fork with
  | none => exact ⟨_, rfl, fun _ => ⟨[], List.nil_prefix, rfl⟩⟩
  | some pid =>
    obtain ⟨hpid, habs⟩ := hk.fork pid hw
    dsimp only
    cases bg with
    | true =>
      have hfree : ¬s.table.Crowded := fun hfull => h ⟨hfull, rfl, by simp [hw]⟩
      rcases addjob_cases s.table pid .BG cmdline with hn | ⟨i, -, hi, -⟩
      · exact absurd hn.1 hfree
      · rw [if_pos rfl, hi, if_neg fun hb => Option.some_ne_none i hb.2]
        exact ⟨_, rfl, fun hfull => absurd hfull hfree⟩
    | false =>
      rw [if_neg fun hb => Bool.false_ne_true hb.1]
      obtain ⟨s', hs', htable⟩ := waitfg_returned
        { s with
          table := (s.table.addjob pid .FG cmdline).2
          mask := restoreSignal (blockSigchld s.mask).2 } hk.waited hpid
      refine ⟨s', hs', fun hfull => ?_⟩
      dsimp only at htable
      rw [addjob_full hfull] at htable
      exact htable habs

/-- The line starts with the name of a builtin. -/
def Builtin (cmdline : CStr) : Prop :=
  ∃ prgnam, (args cmdline)[0]? = some prgnam ∧
    (prgnam = text "fg" ∨ prgnam = text "bg" ∨ prgnam = text "jobs" ∨ prgnam = text "quit")

/-- `eval` returns, and a full table changes only as the other children are collected. -/
def Completes (w : World) (s : Proc) (cmdline : CStr) : Prop :=
  ∃ s', eval w s cmdline = .returned s' ∧ (s.table.Crowded →
    ∃ reports, reports <+: w.handled ++ w.collected ∧ s'.table = reapAll reports s.table)

/-- A background job that finds no slot. -/
structure Overfull (w : World) (s : Proc) (cmdline : CStr) : Prop where
  full : s.table.Crowded
  background : background (words (lineText cmdline)) = true
  command : (args cmdline)[0]? ≠ none
  fork : w.fork ≠ none

theorem evalParsed_launch {w : World} {s : Proc} {bg : Bool} {cmdline prgnam : CStr}
    {argv1 : Option CStr} (h : ¬(prgnam = text "fg" ∨ prgnam = text "bg" ∨
      prgnam = text "jobs" ∨ prgnam = text "quit")) :
    evalParsed w s bg cmdline (some prgnam) argv1 = launch w s bg cmdline := by
  obtain ⟨hfg, h⟩ := not_or.mp h
  obtain ⟨hbg, h⟩ := not_or.mp h
  obtain ⟨hjobs, hquit⟩ := not_or.mp h
  simp only [evalParsed, builtinCmd]
  rw [if_neg (not_or.mpr ⟨hfg, hbg⟩), if_neg hjobs, if_neg hquit, Option.getD_none]

theorem Overfull.not_completes {w : World} {s : Proc} {cmdline : CStr} (h : Delivered cmdline)
    (hb : ¬Builtin cmdline) (ho : Overfull w s cmdline) : ¬Completes w s cmdline := by
  rintro ⟨s', hs', -⟩
  by_cases hp : Parsable cmdline
  · obtain ⟨array, argv, he⟩ := eval_parsed h hp w s
    obtain ⟨prgnam, hprg⟩ := Option.ne_none_iff_exists'.mp ho.command
    rw [he, hprg, evalParsed_launch fun hn => hb ⟨prgnam, hprg, hn⟩, ho.background] at hs'
    have hu : launch w { s with array := array, argv := argv } true cmdline = .undefined :=
      launch_undefined cmdline ho.full ho.fork
    rw [hu] at hs'
    cases hs'
  · rw [eval_undefined h hp] at hs'
    cases hs'

/-- A command line that is not a builtin is handled exactly if `parseline` can take it
and it does not start a background job when the table is full. -/
theorem completes_iff {w : World} {s : Proc} {cmdline : CStr} (hk : Kernel w s)
    (h : Delivered cmdline) (hb : ¬Builtin cmdline) :
    Completes w s cmdline ↔ Parsable cmdline ∧ ¬Overfull w s cmdline := by
  constructor
  · intro hc
    refine ⟨?_, fun ho => ho.not_completes h hb hc⟩
    by_contra hp
    obtain ⟨s', hs', -⟩ := hc
    rw [eval_undefined h hp] at hs'
    cases hs'
  · intro ⟨hp, ho⟩
    obtain ⟨array, argv, he⟩ := eval_parsed h hp w s
    rw [Completes, he]
    cases hprg : (args cmdline)[0]? with
    | none => exact ⟨_, rfl, fun _ => ⟨[], List.nil_prefix, rfl⟩⟩
    | some prgnam =>
      rw [evalParsed_launch fun hn => hb ⟨prgnam, hprg, hn⟩]
      have hk' : Kernel w { s with array := array, argv := argv } := ⟨hk.fork, hk.waited⟩
      refine launch_returned cmdline hk' fun ⟨hfull, hbg, hf⟩ => ?_
      exact ho ⟨hfull, hbg, by rw [hprg]; exact Option.some_ne_none _, hf⟩

/-- A line for the background. -/
def sleepLine : CStr := text "sleep 9 &\n"

/-- The table after the line has been entered `n` times. -/
def crowd (n : Nat) : Table where
  jobs i := if i.val < n then ⟨101 + i.val, i.val + 1, .BG, sleepLine⟩ else clearjob
  nextjid := if n < maxJobs then n + 1 else 1

theorem crowd_free : ∀ n : Slot, (crowd n).getjobpid 0 = some n := by decide

theorem crowd_next : ∀ n : Slot, (if int32 ((crowd n).nextjid + 1) > maxJobs then 1
    else int32 ((crowd n).nextjid + 1)) = (crowd (n + 1)).nextjid := by decide

theorem crowd_add (n : Slot) :
    ((crowd n).addjob (101 + n.val) .BG sleepLine).2 = crowd (n + 1) := by
  have hjobs : Function.update (crowd n).jobs n
      ⟨101 + n.val, (crowd n).nextjid, .BG, sleepLine⟩ = (crowd (n + 1)).jobs := by
    funext i
    by_cases hi : i = n
    · rw [hi, Function.update_self]
      simp [crowd]
    · have hval : i.val ≠ n.val := fun he => hi (Fin.ext he)
      have hlt : i.val < n.val + 1 ↔ i.val < n.val := by omega
      rw [Function.update_of_ne hi]
      simp only [crowd, hlt]
  rw [Table.addjob, crowd_free]
  exact congrArg₂ Table.mk hjobs (crowd_next n)

theorem crowd_tables {n : Nat} (h : n ≤ maxJobs) : Tables (crowd n) := by
  induction n with
  | zero => exact .init
  | succ n ih =>
    have hn : n < 16 := h
    have hadd := crowd_add ⟨n, h⟩
    rw [← hadd]
    refine .add _ _ (ih (Nat.le_of_lt h)) (by omega) (by dsimp only; omega) (fun i => ?_) ?_
    · dsimp only [crowd]
      split
      · dsimp only
        omega
      · exact ne_of_lt (by dsimp only [clearjob]; omega)
    · dsimp only [crowd]
      split <;> omega

theorem crowd_full : (crowd maxJobs).Crowded := by
  intro i
  have hi : (crowd maxJobs).jobs i = ⟨101 + i.val, i.val + 1, .BG, sleepLine⟩ := if_pos i.isLt
  rw [hi]
  dsimp only
  omega

/-- A child with a pid of its own. -/
theorem crowd_kernel {waited : Waited} (hw : waited ≠ .failed) :
    Kernel ⟨∅, some 201, [], waited, []⟩ { freshProc with table := crowd maxJobs } := by
  refine ⟨fun pid hpid => ?_, hw⟩
  cases hpid
  refine ⟨by decide, fun i => ?_⟩
  have hi : (crowd maxJobs).jobs i = ⟨101 + i.val, i.val + 1, .BG, sleepLine⟩ := if_pos i.isLt
  have hlt : i.val < 16 := i.isLt
  dsimp only
  rw [hi]
  dsimp only
  omega

/-- In the foreground, a command is waited for without a slot. -/
theorem completes_iff_ls : Completes ⟨∅, some 201, [], .child .exited, []⟩
    { freshProc with table := crowd maxJobs } (text "ls\n") := by
  have hline : text "ls\n" = List.replicate 0 32 ++ (text "ls" ++ [10]) := by decide
  have hspell : Spells [text "ls"] (text "ls") := .last (text "ls") 0
  have hwords : words (lineText (text "ls\n")) = [text "ls"] := by
    rw [hline]
    exact hspell.lineText 0 (by simp [Clean, text])
  refine (completes_iff (crowd_kernel fun h => Waited.noConfusion h) ⟨by decide, by decide⟩ ?_).mpr ⟨?_, ?_⟩
  · rintro ⟨prgnam, hprg, hb⟩
    have hls : (args (text "ls\n"))[0]? = some (text "ls") := by
      rw [args, hwords]
      decide
    cases hls.symm.trans hprg
    exact absurd hb (by decide)
  · exact ⟨by decide, by rw [hwords]; decide⟩
  · intro ho
    have hbg := ho.background
    rw [hwords] at hbg
    exact absurd hbg (by decide)

/-- The line once more. -/
theorem eval_uses_null :
    ¬∀ w s cmdline, Tables s.table → Kernel w s → Delivered cmdline → ¬Builtin cmdline →
      Completes w s cmdline := by
  intro h
  have hline : sleepLine = List.replicate 0 32 ++ (text "sleep 9 &" ++ [10]) := by decide
  have hspell : Spells [text "sleep", text "9", [38]] (text "sleep 9 &") :=
    .cons (text "sleep") (n := 1) (by decide)
      (.cons (text "9") (n := 1) (by decide) (.last [38] 0))
  have hwords : words (lineText sleepLine) = [text "sleep", text "9", [38]] := by
    rw [hline]
    exact hspell.lineText 0 (by simp [Clean, text])
  have hargs : (args sleepLine)[0]? = some (text "sleep") := by
    rw [args, hwords]
    decide
  have hd : Delivered sleepLine := ⟨by decide, by decide⟩
  have hb : ¬Builtin sleepLine := by
    rintro ⟨prgnam, hprg, hb⟩
    cases hargs.symm.trans hprg
    exact absurd hb (by decide)
  have ho : Overfull ⟨∅, some 201, [], .echild, []⟩
      { freshProc with table := crowd maxJobs } sleepLine := by
    refine ⟨crowd_full, ?_, ?_, Option.some_ne_none _⟩
    · rw [hwords]
      decide
    · rw [hargs]
      exact Option.some_ne_none _
  have hecho : Waited.echild ≠ .failed := fun h => Waited.noConfusion h
  exact ho.not_completes hd hb (h _ _ _ (crowd_tables (Nat.le_refl _)) (crowd_kernel hecho) hd hb)

end Csapp.Shell
