import Mathlib
import Csapp.Lib.Strtol
import Csapp.Shell.Model

/-!
# The builtins `fg` and `bg`

`do_bgfg` with its argument as text. What it does besides changing the table is
a list of events, in order; `waitfg` is one of them and goes on elsewhere.

The number in the argument is a `long` that becomes an `int`, so one that is no
ID can turn into one. And a free slot has `pid` zero, so `getjobpid` finds it
under that number.
-/

namespace Csapp.Shell

/-- What `do_bgfg` and `listjobs` do, in order. -/
inductive Event
  | print (text : CStr)
  | blockSigchld
  | restoreSignal
  /-- `killpg(pid, SIGCONT)` -/
  | killpg (pid : Int)
  | waitfg (pid : Int)

/-- What `strtol` can return without setting `errno`. -/
def InLong (v : Int) : Prop := -9223372036854775808 ≤ v ∧ v ≤ 9223372036854775807

instance (v : Int) : Decidable (InLong v) := inferInstanceAs (Decidable (_ ∧ _))

/-- `infobg` -/
def infobg (job : Job) : CStr :=
  text "[" ++ text (toString job.jid) ++ text "] (" ++ text (toString job.pid) ++ text ") " ++
    job.cmdline

/-- `argv[0][0] == 'b'` -/
def isBg (argv0 : CStr) : Bool := argv0.head? = some 98

/-- `fmt_str[arg_jid]` with `argv[1]` put in. -/
def noSuch (argJid : Bool) (arg : CStr) : CStr :=
  if argJid then arg ++ text ": No such job\n" else text "(" ++ arg ++ text "): No such process\n"

/-- The end of `do_bgfg` for an argument that is no number. -/
def badArgument (argv0 : CStr) : List Event :=
  [.print (argv0 ++ text ": argument must be a PID or %jobid\n"), .restoreSignal]

/-- The rest of `do_bgfg`, once there is a job. -/
def resume (t : Table) (argv0 : CStr) (i : Slot) : Table × List Event :=
  let bg := isBg argv0
  let pid := (t.jobs i).pid
  let t := t.setState i (if bg then .BG else .FG)
  (t, [.blockSigchld, .killpg pid] ++ (if bg then [.print (infobg (t.jobs i))] else []) ++
    [.restoreSignal] ++ if bg then [] else [.waitfg pid])

/-- `(arg_jid ? getjobjid : getjobpid)(id)` -/
def Table.search (t : Table) (argJid : Bool) (id : Int) : Option Slot :=
  if argJid then t.getjobjid id else t.getjobpid id

/-- `do_bgfg`, with `argv[0]` and `argv[1]`. -/
def doBgfg (t : Table) (argv0 : CStr) : Option CStr → Table × List Event
  | none => (t, [.print (argv0 ++ text " command requires PID or %jobid argument\n")])
  | some arg =>
    let argJid := arg.head? = some 37
    let idPtr := if argJid then arg.tail else arg
    match strtol idPtr with
    | none => (t, badArgument argv0)
    | some (v, endptr) =>
      if endptr ≠ [] ∨ ¬InLong v then (t, badArgument argv0)
      else
        match t.search argJid (int32 v) with
        | none => (t, [.blockSigchld, .print (noSuch argJid arg), .restoreSignal])
        | some i => resume t argv0 i

/-- The process groups that SIGCONT is sent to. -/
def signals (events : List Event) : List Int :=
  events.filterMap fun
    | .killpg pid => some pid
    | _ => none

/-- The waits that are started. -/
def waits (events : List Event) : List Int :=
  events.filterMap fun
    | .waitfg pid => some pid
    | _ => none

/-! ## What it is told to do -/

/-- The argument is the pid of the live job in slot `i`, or `%` and its jid, as a
numeral. -/
def Told (t : Table) (arg : CStr) (i : Slot) : Prop :=
  (t.jobs i).pid ≠ 0 ∧
    (Decimal arg (t.jobs i).pid ∨ ∃ rest, arg = 37 :: rest ∧ Decimal rest (t.jobs i).jid)

/-- That job goes on, and nothing else happens to the table or to a job. -/
def Resumed (t : Table) (argv0 : CStr) (i : Slot) (out : Table × List Event) : Prop :=
  out.1 = t.setState i (if isBg argv0 then .BG else .FG) ∧ signals out.2 = [(t.jobs i).pid]

/-- Nothing is changed, signalled or waited for. -/
def Untouched (t : Table) (out : Table × List Event) : Prop :=
  out.1 = t ∧ signals out.2 = [] ∧ waits out.2 = []

/-- The job that is told is resumed, and nothing without one. -/
def Obeys (t : Table) (argv0 arg : CStr) : Prop :=
  (∀ i, Told t arg i → Resumed t argv0 i (doBgfg t argv0 (some arg))) ∧
  ((∀ i, ¬Told t arg i) → Untouched t (doBgfg t argv0 (some arg)))

/-- A number that becomes zero meets no free slot, one that becomes the pid or
the jid of a live job is that number, and the jid is that of one job. -/
def Plain (t : Table) (arg : CStr) : Prop :=
  (∀ v, Decimal arg v → InLong v →
    (int32 v = 0 → ∀ i, (t.jobs i).pid ≠ 0) ∧
    ∀ i, (t.jobs i).pid ≠ 0 → (t.jobs i).pid = int32 v → v = int32 v) ∧
  ∀ rest v, arg = 37 :: rest → Decimal rest v → InLong v →
    ∀ i, (t.jobs i).pid ≠ 0 → (t.jobs i).jid = int32 v →
      v = int32 v ∧ ∀ j, (t.jobs j).pid ≠ 0 → (t.jobs j).jid = (t.jobs i).jid → j = i

/-! ## The tables -/

/-- The tables that the shell can come to: children are added and reaped, `fg`
and `bg` get any argument. A pid is a positive `int` and is no live job's while it
is new; counting past the largest `int` is undefined. -/
inductive Tables : Table → Prop
  | init : Tables initjobs
  | add {t : Table} {pid : Int} (state : JobState) (cmdline : List UInt8) : Tables t → 0 < pid →
      pid < 2147483648 → (∀ i, (t.jobs i).pid ≠ pid) → t.nextjid < 2147483647 →
      Tables (t.addjob pid state cmdline).2
  | reap {t : Table} {pid : Int} (status : Report) : Tables t → 0 < pid →
      (∀ i, (t.jobs i).jid < 2147483647) → Tables (reapChild t pid status)
  | bgfg {t : Table} (argv0 : CStr) (argv1 : Option CStr) : Tables t →
      Tables (doBgfg t argv0 argv1).1

/-- The table of a run. -/
structure Sound (t : Table) : Prop where
  pid : ∀ i, 0 ≤ (t.jobs i).pid ∧ (t.jobs i).pid < 2147483648
  jid : ∀ i, (t.jobs i).pid ≠ 0 → 1 ≤ (t.jobs i).jid ∧ (t.jobs i).jid < 2147483648
  free : ∀ i, (t.jobs i).pid = 0 → (t.jobs i).jid = 0
  next : 1 ≤ t.nextjid
  inj : ∀ i j, (t.jobs i).pid ≠ 0 → (t.jobs i).pid = (t.jobs j).pid → i = j

theorem Sound.init : Sound initjobs where
  pid _ := ⟨Int.le_refl 0, (by decide : (0 : Int) < 2147483648)⟩
  jid _ h := absurd rfl h
  free _ _ := rfl
  next := by decide
  inj _ _ h := absurd rfl h

@[simp] theorem setState_jid (t : Table) (i k : Slot) (state : JobState) :
    ((t.setState i state).jobs k).jid = (t.jobs k).jid := by
  by_cases h : k = i
  · subst h
    simp
  · rw [setState_ne t h]

theorem Sound.setState {t : Table} (h : Sound t) (i : Slot) (state : JobState) :
    Sound (t.setState i state) where
  pid k := by simpa using h.pid k
  jid k := by simpa using h.jid k
  free k := by simpa using h.free k
  next := h.next
  inj k m := by simpa using h.inj k m

theorem Sound.add {t : Table} (h : Sound t) {pid : Int} {state : JobState} {cmdline : List UInt8}
    (hp : 0 < pid) (hlt : pid < 2147483648) (hf : ∀ i, (t.jobs i).pid ≠ pid)
    (hn : t.nextjid < 2147483647) : Sound (t.addjob pid state cmdline).2 := by
  unfold Table.addjob
  cases hg : t.getjobpid 0 with
  | none => exact h
  | some i =>
    have hnext := h.next
    have hint : int32 (t.nextjid + 1) = t.nextjid + 1 := int32_of_lt (by omega) (by omega)
    dsimp only
    rw [hint]
    refine ⟨fun k => ?_, fun k => ?_, fun k => ?_, ?_, fun k m => ?_⟩
    · by_cases hk : k = i
      · subst hk
        simpa using ⟨Int.le_of_lt hp, hlt⟩
      · simpa [hk] using h.pid k
    · by_cases hk : k = i
      · subst hk
        intro _
        simp only [Function.update_self]
        omega
      · simpa [hk] using h.jid k
    · by_cases hk : k = i
      · subst hk
        intro h0
        simp only [Function.update_self] at h0
        omega
      · simpa [hk] using h.free k
    · dsimp only
      split <;> omega
    · by_cases hk : k = i
      · by_cases hm : m = i
        · intro _ _
          rw [hk, hm]
        · subst hk
          simp only [Function.update_self, Function.update_of_ne hm]
          intro _ he
          exact absurd he.symm (hf m)
      · by_cases hm : m = i
        · subst hm
          simp only [Function.update_self, Function.update_of_ne hk]
          intro _ he
          exact absurd he (hf k)
        · simpa [hk, hm] using h.inj k m

theorem Sound.delete {t : Table} (h : Sound t) (i : Slot) (hn : ∀ k, (t.jobs k).jid < 2147483647) :
    Sound (t.deletejob i) where
  pid k := by
    rw [deletejob_jobs]
    by_cases hk : k = i
    · subst hk
      simp [clearjob]
    · simpa [hk] using h.pid k
  jid k := by
    rw [deletejob_jobs]
    by_cases hk : k = i
    · subst hk
      simp [clearjob]
    · simpa [hk] using h.jid k
  free k := by
    rw [deletejob_jobs]
    by_cases hk : k = i
    · subst hk
      simp [clearjob]
    · simpa [hk] using h.free k
  next := by
    unfold Table.deletejob
    dsimp only
    cases hx : (t.set i clearjob).maxjob with
    | none => exact Int.le_refl 1
    | some m =>
      have hm := (maxjob_some hx).1
      have hlt : ((t.set i clearjob).jobs m).jid < 2147483647 := by
        unfold Table.set
        by_cases hmi : m = i
        · subst hmi
          simp [clearjob]
        · simpa [hmi] using hn m
      dsimp only
      rw [int32_of_lt (by omega) (by omega)]
      omega
  inj k m := by
    rw [deletejob_jobs]
    by_cases hk : k = i
    · subst hk
      simp [clearjob]
    · by_cases hm : m = i
      · subst hm
        simp only [Function.update_self, Function.update_of_ne hk]
        intro h0 he
        exact absurd he h0
      · simpa [hk, hm] using h.inj k m

theorem Sound.reap {t : Table} (h : Sound t) (pid : Int) (status : Report)
    (hn : ∀ k, (t.jobs k).jid < 2147483647) : Sound (reapChild t pid status) := by
  unfold reapChild
  cases t.getjobpid pid with
  | none => exact h
  | some i =>
    cases status with
    | stopped => exact h.setState i _
    | exited => exact h.delete i hn

/-! ## One call -/

/-- The argument as `do_bgfg` reads it: whether it is a jid, and the numeral. -/
def argJid (arg : CStr) : Bool := arg.head? = some 37

/-- The digits of an argument. -/
def idPtr (arg : CStr) : CStr := if arg.head? = some 37 then arg.tail else arg

theorem doBgfg_resume {t : Table} {argv0 arg : CStr} {v : Int} {i : Slot}
    (hd : Decimal (idPtr arg) v) (hv : InLong v) (hs : t.search (argJid arg) (int32 v) = some i) :
    doBgfg t argv0 (some arg) = resume t argv0 i := by
  have hd := strtol_whole.mpr hd
  unfold idPtr at hd
  unfold argJid at hs
  unfold doBgfg
  simp only [hd, hs, hv, not_true, ne_eq, or_self, if_false]

/-- The calls that find no job. -/
theorem doBgfg_untouched {t : Table} {argv0 arg : CStr}
    (h : ∀ v, Decimal (idPtr arg) v → InLong v → t.search (argJid arg) (int32 v) = none) :
    Untouched t (doBgfg t argv0 (some arg)) := by
  unfold doBgfg
  dsimp only
  cases hd : strtol (if arg.head? = some 37 then arg.tail else arg) with
  | none => exact ⟨rfl, rfl, rfl⟩
  | some r =>
    obtain ⟨v, endptr⟩ := r
    dsimp only
    split
    · exact ⟨rfl, rfl, rfl⟩
    next hok =>
      rw [not_or, not_not, not_not] at hok
      obtain ⟨rfl, hv⟩ := hok
      have hn := h v (strtol_whole.mp hd) hv
      unfold argJid at hn
      rw [hn]
      exact ⟨rfl, rfl, rfl⟩

theorem resume_signals (t : Table) (argv0 : CStr) (i : Slot) :
    signals (resume t argv0 i).2 = [(t.jobs i).pid] := by
  unfold resume
  cases isBg argv0 <;> rfl

theorem Tables.sound {t : Table} (h : Tables t) : Sound t := by
  induction h with
  | init => exact Sound.init
  | add state cmdline _ hp hlt hf hn ih => exact ih.add hp hlt hf hn
  | reap status _ _ hn ih => exact ih.reap _ status hn
  | @bgfg t argv0 argv1 _ ih =>
    cases argv1 with
    | none => exact ih
    | some arg =>
      by_cases hs : ∃ v i, Decimal (idPtr arg) v ∧ InLong v ∧
          t.search (argJid arg) (int32 v) = some i
      · obtain ⟨v, i, hd, hv, hs⟩ := hs
        rw [doBgfg_resume hd hv hs]
        exact ih.setState i _
      · have hu : Untouched t (doBgfg t argv0 (some arg)) := by
          refine doBgfg_untouched fun v hd hv => ?_
          cases hg : t.search (argJid arg) (int32 v) with
          | none => rfl
          | some i => exact absurd ⟨v, i, hd, hv, hg⟩ hs
        rw [hu.1]
        exact ih

/-! ## The job that is found -/

/-- What an ID of the kind is compared with. -/
def Table.key (t : Table) (argJid : Bool) (i : Slot) : Int :=
  if argJid then (t.jobs i).jid else (t.jobs i).pid

theorem search_key {t : Table} {a : Bool} {id : Int} {i : Slot} (hs : t.search a id = some i) :
    t.key a i = id := by
  cases a with
  | true => exact (getjobjid_some hs).2
  | false => exact getjobpid_some hs

theorem Sound.search_live {t : Table} (h : Sound t) {id : Int} {i : Slot}
    (hs : t.search true id = some i) : (t.jobs i).pid ≠ 0 := by
  intro h0
  have hj := getjobjid_some hs
  have hz := h.free i h0
  omega

/-- An `int` of a slot that may be looked for is found. -/
theorem Sound.search_finds {t : Table} (h : Sound t) {a : Bool} {i : Slot}
    (hi : a = true → (t.jobs i).pid ≠ 0) : ∃ k, t.search a (t.key a i) = some k := by
  cases hs : t.search a (t.key a i) with
  | some k => exact ⟨k, rfl⟩
  | none =>
    cases a with
    | true => exact absurd rfl (getjobjid_none (h.jid i (hi rfl)).1 hs i)
    | false => exact absurd rfl (getjobpid_none (h.pid i).1 hs i)

theorem Sound.key_range {t : Table} (h : Sound t) {a : Bool} {i : Slot}
    (hi : (t.jobs i).pid ≠ 0) : int32 (t.key a i) = t.key a i ∧ InLong (t.key a i) := by
  have hp := h.pid i
  have hj := h.jid i hi
  cases a with
  | true =>
    change int32 (t.jobs i).jid = _ ∧ _ ≤ (t.jobs i).jid ∧ (t.jobs i).jid ≤ _
    exact ⟨int32_of_lt (by omega) hj.2, by omega, by omega⟩
  | false =>
    change int32 (t.jobs i).pid = _ ∧ _ ≤ (t.jobs i).pid ∧ (t.jobs i).pid ≤ _
    exact ⟨int32_of_lt hp.1 hp.2, by omega, by omega⟩

theorem decimal_percent {l : CStr} {v : Int} : ¬Decimal (37 :: l) v := by
  rw [← strtol_whole]
  intro h
  cases h

theorem told_iff {t : Table} {arg : CStr} {i : Slot} : Told t arg i ↔
    (t.jobs i).pid ≠ 0 ∧ Decimal (idPtr arg) (t.key (argJid arg) i) := by
  unfold Told
  refine and_congr_right fun _ => ?_
  by_cases hp : arg.head? = some 37
  · obtain ⟨rest, rfl⟩ : ∃ rest, arg = 37 :: rest := by
      cases arg with
      | nil => cases hp
      | cons c rest => exact ⟨rest, by rw [Option.some.inj hp]⟩
    constructor
    · rintro (hd | ⟨rest', he, hd⟩)
      · exact absurd hd decimal_percent
      · rw [(List.cons.inj he).2]
        exact hd
    · exact fun hd => .inr ⟨rest, rfl, hd⟩
  · have hj : argJid arg = false := decide_eq_false hp
    have hptr : idPtr arg = arg := if_neg hp
    rw [hj, hptr]
    constructor
    · rintro (hd | ⟨rest, rfl, -⟩)
      · exact hd
      · exact absurd rfl hp
    · exact .inl

/-- The job found is the one that the number names, and the only one. -/
def Exact (t : Table) (arg : CStr) : Prop :=
  ∀ v i, Decimal (idPtr arg) v → InLong v → t.search (argJid arg) (int32 v) = some i →
    v = int32 v ∧ (t.jobs i).pid ≠ 0 ∧
      ∀ j, (t.jobs j).pid ≠ 0 → t.key (argJid arg) j = t.key (argJid arg) i → j = i

theorem Sound.obeys_iff {t : Table} (h : Sound t) (argv0 arg : CStr) :
    Obeys t argv0 arg ↔ Exact t arg := by
  constructor
  · intro ho v i hd hv hs
    have hout : doBgfg t argv0 (some arg) = _ := doBgfg_resume hd hv hs
    have hsig := resume_signals t argv0 i
    unfold Obeys at ho
    rw [hout] at ho
    obtain ⟨j, hj⟩ : ∃ j, Told t arg j := by
      by_contra hn
      have hu := (ho.2 fun j hj => hn ⟨j, hj⟩).2.1
      rw [hsig] at hu
      cases hu
    have hsame : ∀ j, Told t arg j → j = i := by
      intro j hj
      have hr := (ho.1 j hj).2
      rw [hsig] at hr
      exact h.inj j i hj.1 (List.cons.inj hr).1.symm
    have hji := hsame j hj
    subst hji
    obtain ⟨hlive, hdj⟩ := told_iff.mp hj
    have hvj := hd.unique hdj
    refine ⟨?_, hlive, fun k hk he => hsame k (told_iff.mpr ⟨hk, ?_⟩)⟩
    · rw [hvj, (h.key_range hlive).1]
    · rw [he]
      exact hdj
  · intro hx
    constructor
    · intro i hi
      obtain ⟨hlive, hd⟩ := told_iff.mp hi
      obtain ⟨hint, hlong⟩ := h.key_range (a := argJid arg) hlive
      obtain ⟨k, hk⟩ := h.search_finds (a := argJid arg) fun _ => hlive
      rw [← hint] at hk
      have hki : i = k := by
        refine (hx _ k hd hlong hk).2.2 i hlive ?_
        rw [search_key hk, hint]
      subst hki
      rw [doBgfg_resume hd hlong hk]
      exact ⟨rfl, resume_signals t argv0 i⟩
    · intro hn
      refine doBgfg_untouched fun v hd hv => ?_
      cases hs : t.search (argJid arg) (int32 v) with
      | none => rfl
      | some i =>
        obtain ⟨hvi, hlive, -⟩ := hx v i hd hv hs
        refine absurd (told_iff.mpr ⟨hlive, ?_⟩) (hn i)
        rw [search_key hs, ← hvi]
        exact hd

theorem Sound.plain_iff {t : Table} (h : Sound t) (arg : CStr) : Plain t arg ↔ Exact t arg := by
  unfold Plain Exact
  by_cases hp : arg.head? = some 37
  · obtain ⟨rest, rfl⟩ : ∃ rest, arg = 37 :: rest := by
      cases arg with
      | nil => cases hp
      | cons c rest => exact ⟨rest, by rw [Option.some.inj hp]⟩
    constructor
    · intro hx v i hd hv hs
      have hlive := h.search_live hs
      obtain ⟨hvi, hone⟩ := hx.2 rest v rfl hd hv i hlive (search_key hs)
      exact ⟨hvi, hlive, hone⟩
    · intro hx
      refine ⟨fun v hd => absurd hd decimal_percent, ?_⟩
      intro rest' v he hd hv i hlive hj
      cases he
      obtain ⟨k, hk⟩ := h.search_finds (a := true) fun _ => hlive
      have hkey : t.key true i = int32 v := hj
      rw [hkey] at hk
      obtain ⟨hvk, -, hone⟩ := hx v k hd hv hk
      have hik : i = k := hone i hlive (hkey.trans (search_key hk).symm)
      subst hik
      exact ⟨hvk, hone⟩
  · have hj : argJid arg = false := decide_eq_false hp
    have hptr : idPtr arg = arg := if_neg hp
    rw [hj, hptr]
    constructor
    · intro hx v i hd hv hs
      obtain ⟨hzero, hlive⟩ := hx.1 v hd hv
      have hi : (t.jobs i).pid = int32 v := search_key hs
      have hne : (t.jobs i).pid ≠ 0 := fun h0 => hzero (hi ▸ h0) i h0
      exact ⟨hlive i hne hi, hne, fun j hj he => h.inj j i hj he⟩
    · intro hx
      refine ⟨fun v hd hv => ⟨fun h0 i hi => ?_, fun i _ hi => ?_⟩, ?_⟩
      · obtain ⟨k, hk⟩ := h.search_finds (i := i) fun ha : false = true => nomatch ha
        have hkey : t.key false i = int32 v := hi.trans h0.symm
        rw [hkey] at hk
        exact (hx v k hd hv hk).2.1 ((search_key hk).trans h0)
      · obtain ⟨k, hk⟩ := h.search_finds (i := i) fun ha : false = true => nomatch ha
        have hkey : t.key false i = int32 v := hi
        rw [hkey] at hk
        exact (hx v k hd hv hk).1
      · rintro rest v rfl
        exact absurd rfl hp

/-- In every table the shell can come to, `fg` and `bg` do what they are told
exactly if the number in the argument means the same as an `int`, and there zero
meets no free slot and a jid one job. -/
theorem doBgfg_iff {t : Table} (h : Tables t) (argv0 arg : CStr) :
    Obeys t argv0 arg ↔ Plain t arg :=
  (h.sound.obeys_iff argv0 arg).trans (h.sound.plain_iff arg).symm

/-- `bg %1` with one job. -/
theorem doBgfg_iff_one : Obeys (initjobs.addjob 101 .ST []).2 [98, 103] [37, 49] ↔
    Plain (initjobs.addjob 101 .ST []).2 [37, 49] :=
  doBgfg_iff (.add .ST [] .init (by decide) (by decide) (by decide) (by decide)) _ _

/-- `fg 0` with no job at all. -/
theorem doBgfg_disobeys : ¬∀ t, Tables t → ∀ argv0 arg, Obeys t argv0 arg := by
  intro h
  have hx := (Sound.init.obeys_iff [102, 103] [48]).mp (h _ .init _ _)
  have hp := (Sound.init.plain_iff [48]).mpr hx
  have hd : Decimal [48] 0 := strtol_whole.mp rfl
  exact (hp.1 0 hd (by decide)).1 (by decide) ⟨0, by decide⟩ rfl

end Csapp.Shell
