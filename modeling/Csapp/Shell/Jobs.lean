import Mathlib

/-!
# The job table

The helpers of `tsh.c` that manipulate the job list. A slot is free when its
`pid` is zero. `nextjid` is set by two rules that do not know of each other:
`addjob` counts it up and wraps it at `MAXJOBS`, `deletejob` puts it behind the
largest job ID there is.

Job IDs are `int`; counting past the largest `int` wraps.
-/

namespace Csapp.Shell

/-- `MAXJOBS` -/
def maxJobs : Nat := 16

/-- The states of a job. -/
inductive JobState
  | UNDEF
  | FG
  | BG
  | ST
  deriving DecidableEq

/-- `struct job_t` -/
structure Job where
  pid : Int
  jid : Int
  state : JobState
  cmdline : List UInt8
  deriving DecidableEq

/-- An index into `jobs`. -/
abbrev Slot := Fin maxJobs

/-- `jobs` and `nextjid`. -/
structure Table where
  jobs : Slot → Job
  nextjid : Int

/-- What an `int` keeps of a number. -/
def int32 (x : Int) : Int := x.bmod 4294967296

theorem int32_of_lt {x : Int} (h0 : 0 ≤ x) (h : x < 2147483648) : int32 x = x := by
  unfold int32
  rw [Int.bmod_eq_of_le] <;> omega

/-- What `clearjob` leaves in a slot. -/
def clearjob : Job := ⟨0, 0, .UNDEF, []⟩

/-- The table after `initjobs`. -/
def initjobs : Table := ⟨fun _ => clearjob, 1⟩

namespace Table

variable (t : Table)

/-- The table with `j` in slot `i`. -/
def set (i : Slot) (j : Job) : Table := { t with jobs := Function.update t.jobs i j }

/-- The loop of `maxjob`, with the largest job ID so far. -/
def maxjobFrom (best : Option Slot) (max : Int) : List Slot → Option Slot
  | [] => best
  | i :: rest =>
    if (t.jobs i).jid > max then maxjobFrom (some i) (t.jobs i).jid rest
    else maxjobFrom best max rest

/-- `maxjob`: the slot with the largest job ID. -/
def maxjob : Option Slot := t.maxjobFrom none 0 (List.finRange maxJobs)

/-- The largest job ID, zero without a job. -/
def maxJid : Int :=
  match t.maxjob with
  | none => 0
  | some m => (t.jobs m).jid

/-- `getjobfg`: the first slot in the foreground. -/
def getjobfg : Option Slot := (List.finRange maxJobs).find? fun i => (t.jobs i).state = .FG

/-- `getjobpid`. A `pid` of zero finds a free slot. -/
def getjobpid (pid : Int) : Option Slot :=
  if pid < 0 then none else (List.finRange maxJobs).find? fun i => (t.jobs i).pid = pid

/-- `getjobjid`. -/
def getjobjid (jid : Int) : Option Slot :=
  if jid < 1 then none else (List.finRange maxJobs).find? fun i => (t.jobs i).jid = jid

/-- `addjob`: the slot, if there is a free one. -/
def addjob (pid : Int) (state : JobState) (cmdline : List UInt8) : Option Slot × Table :=
  match t.getjobpid 0 with
  | none => (none, t)
  | some i =>
    let nextjid := int32 (t.nextjid + 1)
    (some i, { jobs := Function.update t.jobs i ⟨pid, t.nextjid, state, cmdline⟩
               nextjid := if nextjid > maxJobs then 1 else nextjid })

/-- `deletejob` -/
def deletejob (i : Slot) : Table :=
  let t := t.set i clearjob
  { t with nextjid := match t.maxjob with
      | none => 1
      | some m => int32 ((t.jobs m).jid + 1) }

end Table

/-! ## Searches -/

section

variable {t : Table} {i : Slot} {pid jid : Int}

theorem getjobpid_some (h : t.getjobpid pid = some i) : (t.jobs i).pid = pid := by
  unfold Table.getjobpid at h
  split at h
  · cases h
  · simpa using List.find?_some h

theorem getjobpid_none (h0 : 0 ≤ pid) (h : t.getjobpid pid = none) (i : Slot) :
    (t.jobs i).pid ≠ pid := by
  unfold Table.getjobpid at h
  rw [if_neg (by omega)] at h
  simpa using List.find?_eq_none.mp h i (List.mem_finRange i)

theorem getjobjid_some (h : t.getjobjid jid = some i) : 1 ≤ jid ∧ (t.jobs i).jid = jid := by
  unfold Table.getjobjid at h
  split at h
  · cases h
  · exact ⟨by omega, by simpa using List.find?_some h⟩

theorem getjobjid_none (h1 : 1 ≤ jid) (h : t.getjobjid jid = none) (i : Slot) :
    (t.jobs i).jid ≠ jid := by
  unfold Table.getjobjid at h
  rw [if_neg (by omega)] at h
  simpa using List.find?_eq_none.mp h i (List.mem_finRange i)

/-- The loop of `maxjob` ends with the largest ID of what it has seen. -/
theorem maxjobFrom_max {best : Option Slot} {max : Int} {l : List Slot}
    (hb : ∀ m, best = some m → (t.jobs m).jid = max) (hn : best = none → max = 0) :
    (∀ m, t.maxjobFrom best max l = some m →
      max ≤ (t.jobs m).jid ∧ ∀ i ∈ l, (t.jobs i).jid ≤ (t.jobs m).jid) ∧
    (t.maxjobFrom best max l = none → best = none ∧ ∀ i ∈ l, (t.jobs i).jid ≤ 0) := by
  induction l generalizing best max with
  | nil => exact ⟨fun m hm => ⟨(hb m hm).ge, by simp⟩, fun hm => ⟨hm, by simp⟩⟩
  | cons i l ih =>
    rw [Table.maxjobFrom]
    split
    next hlt =>
      have hb' : ∀ m, some i = some m → (t.jobs m).jid = (t.jobs i).jid :=
        fun m hm => by rw [Option.some.inj hm]
      have hi := ih hb' (fun hm => by cases hm)
      refine ⟨?_, fun hm => absurd (hi.2 hm).1 (by simp)⟩
      intro m hm
      have hm := hi.1 m hm
      refine ⟨by omega, ?_⟩
      intro j hj
      cases hj with
      | head => exact hm.1
      | tail _ hj => exact hm.2 j hj
    next hle =>
      have hi := ih hb hn
      constructor
      · intro m hm
        have hm := hi.1 m hm
        refine ⟨hm.1, ?_⟩
        intro j hj
        cases hj with
        | head => omega
        | tail _ hj => exact hm.2 j hj
      · intro hm
        have hm := hi.2 hm
        have h0 := hn hm.1
        refine ⟨hm.1, ?_⟩
        intro j hj
        cases hj with
        | head => omega
        | tail _ hj => exact hm.2 j hj

theorem maxjob_some {m : Slot} (h : t.maxjob = some m) :
    0 ≤ (t.jobs m).jid ∧ ∀ i, (t.jobs i).jid ≤ (t.jobs m).jid := by
  have hm := (maxjobFrom_max (fun _ hm => by cases hm) fun _ => rfl).1 m h
  exact ⟨hm.1, fun i => hm.2 i (List.mem_finRange i)⟩

theorem maxjob_none (h : t.maxjob = none) (i : Slot) : (t.jobs i).jid ≤ 0 :=
  ((maxjobFrom_max (fun _ hm => by cases hm) fun _ => rfl).2 h).2 i (List.mem_finRange i)

theorem jid_le_maxJid (t : Table) (i : Slot) : 0 ≤ t.maxJid ∧ (t.jobs i).jid ≤ t.maxJid := by
  unfold Table.maxJid
  cases hm : t.maxjob with
  | none => exact ⟨Int.le_refl 0, maxjob_none hm i⟩
  | some m => exact ⟨(maxjob_some hm).1, (maxjob_some hm).2 i⟩

theorem maxJid_le {n : Int} (h0 : 0 ≤ n) (h : ∀ i, (t.jobs i).jid ≤ n) : t.maxJid ≤ n := by
  unfold Table.maxJid
  cases t.maxjob with
  | none => exact h0
  | some m => exact h m

end

/-! ## What the two calls do -/

section

variable {t : Table}

/-- A job is added to a free slot, or the table is full. -/
theorem addjob_cases (t : Table) (pid : Int) (state : JobState) (cmdline : List UInt8) :
    ((∀ i, (t.jobs i).pid ≠ 0) ∧ t.addjob pid state cmdline = (none, t)) ∨
    ∃ i, (t.jobs i).pid = 0 ∧ (t.addjob pid state cmdline).1 = some i ∧
      (t.addjob pid state cmdline).2.jobs =
        Function.update t.jobs i ⟨pid, t.nextjid, state, cmdline⟩ := by
  unfold Table.addjob
  cases hg : t.getjobpid 0 with
  | none => exact .inl ⟨getjobpid_none (Int.le_refl 0) hg, rfl⟩
  | some i => exact .inr ⟨i, getjobpid_some hg, rfl, rfl⟩

/-- A job behind the call was there before it, or it is the new one. -/
theorem addjob_old_or_new (t : Table) (pid : Int) (state : JobState) (cmdline : List UInt8)
    (i : Slot) :
    (t.addjob pid state cmdline).2.jobs i = t.jobs i ∨
      ((t.addjob pid state cmdline).2.jobs i).pid = pid ∧
        ((t.addjob pid state cmdline).2.jobs i).state = state := by
  cases addjob_cases t pid state cmdline with
  | inl full =>
    rw [full.2]
    exact .inl rfl
  | inr room =>
    obtain ⟨k, -, -, hj⟩ := room
    rw [hj]
    by_cases hik : i = k
    · rw [hik, Function.update_self]
      exact .inr ⟨rfl, rfl⟩
    · exact .inl (Function.update_of_ne hik _ _)

/-- There is one new job at most. -/
theorem addjob_one {t : Table} {pid : Int} (h : ∀ i, (t.jobs i).pid ≠ pid) (state : JobState)
    (cmdline : List UInt8) {i k : Slot} (hi : ((t.addjob pid state cmdline).2.jobs i).pid = pid)
    (hk : ((t.addjob pid state cmdline).2.jobs k).pid = pid) : i = k := by
  cases addjob_cases t pid state cmdline with
  | inl full =>
    rw [full.2] at hi
    exact absurd hi (h i)
  | inr room =>
    obtain ⟨m, -, -, hj⟩ := room
    have hm : ∀ j, ((t.addjob pid state cmdline).2.jobs j).pid = pid → j = m := by
      intro j hjp
      by_contra hjm
      rw [hj, Function.update_of_ne hjm] at hjp
      exact h j hjp
    exact (hm i hi).trans (hm k hk).symm

/-- `nextjid` counts up, and wraps at `MAXJOBS`. -/
theorem addjob_nextjid {t : Table} {pid : Int} {state : JobState} {cmdline : List UInt8} {i : Slot}
    (h : (t.addjob pid state cmdline).1 = some i) :
    (t.addjob pid state cmdline).2.nextjid =
      if int32 (t.nextjid + 1) > maxJobs then 1 else int32 (t.nextjid + 1) := by
  unfold Table.addjob at h ⊢
  cases hg : t.getjobpid 0 with
  | none =>
    rw [hg] at h
    cases h
  | some k => rfl

theorem deletejob_jobs (t : Table) (i : Slot) :
    (t.deletejob i).jobs = Function.update t.jobs i clearjob := rfl

theorem maxjobFrom_congr {t t' : Table} (h : t.jobs = t'.jobs) (best : Option Slot) (max : Int)
    (l : List Slot) : t.maxjobFrom best max l = t'.maxjobFrom best max l := by
  induction l generalizing best max with
  | nil => rfl
  | cons i l ih =>
    rw [Table.maxjobFrom, Table.maxjobFrom, h, ih, ih]

/-- `nextjid` goes behind the largest ID that is left. -/
theorem deletejob_nextjid (t : Table) (i : Slot) :
    (t.deletejob i).nextjid = int32 ((t.deletejob i).maxJid + 1) := by
  have hm : (t.deletejob i).maxjob = (t.set i clearjob).maxjob :=
    maxjobFrom_congr (deletejob_jobs t i) _ _ _
  unfold Table.maxJid
  rw [hm]
  unfold Table.deletejob
  dsimp only
  cases (t.set i clearjob).maxjob with
  | none => rfl
  | some m => rfl

end

end Csapp.Shell
