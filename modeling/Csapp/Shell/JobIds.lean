import Mathlib
import Csapp.Shell.Jobs

/-!
# Job IDs

`addjob` hands out `nextjid` and counts it up; past `MAXJOBS` the count starts again
from 1. `deletejob` sets it behind the largest ID it leaves, `M`. So what the calls of
`addjob` after a deletion hand out is known from `M` and their number: they count up
from `M + 1` until the count wraps, and then from 1 on. Before the wrap the IDs are
new. Behind it they come round to the jobs that the deletion has left.
-/

namespace Csapp.Shell

/-! ## Distinct IDs -/

/-- Live jobs have distinct positive IDs. -/
structure Identified (t : Table) : Prop where
  pos : ∀ i, (t.jobs i).pid ≠ 0 → 1 ≤ (t.jobs i).jid
  inj : ∀ i j, (t.jobs i).pid ≠ 0 → (t.jobs j).pid ≠ 0 → (t.jobs i).jid = (t.jobs j).jid → i = j

/-- And a free slot has ID zero. -/
structure Distinct (t : Table) : Prop extends Identified t where
  free : ∀ i, (t.jobs i).pid = 0 → (t.jobs i).jid = 0

/-- The next ID is one that `addjob` may hand out. -/
def Unused (t : Table) : Prop :=
  (∃ i, (t.jobs i).pid = 0) → 1 ≤ t.nextjid ∧ ∀ i, (t.jobs i).pid ≠ 0 → (t.jobs i).jid ≠ t.nextjid

theorem Distinct.init : Distinct initjobs where
  pos := fun _ h => absurd rfl h
  inj := fun _ _ h => absurd rfl h
  free := fun _ _ => rfl

theorem Distinct.delete {t : Table} (h : Distinct t) (i : Slot) : Distinct (t.deletejob i) where
  pos k hk := by
    rw [deletejob_jobs] at hk ⊢
    by_cases hki : k = i
    · subst hki
      simp [clearjob] at hk
    · rw [Function.update_of_ne hki] at hk ⊢
      exact h.pos k hk
  inj k m hk hm he := by
    rw [deletejob_jobs] at hk hm he
    by_cases hki : k = i
    · subst hki
      simp [clearjob] at hk
    by_cases hmi : m = i
    · subst hmi
      simp [clearjob] at hm
    rw [Function.update_of_ne hki] at hk he
    rw [Function.update_of_ne hmi] at hm he
    exact h.inj k m hk hm he
  free k hk := by
    rw [deletejob_jobs] at hk ⊢
    by_cases hki : k = i
    · subst hki
      simp [clearjob]
    · rw [Function.update_of_ne hki] at hk ⊢
      exact h.free k hk

/-- What `addjob` hands out was not in use, if IDs still identify jobs. -/
theorem unused_of_identified {t : Table} {pid : Int} (hp : pid ≠ 0) {state : JobState}
    {cmdline : List UInt8} (hd : Identified (t.addjob pid state cmdline).2) : Unused t := by
  cases addjob_cases t pid state cmdline with
  | inl full => exact fun hf => hf.elim fun i hi => absurd hi (full.1 i)
  | inr room =>
    obtain ⟨i, hi, -, hj⟩ := room
    intro _
    have hpos := hd.pos i
    rw [hj] at hpos
    simp only [Function.update_self] at hpos
    refine ⟨hpos hp, ?_⟩
    intro k hk he
    have hki : k ≠ i := by
      intro hki
      exact hk (hki ▸ hi)
    have hinj := hd.inj k i
    rw [hj] at hinj
    simp only [Function.update_self, Function.update_of_ne hki] at hinj
    exact hki (hinj hk hp he)

theorem Distinct.add {t : Table} (h : Distinct t) {pid : Int} (hp : pid ≠ 0) (hu : Unused t)
    (state : JobState) (cmdline : List UInt8) : Distinct (t.addjob pid state cmdline).2 := by
  cases addjob_cases t pid state cmdline with
  | inl full =>
    rw [full.2]
    exact h
  | inr room =>
    obtain ⟨i, hi, -, hj⟩ := room
    have hu := hu ⟨i, hi⟩
    refine ⟨⟨?_, ?_⟩, ?_⟩
    · intro k hk
      rw [hj] at hk ⊢
      by_cases hki : k = i
      · subst hki
        rw [Function.update_self]
        exact hu.1
      · rw [Function.update_of_ne hki] at hk ⊢
        exact h.pos k hk
    · intro k m hk hm he
      rw [hj] at hk hm he
      by_cases hki : k = i
      · by_cases hmi : m = i
        · rw [hki, hmi]
        · subst hki
          rw [Function.update_of_ne hmi] at hm he
          rw [Function.update_self] at he
          exact absurd he.symm (hu.2 m hm)
      · rw [Function.update_of_ne hki] at hk he
        by_cases hmi : m = i
        · subst hmi
          rw [Function.update_self] at he
          exact absurd he (hu.2 k hk)
        · rw [Function.update_of_ne hmi] at hm he
          exact h.inj k m hk hm he
    · intro k hk
      rw [hj] at hk ⊢
      by_cases hki : k = i
      · subst hki
        rw [Function.update_self] at hk
        exact absurd hk hp
      · rw [Function.update_of_ne hki] at hk ⊢
        exact h.free k hk

/-- A job is found by its ID. -/
theorem Distinct.getjobjid {t : Table} (h : Distinct t) {i : Slot} (hi : (t.jobs i).pid ≠ 0) :
    t.getjobjid (t.jobs i).jid = some i := by
  have hpos := h.pos i hi
  cases hg : t.getjobjid (t.jobs i).jid with
  | none => exact absurd rfl (getjobjid_none hpos hg i)
  | some k =>
    have hk := getjobjid_some hg
    have hkp : (t.jobs k).pid ≠ 0 := by
      intro h0
      have hz := h.free k h0
      omega
    rw [h.inj k i hkp hi hk.2]

/-! ## What the calls after a deletion hand out -/

/-- How many calls count on from `M` before `nextjid` passes `MAXJOBS` and wraps. The
first one does in any case. -/
def turns (M : Int) : Nat := max 1 (maxJobs - M).toNat

/-- The ID that call number `a` behind the deletion hands out. -/
def handed (M : Int) (a : Nat) : Int := if a < turns M then M + 1 + a else a - turns M + 1

/-- Call number `a` behind a deletion that has left `t₀`: the largest ID has room above it
in an `int`, and if it is call `n` behind the wrap, no job of `t₀` has the ID `n`. -/
structure InTurn (t₀ : Table) (a : Nat) : Prop where
  int : t₀.maxJid + min a 1 < 2147483647
  clear : turns t₀.maxJid ≤ a → ∀ i, (t₀.jobs i).pid ≠ 0 →
    (t₀.jobs i).jid ≠ a - turns t₀.maxJid + 1

section

variable {M : Int} {a : Nat}

theorem handed_pos (hM : 0 ≤ M) : 1 ≤ handed M a := by
  unfold handed
  split <;> omega

theorem handed_wrapped (h : turns M ≤ a) : handed M a = a - turns M + 1 :=
  if_neg (Nat.not_lt.mpr h)

/-- Sixteen calls are needed to come round to an ID of their own. -/
theorem handed_ne {k : Nat} (hM : 0 ≤ M) (hk : k < a) (ha : a < 16) :
    handed M k ≠ handed M a := by
  unfold handed turns maxJobs
  split <;> split <;> omega

/-- The rule of `addjob`. -/
theorem handed_next (hM : 0 ≤ M) (hi : M + 1 < 2147483647) (ha : a < 16) :
    (if int32 (handed M a + 1) > maxJobs then 1 else int32 (handed M a + 1)) =
      handed M (a + 1) := by
  have hlow := handed_pos (a := a) hM
  have hhigh : handed M a + 1 < 2147483648 := by
    unfold handed turns maxJobs
    split <;> omega
  rw [int32_of_lt (by omega) hhigh]
  unfold handed turns maxJobs
  split <;> split <;> split <;> omega

end

/-- The live jobs. -/
def Table.live (t : Table) : Finset Slot := {i | (t.jobs i).pid ≠ 0}

theorem Table.mem_live {t : Table} {i : Slot} : i ∈ t.live ↔ (t.jobs i).pid ≠ 0 :=
  Finset.mem_filter_univ i

/-- The table `a` calls behind a deletion that has left `t₀`. -/
structure Since (t₀ : Table) (a : Nat) (t : Table) : Prop where
  distinct : Distinct t
  le : ∀ i, (t.jobs i).jid ≤ 2147483647
  start : t₀.maxJid ≤ 2147483647
  kept : ∀ i, (t₀.jobs i).pid ≠ 0 → t.jobs i = t₀.jobs i
  added : ∀ i, (t.jobs i).pid ≠ 0 → (t₀.jobs i).pid ≠ 0 ∨
    ∃ k, k < a ∧ (t.jobs i).jid = handed t₀.maxJid k
  count : a ≤ t.live.card
  next : t₀.maxJid + min a 1 < 2147483647 → t.nextjid = handed t₀.maxJid a
  past : 2147483647 ≤ t₀.maxJid + min a 1 → t.nextjid < 1
  nextLe : t.nextjid ≤ 2147483647

theorem int32_le (x : Int) : int32 x ≤ 2147483647 := by
  unfold int32
  have := Int.bmod_lt (x := x) (m := 4294967296) (by omega)
  omega

theorem int32_past : int32 2147483648 < 1 := by decide

theorem Since.init : Since initjobs 0 initjobs where
  distinct := Distinct.init
  le _ := by
    show (0 : Int) ≤ _
    omega
  start := maxJid_le (by omega) fun _ => by
    show (0 : Int) ≤ _
    omega
  kept _ _ := rfl
  added _ h := absurd rfl h
  count := Nat.zero_le _
  next _ := by decide
  past h := absurd h (by decide)
  nextLe := by decide

/-- The rule of `deletejob`. -/
theorem Since.delete {t₀ t : Table} {a : Nat} (h : Since t₀ a t) (i : Slot) :
    Since (t.deletejob i) 0 (t.deletejob i) := by
  have hle : ∀ k, ((t.deletejob i).jobs k).jid ≤ 2147483647 := by
    intro k
    rw [deletejob_jobs]
    by_cases hki : k = i
    · rw [hki, Function.update_self]
      show (0 : Int) ≤ _
      omega
    · rw [Function.update_of_ne hki]
      exact h.le k
  have hmax := maxJid_le (by omega) hle
  have h0 := (jid_le_maxJid (t.deletejob i) i).1
  refine ⟨h.distinct.delete i, hle, hmax, fun _ _ => rfl, fun _ hk => .inl hk, Nat.zero_le _,
    fun hlt => ?_, fun hge => ?_, ?_⟩
  · rw [deletejob_nextjid, int32_of_lt (by omega) (by omega)]
    unfold handed turns
    rw [if_pos (by omega)]
    omega
  · have heq : (t.deletejob i).maxJid + 1 = 2147483648 := by omega
    rw [deletejob_nextjid, heq]
    exact int32_past
  · rw [deletejob_nextjid]
    exact int32_le _

section

variable {t₀ t : Table} {a : Nat}

/-- With a slot to fill, fewer calls than slots have been. -/
theorem Since.lt (h : Since t₀ a t) (hf : ∃ i, (t.jobs i).pid = 0) : a < 16 := by
  obtain ⟨i, hi⟩ := hf
  have hlt : t.live.card < Fintype.card Slot :=
    Finset.card_lt_univ_of_notMem fun hm => Table.mem_live.mp hm hi
  have hc := h.count
  rw [Fintype.card_fin] at hlt
  unfold maxJobs at hlt
  omega

/-- The ID about to be handed out is one that `addjob` may, if the call is in turn. -/
theorem Since.unused_iff (h : Since t₀ a t) (hf : ∃ i, (t.jobs i).pid = 0) :
    Unused t ↔ InTurn t₀ a := by
  have ha := h.lt hf
  constructor
  · intro hu
    obtain ⟨hpos, hne⟩ := hu hf
    have hint : t₀.maxJid + min a 1 < 2147483647 := by
      by_contra hge
      have := h.past (by omega)
      omega
    refine ⟨hint, fun hw i hi => ?_⟩
    have hk := h.kept i hi
    have hn := hne i (by rwa [hk])
    rwa [hk, h.next hint, handed_wrapped hw] at hn
  · intro hin _
    have hnext := h.next hin.int
    obtain ⟨i, -⟩ := hf
    have h0 := (jid_le_maxJid t₀ i).1
    rw [hnext]
    refine ⟨handed_pos h0, fun k hk => ?_⟩
    rcases h.added k hk with hold | ⟨j, hj, hjid⟩
    · rw [h.kept k hold]
      by_cases hw : turns t₀.maxJid ≤ a
      · rw [handed_wrapped hw]
        exact hin.clear hw k hold
      · have hle := (jid_le_maxJid t₀ k).2
        unfold handed
        rw [if_pos (by omega)]
        omega
    · rw [hjid]
      exact handed_ne h0 hj ha

/-- One more call, in turn. -/
theorem Since.add (h : Since t₀ a t) {pid : Int} (hp : pid ≠ 0)
    (hf : ∃ i, (t.jobs i).pid = 0) (hin : InTurn t₀ a) (state : JobState)
    (cmdline : List UInt8) : Since t₀ (a + 1) (t.addjob pid state cmdline).2 := by
  have ha := h.lt hf
  have hd := h.distinct.add hp ((h.unused_iff hf).mpr hin) state cmdline
  have hnext := h.next hin.int
  have hint := hin.int
  obtain ⟨i₀, hi₀⟩ := hf
  have h0 := (jid_le_maxJid t₀ i₀).1
  rcases addjob_cases t pid state cmdline with full | ⟨i, hi, hsome, hj⟩
  · exact absurd hi₀ (full.1 i₀)
  have hn := addjob_nextjid hsome
  rw [hnext] at hn
  have hother : ∀ k, k ≠ i → (t.addjob pid state cmdline).2.jobs k = t.jobs k := fun k hk => by
    rw [hj, Function.update_of_ne hk]
  have hself : (t.addjob pid state cmdline).2.jobs i = ⟨pid, t.nextjid, state, cmdline⟩ := by
    rw [hj, Function.update_self]
  refine ⟨hd, fun k => ?_, h.start, fun k hk => ?_, fun k hk => ?_, ?_, fun hlt => ?_,
    fun hge => ?_, ?_⟩
  · by_cases hki : k = i
    · rw [hki, hself]
      exact h.nextLe
    · rw [hother k hki]
      exact h.le k
  · have hki : k ≠ i := by
      rintro rfl
      rw [h.kept k hk] at hi
      exact hk hi
    rw [hother k hki, h.kept k hk]
  · by_cases hki : k = i
    · refine .inr ⟨a, Nat.lt_succ_self a, ?_⟩
      rw [hki, hself]
      exact hnext
    · rw [hother k hki] at hk ⊢
      exact (h.added k hk).imp_right fun ⟨j, hj, hjid⟩ => ⟨j, Nat.lt_succ_of_lt hj, hjid⟩
  · have hnot : i ∉ t.live := fun hm => Table.mem_live.mp hm hi
    have hsub : insert i t.live ⊆ (t.addjob pid state cmdline).2.live := by
      intro k hk
      rw [Table.mem_live]
      rcases Finset.mem_insert.mp hk with rfl | hk
      · rw [hself]
        exact hp
      · rw [hother k fun hki => hnot (hki ▸ hk)]
        exact Table.mem_live.mp hk
    have hc := Finset.card_le_card hsub
    rw [Finset.card_insert_of_notMem hnot] at hc
    have := h.count
    omega
  · rw [hn]
    exact handed_next h0 (by omega) ha
  · -- the first call, behind the largest `int` but one
    have ha0 : a = 0 := by omega
    have hM : handed t₀.maxJid a + 1 = 2147483648 := by
      rw [ha0]
      unfold handed turns
      rw [if_pos (by omega)]
      omega
    rw [hn, hM, if_neg (by decide)]
    exact int32_past
  · rw [hn]
    have hle := int32_le (handed t₀.maxJid a + 1)
    split
    · omega
    · exact hle

end

/-! ## Runs -/

/-- The runs of `addjob` (for a new child) and `deletejob` (for a live job): the table that
the last deletion has left, the calls of `addjob` since then that have found a slot, and the
table now. Each of these calls meets the condition. -/
inductive Reach (C : Table → Nat → Prop) : Table → Nat → Table → Prop
  | init : Reach C initjobs 0 initjobs
  | full {t₀ t : Table} {a : Nat} {pid : Int} (state : JobState) (cmdline : List UInt8) :
      Reach C t₀ a t → 0 < pid → (∀ i, (t.jobs i).pid ≠ 0) →
      Reach C t₀ a (t.addjob pid state cmdline).2
  | add {t₀ t : Table} {a : Nat} {pid : Int} (state : JobState) (cmdline : List UInt8) :
      Reach C t₀ a t → 0 < pid → (∃ i, (t.jobs i).pid = 0) → C t₀ a →
      Reach C t₀ (a + 1) (t.addjob pid state cmdline).2
  | delete {t₀ t : Table} {a : Nat} {i : Slot} : Reach C t₀ a t → (t.jobs i).pid ≠ 0 →
      Reach C (t.deletejob i) 0 (t.deletejob i)

theorem Reach.since {t₀ t : Table} {a : Nat} (h : Reach InTurn t₀ a t) : Since t₀ a t := by
  induction h with
  | init => exact Since.init
  | @full t₀ t a pid state cmdline _ hp hfull ih =>
    cases addjob_cases t pid state cmdline with
    | inl full =>
      rw [full.2]
      exact ih
    | inr room =>
      obtain ⟨i, hi, -, -⟩ := room
      exact absurd hi (hfull i)
  | add state cmdline _ hp hf hin ih => exact ih.add (by omega) hf hin state cmdline
  | delete _ _ ih => exact ih.delete _

/-- While every call is in turn, IDs identify jobs; and a call out of turn ends it. -/
theorem reach_identified {t₀ t : Table} {a : Nat} (h : Reach InTurn t₀ a t) :
    Identified t ∧
    (∀ i, (t.jobs i).pid ≠ 0 → t.getjobjid (t.jobs i).jid = some i) ∧
    ∀ pid state cmdline, 0 < pid →
      (Identified (t.addjob pid state cmdline).2 ↔
        ((∃ i, (t.jobs i).pid = 0) → InTurn t₀ a)) := by
  have hs := h.since
  have hd := hs.distinct
  refine ⟨hd.toIdentified, fun i hi => hd.getjobjid hi, ?_⟩
  intro pid state cmdline hp
  have hp : pid ≠ 0 := by omega
  constructor
  · exact fun hid hf => (hs.unused_iff hf).mp (unused_of_identified hp hid)
  · intro hin
    refine (hd.add hp (fun hf => ?_) state cmdline).toIdentified
    exact (hs.unused_iff hf).mpr (hin hf) hf

/-- Calls of `addjob` one behind the other. -/
theorem reach_adds {C : Table → Nat → Prop} {t₀ : Table}
    (hC : ∀ a t, Reach C t₀ a t → (∃ i, (t.jobs i).pid = 0) → C t₀ a) (pids : List Nat)
    {t : Table} {a : Nat} (h : Reach C t₀ a t) :
    ∃ a', Reach C t₀ a' (pids.foldl (fun t pid => (t.addjob (pid + 1) .BG []).2) t) := by
  induction pids generalizing t a with
  | nil => exact ⟨a, h⟩
  | cons pid pids ih =>
    by_cases hf : ∃ i, (t.jobs i).pid = 0
    · exact ih (.add .BG [] h (by omega) hf (hC a t h hf))
    · exact ih (.full .BG [] h (by omega) fun i hi => hf ⟨i, hi⟩)

/-- Fifteen jobs, the first ends, two more: the ID wraps to that of the first. -/
theorem reach_identified_wrap :
    Identified ([15, 16].foldl (fun t pid => (t.addjob (pid + 1) .BG []).2)
      (((List.range 15).foldl (fun t pid => (t.addjob (pid + 1) .BG []).2) initjobs).deletejob
        ⟨0, by decide⟩)) := by
  have hfirst : ∀ a t, Reach InTurn initjobs a t → (∃ i, (t.jobs i).pid = 0) →
      InTurn initjobs a := by
    intro a t h hf
    have ha := h.since.lt hf
    have hM : initjobs.maxJid = 0 := by decide
    refine ⟨by omega, fun hw => ?_⟩
    rw [hM] at hw
    unfold turns maxJobs at hw
    omega
  obtain ⟨a, h₁⟩ := reach_adds hfirst (List.range 15) .init
  have h₂ := Reach.delete (i := ⟨0, by decide⟩) h₁ (by decide)
  have h₃ := Reach.add .BG [] h₂ (by decide : (0 : Int) < 16) ⟨⟨0, by decide⟩, by decide⟩
    ⟨by decide, fun hw => absurd hw (by decide)⟩
  have h₄ := Reach.add .BG [] h₃ (by decide : (0 : Int) < 17) ⟨⟨15, by decide⟩, by decide⟩
    ⟨by decide, fun _ => by decide⟩
  exact (reach_identified h₄).1

/-- Fifteen jobs, the second ends, two more: the ID wraps to that of the first, which has
stayed. -/
theorem reach_not_identified : ¬∀ t₀ a t, Reach (fun _ _ => True) t₀ a t → Identified t := by
  intro h
  obtain ⟨a, h₁⟩ := reach_adds (fun _ _ _ _ => trivial) (List.range 15)
    (.init : Reach (fun _ _ => True) initjobs 0 initjobs)
  have h₂ := Reach.delete (i := ⟨1, by decide⟩) h₁ (by decide)
  obtain ⟨a', h₃⟩ := reach_adds (fun _ _ _ _ => trivial) [15, 16] h₂
  have he := (h _ _ _ h₃).inj ⟨0, by decide⟩ ⟨15, by decide⟩ (by decide) (by decide) (by decide)
  exact absurd he (by decide)

end Csapp.Shell
