import Mathlib

/-!
# C loops over an `int`

`for (x = lo; x < hi; x += step)` with a counter that starts at zero or above.
A step of the counter past `INT_MAX` has no meaning in C, and the run has none
then, so the loop lives in `Option`; its body may be undefined for reasons of
its own.

Two rules. `forLoop_rule` is for runs that are defined: an invariant at each
counter value, established by the body under the bound the test gives.
`forLoop_visits` is for reading a run back: if the loop came out, the body came
out at every counter value the loop visits, in states between the first and
the last by any relation the body respects.
-/

namespace Csapp

variable {σ : Type _}

/-- The value of a non-negative `int` expression, if it is one. -/
def int (v : Nat) : Option Nat := if v < 2147483648 then some v else none

theorem int_eq_some {v w : Nat} : int v = some w ↔ v = w ∧ v < 2147483648 := by
  unfold int
  split
  · simp_all
  · next h =>
      simp only [reduceCtorEq, false_iff, not_and]
      intro _
      exact h

theorem int_of_lt {v : Nat} (h : v < 2147483648) : int v = some v :=
  if_pos h

/-- `n` turns, from `x` on. -/
def turns (step : Nat) (body : Nat → σ → Option σ) : Nat → Nat → σ → Option σ
  | 0, _, s => some s
  | n + 1, x, s => do
    let s ← body x s
    let x ← int (x + step)
    turns step body n x s

/-- `for (x = lo; x < hi; x += step) body`. -/
def forLoop (lo hi step : Nat) (body : Nat → σ → Option σ) (s : σ) : Option σ :=
  turns step body ((hi - lo + (step - 1)) / step) lo s

/-- Turns that keep the counter in range are a fold over its values. -/
theorem turns_eq_foldlM {step : Nat} {body : Nat → σ → Option σ} :
    ∀ {n lo : Nat} {s : σ}, lo + step * n < 2147483648 →
      turns step body n lo s = (List.range' lo n step).foldlM (fun s x => body x s) s := by
  intro n
  induction n with
  | zero => intro lo s _; rfl
  | succ n ih =>
      intro lo s h
      have hnext : lo + step + step * n < 2147483648 := by
        rw [Nat.mul_succ] at h
        omega
      rw [turns, List.range'_succ, List.foldlM_cons]
      refine Option.bind_congr fun t _ => ?_
      rw [int_of_lt (by omega)]
      exact ih hnext

section
variable {lo hi step : Nat} {body : Nat → σ → Option σ} {s : σ}

theorem forLoop_of_le (h : hi ≤ lo) : forLoop lo hi step body s = some s := by
  unfold forLoop
  rw [Nat.sub_eq_zero_of_le h, Nat.zero_add]
  cases step with
  | zero => rfl
  | succ n => rw [Nat.div_eq_of_lt (by omega), turns]

theorem forLoop_of_lt (hstep : 0 < step) (h : lo < hi) :
    forLoop lo hi step body s =
      (body lo s).bind fun s => (int (lo + step)).bind fun x => forLoop x hi step body s := by
  have hn : (hi - lo + (step - 1)) / step = (hi - (lo + step) + (step - 1)) / step + 1 := by
    rw [← Nat.add_div_right _ hstep]
    rcases Nat.lt_or_ge (hi - lo) step with hlt | hge
    · rw [Nat.div_eq_of_lt_le (by omega : 1 * step ≤ _) (by omega),
        Nat.div_eq_of_lt_le (by omega : 1 * step ≤ _) (by omega)]
    · congr 1
      omega
  unfold forLoop
  rw [hn, turns]
  refine Option.bind_congr fun s _ => Option.bind_congr fun x hx => ?_
  rw [(int_eq_some.mp hx).1]

/-- The rule of the loops that come out. -/
theorem forLoop_rule (hstep : 0 < step) {I : Nat → σ → Prop} (h : I lo s)
    (hbody : ∀ x s, I x s → x < hi →
      x + step < 2147483648 ∧ ∃ t, body x s = some t ∧ I (x + step) t) :
    ∃ t x, forLoop lo hi step body s = some t ∧ hi ≤ x ∧ I x t := by
  induction hn : hi - lo using Nat.strong_induction_on generalizing lo s with
  | _ n ih =>
      rcases Nat.lt_or_ge lo hi with hlt | hge
      · obtain ⟨hfit, t, ht, hI⟩ := hbody lo s h hlt
        obtain ⟨u, x, hu, hx⟩ := ih (hi - (lo + step)) (by omega) hI rfl
        refine ⟨u, x, ?_, hx⟩
        rw [forLoop_of_lt hstep hlt, ht, Option.bind_some, int_of_lt hfit, Option.bind_some]
        exact hu
      · exact ⟨s, lo, forLoop_of_le hge, hge, h⟩

/-- The same for a counter that meets its bound: the invariant holds there. -/
theorem forLoop_exact (hstep : 0 < step) {I : Nat → σ → Prop} (h : I lo s) (hd : step ∣ hi - lo)
    (hle : lo ≤ hi) (hfit : hi < 2147483648)
    (hbody : ∀ x s, lo ≤ x → x + step ≤ hi → step ∣ x - lo → I x s →
      ∃ t, body x s = some t ∧ I (x + step) t) :
    ∃ t, forLoop lo hi step body s = some t ∧ I hi t := by
  have hnext : ∀ x, lo ≤ x → x < hi → step ∣ x - lo → x + step ≤ hi := by
    intro x hx hlt hdx
    have h1 : step ∣ hi - lo - (x - lo) := Nat.dvd_sub hd hdx
    have h2 := Nat.le_of_dvd (by omega) h1
    omega
  obtain ⟨t, x, ht, hx, -, hle, -, hI⟩ := forLoop_rule hstep
    (I := fun x s => lo ≤ x ∧ x ≤ hi ∧ step ∣ x - lo ∧ I x s) ⟨Nat.le_refl _, hle, by simp, h⟩ (by
      intro x s ⟨hx, _, hdx, hI⟩ hlt
      have hn := hnext x hx hlt hdx
      obtain ⟨t, ht, hIt⟩ := hbody x s hx hn hdx hI
      refine ⟨by omega, t, ht, by omega, hn, ?_, hIt⟩
      rw [Nat.sub_add_comm hx]
      exact Nat.dvd_add hdx (Nat.dvd_refl step))
  obtain rfl := Nat.le_antisymm hle hx
  exact ⟨t, ht, hI⟩

/-- A loop whose body is always defined is a fold over its counter values. -/
theorem forLoop_eq_foldl {n : Nat} {f : Nat → σ → σ} (hstep : 0 < step) (hhi : hi = lo + step * n)
    (hfit : hi < 2147483648)
    (hbody : ∀ x ∈ List.range' lo n step, ∀ s, body x s = some (f x s)) :
    forLoop lo hi step body s = some ((List.range' lo n step).foldl (fun s x => f x s) s) := by
  have hcount : (hi - lo + (step - 1)) / step = n := by
    rw [hhi, Nat.add_sub_cancel_left, Nat.mul_add_div hstep, Nat.div_eq_of_lt (by omega),
      Nat.add_zero]
  have hlast : lo + step * n < 2147483648 := hhi ▸ hfit
  rw [forLoop, hcount, turns_eq_foldlM hlast]
  generalize List.range' lo n step = xs at hbody ⊢
  clear hcount hhi hlast
  induction xs generalizing s with
  | nil => rfl
  | cons x l ih =>
      rw [List.foldlM_cons, hbody x List.mem_cons_self]
      exact ih fun y hy => hbody y (List.mem_cons_of_mem x hy)

/-- A loop that came out is followed by another one whose body follows its body. -/
theorem forLoop_simulates {τ : Type _} {body' : Nat → τ → Option τ} {s' : τ} {t : σ}
    {R : σ → τ → Prop} (hstep : 0 < step) (h : forLoop lo hi step body s = some t) (hR : R s s')
    (hbody : ∀ k, lo + step * k < hi → ∀ {s t s'}, body (lo + step * k) s = some t → R s s' →
      ∃ t', body' (lo + step * k) s' = some t' ∧ R t t') :
    ∃ t', forLoop lo hi step body' s' = some t' ∧ R t t' := by
  induction hn : hi - lo using Nat.strong_induction_on generalizing lo s s' with
  | _ n ih =>
      rcases Nat.lt_or_ge lo hi with hlt | hge
      · rw [forLoop_of_lt hstep hlt] at h ⊢
        obtain ⟨u, hu, h⟩ := Option.bind_eq_some_iff.mp h
        obtain ⟨x, hx, h⟩ := Option.bind_eq_some_iff.mp h
        obtain ⟨u', hu', hRu⟩ := hbody 0 hlt hu hR
        have hnext : ∀ k, lo + step + step * k = lo + step * (k + 1) := by
          intro k
          ring
        obtain ⟨hx', -⟩ := int_eq_some.mp hx
        subst hx'
        obtain ⟨t', ht', hRt⟩ := ih (hi - (lo + step)) (by omega) h hRu (by
          intro k hk
          rw [hnext] at hk ⊢
          exact hbody (k + 1) hk) rfl
        have hfirst : body' lo s' = some u' := hu'
        refine ⟨t', ?_, hRt⟩
        rw [hfirst, Option.bind_some, hx, Option.bind_some]
        exact ht'
      · rw [forLoop_of_le hge] at h ⊢
        obtain rfl := Option.some.inj h
        exact ⟨s', rfl, hR⟩

/-- What a loop that came out did at one of its counter values. -/
theorem forLoop_visits (hstep : 0 < step) {R : σ → σ → Prop} (hrefl : ∀ s, R s s)
    (htrans : ∀ {s t u}, R s t → R t u → R s u)
    (hbody : ∀ {x s t}, body x s = some t → R s t) {t : σ}
    (h : forLoop lo hi step body s = some t) :
    R s t ∧ ∀ k, lo + step * k < hi → ∃ u v, R s u ∧ body (lo + step * k) u = some v ∧ R v t := by
  induction hn : hi - lo using Nat.strong_induction_on generalizing lo s with
  | _ n ih =>
      rcases Nat.lt_or_ge lo hi with hlt | hge
      · rw [forLoop_of_lt hstep hlt] at h
        obtain ⟨u, hu, h⟩ := Option.bind_eq_some_iff.mp h
        obtain ⟨x, hx, h⟩ := Option.bind_eq_some_iff.mp h
        obtain ⟨hx, -⟩ := int_eq_some.mp hx
        subst hx
        obtain ⟨hut, hvisit⟩ := ih (hi - (lo + step)) (by omega) h rfl
        refine ⟨htrans (hbody hu) hut, ?_⟩
        intro k hk
        cases k with
        | zero => exact ⟨s, u, hrefl s, hu, hut⟩
        | succ k =>
            have hx : lo + step * (k + 1) = lo + step + step * k := by ring
            rw [hx] at hk ⊢
            obtain ⟨v, w, hv, hw⟩ := hvisit k hk
            exact ⟨v, w, htrans (hbody hu) hv, hw⟩
      · rw [forLoop_of_le hge] at h
        obtain rfl := Option.some.inj h
        exact ⟨hrefl s, fun k hk => by omega⟩

end

end Csapp
