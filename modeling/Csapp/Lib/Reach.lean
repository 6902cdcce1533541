import Mathlib

/-!
# Getting somewhere

Total correctness of a machine that takes one step after another: from `s` the
machine gets to a state where `Q` holds. The rules are those of a Hoare logic
read forwards, with the postcondition of one part the precondition of the next,
and a loop rule that asks for a variant.

Nothing here knows what a step is. A machine that can fault takes part through
a step relation that has no faulting step in it.
-/

namespace Csapp

variable {σ : Type _} {step : σ → σ → Prop} {s : σ} {P Q : σ → Prop}

/-- Some run from `s` ends in a state where `Q` holds. -/
def Reaches (step : σ → σ → Prop) (s : σ) (Q : σ → Prop) : Prop :=
  ∃ t, Relation.ReflTransGen step s t ∧ Q t

theorem Reaches.here (h : Q s) : Reaches step s Q :=
  ⟨s, .refl, h⟩

theorem Reaches.one {t : σ} (h : step s t) (hQ : Q t) : Reaches step s Q :=
  ⟨t, .single h, hQ⟩

theorem Reaches.andThen (h : Reaches step s P) (k : ∀ t, P t → Reaches step t Q) :
    Reaches step s Q := by
  obtain ⟨t, hst, hP⟩ := h
  obtain ⟨u, htu, hQ⟩ := k t hP
  exact ⟨u, hst.trans htu, hQ⟩

theorem Reaches.mono (h : Reaches step s P) (k : ∀ t, P t → Q t) : Reaches step s Q :=
  h.andThen fun t hP => .here (k t hP)

/-- What holds of steps of one kind holds of steps of a wider kind. -/
theorem Reaches.weaken {step' : σ → σ → Prop} (h : Reaches step s Q)
    (hsub : ∀ s t, step s t → step' s t) : Reaches step' s Q := by
  obtain ⟨t, hst, hQ⟩ := h
  exact ⟨t, Relation.ReflTransGen.mono hsub _ _ hst, hQ⟩

/-- A deterministic machine that gets to its end by steps of a narrower kind takes no
others on the way. -/
theorem visited {step' : σ → σ → Prop} {u t : σ} (hdet : Relator.RightUnique step)
    (hsub : ∀ s t, step' s t → step s t) (h : Relation.ReflTransGen step' s u)
    (hend : ∀ v, ¬step u v) (ht : Relation.ReflTransGen step s t) :
    t = u ∨ ∃ t', step' t t' := by
  induction h using Relation.ReflTransGen.head_induction_on with
  | refl =>
      cases ht.cases_head with
      | inl he => exact .inl he.symm
      | inr hstep =>
          obtain ⟨v, hv, -⟩ := hstep
          exact absurd hv (hend v)
  | head hstep' _ ih =>
      cases ht.cases_head with
      | inl he => exact .inr ⟨_, he ▸ hstep'⟩
      | inr hstep =>
          obtain ⟨v, hv, hvt⟩ := hstep
          rw [hdet (hsub _ _ hstep') hv] at ih
          exact ih hvt

/-- The loop rule: each round leaves the loop, or gets back to the invariant
with a smaller variant. -/
theorem Reaches.loop {I : σ → Prop} (v : σ → Nat)
    (round : ∀ s, I s → Reaches step s fun t => Q t ∨ I t ∧ v t < v s) :
    ∀ s, I s → Reaches step s Q := by
  intro s
  induction hn : v s using Nat.strong_induction_on generalizing s with
  | _ n ih =>
      intro hI
      refine (round s hI).andThen fun t ht => ?_
      cases ht with
      | inl hQ => exact .here hQ
      | inr ht => exact ih (v t) (hn ▸ ht.2) t rfl ht.1

end Csapp
