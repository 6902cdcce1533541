import Mathlib

/-!
# Objects shared by threads

A transition system whose steps may show a label. The labels of a run are all a
client sees of it; one system implements another when whatever is seen of the
first could have been seen of the second, and a forward simulation shows that.

An object that threads share is specified by the atomic object of its
operations: there the whole of an operation is one silent step of its thread,
somewhere between the call and the return. To implement the atomic object is to
be linearizable.

Nothing here knows what the threads share, or what the operations are.
-/

namespace Csapp

section

variable {σ τ lab : Type _} {step : σ → Option lab → σ → Prop} {step' : τ → Option lab → τ → Prop}

/-- A run, and the labels seen on the way. -/
inductive Trace (step : σ → Option lab → σ → Prop) : σ → List lab → σ → Prop
  | done {s : σ} : Trace step s [] s
  | silent {s t u : σ} {tr : List lab} : step s none t → Trace step t tr u → Trace step s tr u
  | seen {s t u : σ} {a : lab} {tr : List lab} :
      step s (some a) t → Trace step t tr u → Trace step s (a :: tr) u

theorem Trace.trans {s t u : σ} {tr tr' : List lab} (h : Trace step s tr t)
    (h' : Trace step t tr' u) : Trace step s (tr ++ tr') u := by
  induction h with
  | done => exact h'
  | silent hs _ ih => exact .silent hs (ih h')
  | seen hs _ ih => exact .seen hs (ih h')

/-- What every step keeps holds at the end of every run. -/
theorem Trace.keeps {I : σ → Prop} (keep : ∀ s a t, I s → step s a t → I t) {s t : σ}
    {tr : List lab} (h : Trace step s tr t) (hI : I s) : I t := by
  induction h with
  | done => exact hI
  | silent hs _ ih => exact ih (keep _ _ _ hI hs)
  | seen hs _ ih => exact ih (keep _ _ _ hI hs)

/-- What is seen of some run from `s`. -/
def Shows (step : σ → Option lab → σ → Prop) (s : σ) (tr : List lab) : Prop :=
  ∃ t, Trace step s tr t

theorem Shows.done {s : σ} : Shows step s [] := ⟨s, .done⟩

theorem Shows.silent {s t : σ} {tr : List lab} (hs : step s none t) (h : Shows step t tr) :
    Shows step s tr := by
  obtain ⟨u, hu⟩ := h
  exact ⟨u, .silent hs hu⟩

theorem Shows.seen {s t : σ} {a : lab} {tr : List lab} (hs : step s (some a) t)
    (h : Shows step t tr) : Shows step s (a :: tr) := by
  obtain ⟨u, hu⟩ := h
  exact ⟨u, .seen hs hu⟩

/-- Each step of the one system is matched by a run of the other that shows the same. -/
def Simulates (R : σ → τ → Prop) (step : σ → Option lab → σ → Prop)
    (step' : τ → Option lab → τ → Prop) : Prop :=
  ∀ s s' a t, R s s' → step s a t → ∃ t', Trace step' s' a.toList t' ∧ R t t'

theorem Simulates.trace {R : σ → τ → Prop} (sim : Simulates R step step') {s t : σ} {s' : τ}
    {tr : List lab} (hR : R s s') (h : Trace step s tr t) :
    ∃ t', Trace step' s' tr t' ∧ R t t' := by
  induction h generalizing s' with
  | done => exact ⟨s', .done, hR⟩
  | silent hs _ ih =>
      obtain ⟨u', hu, hRu⟩ := sim _ _ _ _ hR hs
      obtain ⟨t', ht, hRt⟩ := ih hRu
      exact ⟨t', hu.trans ht, hRt⟩
  | seen hs _ ih =>
      obtain ⟨u', hu, hRu⟩ := sim _ _ _ _ hR hs
      obtain ⟨t', ht, hRt⟩ := ih hRu
      exact ⟨t', hu.trans ht, hRt⟩

end

/-! ## Calls -/

/-- What a client sees: the calls of each thread and what they return. -/
inductive CallEvent (ι Op Res : Type _)
  | call (i : ι) (op : Op)
  | ret (i : ι) (r : Res)

/-- A thread of the atomic object: between calls, called but without effect so far, or
past the effect and with the result to be returned. -/
inductive Phase (Op Res : Type _)
  | idle
  | called (op : Op)
  | done (r : Res)

variable {σ ι Op Res : Type _} [DecidableEq ι]

/-- The atomic object of the operations `act`, for clients that call only what is allowed. -/
inductive AtomicStep (allowed : Op → Prop) (act : σ → Op → σ → Res → Prop) :
    σ × (ι → Phase Op Res) → Option (CallEvent ι Op Res) → σ × (ι → Phase Op Res) → Prop
  | call {s : σ} {ph : ι → Phase Op Res} {i : ι} {op : Op} : ph i = .idle → allowed op →
      AtomicStep allowed act (s, ph) (some (.call i op)) (s, Function.update ph i (.called op))
  | act {s s' : σ} {ph : ι → Phase Op Res} {i : ι} {op : Op} {r : Res} : ph i = .called op →
      act s op s' r → AtomicStep allowed act (s, ph) none (s', Function.update ph i (.done r))
  | ret {s : σ} {ph : ι → Phase Op Res} {i : ι} {r : Res} : ph i = .done r →
      AtomicStep allowed act (s, ph) (some (.ret i r)) (s, Function.update ph i .idle)

/-- What is allowed stays so until it takes effect, so an invariant of the operations
is one of the atomic object. -/
theorem AtomicStep.keeps {allowed : Op → Prop} {act : σ → Op → σ → Res → Prop} {I : σ → Prop}
    (keep : ∀ s op s' r, I s → allowed op → act s op s' r → I s')
    {x y : σ × (ι → Phase Op Res)} {a : Option (CallEvent ι Op Res)}
    (hx : I x.1 ∧ ∀ i op, x.2 i = .called op → allowed op) (h : AtomicStep allowed act x a y) :
    I y.1 ∧ ∀ i op, y.2 i = .called op → allowed op := by
  obtain ⟨hI, hal⟩ := hx
  have others : ∀ {ph : ι → Phase Op Res} {i : ι} {p : Phase Op Res},
      (∀ j op, ph j = .called op → allowed op) → (∀ op, p = .called op → allowed op) →
      ∀ j op, Function.update ph i p j = .called op → allowed op := by
    intro ph i p hph hp j op hj
    by_cases hji : j = i
    · rw [hji, Function.update_self] at hj
      exact hp op hj
    · rw [Function.update_of_ne hji] at hj
      exact hph j op hj
  cases h with
  | call _ hop =>
      refine ⟨hI, others hal ?_⟩
      intro op h
      cases h
      exact hop
  | act hi hact =>
      refine ⟨keep _ _ _ _ hI (hal _ _ hi) hact, others hal ?_⟩
      intro op h
      cases h
  | ret _ =>
      refine ⟨hI, others hal ?_⟩
      intro op h
      cases h

end Csapp
