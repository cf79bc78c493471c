import Mathlib.Data.List.Basic

/-!
# Runs

A run performs operations one after the other. An operation may have no next
state, which ends the run. The states of a run are the one it starts from and
the one after every operation performed (`Runs.states`).

* `Runs.forall_states`: what holds at the start and is kept by every operation
  of the run holds in all its states.

Where every operation has a next state and an answer, a run comes to a state
(`Runs.after`) with answers on the way (`Runs.answers`).

* `Runs.Simulates`: a relation between the states of two machines is kept by every
  operation, and both answer it alike; then runs from related states come to related
  states (`Runs.Simulates.after`), with the same answers (`Runs.Simulates.answers`).
-/

namespace Runs

variable {σ ω : Type*} (step : ω → σ → Option σ)

/-- The states of the run of some operations. -/
def states : σ → List ω → List σ
  | s, [] => [s]
  | s, o :: os => s ::
    match step o s with
    | some s' => states s' os
    | none => []

variable {step}

theorem start_mem_states (s : σ) (os : List ω) : s ∈ states step s os := by
  cases os <;> exact List.mem_cons_self

/-- The states of a run after its first operation. -/
theorem states_cons {s s' : σ} {o : ω} (h : step o s = some s') (os : List ω) :
    states step s (o :: os) = s :: states step s' os := by
  rw [states, h]

/-- An invariant of the operations of a run holds in its states. -/
theorem forall_states {P : σ → Prop} {s : σ} {os : List ω} (hs : P s)
    (hstep : ∀ o ∈ os, ∀ s s', P s → step o s = some s' → P s') :
    ∀ s' ∈ states step s os, P s' := by
  induction os generalizing s with
  | nil =>
    intro s' hs'
    rwa [List.mem_singleton.1 hs']
  | cons o os ih =>
    intro s' hs'
    rcases List.mem_cons.1 hs' with rfl | hs'
    · exact hs
    · cases ho : step o s with
      -- The run ends here, and has no further state.
      | none => simp [ho] at hs'
      | some s₁ =>
        simp only [ho] at hs'
        exact ih (hstep o List.mem_cons_self s s₁ hs ho)
          (fun o' ho' => hstep o' (List.mem_cons_of_mem _ ho')) s' hs'

/-! ## Machines that answer -/

variable {τ ρ : Type*}

/-- The state after some operations. -/
def after (step : ω → σ → σ × ρ) : σ → List ω → σ
  | s, [] => s
  | s, o :: os => after step (step o s).1 os

/-- The answers to some operations, in order. -/
def answers (step : ω → σ → σ × ρ) : σ → List ω → List ρ
  | _, [] => []
  | s, o :: os => (step o s).2 :: answers step (step o s).1 os

/-- Every operation keeps the relation `R`, and is answered alike in related states. -/
def Simulates (R : σ → τ → Prop) (step : ω → σ → σ × ρ) (step' : ω → τ → τ × ρ) : Prop :=
  ∀ o s t, R s t → R (step o s).1 (step' o t).1 ∧ (step o s).2 = (step' o t).2

namespace Simulates

variable {R : σ → τ → Prop} {step : ω → σ → σ × ρ} {step' : ω → τ → τ × ρ}

/-- Runs from related states come to related states. -/
theorem after (h : Simulates R step step') {s : σ} {t : τ} (hR : R s t) (os : List ω) :
    R (after step s os) (after step' t os) := by
  induction os generalizing s t with
  | nil => exact hR
  | cons o os ih => exact ih (h o s t hR).1

/-- Runs from related states are answered alike. -/
theorem answers (h : Simulates R step step') {s : σ} {t : τ} (hR : R s t) (os : List ω) :
    answers step s os = answers step' t os := by
  induction os generalizing s t with
  | nil => rfl
  | cons o os ih =>
    obtain ⟨hR', hanswer⟩ := h o s t hR
    rw [Runs.answers, Runs.answers, hanswer, ih hR']

end Simulates

end Runs
