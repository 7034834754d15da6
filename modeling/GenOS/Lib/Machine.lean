import Mathlib.Logic.Basic

/-!
# Runs of a labelled transition system

A system is a relation `step s a t`. A `Run` is a finite sequence of its steps, with the labels in
order; an invariant of the steps is an invariant of the runs.
-/

namespace GenOS.Machine

variable {σ α : Type*} {step step' : σ → α → σ → Prop} {s t u : σ} {a : α} {l l' : List α}

/-- The runs from `s`, by their labels and their last state. -/
inductive Run (step : σ → α → σ → Prop) (s : σ) : List α → σ → Prop
  | nil : Run step s [] s
  | snoc {l : List α} {t u : σ} {a : α} (h : Run step s l t) (ha : step t a u) :
    Run step s (l ++ [a]) u

/-- What holds at the start and survives each step holds at the end. -/
theorem Run.invariant {I : σ → Prop} (h : Run step s l t) (h₀ : I s)
    (hstep : ∀ s a t, I s → step s a t → I t) : I t := by
  induction h with
  | nil => exact h₀
  | snoc _ ha ih => exact hstep _ _ _ ih ha

/-- A run of fewer steps is a run of more. -/
theorem Run.mono (h : Run step s l t) (hs : ∀ s a t, step s a t → step' s a t) :
    Run step' s l t := by
  induction h with
  | nil => exact .nil
  | snoc _ ha ih => exact .snoc ih (hs _ _ _ ha)

/-- One step is a run. -/
theorem Run.single (ha : step s a t) : Run step s [a] t := .snoc .nil ha

/-- Runs compose. -/
theorem Run.append (h : Run step s l t) (h' : Run step t l' u) : Run step s (l ++ l') u := by
  induction h' with
  | nil => simpa using h
  | snoc _ ha ih => simpa [← List.append_assoc] using ih.snoc ha

/-- What a run reaches from after a step, it reaches from before. -/
theorem Run.exists_cons {Q : σ → Prop} (ha : step s a t) (h : ∃ l u, Run step t l u ∧ Q u) :
    ∃ l u, Run step s l u ∧ Q u := by
  obtain ⟨l, u, hr, hq⟩ := h
  exact ⟨_, u, (Run.single ha).append hr, hq⟩

/-- The steps at which `ok` holds. -/
def Restrict (step : σ → α → σ → Prop) (ok : σ → α → Prop) (s : σ) (a : α) (t : σ) : Prop :=
  step s a t ∧ ok s a

end GenOS.Machine
