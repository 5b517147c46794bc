import Mathlib.Data.List.Basic
import Sbunix.Misc.Reach

/-!
# Runs with their labels, and simulations

A run keeps the list of its labels, so that two systems can be compared that take the same
steps.
-/

namespace Sbunix

variable {σ ℓ τ : Type*} {step step' : ℓ → σ → σ → Prop} {s t u : σ} {l : ℓ} {ls ls' : List ℓ}

/-- The runs from `s` to `t` with the labels `ls`. -/
inductive Run (step : ℓ → σ → σ → Prop) (s : σ) : List ℓ → σ → Prop
  | nil : Run step s [] s
  | snoc {ls : List ℓ} {t u : σ} (l : ℓ) : Run step s ls t → step l t u → Run step s (ls ++ [l]) u

namespace Run

theorem single (h : step l s t) : Run step s [l] t := .snoc l .nil h

theorem append (h : Run step s ls t) (h' : Run step t ls' u) : Run step s (ls ++ ls') u := by
  induction h' with
  | nil => rwa [List.append_nil]
  | snoc l _ hst ih =>
    rw [← List.append_assoc]
    exact .snoc l ih hst

/-- Every run of a smaller step relation is one of a larger. -/
theorem mono (hle : ∀ l s t, step l s t → step' l s t) (h : Run step s ls t) :
    Run step' s ls t := by
  induction h with
  | nil => exact .nil
  | snoc l _ hst ih => exact .snoc l ih (hle l _ _ hst)

/-- What every step keeps holds at the end of a run if it holds at its start. -/
theorem invariant {P : σ → Prop} (hstep : ∀ l s t, P s → step l s t → P t) (hs : P s)
    (h : Run step s ls t) : P t := by
  induction h with
  | nil => exact hs
  | snoc l _ hst ih => exact hstep l _ _ ih hst

/-- Runs of a reachable state reach states. -/
theorem reach {init : σ → Prop} (hs : Reach init step s) (h : Run step s ls t) :
    Reach init step t := by
  induction h with
  | nil => exact hs
  | snoc l _ hst ih => exact .step l ih hst

/-- The labels that a partial step function can run through. -/
theorem of_runLabels {next : ℓ → σ → Option σ} (h : runLabels next ls s = some t) :
    Run (fun l s t => next l s = some t) s ls t := by
  induction ls generalizing s with
  | nil =>
      obtain rfl := Option.some.inj h
      exact .nil
  | cons l ls ih =>
      obtain ⟨u, hu, hrest⟩ := Option.bind_eq_some_iff.mp h
      exact (single hu).append (ih hrest)

/-- A forward simulation: a relation that every step of the first system keeps together with a
step of the second under the same label is kept by whole runs. -/
theorem simulate {step₂ : ℓ → τ → τ → Prop} {R : σ → τ → Prop}
    (hstep : ∀ l s t v, R s v → step l s t → ∃ w, step₂ l v w ∧ R t w) {v : τ} (hs : R s v)
    (h : Run step s ls t) : ∃ w, Run step₂ v ls w ∧ R t w := by
  induction h with
  | nil => exact ⟨v, .nil, hs⟩
  | snoc l _ hst ih =>
    obtain ⟨w, hw, hr⟩ := ih
    obtain ⟨w', hw', hr'⟩ := hstep l _ _ w hr hst
    exact ⟨w', .snoc l hw hw', hr'⟩

end Run

end Sbunix
