import Mathlib.Logic.Relation

/-!
# Labelled transition systems and their invariants

States reachable from a set of initial states through labelled steps, and the
induction that turns a fact about one step into a fact about every run.  The
step relation is a parameter, so a run restricted by a condition on its steps is
the same notion at a smaller relation.
-/

namespace Sbunix

variable {σ ℓ τ κ : Type*}

/-- The states some finite run of labelled steps leads to. -/
inductive Reach (init : σ → Prop) (step : ℓ → σ → σ → Prop) : σ → Prop
  | init {s : σ} : init s → Reach init step s
  | step {s t : σ} (l : ℓ) : Reach init step s → step l s t → Reach init step t

namespace Reach

variable {init : σ → Prop} {step : ℓ → σ → σ → Prop}

/-- What holds initially and is kept by every step holds in every reachable state. -/
theorem invariant {P : σ → Prop} (hinit : ∀ s, init s → P s)
    (hstep : ∀ l s t, P s → step l s t → P t) {s : σ} (h : Reach init step s) : P s := by
  induction h with
  | init hs => exact hinit _ hs
  | step l _ hst ih => exact hstep l _ _ ih hst

/-- An invariant may be proved with the reachability of its pre-state at hand. -/
theorem invariant' {P : σ → Prop} (hinit : ∀ s, init s → P s)
    (hstep : ∀ l s t, Reach init step s → P s → step l s t → P t) {s : σ}
    (h : Reach init step s) : P s := by
  induction h with
  | init hs => exact hinit _ hs
  | step l hr hst ih => exact hstep l _ _ hr ih hst

/-- A larger step relation reaches at least the same states. -/
theorem mono {step' : ℓ → σ → σ → Prop} (hle : ∀ l s t, step l s t → step' l s t) {s : σ}
    (h : Reach init step s) : Reach init step' s :=
  h.invariant (fun _ hs => .init hs) (fun l _ _ hr hst => .step l hr (hle l _ _ hst))

/-- A forward simulation: when every step of the first system is matched by a
run of the second through `f`, reachable states are mapped to reachable ones. -/
theorem simulate {init' : τ → Prop} {step' : κ → τ → τ → Prop} (f : σ → τ)
    (hinit : ∀ s, init s → Reach init' step' (f s))
    (hstep : ∀ l s t, Reach init' step' (f s) → step l s t → Reach init' step' (f t)) {s : σ}
    (h : Reach init step s) : Reach init' step' (f s) :=
  h.invariant (P := fun s => Reach init' step' (f s)) hinit hstep

end Reach

/-- Runs a list of labels through a partial step function; `none` is a run that
gets stuck on the way. -/
def runLabels (next : ℓ → σ → Option σ) : List ℓ → σ → Option σ
  | [], s => some s
  | l :: ls, s => (next l s).bind (runLabels next ls)

@[simp] theorem runLabels_nil (next : ℓ → σ → Option σ) (s : σ) :
    runLabels next [] s = some s := rfl

theorem runLabels_cons (next : ℓ → σ → Option σ) (l : ℓ) (ls : List ℓ) (s : σ) :
    runLabels next (l :: ls) s = (next l s).bind (runLabels next ls) := rfl

/-- A run that does not get stuck, of steps that are all allowed, ends in a reachable state. -/
theorem Reach.of_run {init : σ → Prop} {step : ℓ → σ → σ → Prop} {next : ℓ → σ → Option σ}
    {ls : List ℓ} {s t : σ} (hs : Reach init step s)
    (hstep : ∀ l s t, next l s = some t → step l s t) (h : runLabels next ls s = some t) :
    Reach init step t := by
  induction ls generalizing s with
  | nil => exact Option.some.inj h ▸ hs
  | cons l ls ih =>
      obtain ⟨u, hu, hrest⟩ := Option.bind_eq_some_iff.mp h
      exact ih (.step l hs (hstep l s u hu)) hrest

/-- A run that does not get stuck, of labels that meet a condition, ends in a
reachable state. -/
theorem Reach.of_runLabels {init : σ → Prop} {P : ℓ → Prop} {next : ℓ → σ → Option σ}
    {ls : List ℓ} {s t : σ} (hs : Reach init (fun l s t => P l ∧ next l s = some t) s)
    (hl : ∀ l ∈ ls, P l) (h : runLabels next ls s = some t) :
    Reach init (fun l s t => P l ∧ next l s = some t) t := by
  induction ls generalizing s with
  | nil =>
      simp only [runLabels_nil, Option.some.injEq] at h
      exact h ▸ hs
  | cons l ls ih =>
      rw [runLabels_cons, Option.bind_eq_some_iff] at h
      obtain ⟨u, hu, hrest⟩ := h
      have hcond := hl l (by simp)
      exact ih (.step l hs ⟨hcond, hu⟩) (fun l' h' => hl l' (by simp [h'])) hrest

end Sbunix
