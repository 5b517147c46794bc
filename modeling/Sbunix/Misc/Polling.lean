import Mathlib.Order.Nat

/-!
# Loops that poll

A loop that looks at its state, leaves it as it is when it is done and otherwise takes turn
number `n`, with no bound of its own on the turns.
-/

namespace Sbunix

variable {σ : Type*} {step : ℕ → σ → σ} {done : σ → Prop} {s t : σ} {n i fuel : ℕ}

/-- The state after `n` turns. -/
def pollState (step : ℕ → σ → σ) (s : σ) : ℕ → σ
  | 0 => s
  | n + 1 => step n (pollState step s n)

/-- The loop from turn `i` on, with `fuel` turns at most: the turns it has taken and the state
it is done in. -/
def pollLoop (step : ℕ → σ → σ) (done : σ → Prop) [DecidablePred done] :
    ℕ → ℕ → σ → Option (ℕ × σ)
  | 0, _, _ => none
  | fuel + 1, i, s => if done s then some (i, s) else pollLoop step done fuel (i + 1) (step i s)

/-- What holds at first and every turn keeps. -/
theorem pollState_invariant {inv : ℕ → σ → Prop} (h0 : inv 0 s)
    (hstep : ∀ n t, inv n t → inv (n + 1) (step n t)) (n : ℕ) : inv n (pollState step s n) := by
  induction n with
  | zero => exact h0
  | succ n ih => exact hstep n _ ih

variable [DecidablePred done]

/-- With `fuel` turns from turn `i` on, the loop ends in the first state it is done in. -/
theorem pollLoop_eq_some : pollLoop step done fuel i (pollState step s i) = some (n, t) ↔
    t = pollState step s n ∧ i ≤ n ∧ n < i + fuel ∧ done (pollState step s n) ∧
      ∀ k, i ≤ k → k < n → ¬ done (pollState step s k) := by
  induction fuel generalizing i with
  | zero =>
    refine ⟨fun h => by simp [pollLoop] at h, ?_⟩
    rintro ⟨-, hin, hn, -, -⟩
    omega
  | succ fuel ih =>
    rw [pollLoop]
    split
    next hd =>
      constructor
      · intro h
        obtain ⟨rfl, rfl⟩ := Prod.mk.inj (Option.some.inj h)
        exact ⟨rfl, le_rfl, by omega, hd, fun k h1 h2 => absurd h1 (by omega)⟩
      · rintro ⟨rfl, hin, -, -, hfirst⟩
        -- The first state it is done in is the one it looks at.
        have hi : n = i := by
          by_contra hne
          exact hfirst i le_rfl (by omega) hd
        rw [hi]
    next hd =>
      have hturn : step i (pollState step s i) = pollState step s (i + 1) := rfl
      rw [hturn, ih]
      constructor
      · rintro ⟨rfl, hin, hn, hdn, hfirst⟩
        refine ⟨rfl, by omega, by omega, hdn, fun k hk hkn => ?_⟩
        by_cases hki : k = i
        · exact hki ▸ hd
        · exact hfirst k (by omega) hkn
      · rintro ⟨rfl, hin, hn, hdn, hfirst⟩
        have hne : n ≠ i := fun h => hd (h ▸ hdn)
        exact ⟨rfl, by omega, by omega, hdn, fun k hk hkn => hfirst k (by omega) hkn⟩

/-- The loop ends after `n` turns when `n` is the least number of turns after which it is
done. -/
theorem pollLoop_iff_isLeast : (∃ fuel, pollLoop step done fuel 0 s = some (n, t)) ↔
    t = pollState step s n ∧ IsLeast {k | done (pollState step s k)} n := by
  constructor
  · rintro ⟨fuel, h⟩
    obtain ⟨rfl, -, -, hn, hfirst⟩ := pollLoop_eq_some.mp h
    refine ⟨rfl, hn, fun k hk => ?_⟩
    by_contra hkn
    exact hfirst k (Nat.zero_le k) (by omega) hk
  · rintro ⟨rfl, hn, hleast⟩
    refine ⟨n + 1, pollLoop_eq_some.mpr ⟨rfl, Nat.zero_le n, by omega, hn, fun k _ hkn hk => ?_⟩⟩
    have hle : n ≤ k := hleast hk
    omega

end Sbunix
