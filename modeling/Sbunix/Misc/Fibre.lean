import Mathlib.Data.Set.Card

/-!
# How many keys share a value

`users f x` is the set of keys that a partial map `f` sends to `x`. With finitely many
keys in use, changing the map at one key changes the number of users of a value by
at most one, and exactly as one expects.
-/

namespace Sbunix

variable {K F : Type*} {f : K → Option F} {x y : F} {k : K} {v : Option F}

/-- The keys that `f` sends to `x`. -/
def users (f : K → Option F) (x : F) : Set K := {k | f k = some x}

theorem mem_users : k ∈ users f x ↔ f k = some x := Iff.rfl

/-- Finitely many keys are in use. -/
def FiniteMap (f : K → Option F) : Prop := {k | f k ≠ none}.Finite

theorem FiniteMap.users_finite (h : FiniteMap f) (x : F) : (users f x).Finite :=
  h.subset fun k hk => by
    rw [mem_users] at hk
    simp [hk]

section

variable [DecidableEq K]

theorem FiniteMap.update (h : FiniteMap f) : FiniteMap (Function.update f k v) := by
  refine (h.insert k).subset ?_
  intro j hj
  by_cases hjk : j = k
  · exact .inl hjk
  · rw [Set.mem_ofPred_eq, Function.update_of_ne hjk] at hj
    exact .inr hj

/-- A key that already has the value, and keeps none, leaves one user fewer. -/
theorem users_update_drop (h : FiniteMap f) (hk : f k = some x) (hv : v ≠ some x) :
    (users (Function.update f k v) x).ncard + 1 = (users f x).ncard := by
  have heq : users (Function.update f k v) x = users f x \ {k} := by
    ext j
    rw [mem_users, Set.mem_sdiff, mem_users, Set.mem_singleton_iff]
    by_cases hjk : j = k
    · subst hjk
      simp [hv]
    · simp [hjk]
  rw [heq]
  exact Set.ncard_sdiff_singleton_add_one hk (h.users_finite x)

theorem users_update_add (h : FiniteMap f) (hk : f k ≠ some x) :
    (users (Function.update f k (some x)) x).ncard = (users f x).ncard + 1 := by
  have heq : users (Function.update f k (some x)) x = insert k (users f x) := by
    ext j
    rw [mem_users, Set.mem_insert_iff, mem_users]
    by_cases hjk : j = k
    · subst hjk
      simp
    · simp [hjk]
  rw [heq]
  exact Set.ncard_insert_of_notMem (by rwa [mem_users]) (h.users_finite x)

theorem users_update_other (hk : f k ≠ some x) (hv : v ≠ some x) :
    users (Function.update f k v) x = users f x := by
  ext j
  rw [mem_users, mem_users]
  by_cases hjk : j = k
  · subst hjk
    simp [hk, hv]
  · rw [Function.update_of_ne hjk]

/-- A change at one key adds at most one user. -/
theorem users_update_le (h : FiniteMap f) :
    (users (Function.update f k v) x).ncard ≤ (users f x).ncard + 1 := by
  have hsub : users (Function.update f k v) x ⊆ insert k (users f x) := by
    intro j hj
    by_cases hjk : j = k
    · exact .inl hjk
    · rw [mem_users, Function.update_of_ne hjk] at hj
      exact .inr hj
  exact (Set.ncard_le_ncard hsub ((h.users_finite x).insert k)).trans
    (Set.ncard_insert_le k (users f x))

end

/-- Keys that lose their value only reduce the number of users. -/
theorem users_mono {g : K → Option F} (h : FiniteMap f) (hg : ∀ j, g j = some x → f j = some x) :
    (users g x).ncard ≤ (users f x).ncard :=
  Set.ncard_le_ncard (fun j hj => hg j hj) (h.users_finite x)

theorem users_pos (h : FiniteMap f) (hk : f k = some x) : 0 < (users f x).ncard :=
  (Set.ncard_pos (h.users_finite x)).mpr ⟨k, hk⟩

end Sbunix
