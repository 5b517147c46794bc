import Mathlib.Data.List.TakeWhile

/-!
# Runs between delimiters

The non-empty parts of a list between the occurrences of a delimiter, in order.
-/

namespace Sbunix

variable {α : Type*} [BEq α] [LawfulBEq α] {delim : α} {l ds t tail : List α}

/-- The maximal non-empty runs without the delimiter. -/
def runs (delim : α) (l : List α) : List (List α) :=
  (l.splitOn delim).filter fun t => !t.isEmpty

omit [LawfulBEq α] in
theorem runs_nil : runs delim [] = [] := rfl

theorem runs_cons_self : runs delim (delim :: l) = runs delim l := by
  have h : ([] ++ delim :: l).splitOn delim = [] :: l.splitOn delim :=
    List.splitOn_append_cons_self_of_not_mem List.not_mem_nil l
  rw [List.nil_append] at h
  unfold runs
  rw [h, List.filter_cons]
  rfl

/-- Leading delimiters do not matter. -/
theorem runs_skip (h : ∀ c ∈ ds, c = delim) : runs delim (ds ++ l) = runs delim l := by
  induction ds with
  | nil => rfl
  | cons c ds ih =>
    obtain rfl := h c List.mem_cons_self
    rw [List.cons_append, runs_cons_self]
    exact ih fun d hd => h d (List.mem_cons_of_mem c hd)

theorem runs_of_forall (h : ∀ c ∈ l, c = delim) : runs delim l = [] := by
  rw [← List.append_nil l, runs_skip h, runs_nil]

/-- A run that the end of the list or a delimiter ends. -/
theorem runs_append (hne : t ≠ []) (ht : delim ∉ t) (htail : tail = [] ∨ tail.head? = some delim) :
    runs delim (t ++ tail) = t :: runs delim tail := by
  have hkept : (!t.isEmpty) = true := by simpa using hne
  cases tail with
  | nil =>
    unfold runs
    rw [List.append_nil, List.splitOn_eq_singleton ht, List.filter_cons, if_pos hkept]
    rfl
  | cons c tail =>
    obtain rfl : c = delim := by simpa using htail
    rw [runs_cons_self]
    unfold runs
    rw [List.splitOn_append_cons_self_of_not_mem ht, List.filter_cons, if_pos hkept]

/-- A list has no run, or it is some delimiters, its first run, and what comes behind that. -/
theorem runs_cases (delim : α) (l : List α) : (∀ c ∈ l, c = delim) ∨
    ∃ ds t tail, l = ds ++ (t ++ tail) ∧ (∀ c ∈ ds, c = delim) ∧ t ≠ [] ∧ delim ∉ t ∧
      (tail = [] ∨ tail.head? = some delim) := by
  have hds : ∀ c ∈ l.takeWhile (· == delim), c = delim := fun c hc =>
    eq_of_beq (List.mem_takeWhile_imp (p := (· == delim)) hc)
  have hsplit : l.takeWhile (· == delim) ++ l.dropWhile (· == delim) = l :=
    List.takeWhile_append_dropWhile
  have hhead := List.head?_dropWhile_not (· == delim) l
  cases hrest : l.dropWhile (· == delim) with
  | nil =>
    rw [hrest, List.append_nil] at hsplit
    exact Or.inl (hsplit ▸ hds)
  | cons c rest =>
    rw [hrest] at hsplit hhead
    have hc : (c != delim) = true := by simpa using hhead
    have hrun : (c :: rest).takeWhile (· != delim) ++ (c :: rest).dropWhile (· != delim) =
        c :: rest := List.takeWhile_append_dropWhile
    refine Or.inr ⟨_, (c :: rest).takeWhile (· != delim), (c :: rest).dropWhile (· != delim),
      (by rw [hrun, hsplit]), hds, ?_, ?_, ?_⟩
    · rw [List.takeWhile_cons, hc]
      exact List.cons_ne_nil _ _
    · intro hmem
      have hself := List.mem_takeWhile_imp (p := (· != delim)) hmem
      simp at hself
    · have hstop := List.head?_dropWhile_not (· != delim) (c :: rest)
      cases hmore : (c :: rest).dropWhile (· != delim) with
      | nil => exact Or.inl rfl
      | cons d more =>
        rw [hmore] at hstop
        exact Or.inr (by simpa using hstop)

end Sbunix
