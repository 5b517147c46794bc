import Mathlib.Data.List.Nodup
import Mathlib.Logic.Function.Basic

/-!
# Back links in memory

`BackLinks prev p xs`: the back link of each cell of `xs` is the cell before it, and that of the
first is `p`.  With `Chain` for the links forward this is a doubly linked list.
-/

namespace Sbunix

variable {α : Type*} {prev prev' : α → α} {p x y : α} {xs ys : List α}

/-- The `prev` of each node is the node before it; that of the first is `p`. -/
def BackLinks (prev : α → α) : α → List α → Prop
  | _, [] => True
  | p, x :: xs => prev x = p ∧ BackLinks prev x xs

namespace BackLinks

/-- Only the back links of the visited cells matter. -/
theorem congr (h : BackLinks prev p xs) (heq : ∀ x ∈ xs, prev' x = prev x) :
    BackLinks prev' p xs := by
  induction xs generalizing p with
  | nil => trivial
  | cons x xs ih =>
    refine ⟨?_, ih h.2 fun y hy => heq y (List.mem_cons_of_mem x hy)⟩
    rw [heq x List.mem_cons_self]
    exact h.1

/-- The cells up to `y` and those behind it. -/
theorem append_iff : BackLinks prev p (xs ++ y :: ys) ↔
    BackLinks prev p (xs ++ [y]) ∧ BackLinks prev y ys := by
  induction xs generalizing p with
  | nil => exact ⟨fun h => ⟨⟨h.1, trivial⟩, h.2⟩, fun h => ⟨h.1.1, h.2⟩⟩
  | cons x xs ih =>
    constructor
    · intro h
      exact ⟨⟨h.1, (ih.mp h.2).1⟩, (ih.mp h.2).2⟩
    · intro h
      exact ⟨h.1.1, ih.mpr ⟨h.1.2, h.2⟩⟩

/-- Unlinking the last cell. -/
theorem unlink_last (h : BackLinks prev p (xs ++ [y, x])) : BackLinks prev p (xs ++ [y]) :=
  (append_iff.mp h).1

section

variable [DecidableEq α]

/-- Linking a new last cell back to the last cell of a list. -/
theorem append (h : BackLinks prev p (xs ++ [y])) (hx : x ∉ xs ++ [y]) :
    BackLinks (Function.update prev x y) p (xs ++ [y] ++ [x]) := by
  rw [List.append_assoc, List.singleton_append, append_iff]
  refine ⟨h.congr fun z hz => Function.update_of_ne ?_ _ _, Function.update_self _ _ _, trivial⟩
  rintro rfl
  exact hx hz

/-- Unlinking the cell `x` behind `y`, with the cell that follows linked back to `y`. -/
theorem unlink {z : α} (h : BackLinks prev p (xs ++ y :: x :: z :: ys))
    (hz : z ∉ xs ++ [y] ∧ z ∉ ys) :
    BackLinks (Function.update prev z y) p (xs ++ y :: z :: ys) := by
  rw [append_iff] at h ⊢
  refine ⟨h.1.congr fun w hw => Function.update_of_ne ?_ _ _, Function.update_self _ _ _,
    h.2.2.2.congr fun w hw => Function.update_of_ne ?_ _ _⟩
  · rintro rfl
    exact hz.1 hw
  · rintro rfl
    exact hz.2 hw

end

end BackLinks

end Sbunix
