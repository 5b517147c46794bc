import Mathlib.Logic.Function.Basic
import Mathlib.Data.List.Nodup

/-!
# Singly linked lists in memory

`Chain next stop head xs`: following `next` from `head` visits the cells `xs` and
ends at the mark `stop`.
-/

namespace Sbunix

variable {α : Type*} {next next' : α → α} {stop head : α} {xs ys : List α} {x y : α}

/-- The nodes that `next` leads through from the head until it gives `stop`. -/
def Chain (next : α → α) (stop : α) : α → List α → Prop
  | head, [] => head = stop
  | head, x :: xs => head = x ∧ x ≠ stop ∧ Chain next stop (next x) xs

namespace Chain

/-- A head determines the cells that follow. -/
theorem unique (h : Chain next stop head xs) (h' : Chain next stop head ys) : xs = ys := by
  induction xs generalizing head ys with
  | nil =>
      cases ys with
      | nil => rfl
      | cons y ys =>
          obtain ⟨hy, hne, -⟩ := h'
          exact absurd (hy.symm.trans h) hne
  | cons x xs ih =>
      obtain ⟨rfl, hne, hx⟩ := h
      cases ys with
      | nil => exact absurd h' hne
      | cons y ys =>
          obtain ⟨rfl, -, hy⟩ := h'
          rw [ih hx hy]

/-- Only the links of the visited cells matter. -/
theorem congr (h : Chain next stop head xs) (heq : ∀ x ∈ xs, next' x = next x) :
    Chain next' stop head xs := by
  induction xs generalizing head with
  | nil => exact h
  | cons x xs ih =>
      obtain ⟨hh, hne, hx⟩ := h
      refine ⟨hh, hne, ih ?_ fun y hy => heq y (List.mem_cons_of_mem x hy)⟩
      rw [heq x List.mem_cons_self]
      exact hx

theorem ne_stop (h : Chain next stop head xs) (hx : x ∈ xs) : x ≠ stop := by
  induction xs generalizing head with
  | nil => simp at hx
  | cons y ys ih =>
      obtain ⟨-, hne, hy⟩ := h
      rcases List.mem_cons.mp hx with rfl | hx
      · exact hne
      · exact ih hy hx

theorem eq_nil (h : Chain next stop stop xs) : xs = [] := by
  cases xs with
  | nil => rfl
  | cons x xs => exact absurd h.1.symm h.2.1

section

variable [DecidableEq α]

/-- Pushing a new cell in front. -/
theorem push (h : Chain next stop head xs) (hx : x ∉ xs) (hne : x ≠ stop) :
    Chain (Function.update next x head) stop x (x :: xs) := by
  refine ⟨rfl, hne, ?_⟩
  rw [Function.update_self]
  refine h.congr fun y hy => Function.update_of_ne ?_ _ _
  rintro rfl
  exact hx hy

/-- Linking a new last cell to the last cell of a list. -/
theorem append (h : Chain next stop head (xs ++ [y])) (hx : x ≠ stop) (hnx : next x = stop)
    (hy : y ∉ xs) (hxy : x ≠ y) :
    Chain (Function.update next y x) stop head (xs ++ [y] ++ [x]) := by
  induction xs generalizing head with
  | nil =>
      obtain ⟨hh, hne, -⟩ := h
      refine ⟨hh, hne, ?_⟩
      rw [Function.update_self]
      refine ⟨rfl, hx, ?_⟩
      rw [Function.update_of_ne hxy]
      exact hnx
  | cons z zs ih =>
      obtain ⟨hh, hne, hz⟩ := h
      have hzy : z ≠ y := fun he => hy (he ▸ List.mem_cons_self)
      refine ⟨hh, hne, ?_⟩
      rw [Function.update_of_ne hzy]
      exact ih hz fun hm => hy (List.mem_cons_of_mem z hm)

/-- Unlinking the cell `x` behind `y`. -/
theorem unlink (h : Chain next stop head (xs ++ y :: x :: ys)) (hy : y ∉ xs ∧ y ∉ ys) :
    Chain (Function.update next y (next x)) stop head (xs ++ y :: ys) := by
  induction xs generalizing head with
  | nil =>
      obtain ⟨hh, hne, hx, -, hys⟩ := h
      refine ⟨hh, hne, ?_⟩
      rw [Function.update_self]
      refine hys.congr fun z hz => Function.update_of_ne ?_ _ _
      rintro rfl
      exact hy.2 hz
  | cons z zs ih =>
      obtain ⟨hh, hne, hz⟩ := h
      have hzy : z ≠ y := fun he => hy.1 (he ▸ List.mem_cons_self)
      refine ⟨hh, hne, ?_⟩
      rw [Function.update_of_ne hzy]
      exact ih hz ⟨fun hm => hy.1 (List.mem_cons_of_mem z hm), hy.2⟩

end

end Chain

end Sbunix
