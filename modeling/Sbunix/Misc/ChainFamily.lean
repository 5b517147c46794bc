import Sbunix.Misc.Chain

/-!
# Lists that share one link field

A family of disjoint singly linked lists over one `next`, and the moves of a cell
between them: taking the first cell, unlinking a later one, linking a free cell in.
-/

namespace Sbunix

variable {ι α : Type*} {next next' : α → α} {stop p q x y : α} {head : ι → α} {i j : ι}
  {lists : ι → List α} {xs ys zs : List α}

/-- The list `lists i` starts at `head i`, and no cell is visited twice. -/
structure ChainFamily (next : α → α) (stop : α) (head : ι → α) (lists : ι → List α) : Prop where
  chain : ∀ i, Chain next stop (head i) (lists i)
  nodup : ∀ i, (lists i).Nodup
  unique : ∀ i j x, x ∈ lists i → x ∈ lists j → i = j

namespace Chain

/-- The cells determine the head. -/
theorem head_eq (h : Chain next stop p xs) (h' : Chain next' stop q xs) : p = q := by
  cases xs with
  | nil => exact h.trans h'.symm
  | cons x xs => exact h.1.trans h'.1.symm

/-- The link behind a cell. -/
theorem next_eq (h : Chain next stop p (xs ++ x :: ys)) : Chain next stop (next x) ys := by
  induction xs generalizing p with
  | nil => exact h.2.2
  | cons z zs ih => exact ih h.2.2

end Chain

namespace ChainFamily

/-- A cell on no list may change its link. -/
theorem congr (h : ChainFamily next stop head lists)
    (heq : ∀ i, ∀ x ∈ lists i, next' x = next x) : ChainFamily next' stop head lists where
  chain i := (h.chain i).congr (heq i)
  nodup := h.nodup
  unique := h.unique

section

variable [DecidableEq α]

theorem update_free (h : ChainFamily next stop head lists) (hx : ∀ i, x ∉ lists i) (y : α) :
    ChainFamily (Function.update next x y) stop head lists := by
  apply h.congr
  intro i z hz
  apply Function.update_of_ne
  intro heq
  exact hx i (heq ▸ hz)

end

variable [DecidableEq ι]

/-- A list is replaced by one with some of its cells. -/
theorem replace (h : ChainFamily next stop head lists) (hsub : ys.Sublist (lists i))
    (hchain : Chain next' stop p ys) (heq : ∀ j, j ≠ i → ∀ x ∈ lists j, next' x = next x) :
    ChainFamily next' stop (Function.update head i p) (Function.update lists i ys) := by
  have hmem : ∀ j x, x ∈ Function.update lists i ys j → x ∈ lists j := by
    intro j x hx
    by_cases hj : j = i
    · rw [hj, Function.update_self] at hx
      rw [hj]
      exact hsub.subset hx
    · rwa [Function.update_of_ne hj] at hx
  refine ⟨fun j => ?_, fun j => ?_, fun j k x hj hk => h.unique j k x (hmem j x hj) (hmem k x hk)⟩
  · by_cases hj : j = i
    · rw [hj, Function.update_self, Function.update_self]
      exact hchain
    · rw [Function.update_of_ne hj, Function.update_of_ne hj]
      exact (h.chain j).congr (heq j hj)
  · by_cases hj : j = i
    · rw [hj, Function.update_self]
      exact (h.nodup i).sublist hsub
    · rw [Function.update_of_ne hj]
      exact h.nodup j

/-- The first cell is taken from a list. -/
theorem tail (h : ChainFamily next stop head lists) (hi : lists i = x :: xs) :
    ChainFamily next stop (Function.update head i (next x)) (Function.update lists i xs) := by
  have hchain := h.chain i
  rw [hi] at hchain
  apply h.replace
  · rw [hi]
    exact List.sublist_cons_self x xs
  · exact hchain.2.2
  · exact fun _ _ _ _ => rfl

/-- A list grows by a free cell behind all others. -/
theorem grow (h : ChainFamily next stop head lists) (hx : ∀ i, x ∉ lists i)
    (hchain : Chain next' stop p (lists i ++ [x]))
    (heq : ∀ j, j ≠ i → ∀ z ∈ lists j, next' z = next z) :
    ChainFamily next' stop (Function.update head i p)
      (Function.update lists i (lists i ++ [x])) := by
  have hmem : ∀ j z, z ∈ Function.update lists i (lists i ++ [x]) j →
      z ∈ lists j ∨ j = i ∧ z = x := by
    intro j z hz
    by_cases hj : j = i
    · rw [hj, Function.update_self, List.mem_append, List.mem_singleton] at hz
      rw [hj]
      exact hz.imp_right fun hzx => ⟨rfl, hzx⟩
    · rw [Function.update_of_ne hj] at hz
      exact Or.inl hz
  refine ⟨fun j => ?_, fun j => ?_, fun j k z hj hk => ?_⟩
  · by_cases hj : j = i
    · rw [hj, Function.update_self, Function.update_self]
      exact hchain
    · rw [Function.update_of_ne hj, Function.update_of_ne hj]
      exact (h.chain j).congr (heq j hj)
  · by_cases hj : j = i
    · rw [hj, Function.update_self]
      exact (h.nodup i).append (List.nodup_singleton x) (List.disjoint_singleton.mpr (hx i))
    · rw [Function.update_of_ne hj]
      exact h.nodup j
  · rcases hmem j z hj with hj | ⟨hj, hzx⟩
    · rcases hmem k z hk with hk | ⟨-, hzx⟩
      · exact h.unique j k z hj hk
      · exact absurd (hzx ▸ hj) (hx j)
    · rcases hmem k z hk with hk | ⟨hk, -⟩
      · exact absurd (hzx ▸ hk) (hx k)
      · exact hj.trans hk.symm

/-- A free cell becomes the only one of an empty list. -/
theorem start (h : ChainFamily next stop head lists) (hi : lists i = []) (hx : ∀ i, x ∉ lists i)
    (hne : x ≠ stop) (hnext : next x = stop) :
    ChainFamily next stop (Function.update head i x) (Function.update lists i [x]) := by
  have hchain : Chain next stop x (lists i ++ [x]) := by
    rw [hi]
    exact ⟨rfl, hne, hnext⟩
  have hfamily := h.grow hx hchain fun _ _ _ _ => rfl
  rwa [hi] at hfamily

variable [DecidableEq α]

/-- A cell is unlinked from the one before it. -/
theorem unlink (h : ChainFamily next stop head lists) (hi : lists i = xs ++ y :: x :: ys) :
    ChainFamily (Function.update next y (next x)) stop head
      (Function.update lists i (xs ++ y :: ys)) := by
  have hnodup := h.nodup i
  rw [hi] at hnodup
  have hy : y ∉ xs ∧ y ∉ ys := by
    rw [List.nodup_append] at hnodup
    obtain ⟨-, hcons, hdisj⟩ := hnodup
    rw [List.nodup_cons] at hcons
    refine ⟨fun hmem => hdisj y hmem y List.mem_cons_self rfl, fun hmem => ?_⟩
    exact hcons.1 (List.mem_cons_of_mem x hmem)
  have hmem : y ∈ lists i := by simp [hi]
  have hsub : (xs ++ y :: ys).Sublist (lists i) := by
    rw [hi]
    exact (List.Sublist.refl xs).append ((List.sublist_cons_self x ys).cons_cons y)
  have hchain : Chain (Function.update next y (next x)) stop (head i) (xs ++ y :: ys) := by
    have hchain := h.chain i
    rw [hi] at hchain
    exact hchain.unlink hy
  have hfamily := h.replace hsub hchain ?_
  · rwa [Function.update_eq_self] at hfamily
  · intro j hj z hz
    apply Function.update_of_ne
    intro heq
    exact hj (h.unique j i y (heq ▸ hz) hmem)

/-- A free cell is linked behind the last one of a list. -/
theorem append (h : ChainFamily next stop head lists) (hi : lists i = xs ++ [y])
    (hx : ∀ i, x ∉ lists i) (hne : x ≠ stop) (hnext : next x = stop) :
    ChainFamily (Function.update next y x) stop head (Function.update lists i (lists i ++ [x])) := by
  have hmem : y ∈ lists i := by simp [hi]
  have hgrown : Chain (Function.update next y x) stop (head i) (lists i ++ [x]) := by
    have hchain := h.chain i
    have hnodup := h.nodup i
    rw [hi] at hchain hnodup ⊢
    apply hchain.append hne hnext
    · intro hy
      exact (List.nodup_append.mp hnodup).2.2 y hy y List.mem_cons_self rfl
    · intro heq
      exact hx i (heq ▸ hmem)
  have hfamily := h.grow hx hgrown ?_
  · rwa [Function.update_eq_self] at hfamily
  · intro j hj z hz
    apply Function.update_of_ne
    intro heq
    exact hj (h.unique j i y (heq ▸ hz) hmem)

end ChainFamily

end Sbunix
