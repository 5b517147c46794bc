import Mathlib.Data.Option.Basic
import Mathlib.Tactic.SplitIfs

/-!
# Forests of lookup tables

Tables of type `F` whose cells, indexed by `I`, may point to further tables; several
roots, named by `σ`.  A path lists its indices innermost first.  When no table is
shared, linking a new table, writing a cell of an outermost table and starting a
root afresh have the effect on `tree` that one expects, and keep tables unshared.
-/

namespace Sbunix

variable {F I σ : Type*} {child child' : F → I → Option F} {root root' : σ → Option F}
  {valid : σ → List I → Prop} {s t : σ} {i j : I} {l l' : List I} {f g : F}

/-- The table at the end of a path below the root of `s`. -/
def tree (child : F → I → Option F) (root : σ → Option F) (s : σ) : List I → Option F
  | [] => root s
  | i :: l => (tree child root s l).bind fun f => child f i

@[simp] theorem tree_nil : tree child root s [] = root s := rfl

theorem tree_cons : tree child root s (i :: l) = (tree child root s l).bind fun f => child f i := rfl

/-- No table is reached in two ways along the paths in use. -/
def Unshared (child : F → I → Option F) (root : σ → Option F) (valid : σ → List I → Prop) : Prop :=
  ∀ s l t l' f, valid s l → valid t l' → tree child root s l = some f →
    tree child root t l' = some f → s = t ∧ l = l'

/-- Paths in use are closed under dropping the innermost index. -/
def PathClosed (valid : σ → List I → Prop) : Prop := ∀ s i l, valid s (i :: l) → valid s l

/-- Cells that no path in use below the root of `s` goes through do not matter. -/
theorem tree_congr (hv : PathClosed valid) (hroot : root' s = root s)
    (h : ∀ i l f, valid s (i :: l) → tree child root s l = some f → child' f i = child f i) :
    ∀ l, valid s l → tree child' root' s l = tree child root s l := by
  intro l
  induction l with
  | nil =>
      intro _
      rw [tree_nil, tree_nil, hroot]
  | cons i l ih =>
      intro hl
      rw [tree_cons, tree_cons, ih (hv s i l hl)]
      cases hf : tree child root s l with
      | none => rfl
      | some f => exact h i l f hl hf

/-- Only its own root matters to a tree. -/
theorem tree_root (hroot : root' s = root s) (l : List I) :
    tree child root' s l = tree child root s l :=
  tree_congr (show PathClosed (fun _ _ => True) from fun _ _ _ _ => trivial) hroot
    (fun _ _ _ _ _ => rfl) l trivial

theorem Unshared.congr (h : Unshared child root valid)
    (heq : ∀ s l, valid s l → tree child' root' s l = tree child root s l) :
    Unshared child' root' valid := by
  intro s l t l' f hl hl' hf hf'
  rw [heq s l hl] at hf
  rw [heq t l' hl'] at hf'
  exact h s l t l' f hl hl' hf hf'

/-- Linking the fresh, empty table `g` to an unused cell of a table that is not shared adds
one path. -/
theorem tree_link [DecidableEq σ] [DecidableEq I]
    (h : ∀ t l', valid t l' → tree child root t l' = some f → t = s ∧ l' = l)
    (hv : PathClosed valid) (hl : valid s (i :: l)) (hf : tree child root s l = some f)
    (hnone : child f i = none) (hg : ∀ t l', valid t l' → tree child root t l' ≠ some g)
    (hnew : child' f i = some g)
    (hother : ∀ f' j, f' ≠ g → ¬ (f' = f ∧ j = i) → child' f' j = child f' j)
    (hempty : ∀ t l' j, valid t (j :: l') → child' g j = none) :
    ∀ t l', valid t l' →
      tree child' root t l' = if t = s ∧ l' = i :: l then some g else tree child root t l' := by
  intro t l'
  induction l' with
  | nil =>
      intro _
      rw [if_neg (by simp)]
      rfl
  | cons j l' ih =>
      intro hl'
      have hvl := hv t j l' hl'
      rw [tree_cons, ih hvl]
      by_cases hin : t = s ∧ l' = i :: l
      · obtain ⟨rfl, rfl⟩ := hin
        have hne : ¬ (t = t ∧ j :: i :: l = i :: l) := by
          rintro ⟨-, heq⟩
          exact absurd (congrArg List.length heq) (by simp)
        rw [if_pos ⟨rfl, rfl⟩, if_neg hne, tree_cons, tree_cons, hf]
        simp [hnone, hempty t _ j hl']
      · rw [if_neg hin, tree_cons]
        cases hf' : tree child root t l' with
        | none =>
            rw [if_neg]
            · rfl
            · rintro ⟨rfl, heq⟩
              injection heq with _ hll
              rw [hll, hf] at hf'
              exact absurd hf' (by simp)
        | some f' =>
            have hfg : f' ≠ g := fun he => hg t l' hvl (he ▸ hf')
            by_cases hij : f' = f ∧ j = i
            · obtain ⟨rfl, rfl⟩ := hij
              obtain ⟨hts, hll⟩ := h t l' hvl hf'
              rw [if_pos ⟨hts, by rw [hll]⟩]
              exact hnew
            · rw [if_neg]
              · exact hother f' j hfg hij
              · rintro ⟨rfl, heq⟩
                injection heq with hji hll
                rw [hll, hf] at hf'
                exact hij ⟨(Option.some.inj hf').symm, hji⟩

theorem Unshared.link [DecidableEq σ] [DecidableEq I] (h : Unshared child root valid)
    (hg : ∀ t l', valid t l' → tree child root t l' ≠ some g)
    (heq : ∀ t l', valid t l' → tree child' root' t l' =
      if t = s ∧ l' = i :: l then some g else tree child root t l') :
    Unshared child' root' valid := by
  intro a p b q f' hp hq hfp hfq
  rw [heq a p hp] at hfp
  rw [heq b q hq] at hfq
  split_ifs at hfp with h₁ <;> split_ifs at hfq with h₂
  · exact ⟨h₁.1.trans h₂.1.symm, h₁.2.trans h₂.2.symm⟩
  · exact absurd (hfq.trans hfp.symm) (hg b q hq)
  · exact absurd (hfp.trans hfq.symm) (hg a p hp)
  · exact h a p b q f' hp hq hfp hfq

/-- The root of `s` becomes the empty table `g`; what the other roots lead to is kept. -/
theorem tree_reset [DecidableEq σ] (hv : PathClosed valid)
    (hs : root' s = some g) (hroot : ∀ t, t ≠ s → valid t [] → root' t = root t)
    (hother : ∀ t j l' f', t ≠ s → valid t (j :: l') → tree child root t l' = some f' →
      child' f' j = child f' j)
    (hempty : ∀ j, valid s [j] → child' g j = none) :
    ∀ t l', valid t l' → tree child' root' t l' =
      if t = s then (if l' = [] then some g else none) else tree child root t l' := by
  intro t l'
  induction l' with
  | nil =>
      intro hl'
      by_cases hts : t = s
      · subst hts
        simp [hs]
      · simp [hts, hroot t hts hl']
  | cons j l' ih =>
      intro hl'
      have hvl := hv t j l' hl'
      rw [tree_cons, ih hvl]
      by_cases hts : t = s
      · subst hts
        rw [if_pos rfl, if_pos rfl, if_neg (List.cons_ne_nil j l')]
        by_cases hnil : l' = []
        · subst hnil
          rw [if_pos rfl]
          exact hempty j hl'
        · rw [if_neg hnil]
          rfl
      · rw [if_neg hts, if_neg hts, tree_cons]
        cases hf' : tree child root t l' with
        | none => rfl
        | some f' => exact hother t j l' f' hts hl' hf'

theorem Unshared.reset [DecidableEq σ] (h : Unshared child root valid)
    (hg : ∀ t l', t ≠ s → valid t l' → tree child root t l' ≠ some g)
    (heq : ∀ t l', valid t l' → tree child' root' t l' =
      if t = s then (if l' = [] then some g else none) else tree child root t l') :
    Unshared child' root' valid := by
  intro a p b q f' hp hq hfp hfq
  rw [heq a p hp] at hfp
  rw [heq b q hq] at hfq
  split_ifs at hfp with h₁ h₂ <;> split_ifs at hfq with h₃ h₄
  · exact ⟨h₁.trans h₃.symm, h₂.trans h₄.symm⟩
  · exact absurd (hfq.trans hfp.symm) (hg b q h₃ hq)
  · exact absurd (hfp.trans hfq.symm) (hg a p h₁ hp)
  · exact h a p b q f' hp hq hfp hfq

end Sbunix
