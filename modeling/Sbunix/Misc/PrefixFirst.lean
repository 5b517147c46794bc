import Mathlib.Data.List.Infix
import Mathlib.Data.List.Nodup

/-!
# Lists in order, and search by prefix

`InOrder P l`: every element of `l` is admitted by `P` after those before it.  For a list of
names, `firstExtending t ns` is the first name that starts with `t`.  It finds `t` itself, and
only `t`, when every name comes after its own prefixes (`PrefixFirst`).
-/

namespace Sbunix

section InOrder

variable {β : Type*} {P Q : List β → β → Prop} {l : List β} {a : β}

/-- Each element satisfies `P` together with the elements before it. -/
def InOrder (P : List β → β → Prop) (l : List β) : Prop :=
  ∀ pre x post, l = pre ++ x :: post → P pre x

theorem inOrder_nil : InOrder P [] := by
  intro pre x post h
  cases pre <;> simp at h

theorem inOrder_append_singleton : InOrder P (l ++ [a]) ↔ InOrder P l ∧ P l a := by
  constructor
  · intro h
    constructor
    · intro pre x post hl
      exact h pre x (post ++ [a]) (by rw [hl, List.append_assoc, List.cons_append])
    · exact h l a [] rfl
  · intro h pre x post hl
    cases post using List.reverseRecOn with
    | nil =>
      obtain ⟨rfl, ha⟩ := List.append_inj' hl rfl
      cases ha
      exact h.2
    | append_singleton post b =>
      rw [← List.cons_append, ← List.append_assoc] at hl
      exact h.1 pre x post (List.append_inj' hl rfl).1

theorem InOrder.of_append {l' : List β} (h : InOrder P (l ++ l')) : InOrder P l := by
  intro pre x post hl
  exact h pre x (post ++ l') (by rw [hl, List.append_assoc, List.cons_append])

/-- A list that is not in order has a first element out of order. -/
theorem exists_first_of_not_inOrder (h : ¬ InOrder P l) :
    ∃ pre x post, l = pre ++ x :: post ∧ InOrder P pre ∧ ¬ P pre x := by
  induction l using List.reverseRecOn with
  | nil => exact absurd inOrder_nil h
  | append_singleton l a ih =>
    by_cases hl : InOrder P l
    · exact ⟨l, a, [], rfl, hl, fun ha => h (inOrder_append_singleton.mpr ⟨hl, ha⟩)⟩
    · obtain ⟨pre, x, post, rfl, hpre, hx⟩ := ih hl
      exact ⟨pre, x, post ++ [a], by rw [List.append_assoc, List.cons_append], hpre, hx⟩

end InOrder

variable {α : Type*} {ns ms : List (List α)} {t c : List α} {i : Nat}

/-- Every proper non-empty prefix of a name is a name listed before it. -/
def PrefixFirst (ns : List (List α)) : Prop :=
  InOrder (fun pre c => ∀ t, t <+: c → t ≠ [] → t ≠ c → t ∈ pre) ns

theorem PrefixFirst.mem_of_isPrefix (h : PrefixFirst ns) (hc : c ∈ ns) (htc : t <+: c)
    (ht : t ≠ []) : t ∈ ns := by
  obtain ⟨pre, post, hns⟩ := List.append_of_mem hc
  by_cases heq : t = c
  · rw [heq]
    exact hc
  · rw [hns]
    exact List.mem_append_left _ (h pre c post hns t htc ht heq)

variable [DecidableEq α]

/-- The index of the first name that starts with `t`. -/
def firstExtending (t : List α) (ns : List (List α)) : Option Nat :=
  ns.findIdx? fun c => decide (t <+: c)

theorem firstExtending_eq_none : firstExtending t ns = none ↔ ∀ c ∈ ns, ¬ t <+: c := by
  simp [firstExtending]

theorem PrefixFirst.firstExtending_eq_none (h : PrefixFirst ns) (ht : t ≠ []) :
    firstExtending t ns = none ↔ t ∉ ns := by
  rw [Sbunix.firstExtending_eq_none]
  constructor
  · intro hn hmem
    exact hn t hmem (List.prefix_refl t)
  · intro hn c hc htc
    exact hn (h.mem_of_isPrefix hc htc ht)

/-- The name found starts with `t`. -/
theorem firstExtending_isPrefix (h : firstExtending t ns = some i) :
    ∃ c, ns[i]? = some c ∧ t <+: c := by
  obtain ⟨hi, hp, -⟩ := List.findIdx?_eq_some_iff_getElem.mp h
  exact ⟨ns[i], List.getElem?_eq_getElem hi, of_decide_eq_true hp⟩

theorem PrefixFirst.getElem?_firstExtending (h : PrefixFirst ns) (ht : t ≠ [])
    (hi : firstExtending t ns = some i) : ns[i]? = some t := by
  obtain ⟨hlt, hp, hmin⟩ := List.findIdx?_eq_some_iff_getElem.mp hi
  have hsplit : ns = ns.take i ++ ns[i] :: ns.drop (i + 1) := by
    rw [List.getElem_cons_drop, List.take_append_drop]
  by_cases heq : t = ns[i]
  · rw [heq]
    exact List.getElem?_eq_getElem hlt
  · -- otherwise `t` would have been found earlier
    have hmem := h _ _ _ hsplit t (of_decide_eq_true hp) ht heq
    obtain ⟨j, hj, htj⟩ := List.mem_iff_getElem.mp hmem
    rw [List.length_take] at hj
    rw [List.getElem_take] at htj
    refine absurd ?_ (hmin j (by omega))
    rw [htj]
    exact decide_eq_true (List.prefix_refl t)

/-- Names added at the end do not change what was found. -/
theorem firstExtending_of_isPrefix (h : ns <+: ms) (hi : firstExtending t ns = some i) :
    firstExtending t ms = some i := by
  obtain ⟨post, rfl⟩ := h
  unfold firstExtending at *
  rw [List.findIdx?_append, hi]
  rfl

theorem firstExtending_append_singleton (h : firstExtending t ns = none) (htc : t <+: c) :
    firstExtending t (ns ++ [c]) = some ns.length := by
  have hp : decide (t <+: c) = true := decide_eq_true htc
  unfold firstExtending at *
  rw [List.findIdx?_append, h, List.findIdx?_singleton]
  simp [hp]

end Sbunix
