import Mathlib.Logic.ExistsUnique
import Mathlib.Logic.Relation

/-!
# Rooted trees

A relation `child` on the nodes is a tree when everything is reachable from the root and no node
is the child of two.  It then has no cycles, every node has one depth, and a fresh leaf below any
node keeps it a tree.
-/

namespace Sbunix

variable {α : Type*} {root a b c : α} {node node' : α → Prop} {child child' : α → α → Prop}
  {m n : Nat}

/-- Every node is reached from the root, and every node but the root has one parent. -/
structure RootedTree (root : α) (node : α → Prop) (child : α → α → Prop) : Prop where
  rooted : node root
  closed : ∀ {a b}, child a b → node a ∧ node b
  parent : ∀ {a a' b}, child a b → child a' b → a = a'
  orphan : ∀ {a}, ¬ child a root
  reach : ∀ {a}, node a → Relation.ReflTransGen child root a

/-- `b` lies `n` levels below `a`. -/
inductive Below (child : α → α → Prop) (a : α) : Nat → α → Prop
  | refl : Below child a 0 a
  | tail {n : Nat} {b c : α} : Below child a n b → child b c → Below child a (n + 1) c

theorem Below.head (h : child a b) (hb : Below child b n c) : Below child a (n + 1) c := by
  induction hb with
  | refl => exact .tail .refl h
  | tail _ hc ih => exact .tail ih hc

namespace RootedTree

/-- No node lies below itself. -/
theorem acyclic (ht : RootedTree root node child) : ¬ Relation.TransGen child a a := by
  intro h
  have hnode : node a := by
    obtain ⟨b, -, hb⟩ := Relation.TransGen.tail'_iff.mp h
    exact (ht.closed hb).2
  have hr := ht.reach hnode
  clear hnode
  induction hr with
  | refl =>
    obtain ⟨b, -, hb⟩ := Relation.TransGen.tail'_iff.mp h
    exact ht.orphan hb
  | tail _ hbc ih =>
    -- the last step of the cycle comes from the only parent
    obtain ⟨c, hc, hca⟩ := Relation.TransGen.tail'_iff.mp h
    rw [ht.parent hca hbc] at hc
    exact ih (Relation.TransGen.head' hbc hc)

/-- Every node but the root is the child of exactly one node. -/
theorem exists_unique_parent (ht : RootedTree root node child) (ha : node a) (hne : a ≠ root) :
    ∃! b, child b a := by
  rcases Relation.ReflTransGen.cases_tail (ht.reach ha) with heq | ⟨b, -, hb⟩
  · exact absurd heq hne
  · exact ⟨b, hb, fun c hc => ht.parent hc hb⟩

/-- A node has one depth. -/
theorem depth_unique (ht : RootedTree root node child) (hm : Below child root m a)
    (hn : Below child root n a) : m = n := by
  induction hm generalizing n with
  | refl =>
    cases hn with
    | refl => rfl
    | tail _ hc => exact absurd hc ht.orphan
  | tail _ hbc ih =>
    cases hn with
    | refl => exact absurd hbc ht.orphan
    | tail hb hc =>
      rw [ht.parent hc hbc] at hb
      rw [ih hb]

/-- The root alone. -/
theorem singleton (hnode : ∀ a, node a ↔ a = root) (hchild : ∀ a b, ¬ child a b) :
    RootedTree root node child where
  rooted := (hnode root).mpr rfl
  closed h := absurd h (hchild _ _)
  parent h := absurd h (hchild _ _)
  orphan := hchild _ _
  reach ha := by
    rw [(hnode _).mp ha]

/-- A fresh leaf `b` below the node `a`. -/
theorem grow (ht : RootedTree root node child) (ha : node a) (hb : ¬ node b)
    (hnode : ∀ x, node' x ↔ node x ∨ x = b)
    (hchild : ∀ x y, child' x y ↔ child x y ∨ x = a ∧ y = b) : RootedTree root node' child' where
  rooted := (hnode root).mpr (Or.inl ht.rooted)
  closed {x y} h := by
    rw [hnode, hnode]
    rcases (hchild x y).mp h with h | ⟨rfl, rfl⟩
    · exact ⟨Or.inl (ht.closed h).1, Or.inl (ht.closed h).2⟩
    · exact ⟨Or.inl ha, Or.inr rfl⟩
  parent {x x' y} h h' := by
    rcases (hchild x y).mp h with h | ⟨rfl, rfl⟩
    · rcases (hchild x' y).mp h' with h' | ⟨rfl, rfl⟩
      · exact ht.parent h h'
      · exact absurd (ht.closed h).2 hb
    · rcases (hchild x' y).mp h' with h' | ⟨rfl, -⟩
      · exact absurd (ht.closed h').2 hb
      · rfl
  orphan {x} h := by
    rcases (hchild x root).mp h with h | ⟨-, rfl⟩
    · exact ht.orphan h
    · exact hb ht.rooted
  reach {x} h := by
    have hle : Relation.ReflTransGen child ≤ Relation.ReflTransGen child' :=
      Relation.ReflTransGen.mono fun u v huv => (hchild u v).mpr (Or.inl huv)
    rcases (hnode x).mp h with h | rfl
    · exact hle _ _ (ht.reach h)
    · exact (hle _ _ (ht.reach ha)).tail ((hchild a x).mpr (Or.inr ⟨rfl, rfl⟩))

end RootedTree

end Sbunix
