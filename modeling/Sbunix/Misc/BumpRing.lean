import Mathlib.Algebra.Ring.Nat
import Mathlib.Data.List.Pairwise

/-!
# Bump allocation on a ring

Blocks are laid one behind the other on the addresses below `n`, with the cursor taken modulo `n`.
They never leave a gap, so they stay off an interval `[lo, hi)` only if none of them gets there.
-/

namespace Sbunix

variable {n lo hi c : Nat} {b : Nat × Nat} {sizes : List Nat}

/-- The blocks, as address and size. -/
def bumpBlocks (n : Nat) : Nat → List Nat → List (Nat × Nat)
  | _, [] => []
  | c, size :: sizes => (c, size) :: bumpBlocks n ((c + size) % n) sizes

/-- The address `x` is in the block. -/
def InBlock (b : Nat × Nat) (x : Nat) : Prop := b.1 ≤ x ∧ x < b.1 + b.2

/-- The block ends on the ring, and no address of `[lo, hi)` is in it. -/
structure BlockFits (n lo hi : Nat) (b : Nat × Nat) : Prop where
  noWrap : b.1 + b.2 ≤ n
  avoids : ∀ x, InBlock b x → ¬ (lo ≤ x ∧ x < hi)

/-- The room for all blocks together: they end before `lo`; or they begin behind `hi` and end
before `n`, or a block ends there and the rest ends before `lo`. -/
def BumpFits (n lo hi c : Nat) (sizes : List Nat) : Prop :=
  sizes.sum = 0 ∨ c + sizes.sum ≤ lo ∨
    hi ≤ c ∧ (c + sizes.sum ≤ n ∨ (∃ k, c + (sizes.take k).sum = n) ∧ c + sizes.sum ≤ n + lo)

theorem blockFits_iff (h : lo < hi) :
    BlockFits n lo hi b ↔ b.1 + b.2 ≤ n ∧ (b.2 = 0 ∨ b.1 + b.2 ≤ lo ∨ hi ≤ b.1) := by
  constructor
  · rintro ⟨hwrap, havoids⟩
    refine ⟨hwrap, ?_⟩
    have hfirst := havoids b.1
    have hlo := havoids lo
    unfold InBlock at hfirst hlo
    omega
  · rintro ⟨hwrap, hcases⟩
    refine ⟨hwrap, fun x hx hin => ?_⟩
    unfold InBlock at hx
    omega

/-- A block is there after some of the blocks before it. -/
theorem mem_bumpBlocks (hc : c < n) (h : b ∈ bumpBlocks n c sizes) :
    ∃ s, b.1 = (c + s) % n ∧ s + b.2 ≤ sizes.sum := by
  induction sizes generalizing c with
  | nil => cases h
  | cons size sizes ih =>
    rw [List.sum_cons]
    rcases List.mem_cons.mp h with rfl | h
    · exact ⟨0, (Nat.mod_eq_of_lt hc).symm, by dsimp only; omega⟩
    · obtain ⟨s, hs, hle⟩ := ih (Nat.mod_lt _ (by omega)) h
      refine ⟨size + s, ?_, by omega⟩
      rw [hs, Nat.mod_add_mod, Nat.add_assoc]

/-- Whether a block can be laid in front of others. -/
theorem bumpFits_cons {size : Nat} (hlo : lo < hi) (hhi : hi ≤ n) (hc : c < n) :
    BumpFits n lo hi c (size :: sizes) ↔
      BlockFits n lo hi (c, size) ∧ BumpFits n lo hi ((c + size) % n) sizes := by
  have htakes : (∃ k, c + ((size :: sizes).take k).sum = n) ↔
      ∃ k, c + size + (sizes.take k).sum = n := by
    constructor
    · rintro ⟨k, hk⟩
      cases k with
      | zero =>
        rw [List.take_zero, List.sum_nil] at hk
        omega
      | succ k =>
        rw [List.take_succ_cons, List.sum_cons, ← Nat.add_assoc] at hk
        exact ⟨k, hk⟩
    · rintro ⟨k, hk⟩
      refine ⟨k + 1, ?_⟩
      rw [List.take_succ_cons, List.sum_cons, ← Nat.add_assoc]
      exact hk
  rw [blockFits_iff hlo]
  unfold BumpFits
  rw [htakes, List.sum_cons]
  rcases Nat.lt_trichotomy (c + size) n with hlt | heq | hgt
  · -- the cursor moves on, and the blocks behind it may still end at `n`
    rw [Nat.mod_eq_of_lt hlt]
    by_cases hends : ∃ k, c + size + (sizes.take k).sum = n
    · simp only [hends, true_and]
      omega
    · simp only [hends, false_and, or_false]
      omega
  · -- the block ends at `n`, and the rest begins at 0
    have hends : ∃ k, n + (sizes.take k).sum = n := ⟨0, by rw [List.take_zero, List.sum_nil]; rfl⟩
    have hzero : ¬ hi ≤ 0 := by omega
    rw [heq, Nat.mod_self]
    simp only [hends, hzero, true_and, false_and, or_false]
    omega
  · have hnone : ¬ ∃ k, c + size + (sizes.take k).sum = n := by
      rintro ⟨k, hk⟩
      omega
    simp only [hnone, false_and, or_false]
    omega

/-- When every block fits. -/
theorem bumpBlocks_fit_iff (hlo : lo < hi) (hhi : hi ≤ n) (hc : c < n) :
    (∀ b ∈ bumpBlocks n c sizes, BlockFits n lo hi b) ↔ BumpFits n lo hi c sizes := by
  induction sizes generalizing c with
  | nil => exact ⟨fun _ => Or.inl rfl, fun _ b hb => absurd hb List.not_mem_nil⟩
  | cons size sizes ih =>
    rw [bumpFits_cons hlo hhi hc, ← ih (Nat.mod_lt _ (by omega)), bumpBlocks]
    exact List.forall_mem_cons

theorem BumpFits.sum_le (h : BumpFits n lo hi c sizes) (hlo : lo < hi) (hhi : hi ≤ n) :
    sizes.sum ≤ n := by
  unfold BumpFits at h
  omega

/-- Blocks that end on the ring and are not too many have no address in common. -/
theorem bumpBlocks_pairwise (hc : c < n) (hsum : sizes.sum ≤ n)
    (hwrap : ∀ b ∈ bumpBlocks n c sizes, b.1 + b.2 ≤ n) :
    (bumpBlocks n c sizes).Pairwise fun b b' => ∀ x, ¬ (InBlock b x ∧ InBlock b' x) := by
  induction sizes generalizing c with
  | nil => exact List.Pairwise.nil
  | cons size sizes ih =>
    rw [List.sum_cons] at hsum
    rw [bumpBlocks] at hwrap ⊢
    obtain ⟨hfirst, hrest⟩ := List.forall_mem_cons.mp hwrap
    have hnext : (c + size) % n < n := Nat.mod_lt _ (by omega)
    refine List.pairwise_cons.mpr ⟨fun b hb x => ?_, ih hnext (by omega) hrest⟩
    obtain ⟨s, hs, hle⟩ := mem_bumpBlocks hnext hb
    have hend := hrest b hb
    rw [Nat.mod_add_mod] at hs
    unfold InBlock
    rcases Nat.lt_or_ge (c + size + s) n with hlt | hge
    · rw [Nat.mod_eq_of_lt hlt] at hs
      dsimp only
      omega
    · rw [Nat.mod_eq_sub_mod hge, Nat.mod_eq_of_lt (by omega)] at hs
      dsimp only
      omega

end Sbunix
