import Sbunix.Sys.KernHeap
import Sbunix.Sys.VirtMem

/-!
# The kernel heap

The limit is the largest word, so the check of `kmalloc` never stops anything, and the blocks are
those of a cursor that runs around all addresses.
-/

namespace Sbunix

namespace KernHeap

variable {kernVA byteCount : UInt64} {requests : List UInt64}

/-- The check is never true. -/
theorem kmalloc_eq : kmalloc kernVA byteCount = some (kernVA + 1, kernVA + byteCount) := by
  unfold kmalloc
  rw [if_neg]
  rw [UInt64.lt_iff_toNat_lt]
  have hlt := (kernVA + byteCount).toNat_lt
  have hmax : maxKern.toNat = 2 ^ 64 - 1 := rfl
  omega

/-- Below the end of the address space the requests are those of the VMA nodes. -/
theorem kmalloc_vmState (s : VmState) (hva : s.kernVA = kernVA.toNat) (hpos : 0 < byteCount.toNat)
    (hroom : kernVA.toNat + byteCount.toNat < 2 ^ 64) :
    (s.kmalloc byteCount.toNat).map (fun r => (r.1, r.2.kernVA)) =
      (kmalloc kernVA byteCount).map fun r => (r.1.toNat, r.2.toNat) := by
  have hret : (kernVA + 1).toNat = kernVA.toNat + 1 := by
    rw [UInt64.toNat_add, Nat.mod_eq_of_lt]
    · rfl
    · change kernVA.toNat + 1 < 2 ^ 64
      omega
  have hnext : (kernVA + byteCount).toNat = kernVA.toNat + byteCount.toNat := by
    rw [UInt64.toNat_add, Nat.mod_eq_of_lt hroom]
  rw [kmalloc_eq, VmState.kmalloc, hva, if_neg (by omega), Option.map_some, Option.map_some, hret,
    hnext]

/-- The blocks are laid one behind the other. -/
theorem bytes_blocks : (blocks kernVA requests).map bytes =
    bumpBlocks (2 ^ 64) (kernVA + 1).toNat (requests.map UInt64.toNat) := by
  induction requests generalizing kernVA with
  | nil => rfl
  | cons byteCount requests ih =>
    have hnext : (kernVA + byteCount + 1).toNat =
        ((kernVA + 1).toNat + byteCount.toNat) % 2 ^ 64 := by
      rw [← UInt64.toNat_add]
      congr 1
      ac_rfl
    rw [blocks, kmalloc_eq, List.map_cons, List.map_cons, bumpBlocks, ih, hnext]
    rfl

theorem kstack_area : kstackbase < kstackEnd ∧ kstackEnd ≤ 2 ^ 64 := by decide

/-- Every request is right, in any sequence from any `kern_VA`, if all bytes together end below the
kernel stacks; or begin above them and end before the end of the address space, or a block ends
there and the rest ends below the stacks. -/
theorem blocks_right_iff (kernVA : UInt64) (requests : List UInt64) :
    Right (blocks kernVA requests) ↔
      BumpFits (2 ^ 64) kstackbase kstackEnd (kernVA + 1).toNat (requests.map UInt64.toNat) := by
  have hc : (kernVA + 1).toNat < 2 ^ 64 := (kernVA + 1).toNat_lt
  obtain ⟨hlo, hhi⟩ := kstack_area
  rw [← bumpBlocks_fit_iff hlo hhi hc, ← bytes_blocks]
  constructor
  · intro h r hr
    obtain ⟨b, hb, rfl⟩ := List.mem_map.mp hr
    exact ⟨h.noWrap b hb, h.offStacks b hb⟩
  · intro h
    have hfits := h
    rw [bytes_blocks] at hfits
    have hsum := ((bumpBlocks_fit_iff hlo hhi hc).mp hfits).sum_le hlo hhi
    have hapart := bumpBlocks_pairwise hc hsum fun b hb => (hfits b hb).noWrap
    rw [← bytes_blocks, List.pairwise_map] at hapart
    exact ⟨fun b hb => (h _ (List.mem_map_of_mem hb)).noWrap, hapart,
      fun b hb => (h _ (List.mem_map_of_mem hb)).avoids⟩

/-- A request that wraps around, and one that reaches the kernel stacks. -/
theorem blocks_overrun : ¬ Right (blocks 0xFFFFFFFF80400000 [0x80000000]) ∧
    ¬ Right (blocks 0xFFFFFFFF80400000 [0x7FAD0000]) := by
  refine ⟨fun h => ?_, fun h => ?_⟩
  · exact absurd (h.noWrap (0xFFFFFFFF80400001, 0x80000000) (by decide)) (by decide)
  · exact h.offStacks (0xFFFFFFFF80400001, 0x7FAD0000) (by decide) kstackbase
      ⟨by decide, by decide⟩ (by decide)

end KernHeap

end Sbunix
