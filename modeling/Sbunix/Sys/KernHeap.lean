import Sbunix.Misc.BumpRing
import Sbunix.Sys.Stacks

/-!
# The kernel heap

C `kmalloc` (`sys/virt_mem.c:83-95`) on 64-bit words, and what a sequence of requests gets.
`VmState.kmalloc` is its part below the end of the address space.
-/

namespace Sbunix

namespace KernHeap

/-- C `MAX_KERN`. -/
def maxKern : UInt64 := 0xFFFFFFFFFFFFFFFF

/-- C `kmalloc`: the address and the new `kern_VA`, or `none` if it stops with the overshoot
error. -/
def kmalloc (kernVA byteCount : UInt64) : Option (UInt64 × UInt64) :=
  if maxKern < kernVA + byteCount then none else some (kernVA + 1, kernVA + byteCount)

/-- The blocks that requests get, as address and size, until one of them stops. -/
def blocks : UInt64 → List UInt64 → List (UInt64 × UInt64)
  | _, [] => []
  | kernVA, byteCount :: requests =>
      match kmalloc kernVA byteCount with
      | none => []
      | some (ret, kernVA) => (ret, byteCount) :: blocks kernVA requests

/-- The first byte and the number of bytes. -/
def bytes (b : UInt64 × UInt64) : Nat × Nat := (b.1.toNat, b.2.toNat)

/-- The end of the area of the kernel stacks. -/
def kstackEnd : Nat := kstackbase + 8192 * procSize

/-- No block wraps around, no byte is in two of them, and none is in the area of the kernel
stacks. -/
structure Right (bs : List (UInt64 × UInt64)) : Prop where
  noWrap : ∀ b ∈ bs, (bytes b).1 + (bytes b).2 ≤ 2 ^ 64
  disjoint : bs.Pairwise fun b b' => ∀ x, ¬ (InBlock (bytes b) x ∧ InBlock (bytes b') x)
  offStacks : ∀ b ∈ bs, ∀ x, InBlock (bytes b) x → ¬ (kstackbase ≤ x ∧ x < kstackEnd)

end KernHeap

end Sbunix
