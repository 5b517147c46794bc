import Sbunix.Sys.Heap

/-!
# The arithmetic of mmap

C `k_mmap` (`sys/syscall.c:50-91`) for any heap top and any length, with the address that it
returns.  `VmState.kMmap` is its part in which the VMA lies in user memory.
-/

namespace Sbunix

namespace VmState

variable (s : VmState)

/-- C `k_mmap`. It is `none` if `alloc_vma` stops with the overshoot error. -/
def kMmapAny (a length : Nat) : Option (Nat × VmState) := do
  let nextAvailHeapMem := (s.mm a).heapTop
  let endAddr := ((s.mm a).heapTop + length + (2 ^ 64 - 1)) % 2 ^ 64
  let nextPageAfterEndAddr := ((endAddr >>> 12 + 1) <<< 12) % 2 ^ 64
  let s := s.setMm a fun t => { t with heapTop := nextPageAfterEndAddr }
  let (anonVma, s) ← s.allocVma nextAvailHeapMem endAddr
  let s ← s.appendToVmaList a anonVma
  some (nextAvailHeapMem, s)

/-- The VMA nodes that `alloc_vma` can still give: the recycled ones, and those that fit behind
`kern_VA`. -/
def room : Nat := s.recycledNodes.length + (2 ^ 64 - 1 - s.kernVA) / 24

/-- What a call of `k_mmap` that does not fail should do. -/
structure MmapRight (t : VmState) (a length ret : Nat) : Prop where
  returns : ret = (s.mm a).heapTop
  noWrap : (s.mm a).heapTop + length ≤ 2 ^ 64
  records : t.areas (t.vmaNodes a) = s.areas (s.vmaNodes a) ++
    [((s.mm a).heapTop, (s.mm a).heapTop + length - 1)]
  aligned : (t.mm a).heapTop % 4096 = 0
  beyond : (s.mm a).heapTop + length - 1 < (t.mm a).heapTop
  grows : (s.mm a).heapTop ≤ (t.mm a).heapTop

/-- What a sequence of calls should do: each fails, or it is right. -/
def MmapsRight (a : Nat) : List Nat → VmState → Prop
  | [], _ => True
  | length :: lengths, s => ∀ ret t, s.kMmapAny a length = some (ret, t) →
      s.MmapRight t a length ret ∧ MmapsRight a lengths t

end VmState

/-- Blocks of these lengths, each from the page behind the one before it, all end below the last
page of the address space. -/
def EndsBelow : Nat → List Nat → Prop
  | _, [] => True
  | heapTop, length :: lengths =>
      heapTop + length ≤ 2 ^ 64 - 4096 ∧ EndsBelow (pageBehind (heapTop + length - 1)) lengths

end Sbunix
