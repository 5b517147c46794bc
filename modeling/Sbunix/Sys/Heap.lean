import Sbunix.Sys.VmaRun
import Sbunix.Sys.Boot

/-!
# The heap of a program

`malloc` and `free` of `libc/stdlib.c` over `k_mmap` and `k_munmap`, and the runs in which
one process allocates and frees blocks while everything else goes on.
-/

namespace Sbunix

/-- The start of the page behind an address. -/
def pageBehind (v : Nat) : Nat := (v / 4096 + 1) * 4096

namespace VmState

variable (s : VmState)

/-- C `malloc` (`libc/stdlib.c:31-57`): `k_mmap` returns the old heap top. -/
def malloc (a size : Nat) : Option (Nat × VmState) :=
  (s.kMmap a size).map fun t => ((s.mm a).heapTop, t)

/-- C `free` (`libc/stdlib.c:11-28`). The length is `sizeof(*ptr)` of a `void *`, which is 1. -/
def free (a ptr : Nat) : Option VmState := s.kMunmap a ptr 1

/-- The heap top is the start of a page behind all VMAs of the process. -/
structure BelowHeap (c : Nat) : Prop where
  aligned : (s.mm c).heapTop % 4096 = 0
  below : ∀ r ∈ s.areas (s.vmaNodes c), r.2 < (s.mm c).heapTop

/-- The heap top is the start of a page, and each VMA of the process lies below it or in the upper
half, where the stacks are. -/
structure BesideHeap (c : Nat) : Prop where
  aligned : (s.mm c).heapTop % 4096 = 0
  beside : ∀ r ∈ s.areas (s.vmaNodes c), r.2 < (s.mm c).heapTop ∨ 2 ^ 47 ≤ r.1

end VmState

/-- Steps that keep the VMAs of a process beside its heap: a program whose segments come in rising
order, arguments of `syscall_exec` below the heap top or on a stack, and allocations of at least
one byte below `2 ^ 47`. -/
def PlacesBeside (l : VmLabel) (s : VmState) : Prop :=
  ∀ a, s.active = some a → match l with
    | .segment vaddr memsz =>
        ∀ r ∈ s.areas (s.vmaNodes a), r.2 < pageBehind (vaddr + memsz) ∨ 2 ^ 47 ≤ r.1
    | .argument addr len => addr + len < (s.mm a).heapTop ∨ 2 ^ 47 ≤ addr
    | .mmap length => 1 ≤ length ∧ (s.mm a).heapTop + length < 2 ^ 47
    | _ => True

/-- A block, and the VMA node that its `malloc` appended. -/
structure Block where
  addr : Nat
  size : Nat
  node : Nat
  deriving DecidableEq, Repr

/-- The memory side together with the blocks that `kmalloc` gave out and `kfree` did not take
back. -/
structure Heap where
  vm : VmState
  live : List Block

/-- The steps of a run of the heap: its two calls, and any step of the memory side. -/
inductive HeapLabel
  | malloc (size : Nat)
  | free (b : Block)
  | elsewhere (l : VmLabel)
  deriving DecidableEq, Repr

/-- A step of the heap of process `a`. Elsewhere is every step that leaves its VMA list alone:
its faults, stores and forks, and all that the other processes do. -/
def HeapLabel.Step (a : Nat) : HeapLabel → Heap → Heap → Prop
  | .malloc size, h, h' =>
      h.vm.active = some a ∧ 1 ≤ size ∧ (h.vm.mm a).heapTop + size ≤ 2 ^ 64 ∧
        ∃ p t, h.vm.malloc a size = some (p, t) ∧
          h' = ⟨t, ⟨p, size, (t.vmaNodes a).getLastD 0⟩ :: h.live⟩
  | .free b, h, h' =>
      h.vm.active = some a ∧ b ∈ h.live ∧
        ∃ t, h.vm.free a b.addr = some t ∧ h' = ⟨t, h.live.erase b⟩
  | .elsewhere l, h, h' =>
      ¬ h.vm.Touches a l ∧ vmStep l h.vm = some h'.vm ∧ h'.live = h.live

/-- The heap of process `a` in runs from a reachable state with `start`. -/
def HeapReach (start : VmState → Prop) (a : Nat) : Heap → Prop :=
  Reach (fun h => VmReach (fun _ _ => True) h.vm ∧ start h.vm ∧ h.live = []) (HeapLabel.Step a)

end Sbunix
