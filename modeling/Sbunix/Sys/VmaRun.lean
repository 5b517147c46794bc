import Sbunix.Misc.ChainFamily
import Sbunix.Sys.VmRun

/-!
# Runs of the VMA lists

The operations that move VMA nodes between the lists of the processes and the recycle
list, in any order and with anything else happening in between.
-/

namespace Sbunix

namespace VmState

variable (s : VmState)

/-- The pointers that lists of VMA nodes start at: `vma_recycle_list`, and
`mmstruct.vma_list` of each slot. -/
def heads : Option Nat → Nat
  | none => s.vmaRecycleList
  | some c => (s.mm c).vmaList

/-- The node behind `p`. -/
def next (p : Nat) : Nat := (s.vma p).nextvma

/-- The test of `remove_from_vma_list` on a node. -/
def Covers (p startAddr endAddr : Nat) : Prop :=
  (s.vma p).vstart ≤ startAddr ∧ endAddr ≤ (s.vma p).vend

/-- The nodes of a list, from `p` on. -/
def nodesFrom (vma : Nat → Vma) : Nat → Nat → List Nat
  | 0, _ => []
  | fuel + 1, p => if p = 0 then [] else p :: nodesFrom vma fuel (vma p).nextvma

/-- The nodes of the list of a process. -/
def vmaNodes (c : Nat) : List Nat := nodesFrom s.vma (2 ^ 64) (s.mm c).vmaList

/-- The nodes of `vma_recycle_list`. -/
def recycledNodes : List Nat := nodesFrom s.vma (2 ^ 64) s.vmaRecycleList

/-- What the nodes `l` cover. -/
def areas (l : List Nat) : List (Nat × Nat) := l.map fun p => ((s.vma p).vstart, (s.vma p).vend)

/-- The steps that work on the VMA list of the slot `c`. -/
def Touches (c : Nat) : VmLabel → Prop
  | .fork d | .exec d | .kill d => d = c
  | .segment .. | .argument .. | .mmap _ | .munmap .. | .exit => s.active = some c
  | .switch _ | .kernelFault _ | .userFault .. | .userStore .. | .kernelStore .. => False

/-- What else the kernel does: no node changes, a list is at most emptied (for a new process)
and the heap grows. -/
structure Elsewhere (s t : VmState) : Prop where
  vma : t.vma = s.vma
  recycle : t.vmaRecycleList = s.vmaRecycleList
  lists : ∀ c, (t.mm c).vmaList = (s.mm c).vmaList ∨ (t.mm c).vmaList = 0
  heap : s.kernVA ≤ t.kernVA ∧ t.kernVA < 2 ^ 64

end VmState

/-- The operations on VMA lists; a task is a slot. -/
inductive VmaOp
  | add (task startAdd endAddr : Nat)
  | remove (task startAddr endAddr : Nat)
  | copy (active proc : Nat)
  | teardown (task : Nat)
  | elsewhere
  deriving DecidableEq, Repr

/-- One operation. `fork` copies to the slot of a new process, never to its own. -/
def VmaOp.Step : VmaOp → VmState → VmState → Prop
  | .add task startAdd endAddr, s, t =>
      ∃ p u, s.allocVma startAdd endAddr = some (p, u) ∧ u.appendToVmaList task p = some t
  | .remove task startAddr endAddr, s, t =>
      ∃ r, s.removeFromVmaList task startAddr endAddr = some (r, t)
  | .copy active proc, s, t => active ≠ proc ∧ s.copyVma active proc = some t
  | .teardown task, s, t => s.syscallExit task = some t
  | .elsewhere, s, t => s.Elsewhere t

/-- Before the first process there is no node. -/
def VmaOp.Init (s : VmState) : Prop := (∀ i, s.heads i = 0) ∧ s.kernVA < 2 ^ 64

/-- The states that are reached by calls of the VMA functions. -/
abbrev VmaReach : VmState → Prop := Reach VmaOp.Init VmaOp.Step

/-- `lists none` is the recycle list and `lists (some c)` the list of slot `c`: each ends with
`NULL`, none visits a node twice, no node is on two, and all nodes lie in the heap. -/
structure VmState.Owned (s : VmState) (lists : Option Nat → List Nat) : Prop where
  family : ChainFamily s.next 0 s.heads lists
  heap : ∀ i, ∀ x ∈ lists i, x ≤ s.kernVA
  bound : s.kernVA < 2 ^ 64

end Sbunix
