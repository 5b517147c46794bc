import Sbunix.Sys.AddressSpace

/-!
# VMA lists

The VMA nodes, the lists of `sys/virt_mem.c` and the recycle list, over the state of
the memory side of the kernel.  The nodes lie in the kernel heap; they are kept here
as a map from addresses, apart from the bytes of memory, which no page table or user
page shares with the heap.
-/

namespace Sbunix

/-- C `struct vma_struct` (`include/sys/task_manager.h:20-24`). -/
structure Vma where
  vstart : Nat
  vend : Nat
  nextvma : Nat

/-- The memory fields of a PCB: `cr3`, `mmstruct.vma_list` and `heap_top`. -/
structure Mm where
  cr3 : Nat
  vmaList : Nat
  heapTop : Nat

/-- The memory side of the kernel. `alive` says which slots hold a process that has not
exited or been killed. -/
structure VmState where
  machine : Machine
  vma : Nat → Vma
  mm : Nat → Mm
  alive : Nat → Bool
  active : Option Nat
  vmaRecycleList : Nat
  kernVA : Nat

namespace VmState

variable (s : VmState)

/-- The state with one VMA changed. -/
def setVma (p : Nat) (n : Vma) : VmState := { s with vma := Function.update s.vma p n }

/-- The state with one link changed. -/
def setNext (p q : Nat) : VmState := s.setVma p { s.vma p with nextvma := q }

/-- The state with the `mm` of one process changed. -/
def setMm (c : Nat) (f : Mm → Mm) : VmState := { s with mm := Function.update s.mm c (f (s.mm c)) }

/-- The walk to the last node of a list. Nodes have addresses below `2 ^ 64`, so a longer
walk is circular. -/
def lastVma (vma : Nat → Vma) : Nat → Nat → Option Nat
  | 0, _ => none
  | fuel + 1, p =>
      if (vma p).nextvma = 0 then some p else lastVma vma fuel (vma p).nextvma

/-- C `recyclevmastruct` (`sys/virt_mem.c:12-33`). -/
def recyclevmastruct (node : Nat) : Option VmState :=
  let s := s.setNext node 0
  if s.vmaRecycleList = 0 then some { s with vmaRecycleList := node }
  else (lastVma s.vma (2 ^ 64) s.vmaRecycleList).map fun last => s.setNext last node

/-- C `getvma_from_recylebin`. -/
def getvmaFromRecylebin : Nat × VmState :=
  if s.vmaRecycleList = 0 then (0, s)
  else (s.vmaRecycleList, { s with vmaRecycleList := (s.vma s.vmaRecycleList).nextvma })

/-- C `kmalloc` (`sys/virt_mem.c:83-96`). The check compares without wrap-around here: the
heap is backed by at most 50000 frames and does not reach the end of the address space. -/
def kmalloc (byteCount : Nat) : Option (Nat × VmState) :=
  if 2 ^ 64 - 1 < s.kernVA + byteCount then none
  else some (s.kernVA + 1, { s with kernVA := s.kernVA + byteCount })

/-- C `alloc_vma`; a node has 24 bytes. -/
def allocVma (startAdd endAddr : Nat) : Option (Nat × VmState) := do
  let r := s.getvmaFromRecylebin
  let (newVma, s) ← if r.1 = 0 then r.2.kmalloc 24 else some r
  some (newVma, s.setVma newVma ⟨startAdd, endAddr, 0⟩)

/-- C `append_to_vma_list`; a task is a slot. -/
def appendToVmaList (task vmaToInsert : Nat) : Option VmState :=
  if (s.mm task).vmaList = 0 then
    some (s.setMm task fun t => { t with vmaList := vmaToInsert })
  else
    (lastVma s.vma (2 ^ 64) (s.mm task).vmaList).map fun last => s.setNext last vmaToInsert

/-- A change of the machine. -/
def onMachine (f : Machine → Option Machine) : Option VmState :=
  (f s.machine).map fun m => { s with machine := m }

/-- The loop of `remove_from_vma_list` over the nodes behind the first. -/
def removeFrom (startAddr endAddr : Nat) : Nat → Nat → Nat → Option (Nat × VmState)
  | 0, _, _ => none
  | fuel + 1, prev, cur =>
      if cur = 0 then some (0, s)
      else if (s.vma cur).vstart ≤ startAddr ∧ endAddr ≤ (s.vma cur).vend then do
        let s₁ ← (s.setNext prev (s.vma cur).nextvma).recyclevmastruct cur
        let s₂ ← s₁.onMachine fun m => m.unmapPhyaddrRange (s₁.vma cur).vstart (s₁.vma cur).vend
        some (1, s₂)
      else removeFrom startAddr endAddr fuel cur (s.vma cur).nextvma

/-- C `remove_from_vma_list` (`sys/virt_mem.c:147-193`): the result and the state. -/
def removeFromVmaList (task startAddr endAddr : Nat) : Option (Nat × VmState) :=
  let head := (s.mm task).vmaList
  if head = 0 then some (0, s)
  else if (s.vma head).vstart ≤ startAddr ∧ endAddr ≤ (s.vma head).vend then do
    let s₁ ← s.onMachine fun m => m.unmapPhyaddrRange (s.vma head).vstart (s.vma head).vend
    let s₂ := s₁.setMm task fun t => { t with vmaList := (s₁.vma head).nextvma }
    let s₃ ← s₂.recyclevmastruct head
    some (1, s₃)
  else s.removeFrom startAddr endAddr (2 ^ 64) head head

/-- The loop of C `IsPageInVmaList`. -/
def inVmaFrom (vma : Nat → Vma) (vaddr : Nat) : Nat → Nat → Bool
  | 0, _ => false
  | fuel + 1, p =>
      if p = 0 then false
      else if (vma p).vstart ≤ vaddr ∧ vaddr ≤ (vma p).vend then true
      else inVmaFrom vma vaddr fuel (vma p).nextvma

/-- The address is inside a VMA of the process. -/
def isPageInVmaList (task vaddr : Nat) : Bool :=
  inVmaFrom s.vma vaddr (2 ^ 64) (s.mm task).vmaList

end VmState

end Sbunix
