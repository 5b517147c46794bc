import Sbunix.Sys.VirtMem

/-!
# Address spaces of processes

The memory side of `sys/task_manager.c`: creating a process, sharing the pages of the
parent at `fork`, and the page-fault handler of `sys/yomama.c`.  A kernel stack, a user
stack and the strings of a PCB are not modelled; touching a kernel page for the first
time is a page fault in kernel mode, a step of its own.
-/

namespace Sbunix

namespace VmState

variable (s : VmState)

/-- C `change_ptable`. -/
def changePtable (addr : Nat) : VmState := { s with machine := { s.machine with cr3 := addr } }

/-- The memory side of C `create_new_process` (`sys/task_manager.c:564-591`);
`currentDir` and `name` take 100 bytes each. -/
def createNewProcess (procIndex : Nat) : Option VmState := do
  let s := s.setMm procIndex fun t => { t with vmaList := 0 }
  let (cr3, m) ← s.machine.mappageTable procIndex
  let s := { s with machine := m }.setMm procIndex fun t => { t with cr3 := cr3 }
  let (_, s) ← s.kmalloc 100
  let (_, s) ← s.kmalloc 100
  some { s with alive := Function.update s.alive procIndex true }

/-- C `increment_childpg_ref` (`sys/task_manager.c:290-307`), for `n` byte addresses from `v`. -/
def incrementFrom : Nat → Nat → Nat → Machine → Option Machine
  | 0, _, _, m => some m
  | n + 1, v, marked, m => do
      let p ← m.getPhysAddr v
      let paddr := p &&& 0xFFFFFFFFFFFFF000
      if paddr ≠ 0 ∧ paddr ≠ marked then do
        let fl ← m.fl.incrementReferenceCount paddr
        incrementFrom n (v + 1) paddr { m with fl := fl }
      else incrementFrom n (v + 1) marked m

/-- A reference added to each page of a range (`increment_childpg_ref`). -/
def incrementChildpgRef (vstart vend : Nat) : Option VmState :=
  s.onMachine (incrementFrom (vend + 1 - vstart) vstart 0)

/-- The second loop of C `copy_vma` (`sys/task_manager.c:325-343`), for `n` byte addresses
from `v`. -/
def shareFrom (procCr3 activeCr3 : Nat) : Nat → Nat → Nat → Machine → Option Machine
  | 0, _, _, m => some m
  | n + 1, v, marked, m => do
      let padd ← m.getPhysAddr v
      if padd = 0 ∨ padd = marked then shareFrom procCr3 activeCr3 n (v + 1) marked m
      else do
        let m ← { m with cr3 := procCr3 }.setCow v padd
        shareFrom procCr3 activeCr3 n (v + 1) padd { m with cr3 := activeCr3 }

/-- One turn of the outer loop of C `copy_vma`. -/
def copyNode (a proc node : Nat) : Option VmState := do
  let (newVma, s) ← s.allocVma (s.vma node).vstart (s.vma node).vend
  let s ← s.appendToVmaList proc newVma
  let s ← s.incrementChildpgRef (s.vma node).vstart (s.vma node).vend
  s.onMachine (shareFrom (s.mm proc).cr3 (s.mm a).cr3
    ((s.vma node).vend + 1 - (s.vma node).vstart) (s.vma node).vstart 0)

/-- C `copy_vma` (`sys/task_manager.c:310-346`), from a node of the list of `a` on. -/
def copyFrom (a proc : Nat) : Nat → Nat → VmState → Option VmState
  | 0, _, _ => none
  | fuel + 1, node, s =>
      if node = 0 then some s
      else do
        let s ← s.copyNode a proc node
        copyFrom a proc fuel (s.vma node).nextvma s

/-- The VMAs of the active process copied to a child (`copy_vma`). -/
def copyVma (a proc : Nat) : Option VmState :=
  copyFrom a proc (2 ^ 64) (s.mm a).vmaList s

end VmState

/-- The error code of a page fault: present, write, user. -/
structure FaultCode where
  present : Bool
  write : Bool
  user : Bool
  deriving DecidableEq, Repr

/-- C `pagemama` (`sys/yomama.c:70-148`). A fault that no VMA of the process covers ends
in the endless loop of `ThrowSegmentationFault`. -/
def VmState.pagemama (s : VmState) (ring0 : Bool) (addr : Nat) (err : FaultCode) :
    Option VmState :=
  if ring0 then
    s.onMachine fun m => (m.mapPhyaddr (addr >>> 12 <<< 12)).map (·.2)
  else do
    let a ← s.active
    if s.isPageInVmaList a addr then
      if err = ⟨true, true, true⟩ then do
        let chk ← s.machine.checkCow addr
        if chk then s.onMachine fun m => m.cow addr else some s
      else s.onMachine fun m => (m.mapPhyaddr (addr >>> 12 <<< 12)).map (·.2)
    else none

end Sbunix
