import Sbunix.Misc.Reach
import Sbunix.Sys.TaskManager

/-!
# Runs of the memory side

The memory side of the system calls of `sys/syscall.c` and the page faults, as labelled
steps.  Which slot a step works on is in its label: the schedule and the choice of a
free slot are those of the process side.
-/

namespace Sbunix

/-- What a VMA may cover: canonical addresses outside the recursive PML4 slot 510, and below
the PML4s. The steps that create VMAs are restricted to these. -/
def UserRange (a b : Nat) : Prop :=
  b < 2 ^ 47 ∨ (0xFFFF800000000000 ≤ a ∧ b < 0xFFFFFF0000000000) ∨
    (0xFFFFFF8000000000 ≤ a ∧ b < upml4 - 4096 * (procSize - 1))

instance (a b : Nat) : Decidable (UserRange a b) := inferInstanceAs (Decidable (_ ∨ _))

/-- An address below slot 510, or below the PML4s in the kernel half. -/
def UserAddr (v : Nat) : Prop :=
  v < 2 ^ 64 ∧ (p1Index v < 510 ∨ p1Index v = 511 ∧ pageOf v < pml4Page (procSize - 1))

instance : DecidablePred UserAddr := fun _ => inferInstanceAs (Decidable (_ ∧ _))

/-- An access the kernel may make for the first time at any moment: not below slot 510, not
to a PML4, and to a user half only while it belongs to a process. -/
def KernelRange (active : Option Nat) (v : Nat) : Prop :=
  v < 2 ^ 64 ∧ (p1Index v = 511 ∧ (∀ c < procSize, pageOf v ≠ pml4Page c) ∨
    p1Index v < 510 ∧ active ≠ none)

instance (active : Option Nat) (v : Nat) : Decidable (KernelRange active v) :=
  inferInstanceAs (Decidable (_ ∧ _))

/-- The hardware check of a user access. -/
def permits (m : Machine) (v : Nat) (write : Bool) : Bool :=
  match walk m.mem m.cr3 v with
  | none => false
  | some w =>
      let ok (e : Nat) := e / 4 % 2 == 1 && (!write || e / 2 % 2 == 1)
      ok w.e1 && ok w.e2 && ok w.e3 && ok w.e4

namespace VmState

variable (s : VmState)

/-- C `k_mmap` (`sys/syscall.c:50-91`). -/
def kMmap (a length : Nat) : Option VmState := do
  let heapTop := (s.mm a).heapTop
  let endAddr := (heapTop + length + (2 ^ 64 - 1)) % 2 ^ 64
  if UserRange heapTop endAddr then do
    let s := s.setMm a fun t => { t with heapTop := ((endAddr >>> 12 + 1) <<< 12) % 2 ^ 64 }
    let (anonVma, s) ← s.allocVma heapTop endAddr
    s.appendToVmaList a anonVma
  else none

/-- C `k_munmap` (`sys/syscall.c:93-113`). -/
def kMunmap (a addrToFree length : Nat) : Option VmState := do
  let (found, s) ← s.removeFromVmaList a addrToFree ((addrToFree + length) % 2 ^ 64)
  if found = 0 then none else some s

/-- What `read_elf` does to the address space of a segment (`sys/tarfs.c:125-135`). -/
def segment (a vaddr memsz : Nat) : Option VmState := do
  if UserRange vaddr (vaddr + memsz) then do
    let (segVma, s) ← s.allocVma vaddr (vaddr + memsz)
    let s ← s.appendToVmaList a segVma
    some (s.setMm a fun t =>
      { t with heapTop := (((s.vma segVma).vend >>> 12 + 1) <<< 12) % 2 ^ 64 })
  else none

/-- What `syscall_exec` does for an argument string (`sys/syscall.c:745-750`). -/
def argument (a addr len : Nat) : Option VmState := do
  if UserRange addr (addr + len) then do
    let (newVma, s) ← s.allocVma addr (addr + len)
    let s ← s.appendToVmaList a newVma
    s.incrementChildpgRef addr (addr + len)
  else none

/-- The memory side of C `syscall_fork` (`sys/syscall.c:842-878`). -/
def syscallFork (a c : Nat) : Option VmState := do
  let s ← s.createNewProcess c
  let s := s.setMm c fun t => { t with heapTop := (s.mm a).heapTop, vmaList := 0 }
  let s ← s.copyVma a c
  some { s.changePtable (s.mm c).cr3 with active := some c }

/-- The memory side of C `syscall_exec` up to the loading of the program. -/
def syscallExec (c : Nat) : Option VmState := do
  let s ← s.createNewProcess c
  some { s.changePtable (s.mm c).cr3 with active := some c }

/-- The loop over the VMAs in C `syscall_exit` and `kill_proc`, which saves the next node
first (`sys/syscall.c:341-350`). -/
def exitFrom (a : Nat) : Nat → Nat → VmState → Option VmState
  | 0, _, _ => none
  | fuel + 1, lastVma, s =>
      if lastVma = 0 then some s
      else do
        let nextVma := (s.vma lastVma).nextvma
        let (_, s) ← s.removeFromVmaList a (s.vma lastVma).vstart (s.vma lastVma).vend
        exitFrom a fuel nextVma s

/-- The memory side of C `syscall_exit` and `kill_proc`. -/
def syscallExit (a : Nat) : Option VmState := do
  let s := s.setMm a fun t => { t with cr3 := 0 }
  let s ← exitFrom a (2 ^ 64) (s.mm a).vmaList s
  let s := s.setMm a fun t => { t with vmaList := 0 }
  some { s with alive := Function.update s.alive a false, active := none }

/-- The loop over the VMAs in C `syscall_kill`, which follows `nextvma` of the node it has
just recycled (`sys/syscall.c:1294-1299`). -/
def killFrom (sno : Nat) : Nat → Nat → VmState → Option VmState
  | 0, _, _ => none
  | fuel + 1, lastVma, s =>
      if lastVma = 0 then some s
      else do
        let (_, s) ← s.removeFromVmaList sno (s.vma lastVma).vstart (s.vma lastVma).vend
        killFrom sno fuel (s.vma lastVma).nextvma s

/-- The memory side of C `syscall_kill` (`sys/syscall.c:1290-1299`). -/
def syscallKillMem (sno : Nat) : Option VmState := do
  let s := { s with alive := Function.update s.alive sno false }
  let s := s.setMm sno fun t => { t with cr3 := 0 }
  killFrom sno (2 ^ 64) (s.mm sno).vmaList s

/-- A byte store. -/
def store8 (v b : Nat) : Option VmState := s.onMachine fun m => m.store8 v (b % 256)

end VmState

/-- Steps of the memory side. The argument of `switch`, `fork`, `exec` and `kill` is a slot. -/
inductive VmLabel
  | switch (c : Nat)
  | fork (c : Nat)
  | exec (c : Nat)
  | segment (vaddr memsz : Nat)
  | argument (addr len : Nat)
  | mmap (length : Nat)
  | munmap (addr length : Nat)
  | kernelFault (v : Nat)
  | userFault (v : Nat) (write : Bool)
  | userStore (v b : Nat)
  | kernelStore (v b : Nat)
  | exit
  | kill (sno : Nat)
  deriving DecidableEq, Repr

/-- A step of the process `a`. Programs and the calls they make access their VMAs only. -/
def VmState.stepOf (s : VmState) (a : Nat) : VmLabel → Option VmState
  | .fork c => if c < procSize ∧ s.alive c = false then s.syscallFork a c else none
  | .exec c => if c < procSize ∧ s.alive c = false then s.syscallExec c else none
  | .segment vaddr memsz => s.segment a vaddr memsz
  | .argument addr len => s.argument a addr len
  | .mmap length => s.kMmap a length
  | .munmap addr length => s.kMunmap a addr length
  | .userFault v write =>
      if v < 2 ^ 64 ∧ permits s.machine v write = false then
        s.pagemama false v ⟨(walk s.machine.mem s.machine.cr3 v).isSome, write, true⟩
      else none
  | .userStore v b =>
      if v < 2 ^ 64 ∧ s.isPageInVmaList a v ∧ permits s.machine v true then s.store8 v b else none
  | .kernelStore v b => if v < 2 ^ 64 ∧ s.isPageInVmaList a v then s.store8 v b else none
  | .exit => s.syscallExit a
  | .kill sno => if sno < procSize ∧ sno ≠ a then s.syscallKillMem sno else none
  | .switch _ | .kernelFault _ => none

/-- A step of the memory side. -/
def vmStep (l : VmLabel) (s : VmState) : Option VmState :=
  match l with
  | .switch c =>
      if c < procSize ∧ s.alive c then
        some { s.changePtable (s.mm c).cr3 with active := some c }
      else none
  | .kernelFault v =>
      if KernelRange s.active v ∧ walk s.machine.mem s.machine.cr3 v = none then
        s.pagemama true v ⟨false, true, false⟩
      else none
  | l => s.active.bind fun a => s.stepOf a l

end Sbunix
