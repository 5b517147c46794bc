import Mathlib.Logic.Function.Basic
import Sbunix.Misc.Bytes
import Sbunix.Misc.Ring

/-!
# Process table and schedule queue

The data of `include/sys/task_manager.h` and `sys/task_manager.c`: process
control blocks, the slots in use (`proc_descriptor`), the circular schedule
queue (`proc_Q`, `proc_start`, `proc_end`) and the `active` pointer, with the
operations on them that `sys/syscall.c` is built from.

Register images, stack pointers and entry points are left out: no scheduling
decision reads them.  Page tables, VMA lists and `heap_top` live in the memory
model.  The kernel switches stacks with inline assembly, so a system call may
return on another process's stack; `KernelPoint` names the places where control
can be, and the calls of `Sbunix.Sys.Syscall` move between them.
-/

namespace Sbunix

/-- The constants of `include/sys/task_manager.h:6-18`, under their C names. -/
abbrev procSize : Nat := 100
/-- C `MAX_FD`, the number of descriptors of a process. -/
abbrev maxFd : Nat := 20
/-- C `NEW_PROC`. -/
abbrev newProc : Nat := 0
/-- C `RUNNING`. -/
abbrev running : Nat := 1
/-- C `ZOMBIE`. -/
abbrev zombie : Nat := 2
/-- C `DEAD`; also the idle value of `sigchild_state`. -/
abbrev dead : Nat := 5
/-- C `WAITING_TO_LIVE` (`include/sys/task_manager.h:17`): blocked in `syscall_wait`. -/
abbrev waitingToLive : Int := 1
/-- C `WAITING_TO_DIE`: the stub an `exec` leaves behind. -/
abbrev waitingToDie : Int := 2
/-- The `-1` stored in unused cells of `proc_Q`, as a `uint64_t`. -/
abbrev noSlot : Nat := 2 ^ 64 - 1

/-- C `struct file_object_t` (`include/sys/vfs.h:29-32`); every descriptor owns its object. -/
structure FileObject where
  currentoffset : Nat
  node : Nat
  deriving DecidableEq, Repr

/-- C `struct pcb_t` (`include/sys/task_manager.h:35-59`), scheduling part.
`name` and `currentDir` are pointers: `none` is `NULL`, otherwise the string there. -/
structure Pcb where
  sno : Nat
  pid : Nat
  ppid : Nat
  waitstate : Int
  waitingfor : Int
  signallingChild : Nat
  sigchildState : Int
  fd : List (Option FileObject)
  name : Option (List Char)
  currentDir : Option (List Char)
  state : Nat
  deriving DecidableEq, Repr

/-- The all-zero PCB: a slot of the statically allocated table before its first
use, and a slot `syscall_wait` has wiped (`sys/syscall.c:438-444`). -/
def Pcb.zero : Pcb :=
  { sno := 0, pid := 0, ppid := 0, waitstate := 0, waitingfor := 0, signallingChild := 0,
    sigchildState := 0, fd := List.replicate maxFd none, name := none, currentDir := none,
    state := 0 }

/-- The file table with every descriptor `NULL`. -/
def noFiles : List (Option FileObject) := List.replicate maxFd none

/-- Where kernel control is: `user` between system calls, `switch` inside
`syscall_switch` before `get_nextproc`, `waitLoop` in `syscall_wait` just after
`do_wait` came back for the active process. -/
inductive KernelPoint
  | user
  | switch
  | waitLoop
  deriving DecidableEq, Repr

/-- The process side of the kernel's static data. `active` is a slot or `NULL`. -/
structure ProcState where
  allPro : Nat → Pcb
  procDescriptor : Nat → Nat
  procQ : Nat → Nat
  procStart : Nat
  procEnd : Nat
  active : Option Nat
  globalPid : Nat
  point : KernelPoint

namespace ProcState

variable (s : ProcState) (i j v : Nat) (f : Pcb → Pcb)

/-- The table with one process changed. -/
def modPro : ProcState := { s with allPro := Function.update s.allPro i (f (s.allPro i)) }

/-- The table of used slots with one entry changed. -/
def setDescriptor : ProcState :=
  { s with procDescriptor := Function.update s.procDescriptor i v }

/-- The push that every scheduling path makes by hand: store at `proc_end`, then
advance it modulo `PROC_SIZE + 1`. Nothing checks that the queue has room. -/
def pushQ : ProcState :=
  { s with procQ := Function.update s.procQ s.procEnd v,
           procEnd := (s.procEnd + 1) % (procSize + 1) }

/-- What `get_nextproc` does to the queue at each look (`sys/task_manager.c:76-78`):
the front cell is overwritten with `-1` and `proc_start` moves on. -/
def popQ : ProcState :=
  { s with procQ := Function.update s.procQ s.procStart noSlot,
           procStart := (s.procStart + 1) % (procSize + 1) }

/-- The processes waiting for the CPU: `proc_Q` from `proc_start` to `proc_end`. -/
def queue : List Nat := ringList (procSize + 1) s.procQ s.procStart s.procEnd

/-- A slot that holds a process which has not exited. -/
def Live : Prop :=
  i < procSize ∧ s.procDescriptor i = 1 ∧ (s.allPro i).state ≠ zombie

instance : Decidable (s.Live i) := inferInstanceAs (Decidable (_ ∧ _))

@[simp] theorem modPro_same : (s.modPro i f).allPro i = f (s.allPro i) := by simp [modPro]

theorem modPro_other {s : ProcState} {i j : Nat} {f : Pcb → Pcb} (h : j ≠ i) :
    (s.modPro i f).allPro j = s.allPro j := by simp [modPro, h]

@[simp] theorem modPro_procDescriptor : (s.modPro i f).procDescriptor = s.procDescriptor := rfl
@[simp] theorem modPro_procQ : (s.modPro i f).procQ = s.procQ := rfl
@[simp] theorem modPro_procStart : (s.modPro i f).procStart = s.procStart := rfl
@[simp] theorem modPro_procEnd : (s.modPro i f).procEnd = s.procEnd := rfl
@[simp] theorem modPro_active : (s.modPro i f).active = s.active := rfl
@[simp] theorem modPro_globalPid : (s.modPro i f).globalPid = s.globalPid := rfl
@[simp] theorem modPro_point : (s.modPro i f).point = s.point := rfl
@[simp] theorem modPro_queue : (s.modPro i f).queue = s.queue := rfl
@[simp] theorem setDescriptor_allPro : (s.setDescriptor i v).allPro = s.allPro := rfl
@[simp] theorem setDescriptor_procDescriptor :
    (s.setDescriptor i v).procDescriptor = Function.update s.procDescriptor i v := rfl
@[simp] theorem setDescriptor_procQ : (s.setDescriptor i v).procQ = s.procQ := rfl
@[simp] theorem setDescriptor_procStart : (s.setDescriptor i v).procStart = s.procStart := rfl
@[simp] theorem setDescriptor_procEnd : (s.setDescriptor i v).procEnd = s.procEnd := rfl
@[simp] theorem setDescriptor_active : (s.setDescriptor i v).active = s.active := rfl
@[simp] theorem setDescriptor_globalPid : (s.setDescriptor i v).globalPid = s.globalPid := rfl
@[simp] theorem setDescriptor_point : (s.setDescriptor i v).point = s.point := rfl
@[simp] theorem setDescriptor_queue : (s.setDescriptor i v).queue = s.queue := rfl
@[simp] theorem popQ_allPro : s.popQ.allPro = s.allPro := rfl
@[simp] theorem popQ_procDescriptor : s.popQ.procDescriptor = s.procDescriptor := rfl
@[simp] theorem popQ_procEnd : s.popQ.procEnd = s.procEnd := rfl
@[simp] theorem popQ_globalPid : s.popQ.globalPid = s.globalPid := rfl
@[simp] theorem pushQ_allPro : (s.pushQ v).allPro = s.allPro := rfl
@[simp] theorem pushQ_procDescriptor : (s.pushQ v).procDescriptor = s.procDescriptor := rfl
@[simp] theorem pushQ_procStart : (s.pushQ v).procStart = s.procStart := rfl
@[simp] theorem pushQ_active : (s.pushQ v).active = s.active := rfl
@[simp] theorem pushQ_globalPid : (s.pushQ v).globalPid = s.globalPid := rfl
@[simp] theorem pushQ_point : (s.pushQ v).point = s.point := rfl

end ProcState

/-- The index a loop `for (i = 0; i < PROC_SIZE; i++) if (p(i)) break;` leaves in
`i`: the first slot that satisfies the test, `PROC_SIZE` when none does. -/
def firstSlot (p : Nat → Bool) : Nat := ((List.range procSize).find? p).getD procSize

theorem firstSlot_spec {p : Nat → Bool} (h : firstSlot p < procSize) : p (firstSlot p) = true := by
  unfold firstSlot at h ⊢
  cases hf : (List.range procSize).find? p with
  | none => simp [hf] at h
  | some k => simpa using List.find?_some hf

theorem firstSlot_le (p : Nat → Bool) : firstSlot p ≤ procSize := by
  unfold firstSlot
  cases hf : (List.range procSize).find? p with
  | none => simp
  | some k =>
      have := List.mem_range.mp (List.mem_of_find?_eq_some hf)
      simpa using this.le

theorem firstSlot_lt {p : Nat → Bool} {i : Nat} (hi : i < procSize) (hp : p i = true) :
    firstSlot p < procSize := by
  unfold firstSlot
  cases hf : (List.range procSize).find? p with
  | none =>
      rw [List.find?_eq_none] at hf
      exact absurd hp (hf i (List.mem_range.mpr hi))
  | some k => simpa using List.mem_range.mp (List.mem_of_find?_eq_some hf)

/-- A slot that is the only one to satisfy the test is the one the loop finds. -/
theorem firstSlot_eq {p : Nat → Bool} {i : Nat} (hi : i < procSize) (hp : p i = true)
    (huniq : ∀ j < procSize, p j = true → j = i) : firstSlot p = i :=
  huniq _ (firstSlot_lt hi hp) (firstSlot_spec (firstSlot_lt hi hp))

namespace ProcState

/-- The loop that looks a process up by pid; `PROC_SIZE` when no slot carries it. -/
def slotOfPid (s : ProcState) (pid : Nat) : Nat := firstSlot fun i => (s.allPro i).pid == pid

/-- The loop that looks for an unused slot; `PROC_SIZE` when there is none. -/
def freeSlot (s : ProcState) : Nat := firstSlot fun i => s.procDescriptor i == 0

/-- C `create_new_process` (`sys/task_manager.c:576-603`), process part. The
parent's pid is stored by the caller; `name` is a fresh buffer, not yet written. -/
def createNewProcess (s : ProcState) (i : Nat) : ProcState :=
  { (s.modPro i fun p =>
      { p with
        sno := i, pid := s.globalPid, state := newProc, waitstate := 0, waitingfor := 0,
        signallingChild := 0, sigchildState := dead, currentDir := some ['/'], name := some [],
        fd := noFiles }).setDescriptor i 1 with
    globalPid := s.globalPid + 1 }

/-- One look of `get_nextproc` at the front of the queue, repeated `fuel` times
(`sys/task_manager.c:61-84`). The result `some (none, _)` is the C `NULL`; `none`
is an index outside `all_pro`. The front cell is overwritten with `-1`. -/
def getNextprocFrom : Nat → ProcState → Option (Option Nat × ProcState)
  | 0, _ => none
  | fuel + 1, s =>
      if s.procStart = s.procEnd then some (none, s)
      else
        let temp := s.procQ s.procStart
        if procSize ≤ temp then none
        else if s.procDescriptor (s.allPro temp).sno = 1 ∧
            ((s.allPro temp).state = running ∨ (s.allPro temp).state = newProc) then
          some (some temp, s.popQ)
        else getNextprocFrom fuel s.popQ

/-- C `get_nextproc`. Every look moves `proc_start` one cell towards `proc_end`, so
`PROC_SIZE + 1` looks reach it. -/
def getNextproc (s : ProcState) : Option (Option Nat × ProcState) :=
  getNextprocFrom (procSize + 1) s

end ProcState

end Sbunix
