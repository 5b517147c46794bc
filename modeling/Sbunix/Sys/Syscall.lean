import Sbunix.Sys.Process

/-!
# System calls: the process side

`syscall_fork`, `syscall_switch`, `syscall_exit`, `syscall_wait`, `syscall_exec`
and `kill_proc` of `sys/syscall.c`, on the process table and the schedule queue.
`none` is a machine that does not go on: a loop without exit, an index outside a
table, or a jump through a `NULL` process.

A read of `active->waitstate` while `active` is `NULL` faults in a zeroed page at
address 0 and yields 0; in `syscall_switch` it decides only whether a kernel
stack pointer is saved, which is not part of this model.
-/

namespace Sbunix

namespace ProcState

/-- The string behind a `char *`; `NULL` reads the zeroed page at address 0. -/
def cString (p : Option (List Char)) : List Char := p.getD []

/-- C `p[0] = '\0'`; through `NULL` the store hits the page at address 0, not the PCB. -/
def clearString (p : Option (List Char)) : Option (List Char) := p.map fun _ => []

/-- What a process loses when it ends (`sys/syscall.c:153-181`, `325-339`): it is a
`ZOMBIE` without files, name and directory. -/
def exitPcb (p : Pcb) : Pcb :=
  { p with state := zombie, fd := noFiles, name := clearString p.name,
           currentDir := clearString p.currentDir }

/-- C `syscall_fork` (`sys/syscall.c:827-939`). A full queue is an endless loop. -/
def syscallFork (s : ProcState) : Option ProcState := do
  let a ← s.active
  if (s.procEnd + 1) % (procSize + 1) = s.procStart then none
  else if s.freeSlot = procSize then none
  else
    let i := s.freeSlot
    let s₁ := s.createNewProcess i
    let parent := s₁.allPro a
    let s₂ := s₁.modPro i fun p =>
      { p with state := running, ppid := parent.pid,
               currentDir := some (cString parent.currentDir),
               name := some (cString parent.name), fd := parent.fd }
    let s₃ := s₂.modPro a fun p =>
      { p with sigchildState := (s₂.allPro i).state, state := running }
    some { s₃.pushQ (s₃.allPro a).sno with active := some i }

/-- The head of C `syscall_switch` (`sys/syscall.c:213-232`): a running process is
queued again; one blocked in `syscall_wait` was queued by `do_wait`. -/
def syscallSwitch (s : ProcState) : ProcState :=
  match s.active with
  | none => { s with point := .switch }
  | some a =>
      if (s.allPro a).waitstate ≠ waitingToLive then
        { (s.pushQ (s.allPro a).sno).modPro a fun p => { p with state := running } with
          point := .switch }
      else { s with point := .switch }

/-- Tells the parent of slot `i` about its child: the loop that stores into the
first PCB with the parent's pid (`sys/syscall.c:183-192`, `352-363`). -/
def signalParent (s : ProcState) (i : Nat) (status : Int) : ProcState :=
  if s.slotOfPid (s.allPro i).ppid < procSize then
    s.modPro (s.slotOfPid (s.allPro i).ppid) fun q =>
      { q with sigchildState := status, signallingChild := (s.allPro i).pid }
  else s

/-- The process of slot `a` ends and its parent is told `status`. -/
def endProcess (s : ProcState) (a : Nat) (status : Int) : ProcState :=
  (s.modPro (s.allPro a).sno exitPcb).signalParent a status

/-- The slot of an ended child is given up (`sys/syscall.c:200-203`, `432-434`). -/
def reap (s : ProcState) (i : Nat) : ProcState :=
  (s.modPro i fun p => { p with state := dead }).setDescriptor (s.allPro i).sno 0

/-- C `kill_proc` (`sys/syscall.c:150-205`): retires the active `exec` stub, reaps
the program it waited for and passes status 0 on to the stub's own parent. -/
def killProc (s : ProcState) : Option ProcState := do
  let a ← s.active
  let s₁ := s.endProcess a 0
  let i := s₁.slotOfPid (s₁.allPro a).signallingChild
  if i = procSize then none else some { s₁.reap i with active := none }

/-- The rest of C `syscall_switch` (`sys/syscall.c:233-318`): takes the next
process from the queue. A stub is retired when its program has signalled it and
queued again otherwise, and `syscall_switch` is entered anew without an active
process. An empty queue is a jump through `NULL`. -/
def dispatch (s : ProcState) : Option ProcState :=
  match s.getNextproc with
  | none => none
  | some (none, _) => none
  | some (some t, s₁) =>
      let s₂ := { s₁ with active := some t }
      let p : Pcb := s₂.allPro t
      if p.state = newProc then some { s₂ with point := .user }
      else if p.waitstate = waitingToLive then some { s₂ with point := .waitLoop }
      else if p.waitstate = waitingToDie then
        if p.signallingChild = toUint64 p.waitingfor ∧ p.sigchildState = 0 then
          s₂.killProc.map syscallSwitch
        else some (syscallSwitch { s₂.pushQ p.sno with active := none })
      else some { s₂ with point := .user }

/-- C `syscall_exit` (`sys/syscall.c:322-370`); `status` is the register `rdi`. -/
def syscallExit (s : ProcState) (status : Nat) : Option ProcState := do
  let a ← s.active
  some (syscallSwitch { s.endProcess a (toInt32 status) with active := none })

/-- C `check_live_child` (`sys/syscall.c:389-402`). -/
def checkLiveChild (s : ProcState) (a : Nat) (childId : Int) : Bool :=
  (List.range procSize).any fun i =>
    s.procDescriptor i == 1 && (s.allPro i).ppid == (s.allPro a).pid &&
      (childId == -1 || toUint64 childId == (s.allPro i).pid)

/-- C `do_wait` (`sys/syscall.c:373-387`): queues the waiting process and switches. -/
def doWait (s : ProcState) (a : Nat) : ProcState :=
  syscallSwitch ((s.pushQ (s.allPro a).sno).modPro a fun p => { p with state := running })

/-- C `syscall_wait` up to the first `do_wait` (`sys/syscall.c:404-416`); `pid` is
the register `rdi`, kept as an `int`. -/
def syscallWait (s : ProcState) (pid : Nat) : Option ProcState := do
  let a ← s.active
  if s.checkLiveChild a (toInt32 pid) then
    some ((s.modPro a fun p =>
      { p with waitstate := waitingToLive, waitingfor := toInt32 pid }).doWait a)
  else some s

/-- The test of the loop in `syscall_wait` (`sys/syscall.c:417`). -/
def waitDone (p : Pcb) : Prop :=
  p.sigchildState = 0 ∧ (p.waitingfor = -1 ∨ toUint64 p.waitingfor = p.signallingChild)

instance (p : Pcb) : Decidable (waitDone p) := inferInstanceAs (Decidable (_ ∧ _))

/-- What `syscall_wait` gives back: the child's pid in `rax` and the status stored
through `rsi` (`sys/syscall.c:451-453`). -/
def waitResult (p : Pcb) : Nat × Nat := (p.signallingChild, toUint64 p.sigchildState)

/-- C `syscall_wait` after `do_wait` came back (`sys/syscall.c:417-458`): reap the
signalling child and return to user mode, or wait again. -/
def resumeWait (s : ProcState) : Option ProcState := do
  let a ← s.active
  if waitDone (s.allPro a) then
    let s₁ := s.modPro a fun p => { p with waitstate := 0 }
    let i := s₁.slotOfPid (s₁.allPro a).signallingChild
    if i = procSize then none
    else
      let s₂ := (s₁.reap i).modPro i fun _ => Pcb.zero
      some { s₂.modPro a fun p => { p with sigchildState := dead } with point := .user }
  else some (s.doWait a)

/-- The part of C `syscall_exec` before the file search (`sys/syscall.c:604-645`):
a slot and a process for the new program, in the caller's directory. -/
def execChild (s : ProcState) (a i : Nat) : ProcState :=
  (s.createNewProcess i).modPro i fun p =>
    { p with state := running, ppid := ((s.createNewProcess i).allPro a).pid,
             currentDir := some (cString ((s.createNewProcess i).allPro a).currentDir) }

/-- C `syscall_exec` when the file is found (`sys/syscall.c:716-770`): the caller
becomes a stub waiting for the new program, which runs at once. -/
def syscallExec (s : ProcState) (file : List Char) : Option ProcState := do
  let a ← s.active
  if s.freeSlot = procSize then none
  else
    let i := s.freeSlot
    let s₁ := (s.execChild a i).modPro i fun p => { p with name := some file }
    let s₂ := s₁.modPro a fun p =>
      { p with waitstate := waitingToDie, waitingfor := toInt32 (s₁.allPro i).pid }
    some { s₂.pushQ (s₂.allPro a).sno with active := some i }

/-- C `syscall_exec` when no archive member matches (`sys/syscall.c:704-715`): the
caller goes on; the slot taken for the program keeps its descriptor. -/
def syscallExecFail (s : ProcState) : Option ProcState := do
  let a ← s.active
  if s.freeSlot = procSize then none else some (s.execChild a s.freeSlot)

end ProcState

end Sbunix
