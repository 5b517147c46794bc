import Sbunix.Misc.Simulation
import Sbunix.Sys.Context

/-!
# One processor for each process

What the register contexts are for: a machine without stacks and frames, in which every process
keeps its registers while it does not run. The steps are those of `Sbunix.Sys.Context`.
-/

namespace Sbunix

/-- `saved i` are the registers of the process in slot `i` while it does not run. -/
structure VirtualCpus where
  kernel : KernelState
  cpu : Gpr → UInt64
  saved : Nat → Gpr → UInt64
  image : Nat → ProcImage

/-- The user stack of a new process in slot `i`: as deep as that of the process in slot `a`, up
to the 4095 bytes that are copied. -/
def stackLike (a i uStack : Nat) : UserStack :=
  ⟨stackTop i - min (stackTop a - uStack) 4095, stackTop i⟩

namespace VirtualCpus

variable (v : VirtualCpus) (a : Nat)

/-- The call returns `w`. -/
def ret (k : KernelState) (w : UInt64) : VirtualCpus :=
  { v with kernel := k, cpu := Function.update v.cpu .rax w }

/-- The images with the user stack pointer of the active process saved. -/
def saveUser : Nat → ProcImage :=
  Function.update v.image a
    { v.image a with user := { (v.image a).user with uStack := (v.cpu .usersp).toNat } }

/-- The process in slot `a` keeps its registers and leaves the processor. -/
def park (k : KernelState) : VirtualCpus :=
  { v with kernel := k, saved := Function.update v.saved a v.cpu, image := v.saveUser a }

/-- The child runs with the registers of its parent but `rax` and the stack pointer. -/
def fork : Option VirtualCpus := do
  let a ← v.kernel.proc.active
  let i := v.kernel.proc.freeSlot
  let k ← kernelStep (.run .fork) v.kernel
  let u := stackLike a i (v.cpu .usersp).toNat
  let pid := UInt64.ofNat v.kernel.proc.globalPid
  some { kernel := k, saved := Function.update v.saved a (Function.update v.cpu .rax pid),
         cpu := Function.update (Function.update v.cpu .usersp (UInt64.ofNat u.uStack)) .rax 0,
         image := Function.update (v.saveUser a) i ⟨u, (v.image a).entryPoint⟩ }

/-- The program starts at its entry point with its arguments; the other registers are the
caller's. -/
def exec (file : List Char) (w : KernelWork) : Option VirtualCpus := do
  let a ← v.kernel.proc.active
  let i := v.kernel.proc.freeSlot
  let k ← kernelStep (.run (.exec file)) v.kernel
  let u := stackLike a i (v.image a).user.uStack
  let newargs := UInt64.ofNat (stackTop i) - (UInt64.ofNat (stackTop a) - v.cpu .rsi)
  some { v with
    kernel := k, image := Function.update v.image i ⟨u, w.entryPoint⟩,
    cpu := Function.update (Function.update (Function.update (Function.update v.cpu
      .rip w.entryPoint) .rdi newargs) .usersp (UInt64.ofNat u.uStack)) .rsi w.argc }

/-- A call of `exec` that fails: the caller gets 0, and the slot stays behind. -/
def execFail : Option VirtualCpus := do
  let a ← v.kernel.proc.active
  let i := v.kernel.proc.freeSlot
  let k ← kernelStep (.run .execFail) v.kernel
  let u := stackLike a i (v.image a).user.uStack
  some ({ v with image := Function.update v.image i ⟨u, 0⟩ }.ret k 0)

/-- A call of `yield`: the active process parks in the kernel. -/
def yield : Option VirtualCpus := do
  let a ← v.kernel.proc.active
  let k ← kernelStep (.run .yield) v.kernel
  some (v.park a k)

/-- A call of `exit`. -/
def exit (status : Nat) : Option VirtualCpus := do
  let k ← kernelStep (.run (.exit status)) v.kernel
  if (v.cpu .rdi).toNat = status then some { v with kernel := k } else none

/-- A call of `waitpid`: it returns at once, or the active process parks. -/
def wait (pid : Nat) : Option VirtualCpus := do
  let a ← v.kernel.proc.active
  let k ← kernelStep (.run (.wait pid)) v.kernel
  if (v.cpu .rdi).toNat = pid then
    if k.proc.point = .user then some (v.ret k 0) else some (v.park a k)
  else none

/-- A parked `waitpid` that comes back: it returns the pid, or parks once more. -/
def resumeWait : Option VirtualCpus := do
  let a ← v.kernel.proc.active
  let k ← kernelStep (.run .resumeWait) v.kernel
  if k.proc.point = .user then
    let pid := (ProcState.waitResult (v.kernel.proc.allPro a)).1
    some ({ v with image := v.saveUser a }.ret k (UInt64.ofNat pid))
  else some (v.park a k)

/-- A call of `kill`. -/
def kill (pid : Nat) : Option VirtualCpus := do
  let k ← kernelStep (.run (.kill pid)) v.kernel
  if (v.cpu .rdi).toNat = pid then some (v.ret k 0) else none

/-- The next process gets its registers back. A stub is only looked at. -/
def dispatch : Option VirtualCpus := do
  let r ← v.kernel.proc.getNextproc
  let t ← r.1
  let k ← kernelStep (.run .dispatch) v.kernel
  if k.proc.point = .switch then some { v with kernel := k }
  else some { v with kernel := k, cpu := v.saved t }

/-- One step of the processes. -/
def run : ProcLabel → KernelWork → Option VirtualCpus
  | .fork, _ => v.fork
  | .yield, _ => v.yield
  | .exit status, _ => v.exit status
  | .wait pid, _ => v.wait pid
  | .exec file, w => v.exec file w
  | .execFail, _ => v.execFail
  | .kill pid, _ => v.kill pid
  | .dispatch, _ => v.dispatch
  | .resumeWait, _ => v.resumeWait

end VirtualCpus

/-- An interrupt is no step of the program at all. -/
def virtualStep : ContextLabel → VirtualCpus → Option VirtualCpus
  | .program regs, v => if v.kernel.userMode then some { v with cpu := regs } else none
  | .interrupt n _ _, v =>
      if v.kernel.userMode ∧ n ≠ 0x80 ∧ (idtWrapper n).isSome then some v else none
  | .sysCall _, v => do
      let k ← kernelStep (.sysCall (v.cpu .rax).toNat) v.kernel
      some { v with kernel := k }
  | .files fd currentDir w _, v => do
      let k ← kernelStep (.files fd currentDir) v.kernel
      some (v.ret k w)
  | .run l w, v => v.run l w

/-- The processors of the shell before its first step. -/
def Context.virtual (s : Context) : VirtualCpus :=
  ⟨s.kernel, s.cpu.regs, fun _ => s.cpu.regs, s.image⟩

/-! ## Runs in which the kernel stacks suffice -/

/-- The lowest address of the slot that a stack pointer belongs to. -/
def stackFloor (sp : Nat) : Nat := kstackbase + (sp - 1 - kstackbase) / 8192 * 8192

/-- The process of slot `j` runs or will run again: it is no stub of an `exec`. -/
def ProcState.Returns (p : ProcState) (j : Nat) : Prop :=
  p.active = some j ∨ j ∈ p.queue ∧ (p.allPro j).waitstate ≠ waitingToDie

/-- The stack pointer that the C functions of a step start from. -/
def Context.kernelSp (s : Context) : Nat :=
  if s.kernel.userMode then s.rsp0
  else match s.kernel.proc.point with
    | .switch => s.cpu.sp
    | _ => (s.kernel.proc.active.map s.reg).getD 0

/-- A new process: the caller's stack is copied from inside its slot, the slot behind the new
one is not that of a process that runs again, and the user stack is not deeper than 8191. -/
structure CreationFits (s : Context) (w : KernelWork) (a uStack : Nat) : Prop where
  stack : stackFloor (s.reg a) < w.kernelStack ∧ w.kernelStack ≤ s.reg a
  child : kstackTop s.kernel.proc.freeSlot ≤ w.childTraces.low + 8192
  behind : ¬ s.kernel.proc.Returns (s.kernel.proc.freeSlot + 1)
  depth : uStack ≤ stackTop a ∧ stackTop a ≤ uStack + 8191

/-- The kernel stays in the slot of its stack pointer, a wait stores into memory of the program,
and no process is killed. -/
def ContextFits : ContextLabel → Context → Prop
  | .program _, _ => True
  | .interrupt _ _ tr, s | .sysCall tr, s | .files _ _ _ tr, s => stackFloor s.kernelSp ≤ tr.low
  | .run l w, s =>
      stackFloor s.kernelSp ≤ w.traces.low ∧ ∀ a, s.kernel.proc.active = some a →
        match l with
        | .fork => CreationFits s w a (s.fields a s.cpu.mem .usersp).toNat
        | .exec _ | .execFail => CreationFits s w a (s.image a).user.uStack
        | .wait _ => stackFloor (s.reg a) < w.kernelStack ∧ w.kernelStack ≤ s.reg a
        | .resumeWait =>
            (stackFloor (s.reg a) < w.kernelStack ∧ w.kernelStack ≤ s.reg a) ∧
              (s.fields a s.cpu.mem .rsi).toNat + 8 ≤ kstackbase
        | .kill _ => False
        | .yield | .exit _ | .dispatch => True

/-- A step for which the kernel stacks suffice. -/
def ContextMove (l : ContextLabel) (s t : Context) : Prop :=
  ContextFits l s ∧ contextStep l s = some t

/-- The runs of the kernel with their labels. -/
def ContextRun : Context → List ContextLabel → Context → Prop := Run ContextMove

/-- The process of slot `a` does not run: it waits in the queue, or looks in `syscall_wait` for
an ended child. -/
def ProcState.Away (p : ProcState) (a : Nat) : Prop :=
  a ∈ p.queue ∨ p.point = .waitLoop ∧ p.active = some a

/-- The runs in which the process of slot `a` does not run. -/
def Meanwhile (a : Nat) : Context → List ContextLabel → Context → Prop :=
  Run fun l s t => ContextMove l s t ∧ t.kernel.proc.Away a

/-- A run of the virtual processors. -/
def VirtualRun : VirtualCpus → List ContextLabel → VirtualCpus → Prop :=
  Run fun l v w => virtualStep l v = some w


/-! ## What a program can see of a step -/

/-- No traces. -/
def Traces.none : Traces := ⟨0, fun _ => 0, fun _ => 0⟩

/-- The work of the C functions is not seen. -/
def KernelWork.seen (w : KernelWork) : KernelWork :=
  { w with traces := .none, childTraces := .none, kernelStack := 0 }

/-- A label without what the handlers leave below their stacks. -/
def ContextLabel.seen : ContextLabel → ContextLabel
  | .program regs => .program regs
  | .interrupt v err _ => .interrupt v err .none
  | .sysCall _ => .sysCall .none
  | .files fd currentDir ret _ => .files fd currentDir ret .none
  | .run l w => .run l w.seen

instance (p : ProcState) (j : Nat) : Decidable (p.Returns j) := inferInstanceAs (Decidable (_ ∨ _))

/-- The condition of a call on the program of slot `a`: on the slots and the user stack for a
creation, on the address of the status for a wait. -/
def ProcLabel.Fits (l : ProcLabel) (v : VirtualCpus) (a : Nat) : Prop :=
  let creation uStack := ¬ v.kernel.proc.Returns (v.kernel.proc.freeSlot + 1) ∧
    uStack ≤ stackTop a ∧ stackTop a ≤ uStack + 8191
  match l with
  | .fork => creation (v.cpu .usersp).toNat
  | .exec _ | .execFail => creation (v.image a).user.uStack
  | .resumeWait => (v.cpu .rsi).toNat + 8 ≤ kstackbase
  | .kill _ => False
  | .yield | .exit _ | .wait _ | .dispatch => True

instance (l : ProcLabel) (v : VirtualCpus) (a : Nat) : Decidable (l.Fits v a) :=
  match l with
  | .fork | .exec _ | .execFail => inferInstanceAs (Decidable (_ ∧ _))
  | .resumeWait => inferInstanceAs (Decidable (_ ≤ _))
  | .kill _ => isFalse id
  | .yield | .exit _ | .wait _ | .dispatch => isTrue trivial

/-- What remains of `ContextFits` without the kernel stacks. -/
def VirtualFits : ContextLabel → VirtualCpus → Prop
  | .run l _, v => ∀ a ∈ v.kernel.proc.active, l.Fits v a
  | _, _ => True

instance (l : ContextLabel) (v : VirtualCpus) : Decidable (VirtualFits l v) :=
  match l with
  | .run _ _ => inferInstanceAs (Decidable (∀ a ∈ _, _))
  | .program _ | .interrupt _ _ _ | .sysCall _ | .files _ _ _ _ => isTrue trivial

/-- A step that the condition allows. -/
def virtualMove (l : ContextLabel) (v : VirtualCpus) : Option VirtualCpus :=
  if VirtualFits l v then virtualStep l v else none

end Sbunix
