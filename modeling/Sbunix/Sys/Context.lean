import Sbunix.Sys.IsrWrapper
import Sbunix.Sys.Stacks
import Sbunix.Sys.Yomama

/-!
# Register contexts

What the calls of `sys/syscall.c` do with the registers of the programs: the frames on the
kernel stacks, `k_stack`, `k_stackbase`, `u_stack`, `u_stackbase` and `entry_point` of the PCBs
and the kernel stack pointer of the TSS, on top of the process side of the calls.

The bytes of the C functions' own stack frames and of everything outside the kernel stacks are
given with each step; a program hands the kernel addresses of its own.
-/

namespace Sbunix

open ByteMem StackMachine

/-- The PCB fields `u_stack`, `u_stackbase` and `entry_point`. -/
structure ProcImage where
  user : UserStack
  entryPoint : UInt64

/-- `cpu.regs` are the registers of the running program, `cpu.sp` is the kernel's stack pointer.
`reg` is the argument that `sys_call` passes to the handler that a process is in. -/
structure Context where
  kernel : KernelState
  cpu : StackMachine Gpr
  rsp0 : Nat
  kStack : Nat → Nat
  kStackbase : Nat → Nat
  image : Nat → ProcImage
  reg : Nat → Nat

/-- What C functions leave behind: their lowest stack pointer, the bytes that they have written
and the registers. -/
structure Traces where
  low : Nat
  bytes : ByteMem
  regs : Gpr → UInt64

/-- What a step of the process side takes from elsewhere: the traces of the C functions on the
caller's stack and on that of a new process, the stack pointer that `movq %rsp` reads, and for
`exec` the entry point of the file and the number of arguments. -/
structure KernelWork where
  traces : Traces
  childTraces : Traces
  kernelStack : Nat
  entryPoint : UInt64
  argc : UInt64

/-- The steps of the machine: the running program computes or enters the kernel, or the kernel
works. -/
inductive ContextLabel
  /-- The program computes. -/
  | program (regs : Gpr → UInt64)
  | interrupt (v : Nat) (err : UInt64) (traces : Traces)
  | sysCall (traces : Traces)
  /-- A handler that is not of the process side. -/
  | files (fd : List (Option FileObject)) (currentDir : Option (List Char)) (ret : UInt64)
      (traces : Traces)
  | run (l : ProcLabel) (w : KernelWork)

/-- The area of the kernel stacks. -/
def InKstacks (x : Nat) : Prop := kstackbase ≤ x ∧ x < kstackbase + 8192 * procSize

instance (x : Nat) : Decidable (InKstacks x) := inferInstanceAs (Decidable (_ ∧ _))

/-- Memory after C functions that started with the stack pointer `sp`. -/
def Traces.over (tr : Traces) (sp : Nat) (m : ByteMem) : ByteMem :=
  fun x => if InKstacks x ∧ ¬ (tr.low ≤ x ∧ x < sp) then m x else tr.bytes x

/-- The C function behind a wrapper. -/
def Traces.body (tr : Traces) : HandlerBody := fun _ c => ⟨tr.regs, c.sp, tr.over c.sp c.mem⟩

/-- Stores into a field of the `gpr_t` at `reg`. -/
def setField (m : ByteMem) (reg : Nat) (f : Gpr) (w : UInt64) : ByteMem :=
  m.storeWord (reg + 8 * gprT.idxOf f) w

/-- A difference of 64-bit addresses. -/
def subAddr (a b : Nat) : Nat := (2 ^ 64 - b % 2 ^ 64 + a) % 2 ^ 64

/-- The address that lies below `top` as `reg` lies below `base`: `child_rg`
(`sys/syscall.c:900-901`). -/
def sameDepth (top base reg : Nat) : Nat := subAddr top (subAddr base reg)

namespace Context

variable (s : Context) (a i : Nat)

/-- The `gpr_t` of the call that the process in slot `a` is in. -/
def fields (m : ByteMem) : Gpr → UInt64 := frame m (s.reg a) gprT

/-- Memory when the handler of slot `a` has run. -/
def worked (tr : Traces) : ByteMem := tr.over (s.reg a) s.cpu.mem

/-- `reg->rax = syscall_ret` in `sys_call`, and the end of `_syscall`. -/
def ret (k : KernelState) (m : ByteMem) (w : UInt64) : Context :=
  { s with kernel := k,
           cpu := resume { s.cpu with sp := s.reg a, mem := setField m (s.reg a) .rax w } }

/-- The inline assembly that starts the process in slot `i` from its `k_stack`, with
`set_tss_rsp` before it. -/
def start : Context :=
  { s with rsp0 := s.kStackbase i, cpu := resume { s.cpu with sp := s.kStack i } }

/-- `active->u_stack = reg->usersp`. -/
def saveUser (m : ByteMem) : Nat → ProcImage :=
  Function.update s.image a
    { s.image a with
      user := { (s.image a).user with uStack := (s.fields a m .usersp).toNat } }

/-- `create_kstack` and `copy_kstack` for the new process `i` of the process in slot `a`: its
`k_stackbase` and memory. -/
def newStack (w : KernelWork) : Option (Nat × ByteMem) := do
  let c := createKstack (s.worked a w.traces) i
  let r ← copyKstack c.2 w.kernelStack (s.kStackbase a) c.1
  some (c.1, r.2)

/-- The user stack that `init_stack` gives to the new process `i`. Its bytes are not those of
the kernel stacks; the pointers do not depend on them. -/
def childStack (uStack : Nat) : UserStack :=
  (forkStack s.cpu.mem s.cpu.mem i (s.image a).user.uStackbase uStack (s.image i).user.uStack).1

/-- C `syscall_fork` (`sys/syscall.c:869-937`). -/
def fork (w : KernelWork) : Option Context := do
  let a ← s.kernel.proc.active
  let i := s.kernel.proc.freeSlot
  let k ← kernelStep (.run .fork) s.kernel
  let (top, m) ← s.newStack a i w
  let childRg := sameDepth top (s.kStackbase a) (s.reg a)
  let u := s.childStack a i (s.fields a m .usersp).toNat
  let m₁ := setField m (s.reg a) .rax (UInt64.ofNat s.kernel.proc.globalPid)
  let m₂ := setField m₁ childRg .usersp (UInt64.ofNat u.uStack)
  let m₃ := setField m₂ childRg .rax 0
  some (({ s with
    kernel := k, cpu := { s.cpu with mem := w.childTraces.over childRg m₃ },
    kStack := Function.update (Function.update s.kStack a (s.reg a)) i childRg,
    kStackbase := Function.update s.kStackbase i top,
    image := Function.update (s.saveUser a m) i ⟨u, (s.image a).entryPoint⟩ } : Context).start i)

/-- C `syscall_exec` when the file is found (`sys/syscall.c:604-805`). `init_stack` goes by the
`u_stack` that the caller's PCB has from an earlier call. -/
def exec (file : List Char) (w : KernelWork) : Option Context := do
  let a ← s.kernel.proc.active
  let i := s.kernel.proc.freeSlot
  let k ← kernelStep (.run (.exec file)) s.kernel
  let (top, m) ← s.newStack a i w
  let childRg := sameDepth top (s.kStackbase a) (s.reg a)
  let u := s.childStack a i (s.image a).user.uStack
  let newargs := sameDepth u.uStackbase (s.image a).user.uStackbase (s.fields a m .rsi).toNat
  let m₁ := setField m childRg .rip w.entryPoint
  let m₂ := setField m₁ childRg .rdi (UInt64.ofNat newargs)
  let m₃ := setField m₂ childRg .usersp (UInt64.ofNat u.uStack)
  let m₄ := setField m₃ childRg .rsi w.argc
  some (({ s with
    kernel := k, cpu := { s.cpu with mem := w.childTraces.over childRg m₄ },
    kStack := Function.update s.kStack i childRg,
    kStackbase := Function.update s.kStackbase i top,
    image := Function.update s.image i ⟨u, w.entryPoint⟩ } : Context).start i)

/-- C `syscall_exec` when no file is found (`sys/syscall.c:704-715`): it returns 0 on the
caller's stack, after work on that of the process it has made. -/
def execFail (w : KernelWork) : Option Context := do
  let a ← s.kernel.proc.active
  let i := s.kernel.proc.freeSlot
  let k ← kernelStep (.run .execFail) s.kernel
  let (top, m) ← s.newStack a i w
  let childRg := sameDepth top (s.kStackbase a) (s.reg a)
  let u := s.childStack a i (s.image a).user.uStack
  some (({ s with
    kStack := Function.update s.kStack i childRg,
    kStackbase := Function.update s.kStackbase i top,
    image := Function.update s.image i ⟨u, 0⟩ } : Context).ret a k
      (w.childTraces.over childRg m) 0)

/-- C `syscall_switch` up to `get_nextproc` in a call of a program (`sys/syscall.c:217-224`). -/
def yield (w : KernelWork) : Option Context := do
  let a ← s.kernel.proc.active
  let k ← kernelStep (.run .yield) s.kernel
  let m := s.worked a w.traces
  some { s with kernel := k, cpu := { s.cpu with sp := s.reg a, mem := m },
                kStack := Function.update s.kStack a (s.reg a), image := s.saveUser a m }

/-- C `syscall_exit`; the status is `rdi` of the frame. -/
def exit (status : Nat) (w : KernelWork) : Option Context := do
  let a ← s.kernel.proc.active
  let k ← kernelStep (.run (.exit status)) s.kernel
  let m := s.worked a w.traces
  if (s.fields a m .rdi).toNat = status then
    some { s with kernel := k, cpu := { s.cpu with sp := s.reg a, mem := m } }
  else none

/-- C `do_wait` with the head of `syscall_switch`, which saves the stack pointer it is called
with (`sys/syscall.c:225-235`, `373-387`). -/
def blocked (k : KernelState) (w : KernelWork) : Context :=
  let m := s.worked a w.traces
  { s with kernel := k, cpu := { s.cpu with sp := w.kernelStack, mem := m },
           kStack := Function.update s.kStack a w.kernelStack, image := s.saveUser a m }

/-- C `syscall_wait`; without a child of that pid it returns 0. -/
def wait (pid : Nat) (w : KernelWork) : Option Context := do
  let a ← s.kernel.proc.active
  let k ← kernelStep (.run (.wait pid)) s.kernel
  let m := s.worked a w.traces
  if (s.fields a m .rdi).toNat = pid then
    if k.proc.point = .user then some (s.ret a k m 0) else some (s.blocked a k w)
  else none

/-- C `syscall_wait` after `do_wait` came back (`sys/syscall.c:417-458`). -/
def resumeWait (w : KernelWork) : Option Context := do
  let a ← s.kernel.proc.active
  let k ← kernelStep (.run .resumeWait) s.kernel
  let m := s.worked a w.traces
  if k.proc.point = .user then
    let res := ProcState.waitResult (s.kernel.proc.allPro a)
    let m₁ := setField m (s.reg a) .rax (UInt64.ofNat res.1)
    let m₂ := m₁.storeWord (s.fields a m₁ .rsi).toNat (UInt64.ofNat res.2)
    some (({ s with
      rsp0 := s.kStackbase a, kStack := Function.update s.kStack a (s.reg a),
      image := s.saveUser a m } : Context).ret a k m₂ (UInt64.ofNat res.1))
  else some (s.blocked a k w)

/-- C `syscall_kill` returns 0; the pid is `rdi` of the frame. -/
def kill (pid : Nat) (w : KernelWork) : Option Context := do
  let a ← s.kernel.proc.active
  let k ← kernelStep (.run (.kill pid)) s.kernel
  let m := s.worked a w.traces
  if (s.fields a m .rdi).toNat = pid then some (s.ret a k m 0) else none

/-- The rest of C `syscall_switch` (`sys/syscall.c:236-318`), on the stack of whichever process
called it. For a process in state `NEW_PROC` it builds a frame with the code segment `0x1B`,
which is the empty descriptor 3: a fault. -/
def dispatch (w : KernelWork) : Option Context := do
  let r ← s.kernel.proc.getNextproc
  let t ← r.1
  let k ← kernelStep (.run .dispatch) s.kernel
  let d : Context :=
    { s with kernel := k, rsp0 := s.kStackbase t,
             cpu := { s.cpu with mem := w.traces.over s.cpu.sp s.cpu.mem } }
  match k.proc.point with
  | .user => if (s.kernel.proc.allPro t).state = newProc then none else some (d.start t)
  | .waitLoop => some { d with cpu := { d.cpu with sp := s.kStack t } }
  | .switch => some d

/-- The step of the process side that a label names. -/
def run : ProcLabel → KernelWork → Option Context
  | .fork, w => s.fork w
  | .yield, w => s.yield w
  | .exit status, w => s.exit status w
  | .wait pid, w => s.wait pid w
  | .exec file, w => s.exec file w
  | .execFail, w => s.execFail w
  | .kill pid, w => s.kill pid w
  | .dispatch, w => s.dispatch w
  | .resumeWait, w => s.resumeWait w

/-- `int $0x80`: the call number is `rax`. A refused number returns at once with the frame as it
is (`sys/yomama.c:27-31`). -/
def sysCall (tr : Traces) : Option Context := do
  let a ← s.kernel.proc.active
  let k ← kernelStep (.sysCall (s.cpu.regs .rax).toNat) s.kernel
  let c := trap s.rsp0 s.cpu
  match k.handler with
  | none => some { s with kernel := k, cpu := resume (tr.body .sysCall c) }
  | some _ => some { s with kernel := k, cpu := c, reg := Function.update s.reg a c.sp }

end Context

/-- One step of the machine; `none` where the label is not possible. -/
def contextStep : ContextLabel → Context → Option Context
  | .program regs, s =>
      if s.kernel.userMode then some { s with cpu := { s.cpu with regs } } else none
  | .interrupt v err tr, s =>
      if s.kernel.userMode ∧ v ≠ 0x80 then do
        let code ← idtWrapper v
        some { s with cpu := (execAll tr.body code ⟨deliver s.rsp0 v err s.cpu, []⟩).cpu }
      else none
  | .sysCall tr, s => s.sysCall tr
  | .files fd currentDir w tr, s => do
      let a ← s.kernel.proc.active
      let k ← kernelStep (.files fd currentDir) s.kernel
      some (s.ret a k (s.worked a tr) w)
  | .run l w, s => s.run l w

/-- What `init_proc` leaves behind (`sys/task_manager.c:630-676`): the shell starts at its entry
point with an empty user stack, and the TSS holds its `k_stack`. -/
structure Context.Started (s : Context) : Prop where
  kernel : s.kernel = initKernel
  rsp0 : s.rsp0 = s.kStack 0
  kStack : kstackTop 0 ≤ s.kStack 0 + 4096 ∧ s.kStack 0 ≤ kstackTop 0
  kStackbase : s.kStackbase 0 = kstackTop 0
  user : (s.image 0).user = ⟨stackTop 0, stackTop 0⟩
  rip : s.cpu.regs .rip = (s.image 0).entryPoint
  usersp : s.cpu.regs .usersp = UInt64.ofNat (stackTop 0)
  cs : s.cpu.regs .cs = 0x2B
  ss : s.cpu.regs .ss = 0x23

end Sbunix
