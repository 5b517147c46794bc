import Sbunix.Sys.ProcRun

/-!
# System call entry and the flag `RING_0_MODE`

C `sys_call` (`sys/yomama.c:23-39`) and the table `p` that `syscall_init` fills, around the
process side of the calls.  `RING_0_MODE` is a static flag: `sys_call` sets it, and each way
back to user mode clears it by hand.
-/

namespace Sbunix

/-- The entries of `p` that `syscall_init` sets (`sys/syscall.c:1337-1358`); the others are
`NULL`. -/
def syscallTable : List Nat :=
  [0, 1, 2, 3, 9, 11, 53, 54, 55, 56, 57, 58, 59, 60, 61, 62, 63, 64, 79, 80, 98, 99]

/-- The entry of `p` that a call of the process side is; the kernel's own steps are none. -/
def ProcLabel.number : ProcLabel → Option Nat
  | .kill _ => some 53
  | .fork => some 57
  | .yield => some 58
  | .exec _ | .execFail => some 59
  | .exit _ => some 60
  | .wait _ => some 61
  | .dispatch | .resumeWait => none

/-- The process side with `RING_0_MODE` and the entry of `p` that `sys_call` is executing. -/
structure KernelState where
  proc : ProcState
  ring0Mode : Nat
  handler : Option Nat

/-- A program is running. -/
def KernelState.userMode (s : KernelState) : Prop := s.proc.point = .user ∧ s.handler = none

instance (s : KernelState) : Decidable s.userMode := inferInstanceAs (Decidable (_ ∧ _))

/-- `RING_0_MODE` after a call or kernel step that leads to `p`. `syscall_fork` (line 917) and
`syscall_exec` (line 795) clear it before their `iretq`, `syscall_switch` before it resumes a
process in user mode (lines 243 and 293), and `sys_call` when the handler returns. -/
def ProcLabel.ring0After (l : ProcLabel) (p : ProcState) (ring0Mode : Nat) : Nat :=
  match l with
  | .fork | .exec _ | .execFail | .kill _ => 0
  | .yield | .exit _ => ring0Mode
  | .wait _ | .resumeWait | .dispatch => if p.point = .user then 0 else ring0Mode

/-- The other handlers work on open files, the current directory, the screen and the heap of
the caller. -/
def ProcState.fileCall (s : ProcState) (fd : List (Option FileObject))
    (currentDir : Option (List Char)) : Option ProcState := do
  let a ← s.active
  some (s.modPro a fun p => { p with fd, currentDir })

/-- `sysCall` is the entry of `sys_call`, `run` the body of a handler of the process side or a
kernel step, `files` the body of another handler. -/
inductive KernelLabel
  | sysCall (rax : Nat)
  | run (l : ProcLabel)
  | files (fd : List (Option FileObject)) (currentDir : Option (List Char))
  deriving DecidableEq, Repr

/-- A step of the kernel. A call number from 200 on is refused with a bare `return`
(`sys/yomama.c:27-31`); an entry of `p` that is `NULL` is a jump to address 0. -/
def kernelStep : KernelLabel → KernelState → Option KernelState
  | .sysCall rax, s =>
      if s.userMode then
        if 200 ≤ rax then some { s with ring0Mode := 1 }
        else if rax ∈ syscallTable then some { s with ring0Mode := 1, handler := some rax }
        else none
      else none
  | .run l, s =>
      if l.number = s.handler then do
        let p ← procStep l s.proc
        some ⟨p, l.ring0After p s.ring0Mode, none⟩
      else none
  | .files fd currentDir, s =>
      match s.handler with
      | none => none
      | some n =>
          if n ∈ [53, 57, 58, 59, 60, 61] then none
          else do
            let p ← s.proc.fileCall fd currentDir
            some ⟨p, 0, none⟩

/-- `init_proc` clears the flag before the shell starts (`sys/task_manager.c:662`). -/
def initKernel : KernelState := ⟨initProc, 0, none⟩

/-- The states of runs whose steps all meet a condition. -/
def KernelReach (cond : KernelLabel → KernelState → Prop) : KernelState → Prop :=
  Reach (· = initKernel) fun l s t => cond l s ∧ kernelStep l s = some t

end Sbunix
