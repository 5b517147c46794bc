import Sbunix.Misc.Reach
import Sbunix.Sys.Kill

/-!
# Runs of the process side

The calls as labelled steps.  A user process makes a call when control is in user
mode; `dispatch` and `resumeWait` are the kernel's own steps inside
`syscall_switch` and `syscall_wait`.
-/

namespace Sbunix

/-- Calls with their register arguments, and the two kernel steps. -/
inductive ProcLabel
  | fork
  | yield
  | exit (status : Nat)
  | wait (pid : Nat)
  | exec (file : List Char)
  | execFail
  | kill (pid : Nat)
  | dispatch
  | resumeWait
  deriving DecidableEq, Repr

/-- Where control is when a step is taken. -/
def ProcLabel.point : ProcLabel → KernelPoint
  | .dispatch => .switch
  | .resumeWait => .waitLoop
  | _ => .user

/-- The call or kernel step a label names. -/
def ProcLabel.run : ProcLabel → ProcState → Option ProcState
  | .fork, s => s.syscallFork
  | .yield, s => some s.syscallSwitch
  | .exit status, s => s.syscallExit status
  | .wait pid, s => s.syscallWait pid
  | .exec file, s => s.syscallExec file
  | .execFail, s => s.syscallExecFail
  | .kill pid, s => s.syscallKill pid
  | .dispatch, s => s.dispatch
  | .resumeWait, s => s.resumeWait

/-- One step of the processes, at the point where its label belongs. -/
def procStep (l : ProcLabel) (s : ProcState) : Option ProcState :=
  if s.point = l.point then l.run s else none

/-- What C `init_proc` leaves behind (`sys/task_manager.c:630-676`): the shell in slot 0. -/
def initProc : ProcState :=
  { allPro := Function.update (fun _ => Pcb.zero) 0
      { Pcb.zero with pid := 1, state := running, sigchildState := dead,
                      name := some "bin/sbush".toList, currentDir := some ['/'] },
    procDescriptor := Function.update (fun _ => 0) 0 1,
    procQ := Function.update (fun _ => noSlot) 0 0,
    procStart := 1, procEnd := 1, active := some 0, globalPid := 2, point := .user }

/-- The calls a run of well-behaved programs consists of: no `kill`, and every `exec`
finds its file. -/
def ProcLabel.ordinary : ProcLabel → Prop
  | .kill _ => False
  | .execFail => False
  | _ => True

/-- The states of runs whose steps all meet a condition. -/
def ProcReach (cond : ProcLabel → ProcState → Prop) : ProcState → Prop :=
  Reach (· = initProc) fun l s t => cond l s ∧ procStep l s = some t

theorem ProcReach.mono {cond cond' : ProcLabel → ProcState → Prop} {s : ProcState}
    (hle : ∀ l s, cond l s → cond' l s) (h : ProcReach cond s) : ProcReach cond' s :=
  Reach.mono (fun l s _ hst => ⟨hle l s hst.1, hst.2⟩) h

theorem ProcReach.of_run {P : ProcLabel → Prop} {ls : List ProcLabel} {t : ProcState}
    (hl : ∀ l ∈ ls, P l) (h : runLabels procStep ls initProc = some t) :
    ProcReach (fun l _ => P l) t :=
  Reach.of_runLabels (.init rfl) hl h

end Sbunix
