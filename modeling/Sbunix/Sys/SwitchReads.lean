import Sbunix.Sys.ProcRun

/-!
# What `syscall_switch` and `kill_proc` go through

The pointers that each call reads or writes a PCB field through, in the order of the
source: `active`, and the result of `get_nextproc`.  `none` is `NULL`.
-/

namespace Sbunix

namespace ProcState

variable (s : ProcState)

/-- The value of `active->waitstate`; the zeroed page at address 0 reads as 0. -/
def activeWaitstate : Int :=
  match s.active with
  | none => 0
  | some a => (s.allPro a).waitstate

/-- The head of C `syscall_switch` (`sys/syscall.c:213-232`). The first test asks whether
`active` is `NULL`, the second one does not. -/
def switchReads : List (Option Nat) :=
  (match s.active with
    | none => []
    | some a =>
        if (s.allPro a).waitstate ≠ waitingToLive then
          -- `waitstate`, and the stores of `sno`, `k_stack`, `u_stack` and `state`
          List.replicate 5 s.active
        else [s.active]) ++
  (if s.activeWaitstate = waitingToLive then [s.active, s.active] else [s.active])

/-- C `kill_proc` (`sys/syscall.c:150-205`), up to its last statement but one. -/
def killReads : List (Option Nat) :=
  -- `sno`, `sno`, `mmstruct`, `mmstruct`, `sno`, `sno`, `sno`, `ppid`, `pid`, `signalling_child`
  List.replicate 10 s.active

/-- The rest of C `syscall_switch` (`sys/syscall.c:233-318`), and the head of the inner call for
a stub. -/
def dispatchReads : List (Option Nat) :=
  match s.getNextproc with
  | none => []
  | some (p, s₁) =>
      -- `k_stackbase`, `cr3` and `state`
      [p, p, p] ++
        match p with
        | none => []
        | some t =>
            let s₂ := { s₁ with active := some t }
            let q : Pcb := s₂.allPro t
            if q.state = newProc then [p, p]
            else if q.waitstate = waitingToLive then [p, p]
            else if q.waitstate = waitingToDie then
              if q.signallingChild = toUint64 q.waitingfor ∧ q.sigchildState = 0 then
                [p, p, p, p, p] ++ s₂.killReads ++
                  match s₂.killProc with
                  | none => []
                  | some s₃ => s₃.switchReads
              else [p, p, p, p, p] ++ switchReads { s₂.pushQ q.sno with active := none }
            else [p, p, p]

/-- C `do_wait` (`sys/syscall.c:373-387`). -/
def doWaitReads (a : Nat) : List (Option Nat) :=
  [s.active, s.active, s.active] ++
    switchReads ((s.pushQ (s.allPro a).sno).modPro a fun p => { p with state := running })

end ProcState

/-- The pointers a step goes through. -/
def ProcLabel.reads (s : ProcState) : ProcLabel → List (Option Nat)
  | .yield => s.switchReads
  | .exit status =>
      match s.active with
      | none => [none]
      | some a =>
          s.active :: ProcState.switchReads { s.endProcess a (toInt32 status) with active := none }
  | .wait pid =>
      match s.active with
      | none => [none]
      | some a =>
          s.active ::
            if s.checkLiveChild a (toInt32 pid) then
              (s.modPro a fun p =>
                { p with waitstate := waitingToLive, waitingfor := toInt32 pid }).doWaitReads a
            else []
  | .dispatch => s.dispatchReads
  | .resumeWait =>
      match s.active with
      | none => [none]
      | some a => s.active :: if ProcState.waitDone (s.allPro a) then [] else s.doWaitReads a
  | .fork | .exec _ | .execFail | .kill _ => [s.active]

/-- A step goes through no `NULL`. -/
def NullFree (l : ProcLabel) (s : ProcState) : Prop := none ∉ l.reads s

instance {l : ProcLabel} {s : ProcState} : Decidable (NullFree l s) :=
  inferInstanceAs (Decidable (¬ _))

/-- Nobody exits, and the process that `syscall_switch` takes is no `exec` stub. -/
def KeepsActive (l : ProcLabel) (s : ProcState) : Prop :=
  match l with
  | .exit _ => False
  | .dispatch => ∀ x xs, s.queue = x :: xs → (s.allPro x).waitstate ≠ waitingToDie
  | _ => True

end Sbunix
