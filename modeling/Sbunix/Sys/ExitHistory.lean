import Sbunix.Sys.ProcRun

/-!
# Exits and reports of a run

A run of the process side together with what has happened in it: which processes
have ended with which status, and what the wait calls gave back.  The kernel reads
neither list; they are there to say what `syscall_wait` is for.
-/

namespace Sbunix

/-- A process that has ended, with its parent's pid and the status it ended with. -/
structure ExitRecord where
  pid : Nat
  ppid : Nat
  status : Nat
  deriving DecidableEq, Repr

/-- What one wait call of `parent` gave back. -/
structure Report where
  parent : Nat
  child : Nat
  status : Nat
  deriving DecidableEq, Repr

/-- A process state with the exits and the reports to waiting parents so far, the latest first. -/
structure History where
  proc : ProcState
  exits : List ExitRecord
  reports : List Report

/-- A stub whose program has signalled it (`sys/syscall.c:268`). -/
def stubDone (p : Pcb) : Prop :=
  p.waitstate = waitingToDie ∧ p.signallingChild = toUint64 p.waitingfor ∧ p.sigchildState = 0

instance (p : Pcb) : Decidable (stubDone p) := inferInstanceAs (Decidable (_ ∧ _))

/-- The status a process has ended with. -/
def exitStatus (exits : List ExitRecord) (pid : Nat) : Nat :=
  ((exits.find? fun e => e.pid == pid).map ExitRecord.status).getD 0

/-- The processes a step ends: the caller of `exit`, or a stub that is retired. The
stub stands for its program and ends with the program's status. -/
def newExits (h : History) : ProcLabel → List ExitRecord
  | .exit status =>
      match h.proc.active with
      | none => []
      | some a => [⟨(h.proc.allPro a).pid, (h.proc.allPro a).ppid, status⟩]
  | .dispatch =>
      match h.proc.queue with
      | [] => []
      | x :: _ =>
          if stubDone (h.proc.allPro x) then
            [⟨(h.proc.allPro x).pid, (h.proc.allPro x).ppid,
              exitStatus h.exits (h.proc.allPro x).signallingChild⟩]
          else []
  | _ => []

/-- What the wait call that a step completes gives back. -/
def newReports (h : History) : ProcLabel → List Report
  | .resumeWait =>
      match h.proc.active with
      | none => []
      | some a =>
          if ProcState.waitDone (h.proc.allPro a) then
            [⟨(h.proc.allPro a).pid, (ProcState.waitResult (h.proc.allPro a)).1,
              (ProcState.waitResult (h.proc.allPro a)).2⟩]
          else []
  | _ => []

/-- One step of the processes, recorded. -/
def historyStep (l : ProcLabel) (h : History) : Option History :=
  (procStep l h.proc).map fun t =>
    { proc := t, exits := newExits h l ++ h.exits, reports := newReports h l ++ h.reports }

/-- The history of a boot: nothing recorded. -/
def initHistory : History := { proc := initProc, exits := [], reports := [] }

/-- The histories of runs whose steps all meet a condition. -/
def HistoryReach (cond : ProcLabel → ProcState → Prop) : History → Prop :=
  Reach (· = initHistory) fun l h h' => cond l h.proc ∧ historyStep l h = some h'

/-- The child of exit record `e` answers the request of the waiting process `p`. -/
def Matches (p : Pcb) (e : ExitRecord) : Prop :=
  e.ppid = p.pid ∧ (p.waitingfor = -1 ∨ toUint64 p.waitingfor = e.pid)

/-- No child exit is lost and none is reported twice. -/
structure ExitsDelivered (h : History) : Prop where
  distinct : (h.reports.map fun r => (r.parent, r.child)).Nodup
  exited : ∀ r ∈ h.reports, ∃ e ∈ h.exits, e.ppid = r.parent ∧ e.pid = r.child ∧
    e.status = r.status
  delivered : h.proc.point = .waitLoop → ∀ a, h.proc.active = some a →
    (∃ e ∈ h.exits, Matches (h.proc.allPro a) e ∧
      ∀ r ∈ h.reports, ¬ (r.parent = e.ppid ∧ r.child = e.pid)) →
    ∃ e ∈ h.exits, Matches (h.proc.allPro a) e ∧
      (∀ r ∈ h.reports, ¬ (r.parent = e.ppid ∧ r.child = e.pid)) ∧
      ∃ t, h.proc.resumeWait = some t ∧ t.point = .user ∧
        ProcState.waitResult (h.proc.allPro a) = (e.pid, e.status)
  relayed : h.proc.point = .switch → ∀ x xs, h.proc.queue = x :: xs →
    (h.proc.allPro x).waitstate = waitingToDie →
    (∃ e ∈ h.exits, e.ppid = (h.proc.allPro x).pid ∧
      e.pid = toUint64 (h.proc.allPro x).waitingfor) →
    stubDone (h.proc.allPro x)

end Sbunix
