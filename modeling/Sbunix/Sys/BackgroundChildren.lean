import Mathlib.Algebra.Ring.Nat
import Sbunix.Misc.BackLinks
import Sbunix.Misc.Chain

/-!
# Background children

The shell's list of background children (`bin/sbush/Util.c:143-196`).  The nodes are numbered from
1 on as `malloc` gives them, and 0 is `NULL`.  `pid_t` has 64 bits, and the field `pid` is an
`int`.
-/

namespace Sbunix

/-- An `int` compared with a `pid_t`. -/
def asPid (pid : Int32) : UInt64 := pid.toInt64.toUInt64

/-- The list of background children of the shell: the nodes given out by `malloc` and its head. -/
structure BackgroundChildren where
  pid : Nat → Int32
  next : Nat → Nat
  prev : Nat → Nat
  allocated : Nat
  bgChildLL : Nat

namespace BackgroundChildren

/-- No child yet. -/
def init : BackgroundChildren := ⟨fun _ => 0, fun _ => 0, fun _ => 0, 0, 0⟩

/-- A new node. -/
def newNode (s : BackgroundChildren) (pid : UInt64) : BackgroundChildren :=
  let node := s.allocated + 1
  { s with
    pid := Function.update s.pid node pid.toInt64.toInt32
    next := Function.update s.next node 0
    prev := Function.update s.prev node 0
    allocated := node }

/-- The walk to the last node. -/
def lastNode (s : BackgroundChildren) : Nat → Nat → Option Nat
  | 0, _ => none
  | fuel + 1, node => if s.next node ≠ 0 then s.lastNode fuel (s.next node) else some node

/-- C `AddNewBackgroundChildProcess`. -/
def addNewBackgroundChildProcess (s : BackgroundChildren) (pid : UInt64) :
    Option BackgroundChildren :=
  let t := s.newNode pid
  let node := t.allocated
  if s.bgChildLL = 0 then some { t with bgChildLL := node }
  else
    (t.lastNode (s.allocated + 1) s.bgChildLL).map fun last =>
      { t with next := Function.update t.next last node, prev := Function.update t.prev node last }

/-- What the loop of `RemoveBackgroundChildProcess` does with the node `temp`. -/
def removeNode (s : BackgroundChildren) (pid : UInt64) (temp : Nat) : BackgroundChildren :=
  if asPid (s.pid temp) = pid then
    let prevNode := s.prev temp
    let nextNode := s.next temp
    if prevNode ≠ 0 then
      let s := { s with next := Function.update s.next prevNode nextNode }
      if nextNode ≠ 0 then { s with prev := Function.update s.prev nextNode prevNode } else s
    else
      let s := { s with bgChildLL := nextNode }
      if nextNode ≠ 0 then { s with prev := Function.update s.prev nextNode s.bgChildLL } else s
  else s

/-- The loop that removes every node of a pid. -/
def removeLoop (pid : UInt64) : Nat → BackgroundChildren → Nat → Option BackgroundChildren
  | 0, _, _ => none
  | fuel + 1, s, temp =>
      if temp = 0 then some s
      else
        let s := s.removeNode pid temp
        removeLoop pid fuel s (s.next temp)

/-- C `RemoveBackgroundChildProcess`. It is `none` if the loop goes on for longer than there are
nodes. -/
def removeBackgroundChildProcess (s : BackgroundChildren) (pid : UInt64) :
    Option BackgroundChildren :=
  removeLoop pid (s.allocated + 1) s s.bgChildLL

/-- The list from `getHead` is doubly linked and ends, and these are its pids. -/
def Lists (s : BackgroundChildren) (pids : List UInt64) : Prop :=
  ∃ nodes : List Nat, Chain s.next 0 s.bgChildLL nodes ∧ nodes.Nodup ∧ BackLinks s.prev 0 nodes ∧
    nodes.map (fun node => asPid (s.pid node)) = pids

end BackgroundChildren

/-- The calls that change the list. -/
inductive ChildCall
  | add (pid : UInt64)
  | remove (pid : UInt64)

/-- One call on the list. -/
def BackgroundChildren.step (s : BackgroundChildren) : ChildCall → Option BackgroundChildren
  | .add pid => s.addNewBackgroundChildProcess pid
  | .remove pid => s.removeBackgroundChildProcess pid

/-- The list behind some calls. -/
def childRun (calls : List ChildCall) : Option BackgroundChildren :=
  calls.foldlM BackgroundChildren.step .init

namespace ChildCall

/-- The pids that should be left behind a call. -/
def pidsAfter (pids : List UInt64) : ChildCall → List UInt64
  | add pid => pids ++ [pid]
  | remove pid => pids.filter fun other => decide (other ≠ pid)

/-- The pids that were added, less those that were removed. -/
def pids (calls : List ChildCall) : List UInt64 := calls.foldl pidsAfter []

/-- An added pid is an `int`, and what is removed does not stand in front of others. -/
def Fits (pids : List UInt64) : ChildCall → Prop
  | add pid => pid.toNat < 2 ^ 31 ∨ 2 ^ 64 - 2 ^ 31 ≤ pid.toNat
  | remove pid => pids.head? = some pid → pids.length = 1

end ChildCall

/-- Every call of a sequence fits what the calls before it should leave. -/
def CallsFit (calls : List ChildCall) : Prop :=
  ∀ before call, before ++ [call] <+: calls → call.Fits (ChildCall.pids before)

end Sbunix
