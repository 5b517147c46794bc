import Sbunix.Sys.VmRun

/-!
# Runs of a parent and its child

What two processes read and write after a `fork`, in any order, with the page faults that
this raises.  A read that the hardware allows changes nothing, so it is no step.
-/

namespace Sbunix

namespace VmState

variable (s : VmState)

/-- The byte that the program in slot `d` reads at `v`, unless the access faults. -/
def readByte (d v : Nat) : Option Nat :=
  let m := (s.changePtable (s.mm d).cr3).machine
  if permits m v false then m.load8 v else none

/-- The frame in which the process in slot `d` has the page of `v`. -/
def frameAt (d v : Nat) : Option Nat := (s.changePtable (s.mm d).cr3).machine.frameOf v

end VmState

/-- The memory side, and which slots have stored at the address in question. -/
structure CowState where
  vm : VmState
  wrote : Nat → Bool

/-- A step of the memory side beside the contents of the pages. -/
def CowState.setVm (s : CowState) (l : VmLabel) : Option CowState :=
  (vmStep l s.vm).map fun vm => { s with vm }

/-- A step of the parent `p` or its child `c`; stores at `a` are noted. -/
def cowStep (p c a : Nat) (l : VmLabel) (s : CowState) : Option CowState :=
  match l with
  | .switch d => if d = p ∨ d = c then s.setVm l else none
  | .userFault .. => s.setVm l
  | .userStore v _ =>
      s.vm.active.bind fun d => (s.setVm l).map fun t =>
        if v = a then { t with wrote := Function.update t.wrote d true } else t
  | _ => none

/-- Each of the two processes reads the byte `b` at `a` until it stores there itself. -/
structure Isolated (s : CowState) (p c a b : Nat) : Prop where
  parent : s.wrote p = false → s.vm.readByte p a = some b
  child : s.wrote c = false → s.vm.readByte c a = some b

/-- If the step stores at `a`, the other process has stored there itself, has the page in another
frame, or reads the byte that is stored already. -/
def Unseen (p c a : Nat) (l : VmLabel) (s : CowState) : Prop :=
  ∀ x d e, l = .userStore a x → s.vm.active = some d → d = p ∧ e = c ∨ d = c ∧ e = p →
    s.wrote e = true ∨ s.vm.frameAt e a ≠ s.vm.frameAt d a ∨ s.vm.readByte e a = some (x % 256)

/-- The states after the fork that led to `t`, in runs whose steps all meet a condition. -/
def CowReach (cond : VmLabel → CowState → Prop) (p c a : Nat) (t : VmState) : CowState → Prop :=
  Reach (· = ⟨t, fun _ => false⟩) fun l s u => cond l s ∧ cowStep p c a l s = some u

end Sbunix
