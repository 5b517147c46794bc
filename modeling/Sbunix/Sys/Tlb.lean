import Sbunix.Misc.Reach
import Sbunix.Sys.Boot

/-!
# The TLB

The operations on leaf entries once more, with a TLB that keeps every translation used
since `cr3` was last written.  It is emptied where `sys/paging.c`, `sys/phy_mem_manager.c`
and `sys/task_manager.c` call `flushTLB` and `change_ptable`.  Translations of the kernel's
own data and of slot 510 are not recorded.
-/

namespace Sbunix

/-- What the processor finds for a page: its frame, and whether all four entries allow writes
and user accesses. -/
structure Translation where
  frame : Nat
  write : Bool
  user : Bool
  deriving DecidableEq, Repr

/-- What the entries of a walk give: the frame, and whether all of them let the page be written
and used by a program. -/
def Walk.translation (w : Walk) : Translation :=
  let all (b : Nat) := [w.e1, w.e2, w.e3, w.e4].all fun e => e / b % 2 == 1
  ⟨w.e4 / 4096, all 2, all 4⟩

/-- The machine and the pages whose translations the TLB may hold. -/
structure Cpu where
  machine : Machine
  tlb : List (Nat × Translation)

namespace Cpu

variable (c : Cpu)

/-- C `flushTLB` (`sys/phy_mem_manager.c:29-37`). -/
def flushTLB : Cpu := { c with tlb := [] }

/-- An access to `v`, by a program or by the kernel. -/
def access (v : Nat) : Cpu :=
  match walk c.machine.mem c.machine.cr3 v with
  | none => c
  | some w => { c with tlb := (pageOf v, w.translation) :: c.tlb }

/-- C `change_ptable`. -/
def changePtable (addr : Nat) : Cpu :=
  ({ c with machine := { c.machine with cr3 := addr } } : Cpu).flushTLB

/-- C `free_page`. -/
def freePage (paddr : Nat) : Option Cpu := do
  let fl ← c.machine.fl.freePage paddr
  some ({ c with machine := { c.machine with fl := fl } } : Cpu).flushTLB

/-- C `map_phyaddr`: the call of `flushTLB` is its last step. -/
def mapPhyaddr (v : Nat) : Option Cpu := do
  let (_, m) ← c.machine.mapPhyaddr v
  some ({ c with machine := m } : Cpu).flushTLB

/-- The last level of C `unmap_phyaddr` (`sys/paging.c:412-448`). -/
def unmapLeaf (v : Nat) : Option Cpu := do
  let padd ← c.machine.load64 (Machine.leafAddr v)
  if padd &&& 1 = 0 then return c
  let count ← c.machine.fl.getReferenceCount padd
  let c ←
    if count = 1 then do
      let m ← c.machine.zeroWords v 1 512
      ({ c.access v with machine := m } : Cpu).freePage padd
    else pure c
  let fl ← c.machine.fl.decrementReferenceCount padd
  let m ← { c.machine with fl := fl }.store64 (Machine.leafAddr v) 0
  some { c with machine := m }

/-- C `unmap_phyaddr`. -/
def unmapPhyaddr (v : Nat) : Option Cpu := do
  let p2e ← c.machine.load64 (p1Table baseInit + 8 * p1Index v)
  if p2e = 0 then return c
  let p3e ← c.machine.load64 (p2Table (p1Table baseInit) v + 8 * p2Index v)
  if p3e = 0 then return c
  let p4e ← c.machine.load64 (p3Table (p2Table (p1Table baseInit) v) v + 8 * p3Index v)
  if p4e = 0 then return c
  c.unmapLeaf v

/-- C `cow`: `flushTLB` is called between the new entry and the copy. -/
def cow (v : Nat) : Option Cpu := do
  let cowAddr := v &&& 0xFFFFFFFFFFFFF000
  let cowPage ← c.machine.loadPage cowAddr
  let c := c.access cowAddr
  let oldPage ← c.machine.load64 (Machine.leafAddr v)
  let m ←
    if oldPage ≠ 5 ∧ oldPage ≠ 0 then do
      let fl ← c.machine.fl.decrementReferenceCount oldPage
      pure { c.machine with fl := fl }
    else pure c.machine
  let (padd, m) ← m.getPage
  let m ← m.store64 (Machine.leafAddr v) ((padd &&& 0xFFFFFFFFFFFFF000) ||| 7)
  let c := (({ c with machine := m } : Cpu).flushTLB).access cowAddr
  let m ← c.machine.storePage cowAddr cowPage
  some { c with machine := m }

end Cpu

/-- The memory side of the kernel and the TLB. -/
structure TlbState where
  vm : VmState
  tlb : List (Nat × Translation)

namespace TlbState

variable (s : TlbState)

/-- The machine with its TLB. -/
def cpu : Cpu := ⟨s.vm.machine, s.tlb⟩

/-- The state with another machine and TLB. -/
def withCpu (c : Cpu) : TlbState := ⟨{ s.vm with machine := c.machine }, c.tlb⟩

end TlbState

/-- Calls of the operations at page-aligned addresses, as their callers make them, switches to
the process in a slot, and accesses. -/
inductive TlbLabel
  | map (v : Nat)
  | unmap (v : Nat)
  | cow (v : Nat)
  | switch (c : Nat)
  | access (v : Nat)
  deriving DecidableEq, Repr

/-- A step. Pages of the kernel are only mapped when they are not. -/
def tlbStep (l : TlbLabel) (s : TlbState) : Option TlbState :=
  match l with
  | .map v =>
      if v % 4096 = 0 ∧ (UserAddr v ∨ KernelRange s.vm.active v ∧
          walk s.vm.machine.mem s.vm.machine.cr3 v = none) then
        (s.cpu.mapPhyaddr v).map s.withCpu
      else none
  | .unmap v => if v % 4096 = 0 ∧ UserAddr v then (s.cpu.unmapPhyaddr v).map s.withCpu else none
  | .cow v => if UserAddr v then (s.cpu.cow v).map s.withCpu else none
  | .switch c =>
      if c < procSize ∧ s.vm.alive c then
        let t := s.withCpu (s.cpu.changePtable (s.vm.mm c).cr3)
        some { t with vm := { t.vm with active := some c } }
      else none
  | .access v => some (s.withCpu (s.cpu.access v))

/-- The runs that start in a state of the memory side, right after a write of `cr3`, and whose
steps meet the condition. -/
def TlbReach (cond : TlbLabel → TlbState → Prop) : TlbState → Prop :=
  Reach (fun s => VmReach (fun _ _ => True) s.vm ∧ s.tlb = []) fun l s t =>
    cond l s ∧ tlbStep l s = some t

/-- No translation for a user address that the TLB may hold has another frame than the leaf
entry, or grants more. -/
def TlbState.Coherent (s : TlbState) : Prop :=
  ∀ v t, UserAddr v → (pageOf v, t) ∈ s.tlb →
    ∃ w, walk s.vm.machine.mem s.vm.machine.cr3 v = some w ∧ t.frame = w.e4 / 4096 ∧
      (t.write = true → w.e4 / 2 % 2 = 1) ∧ (t.user = true → w.e4 / 4 % 2 = 1)

/-- `unmap_phyaddr` is called for a page whose frame has a reference count other than 1 only
if no translation of the page was used since the last write of `cr3`. -/
def UnmapsUnused : TlbLabel → TlbState → Prop
  | .unmap v, s => ∀ e, s.vm.machine.getPhysAddr v = some e → e ≠ 0 →
      s.vm.machine.fl.getReferenceCount e ≠ some 1 → ∀ t, (pageOf v, t) ∉ s.tlb
  | _, _ => True

end Sbunix
