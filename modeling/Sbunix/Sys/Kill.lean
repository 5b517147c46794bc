import Sbunix.Sys.Syscall

/-!
# `syscall_kill`: the process side

The table and queue part of C `syscall_kill` (`sys/syscall.c:1272-1334`); what it
does to the victim's memory is in `Sbunix.Sys.VmRun`.
-/

namespace Sbunix

/-- The loop that moves queue cells up by one (`sys/syscall.c:1319-1327`). `i` is the
index it works on, at first the victim's slot number; `i = 0` away from `start` reads
`proc_Q[-1]` and never comes back into the table. -/
def shiftQ : Nat → (Nat → Nat) → Nat → Nat → Option (Nat → Nat)
  | 0, _, _, _ => none
  | fuel + 1, q, i, start =>
      if i = start then some q
      else if i = 0 then none
      else
        shiftQ fuel (Function.update q i (q (i - 1)))
          (if i - 1 = 0 ∧ 0 ≠ start then procSize else i - 1) start

namespace ProcState

/-- The last loop of C `syscall_kill` (`sys/syscall.c:1315-1331`). At most
`2 * (PROC_SIZE + 1)` cells are visited. -/
def unqueue (s : ProcState) (sno : Nat) : Option ProcState := do
  let q ← shiftQ (2 * (procSize + 1)) s.procQ sno s.procStart
  some { s with procQ := q, procStart := (s.procStart + 1) % (procSize + 1) }

/-- What is written to the PCB of `active->sno` (`sys/syscall.c:1283-1288`). -/
def killCaller (p : Pcb) : Pcb := { p with fd := noFiles, name := none, currentDir := none }

/-- C `syscall_kill` without the VMA loop; `pid` is the register `rdi`. A pid that no
slot carries indexes `all_pro` past its end. -/
def syscallKill (s : ProcState) (pid : Nat) : Option ProcState := do
  let a ← s.active
  let sno := s.slotOfPid pid
  if sno = procSize then none
  else
    let s₁ := s.modPro (s.allPro a).sno killCaller
    let s₂ := (s₁.modPro sno fun p => { p with state := dead }).setDescriptor sno 0
    (s₂.signalParent sno 0).unqueue sno

end ProcState

end Sbunix
