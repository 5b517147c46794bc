import Sbunix.Sys.Proofs.ContextRuns

/-!
# Every step of the separate processors is possible

The converse of the simulation: whatever the processes can do on processors of their own, they
can do on the one processor with its kernel stacks.
-/

namespace Sbunix

open ByteMem StackMachine

variable {p q : ProcState} {s t : Context} {v v' : VirtualCpus} {l l' : ContextLabel}
  {ls : List ContextLabel} {w : KernelWork} {a uStack : Nat}

/-- A process sees of a step what its label shows. -/
theorem virtualStep_seen (l : ContextLabel) (v : VirtualCpus) :
    virtualStep l.seen v = virtualStep l v := by
  cases l with
  | program regs => rfl
  | interrupt n err tr => rfl
  | sysCall tr => rfl
  | files fd currentDir ret tr => rfl
  | run l w => cases l <;> rfl

/-- The work of the C functions is no matter. -/
theorem seen_interrupt (n : Nat) (err : UInt64) (tr tr' : Traces) :
    (ContextLabel.interrupt n err tr).seen = (ContextLabel.interrupt n err tr').seen := rfl

theorem seen_sysCall (tr tr' : Traces) :
    (ContextLabel.sysCall tr).seen = (ContextLabel.sysCall tr').seen := rfl

theorem seen_files (fd : List (Option FileObject)) (currentDir : Option (List Char)) (ret : UInt64)
    (tr tr' : Traces) : (ContextLabel.files fd currentDir ret tr).seen =
      (ContextLabel.files fd currentDir ret tr').seen := rfl

/-- C functions that use the slot of the stack pointer. -/
def Context.fullTraces (s : Context) : Traces := ⟨stackFloor s.kernelSp, s.cpu.mem, s.cpu.regs⟩

theorem Context.fullTraces_fit : stackFloor s.kernelSp ≤ s.fullTraces.low := Nat.le_refl _

/-- They copy the stack from the frame on. -/
def Context.fullWork (s : Context) (w : KernelWork) : KernelWork :=
  { w with traces := s.fullTraces,
           childTraces := ⟨kstackTop s.kernel.proc.freeSlot - 8192, s.cpu.mem, s.cpu.regs⟩,
           kernelStack := (s.kernel.proc.active.map s.reg).getD 0 }

theorem Context.fullWork_seen : (s.fullWork w).seen = w.seen := by
  unfold Context.fullWork KernelWork.seen
  rfl

/-- A creation finds a free slot. -/
theorem creates_free {l : ProcLabel} (h : ProcInv p) (hl : l.creates)
    (hs : procStep l p = some q) :
    p.point = .user ∧ p.freeSlot < procSize ∧ p.procDescriptor p.freeSlot = 0 := by
  have hpt := procStep_point hs
  cases l with
  | fork =>
      obtain ⟨a, ha⟩ := h.active_user hpt
      have hspawn := ProcInv.syscallFork_eff h ha (procStep_run hs)
      exact ⟨hpt, hspawn.lt, hspawn.free⟩
  | exec file =>
      obtain ⟨a, ha⟩ := h.active_user hpt
      have hspawn := ProcInv.syscallExec_eff h ha (procStep_run hs)
      exact ⟨hpt, hspawn.lt, hspawn.free⟩
  | execFail =>
      obtain ⟨a, ha⟩ := h.active_user hpt
      obtain ⟨hlt, hd, -⟩ := ProcInv.syscallExecFail_eff ha (procStep_run hs)
      exact ⟨hpt, hlt, hd⟩
  | _ => exact hl.elim

namespace Simulates

theorem fullWork_stack (h : Simulates s v) (hu : ¬ s.kernel.userMode)
    (hsw : s.kernel.proc.point ≠ .switch) (ha : s.kernel.proc.active = some a) :
    stackFloor (s.reg a) < (s.fullWork w).kernelStack ∧ (s.fullWork w).kernelStack ≤ s.reg a := by
  have hks : (s.fullWork w).kernelStack = s.reg a := by
    show (s.kernel.proc.active.map s.reg).getD 0 = _
    rw [ha]
    rfl
  have hin := (h.called hu hsw a ha).inSlot
  have hfloor := stackFloor_eq hin
  unfold InSlot at hin
  rw [hks]
  omega

theorem fullWork_creation (h : Simulates s v) (hu : ¬ s.kernel.userMode)
    (hsw : s.kernel.proc.point ≠ .switch) (ha : s.kernel.proc.active = some a)
    (hbehind : ¬ s.kernel.proc.Returns (s.kernel.proc.freeSlot + 1))
    (hdepth : uStack ≤ stackTop a ∧ stackTop a ≤ uStack + 8191) :
    CreationFits s (s.fullWork w) a uStack where
  stack := h.fullWork_stack hu hsw ha
  child := by
    show kstackTop s.kernel.proc.freeSlot ≤ kstackTop s.kernel.proc.freeSlot - 8192 + 8192
    omega
  behind := hbehind
  depth := hdepth

/-- The condition on the programs is all that the kernel stacks need. -/
theorem fullWork_fits {l : ProcLabel} (h : Simulates s v) (hpt : s.kernel.proc.point = l.point)
    (hu : ¬ s.kernel.userMode) (hfit : VirtualFits (.run l w) v) :
    ContextFits (.run l (s.fullWork w)) s := by
  refine ⟨Context.fullTraces_fit, ?_⟩
  intro a ha
  have hav : v.kernel.proc.active = some a := h.kernel ▸ ha
  have hfit := hfit a hav
  unfold ProcLabel.Fits at hfit
  have hcall : s.kernel.proc.point ≠ .switch → s.fields a s.cpu.mem = v.cpu :=
    fun hsw => (h.called hu hsw a ha).fields
  cases l with
  | fork =>
      have hsw := point_ne_switch (.inl hpt)
      dsimp only at hfit ⊢
      rw [← h.kernel] at hfit
      rw [hcall hsw]
      exact h.fullWork_creation hu hsw ha hfit.1 hfit.2
  | exec file =>
      dsimp only at hfit
      rw [← h.kernel, ← h.image] at hfit
      exact h.fullWork_creation hu (point_ne_switch (.inl hpt)) ha hfit.1 hfit.2
  | execFail =>
      dsimp only at hfit
      rw [← h.kernel, ← h.image] at hfit
      exact h.fullWork_creation hu (point_ne_switch (.inl hpt)) ha hfit.1 hfit.2
  | wait pid => exact h.fullWork_stack hu (point_ne_switch (.inl hpt)) ha
  | resumeWait =>
      have hsw := point_ne_switch (.inr hpt)
      dsimp only
      rw [hcall hsw]
      exact ⟨h.fullWork_stack hu hsw ha, hfit⟩
  | kill pid => exact hfit
  | yield => trivial
  | exit status => trivial
  | dispatch => trivial

/-- A creation copies the stack of its caller. -/
theorem newStack_possible {l : ProcLabel} (h : Simulates s v) (hu : ¬ s.kernel.userMode)
    (hproc : procStep l s.kernel.proc = some p) (hl : l.creates)
    (ha : s.kernel.proc.active = some a) (hfit : stackFloor s.kernelSp ≤ w.traces.low)
    (hc : CreationFits s w a uStack) :
    ∃ r, s.newStack a s.kernel.proc.freeSlot w = some r := by
  obtain ⟨hpt, hlt, hd⟩ := creates_free h.inv hl hproc
  obtain ⟨m, hm, -⟩ := h.newStack_frames hu (point_ne_switch (.inl hpt)) ha hfit hc hlt hd
  exact ⟨_, hm⟩

theorem run_possible {l : ProcLabel} (h : Simulates s v) (hfit : VirtualFits (.run l w) v)
    (hv : virtualStep (.run l w) v = some v') :
    ∃ t, ContextMove (.run l (s.fullWork w)) s t := by
  have hk := virtualStep_kernel hv
  rw [← h.kernel] at hk
  obtain ⟨hproc, hh, hu⟩ := kernelStep_run hk
  have hpt := procStep_point hproc
  have hfits := h.fullWork_fits hpt hu hfit
  suffices hstep : ∃ t, s.run l (s.fullWork w) = some t by
    obtain ⟨t, ht⟩ := hstep
    exact ⟨t, hfits, ht⟩
  have hworked : ∀ {a}, s.kernel.proc.point ≠ .switch → s.kernel.proc.active = some a →
      s.fields a (s.worked a (s.fullWork w).traces) = v.cpu :=
    fun hsw ha => (h.worked_parked hu hsw ha hfits.1).fields
  have hactive : ∀ {a}, v.kernel.proc.active = some a → s.kernel.proc.active = some a :=
    fun ha => h.kernel ▸ ha
  cases l with
  | fork =>
      obtain ⟨a, ha, -⟩ := Option.bind_eq_some_iff.mp hv
      obtain ⟨r, hr⟩ := h.newStack_possible hu hproc trivial (hactive ha) hfits.1
        (hfits.2 a (hactive ha))
      show ∃ t, s.fork (s.fullWork w) = some t
      unfold Context.fork
      rw [hactive ha, hk]
      dsimp only [Option.bind_eq_bind, Option.bind_some]
      rw [hr]
      exact ⟨_, rfl⟩
  | exec file =>
      obtain ⟨a, ha, -⟩ := Option.bind_eq_some_iff.mp hv
      obtain ⟨r, hr⟩ := h.newStack_possible hu hproc trivial (hactive ha) hfits.1
        (hfits.2 a (hactive ha))
      show ∃ t, s.exec file (s.fullWork w) = some t
      unfold Context.exec
      rw [hactive ha, hk]
      dsimp only [Option.bind_eq_bind, Option.bind_some]
      rw [hr]
      exact ⟨_, rfl⟩
  | execFail =>
      obtain ⟨a, ha, -⟩ := Option.bind_eq_some_iff.mp hv
      obtain ⟨r, hr⟩ := h.newStack_possible hu hproc trivial (hactive ha) hfits.1
        (hfits.2 a (hactive ha))
      show ∃ t, s.execFail (s.fullWork w) = some t
      unfold Context.execFail
      rw [hactive ha, hk]
      dsimp only [Option.bind_eq_bind, Option.bind_some]
      rw [hr]
      exact ⟨_, rfl⟩
  | yield =>
      obtain ⟨a, ha, -⟩ := Option.bind_eq_some_iff.mp hv
      show ∃ t, s.yield (s.fullWork w) = some t
      unfold Context.yield
      rw [hactive ha, hk]
      exact ⟨_, rfl⟩
  | exit status =>
      obtain ⟨a, ha⟩ := h.inv.active_user hpt
      have hst : (v.cpu .rdi).toNat = status := by
        obtain ⟨k, -, hv⟩ := Option.bind_eq_some_iff.mp hv
        split_ifs at hv with hst
        exact hst
      show ∃ t, s.exit status (s.fullWork w) = some t
      unfold Context.exit
      rw [ha.active, hk]
      dsimp only [Option.bind_eq_bind, Option.bind_some]
      rw [hworked (point_ne_switch (.inl hpt)) ha.active, if_pos hst]
      exact ⟨_, rfl⟩
  | wait pid =>
      obtain ⟨a, ha, hv⟩ := Option.bind_eq_some_iff.mp hv
      obtain ⟨k, -, hv⟩ := Option.bind_eq_some_iff.mp hv
      have hpid : (v.cpu .rdi).toNat = pid := by
        split_ifs at hv <;> assumption
      show ∃ t, s.wait pid (s.fullWork w) = some t
      unfold Context.wait
      rw [hactive ha, hk]
      dsimp only [Option.bind_eq_bind, Option.bind_some]
      rw [hworked (point_ne_switch (.inl hpt)) (hactive ha), if_pos hpid]
      split_ifs <;> exact ⟨_, rfl⟩
  | resumeWait =>
      obtain ⟨a, ha, -⟩ := Option.bind_eq_some_iff.mp hv
      show ∃ t, s.resumeWait (s.fullWork w) = some t
      unfold Context.resumeWait
      rw [hactive ha, hk]
      dsimp only [Option.bind_eq_bind, Option.bind_some]
      split_ifs <;> exact ⟨_, rfl⟩
  | kill pid =>
      obtain ⟨a, ha⟩ := h.inv.active_user hpt
      have hav : v.kernel.proc.active = some a := h.kernel ▸ ha.active
      exact (hfit a hav).elim
  | dispatch =>
      obtain ⟨r, hr, hv⟩ := Option.bind_eq_some_iff.mp hv
      obtain ⟨x, hx, -⟩ := Option.bind_eq_some_iff.mp hv
      rw [← h.kernel] at hr
      obtain ⟨y, ys, hq, -⟩ := ProcInv.dispatch_cases h.inv (procStep_run hproc)
      rw [h.inv.ring.getNextproc_cons h.inv.table hq] at hr
      obtain rfl := Option.some.inj hr
      obtain rfl : y = x := Option.some.inj hx
      have hrun := (h.inv.ring.run y (by rw [hq]; exact List.mem_cons_self)).2.2
      have hstate : (s.kernel.proc.allPro y).state ≠ newProc := by
        rw [hrun]
        decide
      show ∃ t, s.dispatch (s.fullWork w) = some t
      unfold Context.dispatch
      rw [h.inv.ring.getNextproc_cons h.inv.table hq]
      dsimp only [Option.bind_eq_bind, Option.bind_some]
      rw [hk]
      dsimp only [Option.bind_some]
      rw [if_neg hstate]
      split <;> exact ⟨_, rfl⟩

theorem interrupt_possible {n : Nat} {err : UInt64} {tr : Traces} (h : Simulates s v)
    (hv : virtualStep (.interrupt n err tr) v = some v') :
    ∃ t, ContextMove (.interrupt n err s.fullTraces) s t := by
  rw [virtualStep] at hv
  split_ifs at hv with hn
  obtain ⟨hu, hne, hcode⟩ := hn
  obtain ⟨code, hcode⟩ := Option.isSome_iff_exists.mp hcode
  rw [← h.kernel] at hu
  have hstep : ∃ t, contextStep (.interrupt n err s.fullTraces) s = some t := by
    rw [contextStep, if_pos ⟨hu, hne⟩, hcode]
    exact ⟨_, rfl⟩
  obtain ⟨t, ht⟩ := hstep
  exact ⟨t, Context.fullTraces_fit, ht⟩

theorem sysCall_possible {tr : Traces} (h : Simulates s v)
    (hv : virtualStep (.sysCall tr) v = some v') :
    ∃ t, ContextMove (.sysCall s.fullTraces) s t := by
  obtain ⟨k, hk, -⟩ := Option.bind_eq_some_iff.mp hv
  rw [← h.kernel] at hk
  obtain ⟨hu, -⟩ := kernelStep_sysCall hk
  obtain ⟨a, ha⟩ := h.user_active hu
  have hstep : ∃ t, s.sysCall s.fullTraces = some t := by
    unfold Context.sysCall
    rw [ha, h.program hu, hk]
    dsimp only [Option.bind_eq_bind, Option.bind_some]
    split <;> exact ⟨_, rfl⟩
  obtain ⟨t, ht⟩ := hstep
  exact ⟨t, Context.fullTraces_fit, ht⟩

theorem files_possible {fd : List (Option FileObject)} {currentDir : Option (List Char)}
    {ret : UInt64} {tr : Traces} (h : Simulates s v)
    (hv : virtualStep (.files fd currentDir ret tr) v = some v') :
    ∃ t, ContextMove (.files fd currentDir ret s.fullTraces) s t := by
  obtain ⟨k, hk, -⟩ := Option.bind_eq_some_iff.mp hv
  rw [← h.kernel] at hk
  obtain ⟨⟨n, hn⟩, -, -⟩ := kernelStep_files hk
  obtain ⟨a, ha⟩ := h.inv.active_user (h.handler (by rw [hn]; exact Option.some_ne_none n))
  have hstep : ∃ t, contextStep (.files fd currentDir ret s.fullTraces) s = some t := by
    rw [contextStep, ha.active, hk]
    exact ⟨_, rfl⟩
  obtain ⟨t, ht⟩ := hstep
  exact ⟨t, Context.fullTraces_fit, ht⟩

/-- Every step of the separate processors that the programs' conditions allow can be made, with
the same label but for the work of the C functions. -/
theorem possible (h : Simulates s v) (hfit : VirtualFits l v) (hv : virtualStep l v = some v') :
    ∃ l' t, l'.seen = l.seen ∧ ContextMove l' s t := by
  cases l with
  | program regs =>
      rw [virtualStep] at hv
      split_ifs at hv with hu
      rw [← h.kernel] at hu
      exact ⟨.program regs, _, rfl, trivial, if_pos hu⟩
  | interrupt n err tr =>
      obtain ⟨t, ht⟩ := h.interrupt_possible hv
      exact ⟨.interrupt n err s.fullTraces, t, seen_interrupt n err s.fullTraces tr, ht⟩
  | sysCall tr =>
      obtain ⟨t, ht⟩ := h.sysCall_possible hv
      exact ⟨.sysCall s.fullTraces, t, seen_sysCall s.fullTraces tr, ht⟩
  | files fd currentDir ret tr =>
      obtain ⟨t, ht⟩ := h.files_possible hv
      exact ⟨.files fd currentDir ret s.fullTraces, t,
        seen_files fd currentDir ret s.fullTraces tr, ht⟩
  | run l w =>
      obtain ⟨t, ht⟩ := h.run_possible hfit hv
      exact ⟨.run l (s.fullWork w), t, congrArg (ContextLabel.run l) Context.fullWork_seen, ht⟩

/-- The state reached is the one that the separate processors reach. -/
theorem realizes (h : Simulates s v) (hmove : virtualMove l v = some v') :
    ∃ l' t, l'.seen = l.seen ∧ ContextMove l' s t ∧ Simulates t v' := by
  unfold virtualMove at hmove
  split_ifs at hmove with hfit
  obtain ⟨l', t, hl, hstep⟩ := h.possible hfit hmove
  obtain ⟨x, hx, hsim⟩ := h.step hstep
  rw [← virtualStep_seen, hl, virtualStep_seen, hmove] at hx
  obtain rfl := Option.some.inj hx
  exact ⟨l', t, hl, hstep, hsim⟩

end Simulates

/-! ## Runs -/

/-- The shell at its entry point. -/
def shellContext : Context where
  kernel := initKernel
  cpu := ⟨fun
    | .rip => 0x400000
    | .usersp => UInt64.ofNat (stackTop 0)
    | .cs => 0x2B
    | .ss => 0x23
    | _ => 0, kstackTop 0, fun _ => 0⟩
  rsp0 := kstackTop 0
  kStack := fun _ => kstackTop 0
  kStackbase := fun _ => kstackTop 0
  image := fun _ => ⟨⟨stackTop 0, stackTop 0⟩, 0x400000⟩
  reg := fun _ => 0

theorem shellContext_started : shellContext.Started :=
  ⟨rfl, rfl, ⟨Nat.le_add_right _ _, Nat.le_refl _⟩, rfl, rfl, rfl, rfl, rfl, rfl⟩

theorem Simulates.realizes_sysCall {tr : Traces} (h : Simulates s v)
    (hmove : virtualMove (.sysCall tr) v = some v') :
    ∃ tr' t, ContextMove (.sysCall tr') s t ∧ Simulates t v' := by
  obtain ⟨l', t, hl, hstep, hsim⟩ := h.realizes hmove
  cases l' with
  | sysCall tr' => exact ⟨tr', t, hstep, hsim⟩
  | program _ | interrupt _ _ _ | files _ _ _ _ | run _ _ => cases hl

theorem Simulates.realizes_proc {l : ProcLabel} (h : Simulates s v)
    (hmove : virtualMove (.run l w) v = some v') :
    ∃ w' t, ContextMove (.run l w') s t ∧ Simulates t v' := by
  obtain ⟨l', t, hl, hstep, hsim⟩ := h.realizes hmove
  cases l' with
  | run l' w' =>
      obtain rfl : l' = l := (ContextLabel.run.inj hl).1
      exact ⟨w', t, hstep, hsim⟩
  | program _ | interrupt _ _ _ | sysCall _ | files _ _ _ _ => cases hl

theorem Simulates.realizes_run (h : Simulates s v)
    (hrun : Run (fun l v w => virtualMove l v = some w) v ls v') :
    ∃ ls' t, ls'.map ContextLabel.seen = ls.map ContextLabel.seen ∧ ContextRun s ls' t ∧
      Simulates t v' := by
  induction hrun with
  | nil => exact ⟨[], s, rfl, .nil, h⟩
  | snoc l _ hstep ih =>
      obtain ⟨ls', t, hseen, hctx, hsim⟩ := ih
      obtain ⟨l', t', hl, hmove, hsim'⟩ := hsim.realizes hstep
      refine ⟨ls' ++ [l'], t', ?_, .snoc l' hctx hmove, hsim'⟩
      rw [List.map_append, List.map_append, hseen, List.map_singleton, List.map_singleton, hl]

/-- Every run of the separate processors is one of the kernel: nothing that the processes may do
by themselves is lost on the one processor. -/
theorem context_realizes (hs : s.Started)
    (hrun : Run (fun l v w => virtualMove l v = some w) s.virtual ls v) :
    ∃ ls' t, ls'.map ContextLabel.seen = ls.map ContextLabel.seen ∧ ContextRun s ls' t ∧
      t.kernel = v.kernel ∧ t.image = v.image ∧ (t.kernel.userMode → t.cpu.regs = v.cpu) := by
  obtain ⟨ls', t, hseen, hctx, hsim⟩ := hs.simulates.realizes_run hrun
  exact ⟨ls', t, hseen, hctx, hsim.kernel, hsim.image, hsim.program⟩

/-- The program in slot 0 sets the registers of a call. -/
def setCall (rax rdi rsi : UInt64) : ContextLabel :=
  .program fun
    | .rax => rax
    | .rdi => rdi
    | .rsi => rsi
    | .usersp => UInt64.ofNat (stackTop 0)
    | _ => 0

/-- A handler that touches no memory of the machine. -/
def noWork : KernelWork := ⟨.none, .none, 0, 0, 0⟩

/-- A program that calls `fork`. -/
def forkLabels : List ContextLabel := [setCall 57 0 0, .sysCall .none, .run .fork noWork]

/-- The shell has forked. -/
def shellFork : VirtualCpus :=
  (runLabels virtualMove forkLabels shellContext.virtual).get (by decide)

theorem shellFork_run : Run (fun l v w => virtualMove l v = some w) shellContext.virtual forkLabels
    shellFork := Run.of_runLabels (Option.some_get _).symm

theorem context_realizes_fork :
    ∃ ls' t, ls'.map ContextLabel.seen = forkLabels.map ContextLabel.seen ∧
      ContextRun shellContext ls' t ∧ t.kernel.proc.active = some 1 := by
  obtain ⟨ls', t, hseen, hctx, hkernel, -, -⟩ :=
    context_realizes shellContext_started shellFork_run
  refine ⟨ls', t, hseen, hctx, ?_⟩
  rw [hkernel]
  decide

/-- Every run of the kernel is one of a machine in which each process has a processor of its own:
the register frames, the two stacks of every process, their copies in `fork` and `exec` and the
switches are not seen by a program. -/
theorem context_simulates (hs : s.Started) (hrun : ContextRun s ls t) :
    ∃ v, VirtualRun s.virtual ls v ∧ v.kernel = t.kernel ∧ v.image = t.image ∧
      (t.kernel.userMode → t.cpu.regs = v.cpu) := by
  have hsim : ∃ v, VirtualRun s.virtual ls v ∧ Simulates t v :=
    Run.simulate (fun _ _ _ _ h hst => h.step hst) hs.simulates hrun
  obtain ⟨v, hv, hsim⟩ := hsim
  exact ⟨v, hv, hsim.kernel.symm, hsim.image.symm, hsim.program⟩

theorem context_simulates_fork :
    ∃ ls t v, ContextRun shellContext ls t ∧ VirtualRun shellContext.virtual ls v ∧
      v.kernel = t.kernel ∧ t.kernel.proc.active = some 1 := by
  obtain ⟨ls, t, -, hctx, hsim⟩ := shellContext_started.simulates.realizes_run shellFork_run
  obtain ⟨v, hv, hkernel, -, -⟩ := context_simulates shellContext_started hctx
  refine ⟨ls, t, v, hctx, hv, hkernel, ?_⟩
  rw [hsim.kernel]
  decide

end Sbunix
