import Sbunix.Sys.Proofs.ContextCalls

/-!
# A new process starts from a copy of its parent's frame

The step lemmas of the simulation for `fork` and `exec`.
-/

namespace Sbunix

open ByteMem StackMachine

variable {s t : Context} {v : VirtualCpus} {k : KernelState} {w : KernelWork} {tr : Traces}
  {a i rg uStack : Nat} {m : ByteMem} {f : Gpr} {x : UInt64} {rp rc : Gpr → UInt64}

/-! ## Addresses at the same depth -/

theorem subAddr_eq {a b : Nat} (h : b ≤ a) (ha : a < 2 ^ 64) : subAddr a b = a - b := by
  unfold subAddr
  omega

theorem sameDepth_eq {top base reg : Nat} (hr : reg ≤ base) (hb : base < 2 ^ 64)
    (ht : base - reg ≤ top) (htop : top < 2 ^ 64) :
    sameDepth top base reg = top - (base - reg) := by
  unfold sameDepth
  rw [subAddr_eq hr hb, subAddr_eq ht htop]

theorem ofNat_subAddr (a b : Nat) :
    UInt64.ofNat (subAddr a b) = UInt64.ofNat a - UInt64.ofNat b := by
  apply UInt64.toNat_inj.mp
  rw [UInt64.toNat_sub, UInt64.toNat_ofNat', UInt64.toNat_ofNat', UInt64.toNat_ofNat']
  unfold subAddr
  omega

/-- The stack that `init_stack` makes in the slot of a live parent. -/
theorem childStack_eq (ha : a < procSize) (hi : i < procSize)
    (hbase : (s.image a).user.uStackbase = stackTop a)
    (hdepth : uStack ≤ stackTop a ∧ stackTop a ≤ uStack + 8191) :
    s.childStack a i uStack = stackLike a i uStack := by
  have hd : stackTop a - (stackTop a - uStack) = uStack := by omega
  have hptr := @forkStack_uStack s.cpu.mem s.cpu.mem (s.image i).user.uStack a i
    (stackTop a - uStack) ha hi (by omega)
  rw [hd] at hptr
  have htop : (s.childStack a i uStack).uStackbase = stackTop i := forkStack_uStackbase
  unfold Context.childStack at htop ⊢
  rw [hbase] at htop ⊢
  generalize (forkStack s.cpu.mem s.cpu.mem i (stackTop a) uStack (s.image i).user.uStack).1 = u
    at hptr htop ⊢
  unfold stackLike
  rw [← hptr, ← htop]

/-! ## The frames of parent and child -/

/-- The frame of the parent holds `rp`, that of the child, at `rg`, holds `rc`, and the frames of
the processes that wait are as they were. -/
structure ChildFrames (s : Context) (m : ByteMem) (a i rg : Nat) (rp rc : Gpr → UInt64) : Prop where
  parent : Parked m (s.reg a) a rp
  child : Parked m rg i rc
  waiting : ∀ j ∈ s.kernel.proc.queue, (s.kernel.proc.allPro j).waitstate ≠ waitingToDie →
    j < procSize ∧ j ≠ a ∧ j ≠ i ∧ ∀ r, Parked s.cpu.mem (s.reg j) j r → Parked m (s.reg j) j r

namespace ChildFrames

theorem setParent (h : ChildFrames s m a i rg rp rc) (ha : a < procSize) (hi : i < procSize)
    (hne : i ≠ a) :
    ChildFrames s (setField m (s.reg a) f x) a i rg (Function.update rp f x) rc where
  parent := h.parent.setField ha
  child := h.child.setField_other h.parent hi ha hne
  waiting := by
    intro j hj hw
    obtain ⟨hlt, hja, hji, hp⟩ := h.waiting j hj hw
    exact ⟨hlt, hja, hji, fun r hr => (hp r hr).setField_other h.parent hlt ha hja⟩

theorem setChild (h : ChildFrames s m a i rg rp rc) (ha : a < procSize) (hi : i < procSize)
    (hne : i ≠ a) : ChildFrames s (setField m rg f x) a i rg rp (Function.update rc f x) where
  parent := h.parent.setField_other h.child ha hi fun he => hne he.symm
  child := h.child.setField hi
  waiting := by
    intro j hj hw
    obtain ⟨hlt, hja, hji, hp⟩ := h.waiting j hj hw
    exact ⟨hlt, hja, hji, fun r hr => (hp r hr).setField_other h.child hlt hi hji⟩

/-- The C functions go on on the stack of the child. -/
theorem works (h : ChildFrames s m a i rg rp rc) (ha : a < procSize) (hi : i < procSize)
    (hne : i ≠ a) (hlow : kstackTop i ≤ tr.low + 8192) : ChildFrames s (tr.over rg m) a i rg rp rc := by
  have hin := h.child.inSlot
  have hfit : stackFloor rg ≤ tr.low := by
    have hfloor := stackFloor_eq hin
    omega
  refine ⟨h.parent.over ha hin hfit fun he => absurd he.symm hne,
    h.child.over hi hin hfit fun _ => Nat.le_refl _, ?_⟩
  intro j hj hw
  obtain ⟨hlt, hja, hji, hp⟩ := h.waiting j hj hw
  exact ⟨hlt, hja, hji, fun r hr => (hp r hr).over hlt hin hfit fun he => absurd he hji⟩

end ChildFrames

namespace Simulates

/-- `create_kstack` and `copy_kstack` give the child the frame of its parent. -/
theorem newStack_frames (h : Simulates s v) (hu : ¬ s.kernel.userMode)
    (hsw : s.kernel.proc.point ≠ .switch) (ha : s.kernel.proc.active = some a)
    (hfit : stackFloor s.kernelSp ≤ w.traces.low) (hc : CreationFits s w a uStack)
    (hlt : s.kernel.proc.freeSlot < procSize)
    (hfree : s.kernel.proc.procDescriptor s.kernel.proc.freeSlot = 0) :
    ∃ m, s.newStack a s.kernel.proc.freeSlot w = some (kstackTop s.kernel.proc.freeSlot, m) ∧
      ChildFrames s m a s.kernel.proc.freeSlot
        (sameDepth (kstackTop s.kernel.proc.freeSlot) (s.kStackbase a) (s.reg a)) v.cpu v.cpu := by
  have hrun := h.activeRun hsw ha
  have hp := h.worked_parked hu hsw ha hfit
  have hne : a ≠ s.kernel.proc.freeSlot := by
    intro he
    have hd := hrun.descriptor
    rw [he, hfree] at hd
    cases hd
  have hbehind : a ≠ s.kernel.proc.freeSlot + 1 := fun he => hc.behind (.inl (he ▸ ha))
  have hnotq : ∀ j ∈ s.kernel.proc.queue, j ≠ s.kernel.proc.freeSlot :=
    fun j hj he => h.inv.ring.free_notMem hfree (he ▸ hj)
  have hfloor := stackFloor_eq hp.inSlot
  have hks : InSlot a w.kernelStack := by
    have hup := hp.inSlot.2
    have hst := hc.stack
    unfold InSlot
    omega
  have hupper := hp.upper
  have hlower := hp.lower
  have hlta := kstackTop_lt hrun.lt
  have hlti := kstackTop_lt hlt
  have hbase := (h.made a hrun.descriptor).1
  have hkb : 8192 ≤ kstackTop s.kernel.proc.freeSlot := by
    unfold kstackTop
    omega
  have hdepth : sameDepth (kstackTop s.kernel.proc.freeSlot) (s.kStackbase a) (s.reg a) =
      kstackTop s.kernel.proc.freeSlot - (kstackTop a - s.reg a) := by
    rw [hbase]
    exact sameDepth_eq (by omega) hlta (by omega) hlti
  have htop := createKstack_top (m := s.worked a w.traces) hlt
  obtain ⟨r, hr, hcopy, hother⟩ :=
    newKstack_copied (m := s.worked a w.traces) hlt hrun.lt hne hbehind hks
  refine ⟨r.2, ?_, ?_, ?_, ?_⟩
  · unfold Context.newStack
    dsimp only
    rw [hbase, hr, htop]
    rfl
  · apply hp.congr
    intro y _ _ hslot
    exact hother a hrun.lt hne hbehind y hslot
  · rw [hdepth]
    refine ⟨by omega, by omega, ?_⟩
    rw [← hp.fields]
    apply gprFrame_congr
    intro n hn
    have hst := hc.stack
    have hbyte := hcopy (kstackTop a - s.reg a - n) (by omega) (by omega)
    rw [show kstackTop s.kernel.proc.freeSlot - (kstackTop a - s.reg a) + n =
        kstackTop s.kernel.proc.freeSlot - (kstackTop a - s.reg a - n) by omega, hbyte,
      show kstackTop a - (kstackTop a - s.reg a - n) = s.reg a + n by omega]
  · intro j hj hw
    have hjn := hnotq j hj
    have hjb : j ≠ s.kernel.proc.freeSlot + 1 := by
      intro he
      exact hc.behind (.inr (he ▸ ⟨hj, hw⟩))
    have hjlt := (h.inv.ring.run j hj).1
    refine ⟨hjlt, h.ne_active hsw ha hj, hjn, ?_⟩
    intro q hq
    apply (h.worked_waiting hu hsw ha hfit hj hq).congr
    intro y _ _ hslot
    exact hother j hjlt hjn hjb y hslot

/-- A new slot has the stacks that its number says. -/
theorem made_update (h : Simulates s v) {base : Nat → Nat} {image : Nat → ProcImage}
    {u : UserStack} {entry : UInt64} {descriptor : Nat → Nat} {j : Nat}
    (hd : descriptor = Function.update s.kernel.proc.procDescriptor i 1)
    (hbase : base = Function.update s.kStackbase i (kstackTop i))
    (himage : ∀ j, (image j).user.uStackbase = (s.image j).user.uStackbase)
    (hu : u.uStackbase = stackTop i) (hj : descriptor j = 1) :
    base j = kstackTop j ∧ (Function.update image i ⟨u, entry⟩ j).user.uStackbase = stackTop j := by
  rw [hbase]
  by_cases hji : j = i
  · rw [hji, Function.update_self, Function.update_self]
    exact ⟨rfl, hu⟩
  · rw [hd, Function.update_of_ne hji] at hj
    rw [Function.update_of_ne hji, Function.update_of_ne hji, himage]
    exact h.made j hj

/-- `newargs`: the arguments lie in the new stack as deep as in the old one. -/
theorem ofNat_sameDepth {top base : Nat} (x : UInt64) :
    UInt64.ofNat (sameDepth top base x.toNat) =
      UInt64.ofNat top - (UInt64.ofNat base - x) := by
  unfold sameDepth
  rw [ofNat_subAddr, ofNat_subAddr, UInt64.ofNat_toNat]

/-- The processes that wait go on waiting while the kernel makes the process `i` and changes
to it. -/
theorem child_waiting {base : Nat → Nat} {image : Nat → ProcImage} {c d : Pcb}
    (h : Simulates s v) (ha : ActiveRun s.kernel.proc a)
    (hspawn : Spawned s.kernel.proc k.proc a c d)
    (hframes : ChildFrames s m a s.kernel.proc.freeSlot rg rp rc) {j : Nat} (hj : j ∈ k.proc.queue)
    (hja : j ≠ a) (hw : (k.proc.allPro j).waitstate ≠ waitingToDie) {kStack : Nat → Nat}
    (hk : ∀ b, b ≠ a → b ≠ s.kernel.proc.freeSlot → kStack b = s.kStack b) :
    Waiting { s with kernel := k, cpu := { s.cpu with mem := m }, kStack := kStack,
                     kStackbase := base, image := image } (v.saved j) j := by
  have hstill := (hspawn.stillWaits h.inv ha hj).resolve_right hja
  obtain ⟨-, -, hji, hp⟩ := hframes.waiting j hstill.1 (hstill.2 ▸ hw)
  exact (h.waiting j hstill.1 (hstill.2 ▸ hw)).keep hstill rfl (hk j hja hji) (hp _)

theorem fork_step (h : Simulates s v) (hfit : ContextFits (.run .fork w) s)
    (hs : contextStep (.run .fork w) s = some t) :
    ∃ v', virtualStep (.run .fork w) v = some v' ∧ Simulates t v' := by
  obtain ⟨a, ha, hs⟩ := Option.bind_eq_some_iff.mp hs
  obtain ⟨k, hk, hs⟩ := Option.bind_eq_some_iff.mp hs
  obtain ⟨⟨top, m⟩, hnew, hs⟩ := Option.bind_eq_some_iff.mp hs
  obtain ⟨hproc, hh, hu⟩ := kernelStep_run hk
  have hpt := procStep_point hproc
  have hsw := point_ne_switch (.inl hpt)
  have hrun := h.activeRun hsw ha
  have hcall := h.called hu hsw a ha
  have hc : CreationFits s w a (s.fields a s.cpu.mem .usersp).toNat := hfit.2 a ha
  have hspawn : Spawned s.kernel.proc k.proc a (ProcInv.forkPcb s.kernel.proc a)
      { s.kernel.proc.allPro a with sigchildState := 1, state := running } :=
    ProcInv.syscallFork_eff h.inv hrun (procStep_run hproc)
  obtain ⟨m', hnew', hframes⟩ :=
    h.newStack_frames hu hsw ha hfit.1 hc hspawn.lt hspawn.free
  obtain ⟨rfl, rfl⟩ := Prod.mk.inj (Option.some.inj (hnew.symm.trans hnew'))
  dsimp only at hs
  obtain rfl := Option.some.inj hs
  have hfields : s.fields a m = v.cpu := hframes.parent.fields
  have hfields' : s.fields a s.cpu.mem = v.cpu := hcall.fields
  have hbase := (h.made a hrun.descriptor).2
  rw [hfields'] at hc
  have hu' := childStack_eq (s := s) hrun.lt hspawn.lt hbase hc.depth
  rw [hfields, hu']
  have hvirtual : v.fork = some
      { kernel := k,
        saved := Function.update v.saved a
          (Function.update v.cpu .rax (UInt64.ofNat s.kernel.proc.globalPid)),
        cpu := Function.update (Function.update v.cpu .usersp (UInt64.ofNat
          (stackLike a s.kernel.proc.freeSlot (v.cpu .usersp).toNat).uStack)) .rax 0,
        image := Function.update (v.saveUser a) s.kernel.proc.freeSlot
          ⟨stackLike a s.kernel.proc.freeSlot (v.cpu .usersp).toNat, (v.image a).entryPoint⟩ } := by
    unfold VirtualCpus.fork
    rw [← h.kernel, ha, hk]
    rfl
  refine ⟨_, hvirtual, ?_⟩
  have hlast := (((hframes.setParent (f := .rax) (x := UInt64.ofNat s.kernel.proc.globalPid)
    hrun.lt hspawn.lt hspawn.ne).setChild (f := .usersp)
    (x := UInt64.ofNat (stackLike a s.kernel.proc.freeSlot (v.cpu .usersp).toNat).uStack)
    hrun.lt hspawn.lt hspawn.ne).setChild (f := .rax) (x := 0) hrun.lt hspawn.lt
    hspawn.ne).works hrun.lt hspawn.lt hspawn.ne hc.child
  have hptk : k.proc.point = .user := hspawn.point.trans hpt
  refine started (h.run_inv hk id) hptk hh hspawn.active rfl ?_ ?_ ?_ ?_
  · dsimp only
    rw [h.saveUser_eq hframes.parent, h.image]
  · exact fun j hj => h.made_update hspawn.procDescriptor rfl (fun _ => saveUser_base) rfl hj
  · dsimp only
    rw [Function.update_self]
    exact hlast.child
  · intro j hj hw
    by_cases hja : j = a
    · subst hja
      dsimp only
      rw [Function.update_self]
      have hks : Function.update (Function.update s.kStack j (s.reg j)) s.kernel.proc.freeSlot
          (sameDepth (kstackTop s.kernel.proc.freeSlot) (s.kStackbase j) (s.reg j)) j =
          s.reg j := by
        rw [Function.update_of_ne hspawn.ne.symm, Function.update_self]
      refine ⟨hlast.parent, fun _ => hks, fun _ => ?_⟩
      dsimp only
      rw [hks]
      exact ⟨hlast.parent.inSlot, Nat.le_refl _⟩
    · have hsaved : Function.update v.saved a (Function.update v.cpu .rax
          (UInt64.ofNat s.kernel.proc.globalPid)) j = v.saved j := Function.update_of_ne hja _ _
      dsimp only
      rw [hsaved]
      refine h.child_waiting hrun hspawn hlast hj hja hw ?_
      intro b hba hbi
      rw [Function.update_of_ne hbi, Function.update_of_ne hba]

theorem exec_step {file : List Char} (h : Simulates s v)
    (hfit : ContextFits (.run (.exec file) w) s)
    (hs : contextStep (.run (.exec file) w) s = some t) :
    ∃ v', virtualStep (.run (.exec file) w) v = some v' ∧ Simulates t v' := by
  obtain ⟨a, ha, hs⟩ := Option.bind_eq_some_iff.mp hs
  obtain ⟨k, hk, hs⟩ := Option.bind_eq_some_iff.mp hs
  obtain ⟨⟨top, m⟩, hnew, hs⟩ := Option.bind_eq_some_iff.mp hs
  obtain ⟨hproc, hh, hu⟩ := kernelStep_run hk
  have hpt := procStep_point hproc
  have hsw := point_ne_switch (.inl hpt)
  have hrun := h.activeRun hsw ha
  have hc : CreationFits s w a (s.image a).user.uStack := hfit.2 a ha
  have hspawn : Spawned s.kernel.proc k.proc a (ProcInv.execPcb s.kernel.proc a file)
      { s.kernel.proc.allPro a with
        waitstate := waitingToDie, waitingfor := toInt32 s.kernel.proc.globalPid } :=
    ProcInv.syscallExec_eff h.inv hrun (procStep_run hproc)
  obtain ⟨m', hnew', hframes⟩ :=
    h.newStack_frames hu hsw ha hfit.1 hc hspawn.lt hspawn.free
  obtain ⟨rfl, rfl⟩ := Prod.mk.inj (Option.some.inj (hnew.symm.trans hnew'))
  dsimp only at hs
  obtain rfl := Option.some.inj hs
  have hfields : s.fields a m = v.cpu := hframes.parent.fields
  have hbase := (h.made a hrun.descriptor).2
  have hu' := childStack_eq (s := s) hrun.lt hspawn.lt hbase hc.depth
  rw [hfields, hu', hbase, ofNat_sameDepth, h.image]
  have hvirtual : v.exec file w = some
      { v with
        kernel := k,
        image := Function.update v.image s.kernel.proc.freeSlot
          ⟨stackLike a s.kernel.proc.freeSlot (v.image a).user.uStack, w.entryPoint⟩,
        cpu := Function.update (Function.update (Function.update (Function.update v.cpu
          .rip w.entryPoint) .rdi (UInt64.ofNat (stackTop s.kernel.proc.freeSlot) -
            (UInt64.ofNat (stackTop a) - v.cpu .rsi))) .usersp (UInt64.ofNat
          (stackLike a s.kernel.proc.freeSlot (v.image a).user.uStack).uStack)) .rsi w.argc } := by
    unfold VirtualCpus.exec
    rw [← h.kernel, ha, hk]
    rfl
  refine ⟨_, hvirtual, ?_⟩
  have hrip := hframes.setChild (f := .rip) (x := w.entryPoint) hrun.lt hspawn.lt hspawn.ne
  have hrdi := hrip.setChild (f := .rdi) (x := UInt64.ofNat (stackTop s.kernel.proc.freeSlot) -
    (UInt64.ofNat (stackTop a) - v.cpu .rsi)) hrun.lt hspawn.lt hspawn.ne
  have hsp := hrdi.setChild (f := .usersp) (x := UInt64.ofNat
    (stackLike a s.kernel.proc.freeSlot (v.image a).user.uStack).uStack) hrun.lt hspawn.lt
    hspawn.ne
  have hlast := (hsp.setChild (f := .rsi) (x := w.argc) hrun.lt hspawn.lt hspawn.ne).works
    hrun.lt hspawn.lt hspawn.ne hc.child
  refine started (h.run_inv hk id) (hspawn.point.trans hpt) hh hspawn.active rfl rfl ?_ ?_ ?_
  · intro j hj
    refine h.made_update hspawn.procDescriptor rfl ?_ rfl hj
    exact fun j => congrArg (fun f => (f j).user.uStackbase) h.image.symm
  · dsimp only
    rw [Function.update_self]
    exact hlast.child
  · intro j hj hw
    have hja : j ≠ a := by
      rintro rfl
      refine hw ?_
      show (k.proc.allPro j).waitstate = waitingToDie
      rw [hspawn.allPro, Function.update_self]
    exact h.child_waiting hrun hspawn hlast hj hja hw fun b _ hbi => Function.update_of_ne hbi _ _

/-- The process that a failed `exec` has made is not queued, so it is not seen again. -/
theorem execFail_step (h : Simulates s v) (hfit : ContextFits (.run .execFail w) s)
    (hs : contextStep (.run .execFail w) s = some t) :
    ∃ v', virtualStep (.run .execFail w) v = some v' ∧ Simulates t v' := by
  obtain ⟨a, ha, hs⟩ := Option.bind_eq_some_iff.mp hs
  obtain ⟨k, hk, hs⟩ := Option.bind_eq_some_iff.mp hs
  obtain ⟨⟨top, m⟩, hnew, hs⟩ := Option.bind_eq_some_iff.mp hs
  obtain ⟨hproc, hh, hu⟩ := kernelStep_run hk
  have hpt := procStep_point hproc
  have hsw := point_ne_switch (.inl hpt)
  have hrun := h.activeRun hsw ha
  have hc : CreationFits s w a (s.image a).user.uStack := hfit.2 a ha
  obtain ⟨hlt, hfree, hne, hall, hdesc, hpq, hps, hpe, -, hact, hptk⟩ :=
    ProcInv.syscallExecFail_eff hrun (procStep_run hproc)
  obtain ⟨m', hnew', hframes⟩ := h.newStack_frames hu hsw ha hfit.1 hc hlt hfree
  obtain ⟨rfl, rfl⟩ := Prod.mk.inj (Option.some.inj (hnew.symm.trans hnew'))
  dsimp only at hs
  obtain rfl := Option.some.inj hs
  have hbase := (h.made a hrun.descriptor).2
  have hu' := childStack_eq (s := s) hrun.lt hlt hbase hc.depth
  rw [hu', h.image]
  have hvirtual : v.execFail = some
      ({ v with
        image := Function.update v.image s.kernel.proc.freeSlot
          ⟨stackLike a s.kernel.proc.freeSlot (v.image a).user.uStack, 0⟩ }.ret k 0) := by
    unfold VirtualCpus.execFail
    rw [← h.kernel, ha, hk]
    rfl
  refine ⟨_, hvirtual, ?_⟩
  have hlast := hframes.works hrun.lt hlt hne hc.child
  have hqueue : k.proc.queue = s.kernel.proc.queue := by simp [ProcState.queue, hpq, hps, hpe]
  refine returned (h.run_inv hk id) (hptk.trans hpt) hh hact rfl rfl ?_ (h.tss a hsw ha)
    hlast.parent rfl ?_
  · intro j hj
    refine h.made_update hdesc rfl ?_ rfl hj
    exact fun j => congrArg (fun f => (f j).user.uStackbase) h.image.symm
  · intro j hj hw
    rw [hqueue] at hj
    have hji : j ≠ s.kernel.proc.freeSlot := fun he => h.inv.ring.free_notMem hfree (he ▸ hj)
    have hstill : StillWaits s.kernel.proc k.proc j :=
      ⟨hj, by rw [hall, Function.update_of_ne hji]⟩
    obtain ⟨-, -, -, hp⟩ := hlast.waiting j hj (hstill.2 ▸ hw)
    exact (h.waiting j hj (hstill.2 ▸ hw)).keep hstill rfl (Function.update_of_ne hji _ _) (hp _)

end Simulates

end Sbunix
