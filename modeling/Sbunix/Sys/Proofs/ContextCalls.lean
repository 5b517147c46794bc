import Sbunix.Sys.Proofs.Context

/-!
# The calls of the process side keep the registers apart

One step lemma of the simulation for each call, and one for the kernel's own steps.
-/

namespace Sbunix

open ByteMem StackMachine

variable {p q : ProcState} {s t : Context} {v : VirtualCpus} {k : KernelState} {l : ProcLabel}
  {w : KernelWork} {a i sp : Nat} {m : ByteMem} {r : Gpr → UInt64}

theorem procStep_point (hs : procStep l p = some q) : p.point = l.point := by
  unfold procStep at hs
  by_contra hne
  rw [if_neg hne] at hs
  cases hs

theorem procStep_run (hs : procStep l p = some q) : l.run p = some q := by
  have hpt := procStep_point hs
  unfold procStep at hs
  rwa [if_pos hpt] at hs

namespace Simulates

/-- The stack pointer of the program is in its frame. -/
theorem saveUser_eq (h : Simulates s v) (hp : Parked m (s.reg a) a v.cpu) :
    s.saveUser a m = v.saveUser a := by
  unfold Context.saveUser VirtualCpus.saveUser
  rw [h.image, show s.fields a m = v.cpu from hp.fields]

theorem saveUser_base : (s.saveUser a m i).user.uStackbase = (s.image i).user.uStackbase := by
  unfold Context.saveUser
  by_cases hi : i = a
  · rw [hi, Function.update_self]
  · rw [Function.update_of_ne hi]

/-! ### Calls that leave the processor -/

/-- The caller is queued, and will be started from the stack pointer `sp`. -/
theorem parks (h : Simulates s v) (hu : ¬ s.kernel.userMode) (hsw : s.kernel.proc.point ≠ .switch)
    (ha : s.kernel.proc.active = some a) (hfit : stackFloor s.kernelSp ≤ w.traces.low)
    (hk : kernelStep (.run l) s.kernel = some k) (hl : ¬ l.kills) (hc : ¬ l.creates)
    (hpt : k.proc.point = .switch) (hin : InSlot a sp) (hle : sp ≤ s.reg a)
    (hready : (k.proc.allPro a).waitstate = 0 → sp = s.reg a) :
    Simulates { s with kernel := k, cpu := { s.cpu with sp := sp, mem := s.worked a w.traces },
                       kStack := Function.update s.kStack a sp,
                       image := s.saveUser a (s.worked a w.traces) } (v.park a k) := by
  have hp := h.worked_parked hu hsw ha hfit
  refine switching (b := a) (h.run_inv hk hl) hpt (kernelStep_run hk).2.1 rfl (h.saveUser_eq hp) ?_
    hin (fun _ _ => hle) ?_
  · intro i hi
    have hmade := h.run_made hk hl hc i hi
    exact ⟨hmade.1, saveUser_base.trans hmade.2⟩
  · intro i hi hw
    by_cases hia : i = a
    · subst hia
      have hsaved : (v.park i k).saved i = v.cpu := Function.update_self _ _ _
      have hks : Function.update s.kStack i sp i = sp := Function.update_self _ _ _
      rw [hsaved]
      refine ⟨hp, fun hz => hks.trans (hready hz), fun _ => ?_⟩
      show InSlot i (Function.update s.kStack i sp i) ∧ Function.update s.kStack i sp i ≤ s.reg i
      rw [hks]
      exact ⟨hin, hle⟩
    · have hsaved : (v.park a k).saved i = v.saved i := Function.update_of_ne hia _ _
      have hks : Function.update s.kStack a sp i = s.kStack i := Function.update_of_ne hia _ _
      have hstill : StillWaits s.kernel.proc k.proc i := by
        refine (procStep_stillWaits h.inv hl (kernelStep_run hk).1 hi hw).resolve_right ?_
        intro hact
        exact hia (Option.some.inj (hact.2.symm.trans ha))
      rw [hsaved]
      exact (h.waiting i hstill.1 (hstill.2 ▸ hw)).keep hstill rfl hks
        (h.worked_waiting hu hsw ha hfit hstill.1)

theorem yield_step (h : Simulates s v) (hfit : ContextFits (.run .yield w) s)
    (hs : contextStep (.run .yield w) s = some t) :
    ∃ v', virtualStep (.run .yield w) v = some v' ∧ Simulates t v' := by
  obtain ⟨a, ha, hs⟩ := Option.bind_eq_some_iff.mp hs
  obtain ⟨k, hk, hs⟩ := Option.bind_eq_some_iff.mp hs
  obtain rfl := Option.some.inj hs
  obtain ⟨hproc, -, hu⟩ := kernelStep_run hk
  have hsw := point_ne_switch (.inl (procStep_point hproc))
  refine ⟨v.park a k, ?_, ?_⟩
  · show v.yield = _
    unfold VirtualCpus.yield
    rw [← h.kernel, ha, hk]
    rfl
  · exact h.parks hu hsw ha hfit.1 hk id id (procStep_switches hproc (.inl rfl))
      (h.called hu hsw a ha).inSlot (Nat.le_refl _) fun _ => rfl

/-- An ended process is not queued; the kernel goes on on its stack. -/
theorem exit_step {status : Nat} (h : Simulates s v) (hfit : ContextFits (.run (.exit status) w) s)
    (hs : contextStep (.run (.exit status) w) s = some t) :
    ∃ v', virtualStep (.run (.exit status) w) v = some v' ∧ Simulates t v' := by
  obtain ⟨a, ha, hs⟩ := Option.bind_eq_some_iff.mp hs
  obtain ⟨k, hk, hs⟩ := Option.bind_eq_some_iff.mp hs
  obtain ⟨hproc, hh, hu⟩ := kernelStep_run hk
  have hpt := procStep_point hproc
  have hsw := point_ne_switch (.inl hpt)
  have hp := h.worked_parked hu hsw ha hfit.1
  have hrun := h.activeRun hsw ha
  have hfields : s.fields a (s.worked a w.traces) = v.cpu := hp.fields
  dsimp only at hs
  rw [hfields] at hs
  by_cases hst : (v.cpu .rdi).toNat = status
  · rw [if_pos hst] at hs
    obtain rfl := Option.some.inj hs
    refine ⟨{ v with kernel := k }, ?_, ?_⟩
    · show v.exit status = _
      unfold VirtualCpus.exit
      rw [← h.kernel, hk]
      exact if_pos hst
    have hqueue : k.proc.queue = s.kernel.proc.queue := by
      have heff := ProcInv.syscallExit_eff hrun (procStep_run hproc)
      obtain ⟨-, hq, hst, hen, -⟩ := endProcess_frame s.kernel.proc a (toInt32 status)
      rw [heff]
      simp [ProcState.queue, hq, hst, hen]
    refine switching (b := a) (h.run_inv hk id)
      (procStep_switches hproc (.inr ⟨status, rfl⟩)) hh rfl h.image (h.run_made hk id id)
      hp.inSlot (fun _ _ => Nat.le_refl _) ?_
    intro i hi hw
    have hne := h.ne_active hsw ha (hqueue ▸ hi)
    have hstill : StillWaits s.kernel.proc k.proc i := by
      have hl : ¬ (ProcLabel.exit status).kills := id
      refine (procStep_stillWaits h.inv hl hproc hi hw).resolve_right ?_
      intro hact
      exact hne (Option.some.inj (hact.2.symm.trans ha))
    exact (h.waiting i hstill.1 (hstill.2 ▸ hw)).keep hstill rfl rfl
      (h.worked_waiting hu hsw ha hfit.1 hstill.1)
  · rw [if_neg hst] at hs
    cases hs

/-- `syscall_wait` returns at once, or the caller is queued in it. -/
theorem wait_step {pid : Nat} (h : Simulates s v) (hfit : ContextFits (.run (.wait pid) w) s)
    (hs : contextStep (.run (.wait pid) w) s = some t) :
    ∃ v', virtualStep (.run (.wait pid) w) v = some v' ∧ Simulates t v' := by
  obtain ⟨a, ha, hs⟩ := Option.bind_eq_some_iff.mp hs
  obtain ⟨k, hk, hs⟩ := Option.bind_eq_some_iff.mp hs
  obtain ⟨hproc, hh, hu⟩ := kernelStep_run hk
  have hpt := procStep_point hproc
  have hsw := point_ne_switch (.inl hpt)
  have hp := h.worked_parked hu hsw ha hfit.1
  have hrun := h.activeRun hsw ha
  have hfields : s.fields a (s.worked a w.traces) = v.cpu := hp.fields
  dsimp only at hs
  rw [hfields] at hs
  by_cases hpid : (v.cpu .rdi).toNat = pid
  · rw [if_pos hpid] at hs
    have hvirtual : v.wait pid =
        if k.proc.point = .user then some (v.ret k 0) else some (v.park a k) := by
      unfold VirtualCpus.wait
      rw [← h.kernel, ha, hk]
      exact if_pos hpid
    rcases ProcInv.syscallWait_eff h.inv hrun (procStep_run hproc) with ⟨-, hsame⟩ | ⟨-, hblock⟩
    · have hptk : k.proc.point = .user := by rw [hsame, hpt]; rfl
      rw [if_pos hptk] at hs hvirtual
      obtain rfl := Option.some.inj hs
      refine ⟨v.ret k 0, hvirtual, ?_⟩
      refine returned (h.run_inv hk id) hptk hh (by rw [hsame]; exact ha) rfl h.image
        (h.run_made hk id id) (h.tss a hsw ha) hp rfl ?_
      rw [hsame]
      intro i hi hw
      exact (h.waiting i hi hw).keep ⟨hi, congrArg (fun p => (p.allPro i).waitstate) hsame⟩ rfl rfl
        (h.worked_waiting hu hsw ha hfit.1 hi)
    · have hptk : k.proc.point = .switch := by rw [hblock]
      have hne : k.proc.point ≠ .user := by rw [hptk]; decide
      rw [if_neg hne] at hs hvirtual
      obtain rfl := Option.some.inj hs
      refine ⟨v.park a k, hvirtual, ?_⟩
      have hks := hfit.2 a ha
      have hfloor := stackFloor_eq hp.inSlot
      have hin : InSlot a w.kernelStack := by
        have hup := hp.inSlot.2
        unfold InSlot
        omega
      have hws : (k.proc.allPro a).waitstate = waitingToLive := by
        rw [hblock]
        dsimp only
        rw [ProcState.modPro_same]
      exact h.parks hu hsw ha hfit.1 hk id id hptk hin hks.2
        fun hz => absurd (hws.symm.trans hz) (by decide)
  · rw [if_neg hpid] at hs
    cases hs

/-! ### Steps of the kernel itself -/

/-- `rsi` of the frame is what it was when the call began. -/
theorem rsi_kept (h : Simulates s v) (hu : ¬ s.kernel.userMode)
    (hsw : s.kernel.proc.point ≠ .switch) (ha : s.kernel.proc.active = some a)
    (hfit : stackFloor s.kernelSp ≤ w.traces.low) (x : UInt64) :
    s.fields a (setField (s.worked a w.traces) (s.reg a) .rax x) .rsi =
      s.fields a s.cpu.mem .rsi := by
  have hset := (h.worked_parked hu hsw ha hfit).setField (f := .rax) (w := x)
    (h.activeRun hsw ha).lt
  have hcall : s.fields a s.cpu.mem = v.cpu := (h.called hu hsw a ha).fields
  have hfields := hset.fields
  unfold Context.fields at *
  rw [hfields, hcall, Function.update_of_ne (by decide)]

theorem resumeWait_step (h : Simulates s v) (hfit : ContextFits (.run .resumeWait w) s)
    (hs : contextStep (.run .resumeWait w) s = some t) :
    ∃ v', virtualStep (.run .resumeWait w) v = some v' ∧ Simulates t v' := by
  obtain ⟨a, ha, hs⟩ := Option.bind_eq_some_iff.mp hs
  obtain ⟨k, hk, hs⟩ := Option.bind_eq_some_iff.mp hs
  obtain ⟨hproc, hh, hu⟩ := kernelStep_run hk
  have hpt := procStep_point hproc
  have hsw := point_ne_switch (.inr hpt)
  have hp := h.worked_parked hu hsw ha hfit.1
  have hrun := h.activeRun hsw ha
  have hks : (stackFloor (s.reg a) < w.kernelStack ∧ w.kernelStack ≤ s.reg a) ∧
      (s.fields a s.cpu.mem .rsi).toNat + 8 ≤ kstackbase := hfit.2 a ha
  have hvirtual : v.resumeWait =
      if k.proc.point = .user then
        some ({ v with image := v.saveUser a }.ret k
          (UInt64.ofNat (ProcState.waitResult (s.kernel.proc.allPro a)).1))
      else some (v.park a k) := by
    unfold VirtualCpus.resumeWait
    rw [← h.kernel, ha, hk]
    rfl
  dsimp only at hs
  rcases ProcInv.resumeWait_cases h.inv hrun hpt (procStep_run hproc) with
    ⟨hdone, j, hj, hjp, hja, hall, hde, hpq, hps, hpe, -, hact, hptk⟩ | ⟨-, hblock⟩
  · rw [if_pos hptk] at hs hvirtual
    obtain rfl := Option.some.inj hs
    refine ⟨_, hvirtual, ?_⟩
    have hqueue : k.proc.queue = s.kernel.proc.queue := by
      simp [ProcState.queue, hpq, hps, hpe]
    have hset := hp.setField (f := .rax)
      (w := UInt64.ofNat (ProcState.waitResult (s.kernel.proc.allPro a)).1) hrun.lt
    have hrsi := h.rsi_kept hu hsw ha hfit.1
      (UInt64.ofNat (ProcState.waitResult (s.kernel.proc.allPro a)).1)
    rw [hrsi]
    refine returned (h.run_inv hk id) hptk hh hact rfl (h.saveUser_eq hp) ?_ ?_
      (hset.storeUser hrun.lt hks.2) ?_ ?_
    · intro i hi
      have hmade := h.run_made hk id id i hi
      exact ⟨hmade.1, saveUser_base.trans hmade.2⟩
    · have hbase := (h.made a hrun.descriptor).1
      dsimp only
      omega
    · show Function.update v.cpu .rax _ = _
      rw [Function.update_idem]
    · rw [hqueue]
      intro i hi hw
      have hne := h.ne_active hsw ha hi
      have hstill : StillWaits s.kernel.proc k.proc i := by
        have hl : ¬ ProcLabel.resumeWait.kills := id
        refine (procStep_stillWaits h.inv hl hproc (hqueue ▸ hi) hw).resolve_right ?_
        intro hact
        exact hne (Option.some.inj (hact.2.symm.trans ha))
      refine (h.waiting i hi (hstill.2 ▸ hw)).keep hstill rfl (Function.update_of_ne hne _ _) ?_
      intro hpi
      have hlt := (h.inv.ring.run i hi).1
      have hstored : Parked (setField (s.worked a w.traces) (s.reg a) .rax
          (UInt64.ofNat (ProcState.waitResult (s.kernel.proc.allPro a)).1)) (s.reg i) i
          (v.saved i) :=
        (h.worked_waiting hu hsw ha hfit.1 hi hpi).setField_other hp hlt hrun.lt hne
      have htold := hstored.storeUser
        (w := UInt64.ofNat (ProcState.waitResult (s.kernel.proc.allPro a)).2) hlt hks.2
      exact htold
  · have hptk : k.proc.point = .switch := by rw [hblock]
    have hne : k.proc.point ≠ .user := by rw [hptk]; decide
    rw [if_neg hne] at hs hvirtual
    obtain rfl := Option.some.inj hs
    refine ⟨v.park a k, hvirtual, ?_⟩
    have hfloor := stackFloor_eq hp.inSlot
    have hin : InSlot a w.kernelStack := by
      have hup := hp.inSlot.2
      have hlow := hks.1
      unfold InSlot
      omega
    have hws : (k.proc.allPro a).waitstate = waitingToLive := by
      rw [hblock]
      dsimp only
      rw [ProcState.modPro_same]
      exact hrun.waitLoop hpt
    exact h.parks hu hsw ha hfit.1 hk id id hptk hin hks.1.2
      fun hz => absurd (hws.symm.trans hz) (by decide)

/-- The status of the child that `wait` stores for its caller. -/
theorem resumeWait_status (h : Simulates s v) (hfit : ContextFits (.run .resumeWait w) s)
    (hs : contextStep (.run .resumeWait w) s = some t) (ha : s.kernel.proc.active = some a)
    (huser : t.kernel.proc.point = .user) :
    t.cpu.mem.loadWord (v.cpu .rsi).toNat =
      UInt64.ofNat (ProcState.waitResult (s.kernel.proc.allPro a)).2 := by
  obtain ⟨b, hb, hs⟩ := Option.bind_eq_some_iff.mp hs
  obtain ⟨k, hk, hs⟩ := Option.bind_eq_some_iff.mp hs
  obtain rfl : a = b := Option.some.inj (ha.symm.trans hb)
  obtain ⟨hproc, -, hu⟩ := kernelStep_run hk
  have hsw := point_ne_switch (.inr (procStep_point hproc))
  have hp := h.called hu hsw a ha
  have hcall : s.fields a s.cpu.mem = v.cpu := hp.fields
  have hks : (stackFloor (s.reg a) < w.kernelStack ∧ w.kernelStack ≤ s.reg a) ∧
      (s.fields a s.cpu.mem .rsi).toNat + 8 ≤ kstackbase := hfit.2 a ha
  dsimp only at hs
  split_ifs at hs
  · obtain rfl := Option.some.inj hs
    rw [h.rsi_kept hu hsw ha hfit.1, hcall]
    rw [hcall] at hks
    have hf := gprField_le .rax
    have hle := hp.le (h.activeRun hsw ha).lt
    have hlow := hp.lower
    have hend := kstackbase_end
    unfold kstackTop at hlow
    -- the word lies below the frame, in which `rax` is written once more
    show (ByteMem.storeWord _ (s.reg a + 8 * gprT.idxOf .rax) _).loadWord _ = _
    rw [loadWord_storeWord_other (by omega) (by omega) (by omega), loadWord_storeWord]
  · obtain rfl := Option.some.inj hs
    contradiction

/-- The kernel goes on on the stack of whichever process has called `syscall_switch`. -/
theorem switched_waiting (h : Simulates s v) (hsw : s.kernel.proc.point = .switch)
    (hfit : stackFloor s.kernelSp ≤ w.traces.low) (hi : i ∈ s.kernel.proc.queue)
    (hw : (s.kernel.proc.allPro i).waitstate ≠ waitingToDie)
    (hp : Parked s.cpu.mem (s.reg i) i r) :
    Parked (w.traces.over s.cpu.sp s.cpu.mem) (s.reg i) i r := by
  obtain ⟨b, hb, hsp⟩ := h.switch hsw
  rw [kernelSp_switch hsw] at hfit
  refine hp.over (h.inv.ring.run i hi).1 hb hfit ?_
  intro he
  subst he
  exact hsp hi hw

theorem dispatch_step (h : Simulates s v) (hfit : ContextFits (.run .dispatch w) s)
    (hs : contextStep (.run .dispatch w) s = some t) :
    ∃ v', virtualStep (.run .dispatch w) v = some v' ∧ Simulates t v' := by
  obtain ⟨r, hr, hs⟩ := Option.bind_eq_some_iff.mp hs
  obtain ⟨x, hx, hs⟩ := Option.bind_eq_some_iff.mp hs
  obtain ⟨k, hk, hs⟩ := Option.bind_eq_some_iff.mp hs
  obtain ⟨hproc, hh, hu⟩ := kernelStep_run hk
  have hsw : s.kernel.proc.point = .switch := procStep_point hproc
  have hstill : ∀ i ∈ k.proc.queue, (k.proc.allPro i).waitstate ≠ waitingToDie →
      StillWaits s.kernel.proc k.proc i := by
    intro i hi hw
    have hl : ¬ ProcLabel.dispatch.kills := id
    refine (procStep_stillWaits h.inv hl hproc hi hw).resolve_right ?_
    exact fun hact => hact.1 hsw
  have hwait : ∀ i ∈ k.proc.queue, (k.proc.allPro i).waitstate ≠ waitingToDie →
      ∀ (c : StackMachine Gpr) n, Waiting
        { s with kernel := k, rsp0 := n,
                 cpu := { c with mem := w.traces.over s.cpu.sp s.cpu.mem } } (v.saved i) i := by
    intro i hi hw c n
    have hq := hstill i hi hw
    exact (h.waiting i hq.1 (hq.2 ▸ hw)).keep hq rfl rfl
      (h.switched_waiting hsw hfit.1 hq.1 (hq.2 ▸ hw))
  have hvirtual : v.dispatch = if k.proc.point = .switch then some { v with kernel := k }
      else some { v with kernel := k, cpu := v.saved x } := by
    unfold VirtualCpus.dispatch
    rw [← h.kernel, hr]
    dsimp only [Option.bind_eq_bind, Option.bind_some]
    rw [hx]
    dsimp only [Option.bind_some]
    rw [hk]
    rfl
  obtain ⟨y, ys, hq, hcases⟩ := ProcInv.dispatch_cases h.inv (procStep_run hproc)
  have hy : x = y := by
    rw [h.inv.ring.getNextproc_cons h.inv.table hq] at hr
    obtain rfl := Option.some.inj hr
    exact (Option.some.inj hx).symm
  subst hy
  have hmem : x ∈ s.kernel.proc.queue := by
    rw [hq]
    exact List.mem_cons_self
  have hrun := h.inv.ring.run x hmem
  have hmade := h.run_made hk id id
  dsimp only at hs
  rcases hcases with ⟨hkp, hws⟩ | ⟨hkp, hws⟩ | ⟨hws, -, -, u, -, hkp⟩ | ⟨hkp, hws, -⟩
  · -- the process starts from its frame
    have hpt : k.proc.point = .user := by rw [hkp]
    have hne : k.proc.point ≠ .switch := by rw [hpt]; decide
    have hstate : (s.kernel.proc.allPro x).state ≠ newProc := by
      rw [hrun.2.2]
      decide
    rw [hpt] at hs
    dsimp only at hs
    rw [if_neg hstate] at hs
    obtain rfl := Option.some.inj hs
    refine ⟨_, hvirtual.trans (if_neg hne), ?_⟩
    have hnd : (s.kernel.proc.allPro x).waitstate ≠ waitingToDie := by
      rw [hws]
      decide
    have hwx := h.waiting x hmem hnd
    have hp := h.switched_waiting hsw hfit.1 hmem hnd hwx.parked
    rw [← hwx.ready hws] at hp
    exact started (h.run_inv hk id) hpt hh (by rw [hkp]) rfl h.image hmade hp
      fun i hi hw => hwait i hi hw s.cpu _
  · -- the process goes on in `syscall_wait`
    have hpt : k.proc.point = .waitLoop := by rw [hkp]
    have hne : k.proc.point ≠ .switch := by rw [hpt]; decide
    rw [hpt] at hs
    obtain rfl := Option.some.inj hs
    refine ⟨_, hvirtual.trans (if_neg hne), ?_⟩
    have hnd : (s.kernel.proc.allPro x).waitstate ≠ waitingToDie := by
      rw [hws]
      decide
    have hwx := h.waiting x hmem hnd
    have hp := h.switched_waiting hsw hfit.1 hmem hnd hwx.parked
    have hact : k.proc.active = some x := by rw [hkp]
    refine ⟨rfl, h.image, h.run_inv hk id, fun hn => absurd hh hn, hmade, ?_, ?_, ?_,
      fun hn => absurd hn hne, fun i hi hw => hwait i hi hw { s.cpu with sp := s.kStack x } _⟩
    · intro c _ hc
      obtain rfl : x = c := Option.some.inj (hact.symm.trans hc)
      have hbase := (h.made x hrun.2.1).1
      dsimp only
      omega
    · intro hn
      have hpu := hn.1
      dsimp only at hpu
      rw [hpt] at hpu
      cases hpu
    · intro _ _ c hc
      obtain rfl : x = c := Option.some.inj (hact.symm.trans hc)
      exact hp
  all_goals
    have hpt : k.proc.point = .switch := by rw [hkp]
    rw [hpt] at hs
    obtain rfl := Option.some.inj hs
    refine ⟨_, hvirtual.trans (if_pos hpt), ?_⟩
    obtain ⟨b, hb, hsp⟩ := h.switch hsw
    refine switching (b := b) (h.run_inv hk id) hpt hh rfl h.image hmade hb ?_
      fun i hi hw => hwait i hi hw s.cpu _
    intro hbq hbw
    have hq := hstill b hbq hbw
    exact hsp hq.1 (hq.2 ▸ hbw)

end Simulates

end Sbunix
