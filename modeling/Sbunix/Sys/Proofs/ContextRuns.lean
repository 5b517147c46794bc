import Sbunix.Sys.Proofs.ContextCreation

/-!
# Every process has its registers

The simulation of all steps, and what becomes of the registers of a process while it does not
run.
-/

namespace Sbunix

open ByteMem StackMachine

variable {p q : ProcState} {s t t₁ t₂ u u' : Context} {v v' : VirtualCpus} {k : KernelState}
  {l : ContextLabel} {ls : List ContextLabel} {w w' : KernelWork} {tr : Traces} {a i : Nat}

theorem Simulates.run_step {l : ProcLabel} (h : Simulates s v) (hfit : ContextFits (.run l w) s)
    (hs : contextStep (.run l w) s = some t) :
    ∃ v', virtualStep (.run l w) v = some v' ∧ Simulates t v' := by
  cases l with
  | fork => exact h.fork_step hfit hs
  | yield => exact h.yield_step hfit hs
  | exit status => exact h.exit_step hfit hs
  | wait pid => exact h.wait_step hfit hs
  | exec file => exact h.exec_step hfit hs
  | execFail => exact h.execFail_step hfit hs
  | dispatch => exact h.dispatch_step hfit hs
  | resumeWait => exact h.resumeWait_step hfit hs
  | kill pid =>
      obtain ⟨a, ha, -⟩ := Option.bind_eq_some_iff.mp hs
      exact absurd (hfit.2 a ha) id

theorem Simulates.step (h : Simulates s v) (hs : ContextMove l s t) :
    ∃ v', virtualStep l v = some v' ∧ Simulates t v' := by
  obtain ⟨hfit, hs⟩ := hs
  cases l with
  | program regs => exact h.program_step hs
  | interrupt n err tr => exact h.interrupt_step hfit hs
  | sysCall tr => exact h.sysCall_step hfit hs
  | files fd currentDir w tr => exact h.files_step hfit hs
  | run l w => exact h.run_step hfit hs

theorem Context.Started.simulates (h : s.Started) : Simulates s s.virtual := by
  have hproc : s.kernel.proc = initProc := by rw [h.kernel]; rfl
  have hpt : s.kernel.proc.point = .user := by rw [hproc]; rfl
  have hh : s.kernel.handler = none := by rw [h.kernel]; rfl
  have hqueue : s.kernel.proc.queue = [] := by rw [hproc]; decide
  refine ⟨rfl, rfl, hproc ▸ initProc_inv, fun _ => hpt, ?_, ?_, fun _ => rfl,
    fun hn => absurd ⟨hpt, hh⟩ hn, ?_, ?_⟩
  · intro i hi
    have hi0 : i = 0 := by
      rw [hproc] at hi
      by_contra hne
      have hd : initProc.procDescriptor i = 0 := by simp [initProc, hne]
      rw [hd] at hi
      cases hi
    rw [hi0, h.user]
    exact ⟨h.kStackbase, rfl⟩
  · intro a _ ha
    rw [hproc] at ha
    obtain rfl : 0 = a := Option.some.inj ha
    have hk := h.kStack
    rw [h.rsp0]
    omega
  · rw [hpt]
    intro hn
    cases hn
  · rw [hqueue]
    exact fun i hi => absurd hi List.not_mem_nil

/-! ## While a process waits -/

/-- Registers are saved for the process that leaves the processor only. -/
theorem park_saved {r : Gpr → UInt64} (hinv : ProcInv v.kernel.proc)
    (hpt : v.kernel.proc.point = .user ∨ v.kernel.proc.point = .waitLoop)
    (ha : v.kernel.proc.active = some a) (hi : i ∈ v.kernel.proc.queue) :
    Function.update v.saved a r i = v.saved i := by
  obtain ⟨b, hb⟩ := hinv.active (point_ne_switch hpt)
  obtain rfl : a = b := Option.some.inj (ha.symm.trans hb.active)
  have hne : i ≠ a := fun he => hb.notMem (he ▸ hi)
  exact Function.update_of_ne hne r v.saved

theorem virtualStep_saved (hinv : ProcInv v.kernel.proc) (hi : i ∈ v.kernel.proc.queue)
    (hs : virtualStep l v = some v') : v'.saved i = v.saved i := by
  cases l with
  | program regs =>
      rw [virtualStep] at hs
      split_ifs at hs
      obtain rfl := Option.some.inj hs
      rfl
  | interrupt n err tr =>
      rw [virtualStep] at hs
      split_ifs at hs
      obtain rfl := Option.some.inj hs
      rfl
  | sysCall tr =>
      obtain ⟨k, -, hs⟩ := Option.bind_eq_some_iff.mp hs
      obtain rfl := Option.some.inj hs
      rfl
  | files fd currentDir w tr =>
      obtain ⟨k, -, hs⟩ := Option.bind_eq_some_iff.mp hs
      obtain rfl := Option.some.inj hs
      rfl
  | run l w =>
      cases l with
      | fork =>
          obtain ⟨a, ha, hs⟩ := Option.bind_eq_some_iff.mp hs
          obtain ⟨k, hk, hs⟩ := Option.bind_eq_some_iff.mp hs
          obtain rfl := Option.some.inj hs
          exact park_saved hinv (.inl (procStep_point (kernelStep_run hk).1)) ha hi
      | yield =>
          obtain ⟨a, ha, hs⟩ := Option.bind_eq_some_iff.mp hs
          obtain ⟨k, hk, hs⟩ := Option.bind_eq_some_iff.mp hs
          obtain rfl := Option.some.inj hs
          exact park_saved hinv (.inl (procStep_point (kernelStep_run hk).1)) ha hi
      | exit status =>
          obtain ⟨k, -, hs⟩ := Option.bind_eq_some_iff.mp hs
          split_ifs at hs
          obtain rfl := Option.some.inj hs
          rfl
      | wait pid =>
          obtain ⟨a, ha, hs⟩ := Option.bind_eq_some_iff.mp hs
          obtain ⟨k, hk, hs⟩ := Option.bind_eq_some_iff.mp hs
          split_ifs at hs
          · obtain rfl := Option.some.inj hs
            rfl
          · obtain rfl := Option.some.inj hs
            exact park_saved hinv (.inl (procStep_point (kernelStep_run hk).1)) ha hi
      | exec file =>
          obtain ⟨a, ha, hs⟩ := Option.bind_eq_some_iff.mp hs
          obtain ⟨k, -, hs⟩ := Option.bind_eq_some_iff.mp hs
          obtain rfl := Option.some.inj hs
          rfl
      | execFail =>
          obtain ⟨a, ha, hs⟩ := Option.bind_eq_some_iff.mp hs
          obtain ⟨k, -, hs⟩ := Option.bind_eq_some_iff.mp hs
          obtain rfl := Option.some.inj hs
          rfl
      | kill pid =>
          obtain ⟨k, -, hs⟩ := Option.bind_eq_some_iff.mp hs
          split_ifs at hs
          obtain rfl := Option.some.inj hs
          rfl
      | dispatch =>
          obtain ⟨r, -, hs⟩ := Option.bind_eq_some_iff.mp hs
          obtain ⟨x, -, hs⟩ := Option.bind_eq_some_iff.mp hs
          obtain ⟨k, -, hs⟩ := Option.bind_eq_some_iff.mp hs
          split_ifs at hs
          · obtain rfl := Option.some.inj hs
            rfl
          · obtain rfl := Option.some.inj hs
            rfl
      | resumeWait =>
          obtain ⟨a, ha, hs⟩ := Option.bind_eq_some_iff.mp hs
          obtain ⟨k, hk, hs⟩ := Option.bind_eq_some_iff.mp hs
          split_ifs at hs
          · obtain rfl := Option.some.inj hs
            rfl
          · obtain rfl := Option.some.inj hs
            exact park_saved hinv (.inr (procStep_point (kernelStep_run hk).1)) ha hi

/-- The process that `syscall_switch` starts or goes on with gets its saved registers. -/
theorem dispatch_resumes (hinv : ProcInv v.kernel.proc)
    (hs : virtualStep (.run .dispatch w) v = some v') (hsw : v'.kernel.proc.point ≠ .switch)
    (ha : v'.kernel.proc.active = some a) : v'.cpu = v.saved a := by
  obtain ⟨r, hr, hs⟩ := Option.bind_eq_some_iff.mp hs
  obtain ⟨x, hx, hs⟩ := Option.bind_eq_some_iff.mp hs
  obtain ⟨k, hk, hs⟩ := Option.bind_eq_some_iff.mp hs
  split_ifs at hs with hpt
  · obtain rfl := Option.some.inj hs
    exact absurd hpt hsw
  obtain rfl := Option.some.inj hs
  obtain ⟨y, ys, hq, hcases⟩ := ProcInv.dispatch_cases hinv (procStep_run (kernelStep_run hk).1)
  have hy : x = y := by
    rw [hinv.ring.getNextproc_cons hinv.table hq] at hr
    obtain rfl := Option.some.inj hr
    exact (Option.some.inj hx).symm
  subst hy
  suffices hactive : k.proc.active = some x by
    obtain rfl : x = a := Option.some.inj (hactive.symm.trans ha)
    rfl
  rcases hcases with ⟨hkp, -⟩ | ⟨hkp, -⟩ | ⟨-, -, -, u, -, hkp⟩ | ⟨hkp, -⟩
  · rw [hkp]
  · rw [hkp]
  · exact absurd (by rw [hkp]) hpt
  · exact absurd (by rw [hkp]) hpt

/-- The kernel's part of a step of the process side. -/
theorem virtualStep_kernel {l : ProcLabel} (hs : virtualStep (.run l w) v = some v') :
    kernelStep (.run l) v.kernel = some v'.kernel := by
  cases l with
  | fork | yield | exec _ | execFail =>
      obtain ⟨a, -, hs⟩ := Option.bind_eq_some_iff.mp hs
      obtain ⟨k, hk, hs⟩ := Option.bind_eq_some_iff.mp hs
      obtain rfl := Option.some.inj hs
      exact hk
  | exit _ | kill _ =>
      obtain ⟨k, hk, hs⟩ := Option.bind_eq_some_iff.mp hs
      split_ifs at hs
      obtain rfl := Option.some.inj hs
      exact hk
  | wait _ | resumeWait =>
      obtain ⟨a, -, hs⟩ := Option.bind_eq_some_iff.mp hs
      obtain ⟨k, hk, hs⟩ := Option.bind_eq_some_iff.mp hs
      split_ifs at hs <;> obtain rfl := Option.some.inj hs <;> exact hk
  | dispatch =>
      obtain ⟨r, -, hs⟩ := Option.bind_eq_some_iff.mp hs
      obtain ⟨x, -, hs⟩ := Option.bind_eq_some_iff.mp hs
      obtain ⟨k, hk, hs⟩ := Option.bind_eq_some_iff.mp hs
      split_ifs at hs <;> obtain rfl := Option.some.inj hs <;> exact hk

/-- Nothing but `syscall_switch` leads into the loop of `do_wait`. -/
theorem procStep_waitLoop {l : ProcLabel} (h : ProcInv p) (hs : procStep l p = some q)
    (hq : q.point = .waitLoop) : l = .dispatch := by
  have hreturns : ∀ {l : ProcLabel}, l.returns → procStep l p = some q → False := by
    intro l hl hs
    rw [procStep_returns hl hs] at hq
    cases hq
  have hpt := procStep_point hs
  cases l with
  | fork => exact (hreturns (l := .fork) trivial hs).elim
  | exec file => exact (hreturns (l := .exec file) trivial hs).elim
  | execFail => exact (hreturns (l := .execFail) trivial hs).elim
  | kill pid => exact (hreturns (l := .kill pid) trivial hs).elim
  | yield =>
      rw [procStep_switches hs (.inl rfl)] at hq
      cases hq
  | exit status =>
      rw [procStep_switches hs (.inr ⟨status, rfl⟩)] at hq
      cases hq
  | dispatch => rfl
  | wait pid =>
      obtain ⟨a, ha⟩ := h.active_user hpt
      rcases ProcInv.syscallWait_eff h ha (procStep_run hs) with ⟨-, rfl⟩ | ⟨-, rfl⟩
      · cases hpt.symm.trans hq
      · cases hq
  | resumeWait =>
      obtain ⟨a, ha⟩ := h.active_waitLoop hpt
      rcases ProcInv.resumeWait_cases h ha hpt (procStep_run hs) with
        ⟨-, j, -, -, -, -, -, -, -, -, -, -, hu⟩ | ⟨-, rfl⟩
      · cases hu.symm.trans hq
      · cases hq

/-- The process that `do_wait` has let go runs. -/
theorem resumed_active (h : ProcInv p) (hs : procStep .resumeWait p = some q)
    (ha : p.active = some a) (hq : q.point = .user) : ActiveRun q a := by
  have hpt := procStep_point hs
  have hinv := h.step (ProcLabel.ne_kill (l := .resumeWait) id) hs
  obtain ⟨b, hb⟩ := h.active_waitLoop hpt
  obtain rfl : a = b := Option.some.inj (ha.symm.trans hb.active)
  obtain ⟨c, hc⟩ := hinv.active_user hq
  rcases ProcInv.resumeWait_cases h hb hpt (procStep_run hs) with
    ⟨-, j, -, -, -, -, -, -, -, -, -, hact, -⟩ | ⟨-, rfl⟩
  · obtain rfl : a = c := Option.some.inj (hact.symm.trans hc.active)
    exact hc
  · cases hq

/-- A process that yields or begins to wait is queued. -/
theorem parked_queue {l : ProcLabel} (h : ProcInv p) (ha : p.active = some a)
    (hs : procStep l p = some q) (hl : l = .yield ∨ ∃ pid, l = .wait pid)
    (hq : q.point = .switch) : a ∈ q.queue := by
  have hpt : p.point = .user := by
    rw [procStep_point hs]
    rcases hl with rfl | ⟨pid, rfl⟩ <;> rfl
  obtain ⟨b, hb⟩ := h.active_user hpt
  obtain rfl : a = b := Option.some.inj (ha.symm.trans hb.active)
  have hmem : a ∈ (p.pushQ a).queue := by
    rw [h.ring.queue_pushQ hb.lt hb.notMem]
    exact List.mem_append_right _ List.mem_cons_self
  have hrun := procStep_run hs
  rcases hl with rfl | ⟨pid, rfl⟩
  · have hq := Option.some.inj hrun
    rw [ProcInv.syscallSwitch_eff h hb hpt] at hq
    subst hq
    exact hmem
  · rcases ProcInv.syscallWait_eff h hb hrun with ⟨-, rfl⟩ | ⟨-, rfl⟩
    · cases hpt.symm.trans hq
    · exact hmem

/-- In `v` the registers `r` are those of the process in slot `a`, which does not run. -/
def VirtualCpus.Keeps (v : VirtualCpus) (a : Nat) (r : Gpr → UInt64) : Prop :=
  a ∈ v.kernel.proc.queue ∧ v.saved a = r ∨
    v.kernel.proc.point = .waitLoop ∧ v.kernel.proc.active = some a ∧ v.cpu = r

/-- A process that waits in the queue and is in the loop of `do_wait` next has been taken from the
queue. -/
theorem loop_keeps {r : Gpr → UInt64} (h : ProcInv v.kernel.proc) (h' : ProcInv v'.kernel.proc)
    (hh : v.kernel.handler ≠ none → v.kernel.proc.point = .user) (hs : virtualStep l v = some v')
    (hi : a ∈ v.kernel.proc.queue) (hr : v.saved a = r) (hpt : v'.kernel.proc.point = .waitLoop)
    (hact : v'.kernel.proc.active = some a) : v'.cpu = r := by
  have hne : v'.kernel.proc.point ≠ .switch := point_ne_switch (.inr hpt)
  have hnot : ¬ a ∈ v'.kernel.proc.queue := by
    obtain ⟨b, hb⟩ := h'.active hne
    obtain rfl : a = b := Option.some.inj (hact.symm.trans hb.active)
    exact hb.notMem
  cases l with
  | program regs =>
      rw [virtualStep] at hs
      split_ifs at hs
      obtain rfl := Option.some.inj hs
      exact absurd hi hnot
  | interrupt n err tr =>
      rw [virtualStep] at hs
      split_ifs at hs
      obtain rfl := Option.some.inj hs
      exact absurd hi hnot
  | sysCall tr =>
      obtain ⟨k, hk, hs⟩ := Option.bind_eq_some_iff.mp hs
      obtain rfl := Option.some.inj hs
      exact absurd ((Simulates.kernelStep_sysCall hk).2 ▸ hi) hnot
  | files fd currentDir w tr =>
      obtain ⟨k, hk, hs⟩ := Option.bind_eq_some_iff.mp hs
      obtain rfl := Option.some.inj hs
      obtain ⟨⟨n, hn⟩, -, hq⟩ := kernelStep_files hk
      have hu := hh (by rw [hn]; exact Option.some_ne_none n)
      exact absurd ((fileCall_eff h hu hq).point.symm.trans hpt) (by rw [hu]; decide)
  | run l w =>
      have hl : l = .dispatch := procStep_waitLoop h (kernelStep_run (virtualStep_kernel hs)).1 hpt
      subst hl
      rw [dispatch_resumes h hs hne hact, hr]

theorem Simulates.keeps {r : Gpr → UInt64} (h : Simulates s v) (hk : v.Keeps a r)
    (hs : ContextMove l s t) (haway : t.kernel.proc.Away a) :
    ∃ v', virtualStep l v = some v' ∧ Simulates t v' ∧ v'.Keeps a r := by
  obtain ⟨v', hstep, hsim⟩ := h.step hs
  have hinv : ProcInv v.kernel.proc := h.kernel ▸ h.inv
  have hh : v.kernel.handler ≠ none → v.kernel.proc.point = .user := h.kernel ▸ h.handler
  refine ⟨v', hstep, hsim, ?_⟩
  rw [hsim.kernel] at haway
  cases hk with
  | inl hwait =>
      obtain ⟨hi, hr⟩ := hwait
      cases haway with
      | inl hq => exact .inl ⟨hq, (virtualStep_saved hinv hi hstep).trans hr⟩
      | inr hloop =>
          refine .inr ⟨hloop.1, hloop.2, ?_⟩
          exact loop_keeps hinv (hsim.kernel ▸ hsim.inv) hh hstep hi hr hloop.1 hloop.2
  | inr hloop =>
      obtain ⟨hpt, hact, hr⟩ := hloop
      have hnu : ¬ v.kernel.userMode := by
        intro hu
        rw [hu.1] at hpt
        cases hpt
      cases l with
      | program regs =>
          rw [virtualStep, if_neg hnu] at hstep
          cases hstep
      | interrupt n err tr =>
          rw [virtualStep, if_neg fun hn => hnu hn.1] at hstep
          cases hstep
      | sysCall tr =>
          obtain ⟨k, hk, -⟩ := Option.bind_eq_some_iff.mp hstep
          exact absurd (kernelStep_sysCall hk).1 hnu
      | files fd currentDir w tr =>
          obtain ⟨k, hk, -⟩ := Option.bind_eq_some_iff.mp hstep
          obtain ⟨⟨n, hn⟩, -, -⟩ := kernelStep_files hk
          cases (hh (by rw [hn]; exact Option.some_ne_none n)).symm.trans hpt
      | run l w =>
          have hproc := (kernelStep_run (virtualStep_kernel hstep)).1
          have hl : l = .resumeWait := by
            have hp := procStep_point hproc
            rw [hpt] at hp
            cases l <;> first | rfl | cases hp
          subst hl
          obtain ⟨b, hb, hstep⟩ := Option.bind_eq_some_iff.mp hstep
          obtain ⟨k, hk, hstep⟩ := Option.bind_eq_some_iff.mp hstep
          obtain rfl : a = b := Option.some.inj (hact.symm.trans hb)
          have hback : k.proc.point ≠ .waitLoop := by
            intro hw
            cases procStep_waitLoop hinv (kernelStep_run hk).1 hw
          split_ifs at hstep with huser
          · obtain rfl := Option.some.inj hstep
            -- it has returned to its program, so it is not away
            have hrun := resumed_active hinv (kernelStep_run hk).1 hact huser
            exact absurd (haway.resolve_right fun hw => hback hw.1) hrun.notMem
          · obtain rfl := Option.some.inj hstep
            refine .inl ⟨haway.resolve_right fun hw => hback hw.1, ?_⟩
            show Function.update v.saved a v.cpu a = r
            rw [Function.update_self, hr]

/-- Whatever happens while a process does not run, its registers are kept. -/
theorem Simulates.meanwhile {r : Gpr → UInt64} (h : Simulates s v) (hk : v.Keeps a r)
    (hrun : Meanwhile a s ls t) : ∃ v', Simulates t v' ∧ v'.Keeps a r := by
  have hsim : ∃ v', Run (fun l v v' => virtualStep l v = some v') v ls v' ∧
      (Simulates t v' ∧ v'.Keeps a r) := by
    refine Run.simulate (R := fun t x => Simulates t x ∧ x.Keeps a r) ?_ ⟨h, hk⟩ hrun
    intro l s t x hx hst
    exact hx.1.keeps hx.2 hst.1 hst.2
  obtain ⟨v', -, hv'⟩ := hsim
  exact ⟨v', hv'⟩

/-- A process that leaves the queue for user mode runs with its registers. -/
theorem Simulates.resumes {r : Gpr → UInt64} (h : Simulates s v) (hk : v.Keeps a r)
    (hrun : Meanwhile a s ls u) (hback : ContextMove (.run .dispatch w) u u')
    (huser : u'.kernel.userMode) (hself : u'.kernel.proc.active = some a) : u'.cpu.regs = r := by
  obtain ⟨x, hx, hkeeps⟩ := h.meanwhile hk hrun
  obtain ⟨y, hy, hsim⟩ := hx.step hback
  have hpt : x.kernel.proc.point = .switch :=
    procStep_point (kernelStep_run (virtualStep_kernel hy)).1
  have hsaved : x.saved a = r := by
    cases hkeeps with
    | inl hq => exact hq.2
    | inr hloop => cases hpt.symm.trans hloop.1
  rw [hsim.program huser, dispatch_resumes (hx.kernel ▸ hx.inv) hy
    (hsim.kernel ▸ userMode_switch huser) (hsim.kernel ▸ hself), hsaved]

end Sbunix
