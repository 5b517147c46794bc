import Sbunix.Sys.Proofs.ContextPossible

/-!
# A process finds its registers again

What a program finds in its registers when it goes on after a yield, a fork and a wait.
-/

namespace Sbunix

open ByteMem StackMachine

variable {s t t₁ t₂ u u' : Context} {v : VirtualCpus} {ls : List ContextLabel} {w w' : KernelWork}
  {tr : Traces} {a : Nat}

/-- The registers with which a run enters a call. -/
theorem Simulates.call (hs : s.Started) (hrun : ContextRun s ls t)
    (ha : t.kernel.proc.active = some a) (hcall : ContextMove (.sysCall tr) t t₁) :
    ∃ v, Simulates t₁ v ∧ v.cpu = t.cpu.regs ∧ v.kernel.proc.active = some a := by
  have hsim : ∃ v, VirtualRun s.virtual ls v ∧ Simulates t v :=
    Run.simulate (fun _ _ _ _ h hst => h.step hst) hs.simulates hrun
  obtain ⟨v, -, hv⟩ := hsim
  obtain ⟨x, hx, hsim⟩ := hv.step hcall
  obtain ⟨k, hk, hx⟩ := Option.bind_eq_some_iff.mp hx
  obtain rfl := Option.some.inj hx
  rw [← hv.kernel] at hk
  obtain ⟨huser, hproc⟩ := kernelStep_sysCall hk
  exact ⟨_, hsim, (hv.program huser).symm, hproc ▸ ha⟩

/-- A process that yields gets every register back when its turn comes, the call number in `rax`
included, whatever the other processes, their calls and the interrupts have done. -/
theorem yield_resumes (hs : s.Started) (hrun : ContextRun s ls t)
    (ha : t.kernel.proc.active = some a) (hcall : ContextMove (.sysCall tr) t t₁)
    (hyield : ContextMove (.run .yield w) t₁ t₂) {ls' : List ContextLabel}
    (hothers : Meanwhile a t₂ ls' u) (hback : ContextMove (.run .dispatch w') u u')
    (huser : u'.kernel.userMode) (hself : u'.kernel.proc.active = some a) :
    u'.cpu.regs = t.cpu.regs := by
  obtain ⟨x, hx, hregs, hact⟩ := Simulates.call hs hrun ha hcall
  obtain ⟨y, hy, hsim⟩ := hx.step hyield
  have hkeeps : y.Keeps a t.cpu.regs := by
    obtain ⟨b, hb, hy⟩ := Option.bind_eq_some_iff.mp hy
    obtain ⟨k, hk, hy⟩ := Option.bind_eq_some_iff.mp hy
    obtain rfl := Option.some.inj hy
    obtain rfl : a = b := Option.some.inj (hact.symm.trans hb)
    refine .inl ⟨parked_queue (hx.kernel ▸ hx.inv) hact (kernelStep_run hk).1 (.inl rfl) ?_, ?_⟩
    · exact procStep_switches (kernelStep_run hk).1 (.inl rfl)
    · show Function.update x.saved a x.cpu a = _
      rw [Function.update_self, hregs]
  exact hsim.resumes hkeeps hothers hback huser hself

/-- The state after a step that is possible. -/
def virtualNext (l : ContextLabel) (v : VirtualCpus) (h : (virtualMove l v).isSome) : VirtualCpus :=
  (virtualMove l v).get h

theorem virtualNext_move {l : ContextLabel} {v : VirtualCpus} (h : (virtualMove l v).isSome) :
    virtualMove l v = some (virtualNext l v h) := (Option.some_get h).symm

instance (p : ProcState) (j : Nat) : Decidable (p.Away j) := inferInstanceAs (Decidable (_ ∨ _))

/-- A possible step during which the process of slot `a` does not run. -/
def meanwhileMove (a : Nat) (l : ContextLabel) (v : VirtualCpus) : Option VirtualCpus :=
  (virtualMove l v).bind fun w => if w.kernel.proc.Away a then some w else none

theorem Simulates.realizes_meanwhile {v' : VirtualCpus} (h : Simulates s v)
    (hrun : Run (fun l v w => meanwhileMove a l v = some w) v ls v') :
    ∃ ls' t, ls'.map ContextLabel.seen = ls.map ContextLabel.seen ∧ Meanwhile a s ls' t ∧
      Simulates t v' := by
  induction hrun with
  | nil => exact ⟨[], s, rfl, .nil, h⟩
  | snoc l _ hstep ih =>
    obtain ⟨ls', t, hseen, hmeanwhile, hsim⟩ := ih
    obtain ⟨w, hmove, hw⟩ := Option.bind_eq_some_iff.mp hstep
    split_ifs at hw with haway
    obtain rfl := Option.some.inj hw
    obtain ⟨l', t', hl, hmove', hsim'⟩ := hsim.realizes hmove
    refine ⟨ls' ++ [l'], t', ?_, .snoc l' hmeanwhile ⟨hmove', hsim'.kernel ▸ haway⟩, hsim'⟩
    rw [List.map_append, List.map_append, hseen, List.map_singleton, List.map_singleton, hl]

/-- The child of the shell is about to yield. -/
def yieldCall : VirtualCpus :=
  (runLabels virtualMove (forkLabels ++ [setCall 58 0 0]) shellContext.virtual).get (by decide)

/-- Its call has entered the kernel. -/
def yieldEntered : VirtualCpus := virtualNext (.sysCall .none) yieldCall (by decide)

/-- It waits in the queue. -/
def yieldQueued : VirtualCpus := virtualNext (.run .yield noWork) yieldEntered (by decide)

/-- The shell gets its turn, changes the registers and yields too. -/
def yieldOthers : List ContextLabel :=
  [.run .dispatch noWork, setCall 58 7 7, .sysCall .none, .run .yield noWork]

/-- The shell has run. -/
def yieldShell : VirtualCpus := (runLabels (meanwhileMove 1) yieldOthers yieldQueued).get (by decide)

/-- The child has its turn again. -/
def yieldBack : VirtualCpus := virtualNext (.run .dispatch noWork) yieldShell (by decide)

/-- The child of the shell yields, and the shell runs in between. -/
theorem yield_resumes_shell : ∃ (t t₂ u u' : Context) (ls : List ContextLabel),
    Meanwhile 1 t₂ ls u ∧ ls.map ContextLabel.seen = yieldOthers.map ContextLabel.seen ∧
      u'.kernel.userMode ∧ u'.kernel.proc.active = some 1 ∧ u'.cpu.regs = t.cpu.regs := by
  have henter : virtualMove (.sysCall .none) yieldCall = some yieldEntered := virtualNext_move _
  have hqueue : virtualMove (.run .yield noWork) yieldEntered = some yieldQueued :=
    virtualNext_move _
  have hnext : virtualMove (.run .dispatch noWork) yieldShell = some yieldBack :=
    virtualNext_move _
  obtain ⟨ls, t, -, hctx, ht⟩ := shellContext_started.simulates.realizes_run
    (Run.of_runLabels (Option.some_get (x := runLabels _ _ _) _).symm : Run _ _ _ yieldCall)
  obtain ⟨_, t₁, hcall, ht₁⟩ := ht.realizes_sysCall henter
  obtain ⟨_, t₂, hyield, ht₂⟩ := ht₁.realizes_proc hqueue
  obtain ⟨ls', u, hseen, hothers, hu⟩ := ht₂.realizes_meanwhile (a := 1)
    (Run.of_runLabels (Option.some_get (x := runLabels _ _ _) _).symm : Run _ _ _ yieldShell)
  obtain ⟨_, u', hback, hu'⟩ := hu.realizes_proc hnext
  have hactive : t.kernel.proc.active = some 1 := by
    rw [ht.kernel]
    decide
  have huser : u'.kernel.userMode ∧ u'.kernel.proc.active = some 1 := by
    rw [hu'.kernel]
    decide
  exact ⟨t, t₂, u, u', ls', hothers, hseen, huser.1, huser.2,
    yield_resumes shellContext_started hctx hactive hcall hyield hothers hback huser.1 huser.2⟩

/-- A process that waits for a child goes on with the registers of its call and the child's pid in
`rax`, however often it was looked at in between, and finds the status where `rsi` points to. -/
theorem wait_resumes {pid : Nat} (hs : s.Started) (hrun : ContextRun s ls t)
    (ha : t.kernel.proc.active = some a) (hcall : ContextMove (.sysCall tr) t t₁)
    (hwait : ContextMove (.run (.wait pid) w) t₁ t₂) (hblocked : t₂.kernel.proc.point = .switch)
    {ls' : List ContextLabel} (hothers : Meanwhile a t₂ ls' u)
    (hself : u.kernel.proc.active = some a) (hback : ContextMove (.run .resumeWait w') u u')
    (huser : u'.kernel.userMode) :
    u'.cpu.regs = Function.update t.cpu.regs .rax
        (UInt64.ofNat (u.kernel.proc.allPro a).signallingChild) ∧
      u'.cpu.mem.loadWord (t.cpu.regs .rsi).toNat =
        UInt64.ofNat (toUint64 (u.kernel.proc.allPro a).sigchildState) := by
  obtain ⟨x, hx, hregs, hact⟩ := Simulates.call hs hrun ha hcall
  obtain ⟨y, hy, hsim⟩ := hx.step hwait
  have hkeeps : y.Keeps a t.cpu.regs := by
    obtain ⟨b, hb, hy⟩ := Option.bind_eq_some_iff.mp hy
    obtain ⟨k, hk, hy⟩ := Option.bind_eq_some_iff.mp hy
    obtain rfl : a = b := Option.some.inj (hact.symm.trans hb)
    split_ifs at hy with hpid hpt
    · obtain rfl := Option.some.inj hy
      rw [hsim.kernel] at hblocked
      cases hblocked.symm.trans hpt
    · obtain rfl := Option.some.inj hy
      refine .inl ⟨parked_queue (hx.kernel ▸ hx.inv) hact (kernelStep_run hk).1
        (.inr ⟨pid, rfl⟩) (hsim.kernel ▸ hblocked), ?_⟩
      show Function.update x.saved a x.cpu a = _
      rw [Function.update_self, hregs]
  obtain ⟨z, hz, hkeeps⟩ := hsim.meanwhile hkeeps hothers
  obtain ⟨z', hz', hsim'⟩ := hz.step hback
  have hpt : z.kernel.proc.point = .waitLoop :=
    procStep_point (kernelStep_run (virtualStep_kernel hz')).1
  have hcpu : z.cpu = t.cpu.regs := by
    cases hkeeps with
    | inr hloop => exact hloop.2.2
    | inl hq =>
        obtain ⟨b, hb⟩ := hz.inv.active_waitLoop (hz.kernel ▸ hpt)
        obtain rfl : a = b := Option.some.inj (hself.symm.trans hb.active)
        exact absurd (hz.kernel ▸ hq.1) hb.notMem
  refine ⟨?_, hcpu ▸ hz.resumeWait_status hback.1 hback.2 hself huser.1⟩
  obtain ⟨b, hb, hz'⟩ := Option.bind_eq_some_iff.mp hz'
  obtain ⟨k, hk, hz'⟩ := Option.bind_eq_some_iff.mp hz'
  rw [hz.kernel] at hself ⊢
  obtain rfl : a = b := Option.some.inj (hself.symm.trans hb)
  rw [hsim'.program huser]
  split_ifs at hz' with hpu
  · obtain rfl := Option.some.inj hz'
    show Function.update z.cpu .rax _ = _
    rw [hcpu]
    rfl
  · obtain rfl := Option.some.inj hz'
    have hu : u'.kernel = k := hsim'.kernel
    exact absurd (hu ▸ huser.1) hpu

/-- The shell has forked, and its child has ended with status 0. -/
def waitCall : VirtualCpus :=
  (runLabels virtualMove (forkLabels ++ [setCall 60 0 0, .sysCall .none, .run (.exit 0) noWork,
    .run .dispatch noWork, setCall 61 2 4096]) shellContext.virtual).get (by decide)

/-- Its call has entered the kernel. -/
def waitEntered : VirtualCpus := virtualNext (.sysCall .none) waitCall (by decide)

/-- It waits in the queue. -/
def waitQueued : VirtualCpus := virtualNext (.run (.wait 2) noWork) waitEntered (by decide)

/-- It looks for an ended child. -/
def waitLooks : VirtualCpus := virtualNext (.run .dispatch noWork) waitQueued (by decide)

/-- It goes on. -/
def waitBack : VirtualCpus := virtualNext (.run .resumeWait noWork) waitLooks (by decide)

/-- The shell learns that its child of pid 2 has ended. -/
theorem wait_resumes_shell :
    ∃ t u' : Context, u'.kernel.userMode ∧ u'.cpu.regs = Function.update t.cpu.regs .rax 2 ∧
      u'.cpu.mem.loadWord (t.cpu.regs .rsi).toNat = 0 := by
  have henter : virtualMove (.sysCall .none) waitCall = some waitEntered := virtualNext_move _
  have hqueue : virtualMove (.run (.wait 2) noWork) waitEntered = some waitQueued :=
    virtualNext_move _
  have hlook : virtualMove (.run .dispatch noWork) waitQueued = some waitLooks :=
    virtualNext_move _
  have hend : virtualMove (.run .resumeWait noWork) waitLooks = some waitBack :=
    virtualNext_move _
  obtain ⟨ls, t, -, hctx, ht⟩ := shellContext_started.simulates.realizes_run
    (Run.of_runLabels (Option.some_get (x := runLabels _ _ _) _).symm : Run _ _ _ waitCall)
  obtain ⟨_, t₁, hcall, ht₁⟩ := ht.realizes_sysCall henter
  obtain ⟨_, t₂, hwait, ht₂⟩ := ht₁.realizes_proc hqueue
  obtain ⟨_, u, hothers, hu⟩ := ht₂.realizes_proc hlook
  obtain ⟨_, u', hback, hu'⟩ := hu.realizes_proc hend
  have hactive : t.kernel.proc.active = some 0 := by
    rw [ht.kernel]
    decide
  have hblocked : t₂.kernel.proc.point = .switch := by
    rw [ht₂.kernel]
    decide
  have hlooks : u.kernel.proc.Away 0 ∧ u.kernel.proc.active = some 0 ∧
      (u.kernel.proc.allPro 0).signallingChild = 2 ∧
      toUint64 (u.kernel.proc.allPro 0).sigchildState = 0 := by
    rw [hu.kernel]
    exact ⟨.inr (by decide), by decide⟩
  have huser : u'.kernel.userMode := by
    rw [hu'.kernel]
    decide
  have hfound := wait_resumes shellContext_started hctx hactive hcall hwait hblocked
    (.single ⟨hothers, hlooks.1⟩) hlooks.2.1 hback huser
  rw [hlooks.2.2.1, hlooks.2.2.2] at hfound
  exact ⟨t, u', huser, hfound⟩

/-- `fork` returns twice: the child runs at once with the registers of its parent, 0 in `rax` and a
stack of its own; the parent has its registers and the child's pid when its turn comes. -/
theorem fork_resumes (hs : s.Started) (hrun : ContextRun s ls t)
    (ha : t.kernel.proc.active = some a) (hcall : ContextMove (.sysCall tr) t t₁)
    (hfork : ContextMove (.run .fork w) t₁ t₂) :
    ∃ c, t₂.kernel.userMode ∧ t₂.kernel.proc.active = some c ∧
      t₂.cpu.regs = Function.update (Function.update t.cpu.regs .usersp
        (UInt64.ofNat (stackLike a c (t.cpu.regs .usersp).toNat).uStack)) .rax 0 ∧
      ∀ ls' u u' w', Meanwhile a t₂ ls' u → ContextMove (.run .dispatch w') u u' →
        u'.kernel.userMode → u'.kernel.proc.active = some a →
        u'.cpu.regs = Function.update t.cpu.regs .rax
          (UInt64.ofNat (t₂.kernel.proc.allPro c).pid) := by
  obtain ⟨x, hx, hregs, hact⟩ := Simulates.call hs hrun ha hcall
  obtain ⟨y, hy, hsim⟩ := hx.step hfork
  obtain ⟨b, hb, hy⟩ := Option.bind_eq_some_iff.mp hy
  obtain ⟨k, hk, hy⟩ := Option.bind_eq_some_iff.mp hy
  obtain rfl : a = b := Option.some.inj (hact.symm.trans hb)
  obtain rfl := Option.some.inj hy
  obtain ⟨hproc, hh, -⟩ := kernelStep_run hk
  have hpt := procStep_point hproc
  have hinv : ProcInv x.kernel.proc := hx.kernel ▸ hx.inv
  obtain ⟨b, hrun⟩ := hinv.active_user hpt
  obtain rfl : a = b := Option.some.inj (hact.symm.trans hrun.active)
  have hspawn := ProcInv.syscallFork_eff hinv hrun (procStep_run hproc)
  have hkernel : t₂.kernel = k := hsim.kernel
  have huser : t₂.kernel.userMode := hkernel ▸ ⟨hspawn.point.trans hpt, hh⟩
  have hpid : (k.proc.allPro x.kernel.proc.freeSlot).pid = x.kernel.proc.globalPid := by
    rw [hspawn.allPro, Function.update_of_ne hspawn.ne, Function.update_self]
    rfl
  refine ⟨x.kernel.proc.freeSlot, huser, hkernel ▸ hspawn.active, ?_, ?_⟩
  · rw [hsim.program huser, ← hregs]
  · intro ls' u u' w' hothers hback huser' hself
    refine hsim.resumes (.inl ⟨?_, ?_⟩) hothers hback huser' hself
    · show a ∈ k.proc.queue
      rw [hspawn.queue hinv.ring hrun]
      exact List.mem_append_right _ List.mem_cons_self
    · show Function.update x.saved a _ a = _
      rw [Function.update_self, hregs, hkernel, hpid]

/-- The shell is about to fork. -/
def forkCall : VirtualCpus := virtualNext (setCall 57 0 0) shellContext.virtual (by decide)

/-- Its call has entered the kernel. -/
def forkEntered : VirtualCpus := virtualNext (.sysCall .none) forkCall (by decide)

/-- The child runs. -/
def forkBack : VirtualCpus := virtualNext (.run .fork noWork) forkEntered (by decide)

/-- The child changes the registers and yields. -/
def forkOthers : List ContextLabel := [setCall 58 7 7, .sysCall .none, .run .yield noWork]

/-- The child has run. -/
def forkChild : VirtualCpus := (runLabels (meanwhileMove 0) forkOthers forkBack).get (by decide)

/-- The shell has its turn again. -/
def forkParent : VirtualCpus := virtualNext (.run .dispatch noWork) forkChild (by decide)

/-- The child of the shell runs in slot 1, and then the shell learns that its pid is 2. -/
theorem fork_resumes_shell : ∃ t t₂ u' : Context,
    (t₂.kernel.userMode ∧ t₂.kernel.proc.active = some 1 ∧
      t₂.cpu.regs = Function.update (Function.update t.cpu.regs .usersp
        (UInt64.ofNat (stackLike 0 1 (t.cpu.regs .usersp).toNat).uStack)) .rax 0) ∧
    u'.kernel.userMode ∧ u'.kernel.proc.active = some 0 ∧
      u'.cpu.regs = Function.update t.cpu.regs .rax 2 := by
  have hset : virtualMove (setCall 57 0 0) shellContext.virtual = some forkCall :=
    virtualNext_move _
  have henter : virtualMove (.sysCall .none) forkCall = some forkEntered := virtualNext_move _
  have hforks : virtualMove (.run .fork noWork) forkEntered = some forkBack := virtualNext_move _
  have hnext : virtualMove (.run .dispatch noWork) forkChild = some forkParent :=
    virtualNext_move _
  obtain ⟨ls, t, -, hctx, ht⟩ := shellContext_started.simulates.realizes_run (.single hset)
  obtain ⟨_, t₁, hcall, ht₁⟩ := ht.realizes_sysCall henter
  obtain ⟨_, t₂, hfork, ht₂⟩ := ht₁.realizes_proc hforks
  obtain ⟨_, u, -, hothers, hu⟩ := ht₂.realizes_meanwhile (a := 0)
    (Run.of_runLabels (Option.some_get (x := runLabels _ _ _) _).symm : Run _ _ _ forkChild)
  obtain ⟨_, u', hback, hu'⟩ := hu.realizes_proc hnext
  have hactive : t.kernel.proc.active = some 0 := by
    rw [ht.kernel]
    decide
  have hchild : t₂.kernel.proc.active = some 1 ∧ (t₂.kernel.proc.allPro 1).pid = 2 := by
    rw [ht₂.kernel]
    decide
  have huser : u'.kernel.userMode ∧ u'.kernel.proc.active = some 0 := by
    rw [hu'.kernel]
    decide
  obtain ⟨c, hcuser, hc, hregs, hparent⟩ :=
    fork_resumes shellContext_started hctx hactive hcall hfork
  obtain rfl : c = 1 := Option.some.inj (hc.symm.trans hchild.1)
  have hself := hparent _ u u' _ hothers hback huser.1 huser.2
  rw [hchild.2] at hself
  exact ⟨t, t₂, u', ⟨hcuser, hchild.1, hregs⟩, huser.1, huser.2, hself⟩

end Sbunix
