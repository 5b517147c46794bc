import Mathlib.Data.Finset.Card
import Mathlib.Data.Finset.Range
import Sbunix.Sys.Yomama
import Sbunix.Sys.Proofs.ProcIdentity
import Sbunix.Sys.Proofs.ProcRuns

/-!
# What creating a process takes

`syscall_fork` and `syscall_exec` use the index their search for a free slot leaves, found or
not, and a failed `exec` keeps the slot it took.
-/

namespace Sbunix

/-! ## Runs with system call entry -/

/-- What start-up establishes and the steps of the process side and the file calls keep. -/
theorem KernelReach.proc_invariant {cond : KernelLabel → KernelState → Prop} {s : KernelState}
    {P : ProcState → Prop} (h : KernelReach cond s) (hinit : P initProc)
    (hstep : ∀ l p p', P p → procStep l p = some p' → P p')
    (hfiles : ∀ p i fd dir, P p → P (p.modPro i fun q => { q with fd := fd, currentDir := dir })) :
    P s.proc := by
  refine h.invariant (P := fun s => P s.proc) (fun s (hs : s = initKernel) => hs ▸ hinit) ?_
  intro l s t hi hs
  have hst := hs.2
  cases l with
  | sysCall rax =>
      rw [kernelStep] at hst
      split_ifs at hst <;> exact Option.some.inj hst ▸ hi
  | run l =>
      rw [kernelStep] at hst
      split_ifs at hst
      obtain ⟨p, hp, hst⟩ := Option.bind_eq_some_iff.mp hst
      exact Option.some.inj hst ▸ hstep l _ _ hi hp
  | files fd currentDir =>
      rw [kernelStep] at hst
      cases hh : s.handler with
      | none =>
          rw [hh] at hst
          exact absurd hst (by simp)
      | some n =>
          rw [hh] at hst
          dsimp only at hst
          split_ifs at hst
          obtain ⟨p, hp, hst⟩ := Option.bind_eq_some_iff.mp hst
          obtain ⟨a, -, ha⟩ := Option.bind_eq_some_iff.mp hp
          rw [← Option.some.inj hst]
          show P p
          rw [← Option.some.inj ha]
          exact hfiles _ a fd currentDir hi

theorem KernelReach.ids {cond : KernelLabel → KernelState → Prop} {s : KernelState}
    (h : KernelReach cond s) : s.proc.Ids :=
  h.proc_invariant initProc_ids (fun _ _ _ hi hs => hi.step hs)
    fun _ _ _ _ hi => hi.modPro (fun _ => rfl) (fun _ => rfl)

/-- Runs of the process side are runs of the kernel. -/
theorem ProcReach.kernel {cond : ProcLabel → ProcState → Prop} {p : ProcState}
    (h : ProcReach cond p) : ∃ r, KernelReach (fun _ _ => True) ⟨p, r, none⟩ := by
  refine h.invariant (P := fun p => ∃ r, KernelReach (fun _ _ => True) ⟨p, r, none⟩)
    (fun p (hp : p = initProc) => ⟨0, .init (by rw [hp]; rfl)⟩) ?_
  rintro l p p' ⟨r, hr⟩ ⟨-, hst⟩
  cases hn : l.number with
  | none =>
      refine ⟨l.ring0After p' r, .step (.run l) hr ⟨trivial, ?_⟩⟩
      rw [kernelStep, if_pos hn, hst]
      rfl
  | some n =>
      have hpt : p.point = .user := by
        unfold procStep at hst
        split_ifs at hst with hpt
        cases l with
        | dispatch => exact absurd hn (by simp [ProcLabel.number])
        | resumeWait => exact absurd hn (by simp [ProcLabel.number])
        | _ => exact hpt
      have hmem : n < 200 ∧ n ∈ syscallTable := by
        cases l with
        | dispatch => exact absurd hn (by simp [ProcLabel.number])
        | resumeWait => exact absurd hn (by simp [ProcLabel.number])
        | _ =>
            obtain rfl := Option.some.inj hn
            decide
      have henter : kernelStep (.sysCall n) ⟨p, r, none⟩ = some ⟨p, 1, some n⟩ := by
        rw [kernelStep, if_pos ⟨hpt, rfl⟩, if_neg (Nat.not_le.mpr hmem.1), if_pos hmem.2]
      refine ⟨l.ring0After p' 1, .step (.run l) (.step (.sysCall n) hr ⟨trivial, henter⟩) ⟨trivial, ?_⟩⟩
      rw [kernelStep, if_pos hn, hst]
      rfl

/-! ## Slots -/

/-- What a call that creates a process does with the index its search leaves. -/
inductive Creation
  | refuse
  | take (slot : Nat) (t : ProcState)

/-- C `syscall_fork` up to `create_new_process` (`sys/syscall.c:831-845`): a full queue is an
endless loop, the index is not checked. -/
def ProcState.forkCreation (s : ProcState) : Creation :=
  if (s.procEnd + 1) % (procSize + 1) = s.procStart then .refuse
  else .take s.freeSlot (s.createNewProcess s.freeSlot)

/-- C `syscall_exec` up to `create_new_process` (`sys/syscall.c:604-614`). -/
def ProcState.execCreation (s : ProcState) : Creation :=
  .take s.freeSlot (s.createNewProcess s.freeSlot)

/-- The call takes an unused slot of the tables or refuses. -/
def Creation.Inside (s : ProcState) : Creation → Prop
  | .refuse => True
  | .take slot _ => slot < procSize ∧ s.procDescriptor slot = 0

/-- A slot is unused. -/
def ProcState.HasFree (s : ProcState) : Prop := ∃ i < procSize, s.procDescriptor i = 0

theorem freeSlot_inside {s : ProcState} :
    (s.freeSlot < procSize ∧ s.procDescriptor s.freeSlot = 0) ↔ s.HasFree := by
  constructor
  · intro h
    exact ⟨s.freeSlot, h⟩
  · rintro ⟨i, hi, hd⟩
    have hlt : s.freeSlot < procSize := firstSlot_lt hi (beq_iff_eq.mpr hd)
    exact freeSlot_spec hlt.ne

theorem forkCreation_inside {s : ProcState} : s.forkCreation.Inside s ↔
    (s.procEnd + 1) % (procSize + 1) = s.procStart ∨ s.HasFree := by
  unfold ProcState.forkCreation
  by_cases hfull : (s.procEnd + 1) % (procSize + 1) = s.procStart
  · rw [if_pos hfull]
    exact iff_of_true trivial (.inl hfull)
  · rw [if_neg hfull, or_iff_right hfull]
    exact freeSlot_inside

/-- Creation stays inside the tables exactly while a slot is unused (for `fork`: or the queue is
full). -/
theorem creation_inside (s : ProcState) :
    (s.forkCreation.Inside s ↔ (s.procEnd + 1) % (procSize + 1) = s.procStart ∨ s.HasFree) ∧
    (s.execCreation.Inside s ↔ s.HasFree) :=
  ⟨forkCreation_inside, freeSlot_inside⟩

/-! ## Filling the table -/

/-- One process runs, and no other waits for the CPU. -/
structure Alone (s : ProcState) (a : Nat) : Prop where
  inv : ProcInv s
  active : ActiveRun s a
  user : s.point = .user
  queue : s.queue = []

theorem initProc_alone : Alone initProc 0 :=
  ⟨initProc_inv, initProc_active, rfl, by simp [ProcState.queue, initProc]⟩

/-- A child is forked, exits and is never waited for: its slot stays in use. -/
theorem Alone.round {s : ProcState} {a : Nat} (h : Alone s a) (hfree : s.HasFree) :
    ∃ t, runLabels procStep [.fork, .exit 0, .dispatch] s = some t ∧ Alone t a ∧
      t.procDescriptor = Function.update s.procDescriptor s.freeSlot 1 := by
  obtain ⟨hlt, -⟩ := freeSlot_inside.mpr hfree
  have hroom := h.inv.ring.push_ne_start h.active.lt h.active.notMem
  obtain ⟨t₁, h₁⟩ : ∃ t, s.syscallFork = some t := by
    simp only [ProcState.syscallFork, h.active.active, Option.bind_eq_bind, Option.bind_some]
    rw [if_neg hroom, if_neg hlt.ne]
    exact ⟨_, rfl⟩
  have heff := ProcInv.syscallFork_eff h.inv h.active h₁
  obtain ⟨hi₁, ha₁⟩ := h.inv.syscallFork h.active h.user h₁
  have hq₁ : t₁.queue = [a] := by
    rw [heff.queue h.inv.ring h.active, h.queue, List.nil_append]
  have hpt₁ : t₁.point = .user := heff.point.trans h.user
  obtain ⟨t₂, h₂⟩ : ∃ t, t₁.syscallExit 0 = some t := by
    rw [ProcState.syscallExit, ha₁.active]
    exact ⟨_, rfl⟩
  have hi₂ := hi₁.syscallExit ha₁ h₂
  obtain ⟨hd, hq, hst, hen, -⟩ := endProcess_frame t₁ s.freeSlot (toInt32 0)
  have ht₂ := ProcInv.syscallExit_eff ha₁ h₂
  have hq₂ : t₂.queue = [a] := by
    rw [← hq₁, ht₂]
    simp only [ProcState.queue, hq, hst, hen]
  have hd₂ : t₂.procDescriptor = Function.update s.procDescriptor s.freeSlot 1 := by
    rw [← heff.procDescriptor, ← hd, ht₂]
  have hpt₂ : t₂.point = .switch := by rw [ht₂]
  have hnext := hi₂.ring.getNextproc_cons hi₂.table hq₂
  obtain ⟨halt, hdesc, hrun⟩ := hi₂.ring.run a (by simp [hq₂])
  have hpid : (t₁.allPro s.freeSlot).pid ≠ 0 := hi₁.table.pid_pos _ ha₁.lt ha₁.state
  have hws : (t₂.allPro a).waitstate = 0 := by
    obtain ⟨-, -, -, -, hsame, -⟩ :=
      ProcInv.endProcess_state (n := toInt32 0) hi₁.table ha₁.lt hpid heff.ne.symm
    rw [ht₂]
    show ((t₁.endProcess s.freeSlot (toInt32 0)).allPro a).waitstate = 0
    rw [hsame, heff.allPro_parent]
    exact h.active.user h.user
  obtain ⟨t₃, h₃, ht₃⟩ : ∃ t, t₂.dispatch = some t ∧
      t = { t₂.popQ with active := some a, point := .user } := by
    refine ⟨_, ?_, rfl⟩
    simp [ProcState.dispatch, hnext, hrun, hws]
  have hi₃ : ProcInv t₃ := hi₂.dispatch h₃
  have hq₃ : t₃.queue = [] := by
    rw [ht₃]
    exact (hi₂.ring.queue_popQ hq₂).2
  refine ⟨t₃, ?_, ⟨hi₃, ?_, by rw [ht₃], hq₃⟩, by rw [ht₃]; exact hd₂⟩
  · simp only [runLabels_cons, runLabels_nil, procStep, ProcLabel.point, ProcLabel.run, if_pos h.user,
      h₁, Option.bind_some, if_pos hpt₁, h₂, if_pos hpt₂, h₃]
  · obtain ⟨b, hb⟩ := hi₃.active_user (by rw [ht₃])
    have hba : b = a := by
      have hact := hb.active
      rw [ht₃] at hact
      exact (Option.some.inj hact).symm
    exact hba ▸ hb

/-- The unused slots. -/
def ProcState.unused (s : ProcState) : Finset Nat :=
  (Finset.range procSize).filter fun i => s.procDescriptor i = 0

/-- Children that nobody waits for fill the table. -/
theorem Alone.fill {s : ProcState} {a : Nat} (h : Alone s a)
    (hr : ProcReach (fun l _ => l.ordinary) s) :
    ∃ t, ProcReach (fun l _ => l.ordinary) t ∧ Alone t a ∧ ¬ t.HasFree := by
  induction hn : s.unused.card using Nat.strong_induction_on generalizing s with
  | _ n ih =>
      by_cases hfree : s.HasFree
      · obtain ⟨t, hrun, ht, hd⟩ := h.round hfree
        have htr : ProcReach (fun l _ => l.ordinary) t :=
          Reach.of_runLabels hr (by simp [ProcLabel.ordinary]) hrun
        have hless : t.unused ⊂ s.unused := by
          obtain ⟨hlt, h0⟩ := freeSlot_inside.mpr hfree
          refine (Finset.ssubset_iff_of_subset ?_).mpr ⟨s.freeSlot, ?_, ?_⟩
          · intro i hi
            simp only [ProcState.unused, Finset.mem_filter, hd] at hi ⊢
            by_cases he : i = s.freeSlot
            · rw [he, Function.update_self] at hi
              exact absurd hi.2 (by decide)
            · rwa [Function.update_of_ne he] at hi
          · simp only [ProcState.unused, Finset.mem_filter, Finset.mem_range]
            exact ⟨hlt, h0⟩
          · simp only [ProcState.unused, Finset.mem_filter, hd, Function.update_self]
            exact fun h => absurd h.2 (by decide)
        exact ih _ (hn ▸ Finset.card_lt_card hless) ht htr rfl
      · exact ⟨s, hr, h, hfree⟩

/-- The shell has had children that it never waited for: its next `fork` and its next `exec` take
index `PROC_SIZE`. -/
theorem creation_outside : ∃ s, KernelReach (fun _ _ => True) s ∧ s.userMode ∧
    s.proc.queue = [] ∧ s.proc.forkCreation = .take 100 (s.proc.createNewProcess 100) ∧
    ¬ s.proc.forkCreation.Inside s.proc ∧ ¬ s.proc.execCreation.Inside s.proc := by
  obtain ⟨p, hr, hp, hfull⟩ := initProc_alone.fill (.init rfl)
  obtain ⟨r, hk⟩ := hr.kernel
  have hroom := hp.inv.ring.push_ne_start hp.active.lt hp.active.notMem
  have hslot : p.freeSlot = 100 := by
    by_contra hne
    exact hfull (freeSlot_inside.mp (freeSlot_spec hne))
  refine ⟨_, hk, ⟨hp.user, rfl⟩, hp.queue, ?_, ?_, ?_⟩
  · show p.forkCreation = _
    rw [ProcState.forkCreation, if_neg hroom, hslot]
  · rw [forkCreation_inside]
    rintro (h | h)
    · exact hroom h
    · exact hfull h
  · exact fun h => hfull (freeSlot_inside.mp h)

/-! ## A failed exec -/

/-- What a call that fails must not change. -/
structure SameProcesses (s t : ProcState) : Prop where
  procDescriptor : ∀ i < procSize, t.procDescriptor i = s.procDescriptor i
  live : ∀ i, t.Live i ↔ s.Live i
  queue : t.queue = s.queue
  checkLiveChild : ∀ a < procSize, ∀ childId, t.checkLiveChild a childId = s.checkLiveChild a childId

/-- Every failed `exec` keeps the slot it took: the slot is in use, counts as a live process and
as a child the caller waits for. Only the queue is as before. -/
theorem syscallExec_failed {s t : ProcState} (h : s.syscallExecFail = some t) :
    ¬ SameProcesses s t ∧ t.queue = s.queue ∧ ∃ a i, s.active = some a ∧ i < procSize ∧
      s.procDescriptor i = 0 ∧ t.procDescriptor i = 1 ∧ ¬ s.Live i ∧ t.Live i ∧
      t.checkLiveChild a (-1) = true := by
  obtain ⟨a, ha, hs⟩ := Option.bind_eq_some_iff.mp h
  split_ifs at hs with hfree
  obtain rfl := Option.some.inj hs
  obtain ⟨hlt, hd⟩ := freeSlot_spec hfree
  have hd' : (s.execChild a s.freeSlot).procDescriptor s.freeSlot = 1 := by
    simp [ProcState.execChild, ProcState.createNewProcess]
  have hstate : ((s.execChild a s.freeSlot).allPro s.freeSlot).state = running := by
    simp [ProcState.execChild]
  have hppid : ((s.execChild a s.freeSlot).allPro s.freeSlot).ppid =
      ((s.execChild a s.freeSlot).allPro a).pid := by
    by_cases hne : a = s.freeSlot
    · simp [ProcState.execChild, hne]
    · simp [ProcState.execChild, ProcState.modPro_other hne]
  have hlive : (s.execChild a s.freeSlot).Live s.freeSlot := by
    refine ⟨hlt, hd', ?_⟩
    rw [hstate]
    decide
  refine ⟨fun hsame => ?_, rfl, a, s.freeSlot, ha, hlt, hd, hd', fun hl => ?_, hlive, ?_⟩
  · have := hsame.procDescriptor s.freeSlot hlt
    rw [hd', hd] at this
    exact absurd this (by decide)
  · have h1 := hl.2.1
    rw [hd] at h1
    exact absurd h1 (by decide)
  · unfold ProcState.checkLiveChild
    rw [List.any_eq_true]
    exact ⟨s.freeSlot, List.mem_range.mpr hlt, by simp [hd', hppid]⟩

/-- The shell's first `exec` fails. -/
theorem syscallExec_failed_first : ∃ t, initProc.syscallExecFail = some t ∧
    ¬ SameProcesses initProc t :=
  ⟨_, rfl, (syscallExec_failed rfl).1⟩

/-- After that `exec` slot 1 stays taken, and a `wait` of the shell, which has no child, blocks. -/
theorem syscallExec_failed_blocks : ∃ t u, procStep .execFail initProc = some t ∧
    initProc.procDescriptor 1 = 0 ∧ t.procDescriptor 1 = 1 ∧
    initProc.checkLiveChild 0 (-1) = false ∧ t.checkLiveChild 0 (-1) = true ∧
    procStep (.wait (2 ^ 64 - 1)) t = some u ∧ u.point = .switch ∧ u.dispatch.isSome ∧
    ¬ SameProcesses initProc t := by
  refine ⟨_, _, rfl, by decide, by decide, by decide, by decide, rfl, by decide, by decide, ?_⟩
  intro hsame
  have := hsame.procDescriptor 1 (by decide)
  exact absurd this (by decide)

end Sbunix
