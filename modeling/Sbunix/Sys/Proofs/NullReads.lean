import Sbunix.Sys.SwitchReads
import Sbunix.Sys.Proofs.DispatchOrder

/-!
# Reads through `active`

`syscall_switch` is entered without an active process after an exit and after each
`exec` stub it meets, and reads `active->waitstate` all the same.
-/

namespace Sbunix

open ProcState

variable {s t : ProcState} {a x : Nat} {xs : List Nat} {l : ProcLabel}

theorem null_mem_switchReads : none ∈ s.switchReads ↔ s.active = none := by
  unfold switchReads
  cases ha : s.active with
  | none =>
    have hlast : (none : Option Nat) ∈
        if s.activeWaitstate = waitingToLive then [(none : Option Nat), none] else [none] := by
      split <;> exact List.mem_cons_self
    simpa using hlast
  | some a =>
    dsimp only
    split_ifs <;> simp

theorem null_mem_doWaitReads : none ∈ s.doWaitReads a ↔ s.active = none := by
  unfold doWaitReads
  rw [List.mem_append, null_mem_switchReads]
  simp [eq_comm]

namespace ProcInv

theorem dispatch_nullFree_nil (h : ProcInv s) (hq : s.queue = []) : ¬ NullFree .dispatch s := by
  unfold NullFree ProcLabel.reads dispatchReads
  simp [h.ring.getNextproc_nil hq]

/-- `syscall_switch` has no active process after a stub. -/
theorem dispatch_nullFree_cons (h : ProcInv s) (hr : Reapable s) (hq : s.queue = x :: xs) :
    NullFree .dispatch s ↔ (s.allPro x).waitstate ≠ waitingToDie := by
  obtain ⟨hlt, -, hrun⟩ := h.ring.run x (by simp [hq])
  unfold NullFree ProcLabel.reads dispatchReads
  rw [h.ring.getNextproc_cons h.table hq]
  dsimp only
  rw [popQ_allPro, hrun, if_neg (by decide)]
  rcases h.table.waitstate_mem x hlt with hws | hws | hws
  · rw [hws]
    simp [waitingToDie, waitingToLive]
  · rw [hws]
    simp [waitingToDie, waitingToLive]
  · rw [hws, if_neg (by decide), if_pos rfl]
    simp only [ne_eq, not_true_eq_false, iff_false, not_not]
    split_ifs with hdone
    · obtain ⟨u, hu⟩ := hr.killProc h hq hdone.2
      obtain ⟨-, -, -, -, -, -, -, -, -, -, -, hact⟩ := h.retire_eff hq hdone.2 hu
      apply List.mem_append_right
      apply List.mem_append_right
      dsimp only at hu
      rw [popQ_allPro] at hu
      rw [hu]
      exact null_mem_switchReads.mpr hact
    · exact List.mem_append_right _ (List.mem_append_right _ (null_mem_switchReads.mpr rfl))

end ProcInv

/-- The steps that go through no `NULL`: no exit, and a dispatch of a process that is no stub. -/
theorem nullFree_iff (hi : ProcInv s) (hr : Reapable s) (hk : ∀ pid, l ≠ .kill pid)
    (hp : s.point = l.point) :
    NullFree l s ↔ KeepsActive l s ∧ (l = .dispatch → s.queue ≠ []) := by
  cases l with
  | fork =>
    obtain ⟨a, ha⟩ := hi.active_user hp
    simp [NullFree, ProcLabel.reads, KeepsActive, ha.active]
  | yield =>
    obtain ⟨a, ha⟩ := hi.active_user hp
    simp [NullFree, ProcLabel.reads, KeepsActive, null_mem_switchReads, ha.active]
  | exit status =>
    obtain ⟨a, ha⟩ := hi.active_user hp
    simp [NullFree, ProcLabel.reads, KeepsActive, null_mem_switchReads, ha.active]
  | wait pid =>
    obtain ⟨a, ha⟩ := hi.active_user hp
    simp only [NullFree, ProcLabel.reads, KeepsActive, ha.active]
    split_ifs
    · simp [null_mem_doWaitReads, ha.active]
    · simp
  | exec file =>
    obtain ⟨a, ha⟩ := hi.active_user hp
    simp [NullFree, ProcLabel.reads, KeepsActive, ha.active]
  | execFail =>
    obtain ⟨a, ha⟩ := hi.active_user hp
    simp [NullFree, ProcLabel.reads, KeepsActive, ha.active]
  | kill pid => exact absurd rfl (hk pid)
  | dispatch =>
    cases hq : s.queue with
    | nil => simp [hi.dispatch_nullFree_nil hq]
    | cons x xs => simp [hi.dispatch_nullFree_cons hr hq, KeepsActive, hq]
  | resumeWait =>
    obtain ⟨a, ha⟩ := hi.active_waitLoop hp
    simp only [NullFree, ProcLabel.reads, KeepsActive, ha.active]
    split_ifs
    · simp
    · simp [null_mem_doWaitReads, ha.active]

/-- The queue holds the caller when `syscall_switch` has been entered. -/
theorem queue_requeue {p : Pcb → Pcb} (hi : ProcInv s) (ha : ActiveRun s a) :
    ProcState.queue { (s.pushQ a).modPro a p with point := .switch } ≠ [] := by
  show (s.pushQ a).queue ≠ []
  rw [hi.ring.queue_pushQ ha.lt ha.notMem]
  exact List.append_ne_nil_of_right_ne_nil _ (List.cons_ne_nil a [])

/-- While nobody exits and no stub is dispatched, the queue is not empty when
`syscall_switch` looks at it. -/
theorem queue_ne_nil_step (hi : ProcInv s) (hk : ∀ pid, l ≠ .kill pid) (hl : KeepsActive l s)
    (hs : procStep l s = some t) : t.point = .switch → t.queue ≠ [] := by
  intro ht
  unfold procStep at hs
  split_ifs at hs with hpt
  have hnot : s.point = .user → t.point ≠ s.point := by
    intro hu he
    rw [he, hu] at ht
    cases ht
  cases l with
  | fork =>
    obtain ⟨a, ha⟩ := hi.active_user hpt
    exact absurd (hi.syscallFork_eff ha hs).point (hnot hpt)
  | yield =>
    obtain ⟨a, ha⟩ := hi.active_user hpt
    rw [← Option.some.inj hs, hi.syscallSwitch_eff ha hpt]
    exact queue_requeue hi ha
  | exit status => exact hl.elim
  | wait pid =>
    obtain ⟨a, ha⟩ := hi.active_user hpt
    rcases hi.syscallWait_eff ha hs with ⟨-, rfl⟩ | ⟨-, rfl⟩
    · exact absurd rfl (hnot hpt)
    · exact queue_requeue hi ha
  | exec file =>
    obtain ⟨a, ha⟩ := hi.active_user hpt
    exact absurd (hi.syscallExec_eff ha hs).point (hnot hpt)
  | execFail =>
    obtain ⟨a, ha⟩ := hi.active_user hpt
    obtain ⟨-, -, -, -, -, -, -, -, -, -, hpoint⟩ := ProcInv.syscallExecFail_eff ha hs
    exact absurd hpoint (hnot hpt)
  | kill pid => exact absurd rfl (hk pid)
  | dispatch =>
    obtain ⟨x, xs, hq, hcases⟩ := hi.dispatch_cases hs
    have hws := hl x xs hq
    rcases hcases with ⟨rfl, -⟩ | ⟨rfl, -⟩ | ⟨hdie, -⟩ | ⟨-, hdie, -⟩
    · cases ht
    · cases ht
    · exact absurd hdie hws
    · exact absurd hdie hws
  | resumeWait =>
    obtain ⟨a, ha⟩ := hi.active_waitLoop hpt
    rcases hi.resumeWait_cases ha hpt hs with ⟨-, i, -, -, -, -, -, -, -, -, -, -, hpoint⟩ | ⟨-, rfl⟩
    · rw [hpoint] at ht
      cases ht
    · exact queue_requeue hi ha

theorem keepsActive_queue
    (h : ProcReach (fun l s => (∀ pid, l ≠ .kill pid) ∧ KeepsActive l s) s) :
    s.point = .switch → s.queue ≠ [] := by
  apply h.invariant' (P := fun s => s.point = .switch → s.queue ≠ [])
  · intro s hs hp
    rw [hs] at hp
    cases hp
  · intro l s t hreach _ hst
    have hi := (noKill_reapable (ProcReach.mono (fun _ _ hl => hl.1) hreach)).1
    exact queue_ne_nil_step hi hst.1.1 hst.1.2 hst.2

/-- In every run of fork, yield, wait, exit and exec, with the read through `NULL` at the head of
`syscall_switch` taken to give 0, a step goes through no `NULL` exactly when it is no exit and no
dispatch of a stub or from an empty queue. When no step of the run is an exit or dispatches a
stub, the queue is never empty. -/
theorem switch_nullFree (hk : ∀ pid, l ≠ .kill pid) (hp : s.point = l.point) :
    (ProcReach (fun l _ => ∀ pid, l ≠ .kill pid) s →
      (NullFree l s ↔ KeepsActive l s ∧ (l = .dispatch → s.queue ≠ []))) ∧
    (ProcReach (fun l s => (∀ pid, l ≠ .kill pid) ∧ KeepsActive l s) s →
      (NullFree l s ↔ KeepsActive l s)) := by
  have hall : ProcReach (fun l _ => ∀ pid, l ≠ .kill pid) s →
      (NullFree l s ↔ KeepsActive l s ∧ (l = .dispatch → s.queue ≠ [])) := by
    intro h
    obtain ⟨hi, hr⟩ := noKill_reapable h
    exact nullFree_iff hi hr hk hp
  refine ⟨hall, fun h => ?_⟩
  rw [hall (ProcReach.mono (fun _ _ hl => hl.1) h), and_iff_left_iff_imp]
  intro _ hl
  rw [hl] at hp
  exact keepsActive_queue h hp

/-- The shell has forked, and the child yields. -/
def childYields : ProcState := (runLabels procStep [.fork, .yield] initProc).get (by decide)

theorem childYields_reach :
    ProcReach (fun l s => (∀ pid, l ≠ .kill pid) ∧ KeepsActive l s) childYields := by
  refine ProcReach.mono ?_
    (ProcReach.of_run (P := fun l => l = .fork ∨ l = .yield) (by simp) (Option.some_get _).symm)
  rintro l s (rfl | rfl)
  · exact ⟨fun pid => by simp, trivial⟩
  · exact ⟨fun pid => by simp, trivial⟩

/-- The switch to the shell goes through no `NULL`. -/
theorem switch_nullFree_yield :
    (NullFree .dispatch childYields ↔ KeepsActive .dispatch childYields ∧ childYields.queue ≠ []) ∧
    (NullFree .dispatch childYields ↔ KeepsActive .dispatch childYields) ∧
    KeepsActive .dispatch childYields := by
  obtain ⟨hall, hkept⟩ :=
    switch_nullFree (l := .dispatch) (s := childYields) (fun pid => by simp) (by decide)
  have hiff := hkept childYields_reach
  refine ⟨?_, hiff, hiff.mp (by decide)⟩
  simpa using hall (ProcReach.mono (fun _ _ hl => hl.1) childYields_reach)

/-- The shell forks, and the child exits. -/
theorem switch_null_exit :
    ∃ s, ProcReach (fun l _ => l.ordinary) s ∧ s.point = (ProcLabel.exit 0).point ∧
      ¬ NullFree (.exit 0) s := by
  refine ⟨(runLabels procStep [.fork] initProc).get (by decide), ?_, by decide, by decide⟩
  exact ProcReach.of_run (by simp [ProcLabel.ordinary]) (Option.some_get _).symm

end Sbunix
