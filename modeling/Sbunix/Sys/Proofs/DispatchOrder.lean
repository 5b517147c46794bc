import Sbunix.Sys.ExitHistory
import Sbunix.Sys.Proofs.ProcRuns

/-!
# Dispatch ends, in ring order

`syscall_switch` enters itself anew for every `exec` stub at the front of the queue.
The measure is the number of stubs before the first other process: each inner call
retires the front stub or moves it behind all others, and touches no `waitstate`.
-/

namespace Sbunix

variable {s t u : ProcState} {a i j x y : Nat} {xs ys stubs kept rest : List Nat}
  {l : ProcLabel}

/-- A child that has signalled with status 0 still has its slot, so that `kill_proc` finds it. -/
def Reapable (s : ProcState) : Prop :=
  ∀ i < procSize, (s.allPro i).state = running → (s.allPro i).sigchildState = 0 →
    ∃ j < procSize, (s.allPro j).pid = (s.allPro i).signallingChild ∧
      (s.allPro j).ppid = (s.allPro i).pid ∧ s.procDescriptor j = 1

/-- The inner calls of `syscall_switch` for the stubs `ys` at the front of the queue; `kept` are
those that have been queued again. -/
inductive Rotates : ProcState → List Nat → List Nat → ProcState → Prop
  | done {s : ProcState} : Rotates s [] [] s
  | retire {s u t : ProcState} {y : Nat} {ys kept rest : List Nat} :
      s.queue = y :: rest → stubDone (s.allPro y) → procStep .dispatch s = some u →
      (u.allPro y).state = zombie → u.queue = rest → Rotates u ys kept t →
      Rotates s (y :: ys) kept t
  | requeue {s u t : ProcState} {y : Nat} {ys kept rest : List Nat} :
      s.queue = y :: rest → ¬ stubDone (s.allPro y) → procStep .dispatch s = some u →
      u.allPro = s.allPro → u.queue = rest ++ [y] → Rotates u ys kept t →
      Rotates s (y :: ys) (y :: kept) t

namespace ProcInv

/-- What `syscall_switch` does with the front process. -/
theorem dispatch_cons (h : ProcInv s) (hq : s.queue = x :: xs) : s.dispatch =
    if (s.allPro x).waitstate = waitingToDie then
      if stubDone (s.allPro x) then
        ({ s.popQ with active := some x } : ProcState).killProc.map ProcState.syscallSwitch
      else some { s.popQ.pushQ x with active := none, point := .switch }
    else some { s.popQ with
      active := some x
      point := if (s.allPro x).waitstate = waitingToLive then .waitLoop else .user } := by
  obtain ⟨hlt, -, hrun⟩ := h.ring.run x (by simp [hq])
  have hsno := h.table.sno_eq x hlt (h.table.pid_pos x hlt hrun)
  simp only [ProcState.dispatch, h.ring.getNextproc_cons h.table hq, ProcState.popQ_allPro,
    hrun, hsno, stubDone]
  rcases h.table.waitstate_mem x hlt with hws | hws | hws
  · simp [hws, waitingToDie, waitingToLive]
  · simp [hws, waitingToDie, waitingToLive]
  · simp only [hws, one_ne_zero, show waitingToDie ≠ waitingToLive by decide, ↓reduceIte, true_and]
    rfl

/-- Retiring a stub touches no `waitstate`, and the stub runs no more. -/
theorem retire_waitstate (h : ProcInv s) (hq : s.queue = x :: xs)
    (hsig : (s.allPro x).sigchildState = 0)
    (hu : ({ s.popQ with active := some x } : ProcState).killProc = some u) :
    (u.allPro x).state = zombie ∧ u.queue = xs ∧
      ∀ j, (u.allPro j).waitstate = (s.allPro j).waitstate := by
  obtain ⟨hlt, -, hrun⟩ := h.ring.run x (by simp [hq])
  have hpid := h.table.pid_pos x hlt hrun
  obtain ⟨i, hi, hne, hip, hni, hall, -, hpq, hps, hpe, -⟩ := h.retire_eff hq hsig hu
  have hself : (s.endProcess x 0).allPro x = ProcState.exitPcb (s.allPro x) :=
    endProcess_self h.table hlt hpid
  have hws : ∀ j, ((s.endProcess x 0).allPro j).waitstate = (s.allPro j).waitstate := by
    intro j
    by_cases hj : j = x
    · rw [hj, hself]
      rfl
    · exact (endProcess_state h.table hlt hpid hj).2.2.2.2.1
  refine ⟨?_, ?_, fun j => ?_⟩
  · rw [hall, Function.update_of_ne hne.symm, hself]
    rfl
  · rw [← (h.ring.queue_popQ hq).2]
    simp [ProcState.queue, hpq, hps, hpe]
  · rw [hall, ← hws j]
    by_cases hj : j = i
    · rw [hj, Function.update_self]
    · rw [Function.update_of_ne hj]

end ProcInv

namespace Reapable

/-- A step that adds no signal and gives up no signalled slot. -/
theorem congr (h : Reapable s)
    (hsig : ∀ i < procSize, (t.allPro i).state = running → (t.allPro i).sigchildState = 0 →
      (s.allPro i).state = running ∧ (s.allPro i).sigchildState = 0 ∧
        (s.allPro i).signallingChild = (t.allPro i).signallingChild ∧
        (s.allPro i).pid = (t.allPro i).pid)
    (hkeep : ∀ i < procSize, (t.allPro i).state = running → (t.allPro i).sigchildState = 0 →
      ∀ j < procSize, s.procDescriptor j = 1 → (s.allPro j).pid = (s.allPro i).signallingChild →
        (s.allPro j).ppid = (s.allPro i).pid → (t.allPro j).pid = (s.allPro j).pid ∧
          (t.allPro j).ppid = (s.allPro j).ppid ∧ t.procDescriptor j = 1) : Reapable t := by
  intro i hi hrun hz
  obtain ⟨hrun', hz', hsc, hpid⟩ := hsig i hi hrun hz
  obtain ⟨j, hj, hjp, hjpp, hjd⟩ := h i hi hrun' hz'
  obtain ⟨hp, hpp, hd⟩ := hkeep i hi hrun hz j hj hjd hjp hjpp
  exact ⟨j, hj, hp.trans (hjp.trans hsc), hpp.trans (hjpp.trans hpid), hd⟩

theorem spawn {c p : Pcb} (h : Reapable s) (ha : ActiveRun s a) (hs : Spawned s t a c p)
    (hc : c.sigchildState ≠ 0) (hpid : p.pid = (s.allPro a).pid)
    (hppid : p.ppid = (s.allPro a).ppid)
    (hp : p.sigchildState = 0 → (s.allPro a).sigchildState = 0 ∧
      (s.allPro a).signallingChild = p.signallingChild) : Reapable t := by
  apply h.congr
  · intro i hi hrun hz
    by_cases hif : i = s.freeSlot
    · rw [hif, hs.allPro_child] at hz
      exact absurd hz hc
    · by_cases hia : i = a
      · rw [hia, hs.allPro_parent] at hz ⊢
        exact ⟨ha.state, (hp hz).1, (hp hz).2, hpid.symm⟩
      · rw [hs.allPro_other hif hia] at hrun hz ⊢
        exact ⟨hrun, hz, rfl, rfl⟩
  · intro i hi hrun hz j hj hjd hjp hjpp
    have hjf : j ≠ s.freeSlot := by
      intro he
      rw [he, hs.free] at hjd
      cases hjd
    rw [hs.procDescriptor, Function.update_of_ne hjf]
    by_cases hja : j = a
    · rw [hja, hs.allPro_parent]
      exact ⟨hpid, hppid, hja ▸ hjd⟩
    · rw [hs.allPro_other hjf hja]
      exact ⟨rfl, rfl, hjd⟩

/-- The running process goes to the end of the queue. -/
theorem requeue {p : Pcb → Pcb} (h : Reapable s) (ha : ActiveRun s a)
    (hp : (p (s.allPro a)).pid = (s.allPro a).pid ∧ (p (s.allPro a)).ppid = (s.allPro a).ppid ∧
      (p (s.allPro a)).signallingChild = (s.allPro a).signallingChild ∧
      (p (s.allPro a)).sigchildState = (s.allPro a).sigchildState) :
    Reapable { (s.pushQ a).modPro a p with point := .switch } := by
  obtain ⟨hpid, hppid, hsc, hss⟩ := hp
  apply h.congr
  · intro i hi hrun hz
    have hrun : (((s.pushQ a).modPro a p).allPro i).state = running := hrun
    have hz : (((s.pushQ a).modPro a p).allPro i).sigchildState = 0 := hz
    show _ ∧ _ ∧ _ = (((s.pushQ a).modPro a p).allPro i).signallingChild ∧
      _ = (((s.pushQ a).modPro a p).allPro i).pid
    by_cases hia : i = a
    · rw [hia, ProcState.modPro_same] at hz ⊢
      exact ⟨ha.state, hss.symm.trans hz, hsc.symm, hpid.symm⟩
    · rw [ProcState.modPro_other hia] at hrun hz ⊢
      exact ⟨hrun, hz, rfl, rfl⟩
  · intro i hi hrun hz j hj hjd hjp hjpp
    show (((s.pushQ a).modPro a p).allPro j).pid = _ ∧
      (((s.pushQ a).modPro a p).allPro j).ppid = _ ∧ s.procDescriptor j = 1
    by_cases hja : j = a
    · rw [hja, ProcState.modPro_same]
      exact ⟨hpid, hppid, hja ▸ hjd⟩
    · rw [ProcState.modPro_other hja]
      exact ⟨rfl, rfl, hjd⟩

/-- Of the running processes only the parent of `a` is told that `a` has ended; `a` keeps its
slot. -/
theorem endProcess {status : Int} (h : Reapable s) (htab : PcbInv s.allPro s.globalPid)
    (ha : a < procSize) (hd : s.procDescriptor a = 1) (hrun : (s.allPro a).state = running) :
    Reapable (s.endProcess a status) := by
  have hpid := htab.pid_pos a ha hrun
  have hself : (s.endProcess a status).allPro a = ProcState.exitPcb (s.allPro a) :=
    ProcInv.endProcess_self htab ha hpid
  obtain ⟨hdesc, -⟩ := endProcess_frame s a status
  intro i hi hir hz
  have hia : i ≠ a := by
    intro he
    rw [he, hself] at hir
    exact absurd hir (by decide : zombie ≠ running)
  obtain ⟨hst, hip, -, -⟩ := ProcInv.endProcess_state (n := status) htab ha hpid hia
  rw [hst] at hir
  have hpos := htab.pid_pos i hi hir
  by_cases hpar : (s.allPro i).pid = (s.allPro a).ppid
  · refine ⟨a, ha, ?_, ?_, (congrFun hdesc a).trans hd⟩
    · rw [hself, ((ProcInv.endProcess_told htab ha hpid hi hia hpos).1 hpar).2]
      rfl
    · rw [hself, hip]
      exact hpar.symm
  · have hsame : (s.endProcess a status).allPro i = s.allPro i :=
      (ProcInv.endProcess_told htab ha hpid hi hia hpos).2 hpar
    rw [hsame] at hz ⊢
    obtain ⟨j, hj, hjp, hjpp, hjd⟩ := h i hi hir hz
    refine ⟨j, hj, ?_, ?_, (congrFun hdesc j).trans hjd⟩
    all_goals
      by_cases hja : j = a
      · rw [hja, hself]
        rw [hja] at hjp hjpp
        assumption
      · obtain ⟨-, hp, -, hpp, -⟩ := ProcInv.endProcess_state (n := status) htab ha hpid hja
        first
          | exact hp.trans hjp
          | exact hpp.trans hjpp

/-- Whoever has the pid that `i` was told of is a child of `i`. -/
theorem child (h : Reapable s) (htab : PcbInv s.allPro s.globalPid) (hi : i < procSize)
    (hrun : (s.allPro i).state = running) (hz : (s.allPro i).sigchildState = 0)
    (hj : j < procSize) (hp : (s.allPro j).pid = (s.allPro i).signallingChild) :
    (s.allPro j).ppid = (s.allPro i).pid := by
  have hnz := htab.signal_ne i hi hrun hz
  obtain ⟨k, hk, hkp, hkpp, -⟩ := h i hi hrun hz
  rw [htab.pid_inj j hj k hk (hp.trans hkp.symm) (hp ▸ hnz)]
  exact hkpp

/-- Retiring the front stub gives up the slot of its program, which no other process was told
of. -/
theorem retire (h : Reapable s) (hi : ProcInv s) (hq : s.queue = x :: xs)
    (hsig : (s.allPro x).sigchildState = 0)
    (hu : ({ s.popQ with active := some x } : ProcState).killProc = some u) : Reapable u := by
  obtain ⟨hlt, hdx, hrun⟩ := hi.ring.run x (by simp [hq])
  have hpid := hi.table.pid_pos x hlt hrun
  obtain ⟨k, hk, hne, hkp, -, hall, hdesc, -⟩ := hi.retire_eff hq hsig hu
  have hkpp := h.child hi.table hlt hrun hsig hk hkp
  have hother : ∀ j, j ≠ k → u.allPro j = (s.endProcess x 0).allPro j := by
    intro j hj
    rw [hall, Function.update_of_ne hj]
  have hdead : (u.allPro k).state = dead := by rw [hall, Function.update_self]
  have hrunk : ∀ q, (u.allPro q).state = running → q ≠ k := by
    intro q hqr he
    rw [he, hdead] at hqr
    cases hqr
  have hended : Reapable (s.endProcess x 0) := h.endProcess hi.table hlt hdx hrun
  apply hended.congr
  · intro q hq hqr hz
    have hsame := hother q (hrunk q hqr)
    rw [hsame] at hqr hz ⊢
    exact ⟨hqr, hz, rfl, rfl⟩
  · intro q hql hqr hz j hj hjd hjp hjpp
    have hqx : q ≠ x := by
      intro he
      rw [hother q (hrunk q hqr), he, ProcInv.endProcess_self hi.table hlt hpid] at hqr
      cases hqr
    have hjk : j ≠ k := by
      intro he
      obtain ⟨-, hpq, -⟩ := ProcInv.endProcess_state (n := 0) hi.table hlt hpid hqx
      obtain ⟨-, -, -, hppk, -⟩ := ProcInv.endProcess_state (n := 0) hi.table hlt hpid hne
      rw [he, hppk, hpq, hkpp] at hjpp
      exact hqx (hi.table.pid_inj x hlt q hql hjpp hpid).symm
    obtain ⟨hfd, -⟩ := endProcess_frame s x 0
    rw [hother j hjk, hdesc, Function.update_of_ne hjk, ← hfd]
    exact ⟨rfl, rfl, hjd⟩

theorem dispatch (h : Reapable s) (hi : ProcInv s) (hd : s.dispatch = some t) : Reapable t := by
  obtain ⟨x, xs, hq, hcases⟩ := hi.dispatch_cases hd
  rcases hcases with ⟨rfl, -⟩ | ⟨rfl, -⟩ | ⟨-, -, hsig, u, hu, rfl⟩ | ⟨rfl, -⟩
  · exact h
  · exact h
  · have hretired : Reapable u := h.retire hi hq hsig hu
    exact hretired
  · exact h

theorem resumeWait (h : Reapable s) (hi : ProcInv s) (ha : ActiveRun s a)
    (hw : s.point = .waitLoop) (hr : s.resumeWait = some t) : Reapable t := by
  rcases hi.resumeWait_cases ha hw hr with
    ⟨hdone, k, hk, hkp, hne, hall, hdesc, -⟩ | ⟨-, rfl⟩
  · have hnz := hi.table.signal_ne a ha.lt ha.state hdone.1
    have hsno := hi.table.sno_eq k hk (hkp ▸ hnz)
    have hkpp := h.child hi.table ha.lt ha.state hdone.1 hk hkp
    have hself : t.allPro a = { s.allPro a with waitstate := 0, sigchildState := dead } := by
      rw [hall, Function.update_self]
    have hother : ∀ j, j ≠ k → j ≠ a → t.allPro j = s.allPro j := by
      intro j hjk hja
      rw [hall, Function.update_of_ne hja, Function.update_of_ne hjk]
    have hwiped : (t.allPro k).state ≠ running := by
      rw [hall, Function.update_of_ne hne, Function.update_self]
      decide
    have hneither : ∀ q, (t.allPro q).state = running → (t.allPro q).sigchildState = 0 →
        q ≠ k ∧ q ≠ a := by
      intro q hqr hz
      refine ⟨fun he => hwiped (he ▸ hqr), fun he => ?_⟩
      rw [he, hself] at hz
      exact absurd (show (dead : Int) = 0 from hz) (by decide)
    apply h.congr
    · intro q hq hqr hz
      obtain ⟨hqk, hqa⟩ := hneither q hqr hz
      rw [hother q hqk hqa] at hqr hz ⊢
      exact ⟨hqr, hz, rfl, rfl⟩
    · intro q hq hqr hz j hj hjd hjp hjpp
      obtain ⟨hqk, hqa⟩ := hneither q hqr hz
      have hjk : j ≠ k := by
        intro he
        rw [he, hkpp] at hjpp
        have hpid := hi.table.pid_pos a ha.lt ha.state
        exact hqa (hi.table.pid_inj a ha.lt q hq hjpp hpid).symm
      rw [hdesc, hsno, Function.update_of_ne hjk]
      by_cases hja : j = a
      · rw [hja, hself]
        exact ⟨rfl, rfl, hja ▸ hjd⟩
      · rw [hother j hjk hja]
        exact ⟨rfl, rfl, hjd⟩
  · exact h.requeue ha ⟨rfl, rfl, rfl, rfl⟩

/-- A failed `exec` takes a free slot, which signals nobody. -/
theorem syscallExecFail (h : Reapable s) (ha : ActiveRun s a)
    (hs : s.syscallExecFail = some t) : Reapable t := by
  obtain ⟨-, hfree, hne, hall, hdesc, -⟩ := ProcInv.syscallExecFail_eff ha hs
  have hother : ∀ j, j ≠ s.freeSlot → t.allPro j = s.allPro j := by
    intro j hj
    rw [hall, Function.update_of_ne hj]
  apply h.congr
  · intro i hi hrun hz
    by_cases hif : i = s.freeSlot
    · rw [hif, hall, Function.update_self] at hz
      exact absurd (show (dead : Int) = 0 from hz) (by decide)
    · rw [hother i hif] at hrun hz ⊢
      exact ⟨hrun, hz, rfl, rfl⟩
  · intro i hi hrun hz j hj hjd hjp hjpp
    have hjf : j ≠ s.freeSlot := by
      intro he
      rw [he, hfree] at hjd
      cases hjd
    rw [hother j hjf, hdesc, Function.update_of_ne hjf]
    exact ⟨rfl, rfl, hjd⟩

theorem step (h : Reapable s) (hi : ProcInv s) (hk : ∀ pid, l ≠ .kill pid)
    (hs : procStep l s = some t) : Reapable t := by
  unfold procStep at hs
  split_ifs at hs with hpt
  cases l with
  | fork =>
    obtain ⟨a, ha⟩ := hi.active_user hpt
    exact h.spawn ha (hi.syscallFork_eff ha hs) (show (dead : Int) ≠ 0 by decide) rfl rfl
      fun h0 => absurd h0 one_ne_zero
  | yield =>
    obtain ⟨a, ha⟩ := hi.active_user hpt
    rw [← Option.some.inj hs, hi.syscallSwitch_eff ha hpt]
    exact h.requeue ha ⟨rfl, rfl, rfl, rfl⟩
  | exit status =>
    obtain ⟨a, ha⟩ := hi.active_user hpt
    rw [ProcInv.syscallExit_eff ha hs]
    exact h.endProcess hi.table ha.lt ha.descriptor ha.state
  | wait pid =>
    obtain ⟨a, ha⟩ := hi.active_user hpt
    rcases hi.syscallWait_eff ha hs with ⟨-, rfl⟩ | ⟨-, rfl⟩
    · exact h
    · exact h.requeue ha ⟨rfl, rfl, rfl, rfl⟩
  | exec file =>
    obtain ⟨a, ha⟩ := hi.active_user hpt
    exact h.spawn ha (hi.syscallExec_eff ha hs) (show (dead : Int) ≠ 0 by decide) rfl rfl
      fun h0 => ⟨h0, rfl⟩
  | execFail =>
    obtain ⟨a, ha⟩ := hi.active_user hpt
    exact h.syscallExecFail ha hs
  | kill pid => exact absurd rfl (hk pid)
  | dispatch => exact h.dispatch hi hs
  | resumeWait =>
    obtain ⟨a, ha⟩ := hi.active_waitLoop hpt
    exact h.resumeWait hi ha hpt hs

end Reapable

theorem initProc_reapable : Reapable initProc := by
  intro i hi hrun hz
  by_cases h0 : i = 0
  · rw [h0] at hz
    exact absurd hz (by decide)
  · simp [initProc, Function.update_of_ne h0, Pcb.zero] at hrun

theorem noKill_reapable (h : ProcReach (fun l _ => ∀ pid, l ≠ .kill pid) s) :
    ProcInv s ∧ Reapable s := by
  apply h.invariant (P := fun s => ProcInv s ∧ Reapable s)
  · intro s hs
    rw [hs]
    exact ⟨initProc_inv, initProc_reapable⟩
  · intro l s t hs hst
    exact ⟨hs.1.step hst.1 hst.2, hs.2.step hs.1 hst.1 hst.2⟩

theorem ordinary_noKill (h : l.ordinary) (pid : Nat) : l ≠ .kill pid := by
  intro he
  rw [he] at h
  exact h

/-! ## The inner calls -/

/-- `kill_proc` finds the program of a stub that is done. -/
theorem Reapable.killProc (h : Reapable s) (hi : ProcInv s) (hq : s.queue = x :: xs)
    (hsig : (s.allPro x).sigchildState = 0) :
    ∃ u, ({ s.popQ with active := some x } : ProcState).killProc = some u := by
  obtain ⟨hlt, -, hrun⟩ := hi.ring.run x (by simp [hq])
  have hpid := hi.table.pid_pos x hlt hrun
  have hself : (s.endProcess x 0).allPro x = ProcState.exitPcb (s.allPro x) :=
    ProcInv.endProcess_self hi.table hlt hpid
  have hpro : (ProcState.endProcess { s.popQ with active := some x } x 0).allPro =
      (s.endProcess x 0).allPro := endProcess_congr rfl
  have hchild : (((ProcState.endProcess { s.popQ with active := some x } x 0).allPro x).signallingChild)
      = (s.allPro x).signallingChild := by
    rw [hpro, hself]
    rfl
  obtain ⟨j, hj, hjp, -⟩ := h x hlt hrun hsig
  have hfound : (ProcState.endProcess { s.popQ with active := some x } x 0).slotOfPid
      (s.allPro x).signallingChild < procSize := by
    apply firstSlot_lt hj
    rw [beq_iff_eq, ← hjp, hpro]
    by_cases hjx : j = x
    · rw [hjx, hself]
      rfl
    · exact (ProcInv.endProcess_state hi.table hlt hpid hjx).2.1
  unfold ProcState.killProc
  simp only [Option.bind_eq_bind, Option.bind_some]
  rw [hchild, if_neg (Nat.ne_of_lt hfound)]
  exact ⟨_, rfl⟩

/-- A stub in front is retired when it is done and queued again otherwise. -/
theorem dispatch_stub (hi : ProcInv s) (hr : Reapable s) (hp : s.point = .switch)
    (hq : s.queue = y :: rest) (hws : (s.allPro y).waitstate = waitingToDie) :
    ∃ u, procStep .dispatch s = some u ∧ u.point = .switch ∧
      (∀ j, (u.allPro j).waitstate = (s.allPro j).waitstate) ∧
      (stubDone (s.allPro y) ∧ (u.allPro y).state = zombie ∧ u.queue = rest ∨
        ¬ stubDone (s.allPro y) ∧ u.allPro = s.allPro ∧ u.queue = rest ++ [y]) := by
  have hstep : procStep .dispatch s = s.dispatch := if_pos hp
  rw [hstep, hi.dispatch_cons hq, if_pos hws]
  by_cases hdone : stubDone (s.allPro y)
  · obtain ⟨u, hu⟩ := hr.killProc hi hq hdone.2.2
    obtain ⟨hzombie, hqueue, hsame⟩ := hi.retire_waitstate hq hdone.2.2 hu
    obtain ⟨-, -, -, -, -, -, -, -, -, -, -, hact⟩ := hi.retire_eff hq hdone.2.2 hu
    have hswitch : u.syscallSwitch = { u with point := .switch } := by
      unfold ProcState.syscallSwitch
      rw [hact]
    rw [if_pos hdone, hu, Option.map_some, hswitch]
    exact ⟨_, rfl, rfl, hsame, Or.inl ⟨hdone, hzombie, hqueue⟩⟩
  · rw [if_neg hdone]
    refine ⟨_, rfl, rfl, fun _ => rfl, Or.inr ⟨hdone, rfl, ?_⟩⟩
    have hpop := hi.ring.queue_popQ hq
    obtain ⟨hlt, -⟩ := hi.ring.run y (by simp [hq])
    have hnd := hi.ring.nodup
    rw [hq, List.nodup_cons] at hnd
    show (s.popQ.pushQ y).queue = _
    rw [(hi.ring.pop hq).queue_pushQ hlt (hpop.2 ▸ hnd.1), hpop.2]

/-- The inner calls for the stubs in front of `x`. -/
theorem exists_rotates (hi : ProcInv s) (hr : Reapable s) (hp : s.point = .switch)
    (hq : s.queue = stubs ++ x :: rest)
    (hws : ∀ y ∈ stubs, (s.allPro y).waitstate = waitingToDie) :
    ∃ kept u, Rotates s stubs kept u ∧ kept.Sublist stubs ∧ u.queue = x :: (rest ++ kept) ∧
      ProcInv u ∧ u.point = .switch ∧ ∀ j, (u.allPro j).waitstate = (s.allPro j).waitstate := by
  induction stubs generalizing s rest with
  | nil =>
    rw [List.nil_append] at hq
    refine ⟨[], s, .done, List.Sublist.refl _, ?_, hi, hp, fun _ => rfl⟩
    rw [hq, List.append_nil]
  | cons y ys ih =>
    obtain ⟨u, hu, hpu, hsame, hcases⟩ := dispatch_stub hi hr hp hq (hws y List.mem_cons_self)
    have hd : s.dispatch = some u := by
      rw [← hu]
      exact (if_pos hp).symm
    have hiu := hi.dispatch hd
    have hru := hr.dispatch hi hd
    have hwsu : ∀ z ∈ ys, (u.allPro z).waitstate = waitingToDie := by
      intro z hz
      rw [hsame z]
      exact hws z (List.mem_cons_of_mem y hz)
    rcases hcases with ⟨hdone, hzombie, hqu⟩ | ⟨hdone, hpro, hqu⟩
    · obtain ⟨kept, t, hrot, hsub, hqt, hit, hpt, hst⟩ := ih hiu hru hpu hqu hwsu
      exact ⟨kept, t, .retire hq hdone hu hzombie hqu hrot, hsub.cons y, hqt, hit, hpt,
        fun j => (hst j).trans (hsame j)⟩
    · have hqu' : u.queue = ys ++ x :: (rest ++ [y]) := by rw [hqu]; simp
      obtain ⟨kept, t, hrot, hsub, hqt, hit, hpt, hst⟩ := ih hiu hru hpu hqu' hwsu
      refine ⟨y :: kept, t, .requeue hq hdone hu hpro hqu hrot, hsub.cons_cons y, ?_, hit, hpt,
        fun j => (hst j).trans (hsame j)⟩
      rw [hqt, List.append_assoc, List.singleton_append]

/-- The first process of the queue that is no stub, and the stubs before it. -/
theorem exists_first (hx : ∃ x ∈ s.queue, (s.allPro x).waitstate ≠ waitingToDie) :
    ∃ stubs x rest, s.queue = stubs ++ x :: rest ∧
      (∀ y ∈ stubs, (s.allPro y).waitstate = waitingToDie) ∧
      (s.allPro x).waitstate ≠ waitingToDie := by
  obtain ⟨z, hz, hzw⟩ := hx
  have hsome : (s.queue.find? fun y => decide ((s.allPro y).waitstate ≠ waitingToDie)).isSome := by
    rw [List.find?_isSome]
    exact ⟨z, hz, decide_eq_true hzw⟩
  obtain ⟨x, hfind⟩ := Option.isSome_iff_exists.mp hsome
  obtain ⟨hxw, stubs, rest, hq, hws⟩ := List.find?_eq_some_iff_append.mp hfind
  refine ⟨stubs, x, rest, hq, fun y hy => ?_, of_decide_eq_true hxw⟩
  simpa using hws y hy

/-- In every run of fork, yield, exit, wait and exec: when a process that is no stub is queued,
`syscall_switch` dispatches the first one in ring order, after one inner call for each stub
before it, and those that have not been retired follow behind all others in their order. -/
theorem dispatch_fair (h : ProcReach (fun l _ => l.ordinary) s) (hp : s.point = .switch)
    (hx : ∃ x ∈ s.queue, (s.allPro x).waitstate ≠ waitingToDie) :
    ∃ stubs x rest kept u t, s.queue = stubs ++ x :: rest ∧
      (∀ y ∈ stubs, (s.allPro y).waitstate = waitingToDie) ∧
      (s.allPro x).waitstate ≠ waitingToDie ∧ stubs.length ≤ s.queue.length ∧
      Rotates s stubs kept u ∧ kept.Sublist stubs ∧ procStep .dispatch u = some t ∧
      t.active = some x ∧ t.point ≠ .switch ∧ t.allPro = u.allPro ∧ t.queue = rest ++ kept := by
  obtain ⟨hi, hr⟩ := noKill_reapable (h.mono fun _ _ hl => ordinary_noKill hl)
  obtain ⟨stubs, x, rest, hq, hws, hxw⟩ := exists_first hx
  obtain ⟨kept, u, hrot, hsub, hqu, hiu, hpu, hsame⟩ := exists_rotates hi hr hp hq hws
  have hstep : procStep .dispatch u = u.dispatch := if_pos hpu
  rw [hiu.dispatch_cons hqu, if_neg (hsame x ▸ hxw)] at hstep
  refine ⟨stubs, x, rest, kept, u, _, hq, hws, hxw, ?_, hrot, hsub, hstep, rfl, ?_, rfl,
    (hiu.ring.queue_popQ hqu).2⟩
  · rw [hq, List.length_append]
    exact Nat.le_add_right _ _
  · dsimp only
    split <;> decide

/-- The shell has forked and started a program, which has exited: it is a stub in front. -/
def stubInFront : ProcState :=
  (runLabels procStep [.fork, .yield, .dispatch, .exec ['l', 's'], .exit 0, .dispatch, .yield]
    initProc).get (by decide)

theorem dispatch_fair_stubInFront :
    ∃ stubs x rest kept u t, stubInFront.queue = stubs ++ x :: rest ∧
      (∀ y ∈ stubs, (stubInFront.allPro y).waitstate = waitingToDie) ∧
      (stubInFront.allPro x).waitstate ≠ waitingToDie ∧
      stubs.length ≤ stubInFront.queue.length ∧
      Rotates stubInFront stubs kept u ∧ kept.Sublist stubs ∧ procStep .dispatch u = some t ∧
      t.active = some x ∧ t.point ≠ .switch ∧ t.allPro = u.allPro ∧ t.queue = rest ++ kept :=
  dispatch_fair (ProcReach.of_run (by simp [ProcLabel.ordinary]) (Option.some_get _).symm)
    (by decide) ⟨1, by decide, by decide⟩

end Sbunix
