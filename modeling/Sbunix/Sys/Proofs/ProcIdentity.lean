import Sbunix.Sys.ProcRun

/-!
# Process identities

Pids are unique, and a slot that holds a process knows its own number.  This much
survives every call, whatever `kill` does to the schedule queue.
-/

namespace Sbunix

/-- Identities in a process table with descriptors `desc` and `global_pid` `g`. -/
structure IdInv (pro : Nat → Pcb) (desc : Nat → Nat) (g : Nat) : Prop where
  pos : 0 < g
  sno_eq : ∀ i < procSize, (pro i).pid ≠ 0 → (pro i).sno = i
  pid_lt : ∀ i < procSize, (pro i).pid < g
  pid_inj : ∀ i < procSize, ∀ j < procSize, (pro i).pid = (pro j).pid → (pro i).pid ≠ 0 → i = j
  live : ∀ i < procSize, desc i = 1 → (pro i).pid ≠ 0

/-- The identity invariant of a state. -/
def ProcState.Ids (s : ProcState) : Prop := IdInv s.allPro s.procDescriptor s.globalPid

namespace ProcState.Ids

variable {s t : ProcState} {i x : Nat}

theorem modPro {f : Pcb → Pcb} (h : s.Ids) (hsno : ∀ p, (f p).sno = p.sno)
    (hpid : ∀ p, (f p).pid = p.pid) : (s.modPro i f).Ids := by
  have hid : ∀ j, ((s.modPro i f).allPro j).sno = (s.allPro j).sno ∧
      ((s.modPro i f).allPro j).pid = (s.allPro j).pid := by
    intro j
    by_cases hj : j = i
    · subst hj
      rw [modPro_same]
      exact ⟨hsno _, hpid _⟩
    · rw [modPro_other hj]
      exact ⟨rfl, rfl⟩
  refine ⟨h.pos, ?_, ?_, ?_, ?_⟩
  · intro j hj hp
    rw [(hid j).1]
    exact h.sno_eq j hj (by rwa [(hid j).2] at hp)
  · intro j hj
    rw [(hid j).2]
    exact h.pid_lt j hj
  · intro j hj k hk heq hne
    rw [(hid j).2] at heq hne
    rw [(hid k).2] at heq
    exact h.pid_inj j hj k hk heq hne
  · intro j hj hd
    rw [(hid j).2]
    exact h.live j hj hd

theorem setDescriptor_zero (h : s.Ids) : (s.setDescriptor i 0).Ids := by
  refine ⟨h.pos, h.sno_eq, h.pid_lt, h.pid_inj, ?_⟩
  intro j hj hd
  by_cases hji : j = i
  · subst hji
    simp at hd
  · rw [setDescriptor_procDescriptor, Function.update_of_ne hji] at hd
    exact h.live j hj hd

theorem createNewProcess (h : s.Ids) : (s.createNewProcess i).Ids := by
  have hother : ∀ j, j ≠ i → (s.createNewProcess i).allPro j = s.allPro j := by
    intro j hj
    simp [ProcState.createNewProcess, ProcState.modPro, Function.update_of_ne hj]
  have hself : ((s.createNewProcess i).allPro i).sno = i ∧
      ((s.createNewProcess i).allPro i).pid = s.globalPid := by
    simp [ProcState.createNewProcess, ProcState.modPro]
  refine ⟨Nat.succ_pos _, ?_, ?_, ?_, ?_⟩
  · intro j hj hp
    by_cases hji : j = i
    · rw [hji]; exact hself.1
    · rw [hother j hji] at hp ⊢
      exact h.sno_eq j hj hp
  · intro j hj
    show _ < s.globalPid + 1
    by_cases hji : j = i
    · rw [hji, hself.2]; omega
    · rw [hother j hji]
      have := h.pid_lt j hj
      omega
  · intro j hj k hk heq hne
    by_cases hji : j = i <;> by_cases hki : k = i
    · exact hji.trans hki.symm
    · rw [hji, hself.2, hother k hki] at heq
      have := h.pid_lt k hk
      omega
    · rw [hki, hself.2, hother j hji] at heq
      have := h.pid_lt j hj
      omega
    · rw [hother j hji] at heq hne
      rw [hother k hki] at heq
      exact h.pid_inj j hj k hk heq hne
  · intro j hj hd
    by_cases hji : j = i
    · rw [hji, hself.2]
      exact Nat.pos_iff_ne_zero.mp h.pos
    · rw [hother j hji]
      refine h.live j hj ?_
      rwa [show (s.createNewProcess i).procDescriptor j = s.procDescriptor j from
        Function.update_of_ne hji _ _] at hd

/-- Giving up a slot and wiping its PCB: the descriptor that is cleared is the slot's own. -/
theorem reap_wipe (h : s.Ids) : ((s.reap i).modPro i fun _ => Pcb.zero).Ids := by
  have hother : ∀ j, j ≠ i →
      ((s.reap i).modPro i fun _ => Pcb.zero).allPro j = s.allPro j := by
    intro j hj
    simp [reap, ProcState.modPro, Function.update_of_ne hj]
  have hself : ((s.reap i).modPro i fun _ => Pcb.zero).allPro i = Pcb.zero := modPro_same _ _ _
  refine ⟨h.pos, ?_, ?_, ?_, ?_⟩
  · intro j hj hp
    by_cases hji : j = i
    · rw [hji, hself] at hp
      exact absurd rfl hp
    · rw [hother j hji] at hp ⊢
      exact h.sno_eq j hj hp
  · intro j hj
    by_cases hji : j = i
    · rw [hji, hself]; exact h.pos
    · rw [hother j hji]
      exact h.pid_lt j hj
  · intro j hj k hk heq hne
    by_cases hji : j = i
    · rw [hji, hself] at hne
      exact absurd rfl hne
    · by_cases hki : k = i
      · rw [hki, hself] at heq
        exact absurd heq hne
      · rw [hother j hji] at heq hne
        rw [hother k hki] at heq
        exact h.pid_inj j hj k hk heq hne
  · intro j hj hd
    have hle : s.procDescriptor j = 1 ∧ j ≠ (s.allPro i).sno := by
      have hd' : Function.update s.procDescriptor (s.allPro i).sno 0 j = 1 := hd
      by_cases hjs : j = (s.allPro i).sno
      · rw [hjs, Function.update_self] at hd'
        exact absurd hd' (by decide)
      · rw [Function.update_of_ne hjs] at hd'
        exact ⟨hd', hjs⟩
    have hp := h.live j hj hle.1
    have hji : j ≠ i := by
      rintro rfl
      exact hle.2 (h.sno_eq j hj hp).symm
    rw [hother j hji]
    exact hp

theorem signalParent {status : Int} (h : s.Ids) : (s.signalParent i status).Ids := by
  unfold ProcState.signalParent
  split_ifs
  · exact h.modPro (fun _ => rfl) (fun _ => rfl)
  · exact h

theorem endProcess {n : Int} (h : s.Ids) : (s.endProcess i n).Ids := by
  apply signalParent
  exact h.modPro (fun _ => rfl) (fun _ => rfl)

theorem reap (h : s.Ids) : (s.reap i).Ids := by
  apply setDescriptor_zero
  exact h.modPro (fun _ => rfl) (fun _ => rfl)

theorem syscallSwitch (h : s.Ids) : s.syscallSwitch.Ids := by
  unfold ProcState.syscallSwitch
  cases s.active with
  | none => exact h
  | some a =>
      dsimp only
      split_ifs
      · exact Ids.modPro (s := s.pushQ (s.allPro a).sno) (i := a)
          (f := fun p => { p with state := running }) h (fun _ => rfl) (fun _ => rfl)
      · exact h

theorem doWait (h : s.Ids) : (s.doWait i).Ids := by
  apply syscallSwitch
  exact Ids.modPro (s := s.pushQ (s.allPro i).sno) h (fun _ => rfl) (fun _ => rfl)

theorem killProc (h : s.Ids) (hk : s.killProc = some t) : t.Ids := by
  unfold ProcState.killProc at hk
  cases ha : s.active with
  | none => simp [ha] at hk
  | some a =>
      simp only [ha, Option.bind_eq_bind, Option.bind_some] at hk
      split_ifs at hk
      rw [← Option.some.inj hk]
      exact (h.endProcess (i := a) (n := 0)).reap

theorem getNextprocFrom {fuel : Nat} {r : Option Nat} (h : s.Ids)
    (hg : s.getNextprocFrom fuel = some (r, t)) : t.Ids := by
  induction fuel generalizing s with
  | zero => simp [ProcState.getNextprocFrom] at hg
  | succ fuel ih =>
      unfold ProcState.getNextprocFrom at hg
      split_ifs at hg with hemp
      · simp only [Option.some.injEq, Prod.mk.injEq] at hg
        exact hg.2 ▸ h
      · dsimp only at hg
        split_ifs at hg with htab hrun
        · simp only [Option.some.injEq, Prod.mk.injEq] at hg
          exact hg.2 ▸ h
        · exact ih (s := s.popQ) h hg

theorem dispatch (h : s.Ids) (hd : s.dispatch = some t) : t.Ids := by
  unfold ProcState.dispatch at hd
  split at hd
  · simp at hd
  · simp at hd
  · next x s₁ hg =>
    have h₁ : s₁.Ids := h.getNextprocFrom hg
    dsimp only at hd
    split_ifs at hd
    · exact Option.some.inj hd ▸ h₁
    · exact Option.some.inj hd ▸ h₁
    · rw [Option.map_eq_some_iff] at hd
      obtain ⟨u, hu, rfl⟩ := hd
      exact (Ids.killProc (s := { s₁ with active := some x }) h₁ hu).syscallSwitch
    · rw [← Option.some.inj hd]
      exact Ids.syscallSwitch (s := { s₁.pushQ (s₁.allPro x).sno with active := none }) h₁
    · exact Option.some.inj hd ▸ h₁

theorem syscallFork (h : s.Ids) (hf : s.syscallFork = some t) : t.Ids := by
  unfold ProcState.syscallFork at hf
  cases ha : s.active with
  | none => simp [ha] at hf
  | some a =>
      simp only [ha, Option.bind_eq_bind, Option.bind_some] at hf
      split_ifs at hf
      rw [← Option.some.inj hf]
      have h₂ : ((s.createNewProcess s.freeSlot).modPro s.freeSlot fun p =>
          { p with
            state := running, ppid := ((s.createNewProcess s.freeSlot).allPro a).pid,
            currentDir := some (cString ((s.createNewProcess s.freeSlot).allPro a).currentDir),
            name := some (cString ((s.createNewProcess s.freeSlot).allPro a).name),
            fd := ((s.createNewProcess s.freeSlot).allPro a).fd }).Ids :=
        h.createNewProcess.modPro (fun _ => rfl) (fun _ => rfl)
      exact h₂.modPro (i := a) (f := fun p => { p with sigchildState := _, state := running })
        (fun _ => rfl) (fun _ => rfl)

theorem execChild {a : Nat} (h : s.Ids) : (s.execChild a i).Ids :=
  h.createNewProcess.modPro (f := fun p =>
    { p with state := running, ppid := ((s.createNewProcess i).allPro a).pid,
             currentDir := some (cString ((s.createNewProcess i).allPro a).currentDir) })
    (fun _ => rfl) (fun _ => rfl)

theorem syscallExec {file : List Char} (h : s.Ids) (hf : s.syscallExec file = some t) :
    t.Ids := by
  unfold ProcState.syscallExec at hf
  cases ha : s.active with
  | none => simp [ha] at hf
  | some a =>
      simp only [ha, Option.bind_eq_bind, Option.bind_some] at hf
      split_ifs at hf
      rw [← Option.some.inj hf]
      have h₁ : ((s.execChild a s.freeSlot).modPro s.freeSlot fun p =>
          { p with name := some file }).Ids :=
        Ids.modPro h.execChild (fun _ => rfl) (fun _ => rfl)
      exact h₁.modPro (i := a) (f := fun p => { p with waitstate := waitingToDie, waitingfor := _ })
        (fun _ => rfl) (fun _ => rfl)

theorem syscallExecFail (h : s.Ids) (hf : s.syscallExecFail = some t) : t.Ids := by
  unfold ProcState.syscallExecFail at hf
  cases ha : s.active with
  | none => simp [ha] at hf
  | some a =>
      simp only [ha, Option.bind_eq_bind, Option.bind_some] at hf
      split_ifs at hf
      exact Option.some.inj hf ▸ h.execChild

theorem syscallExit {status : Nat} (h : s.Ids) (hf : s.syscallExit status = some t) : t.Ids := by
  unfold ProcState.syscallExit at hf
  cases ha : s.active with
  | none => simp [ha] at hf
  | some a =>
      simp only [ha, Option.bind_eq_bind, Option.bind_some] at hf
      rw [← Option.some.inj hf]
      exact h.endProcess

theorem syscallWait {pid : Nat} (h : s.Ids) (hf : s.syscallWait pid = some t) : t.Ids := by
  unfold ProcState.syscallWait at hf
  cases ha : s.active with
  | none => simp [ha] at hf
  | some a =>
      simp only [ha, Option.bind_eq_bind, Option.bind_some] at hf
      split_ifs at hf
      · rw [← Option.some.inj hf]
        apply doWait
        exact h.modPro (fun _ => rfl) (fun _ => rfl)
      · exact Option.some.inj hf ▸ h

theorem resumeWait (h : s.Ids) (hf : s.resumeWait = some t) : t.Ids := by
  unfold ProcState.resumeWait at hf
  cases ha : s.active with
  | none => simp [ha] at hf
  | some a =>
      simp only [ha, Option.bind_eq_bind, Option.bind_some] at hf
      split_ifs at hf with hdone hi
      · rw [← Option.some.inj hf]
        have h₁ : (s.modPro a fun p => { p with waitstate := 0 }).Ids :=
          h.modPro (fun _ => rfl) (fun _ => rfl)
        exact h₁.reap_wipe.modPro (i := a) (f := fun p => { p with sigchildState := dead })
          (fun _ => rfl) (fun _ => rfl)
      · exact Option.some.inj hf ▸ h.doWait

theorem unqueue {sno : Nat} (h : s.Ids) (hf : s.unqueue sno = some t) : t.Ids := by
  unfold ProcState.unqueue at hf
  rw [Option.bind_eq_bind, Option.bind_eq_some_iff] at hf
  obtain ⟨q, -, hq⟩ := hf
  rw [← Option.some.inj hq]
  exact h

theorem syscallKill {pid : Nat} (h : s.Ids) (hf : s.syscallKill pid = some t) : t.Ids := by
  unfold ProcState.syscallKill at hf
  cases ha : s.active with
  | none => simp [ha] at hf
  | some a =>
      simp only [ha, Option.bind_eq_bind, Option.bind_some] at hf
      split_ifs at hf
      have h₁ : (s.modPro (s.allPro a).sno killCaller).Ids :=
        h.modPro (fun _ => rfl) (fun _ => rfl)
      have h₂ : ((s.modPro (s.allPro a).sno killCaller).modPro (s.slotOfPid pid) fun p =>
          { p with state := dead }).Ids := h₁.modPro (fun _ => rfl) (fun _ => rfl)
      exact h₂.setDescriptor_zero.signalParent.unqueue hf

/-- Every step keeps the identities. -/
theorem step {l : ProcLabel} (h : s.Ids) (hs : procStep l s = some t) : t.Ids := by
  unfold procStep at hs
  split_ifs at hs
  cases l with
  | fork => exact h.syscallFork hs
  | yield => exact Option.some.inj hs ▸ h.syscallSwitch
  | exit status => exact h.syscallExit hs
  | wait pid => exact h.syscallWait hs
  | exec file => exact h.syscallExec hs
  | execFail => exact h.syscallExecFail hs
  | kill pid => exact h.syscallKill hs
  | dispatch => exact h.dispatch hs
  | resumeWait => exact h.resumeWait hs

end ProcState.Ids

theorem initProc_ids : initProc.Ids := by
  have hother : ∀ i, i ≠ 0 → initProc.allPro i = Pcb.zero := fun i hi => by
    simp [initProc, Function.update_of_ne hi]
  refine ⟨by decide, ?_, ?_, ?_, ?_⟩
  · intro i _ hp
    by_cases h0 : i = 0
    · subst h0; rfl
    · rw [hother i h0] at hp
      exact absurd rfl hp
  · intro i _
    by_cases h0 : i = 0
    · subst h0; decide
    · rw [hother i h0]; decide
  · intro i _ j _ heq hne
    have hi0 : i = 0 := by
      by_contra h0
      rw [hother i h0] at hne
      exact hne rfl
    by_contra hij
    rw [hi0, hother j (by omega)] at heq
    simp [initProc, Pcb.zero] at heq
  · intro i _ hd
    by_cases h0 : i = 0
    · subst h0; decide
    · simp [initProc, Function.update_of_ne h0] at hd

/-- Identities hold in every reachable state of the process side. -/
theorem reach_ids {cond : ProcLabel → ProcState → Prop} {s : ProcState} (h : ProcReach cond s) :
    s.Ids := by
  refine h.invariant (P := ProcState.Ids) ?_ ?_
  · rintro _ rfl
    exact initProc_ids
  · rintro l s t hi ⟨-, hst⟩
    exact hi.step hst

end Sbunix
