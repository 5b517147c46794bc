import Sbunix.Sys.Yomama
import Sbunix.Sys.Proofs.FirstProcess

/-!
# When RING_0_MODE tracks the mode

Every way back to user mode clears the flag but one: `sys_call` leaves it set when it refuses
a call number from 200 on.
-/

namespace Sbunix

variable {s t : KernelState} {l : ProcLabel}

/-! ## Where the calls leave control -/

theorem ProcState.syscallSwitch_point (p : ProcState) : p.syscallSwitch.point = .switch := by
  unfold ProcState.syscallSwitch
  cases p.active with
  | none => rfl
  | some a =>
      dsimp only
      split_ifs <;> rfl

/-- The calls that end in user mode. -/
def ProcLabel.returns : ProcLabel → Prop
  | .fork | .exec _ | .execFail | .kill _ => True
  | _ => False

theorem procStep_returns {p p' : ProcState} (hl : l.returns) (h : procStep l p = some p') :
    p'.point = .user := by
  unfold procStep at h
  by_cases hpt : p.point = l.point
  · rw [if_pos hpt] at h
    cases l with
    | fork =>
        obtain ⟨a, -, ha⟩ := Option.bind_eq_some_iff.mp h
        split_ifs at ha
        rw [← Option.some.inj ha]
        exact hpt
    | exec file =>
        obtain ⟨a, -, ha⟩ := Option.bind_eq_some_iff.mp h
        split_ifs at ha
        rw [← Option.some.inj ha]
        exact hpt
    | execFail =>
        obtain ⟨a, -, ha⟩ := Option.bind_eq_some_iff.mp h
        split_ifs at ha
        rw [← Option.some.inj ha]
        exact hpt
    | kill pid =>
        obtain ⟨a, -, ha⟩ := Option.bind_eq_some_iff.mp h
        dsimp only at ha
        split_ifs at ha
        obtain ⟨q, -, hq⟩ := Option.bind_eq_some_iff.mp ha
        rw [← Option.some.inj hq]
        show (ProcState.signalParent _ _ _).point = _
        unfold ProcState.signalParent
        split_ifs <;> exact hpt
    | _ => exact hl.elim
  · rw [if_neg hpt] at h
    exact absurd h (by simp)

theorem procStep_switches {p p' : ProcState} (h : procStep l p = some p')
    (hl : l = .yield ∨ ∃ status, l = .exit status) : p'.point = .switch := by
  unfold procStep at h
  by_cases hpt : p.point = l.point
  · rw [if_pos hpt] at h
    cases hl with
    | inl hl =>
        subst hl
        rw [← Option.some.inj h]
        exact p.syscallSwitch_point
    | inr hl =>
        obtain ⟨status, rfl⟩ := hl
        obtain ⟨a, -, ha⟩ := Option.bind_eq_some_iff.mp h
        rw [← Option.some.inj ha]
        exact ProcState.syscallSwitch_point _
  · rw [if_neg hpt] at h
    exact absurd h (by simp)

/-! ## The flag -/

/-- The flag is clear in user mode and set in the kernel. -/
structure ModeInv (s : KernelState) : Prop where
  user : s.userMode → s.ring0Mode = 0
  kernel : ¬ s.userMode → s.ring0Mode = 1
  handler : s.handler ≠ none → s.proc.point = .user

/-- A call or kernel step starts in the kernel. -/
theorem run_not_user {p : ProcState} (hn : l.number = s.handler) (h : procStep l s.proc = some p) :
    ¬ s.userMode := by
  rintro ⟨hpt, hh⟩
  rw [hh] at hn
  unfold procStep at h
  cases l with
  | dispatch =>
      rw [if_neg (by rw [hpt]; decide)] at h
      exact absurd h (by simp)
  | resumeWait =>
      rw [if_neg (by rw [hpt]; decide)] at h
      exact absurd h (by simp)
  | _ => exact absurd hn (by simp [ProcLabel.number])

/-- Every call and kernel step leaves the flag as the mode it ends in wants it. -/
theorem ring0After_mode {p p' : ProcState} (h : procStep l p = some p') :
    l.ring0After p' 1 = if p'.point = .user then 0 else 1 := by
  cases l with
  | fork => rw [if_pos (procStep_returns (l := .fork) trivial h), ProcLabel.ring0After]
  | exec file => rw [if_pos (procStep_returns (l := .exec file) trivial h), ProcLabel.ring0After]
  | execFail => rw [if_pos (procStep_returns (l := .execFail) trivial h), ProcLabel.ring0After]
  | kill pid => rw [if_pos (procStep_returns (l := .kill pid) trivial h), ProcLabel.ring0After]
  | yield =>
      rw [if_neg (by rw [procStep_switches h (.inl rfl)]; decide), ProcLabel.ring0After]
  | exit status =>
      rw [if_neg (by rw [procStep_switches h (.inr ⟨status, rfl⟩)]; decide), ProcLabel.ring0After]
  | wait pid => rfl
  | dispatch => rfl
  | resumeWait => rfl

/-- The call numbers that `sys_call` looks up. -/
def validCall : KernelLabel → Prop
  | .sysCall rax => rax < 200
  | _ => True

theorem ModeInv.step {l : KernelLabel} (h : ModeInv s) (hl : validCall l)
    (hs : kernelStep l s = some t) : ModeInv t := by
  cases l with
  | sysCall rax =>
      rw [kernelStep] at hs
      by_cases hu : s.userMode
      · rw [if_pos hu, if_neg (Nat.not_le.mpr hl)] at hs
        split_ifs at hs
        obtain rfl := Option.some.inj hs
        exact ⟨fun hu' => absurd hu'.2 (by simp), fun _ => rfl, fun _ => hu.1⟩
      · rw [if_neg hu] at hs
        exact absurd hs (by simp)
  | run l =>
      rw [kernelStep] at hs
      by_cases hn : l.number = s.handler
      · rw [if_pos hn] at hs
        obtain ⟨p, hp, hs⟩ := Option.bind_eq_some_iff.mp hs
        obtain rfl := Option.some.inj hs
        have hring : l.ring0After p s.ring0Mode = if p.point = .user then 0 else 1 := by
          rw [h.kernel (run_not_user hn hp), ring0After_mode hp]
        refine ⟨fun hu => ?_, fun hu => ?_, fun hh => absurd rfl hh⟩
        · exact hring.trans (if_pos hu.1)
        · exact hring.trans (if_neg fun hpt => hu ⟨hpt, rfl⟩)
      · rw [if_neg hn] at hs
        exact absurd hs (by simp)
  | files fd currentDir =>
      rw [kernelStep] at hs
      cases hh : s.handler with
      | none =>
          rw [hh] at hs
          exact absurd hs (by simp)
      | some n =>
          rw [hh] at hs
          dsimp only at hs
          split_ifs at hs
          obtain ⟨p, hp, hs⟩ := Option.bind_eq_some_iff.mp hs
          obtain rfl := Option.some.inj hs
          obtain ⟨a, -, ha⟩ := Option.bind_eq_some_iff.mp hp
          have hpt : p.point = .user := by
            rw [← Option.some.inj ha]
            exact h.handler (by simp [hh])
          exact ⟨fun _ => rfl, fun hu => absurd ⟨hpt, rfl⟩ hu, fun hh => absurd rfl hh⟩

theorem KernelReach.modeInv (h : KernelReach (fun l _ => validCall l) s) : ModeInv s := by
  refine h.invariant (P := ModeInv) (fun s hs => ?_) fun l s t hi hs => hi.step hs.1 hs.2
  subst hs
  exact ⟨fun _ => rfl, fun h => absurd ⟨rfl, rfl⟩ h, fun h => absurd rfl h⟩

/-- A page fault that is served outside the kernel lies in a VMA. -/
theorem pagemama_checked {vm vm' : VmState} {v : Nat} {err : FaultCode}
    (h : vm.pagemama false v err = some vm') :
    ∃ a, vm.active = some a ∧ vm.isPageInVmaList a v = true := by
  rw [VmState.pagemama, if_neg (by simp)] at h
  obtain ⟨a, ha, h⟩ := Option.bind_eq_some_iff.mp h
  refine ⟨a, ha, ?_⟩
  by_contra hin
  rw [if_neg hin] at h
  exact absurd h (by simp)

/-- In runs whose call numbers are all below 200 the flag tracks the mode, and a page fault of a
program is served only inside its VMAs; the first other call number breaks this. -/
theorem ring0Mode_tracks (h : KernelReach (fun l _ => validCall l) s) :
    (s.userMode → s.ring0Mode = 0 ∧ ∀ (vm : VmState) (v : Nat) (err : FaultCode) (vm' : VmState),
      vm.pagemama (s.ring0Mode == 1) v err = some vm' →
        ∃ a, vm.active = some a ∧ vm.isPageInVmaList a v = true) ∧
    (¬ s.userMode → s.ring0Mode = 1) ∧
    ∀ rax t, ¬ validCall (.sysCall rax) → kernelStep (.sysCall rax) s = some t →
      t.userMode ∧ t.ring0Mode = 1 := by
  have hi := h.modeInv
  refine ⟨fun hu => ?_, hi.kernel, fun rax t hrax hs => ?_⟩
  · have h0 := hi.user hu
    refine ⟨h0, fun vm v err vm' hp => ?_⟩
    rw [h0] at hp
    exact pagemama_checked hp
  · rw [kernelStep] at hs
    by_cases hu : s.userMode
    · rw [if_pos hu, if_pos (Nat.not_lt.mp hrax)] at hs
      obtain rfl := Option.some.inj hs
      exact ⟨hu, rfl⟩
    · rw [if_neg hu] at hs
      exact absurd hs (by simp)

/-- Inside the shell's first `fork` the flag is set. -/
theorem ring0Mode_tracks_fork : ∃ s, kernelStep (.sysCall 57) initKernel = some s ∧
    ¬ s.userMode ∧ s.ring0Mode = 1 := by
  have hvalid : validCall (.sysCall 57) := show 57 < 200 by decide
  have hs : kernelStep (.sysCall 57) initKernel = some ⟨initProc, 1, some 57⟩ := rfl
  have hu : ¬ (⟨initProc, 1, some 57⟩ : KernelState).userMode := by decide
  exact ⟨_, hs, hu, (ring0Mode_tracks (.step (.sysCall 57) (.init rfl) ⟨hvalid, hs⟩)).2.1 hu⟩

/-- The shell makes call number 200: its next page fault, outside its VMAs, is served as one of
the kernel. -/
theorem ring0Mode_call200 : ∃ t, kernelStep (.sysCall 200) initKernel = some t ∧ t.userMode ∧
    t.ring0Mode = 1 ∧ ∃ vm vm' : VmState, vm.active = some 0 ∧
      vm.isPageInVmaList 0 0x500000 = false ∧
      vm.pagemama (t.ring0Mode == 1) 0x500000 ⟨false, true, true⟩ = some vm' := by
  refine ⟨⟨initProc, 1, none⟩, rfl, ⟨rfl, rfl⟩, rfl, ?_⟩
  obtain ⟨k, vm, -, hs⟩ := smallBoot_firstProcess fun _ _ => 0
  have hempty : vm.isPageInVmaList 0 0x500000 = false := by
    rw [VmState.isPageInVmaList, hs.vmaList]
    rfl
  have hact := hs.inv.active_root hs.active
  have hu : UserAddr 0x500000 := ⟨by decide, .inl (by decide)⟩
  have hsp := hu.inSpace hact.1 hact.2
  have hroom : 8 ≤ vm.machine.fl.totalblockcount := by
    have := hs.room
    dsimp only [smallBoot] at this
    omega
  obtain ⟨r, hr⟩ := (Machine.mapPhyaddr_fresh hs.inv.pages hs.inv.rootInv hsp
    hu.userPage.not_window (by decide) (hs.empty _)).total hroom
  refine ⟨vm, { vm with machine := r.2 }, hs.active, hempty, ?_⟩
  rw [VmState.pagemama, if_pos (by decide), VmState.onMachine]
  show ((vm.machine.mapPhyaddr 0x500000).map (·.2)).map _ = _
  rw [hr]
  rfl

end Sbunix
