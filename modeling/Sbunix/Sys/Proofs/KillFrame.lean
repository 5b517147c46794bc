import Sbunix.Sys.Proofs.Creation
import Sbunix.Sys.Proofs.KillQueue

/-!
# What a kill changes in the process table

`syscall_kill` clears files, name and directory of its caller where it means the victim's, and
with a pid that no live process has it goes on all the same.
-/

namespace Sbunix

variable {s t : ProcState} {a c v i pid : Nat}

/-! ## The ends of the queue -/

/-- The ends of the queue are positions in `proc_Q`. -/
structure RingEnds (s : ProcState) : Prop where
  start : s.procStart < procSize + 1
  stop : s.procEnd < procSize + 1

namespace RingEnds

theorem pushQ (h : RingEnds s) (i : Nat) : RingEnds (s.pushQ i) := ⟨h.start, Nat.mod_lt _ (by simp)⟩

theorem popQ (h : RingEnds s) : RingEnds s.popQ := ⟨Nat.mod_lt _ (by simp), h.stop⟩

theorem syscallSwitch (h : RingEnds s) : RingEnds s.syscallSwitch := by
  unfold ProcState.syscallSwitch
  cases s.active with
  | none => exact ⟨h.start, h.stop⟩
  | some a =>
      dsimp only
      split_ifs
      · exact ⟨h.start, (h.pushQ 0).stop⟩
      · exact ⟨h.start, h.stop⟩

theorem signalParent (h : RingEnds s) (i : Nat) (status : Int) :
    RingEnds (s.signalParent i status) := by
  obtain ⟨-, -, hst, hen, -⟩ := signalParent_frame s i status
  exact ⟨hst ▸ h.start, hen ▸ h.stop⟩

theorem endProcess (h : RingEnds s) (i : Nat) (status : Int) :
    RingEnds (s.endProcess i status) :=
  signalParent (s := s.modPro (s.allPro i).sno ProcState.exitPcb) ⟨h.start, h.stop⟩ i status

theorem doWait (h : RingEnds s) : RingEnds (s.doWait i) := syscallSwitch ⟨h.start, (h.pushQ 0).stop⟩

theorem killProc (h : RingEnds s) (hk : s.killProc = some t) : RingEnds t := by
  obtain ⟨a, -, hk⟩ := Option.bind_eq_some_iff.mp hk
  dsimp only at hk
  split_ifs at hk
  rw [← Option.some.inj hk]
  have he := h.endProcess a 0
  exact ⟨he.start, he.stop⟩

theorem getNextprocFrom {fuel : Nat} {r : Option Nat} (h : RingEnds s)
    (hg : s.getNextprocFrom fuel = some (r, t)) : RingEnds t := by
  induction fuel generalizing s with
  | zero => exact absurd hg (by simp [ProcState.getNextprocFrom])
  | succ fuel ih =>
      unfold ProcState.getNextprocFrom at hg
      split_ifs at hg with hemp
      · exact (Prod.mk.inj (Option.some.inj hg)).2 ▸ h
      · dsimp only at hg
        split_ifs at hg
        · exact (Prod.mk.inj (Option.some.inj hg)).2 ▸ h.popQ
        · exact ih h.popQ hg

theorem dispatch (h : RingEnds s) (hd : s.dispatch = some t) : RingEnds t := by
  unfold ProcState.dispatch at hd
  split at hd
  · exact absurd hd (by simp)
  · exact absurd hd (by simp)
  · next x s₁ hg =>
    have h₁ : RingEnds s₁ := h.getNextprocFrom hg
    dsimp only at hd
    split_ifs at hd
    · exact Option.some.inj hd ▸ ⟨h₁.start, h₁.stop⟩
    · exact Option.some.inj hd ▸ ⟨h₁.start, h₁.stop⟩
    · obtain ⟨u, hu, rfl⟩ := Option.map_eq_some_iff.mp hd
      exact (killProc (s := { s₁ with active := some x }) ⟨h₁.start, h₁.stop⟩ hu).syscallSwitch
    · exact Option.some.inj hd ▸ syscallSwitch ⟨h₁.start, (h₁.pushQ 0).stop⟩
    · exact Option.some.inj hd ▸ ⟨h₁.start, h₁.stop⟩

theorem resumeWait (h : RingEnds s) (hr : s.resumeWait = some t) : RingEnds t := by
  obtain ⟨a, -, hr⟩ := Option.bind_eq_some_iff.mp hr
  dsimp only at hr
  split_ifs at hr
  · exact Option.some.inj hr ▸ ⟨h.start, h.stop⟩
  · exact Option.some.inj hr ▸ h.doWait

theorem syscallKill (h : RingEnds s) (hk : s.syscallKill pid = some t) : RingEnds t := by
  obtain ⟨a, -, hk⟩ := Option.bind_eq_some_iff.mp hk
  dsimp only at hk
  split_ifs at hk
  obtain ⟨q, -, hq⟩ := Option.bind_eq_some_iff.mp hk
  rw [← Option.some.inj hq]
  have hsig : RingEnds (((s.modPro (s.allPro a).sno ProcState.killCaller).modPro (s.slotOfPid pid)
      fun p => { p with state := dead }).setDescriptor (s.slotOfPid pid) 0) := ⟨h.start, h.stop⟩
  exact ⟨Nat.mod_lt _ (by simp), (hsig.signalParent (s.slotOfPid pid) 0).stop⟩

/-- Every step keeps the ends in range. -/
theorem step {l : ProcLabel} (h : RingEnds s) (hs : procStep l s = some t) : RingEnds t := by
  unfold procStep at hs
  split_ifs at hs
  cases l with
  | fork =>
      obtain ⟨a, -, hf⟩ := Option.bind_eq_some_iff.mp hs
      split_ifs at hf
      exact Option.some.inj hf ▸ ⟨h.start, Nat.mod_lt _ (by simp)⟩
  | yield => exact Option.some.inj hs ▸ h.syscallSwitch
  | exit status =>
      obtain ⟨a, -, hf⟩ := Option.bind_eq_some_iff.mp hs
      have he := h.endProcess a (toInt32 status)
      exact Option.some.inj hf ▸ syscallSwitch ⟨he.start, he.stop⟩
  | wait pid =>
      obtain ⟨a, -, hf⟩ := Option.bind_eq_some_iff.mp hs
      split_ifs at hf
      · exact Option.some.inj hf ▸ doWait ⟨h.start, h.stop⟩
      · exact Option.some.inj hf ▸ h
  | exec file =>
      obtain ⟨a, -, hf⟩ := Option.bind_eq_some_iff.mp hs
      split_ifs at hf
      exact Option.some.inj hf ▸ ⟨h.start, Nat.mod_lt _ (by simp)⟩
  | execFail =>
      obtain ⟨a, -, hf⟩ := Option.bind_eq_some_iff.mp hs
      split_ifs at hf
      exact Option.some.inj hf ▸ ⟨h.start, h.stop⟩
  | kill pid => exact h.syscallKill hs
  | dispatch => exact h.dispatch hs
  | resumeWait => exact h.resumeWait hs

end RingEnds

theorem KernelReach.ringEnds {cond : KernelLabel → KernelState → Prop} {s : KernelState}
    (h : KernelReach cond s) : RingEnds s.proc :=
  h.proc_invariant ⟨by decide, by decide⟩ (fun _ _ _ hi hs => hi.step hs)
    fun _ _ _ _ hi => ⟨hi.start, hi.stop⟩

/-! ## The process table after a kill -/

/-- The loop that shifts `proc_Q` ends, unless it starts at cell 0 away from `proc_start`. -/
theorem unqueue_total (h : RingEnds s) (hv : v < procSize) :
    (∃ t, s.unqueue v = some t) ↔ v ≠ 0 ∨ s.procStart = 0 := by
  have hstart := h.start
  constructor
  · rintro ⟨t, ht⟩
    by_contra hne
    rw [not_or, not_not] at hne
    rw [ProcState.unqueue, hne.1, shiftQ_zero hne.2] at ht
    exact absurd ht (by simp)
  · intro hcond
    by_cases hle : s.procStart ≤ v
    · rw [ProcState.unqueue, shiftQ_down hle (by omega)]
      exact ⟨_, rfl⟩
    · rw [ProcState.unqueue, shiftQ_wrap (by omega) (by omega) (by omega) (by omega)]
      exact ⟨_, rfl⟩

/-- A kill always moves `proc_start`: the queue is never as before. -/
theorem unqueue_queue (h : RingEnds s) (hu : s.unqueue v = some t) : t.queue ≠ s.queue := by
  obtain ⟨q, -, hq⟩ := Option.bind_eq_some_iff.mp hu
  rw [← Option.some.inj hq]
  intro heq
  have hlen := congrArg List.length heq
  have hstart := h.start
  have hstop := h.stop
  simp only [ProcState.queue, length_ringList, ringLen] at hlen
  rw [succ_mod_eq hstart] at hlen
  simp only [show procSize = 100 from rfl] at hstart hstop hlen
  split_ifs at hlen <;> omega

theorem modPro_pids {f : Pcb → Pcb} (hf : ∀ p, (f p).pid = p.pid ∧ (f p).ppid = p.ppid) (j : Nat) :
    ((s.modPro i f).allPro j).pid = (s.allPro j).pid ∧
      ((s.modPro i f).allPro j).ppid = (s.allPro j).ppid := by
  by_cases hj : j = i
  · rw [hj, ProcState.modPro_same]
    exact hf _
  · rw [ProcState.modPro_other hj]
    exact ⟨rfl, rfl⟩

/-- Slots other than the victim's: the caller's slot `c` is cleared, and the slot that has the pid
of the victim's parent is told. -/
theorem killed_allPro (h : i ≠ v) : (killed s c v).allPro i =
    let q := if i = c then ProcState.killCaller (s.allPro i) else s.allPro i
    if i < procSize ∧ i = s.slotOfPid (s.allPro v).ppid then
      { q with sigchildState := 0, signallingChild := (s.allPro v).pid }
    else q := by
  obtain ⟨u, hu⟩ : ∃ u, ((s.modPro c ProcState.killCaller).modPro v fun p =>
    { p with state := dead }).setDescriptor v 0 = u := ⟨_, rfl⟩
  have hpid : ∀ j, (u.allPro j).pid = (s.allPro j).pid ∧ (u.allPro j).ppid = (s.allPro j).ppid := by
    intro j
    rw [← hu, ProcState.setDescriptor_allPro]
    obtain ⟨h₁, h₂⟩ := modPro_pids (s := s) (i := c) (f := ProcState.killCaller)
      (fun _ => ⟨rfl, rfl⟩) j
    obtain ⟨h₃, h₄⟩ := modPro_pids (s := s.modPro c ProcState.killCaller) (i := v)
      (f := fun p => { p with state := dead }) (fun _ => ⟨rfl, rfl⟩) j
    exact ⟨h₃.trans h₁, h₄.trans h₂⟩
  have hslot : u.slotOfPid (u.allPro v).ppid = s.slotOfPid (s.allPro v).ppid := by
    simp only [ProcState.slotOfPid, (hpid _).1, (hpid v).2]
  have hi : u.allPro i = if i = c then ProcState.killCaller (s.allPro i) else s.allPro i := by
    rw [← hu, ProcState.setDescriptor_allPro, ProcState.modPro_other h]
    by_cases hic : i = c
    · rw [hic, ProcState.modPro_same, if_pos rfl]
    · rw [ProcState.modPro_other hic, if_neg hic]
  show (ProcState.signalParent _ v 0).allPro i = _
  rw [hu, ProcState.signalParent, hslot, (hpid v).1, ← hi]
  by_cases hp : s.slotOfPid (s.allPro v).ppid < procSize
  · rw [if_pos hp]
    by_cases his : i = s.slotOfPid (s.allPro v).ppid
    · rw [if_pos ⟨his ▸ hp, his⟩, his, ProcState.modPro_same]
    · rw [if_neg fun hc => his hc.2, ProcState.modPro_other his]
  · rw [if_neg hp, if_neg]
    rintro ⟨hlt, rfl⟩
    exact hp hlt

/-- Slot `p` has the pid of the parent of process `v`. -/
def IsParent (s : ProcState) (p v : Nat) : Prop :=
  p < procSize ∧ (s.allPro p).pid = (s.allPro v).ppid ∧ (s.allPro v).ppid ≠ 0

/-- What a kill of process `v` may change: its PCB and descriptor, the two signal fields of its
parent and the queue. -/
structure KillFrame (s t : ProcState) (v : Nat) : Prop where
  allPro : ∀ i, i ≠ v → ¬ IsParent s i v → t.allPro i = s.allPro i
  parent : ∀ i, i ≠ v → IsParent s i v → t.allPro i =
    { s.allPro i with sigchildState := (t.allPro i).sigchildState,
                      signallingChild := (t.allPro i).signallingChild }
  procDescriptor : ∀ i, i ≠ v → t.procDescriptor i = s.procDescriptor i
  active : t.active = s.active
  globalPid : t.globalPid = s.globalPid

/-- The process table and the queue are unchanged. -/
structure SameTable (s t : ProcState) : Prop where
  allPro : t.allPro = s.allPro
  procDescriptor : t.procDescriptor = s.procDescriptor
  queue : t.queue = s.queue

/-- The kill of `pid` comes back and keeps its frame. -/
def KillFramed (s : ProcState) (pid : Nat) : Prop :=
  ∃ t, s.syscallKill pid = some t ∧
    (∀ v, s.Live v → (s.allPro v).pid = pid → KillFrame s t v) ∧
    ((∀ v, s.Live v → (s.allPro v).pid ≠ pid) → SameTable s t)

/-- A slot without files, name and directory. -/
def Bare (p : Pcb) : Prop := p.fd = noFiles ∧ p.name = none ∧ p.currentDir = none

/-- The slot that a kill of `v` signals belongs to its parent, or already says so. -/
def SignalsParent (s : ProcState) (v : Nat) : Prop :=
  (s.allPro v).ppid ≠ 0 ∨ s.slotOfPid 0 = procSize ∨
    ((s.allPro (s.slotOfPid 0)).sigchildState = 0 ∧
      (s.allPro (s.slotOfPid 0)).signallingChild = (s.allPro v).pid)

theorem killCaller_bare {p : Pcb} (h : Bare p) : ProcState.killCaller p = p := by
  obtain ⟨hfd, hname, hdir⟩ := h
  cases p
  simp only at hfd hname hdir
  simp [ProcState.killCaller, hfd, hname, hdir]

/-- With nothing to clear at the caller and the right slot to signal, the frame is kept. -/
theorem killed_framed (hc : c = v ∨ Bare (s.allPro c))
    (hp : SignalsParent s v) : KillFrame s (killed s c v) v := by
  obtain ⟨hd, -, -, -, hact, hg, -⟩ := killed_frame s c v
  have hq : ∀ i, i ≠ v →
      (if i = c then ProcState.killCaller (s.allPro i) else s.allPro i) = s.allPro i := by
    intro i hi
    by_cases hic : i = c
    · rw [if_pos hic]
      cases hc with
      | inl hcv => exact absurd (hic.trans hcv) hi
      | inr hb => exact killCaller_bare (hic ▸ hb)
    · rw [if_neg hic]
  refine ⟨fun i hi hnp => ?_, fun i hi _ => ?_, fun i hi => ?_, hact, hg⟩
  · rw [killed_allPro hi]
    dsimp only
    rw [hq i hi]
    by_cases hsig : i < procSize ∧ i = s.slotOfPid (s.allPro v).ppid
    · rw [if_pos hsig]
      have hpid := slotOfPid_spec (hsig.2 ▸ hsig.1)
      rw [← hsig.2] at hpid
      have h0 : (s.allPro v).ppid = 0 := by
        by_contra hne
        exact hnp ⟨hsig.1, hpid, hne⟩
      rw [h0] at hsig
      obtain hne | hfull | ⟨h1, h2⟩ := hp
      · exact absurd h0 hne
      · exact absurd (hsig.2.trans hfull) hsig.1.ne
      · rw [← hsig.2] at h1 h2
        rw [← h1, ← h2]
    · rw [if_neg hsig]
  · rw [killed_allPro hi]
    dsimp only
    rw [hq i hi]
    split_ifs <;> rfl
  · rw [hd, Function.update_of_ne hi]

theorem killFramed_iff {p : ProcState} (hids : p.Ids) (hends : RingEnds p) (ha : p.active = some a)
    (hc : (p.allPro a).sno = c) : KillFramed p pid ↔ ∃ v, p.Live v ∧ (p.allPro v).pid = pid ∧
      (v ≠ 0 ∨ p.procStart = 0) ∧ (c = v ∨ Bare (p.allPro c)) ∧ SignalsParent p v := by
  have hkill : ∀ v, p.Live v → p.syscallKill (p.allPro v).pid = (killed p c v).unqueue v :=
    fun v hl => syscallKill_eq hids ha hc hl.1 (hids.live v hl.1 hl.2.1)
  have htotal : ∀ v, p.Live v →
      ((∃ t, (killed p c v).unqueue v = some t) ↔ v ≠ 0 ∨ p.procStart = 0) := by
    intro v hl
    obtain ⟨-, -, hst, hen, -⟩ := killed_frame p c v
    have hends' : RingEnds (killed p c v) := ⟨hst ▸ hends.start, hen ▸ hends.stop⟩
    rw [unqueue_total hends' hl.1, hst]
  constructor
  · rintro ⟨t, ht, hframe, hsame⟩
    obtain ⟨v, hl, hpid⟩ : ∃ v, p.Live v ∧ (p.allPro v).pid = pid := by
      by_contra hno
      have hqueue := (hsame fun v hl hpid => hno ⟨v, hl, hpid⟩).queue
      obtain ⟨b, -, hb⟩ := Option.bind_eq_some_iff.mp ht
      dsimp only at hb
      split_ifs at hb
      refine unqueue_queue ?_ hb (hqueue.trans ?_)
      · refine RingEnds.signalParent ?_ _ _
        exact ⟨hends.start, hends.stop⟩
      · obtain ⟨-, hq, hst, hen, -⟩ := signalParent_frame
          (((p.modPro (p.allPro b).sno ProcState.killCaller).modPro (p.slotOfPid pid)
            fun q => { q with state := dead }).setDescriptor (p.slotOfPid pid) 0) (p.slotOfPid pid) 0
        simp only [ProcState.queue, hq, hst, hen]
        rfl
    have hfr := hframe v hl hpid
    rw [← hpid, hkill v hl] at ht
    have hall : t.allPro = (killed p c v).allPro := by
      obtain ⟨q, -, hq⟩ := Option.bind_eq_some_iff.mp ht
      rw [← Option.some.inj hq]
    have hlive := hids.live v hl.1 hl.2.1
    refine ⟨v, hl, hpid, (htotal v hl).mp ⟨t, ht⟩, ?_, ?_⟩
    · by_cases hcv : c = v
      · exact .inl hcv
      · right
        have hfields : (t.allPro c).fd = noFiles ∧ (t.allPro c).name = none ∧
            (t.allPro c).currentDir = none := by
          rw [hall, killed_allPro hcv]
          dsimp only
          rw [if_pos rfl]
          split_ifs <;> exact ⟨rfl, rfl, rfl⟩
        by_cases hpar : IsParent p c v
        · have heq := hfr.parent c hcv hpar
          rw [heq] at hfields
          exact hfields
        · rwa [hfr.allPro c hcv hpar] at hfields
    · by_cases h0 : (p.allPro v).ppid = 0
      · right
        by_cases hlt : p.slotOfPid 0 < procSize
        · right
          have hpid0 := slotOfPid_spec hlt
          have hne : p.slotOfPid 0 ≠ v := by
            rintro he
            rw [he] at hpid0
            exact hlive hpid0
          have heq := hfr.allPro _ hne fun hpar => hpar.2.2 h0
          rw [hall, killed_allPro hne] at heq
          dsimp only at heq
          rw [if_pos ⟨hlt, by rw [h0]⟩] at heq
          rw [← heq]
          exact ⟨rfl, rfl⟩
        · exact .inl (le_antisymm (firstSlot_le _) (Nat.le_of_not_lt hlt))
      · exact .inl h0
  · rintro ⟨v, hl, rfl, hcell, hcaller, hsig⟩
    obtain ⟨t, ht⟩ := (htotal v hl).mpr hcell
    have hlive := hids.live v hl.1 hl.2.1
    refine ⟨t, (hkill v hl).trans ht, fun w hw hpid => ?_, fun hno => absurd rfl (hno v hl)⟩
    obtain rfl : w = v := hids.pid_inj w hw.1 v hl.1 hpid (hpid ▸ hlive)
    have hfr := killed_framed hcaller hsig
    obtain ⟨q, -, hq⟩ := Option.bind_eq_some_iff.mp ht
    rw [← Option.some.inj hq]
    exact ⟨hfr.allPro, hfr.parent, hfr.procDescriptor, hfr.active, hfr.globalPid⟩

/-- Which kills keep their frame: those of a live process whose slot is not 0 (unless the queue
starts at cell 0), by a caller that is the victim or has nothing left to clear. A kill of the
first process, whose parent pid is 0, also signals the first slot without a pid. -/
theorem syscallKill_framed {cond : KernelLabel → KernelState → Prop} {s : KernelState}
    (h : KernelReach cond s) (ha : s.proc.active = some a) :
    KillFramed s.proc pid ↔ ∃ v, s.proc.Live v ∧ (s.proc.allPro v).pid = pid ∧
      (v ≠ 0 ∨ s.proc.procStart = 0) ∧
      ((s.proc.allPro a).sno = v ∨ Bare (s.proc.allPro (s.proc.allPro a).sno)) ∧
      SignalsParent s.proc v :=
  killFramed_iff h.ids h.ringEnds ha rfl

/-- The run of these steps from start-up. -/
theorem KernelReach.of_run {ls : List KernelLabel} {s : KernelState}
    (h : runLabels kernelStep ls initKernel = some s) : KernelReach (fun _ _ => True) s :=
  Reach.of_runLabels (P := fun _ => True) (.init rfl) (fun _ _ => trivial) h

/-- A child of the shell that kills itself. -/
def forkedChild : KernelState :=
  (runLabels kernelStep [.sysCall 57, .run .fork, .sysCall 53] initKernel).get (by decide)

theorem syscallKill_framed_self : KillFramed forkedChild.proc 2 :=
  (syscallKill_framed (.of_run (Option.some_get _).symm) (a := 1) rfl).mpr
    ⟨1, by decide, by decide, .inl (by decide), .inl (by decide), .inl (by decide)⟩

/-- The shell opens a file, as descriptor 2, and forks; the child gives up the CPU, and the shell
calls `kill`. -/
def shellKills : KernelState :=
  (runLabels kernelStep [.sysCall 2, .files (noFiles.set 2 (some ⟨0, 1⟩)) (some ['/']), .sysCall 57,
    .run .fork, .sysCall 58, .run .yield, .run .dispatch, .sysCall 53] initKernel).get (by decide)

/-- By killing its child the shell loses its open file, its name and its directory. -/
theorem shellKills_unframed : KernelReach (fun _ _ => True) shellKills ∧
    shellKills.proc.active = some 0 ∧ shellKills.proc.Live 1 ∧
    (shellKills.proc.allPro 1).pid = 2 ∧ (shellKills.proc.allPro 0).fd[2]? = some (some ⟨0, 1⟩) ∧
    ((shellKills.proc.syscallKill 2).map fun t => (t.allPro 0).fd[2]?) = some (some none) ∧
    ¬ KillFramed shellKills.proc 2 := by
  have hr : KernelReach (fun _ _ => True) shellKills := .of_run (Option.some_get _).symm
  refine ⟨hr, by decide, by decide, by decide, by decide, by decide, fun hf => ?_⟩
  obtain ⟨v, hl, hpid, -, hcaller, -⟩ := (killFramed_iff hr.ids hr.ringEnds (a := 0) rfl rfl).mp hf
  obtain rfl : v = 1 := by
    refine hr.ids.pid_inj v hl.1 1 (by decide) (hpid.trans (by decide)) ?_
    rw [hpid]
    decide
  cases hcaller with
  | inl h => exact absurd h (by decide)
  | inr h => exact absurd h.2.1 (by decide)

end Sbunix
