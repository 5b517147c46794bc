import Sbunix.Sys.ExitHistory
import Sbunix.Sys.Proofs.ProcRuns

/-!
# Child exits and `syscall_wait`

Each parent has one slot, `sigchild_state` and `signalling_child`, for the exits of
all its children.  `Delivery` says what that slot and the history know of each
other while no notification is overwritten; `notifies` is the condition on a step
under which none is.
-/

namespace Sbunix

variable {s t : ProcState} {a i j x : Nat} {xs : List Nat}

/-- Child `j` of the process in slot `p` has ended and is not yet reaped. A stub waits
for its program only. -/
structure PendingChild (pro : Nat → Pcb) (desc : Nat → Nat) (p j : Nat) : Prop where
  lt : j < procSize
  descriptor : desc j = 1
  state : (pro j).state = zombie
  ppid : (pro j).ppid = (pro p).pid
  program : (pro p).waitstate = waitingToDie → (pro j).pid = toUint64 (pro p).waitingfor

/-- The signal slot, the zombies and the history agree. -/
structure Delivery (pro : Nat → Pcb) (desc : Nat → Nat) (g : Nat) (exits : List ExitRecord)
    (reports : List Report) : Prop where
  exit_lt : ∀ e ∈ exits, 0 < e.pid ∧ e.pid < g ∧ e.ppid < g
  exit_nodup : (exits.map ExitRecord.pid).Nodup
  exit_stopped : ∀ e ∈ exits, ∀ j < procSize, (pro j).pid = e.pid → (pro j).state ≠ running
  exit_pending : ∀ e ∈ exits, ∀ p < procSize, (pro p).state = running → (pro p).pid = e.ppid →
    (∃ r ∈ reports, r.parent = e.ppid ∧ r.child = e.pid) ∨
    ∃ j < procSize, desc j = 1 ∧ (pro j).state = zombie ∧ (pro j).pid = e.pid ∧
      (pro j).ppid = e.ppid
  report_exit : ∀ r ∈ reports, ∃ e ∈ exits, e.ppid = r.parent ∧ e.pid = r.child ∧
    e.status = r.status
  report_gone : ∀ r ∈ reports, ∀ j < procSize, (pro j).pid ≠ r.child
  report_nodup : (reports.map fun r => (r.parent, r.child)).Nodup
  report_stub : ∀ r ∈ reports, ∀ p < procSize, (pro p).state = running →
    (pro p).waitstate = waitingToDie →
    ¬ (r.parent = (pro p).pid ∧ r.child = toUint64 (pro p).waitingfor)
  signal_exit : ∀ p < procSize, (pro p).state = running → (pro p).sigchildState = 0 →
    ((pro p).waitstate = waitingToDie → (pro p).signallingChild = toUint64 (pro p).waitingfor) →
    ∃ j, PendingChild pro desc p j ∧ (pro j).pid = (pro p).signallingChild ∧
      ∃ e ∈ exits, e.pid = (pro j).pid ∧ e.ppid = (pro p).pid ∧ e.status = 0
  pending_signal : ∀ p < procSize, (pro p).state = running → ∀ j, PendingChild pro desc p j →
    (pro p).sigchildState = 0 ∧ (pro p).signallingChild = (pro j).pid

namespace Delivery

variable {pro pro' : Nat → Pcb} {desc desc' : Nat → Nat} {g g' : Nat} {exits : List ExitRecord}
  {reports : List Report}

/-- Steps that touch no identity, state or signal: a yield, a wait, most dispatches. -/
theorem congr (h : Delivery pro desc g exits reports)
    (hid : ∀ j < procSize, (pro' j).pid = (pro j).pid ∧ (pro' j).ppid = (pro j).ppid ∧
      (pro' j).state = (pro j).state ∧ desc' j = desc j ∧
      (pro' j).sigchildState = (pro j).sigchildState ∧
      (pro' j).signallingChild = (pro j).signallingChild)
    (hstub : ∀ j < procSize, ((pro' j).waitstate = waitingToDie ↔
      (pro j).waitstate = waitingToDie) ∧
      ((pro j).waitstate = waitingToDie → (pro' j).waitingfor = (pro j).waitingfor)) :
    Delivery pro' desc' g exits reports := by
  have hpend : ∀ p < procSize, ∀ j, PendingChild pro' desc' p j ↔ PendingChild pro desc p j := by
    intro p hp j
    obtain ⟨hpp, -⟩ := hid p hp
    obtain ⟨hw, hf⟩ := hstub p hp
    constructor
    all_goals
      rintro ⟨hlt, hd, hst, hpar, hprog⟩
      obtain ⟨hjp, hjpp, hjs, hjd, -⟩ := hid j hlt
      refine ⟨hlt, by omega, by omega, by omega, fun hwd => ?_⟩
    · have := hprog (hw.mpr hwd)
      rwa [hjp, hf hwd] at this
    · have := hprog (hw.mp hwd)
      rwa [hjp, hf (hw.mp hwd)]
  refine ⟨h.exit_lt, h.exit_nodup, ?_, ?_, h.report_exit, ?_, h.report_nodup, ?_, ?_, ?_⟩
  · intro e he j hj hp
    obtain ⟨hjp, -, hjs, -⟩ := hid j hj
    rw [hjs]
    exact h.exit_stopped e he j hj (hjp ▸ hp)
  · intro e he p hp hr hpe
    obtain ⟨hpp, -, hps, -⟩ := hid p hp
    rcases h.exit_pending e he p hp (hps ▸ hr) (hpp ▸ hpe) with hrep | ⟨j, hj, hd, hz, hjp, hjpp⟩
    · exact .inl hrep
    · obtain ⟨h1, h2, h3, h4, -⟩ := hid j hj
      exact .inr ⟨j, hj, by omega, by omega, by omega, by omega⟩
  · intro r hr j hj
    rw [(hid j hj).1]
    exact h.report_gone r hr j hj
  · intro r hr p hp hrun hws
    obtain ⟨hpp, -, hps, -⟩ := hid p hp
    obtain ⟨hw, hf⟩ := hstub p hp
    rw [hpp, hf (hw.mp hws)]
    exact h.report_stub r hr p hp (hps ▸ hrun) (hw.mp hws)
  · intro p hp hrun hz hsig
    obtain ⟨hpp, -, hps, -, hss, hsc⟩ := hid p hp
    obtain ⟨hw, hf⟩ := hstub p hp
    obtain ⟨j, hj, hjs, e, he, hep, hepp, hst⟩ := h.signal_exit p hp (hps ▸ hrun) (hss ▸ hz)
      (fun hws => by
        have := hsig (hw.mpr hws)
        rwa [hsc, hf hws] at this)
    obtain ⟨hjp, -⟩ := hid j hj.lt
    exact ⟨j, (hpend p hp j).mpr hj, by omega, e, he, by omega, by omega, hst⟩
  · intro p hp hrun j hj
    obtain ⟨hpp, -, hps, -, hss, hsc⟩ := hid p hp
    obtain ⟨h1, h2⟩ := h.pending_signal p hp (hps ▸ hrun) j ((hpend p hp j).mp hj)
    exact ⟨hss.trans h1, by rw [hsc, h2, (hid j hj.lt).1]⟩

/-- What has been reported has ended. -/
theorem report_lt (h : Delivery pro desc g exits reports) {r : Report} (hr : r ∈ reports) :
    0 < r.child ∧ r.child < g := by
  obtain ⟨e, he, -, hep, -⟩ := h.report_exit r hr
  have := h.exit_lt e he
  omega

end Delivery

/-! ## A new process -/

/-- The process in slot `a` has created one with pid `g` in the free slot `f`. It has nothing
pending and no signal to trust. -/
structure NewChild (pro pro' : Nat → Pcb) (desc desc' : Nat → Nat) (g a f : Nat) : Prop where
  free : desc f = 0
  ne : f ≠ a
  ran : (pro a).state = running
  others : ∀ j, j ≠ f → j ≠ a → pro' j = pro j
  descriptors : ∀ j, j ≠ f → desc' j = desc j
  child : (pro' f).pid = g ∧ (pro' f).state = running ∧ (pro' f).waitstate = 0 ∧
    (pro' f).sigchildState ≠ 0
  creator : (pro' a).pid = (pro a).pid ∧ (pro' a).state = running
  signal : ¬ ((pro' a).sigchildState = 0 ∧
    ((pro' a).waitstate = waitingToDie →
      (pro' a).signallingChild = toUint64 (pro' a).waitingfor))
  nonePending : ∀ j, ¬ PendingChild pro' desc' a j
  program : (pro' a).waitstate = waitingToDie → toUint64 (pro' a).waitingfor = g

namespace NewChild

variable {pro pro' : Nat → Pcb} {desc desc' : Nat → Nat} {g f q : Nat} {exits : List ExitRecord}
  {reports : List Report} {e : ExitRecord} {r : Report}

section

variable (hs : NewChild pro pro' desc desc' g a f)

include hs

theorem kept (hz : (pro j).state = zombie) (hd : desc j = 1) : j ≠ f ∧ pro' j = pro j := by
  have hjf : j ≠ f := by
    rintro rfl
    have := hs.free
    omega
  refine ⟨hjf, hs.others j hjf ?_⟩
  rintro rfl
  exact absurd (hs.ran.symm.trans hz) (by decide)

/-- Neither the new process nor its creator has ended. -/
theorem ended_kept (hz : (pro' j).state = zombie) : j ≠ f ∧ pro' j = pro j := by
  have hjf : j ≠ f := by
    rintro rfl
    exact absurd (hs.child.2.1.symm.trans hz) (by decide)
  refine ⟨hjf, hs.others j hjf ?_⟩
  rintro rfl
  exact absurd (hs.creator.2.symm.trans hz) (by decide)

theorem pending_iff (hqf : q ≠ f) (hqa : q ≠ a) :
    PendingChild pro' desc' q j ↔ PendingChild pro desc q j := by
  have hq := hs.others q hqf hqa
  constructor
  · rintro ⟨hlt, hd, hst, hpar, hpr⟩
    obtain ⟨hjf, hj⟩ := hs.ended_kept hst
    rw [hj] at hst hpar hpr
    rw [hq] at hpar hpr
    exact ⟨hlt, hs.descriptors j hjf ▸ hd, hst, hpar, hpr⟩
  · rintro ⟨hlt, hd, hst, hpar, hpr⟩
    obtain ⟨hjf, hj⟩ := hs.kept hst hd
    exact ⟨hlt, (hs.descriptors j hjf).trans hd, hj ▸ hst, by rw [hj, hq]; exact hpar,
      by rw [hj, hq]; exact hpr⟩

/-- No process has the new one as its parent. -/
theorem not_pending_child (htab : PcbInv pro g) : ¬ PendingChild pro' desc' f j := by
  intro hj
  obtain ⟨-, hjo⟩ := hs.ended_kept hj.state
  have hpar := hj.ppid
  rw [hjo, hs.child.1] at hpar
  have := htab.ppid_lt j hj.lt
  omega

end

variable (hs : NewChild pro pro' desc desc' g a f) (h : Delivery pro desc g exits reports)

include hs h

theorem exit_stopped (he : e ∈ exits) (hj : j < procSize) (hje : (pro' j).pid = e.pid) :
    (pro' j).state ≠ running := by
  by_cases hjf : j = f
  · subst hjf
    have := (h.exit_lt e he).2.1
    have := hs.child.1
    omega
  · by_cases hja : j = a
    · subst hja
      exact absurd hs.ran (h.exit_stopped e he j hj (hs.creator.1.symm.trans hje))
    · rw [hs.others j hjf hja] at hje ⊢
      exact h.exit_stopped e he j hj hje

theorem exit_pending (he : e ∈ exits) (hq : q < procSize) (hqr : (pro' q).state = running)
    (hqe : (pro' q).pid = e.ppid) :
    (∃ r ∈ reports, r.parent = e.ppid ∧ r.child = e.pid) ∨
      ∃ j < procSize, desc' j = 1 ∧ (pro' j).state = zombie ∧ (pro' j).pid = e.pid ∧
        (pro' j).ppid = e.ppid := by
  have hqold : (pro q).state = running ∧ (pro q).pid = e.ppid := by
    by_cases hqf : q = f
    · subst hqf
      have := (h.exit_lt e he).2.2
      have := hs.child.1
      omega
    · by_cases hqa : q = a
      · subst hqa
        exact ⟨hs.ran, hs.creator.1.symm.trans hqe⟩
      · rw [hs.others q hqf hqa] at hqr hqe
        exact ⟨hqr, hqe⟩
  rcases h.exit_pending e he q hq hqold.1 hqold.2 with hl | ⟨j, hj, hd, hz, hjp, hjpp⟩
  · exact .inl hl
  · obtain ⟨hjf, hjo⟩ := hs.kept hz hd
    exact .inr ⟨j, hj, (hs.descriptors j hjf).trans hd, by rw [hjo]; exact hz,
      by rw [hjo]; exact hjp, by rw [hjo]; exact hjpp⟩

theorem report_gone (hr : r ∈ reports) (hj : j < procSize) : (pro' j).pid ≠ r.child := by
  by_cases hjf : j = f
  · subst hjf
    have := (h.report_lt hr).2
    have := hs.child.1
    omega
  · by_cases hja : j = a
    · subst hja
      rw [hs.creator.1]
      exact h.report_gone r hr j hj
    · rw [hs.others j hjf hja]
      exact h.report_gone r hr j hj

theorem report_stub (hr : r ∈ reports) (hq : q < procSize) (hqr : (pro' q).state = running)
    (hqs : (pro' q).waitstate = waitingToDie) :
    ¬ (r.parent = (pro' q).pid ∧ r.child = toUint64 (pro' q).waitingfor) := by
  rintro ⟨hrp, hrc⟩
  by_cases hqf : q = f
  · subst hqf
    exact absurd (hs.child.2.2.1.symm.trans hqs) (by decide)
  · by_cases hqa : q = a
    · subst hqa
      have := (h.report_lt hr).2
      have := hs.program hqs
      omega
    · rw [hs.others q hqf hqa] at hqr hqs hrp hrc
      exact h.report_stub r hr q hq hqr hqs ⟨hrp, hrc⟩

theorem signal_exit (hq : q < procSize) (hqr : (pro' q).state = running)
    (hqz : (pro' q).sigchildState = 0)
    (hqs : (pro' q).waitstate = waitingToDie →
      (pro' q).signallingChild = toUint64 (pro' q).waitingfor) :
    ∃ j, PendingChild pro' desc' q j ∧ (pro' j).pid = (pro' q).signallingChild ∧
      ∃ e ∈ exits, e.pid = (pro' j).pid ∧ e.ppid = (pro' q).pid ∧ e.status = 0 := by
  by_cases hqf : q = f
  · subst hqf
    exact absurd hqz hs.child.2.2.2
  · by_cases hqa : q = a
    · subst hqa
      exact absurd ⟨hqz, hqs⟩ hs.signal
    · have hqo := hs.others q hqf hqa
      rw [hqo] at hqr hqz hqs ⊢
      obtain ⟨j, hj, hjs, he⟩ := h.signal_exit q hq hqr hqz hqs
      obtain ⟨-, hjo⟩ := hs.kept hj.state hj.descriptor
      exact ⟨j, (hs.pending_iff hqf hqa).mpr hj, by rw [hjo]; exact hjs, by rw [hjo]; exact he⟩

theorem pending_signal (htab : PcbInv pro g) (hq : q < procSize)
    (hqr : (pro' q).state = running) (hj : PendingChild pro' desc' q j) :
    (pro' q).sigchildState = 0 ∧ (pro' q).signallingChild = (pro' j).pid := by
  by_cases hqf : q = f
  · subst hqf
    exact absurd hj (hs.not_pending_child htab)
  · by_cases hqa : q = a
    · subst hqa
      exact absurd hj (hs.nonePending j)
    · obtain ⟨-, hjo⟩ := hs.ended_kept hj.state
      rw [hjo]
      rw [hs.others q hqf hqa] at hqr ⊢
      exact h.pending_signal q hq hqr j ((hs.pending_iff hqf hqa).mp hj)

/-- A new process has no children and is nobody's child that has ended. -/
theorem delivery (htab : PcbInv pro g) : Delivery pro' desc' (g + 1) exits reports where
  exit_lt e he := by
    have := h.exit_lt e he
    omega
  exit_nodup := h.exit_nodup
  exit_stopped _ he _ hj hje := hs.exit_stopped h he hj hje
  exit_pending _ he _ hq hqr hqe := hs.exit_pending h he hq hqr hqe
  report_exit := h.report_exit
  report_gone _ hr _ hj := hs.report_gone h hr hj
  report_nodup := h.report_nodup
  report_stub _ hr _ hq hqr hqs := hs.report_stub h hr hq hqr hqs
  signal_exit _ hq hqr hqz hqs := hs.signal_exit h hq hqr hqz hqs
  pending_signal _ hq hqr _ hj := hs.pending_signal h htab hq hqr hj

end NewChild

namespace Delivery

variable {pro pro' : Nat → Pcb} {desc desc' : Nat → Nat} {g g' : Nat} {exits : List ExitRecord}
  {reports : List Report}

/-- Giving up slot `i`, whose parent runs no more, concerns nobody. -/
theorem reaped (h : Delivery pro desc g exits reports) (hi : i < procSize)
    (hsame : (pro' i).pid = (pro i).pid ∧ (pro' i).state ≠ running)
    (hother : ∀ j, j ≠ i → pro' j = pro j ∧ desc' j = desc j) (hdesc : desc' i = 0)
    (horphan : ∀ p < procSize, (pro p).state = running → (pro p).pid ≠ (pro i).ppid) :
    Delivery pro' desc' g exits reports := by
  obtain ⟨hip, his⟩ := hsame
  have hrunne : ∀ q, (pro' q).state = running → q ≠ i := by
    rintro q hq rfl
    exact his hq
  have hpend : ∀ q < procSize, q ≠ i → (pro q).state = running →
      ∀ j, PendingChild pro' desc' q j ↔ PendingChild pro desc q j := by
    intro q hq hqi hqr j
    constructor
    · rintro ⟨hlt, hd, hst, hpar, hpr⟩
      have hji : j ≠ i := by
        rintro rfl
        omega
      rw [(hother j hji).1] at hst hpar hpr
      rw [(hother q hqi).1] at hpar hpr
      exact ⟨hlt, (hother j hji).2 ▸ hd, hst, hpar, hpr⟩
    · rintro ⟨hlt, hd, hst, hpar, hpr⟩
      have hji : j ≠ i := by
        rintro rfl
        exact horphan q hq hqr hpar.symm
      have hj := (hother j hji).1
      have hqo := (hother q hqi).1
      exact ⟨hlt, (hother j hji).2.trans hd, hj ▸ hst, by rw [hj, hqo]; exact hpar,
        by rw [hj, hqo]; exact hpr⟩
  refine ⟨h.exit_lt, h.exit_nodup, ?_, ?_, h.report_exit, ?_, h.report_nodup, ?_, ?_, ?_⟩
  · intro e he j hj hje
    by_cases hji : j = i
    · subst hji
      exact his
    · rw [(hother j hji).1] at hje ⊢
      exact h.exit_stopped e he j hj hje
  · intro e he q hq hqr hqe
    have hqi := hrunne q hqr
    rw [(hother q hqi).1] at hqr hqe
    rcases h.exit_pending e he q hq hqr hqe with hl | ⟨j, hj, hd, hz, hjp, hjpp⟩
    · exact .inl hl
    · have hji : j ≠ i := by
        rintro rfl
        exact horphan q hq hqr (hqe.trans hjpp.symm)
      obtain ⟨hjo, hjd⟩ := hother j hji
      exact .inr ⟨j, hj, hjd.trans hd, by rw [hjo]; exact hz, by rw [hjo]; exact hjp,
        by rw [hjo]; exact hjpp⟩
  · intro r hr j hj
    by_cases hji : j = i
    · subst hji
      rw [hip]
      exact h.report_gone r hr j hj
    · rw [(hother j hji).1]
      exact h.report_gone r hr j hj
  · intro r hr q hq hqr hqs
    have hqi := hrunne q hqr
    rw [(hother q hqi).1] at hqr hqs ⊢
    exact h.report_stub r hr q hq hqr hqs
  · intro q hq hqr hqz hqs
    have hqi := hrunne q hqr
    rw [(hother q hqi).1] at hqr hqz hqs ⊢
    obtain ⟨j, hj, hjs, he⟩ := h.signal_exit q hq hqr hqz hqs
    have hji : j ≠ i := by
      rintro rfl
      exact horphan q hq hqr hj.ppid.symm
    refine ⟨j, (hpend q hq hqi hqr j).mpr hj, ?_, ?_⟩
    · rw [(hother j hji).1]; exact hjs
    · rw [(hother j hji).1]; exact he
  · intro q hq hqr j hj
    have hqi := hrunne q hqr
    rw [(hother q hqi).1] at hqr ⊢
    have hjold := (hpend q hq hqi hqr j).mp hj
    have hji : j ≠ i := by
      rintro rfl
      exact horphan q hq hqr hjold.ppid.symm
    rw [(hother j hji).1]
    exact h.pending_signal q hq hqr j hjold

end Delivery

/-! ## The end of a process -/

/-- The process in slot `a` ends with `status` and tells its parent, which has nothing pending. -/
structure Exited (pro pro' : Nat → Pcb) (desc : Nat → Nat) (a status : Nat) (n : Int) : Prop where
  lt : a < procSize
  ran : (pro a).state = running
  descriptor : desc a = 1
  self : (pro' a).pid = (pro a).pid ∧ (pro' a).ppid = (pro a).ppid ∧ (pro' a).state = zombie
  others : ∀ j, j ≠ a → (pro' j).pid = (pro j).pid ∧ (pro' j).ppid = (pro j).ppid ∧
    (pro' j).state = (pro j).state ∧ (pro' j).waitstate = (pro j).waitstate ∧
    (pro' j).waitingfor = (pro j).waitingfor
  told : ∀ p < procSize, p ≠ a → (pro p).state = running → (pro p).pid = (pro a).ppid →
    (pro' p).sigchildState = n ∧ (pro' p).signallingChild = (pro a).pid
  quiet : ∀ p < procSize, p ≠ a → (pro p).state = running → (pro p).pid ≠ (pro a).ppid →
    (pro' p).sigchildState = (pro p).sigchildState ∧
    (pro' p).signallingChild = (pro p).signallingChild
  clean : ∀ p < procSize, (pro p).state = running → (pro p).pid = (pro a).ppid →
    (∀ j, ¬ PendingChild pro desc p j) ∧
    (((pro p).waitstate = waitingToDie → (pro a).pid = toUint64 (pro p).waitingfor) →
      n = 0 ∧ status = 0)

namespace Exited

variable {pro pro' : Nat → Pcb} {desc : Nat → Nat} {g q status : Nat} {n : Int}
  {exits : List ExitRecord} {reports : List Report} {e : ExitRecord} {r : Report}

section

variable (hs : Exited pro pro' desc a status n)

include hs

theorem running_ne (hq : (pro' q).state = running) : q ≠ a := by
  rintro rfl
  exact absurd (hs.self.2.2.symm.trans hq) (by decide)

theorem zombie_ne (hz : (pro j).state = zombie) : j ≠ a := by
  rintro rfl
  exact absurd (hs.ran.symm.trans hz) (by decide)

theorem pending_iff (hqa : q ≠ a) (hja : j ≠ a) :
    PendingChild pro' desc q j ↔ PendingChild pro desc q j := by
  obtain ⟨hq1, -, -, hq4, hq5⟩ := hs.others q hqa
  obtain ⟨hj1, hj2, hj3, -⟩ := hs.others j hja
  constructor
  all_goals
    rintro ⟨h1, h2, h3, h4, h5⟩
    refine ⟨h1, h2, by omega, by omega, fun hw => ?_⟩
  · have := h5 (hq4.trans hw)
    rwa [hj1, hq5] at this
  · rw [hj1, hq5]
    exact h5 (hq4.symm.trans hw)

/-- The process is pending at its parent. -/
theorem pending_self (hqa : q ≠ a) (hqp : (pro q).pid = (pro a).ppid)
    (hrel : (pro q).waitstate = waitingToDie → (pro a).pid = toUint64 (pro q).waitingfor) :
    PendingChild pro' desc q a := by
  obtain ⟨hq1, -, -, hq4, hq5⟩ := hs.others q hqa
  obtain ⟨hap, happ, has⟩ := hs.self
  refine ⟨hs.lt, hs.descriptor, has, by omega, fun hw => ?_⟩
  rw [hap, hq5]
  exact hrel (hq4.symm.trans hw)

end

variable (hs : Exited pro pro' desc a status n) (h : Delivery pro desc g exits reports)

include hs h

theorem exit_nodup :
    ((⟨(pro a).pid, (pro a).ppid, status⟩ :: exits).map ExitRecord.pid).Nodup := by
  rw [List.map_cons, List.nodup_cons]
  refine ⟨?_, h.exit_nodup⟩
  rw [List.mem_map]
  rintro ⟨e, he, hep⟩
  exact h.exit_stopped e he a hs.lt hep.symm hs.ran

theorem exit_stopped (htab : PcbInv pro g)
    (he : e ∈ ⟨(pro a).pid, (pro a).ppid, status⟩ :: exits) (hj : j < procSize)
    (hje : (pro' j).pid = e.pid) : (pro' j).state ≠ running := by
  by_cases hja : j = a
  · subst hja
    rw [hs.self.2.2]
    decide
  · obtain ⟨hj1, -, hj3, -⟩ := hs.others j hja
    rw [hj1] at hje
    rw [hj3]
    rcases List.mem_cons.mp he with rfl | he
    · have hpos := htab.pid_pos a hs.lt hs.ran
      exact absurd (htab.pid_inj j hj a hs.lt hje (by rw [hje]; exact hpos)) hja
    · exact h.exit_stopped e he j hj hje

theorem exit_pending (he : e ∈ ⟨(pro a).pid, (pro a).ppid, status⟩ :: exits) (hq : q < procSize)
    (hqr : (pro' q).state = running) (hqe : (pro' q).pid = e.ppid) :
    (∃ r ∈ reports, r.parent = e.ppid ∧ r.child = e.pid) ∨
      ∃ j < procSize, desc j = 1 ∧ (pro' j).state = zombie ∧ (pro' j).pid = e.pid ∧
        (pro' j).ppid = e.ppid := by
  obtain ⟨hq1, -, hq3, -⟩ := hs.others q (hs.running_ne hqr)
  obtain ⟨hap, happ, has⟩ := hs.self
  rcases List.mem_cons.mp he with rfl | he
  · exact .inr ⟨a, hs.lt, hs.descriptor, has, hap, happ⟩
  · rcases h.exit_pending e he q hq (hq3 ▸ hqr) (hq1 ▸ hqe) with hl | ⟨j, hj, hjd, hz, hjp, hjpp⟩
    · exact .inl hl
    · obtain ⟨hj1, hj2, hj3, -⟩ := hs.others j (hs.zombie_ne hz)
      exact .inr ⟨j, hj, hjd, hj3.trans hz, hj1.trans hjp, hj2.trans hjpp⟩

theorem report_gone (hr : r ∈ reports) (hj : j < procSize) : (pro' j).pid ≠ r.child := by
  have hjp : (pro' j).pid = (pro j).pid := by
    by_cases hja : j = a
    · rw [hja]
      exact hs.self.1
    · exact (hs.others j hja).1
  rw [hjp]
  exact h.report_gone r hr j hj

/-- The signal that a running process now has is true. -/
theorem signal_exit (hq : q < procSize) (hqr : (pro' q).state = running)
    (hqz : (pro' q).sigchildState = 0)
    (hqs : (pro' q).waitstate = waitingToDie →
      (pro' q).signallingChild = toUint64 (pro' q).waitingfor) :
    ∃ j, PendingChild pro' desc q j ∧ (pro' j).pid = (pro' q).signallingChild ∧
      ∃ e ∈ ⟨(pro a).pid, (pro a).ppid, status⟩ :: exits,
        e.pid = (pro' j).pid ∧ e.ppid = (pro' q).pid ∧ e.status = 0 := by
  have hqa := hs.running_ne hqr
  obtain ⟨hq1, -, hq3, hq4, hq5⟩ := hs.others q hqa
  have hqr' := hq3 ▸ hqr
  by_cases hqp : (pro q).pid = (pro a).ppid
  · obtain ⟨-, hsc⟩ := hs.told q hq hqa hqr' hqp
    have hrel : (pro q).waitstate = waitingToDie → (pro a).pid = toUint64 (pro q).waitingfor := by
      intro hw
      have := hqs (hq4.trans hw)
      rwa [hsc, hq5] at this
    refine ⟨a, hs.pending_self hqa hqp hrel, by rw [hsc, hs.self.1], _, List.mem_cons_self, ?_⟩
    exact ⟨hs.self.1.symm, hqp.symm.trans hq1.symm, ((hs.clean q hq hqr' hqp).2 hrel).2⟩
  · obtain ⟨hss, hsc⟩ := hs.quiet q hq hqa hqr' hqp
    obtain ⟨j, hj, hjs, e, he, hep, hepp, hst⟩ := h.signal_exit q hq hqr' (hss ▸ hqz)
      (fun hw => by
        have := hqs (hq4.trans hw)
        rwa [hsc, hq5] at this)
    have hja := hs.zombie_ne hj.state
    obtain ⟨hj1, -⟩ := hs.others j hja
    exact ⟨j, (hs.pending_iff hqa hja).mpr hj, by omega, e, List.mem_cons_of_mem _ he, by omega,
      by omega, hst⟩

/-- It is the only one. -/
theorem pending_signal (hq : q < procSize) (hqr : (pro' q).state = running)
    (hj : PendingChild pro' desc q j) :
    (pro' q).sigchildState = 0 ∧ (pro' q).signallingChild = (pro' j).pid := by
  have hqa := hs.running_ne hqr
  obtain ⟨hq1, -, hq3, hq4, hq5⟩ := hs.others q hqa
  have hqr' := hq3 ▸ hqr
  by_cases hja : j = a
  · subst hja
    obtain ⟨hap, happ, -⟩ := hs.self
    have hqp : (pro q).pid = (pro j).ppid := by
      have := hj.ppid
      omega
    obtain ⟨hss, hsc⟩ := hs.told q hq hqa hqr' hqp
    have hrel : (pro q).waitstate = waitingToDie → (pro j).pid = toUint64 (pro q).waitingfor := by
      intro hw
      have := hj.program (hq4.trans hw)
      rwa [hap, hq5] at this
    rw [hss, hsc, hap]
    exact ⟨((hs.clean q hq hqr' hqp).2 hrel).1, rfl⟩
  · have hjold := (hs.pending_iff hqa hja).mp hj
    by_cases hqp : (pro q).pid = (pro a).ppid
    · exact absurd hjold ((hs.clean q hq hqr' hqp).1 j)
    · obtain ⟨hss, hsc⟩ := hs.quiet q hq hqa hqr' hqp
      rw [hss, hsc, (hs.others j hja).1]
      exact h.pending_signal q hq hqr' j hjold

theorem delivery (htab : PcbInv pro g) :
    Delivery pro' desc g (⟨(pro a).pid, (pro a).ppid, status⟩ :: exits) reports where
  exit_lt e he := by
    rcases List.mem_cons.mp he with rfl | he
    · exact ⟨Nat.pos_of_ne_zero (htab.pid_pos a hs.lt hs.ran), htab.pid_lt a hs.lt,
        htab.ppid_lt a hs.lt⟩
    · exact h.exit_lt e he
  exit_nodup := hs.exit_nodup h
  exit_stopped _ he _ hj hje := hs.exit_stopped h htab he hj hje
  exit_pending _ he _ hq hqr hqe := hs.exit_pending h he hq hqr hqe
  report_exit r hr := by
    obtain ⟨e, he, hre⟩ := h.report_exit r hr
    exact ⟨e, List.mem_cons_of_mem _ he, hre⟩
  report_gone _ hr _ hj := hs.report_gone h hr hj
  report_nodup := h.report_nodup
  report_stub r hr q hq hqr hqs := by
    obtain ⟨hq1, -, hq3, hq4, hq5⟩ := hs.others q (hs.running_ne hqr)
    rw [hq1, hq5]
    exact h.report_stub r hr q hq (hq3 ▸ hqr) (hq4 ▸ hqs)
  signal_exit _ hq hqr hqz hqs := hs.signal_exit h hq hqr hqz hqs
  pending_signal _ hq hqr _ hj := hs.pending_signal h hq hqr hj

end Exited

/-! ## The end of a wait -/

/-- A wait call of `a` ends: the child `i` that had signalled is reported and wiped. -/
structure Reported (pro pro' : Nat → Pcb) (desc desc' : Nat → Nat) (a i : Nat) : Prop where
  lt : a < procSize
  ran : (pro a).state = running
  waits : (pro a).waitstate ≠ waitingToDie
  child : PendingChild pro desc a i
  wiped : pro' i = Pcb.zero
  caller : (pro' a).pid = (pro a).pid ∧ (pro' a).state = running ∧ (pro' a).waitstate = 0 ∧
    (pro' a).sigchildState ≠ 0
  others : ∀ j, j ≠ i → j ≠ a → pro' j = pro j
  descriptor : desc' i = 0
  descriptors : ∀ j, j ≠ i → desc' j = desc j

namespace Reported

variable {pro pro' : Nat → Pcb} {desc desc' : Nat → Nat} {g q : Nat} {exits : List ExitRecord}
  {reports : List Report} {e e' : ExitRecord} {r : Report}

section

variable (hs : Reported pro pro' desc desc' a i)

include hs

theorem running_ne (hq : (pro' q).state = running) : q ≠ i := by
  rintro rfl
  rw [hs.wiped] at hq
  exact absurd hq (by decide)

theorem zombie_ne (hz : (pro j).state = zombie) : j ≠ a := by
  rintro rfl
  exact absurd (hs.ran.symm.trans hz) (by decide)

theorem pending_ne (hj : PendingChild pro' desc' q j) : j ≠ i ∧ j ≠ a := by
  refine ⟨?_, ?_⟩
  · rintro rfl
    have := hj.descriptor
    have := hs.descriptor
    omega
  · rintro rfl
    exact absurd (hs.caller.2.1.symm.trans hj.state) (by decide)

theorem pid_ne (htab : PcbInv pro g) (hq : q < procSize) (hqa : q ≠ a)
    (hqr : (pro q).state = running) : (pro q).pid ≠ (pro a).pid :=
  fun heq => hqa (htab.pid_inj q hq a hs.lt heq (htab.pid_pos q hq hqr))

theorem pending_iff (htab : PcbInv pro g) (hq : q < procSize) (hqi : q ≠ i) (hqa : q ≠ a)
    (hqr : (pro q).state = running) :
    PendingChild pro' desc' q j ↔ PendingChild pro desc q j := by
  have hqo := hs.others q hqi hqa
  constructor
  · intro hj
    obtain ⟨hji, hja⟩ := hs.pending_ne hj
    obtain ⟨h1, h2, h3, h4, h5⟩ := hj
    have hjo := hs.others j hji hja
    rw [hjo] at h3 h4 h5
    rw [hqo] at h4 h5
    exact ⟨h1, hs.descriptors j hji ▸ h2, h3, h4, h5⟩
  · rintro ⟨h1, h2, h3, h4, h5⟩
    have hji : j ≠ i := by
      rintro rfl
      exact hs.pid_ne htab hq hqa hqr (h4.symm.trans hs.child.ppid)
    have hjo := hs.others j hji (hs.zombie_ne h3)
    exact ⟨h1, (hs.descriptors j hji).trans h2, hjo ▸ h3, by rw [hjo, hqo]; exact h4,
      by rw [hjo, hqo]; exact h5⟩

end

variable (hs : Reported pro pro' desc desc' a i) (h : Delivery pro desc g exits reports)

include hs h

theorem exit_stopped (he : e ∈ exits) (hj : j < procSize) (hje : (pro' j).pid = e.pid) :
    (pro' j).state ≠ running := by
  by_cases hji : j = i
  · subst hji
    rw [hs.wiped]
    decide
  · by_cases hja : j = a
    · subst hja
      exact absurd hs.ran (h.exit_stopped e he j hj (hs.caller.1.symm.trans hje))
    · rw [hs.others j hji hja] at hje ⊢
      exact h.exit_stopped e he j hj hje

theorem exit_pending {status : Nat} (he : e ∈ exits) (hq : q < procSize)
    (hqr : (pro' q).state = running) (hqe : (pro' q).pid = e.ppid) :
    (∃ r ∈ ⟨(pro a).pid, (pro i).pid, status⟩ :: reports,
      r.parent = e.ppid ∧ r.child = e.pid) ∨
      ∃ j < procSize, desc' j = 1 ∧ (pro' j).state = zombie ∧ (pro' j).pid = e.pid ∧
        (pro' j).ppid = e.ppid := by
  have hqi := hs.running_ne hqr
  have hqold : (pro q).state = running ∧ (pro q).pid = e.ppid := by
    by_cases hqa : q = a
    · subst hqa
      exact ⟨hs.ran, hs.caller.1.symm.trans hqe⟩
    · rw [hs.others q hqi hqa] at hqr hqe
      exact ⟨hqr, hqe⟩
  rcases h.exit_pending e he q hq hqold.1 hqold.2 with ⟨r, hr, hre⟩ | ⟨j, hj, hd, hz, hjp, hjpp⟩
  · exact .inl ⟨r, List.mem_cons_of_mem _ hr, hre⟩
  · by_cases hji : j = i
    · subst hji
      refine .inl ⟨_, List.mem_cons_self, ?_, hjp⟩
      rw [← hs.child.ppid, hjpp]
    · have hjo := hs.others j hji (hs.zombie_ne hz)
      exact .inr ⟨j, hj, (hs.descriptors j hji).trans hd, by rw [hjo]; exact hz,
        by rw [hjo]; exact hjp, by rw [hjo]; exact hjpp⟩

theorem report_gone {status : Nat} (htab : PcbInv pro g) (hpos : 0 < (pro i).pid)
    (hr : r ∈ ⟨(pro a).pid, (pro i).pid, status⟩ :: reports) (hj : j < procSize) :
    (pro' j).pid ≠ r.child := by
  by_cases hji : j = i
  · have hchild : 0 < r.child := by
      rcases List.mem_cons.mp hr with rfl | hr
      · exact hpos
      · exact (h.report_lt hr).1
    rw [hji, hs.wiped]
    exact hchild.ne
  · have hjp : (pro' j).pid = (pro j).pid := by
      by_cases hja : j = a
      · rw [hja]
        exact hs.caller.1
      · rw [hs.others j hji hja]
    rw [hjp]
    rcases List.mem_cons.mp hr with rfl | hr
    · intro heq
      exact hji (htab.pid_inj j hj i hs.child.lt heq (by simp only at heq; omega))
    · exact h.report_gone r hr j hj

theorem report_nodup {status : Nat} :
    ((⟨(pro a).pid, (pro i).pid, status⟩ :: reports).map
      fun r : Report => (r.parent, r.child)).Nodup := by
  rw [List.map_cons, List.nodup_cons]
  refine ⟨?_, h.report_nodup⟩
  rw [List.mem_map]
  rintro ⟨r, hr, heq⟩
  have hc : r.child = (pro i).pid := congrArg Prod.snd heq
  exact h.report_gone r hr i hs.child.lt hc.symm

theorem report_stub {status : Nat} (htab : PcbInv pro g)
    (hr : r ∈ ⟨(pro a).pid, (pro i).pid, status⟩ :: reports) (hq : q < procSize)
    (hqr : (pro' q).state = running) (hqs : (pro' q).waitstate = waitingToDie) :
    ¬ (r.parent = (pro' q).pid ∧ r.child = toUint64 (pro' q).waitingfor) := by
  rintro ⟨hrp, hrc⟩
  have hqi := hs.running_ne hqr
  by_cases hqa : q = a
  · subst hqa
    exact absurd (hs.caller.2.2.1.symm.trans hqs) (by decide)
  · rw [hs.others q hqi hqa] at hqr hqs hrp hrc
    rcases List.mem_cons.mp hr with rfl | hr
    · exact hs.pid_ne htab hq hqa hqr hrp.symm
    · exact h.report_stub r hr q hq hqr hqs ⟨hrp, hrc⟩

theorem signal_exit (htab : PcbInv pro g) (hq : q < procSize) (hqr : (pro' q).state = running)
    (hqz : (pro' q).sigchildState = 0)
    (hqs : (pro' q).waitstate = waitingToDie →
      (pro' q).signallingChild = toUint64 (pro' q).waitingfor) :
    ∃ j, PendingChild pro' desc' q j ∧ (pro' j).pid = (pro' q).signallingChild ∧
      ∃ e ∈ exits, e.pid = (pro' j).pid ∧ e.ppid = (pro' q).pid ∧ e.status = 0 := by
  have hqi := hs.running_ne hqr
  by_cases hqa : q = a
  · subst hqa
    exact absurd hqz hs.caller.2.2.2
  · rw [hs.others q hqi hqa] at hqr hqz hqs ⊢
    obtain ⟨j, hj, hjs, hje⟩ := h.signal_exit q hq hqr hqz hqs
    have hjn := (hs.pending_iff htab hq hqi hqa hqr).mpr hj
    obtain ⟨hji, hja⟩ := hs.pending_ne hjn
    have hjo := hs.others j hji hja
    exact ⟨j, hjn, by rw [hjo]; exact hjs, by rw [hjo]; exact hje⟩

/-- The caller has no other child to wait for. -/
theorem pending_signal (htab : PcbInv pro g) (hpos : 0 < (pro i).pid) (hq : q < procSize)
    (hqr : (pro' q).state = running) (hj : PendingChild pro' desc' q j) :
    (pro' q).sigchildState = 0 ∧ (pro' q).signallingChild = (pro' j).pid := by
  have hqi := hs.running_ne hqr
  obtain ⟨hji, hja⟩ := hs.pending_ne hj
  have hjo := hs.others j hji hja
  by_cases hqa : q = a
  · subst hqa
    obtain ⟨h1, h2, h3, h4, -⟩ := hj
    rw [hjo] at h3 h4
    have hjold : PendingChild pro desc q j :=
      ⟨h1, hs.descriptors j hji ▸ h2, h3, h4.trans hs.caller.1, fun hw => absurd hw hs.waits⟩
    have hj2 := (h.pending_signal q hq hs.ran j hjold).2
    have hi2 := (h.pending_signal q hq hs.ran i hs.child).2
    exact absurd (htab.pid_inj j h1 i hs.child.lt (hj2.symm.trans hi2) (by omega)) hji
  · rw [hs.others q hqi hqa] at hqr ⊢
    rw [hjo]
    exact h.pending_signal q hq hqr j ((hs.pending_iff htab hq hqi hqa hqr).mp hj)

theorem delivery (htab : PcbInv pro g) (he : e ∈ exits) (hep : e.pid = (pro i).pid)
    (hepp : e.ppid = (pro a).pid) :
    Delivery pro' desc' g exits (⟨(pro a).pid, (pro i).pid, e.status⟩ :: reports) where
  exit_lt := h.exit_lt
  exit_nodup := h.exit_nodup
  exit_stopped _ he' _ hj hje := hs.exit_stopped h he' hj hje
  exit_pending _ he' _ hq hqr hqe := hs.exit_pending h he' hq hqr hqe
  report_exit r hr := by
    rcases List.mem_cons.mp hr with rfl | hr
    · exact ⟨e, he, hepp, hep, rfl⟩
    · exact h.report_exit r hr
  report_gone _ hr _ hj := hs.report_gone h htab (hep ▸ (h.exit_lt e he).1) hr hj
  report_nodup := hs.report_nodup h
  report_stub _ hr _ hq hqr hqs := hs.report_stub h htab hr hq hqr hqs
  signal_exit _ hq hqr hqz hqs := hs.signal_exit h htab hq hqr hqz hqs
  pending_signal _ hq hqr _ hj := hs.pending_signal h htab (hep ▸ (h.exit_lt e he).1) hq hqr hj

end Reported

/-! ## Steps and runs -/

/-- The end of slot `a` with `status` overwrites no notification that its parent still
has to see, and the parent understands it. -/
def Notifies (s : ProcState) (a : Nat) (status : Nat) : Prop :=
  ∀ p < procSize, (s.allPro p).state = running → (s.allPro p).pid = (s.allPro a).ppid →
    (∀ j, ¬ PendingChild s.allPro s.procDescriptor p j) ∧
    (((s.allPro p).waitstate = waitingToDie →
      (s.allPro a).pid = toUint64 (s.allPro p).waitingfor) → status = 0)

/-- The steps at which the one signal slot of a parent is enough: a process whose parent
lives ends with status 0 and when no other child of that parent is still to be
reported, `fork` is called with no ended child to report, and a program's pid fits
the `int` in which its stub remembers it. -/
def notifies : ProcLabel → ProcState → Prop
  | .exit status, s => ∀ a, s.active = some a → Notifies s a status
  | .fork, s => ∀ a, s.active = some a → ∀ j, ¬ PendingChild s.allPro s.procDescriptor a j
  | .exec _, s => s.globalPid < 2 ^ 31
  | .dispatch, s => ∀ x xs, s.queue = x :: xs → stubDone (s.allPro x) → Notifies s x 0
  | l, _ => l.ordinary

theorem notifies_ordinary {l : ProcLabel} (h : notifies l s) : l.ordinary := by
  cases l with
  | kill pid => exact h
  | execFail => exact h
  | _ => trivial

theorem exitStatus_eq {exits : List ExitRecord} {e : ExitRecord}
    (hn : (exits.map ExitRecord.pid).Nodup) (he : e ∈ exits) :
    exitStatus exits e.pid = e.status := by
  induction exits with
  | nil => simp at he
  | cons d ds ih =>
      rw [List.map_cons, List.nodup_cons] at hn
      rcases List.mem_cons.mp he with rfl | hmem
      · simp [exitStatus]
      · have hne : d.pid ≠ e.pid := fun heq => hn.1 (heq ▸ List.mem_map_of_mem hmem)
        have := ih hn.2 hmem
        simpa [exitStatus, List.find?_cons, hne] using this

/-- `Delivery` of a history. -/
def History.Delivered (h : History) : Prop :=
  Delivery h.proc.allPro h.proc.procDescriptor h.proc.globalPid h.exits h.reports

namespace History.Delivered

variable {h : History}

/-- The running process goes to the end of the queue. -/
theorem requeue {p : Pcb → Pcb} (hd : h.Delivered)
    (hp : (p (h.proc.allPro a)).pid = (h.proc.allPro a).pid ∧
      (p (h.proc.allPro a)).ppid = (h.proc.allPro a).ppid ∧
      (p (h.proc.allPro a)).state = (h.proc.allPro a).state ∧
      (p (h.proc.allPro a)).sigchildState = (h.proc.allPro a).sigchildState ∧
      (p (h.proc.allPro a)).signallingChild = (h.proc.allPro a).signallingChild)
    (hws : (h.proc.allPro a).waitstate ≠ waitingToDie ∧
      (p (h.proc.allPro a)).waitstate ≠ waitingToDie) :
    Delivery ((h.proc.pushQ a).modPro a p).allPro h.proc.procDescriptor h.proc.globalPid
      h.exits h.reports := by
  refine Delivery.congr hd ?_ ?_
  all_goals
    intro j _
    by_cases hja : j = a
  · subst hja
    rw [ProcState.modPro_same]
    exact ⟨hp.1, hp.2.1, hp.2.2.1, rfl, hp.2.2.2⟩
  · rw [ProcState.modPro_other hja]
    exact ⟨rfl, rfl, rfl, rfl, rfl, rfl⟩
  · subst hja
    rw [ProcState.modPro_same]
    exact ⟨⟨fun hw => absurd hw hws.2, fun hw => absurd hw hws.1⟩, fun hw => absurd hw hws.1⟩
  · rw [ProcState.modPro_other hja]
    exact ⟨Iff.rfl, fun _ => rfl⟩

theorem endProcess {status : Nat} {n : Int} (hd : h.Delivered)
    (htab : PcbInv h.proc.allPro h.proc.globalPid) (hlt : a < procSize)
    (hrun : (h.proc.allPro a).state = running) (hdesc : h.proc.procDescriptor a = 1)
    (hn : Notifies h.proc a status) (hst : status = 0 → n = 0) :
    Delivery (h.proc.endProcess a n).allPro h.proc.procDescriptor h.proc.globalPid
      (⟨(h.proc.allPro a).pid, (h.proc.allPro a).ppid, status⟩ :: h.exits) h.reports := by
  have hpid := htab.pid_pos a hlt hrun
  refine Exited.delivery (n := n) ⟨hlt, hrun, hdesc, ?_, ?_, ?_, ?_, ?_⟩ hd htab
  · rw [ProcInv.endProcess_self htab hlt hpid]
    exact ⟨rfl, rfl, rfl⟩
  · intro j hj
    obtain ⟨h1, h2, -, h4, h5, h6⟩ := ProcInv.endProcess_state (n := n) htab hlt hpid hj
    exact ⟨h2, h4, h1, h5, h6⟩
  · intro p hp hpa hpr hpp
    exact (ProcInv.endProcess_told htab hlt hpid hp hpa (htab.pid_pos p hp hpr)).1 hpp
  · intro p hp hpa hpr hpp
    rw [(ProcInv.endProcess_told htab hlt hpid hp hpa (htab.pid_pos p hp hpr)).2 hpp]
    exact ⟨rfl, rfl⟩
  · intro p hp hpr hpp
    obtain ⟨h1, h2⟩ := hn p hp hpr hpp
    exact ⟨h1, fun hrel => ⟨hst (h2 hrel), h2 hrel⟩⟩

/-- A stub is retired: it ends with its program's status, which is 0, and the program's
slot is given up. -/
theorem retire {u : ProcState} (hd : h.Delivered) (hi : ProcInv h.proc)
    (hq : h.proc.queue = x :: xs) (hdone : stubDone (h.proc.allPro x))
    (hn : Notifies h.proc x 0) (hu : { h.proc.popQ with active := some x }.killProc = some u) :
    Delivery u.allPro u.procDescriptor u.globalPid
      (⟨(h.proc.allPro x).pid, (h.proc.allPro x).ppid,
        exitStatus h.exits (h.proc.allPro x).signallingChild⟩ :: h.exits) h.reports := by
  obtain ⟨hlt, hdesc, hrun⟩ := hi.ring.run x (by simp [hq])
  have hpid := hi.table.pid_pos x hlt hrun
  obtain ⟨i, hil, hne, hip, hnr, hall, hde, -, -, -, hg, -⟩ :=
    ProcInv.retire_eff hi hq hdone.2.2 hu
  obtain ⟨j, hj, hjs, e, he, hep, -, hst⟩ :=
    Delivery.signal_exit hd x hlt hrun hdone.2.2 (fun _ => hdone.2.1)
  have hji : j = i := hi.table.pid_inj j hj.lt i hil (hjs.trans hip.symm) (by
    have := hi.table.signal_ne x hlt hrun hdone.2.2
    omega)
  subst hji
  have hstatus : exitStatus h.exits (h.proc.allPro x).signallingChild = 0 := by
    rw [← hjs, ← hep, exitStatus_eq (Delivery.exit_nodup hd) he, hst]
  obtain ⟨hs1, hs2, -, hs4, -⟩ := ProcInv.endProcess_state (n := 0) hi.table hlt hpid hne
  rw [hstatus, hg]
  refine Delivery.reaped (i := j) (hd.endProcess hi.table hlt hrun hdesc hn (fun _ => rfl)) hj.lt
    ?_ ?_ ?_ ?_
  · rw [hall, Function.update_self]
    exact ⟨rfl, fun hr => absurd (show dead = running from hr) (by decide)⟩
  · intro k hk
    rw [hall, hde, Function.update_of_ne hk, Function.update_of_ne hk]
    exact ⟨rfl, rfl⟩
  · rw [hde, Function.update_self]
  · intro p hp hpr hpp
    have hpx : p ≠ x := by
      rintro rfl
      rw [ProcInv.endProcess_self hi.table hp hpid] at hpr
      exact absurd hpr (by simp [ProcState.exitPcb])
    obtain ⟨hp1, hp2, -⟩ := ProcInv.endProcess_state (n := 0) hi.table hlt hpid hpx
    rw [hs4, hp2, hj.ppid] at hpp
    rw [hp1] at hpr
    exact hpx (hi.table.pid_inj p hp x hlt hpp (hi.table.pid_pos p hp hpr))

theorem dispatch (hd : h.Delivered) (hi : ProcInv h.proc)
    (hn : notifies .dispatch h.proc) (hs : h.proc.dispatch = some t) :
    Delivery t.allPro t.procDescriptor t.globalPid (newExits h .dispatch ++ h.exits)
      h.reports := by
  obtain ⟨x, xs, hq, hcases⟩ := ProcInv.dispatch_cases hi hs
  have hexits : newExits h .dispatch = if stubDone (h.proc.allPro x) then
      [⟨(h.proc.allPro x).pid, (h.proc.allPro x).ppid,
        exitStatus h.exits (h.proc.allPro x).signallingChild⟩] else [] := by
    simp [newExits, hq]
  rw [hexits]
  rcases hcases with ⟨rfl, hws⟩ | ⟨rfl, hws⟩ | ⟨hws, hsc, hss, u, hu, rfl⟩ | ⟨rfl, hws, hnd⟩
  · rw [if_neg (fun hst => by rw [hst.1] at hws; exact absurd hws (by decide))]
    exact hd
  · rw [if_neg (fun hst => by rw [hst.1] at hws; exact absurd hws (by decide))]
    exact hd
  · rw [if_pos ⟨hws, hsc, hss⟩]
    show Delivery u.allPro u.procDescriptor u.globalPid _ _
    exact hd.retire hi hq ⟨hws, hsc, hss⟩ (hn x xs hq ⟨hws, hsc, hss⟩) hu
  · rw [if_neg (fun hst => hnd hst.2)]
    exact hd

theorem syscallFork (hd : h.Delivered) (hi : ProcInv h.proc) (ha : ActiveRun h.proc a)
    (hu : h.proc.point = .user) (hn : ∀ j, ¬ PendingChild h.proc.allPro h.proc.procDescriptor a j)
    (hs : h.proc.syscallFork = some t) :
    Delivery t.allPro t.procDescriptor t.globalPid h.exits h.reports := by
  have heff := ProcInv.syscallFork_eff hi ha hs
  have hws := ha.user hu
  rw [heff.globalPid]
  refine NewChild.delivery ⟨heff.free, heff.ne, ha.state, fun j hjf hja => heff.allPro_other hjf hja,
    ?_, ?_, ?_, ?_, ?_, ?_⟩ hd hi.table
  · intro j hj
    rw [heff.procDescriptor, Function.update_of_ne hj]
  · rw [heff.allPro_child]
    exact ⟨rfl, rfl, rfl, by simp [ProcInv.forkPcb]⟩
  · rw [heff.allPro_parent]
    exact ⟨rfl, rfl⟩
  · rw [heff.allPro_parent]
    exact fun hsig => absurd hsig.1 one_ne_zero
  · rintro j ⟨h1, h2, h3, h4, -⟩
    have hjf : j ≠ h.proc.freeSlot := by
      rintro rfl
      rw [heff.allPro_child] at h3
      exact absurd h3 (by simp [ProcInv.forkPcb])
    have hja : j ≠ a := by
      rintro rfl
      rw [heff.allPro_parent] at h3
      exact absurd h3 (by simp)
    rw [heff.procDescriptor, Function.update_of_ne hjf] at h2
    rw [heff.allPro_other hjf hja] at h3 h4
    rw [heff.allPro_parent] at h4
    exact hn j ⟨h1, h2, h3, h4, fun hw => by rw [hw] at hws; exact absurd hws (by decide)⟩
  · rw [heff.allPro_parent]
    exact fun hw => absurd (hws.symm.trans hw) (by decide)

theorem syscallExec {file : List Char} (hd : h.Delivered) (hi : ProcInv h.proc)
    (ha : ActiveRun h.proc a) (hg : h.proc.globalPid < 2 ^ 31)
    (hs : h.proc.syscallExec file = some t) :
    Delivery t.allPro t.procDescriptor t.globalPid h.exits h.reports := by
  have heff := ProcInv.syscallExec_eff hi ha hs
  have hback := toUint64_toInt32 (.inl hg)
  rw [heff.globalPid]
  refine NewChild.delivery ⟨heff.free, heff.ne, ha.state, fun j hjf hja => heff.allPro_other hjf hja,
    ?_, ?_, ?_, ?_, ?_, ?_⟩ hd hi.table
  · intro j hj
    rw [heff.procDescriptor, Function.update_of_ne hj]
  · rw [heff.allPro_child]
    exact ⟨rfl, rfl, rfl, by simp [ProcInv.execPcb]⟩
  · rw [heff.allPro_parent]
    exact ⟨rfl, ha.state⟩
  · rw [heff.allPro_parent]
    rintro ⟨-, hsig⟩
    have hlt := hi.table.signal_lt a ha.lt
    have := hsig rfl
    simp only [hback] at this
    omega
  · rintro j ⟨h1, h2, h3, -, h5⟩
    rw [heff.allPro_parent] at h5
    have hpid := h5 rfl
    simp only [hback] at hpid
    have hjf : j ≠ h.proc.freeSlot := by
      rintro rfl
      rw [heff.allPro_child] at h3
      exact absurd h3 (by simp [ProcInv.execPcb])
    have hja : j ≠ a := by
      rintro rfl
      rw [heff.allPro_parent] at h3
      exact absurd (ha.state.symm.trans h3) (by decide)
    rw [heff.allPro_other hjf hja] at hpid
    have := hi.table.pid_lt j h1
    omega
  · rw [heff.allPro_parent]
    intro _
    simpa only using hback

/-- Where a wait call ends, the signalling child is a zombie child of the caller. -/
theorem waitDone_pending (hd : h.Delivered) (ha : ActiveRun h.proc a)
    (hw : h.proc.point = .waitLoop) (hdone : ProcState.waitDone (h.proc.allPro a)) :
    ∃ j, PendingChild h.proc.allPro h.proc.procDescriptor a j ∧
      (h.proc.allPro j).pid = (h.proc.allPro a).signallingChild ∧
      ∃ e ∈ h.exits, e.pid = (h.proc.allPro j).pid ∧ e.ppid = (h.proc.allPro a).pid ∧
        e.status = 0 :=
  Delivery.signal_exit hd a ha.lt ha.state hdone.1
    (fun hws => absurd ((ha.waitLoop hw).symm.trans hws) (by decide))

theorem resumeWait (hd : h.Delivered) (hi : ProcInv h.proc) (ha : ActiveRun h.proc a)
    (hw : h.proc.point = .waitLoop) (hs : h.proc.resumeWait = some t) :
    Delivery t.allPro t.procDescriptor t.globalPid h.exits
      (newReports h .resumeWait ++ h.reports) := by
  have hws : (h.proc.allPro a).waitstate ≠ waitingToDie := by
    rw [ha.waitLoop hw]
    decide
  rcases ProcInv.resumeWait_cases hi ha hw hs with
    ⟨hdone, i, hil, hip, hne, hall, hde, -, -, -, hg, -⟩ | ⟨hnd, rfl⟩
  · obtain ⟨j, hj, hjs, e, he, hep, hepp, hst⟩ := hd.waitDone_pending ha hw hdone
    have hnz := hi.table.signal_ne a ha.lt ha.state hdone.1
    have hji : j = i := hi.table.pid_inj j hj.lt i hil (hjs.trans hip.symm) (by omega)
    subst hji
    have hsno := hi.table.sno_eq j hil (by omega)
    have hrep : newReports h .resumeWait =
        [⟨(h.proc.allPro a).pid, (h.proc.allPro j).pid, e.status⟩] := by
      simp [newReports, ha.active, hdone, ProcState.waitResult, hip, hdone.1, hst, toUint64]
    rw [hrep, hg]
    refine Reported.delivery ⟨ha.lt, ha.state, hws, hj, ?_, ?_, ?_, ?_, ?_⟩ hd hi.table he hep hepp
    · rw [hall, Function.update_of_ne hne, Function.update_self]
    · rw [hall, Function.update_self]
      exact ⟨rfl, ha.state, rfl, fun hz => absurd (show (dead : Int) = 0 from hz) (by decide)⟩
    · intro k hkj hka
      rw [hall, Function.update_of_ne hka, Function.update_of_ne hkj]
    · rw [hde, hsno, Function.update_self]
    · intro k hkj
      rw [hde, hsno, Function.update_of_ne hkj]
  · have hrep : newReports h .resumeWait = [] := by
      simp [newReports, ha.active, hnd]
    rw [hrep]
    exact hd.requeue (p := fun p => { p with state := running })
      ⟨rfl, rfl, ha.state.symm, rfl, rfl⟩ ⟨hws, hws⟩

/-- One step under `notifies`. -/
theorem step {l : ProcLabel} {h' : History} (hd : h.Delivered) (hi : ProcInv h.proc)
    (hn : notifies l h.proc) (hs : historyStep l h = some h') : h'.Delivered := by
  unfold historyStep at hs
  rw [Option.map_eq_some_iff] at hs
  obtain ⟨t, hst, rfl⟩ := hs
  unfold procStep at hst
  split_ifs at hst with hpt
  unfold Delivered
  cases l with
  | fork =>
      obtain ⟨a, ha⟩ := hi.active_user hpt
      exact hd.syscallFork hi ha hpt (hn a ha.active) hst
  | yield =>
      obtain ⟨a, ha⟩ := hi.active_user hpt
      have hws : (h.proc.allPro a).waitstate ≠ waitingToDie := by
        rw [ha.user hpt]
        decide
      rw [← Option.some.inj hst]
      have := hd.requeue (a := a) (p := fun p => { p with state := running })
        ⟨rfl, rfl, ha.state.symm, rfl, rfl⟩ ⟨hws, hws⟩
      rw [show ProcLabel.yield.run h.proc = some h.proc.syscallSwitch from rfl] at hst
      simpa [ProcInv.syscallSwitch_eff hi ha hpt, newExits, newReports] using this
  | exit status =>
      obtain ⟨a, ha⟩ := hi.active_user hpt
      have hend := hd.endProcess (n := toInt32 status) hi.table ha.lt ha.state ha.descriptor
        (hn a ha.active) (fun hz => by rw [hz]; rfl)
      obtain ⟨hfd, -, -, -, hfg⟩ := endProcess_frame h.proc a (toInt32 status)
      rw [ProcInv.syscallExit_eff ha hst]
      simp only [newExits, newReports, ha.active, List.nil_append, List.singleton_append]
      rw [hfd, hfg]
      exact hend
  | wait pid =>
      obtain ⟨a, ha⟩ := hi.active_user hpt
      have hws : (h.proc.allPro a).waitstate ≠ waitingToDie := by
        rw [ha.user hpt]
        decide
      rcases ProcInv.syscallWait_eff hi ha hst with ⟨-, rfl⟩ | ⟨-, rfl⟩
      · exact hd
      · exact hd.requeue (p := fun p =>
            { p with waitstate := waitingToLive, waitingfor := toInt32 pid, state := running })
          ⟨rfl, rfl, ha.state.symm, rfl, rfl⟩
          ⟨hws, fun hw => absurd (show waitingToLive = waitingToDie from hw) (by decide)⟩
  | exec file =>
      obtain ⟨a, ha⟩ := hi.active_user hpt
      exact hd.syscallExec hi ha hn hst
  | execFail => exact hn.elim
  | kill pid => exact hn.elim
  | dispatch => exact hd.dispatch hi hn hst
  | resumeWait =>
      obtain ⟨a, ha⟩ := hi.active_waitLoop hpt
      exact hd.resumeWait hi ha hpt hst

end History.Delivered

theorem initHistory_delivered : initHistory.Delivered := by
  have hstate : ∀ j, (initProc.allPro j).state = running ∨ (initProc.allPro j).state = 0 := by
    intro j
    by_cases h0 : j = 0
    · subst h0
      exact .inl rfl
    · exact .inr (by simp [initProc, Function.update_of_ne h0, Pcb.zero])
  have hsig : ∀ j, (initProc.allPro j).state = running → (initProc.allPro j).sigchildState ≠ 0 := by
    intro j hr
    by_cases h0 : j = 0
    · subst h0
      decide
    · simp [initProc, Function.update_of_ne h0, Pcb.zero] at hr
  refine ⟨by simp [initHistory], by simp [initHistory], by simp [initHistory],
    by simp [initHistory], by simp [initHistory], by simp [initHistory], by simp [initHistory],
    by simp [initHistory], ?_, ?_⟩
  · intro p _ hr hz
    exact absurd hz (hsig p hr)
  · intro p _ _ j hj
    have hz : (initProc.allPro j).state = zombie := hj.state
    rcases hstate j with h | h <;> rw [h] at hz <;> exact absurd hz (by decide)

theorem notifies_inv {h : History} (hr : HistoryReach notifies h) :
    ProcInv h.proc ∧ h.Delivered := by
  refine hr.invariant (P := fun h => ProcInv h.proc ∧ h.Delivered) ?_ ?_
  · rintro _ rfl
    exact ⟨initProc_inv, initHistory_delivered⟩
  · rintro l h h' ⟨hi, hd⟩ ⟨hn, hst⟩
    refine ⟨?_, hd.step hi hn hst⟩
    have hk : ∀ pid, l ≠ .kill pid := by
      rintro pid rfl
      exact notifies_ordinary hn
    unfold historyStep at hst
    rw [Option.map_eq_some_iff] at hst
    obtain ⟨t, ht, rfl⟩ := hst
    exact hi.step hk ht

namespace History.Delivered

variable {h : History}

/-- A signalling child is in the table, so a wait call that ends comes back. -/
theorem resumeWait_some (hi : ProcInv h.proc) (ha : ActiveRun h.proc a)
    (hw : h.proc.point = .waitLoop) (hdone : ProcState.waitDone (h.proc.allPro a))
    (hj : j < procSize) (hjs : (h.proc.allPro j).pid = (h.proc.allPro a).signallingChild) :
    ∃ t, h.proc.resumeWait = some t ∧ t.point = .user := by
  have hslot : (h.proc.modPro a fun p => { p with waitstate := 0 }).slotOfPid
      (h.proc.allPro a).signallingChild < procSize := by
    refine firstSlot_lt hj ?_
    by_cases hja : j = a
    · subst hja
      simpa using hjs
    · rw [ProcState.modPro_other hja]
      simpa using hjs
  have hsome : ∃ t, h.proc.resumeWait = some t := by
    unfold ProcState.resumeWait
    simp only [ha.active, Option.bind_eq_bind, Option.bind_some, hdone, ↓reduceIte,
      ProcState.modPro_same, hslot.ne]
    exact ⟨_, rfl⟩
  obtain ⟨t, ht⟩ := hsome
  rcases ProcInv.resumeWait_cases hi ha hw ht with ⟨-, _, -, -, -, -, -, -, -, -, -, -, hpt⟩ | ⟨hn, -⟩
  · exact ⟨t, ht, hpt⟩
  · exact absurd hdone hn

theorem delivered (hd : h.Delivered) (hi : ProcInv h.proc) (hw : h.proc.point = .waitLoop)
    (ha : ActiveRun h.proc a) {e : ExitRecord} (he : e ∈ h.exits)
    (hm : Matches (h.proc.allPro a) e)
    (hr : ∀ r ∈ h.reports, ¬ (r.parent = e.ppid ∧ r.child = e.pid)) :
    ∃ e ∈ h.exits, Matches (h.proc.allPro a) e ∧
      (∀ r ∈ h.reports, ¬ (r.parent = e.ppid ∧ r.child = e.pid)) ∧
      ∃ t, h.proc.resumeWait = some t ∧ t.point = .user ∧
        ProcState.waitResult (h.proc.allPro a) = (e.pid, e.status) := by
  rcases Delivery.exit_pending hd e he a ha.lt ha.state hm.1.symm with
    ⟨r, hrm, hre⟩ | ⟨j, hj, hjd, hjz, hjp, hjpp⟩
  · exact absurd hre (hr r hrm)
  · have hws := ha.waitLoop hw
    have hpend : PendingChild h.proc.allPro h.proc.procDescriptor a j :=
      ⟨hj, hjd, hjz, hjpp.trans hm.1, fun h2 => absurd (hws.symm.trans h2) (by decide)⟩
    obtain ⟨hz, hs⟩ := Delivery.pending_signal hd a ha.lt ha.state j hpend
    have hdone : ProcState.waitDone (h.proc.allPro a) := by
      refine ⟨hz, hm.2.imp id fun hreq => ?_⟩
      rw [hreq, hs, hjp]
    obtain ⟨k, -, hks, e', he', hep', hepp', hst'⟩ := hd.waitDone_pending ha hw hdone
    have heq : e'.pid = e.pid := by rw [hep', hks, hs, hjp]
    have hpp : e'.ppid = e.ppid := by rw [hepp', hm.1]
    obtain ⟨t, ht, hpt⟩ := resumeWait_some hi ha hw hdone hj hs.symm
    refine ⟨e', he', ⟨hepp', by rw [heq]; exact hm.2⟩, by rw [hpp, heq]; exact hr, t, ht, hpt, ?_⟩
    simp [ProcState.waitResult, hz, hst', heq, hs, hjp, toUint64]

theorem relayed (hd : h.Delivered) (hi : ProcInv h.proc) (hq : h.proc.queue = x :: xs)
    (hws : (h.proc.allPro x).waitstate = waitingToDie) {e : ExitRecord} (he : e ∈ h.exits)
    (hpp : e.ppid = (h.proc.allPro x).pid)
    (hpr : e.pid = toUint64 (h.proc.allPro x).waitingfor) : stubDone (h.proc.allPro x) := by
  obtain ⟨hlt, -, hrun⟩ := hi.ring.run x (by simp [hq])
  rcases Delivery.exit_pending hd e he x hlt hrun hpp.symm with
    ⟨r, hrm, hrp, hrc⟩ | ⟨j, hj, hjd, hjz, hjp, hjpp⟩
  · exact absurd ⟨hrp.trans hpp, hrc.trans hpr⟩ (Delivery.report_stub hd r hrm x hlt hrun hws)
  · obtain ⟨hz, hs⟩ := Delivery.pending_signal hd x hlt hrun j
      ⟨hj, hjd, hjz, hjpp.trans hpp, fun _ => hjp.trans hpr⟩
    exact ⟨hws, by rw [hs, hjp, hpr], hz⟩

end History.Delivered

/-- No child exit is lost or reported twice in a run whose steps overwrite no notification. -/
theorem notifies_exitsDelivered :
    ∀ h, HistoryReach notifies h → ExitsDelivered h := by
  intro h hr
  obtain ⟨hi, hd⟩ := notifies_inv hr
  refine ⟨Delivery.report_nodup hd, Delivery.report_exit hd, ?_, ?_⟩
  · rintro hw a hact ⟨e, he, hm, hrep⟩
    obtain ⟨b, hb⟩ := hi.active_waitLoop hw
    have hab : b = a := Option.some.inj (hb.active.symm.trans hact)
    exact hd.delivered hi hw (hab ▸ hb) he hm hrep
  · rintro - x xs hq hws ⟨e, he, hpp, hpr⟩
    exact hd.relayed hi hq hws he hpp hpr

instance {pro : Nat → Pcb} {desc : Nat → Nat} {p j : Nat} : Decidable (PendingChild pro desc p j) :=
  decidable_of_iff (j < procSize ∧ desc j = 1 ∧ (pro j).state = zombie ∧
      (pro j).ppid = (pro p).pid ∧
      ((pro p).waitstate = waitingToDie → (pro j).pid = toUint64 (pro p).waitingfor))
    ⟨fun ⟨h1, h2, h3, h4, h5⟩ => ⟨h1, h2, h3, h4, h5⟩, fun ⟨h1, h2, h3, h4, h5⟩ => ⟨h1, h2, h3, h4, h5⟩⟩

instance {pro : Nat → Pcb} {desc : Nat → Nat} {p : Nat} :
    Decidable (∀ j, ¬ PendingChild pro desc p j) :=
  decidable_of_iff (∀ j < procSize, ¬ PendingChild pro desc p j)
    ⟨fun h j hj => h j hj.lt hj, fun h j _ => h j⟩

instance {status : Nat} : Decidable (Notifies s a status) :=
  inferInstanceAs (Decidable (∀ p < procSize, _))

instance {l : ProcLabel} : Decidable (notifies l s) :=
  match l with
  | .exit status => inferInstanceAs (Decidable (∀ a ∈ s.active, Notifies s a status))
  | .fork => inferInstanceAs
      (Decidable (∀ a ∈ s.active, ∀ j, ¬ PendingChild s.allPro s.procDescriptor a j))
  | .exec _ => inferInstanceAs (Decidable (_ < _))
  | .dispatch =>
      decidable_of_iff (∀ x ∈ s.queue.head?, stubDone (s.allPro x) → Notifies s x 0)
        ⟨fun h x xs hq => h x (by rw [hq]; rfl), fun h x hx => by
          obtain ⟨xs, hq⟩ := List.head?_eq_some_iff.mp hx
          exact h x xs hq⟩
  | .yield | .wait _ | .resumeWait => .isTrue trivial
  | .kill _ | .execFail => .isFalse id

/-- The shell forks, its child ends with status 0, and the shell waits for it. -/
def waitLabels : List ProcLabel :=
  [.fork, .exit 0, .dispatch, .wait (2 ^ 64 - 1), .dispatch, .resumeWait]

/-- Every step meets the condition. -/
def childReported : History :=
  (runLabels (fun l h => if notifies l h.proc then historyStep l h else none) waitLabels
    initHistory).get (by decide +kernel)

theorem childReported_reach : HistoryReach notifies childReported := by
  refine Reach.of_run (.init rfl) (fun l h h' hstep => ?_) (Option.some_get _).symm
  split_ifs at hstep with hl
  exact ⟨hl, hstep⟩

theorem notifies_exitsDelivered_childReported : ExitsDelivered childReported ∧
    childReported.reports.map (fun r => (r.parent, r.child, r.status)) = [(1, 2, 0)] :=
  ⟨notifies_exitsDelivered _ childReported_reach, by decide +kernel⟩

/-- A child that exits with status 7 is never reported: its parent waits for ever. -/
theorem exitsDelivered_status_lost :
    ¬ ∀ h, HistoryReach (fun l _ => l.ordinary) h → ExitsDelivered h := by
  intro hall
  have hr : HistoryReach (fun l _ => l.ordinary)
      ((runLabels historyStep [.fork, .exit 7, .dispatch, .wait (2 ^ 64 - 1), .dispatch]
        initHistory).get (by decide)) :=
    Reach.of_runLabels (.init rfl) (by simp [ProcLabel.ordinary]) (Option.some_get _).symm
  obtain ⟨-, -, -, -, t, ht, hpt, -⟩ := (hall _ hr).delivered (by decide) 0 (by decide)
    ⟨⟨2, 1, 7⟩, by decide, ⟨by decide, by decide⟩,
      by simp [runLabels, historyStep, newReports, initHistory]⟩
  have hagain : (ProcState.resumeWait ((runLabels historyStep
      [.fork, .exit 7, .dispatch, .wait (2 ^ 64 - 1), .dispatch] initHistory).get
        (by decide)).proc).map ProcState.point = some .switch := by decide
  rw [ht, Option.map_some, hpt] at hagain
  exact absurd hagain (by decide)

end Sbunix
