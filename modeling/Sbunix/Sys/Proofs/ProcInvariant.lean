import Sbunix.Sys.Syscall

/-!
# Invariants of the process table and of the schedule queue

`PcbInv` speaks about the PCBs alone, `RingInv` about the queue, `ActiveInv`
about the running process.  Each elementary update of the table has one lemma;
the lemmas about the system calls are assembled from them.
-/

namespace Sbunix

/-- What the PCBs satisfy at any time; `g` is `global_pid`. A signal (`sigchild_state`
0) never names a running process: that is what makes reaping safe. -/
structure PcbInv (pro : Nat → Pcb) (g : Nat) : Prop where
  sno_eq : ∀ i < procSize, (pro i).pid ≠ 0 → (pro i).sno = i
  pid_pos : ∀ i < procSize, (pro i).state = running → (pro i).pid ≠ 0
  pid_lt : ∀ i < procSize, (pro i).pid < g
  pid_inj : ∀ i < procSize, ∀ j < procSize, (pro i).pid = (pro j).pid → (pro i).pid ≠ 0 → i = j
  ppid_lt : ∀ i < procSize, (pro i).ppid < g
  ppid_lt_pid : ∀ i < procSize, (pro i).pid ≠ 0 → (pro i).ppid < (pro i).pid
  waitstate_mem : ∀ i < procSize, (pro i).waitstate = 0 ∨ (pro i).waitstate = waitingToLive ∨
    (pro i).waitstate = waitingToDie
  signal_lt : ∀ i < procSize, (pro i).signallingChild < g
  signal_ne : ∀ i < procSize, (pro i).state = running → (pro i).sigchildState = 0 →
    (pro i).signallingChild ≠ 0
  signal : ∀ i < procSize, (pro i).state = running → (pro i).sigchildState = 0 →
    ∀ j < procSize, (pro j).pid = (pro i).signallingChild → (pro j).state ≠ running

/-- The schedule queue holds each slot once, and only slots of running processes. -/
structure RingInv (s : ProcState) : Prop where
  start_lt : s.procStart < procSize + 1
  end_lt : s.procEnd < procSize + 1
  nodup : s.queue.Nodup
  run : ∀ i ∈ s.queue, i < procSize ∧ s.procDescriptor i = 1 ∧ (s.allPro i).state = running

/-- The process the kernel works for, away from `syscall_switch`. -/
structure ActiveRun (s : ProcState) (a : Nat) : Prop where
  active : s.active = some a
  lt : a < procSize
  descriptor : s.procDescriptor a = 1
  state : (s.allPro a).state = running
  notMem : a ∉ s.queue
  user : s.point = .user → (s.allPro a).waitstate = 0
  waitLoop : s.point = .waitLoop → (s.allPro a).waitstate = waitingToLive

/-- The invariant of every run: of the table, the queue and the running process. -/
structure ProcInv (s : ProcState) : Prop where
  table : PcbInv s.allPro s.globalPid
  ring : RingInv s
  active : s.point ≠ .switch → ∃ a, ActiveRun s a

namespace PcbInv

variable {pro : Nat → Pcb} {g i : Nat} {q : Pcb}

/-- Replaces PCB `i` by one with the same identity that is no more running than before. -/
theorem update (h : PcbInv pro g) (hsno : q.sno = (pro i).sno) (hpid : q.pid = (pro i).pid)
    (hppid : q.ppid = (pro i).ppid)
    (hws : q.waitstate = 0 ∨ q.waitstate = waitingToLive ∨ q.waitstate = waitingToDie)
    (hst : q.state = running → (pro i).state = running) (hlt : q.signallingChild < g)
    (hne : q.state = running → q.sigchildState = 0 → q.signallingChild ≠ 0)
    (hsig : q.state = running → q.sigchildState = 0 →
      ∀ j < procSize, (pro j).pid = q.signallingChild → j ≠ i → (pro j).state ≠ running)
    (hself : q.state = running → q.sigchildState = 0 → q.pid ≠ q.signallingChild) :
    PcbInv (Function.update pro i q) g := by
  have hid : ∀ j, (Function.update pro i q j).sno = (pro j).sno ∧
      (Function.update pro i q j).pid = (pro j).pid ∧
      (Function.update pro i q j).ppid = (pro j).ppid ∧
      ((Function.update pro i q j).state = running → (pro j).state = running) := by
    intro j
    by_cases hj : j = i
    · subst hj
      simpa using ⟨hsno, hpid, hppid, hst⟩
    · simp [Function.update_of_ne hj]
  refine ⟨?_, ?_, ?_, ?_, ?_, ?_, ?_, ?_, ?_, ?_⟩
  · intro j hj hp
    rw [(hid j).1]
    exact h.sno_eq j hj (by rwa [(hid j).2.1] at hp)
  · intro j hj hs
    rw [(hid j).2.1]
    exact h.pid_pos j hj ((hid j).2.2.2 hs)
  · intro j hj
    rw [(hid j).2.1]
    exact h.pid_lt j hj
  · intro j hj k hk heq hne
    rw [(hid j).2.1] at heq hne
    rw [(hid k).2.1] at heq
    exact h.pid_inj j hj k hk heq hne
  · intro j hj
    rw [(hid j).2.2.1]
    exact h.ppid_lt j hj
  · intro j hj hp
    rw [(hid j).2.1] at hp ⊢
    rw [(hid j).2.2.1]
    exact h.ppid_lt_pid j hj hp
  · intro j hj
    by_cases hji : j = i
    · subst hji; simpa using hws
    · simpa [Function.update_of_ne hji] using h.waitstate_mem j hj
  · intro j hj
    by_cases hji : j = i
    · subst hji; simpa using hlt
    · simpa [Function.update_of_ne hji] using h.signal_lt j hj
  · intro j hj hrun hzero
    by_cases hji : j = i
    · subst hji
      simp only [Function.update_self] at hrun hzero ⊢
      exact hne hrun hzero
    · rw [Function.update_of_ne hji] at hrun hzero ⊢
      exact h.signal_ne j hj hrun hzero
  · intro j hj hrun hzero k hk heq
    rw [(hid k).2.1] at heq
    by_cases hji : j = i
    · subst hji
      simp only [Function.update_self] at hrun hzero heq
      by_cases hkj : k = j
      · subst hkj
        exact absurd (hpid.trans heq) (hself hrun hzero)
      · rw [Function.update_of_ne hkj]
        exact hsig hrun hzero k hk heq hkj
    · rw [Function.update_of_ne hji] at hrun hzero heq
      exact fun hk' => h.signal j hj hrun hzero k hk heq ((hid k).2.2.2 hk')

/-- An update that leaves identity, signal and state of PCB `i` alone. -/
theorem update_quiet (h : PcbInv pro g) (hi : i < procSize) (hsno : q.sno = (pro i).sno)
    (hpid : q.pid = (pro i).pid) (hppid : q.ppid = (pro i).ppid)
    (hws : q.waitstate = 0 ∨ q.waitstate = waitingToLive ∨ q.waitstate = waitingToDie)
    (hst : q.state = running → (pro i).state = running)
    (hsc : q.signallingChild = (pro i).signallingChild)
    (hss : q.sigchildState = (pro i).sigchildState) : PcbInv (Function.update pro i q) g := by
  apply h.update hsno hpid hppid hws hst (hsc ▸ h.signal_lt i hi)
  · intro hrun hzero
    exact hsc ▸ h.signal_ne i hi (hst hrun) (hss ▸ hzero)
  · intro hrun hzero j hj heq _
    exact h.signal i hi (hst hrun) (hss ▸ hzero) j hj (hsc ▸ heq)
  · intro hrun hzero heq
    exact h.signal i hi (hst hrun) (hss ▸ hzero) i hi (by rw [← hpid, heq, hsc]) (hst hrun)

/-- A new process in slot `i`, with the next pid and no signal pending. -/
theorem insert (h : PcbInv pro g) (hpos : 0 < g) (hsno : q.sno = i) (hpid : q.pid = g)
    (hppid : q.ppid < g) (hws : q.waitstate = 0) (hsc : q.signallingChild = 0)
    (hss : q.sigchildState ≠ 0) : PcbInv (Function.update pro i q) (g + 1) := by
  have hother : ∀ j < procSize, j ≠ i → (Function.update pro i q j).pid < g := by
    intro j hj hji
    simpa [Function.update_of_ne hji] using h.pid_lt j hj
  refine ⟨?_, ?_, ?_, ?_, ?_, ?_, ?_, ?_, ?_, ?_⟩
  · intro j hj hp
    by_cases hji : j = i
    · subst hji; simpa using hsno
    · rw [Function.update_of_ne hji] at hp ⊢
      exact h.sno_eq j hj hp
  · intro j hj hs
    by_cases hji : j = i
    · subst hji; simp [hpid]; omega
    · rw [Function.update_of_ne hji] at hs ⊢
      exact h.pid_pos j hj hs
  · intro j hj
    by_cases hji : j = i
    · subst hji; simp [hpid]
    · have := hother j hj hji
      omega
  · intro j hj k hk heq hne
    by_cases hji : j = i <;> by_cases hki : k = i
    · exact hji.trans hki.symm
    · subst hji
      have := hother k hk hki
      simp only [Function.update_self, hpid] at heq
      omega
    · subst hki
      have := hother j hj hji
      simp only [Function.update_self, hpid] at heq
      omega
    · rw [Function.update_of_ne hji] at heq hne
      rw [Function.update_of_ne hki] at heq
      exact h.pid_inj j hj k hk heq hne
  · intro j hj
    by_cases hji : j = i
    · subst hji; simp; omega
    · rw [Function.update_of_ne hji]
      have := h.ppid_lt j hj
      omega
  · intro j hj hp
    by_cases hji : j = i
    · subst hji; simpa [hpid] using hppid
    · rw [Function.update_of_ne hji] at hp ⊢
      exact h.ppid_lt_pid j hj hp
  · intro j hj
    by_cases hji : j = i
    · subst hji; simp [hws]
    · rw [Function.update_of_ne hji]
      exact h.waitstate_mem j hj
  · intro j hj
    by_cases hji : j = i
    · subst hji; simp [hsc]
    · rw [Function.update_of_ne hji]
      have := h.signal_lt j hj
      omega
  · intro j hj hrun hzero
    by_cases hji : j = i
    · subst hji
      simp only [Function.update_self] at hzero
      exact absurd hzero hss
    · rw [Function.update_of_ne hji] at hrun hzero ⊢
      exact h.signal_ne j hj hrun hzero
  · intro j hj hrun hzero k hk heq
    by_cases hji : j = i
    · subst hji
      simp only [Function.update_self] at hzero
      exact absurd hzero hss
    · rw [Function.update_of_ne hji] at hrun hzero heq
      by_cases hki : k = i
      · subst hki
        have := h.signal_lt j hj
        simp only [Function.update_self, hpid] at heq
        omega
      · rw [Function.update_of_ne hki] at heq ⊢
        exact h.signal j hj hrun hzero k hk heq

/-- Wiping PCB `i` (`syscall_wait` does it to the child it reaps). -/
theorem wipe (h : PcbInv pro g) (hpos : 0 < g) :
    PcbInv (Function.update pro i Pcb.zero) g := by
  refine ⟨?_, ?_, ?_, ?_, ?_, ?_, ?_, ?_, ?_, ?_⟩
  all_goals
    intro j hj
    by_cases hji : j = i <;> simp only [Function.update_apply, hji, ↓reduceIte]
  · simp [Pcb.zero]
  · exact h.sno_eq j hj
  · simp [Pcb.zero]
  · exact h.pid_pos j hj
  · simpa [Pcb.zero] using hpos
  · exact h.pid_lt j hj
  · simp [Pcb.zero]
  · intro k hk heq hne
    by_cases hki : k = i
    · simp only [hki, ↓reduceIte, Pcb.zero] at heq
      exact absurd heq hne
    · rw [if_neg hki] at heq
      exact h.pid_inj j hj k hk heq hne
  · simpa [Pcb.zero] using hpos
  · exact h.ppid_lt j hj
  · simp [Pcb.zero]
  · exact h.ppid_lt_pid j hj
  · simp [Pcb.zero]
  · exact h.waitstate_mem j hj
  · simpa [Pcb.zero] using hpos
  · exact h.signal_lt j hj
  · simp [Pcb.zero]
  · exact h.signal_ne j hj
  · simp [Pcb.zero]
  · intro hrun hzero k hk heq
    by_cases hki : k = i
    · simp [hki, Pcb.zero]
    · rw [if_neg hki] at heq ⊢
      exact h.signal j hj hrun hzero k hk heq

end PcbInv

end Sbunix
