import Mathlib.Data.List.Perm.Subperm
import Sbunix.Sys.Proofs.ProcInvariant

/-!
# The system calls keep the process invariant

One lemma for each operation on the queue, then one for each call of
`Sbunix.Sys.Syscall`.
-/

namespace Sbunix

variable {s t : ProcState} {a i x : Nat} {xs : List Nat}

namespace RingInv

/-- Slots outside a duplicate-free queue bound its length. -/
theorem length_lt (h : RingInv s) (ha : a < procSize) (hn : a ∉ s.queue) :
    s.queue.length < procSize := by
  have hnd : (a :: s.queue).Nodup := List.nodup_cons.mpr ⟨hn, h.nodup⟩
  have hsub : a :: s.queue ⊆ List.range procSize := by
    intro i hi
    rw [List.mem_range]
    rcases List.mem_cons.mp hi with rfl | hi
    · exact ha
    · exact (h.run i hi).1
  have hlen := (List.subperm_of_subset hnd hsub).length_le
  simp only [List.length_cons, List.length_range] at hlen
  omega

theorem length_le (h : RingInv s) : s.queue.length ≤ procSize := by
  have hsub : s.queue ⊆ List.range procSize := fun i hi => List.mem_range.mpr (h.run i hi).1
  simpa using (List.subperm_of_subset h.nodup hsub).length_le

theorem ringLen_lt (h : RingInv s) (ha : a < procSize) (hn : a ∉ s.queue) :
    ringLen (procSize + 1) s.procStart s.procEnd + 1 < procSize + 1 := by
  have := h.length_lt ha hn
  rw [ProcState.queue, length_ringList] at this
  omega

theorem queue_pushQ (h : RingInv s) (ha : a < procSize) (hn : a ∉ s.queue) :
    (s.pushQ x).queue = s.queue ++ [x] :=
  ringList_push h.start_lt h.end_lt (h.ringLen_lt ha hn)

/-- With a slot outside the queue there is room: a push does not make the ends meet. -/
theorem push_ne_start (h : RingInv s) (ha : a < procSize) (hn : a ∉ s.queue) :
    (s.procEnd + 1) % (procSize + 1) ≠ s.procStart := by
  intro he
  have hlen := ringLen_push h.start_lt h.end_lt (h.ringLen_lt ha hn)
  rw [he, ringLen_self] at hlen
  omega

/-- The queue invariant reads the queue cells, the descriptors and the states only. -/
theorem congr (h : RingInv s) (hq : t.procQ = s.procQ) (hs : t.procStart = s.procStart)
    (he : t.procEnd = s.procEnd)
    (hrun : ∀ i ∈ s.queue, t.procDescriptor i = 1 ∧ (t.allPro i).state = running) :
    RingInv t := by
  have hqueue : t.queue = s.queue := by simp [ProcState.queue, hq, hs, he]
  refine ⟨hs ▸ h.start_lt, he ▸ h.end_lt, hqueue ▸ h.nodup, ?_⟩
  intro i hi
  rw [hqueue] at hi
  exact ⟨(h.run i hi).1, hrun i hi⟩

theorem push (h : RingInv s) (ha : a < procSize) (hd : s.procDescriptor a = 1)
    (hr : (s.allPro a).state = running) (hn : a ∉ s.queue) : RingInv (s.pushQ a) := by
  have hqueue := h.queue_pushQ (x := a) ha hn
  refine ⟨h.start_lt, Nat.mod_lt _ (by simp), ?_, ?_⟩
  · rw [hqueue, List.nodup_append]
    exact ⟨h.nodup, List.nodup_singleton a, by
      intro i hi j hj
      rw [List.mem_singleton] at hj
      rintro rfl
      exact hn (hj ▸ hi)⟩
  · intro i hi
    rw [hqueue, List.mem_append, List.mem_singleton] at hi
    rcases hi with hi | rfl
    · exact h.run i hi
    · exact ⟨ha, hd, hr⟩

theorem start_ne_end (h : RingInv s) (hq : s.queue = x :: xs) : s.procStart ≠ s.procEnd := by
  intro he
  have hnil : ringList (procSize + 1) s.procQ s.procStart s.procEnd = [] :=
    (ringList_eq_nil h.start_lt h.end_lt).mpr he
  rw [ProcState.queue] at hq
  rw [hq] at hnil
  exact List.cons_ne_nil _ _ hnil

theorem queue_popQ (h : RingInv s) (hq : s.queue = x :: xs) :
    s.procQ s.procStart = x ∧ s.popQ.queue = xs := by
  have hne := h.start_ne_end hq
  have hpop : ringList (procSize + 1) s.procQ s.procStart s.procEnd = _ :=
    ringList_pop h.start_lt h.end_lt hne
  rw [ProcState.queue] at hq
  rw [hq] at hpop
  injection hpop with hx hxs
  refine ⟨hx.symm, ?_⟩
  rw [hxs]
  exact ringList_update_popped h.start_lt h.end_lt hne

theorem pop (h : RingInv s) (hq : s.queue = x :: xs) : RingInv s.popQ := by
  obtain ⟨-, hqueue⟩ := h.queue_popQ hq
  have hnd := h.nodup
  rw [hq, List.nodup_cons] at hnd
  refine ⟨Nat.mod_lt _ (by simp), h.end_lt, hqueue ▸ hnd.2, ?_⟩
  intro i hi
  rw [hqueue] at hi
  exact h.run i (hq ▸ List.mem_cons_of_mem x hi)

/-- Every queued process can run, so `get_nextproc` takes the front one. -/
theorem getNextproc_cons (h : RingInv s) (htab : PcbInv s.allPro s.globalPid)
    (hq : s.queue = x :: xs) : s.getNextproc = some (some x, s.popQ) := by
  obtain ⟨hx, -⟩ := h.queue_popQ hq
  obtain ⟨hlt, hdesc, hrun⟩ := h.run x (by simp [hq])
  have hsno := htab.sno_eq x hlt (htab.pid_pos x hlt hrun)
  simp [ProcState.getNextproc, ProcState.getNextprocFrom, h.start_ne_end hq, hx, hsno, hdesc, hrun,
    Nat.not_le.mpr hlt]

theorem getNextproc_nil (h : RingInv s) (hq : s.queue = []) :
    s.getNextproc = some (none, s) := by
  have : s.procStart = s.procEnd := (ringList_eq_nil h.start_lt h.end_lt).mp hq
  simp [ProcState.getNextproc, ProcState.getNextprocFrom, this]

end RingInv

/-- A freshly taken slot is not queued and not the running process. -/
theorem freeSlot_spec (h : s.freeSlot ≠ procSize) :
    s.freeSlot < procSize ∧ s.procDescriptor s.freeSlot = 0 := by
  have hlt : s.freeSlot < procSize := lt_of_le_of_ne (firstSlot_le _) h
  exact ⟨hlt, beq_iff_eq.mp (firstSlot_spec hlt)⟩

/-- The slot that is taken is not the one of the running process. -/
theorem ActiveRun.freeSlot_other (ha : ActiveRun s a) (h : s.freeSlot ≠ procSize) :
    s.freeSlot < procSize ∧ s.procDescriptor s.freeSlot = 0 ∧ s.freeSlot ≠ a := by
  have hspec := freeSlot_spec h
  refine ⟨hspec.1, hspec.2, fun he => ?_⟩
  have hd := hspec.2
  rw [he, ha.descriptor] at hd
  exact Nat.one_ne_zero hd

theorem slotOfPid_spec {pid : Nat} (h : s.slotOfPid pid < procSize) :
    (s.allPro (s.slotOfPid pid)).pid = pid := beq_iff_eq.mp (firstSlot_spec h)

theorem RingInv.free_notMem (h : RingInv s) (hf : s.procDescriptor i = 0) : i ∉ s.queue := by
  intro hi
  have := (h.run i hi).2.1
  omega

namespace ProcInv

theorem globalPid_pos (h : ProcInv s) (ha : ActiveRun s a) : 0 < s.globalPid := by
  have := h.table.pid_lt a ha.lt
  omega

theorem sno_active (h : ProcInv s) (ha : ActiveRun s a) : (s.allPro a).sno = a :=
  h.table.sno_eq a ha.lt (h.table.pid_pos a ha.lt ha.state)

end ProcInv

/-- Telling a parent about child `i`, which runs no more, keeps the table invariant. -/
theorem PcbInv.signalParent {status : Int} (h : PcbInv s.allPro s.globalPid)
    (hi : i < procSize) (hpid : (s.allPro i).pid ≠ 0) (hst : (s.allPro i).state ≠ running) :
    PcbInv (s.signalParent i status).allPro s.globalPid := by
  unfold ProcState.signalParent
  split_ifs with hp
  · have hppid := slotOfPid_spec hp
    refine h.update rfl rfl rfl (h.waitstate_mem _ hp) id (h.pid_lt i hi) (fun _ _ => hpid) ?_ ?_
    · intro _ _ j hj heq _
      rwa [h.pid_inj j hj i hi heq (heq ▸ hpid)]
    · intro _ _ heq
      have := h.ppid_lt_pid i hi hpid
      simp only at heq
      omega
  · exact h

theorem signalParent_other {status : Int} {j : Nat}
    (hj : j ≠ s.slotOfPid (s.allPro i).ppid ∨ procSize ≤ j) :
    (s.signalParent i status).allPro j = s.allPro j := by
  unfold ProcState.signalParent
  split_ifs with hp
  · apply ProcState.modPro_other
    rcases hj with hj | hj
    · exact hj
    · omega
  · rfl

/-- `signalParent` writes the two signal fields of one PCB and nothing else. -/
theorem signalParent_frame (s : ProcState) (i : Nat) (status : Int) :
    (s.signalParent i status).procDescriptor = s.procDescriptor ∧
    (s.signalParent i status).procQ = s.procQ ∧
    (s.signalParent i status).procStart = s.procStart ∧
    (s.signalParent i status).procEnd = s.procEnd ∧
    (s.signalParent i status).active = s.active ∧
    (s.signalParent i status).globalPid = s.globalPid ∧
    (s.signalParent i status).point = s.point ∧
    ∀ j, ((s.signalParent i status).allPro j).state = (s.allPro j).state ∧
      ((s.signalParent i status).allPro j).pid = (s.allPro j).pid ∧
      ((s.signalParent i status).allPro j).ppid = (s.allPro j).ppid ∧
      ((s.signalParent i status).allPro j).sno = (s.allPro j).sno ∧
      ((s.signalParent i status).allPro j).waitstate = (s.allPro j).waitstate ∧
      ((s.signalParent i status).allPro j).waitingfor = (s.allPro j).waitingfor := by
  unfold ProcState.signalParent
  split_ifs with hp
  · refine ⟨rfl, rfl, rfl, rfl, rfl, rfl, rfl, fun j => ?_⟩
    by_cases hj : j = s.slotOfPid (s.allPro i).ppid
    · simp [hj]
    · simp [ProcState.modPro_other hj]
  · simp

/-- `endProcess` leaves the queue, the descriptors and the counters alone. -/
theorem endProcess_frame (s : ProcState) (a : Nat) (status : Int) :
    (s.endProcess a status).procDescriptor = s.procDescriptor ∧
    (s.endProcess a status).procQ = s.procQ ∧
    (s.endProcess a status).procStart = s.procStart ∧
    (s.endProcess a status).procEnd = s.procEnd ∧
    (s.endProcess a status).globalPid = s.globalPid := by
  obtain ⟨hd, hq, hst, hen, -, hg, -⟩ :=
    signalParent_frame (s.modPro (s.allPro a).sno ProcState.exitPcb) a status
  exact ⟨hd, hq, hst, hen, hg⟩

/-- Telling a parent reads and writes the table alone. -/
theorem signalParent_congr {status : Int} (h : s.allPro = t.allPro) :
    (s.signalParent i status).allPro = (t.signalParent i status).allPro := by
  have hslot : s.slotOfPid (s.allPro i).ppid = t.slotOfPid (t.allPro i).ppid := by
    simp only [ProcState.slotOfPid, h]
  unfold ProcState.signalParent
  rw [hslot]
  split
  · simp only [ProcState.modPro, h]
  · exact h

theorem endProcess_congr {status : Int} (h : s.allPro = t.allPro) :
    (s.endProcess a status).allPro = (t.endProcess a status).allPro := by
  apply signalParent_congr
  simp only [ProcState.modPro, h]

/-! ## What each call does

Under the invariant `active->sno` is the active slot, so every call comes down to
updates at known slots. -/

/-- What a process creation does: the new process `f` runs, its parent is queued. -/
structure Spawned (s t : ProcState) (a : Nat) (c p : Pcb) : Prop where
  lt : s.freeSlot < procSize
  free : s.procDescriptor s.freeSlot = 0
  ne : s.freeSlot ≠ a
  allPro : t.allPro = Function.update (Function.update s.allPro s.freeSlot c) a p
  procDescriptor : t.procDescriptor = Function.update s.procDescriptor s.freeSlot 1
  procQ : t.procQ = (s.pushQ a).procQ
  procStart : t.procStart = s.procStart
  procEnd : t.procEnd = (s.pushQ a).procEnd
  globalPid : t.globalPid = s.globalPid + 1
  active : t.active = some s.freeSlot
  point : t.point = s.point

namespace Spawned

variable {c p : Pcb}

theorem queue (h : Spawned s t a c p) (hr : RingInv s) (ha : ActiveRun s a) :
    t.queue = s.queue ++ [a] := by
  rw [← hr.queue_pushQ ha.lt ha.notMem (x := a)]
  simp [ProcState.queue, h.procQ, h.procStart, h.procEnd]

theorem allPro_other (h : Spawned s t a c p) (hf : i ≠ s.freeSlot) (ha : i ≠ a) :
    t.allPro i = s.allPro i := by
  rw [h.allPro, Function.update_of_ne ha, Function.update_of_ne hf]

theorem allPro_child (h : Spawned s t a c p) : t.allPro s.freeSlot = c := by
  rw [h.allPro, Function.update_of_ne h.ne, Function.update_self]

theorem allPro_parent (h : Spawned s t a c p) : t.allPro a = p := by
  rw [h.allPro, Function.update_self]

end Spawned

namespace ProcInv

/-- The child's PCB after `fork`. -/
def forkPcb (s : ProcState) (a : Nat) : Pcb :=
  { sno := s.freeSlot, pid := s.globalPid, ppid := (s.allPro a).pid, waitstate := 0,
    waitingfor := 0, signallingChild := 0, sigchildState := dead, fd := (s.allPro a).fd,
    name := some (ProcState.cString (s.allPro a).name),
    currentDir := some (ProcState.cString (s.allPro a).currentDir), state := running }

theorem syscallFork_eff (h : ProcInv s) (ha : ActiveRun s a) (hf : s.syscallFork = some t) :
    Spawned s t a (forkPcb s a) { s.allPro a with sigchildState := 1, state := running } := by
  simp only [ProcState.syscallFork, ha.active, Option.bind_eq_bind, Option.bind_some] at hf
  split_ifs at hf with hfull hfree
  obtain ⟨hlt, hd, hne⟩ := ha.freeSlot_other hfree
  have hsno := h.sno_active ha
  simp only [Option.some.injEq] at hf
  subst hf
  refine ⟨hlt, hd, hne, ?_, ?_, ?_, rfl, rfl, rfl, rfl, rfl⟩
  · simp [ProcState.createNewProcess, ProcState.modPro, forkPcb, Function.update_of_ne hne.symm]
  · rfl
  · simp [ProcState.createNewProcess, ProcState.modPro, ProcState.pushQ,
      Function.update_of_ne hne.symm, hsno]

/-- The PCB of the program an `exec` starts. -/
def execPcb (s : ProcState) (a : Nat) (name : List Char) : Pcb :=
  { sno := s.freeSlot, pid := s.globalPid, ppid := (s.allPro a).pid, waitstate := 0,
    waitingfor := 0, signallingChild := 0, sigchildState := dead, fd := noFiles,
    name := some name, currentDir := some (ProcState.cString (s.allPro a).currentDir),
    state := running }

theorem syscallExec_eff {file : List Char} (h : ProcInv s) (ha : ActiveRun s a)
    (hf : s.syscallExec file = some t) :
    Spawned s t a (execPcb s a file)
      { s.allPro a with waitstate := waitingToDie, waitingfor := toInt32 s.globalPid } := by
  simp only [ProcState.syscallExec, ha.active, Option.bind_eq_bind, Option.bind_some] at hf
  split_ifs at hf with hfree
  obtain ⟨hlt, hd, hne⟩ := ha.freeSlot_other hfree
  have hsno := h.sno_active ha
  simp only [Option.some.injEq] at hf
  subst hf
  refine ⟨hlt, hd, hne, ?_, ?_, ?_, rfl, rfl, rfl, rfl, rfl⟩
  · simp [ProcState.execChild, ProcState.createNewProcess, ProcState.modPro, execPcb,
      Function.update_of_ne hne.symm]
  · rfl
  · simp [ProcState.execChild, ProcState.createNewProcess, ProcState.modPro, ProcState.pushQ,
      Function.update_of_ne hne.symm, hsno]

/-- A failed `exec` leaves the slot it took behind, off the queue. -/
theorem syscallExecFail_eff (ha : ActiveRun s a) (hf : s.syscallExecFail = some t) :
    s.freeSlot < procSize ∧ s.procDescriptor s.freeSlot = 0 ∧ s.freeSlot ≠ a ∧
    t.allPro = Function.update s.allPro s.freeSlot (execPcb s a []) ∧
    t.procDescriptor = Function.update s.procDescriptor s.freeSlot 1 ∧
    t.procQ = s.procQ ∧ t.procStart = s.procStart ∧ t.procEnd = s.procEnd ∧
    t.globalPid = s.globalPid + 1 ∧ t.active = some a ∧ t.point = s.point := by
  simp only [ProcState.syscallExecFail, ha.active, Option.bind_eq_bind, Option.bind_some] at hf
  split_ifs at hf with hfree
  obtain ⟨hlt, hd, hne⟩ := ha.freeSlot_other hfree
  simp only [Option.some.injEq] at hf
  subst hf
  refine ⟨hlt, hd, hne, ?_, rfl, rfl, rfl, rfl, rfl, ha.active, rfl⟩
  simp [ProcState.execChild, ProcState.createNewProcess, ProcState.modPro, execPcb,
    Function.update_of_ne hne.symm]

theorem syscallSwitch_eff (h : ProcInv s) (ha : ActiveRun s a) (hu : s.point = .user) :
    s.syscallSwitch =
      { (s.pushQ a).modPro a fun p => { p with state := running } with point := .switch } := by
  have hws := ha.user hu
  simp [ProcState.syscallSwitch, ha.active, hws, h.sno_active ha]

theorem syscallExit_eff {status : Nat} (ha : ActiveRun s a)
    (hf : s.syscallExit status = some t) :
    t = { s.endProcess a (toInt32 status) with active := none, point := .switch } := by
  simp only [ProcState.syscallExit, ha.active, Option.bind_eq_bind, Option.bind_some,
    Option.some.injEq] at hf
  exact hf.symm

/-- `do_wait` queues the caller, and `syscall_switch` does not queue it again. -/
theorem doWait_eff (hact : s.active = some a)
    (hws : (s.allPro a).waitstate = waitingToLive) (hsno : (s.allPro a).sno = a) :
    s.doWait a =
      { (s.pushQ a).modPro a fun p => { p with state := running } with point := .switch } := by
  simp [ProcState.doWait, ProcState.syscallSwitch, hact, hws, hsno]

theorem syscallWait_eff {pid : Nat} (h : ProcInv s) (ha : ActiveRun s a)
    (hf : s.syscallWait pid = some t) :
    (s.checkLiveChild a (toInt32 pid) = false ∧ t = s) ∨
    (s.checkLiveChild a (toInt32 pid) = true ∧
      t = { (s.pushQ a).modPro a fun p =>
              { p with waitstate := waitingToLive, waitingfor := toInt32 pid, state := running } with
            point := .switch }) := by
  simp only [ProcState.syscallWait, ha.active, Option.bind_eq_bind, Option.bind_some] at hf
  split_ifs at hf with hc
  · right
    refine ⟨hc, ?_⟩
    rw [doWait_eff (by simpa using ha.active) (by simp) (by simpa using h.sno_active ha)]
      at hf
    rw [← Option.some.inj hf]
    simp [ProcState.modPro, ProcState.pushQ]
  · left
    exact ⟨by simpa using hc, (Option.some.inj hf).symm⟩

/-- The parent of `a` is not `a`, so `signalParent` leaves `a`'s own signal alone. -/
theorem signalParent_self {status : Int} (h : PcbInv s.allPro s.globalPid) (ha : a < procSize)
    (hpid : (s.allPro a).pid ≠ 0) : (s.signalParent a status).allPro a = s.allPro a := by
  apply signalParent_other
  by_cases hp : s.slotOfPid (s.allPro a).ppid < procSize
  · left
    intro he
    have := slotOfPid_spec hp
    rw [← he] at this
    have := h.ppid_lt_pid a ha hpid
    omega
  · left
    intro he
    omega

theorem endProcess_eq {status : Int} (h : PcbInv s.allPro s.globalPid) (ha : a < procSize)
    (hpid : (s.allPro a).pid ≠ 0) :
    s.endProcess a status = (s.modPro a ProcState.exitPcb).signalParent a status := by
  rw [ProcState.endProcess, h.sno_eq a ha hpid]

theorem exitPcb_table (h : PcbInv s.allPro s.globalPid) (ha : a < procSize) :
    PcbInv (s.modPro a ProcState.exitPcb).allPro s.globalPid :=
  h.update_quiet ha rfl rfl rfl (h.waitstate_mem a ha) (by simp [ProcState.exitPcb]) rfl rfl

theorem endProcess_table {n : Int} (h : PcbInv s.allPro s.globalPid) (ha : a < procSize)
    (hpid : (s.allPro a).pid ≠ 0) : PcbInv (s.endProcess a n).allPro s.globalPid := by
  rw [endProcess_eq h ha hpid]
  exact (exitPcb_table h ha).signalParent ha (by simpa [ProcState.exitPcb] using hpid)
    (by simp [ProcState.exitPcb])

theorem endProcess_self {status : Int} (h : PcbInv s.allPro s.globalPid) (ha : a < procSize)
    (hpid : (s.allPro a).pid ≠ 0) :
    (s.endProcess a status).allPro a = ProcState.exitPcb (s.allPro a) := by
  rw [endProcess_eq h ha hpid, signalParent_self (exitPcb_table h ha) ha
    (by simpa [ProcState.exitPcb] using hpid), ProcState.modPro_same]

theorem killProc_eff (h : PcbInv s.allPro s.globalPid) (hact : s.active = some a)
    (ha : a < procSize) (hrun : (s.allPro a).state = running) (hk : s.killProc = some t) :
    ∃ i < procSize, ((s.endProcess a 0).allPro i).pid = (s.allPro a).signallingChild ∧
      t = { (s.endProcess a 0).reap i with active := none } := by
  have hpid := h.pid_pos a ha hrun
  simp only [ProcState.killProc, hact, Option.bind_eq_bind, Option.bind_some,
    endProcess_self h ha hpid] at hk
  split_ifs at hk with hi
  have hlt := lt_of_le_of_ne (firstSlot_le _) hi
  exact ⟨_, hlt, slotOfPid_spec hlt, (Option.some.inj hk).symm⟩

/-- `syscall_switch` takes the front process and does one of four things with it. -/
theorem dispatch_cases (h : ProcInv s) (hd : s.dispatch = some t) :
    ∃ x xs, s.queue = x :: xs ∧
      ((t = { s.popQ with active := some x, point := .user } ∧ (s.allPro x).waitstate = 0) ∨
       (t = { s.popQ with active := some x, point := .waitLoop } ∧
          (s.allPro x).waitstate = waitingToLive) ∨
       ((s.allPro x).waitstate = waitingToDie ∧
          (s.allPro x).signallingChild = toUint64 (s.allPro x).waitingfor ∧
          (s.allPro x).sigchildState = 0 ∧
          ∃ u, { s.popQ with active := some x }.killProc = some u ∧
            t = { u with point := .switch }) ∨
       (t = { s.popQ.pushQ x with active := none, point := .switch } ∧
          (s.allPro x).waitstate = waitingToDie ∧
          ¬ ((s.allPro x).signallingChild = toUint64 (s.allPro x).waitingfor ∧
             (s.allPro x).sigchildState = 0))) := by
  cases hq : s.queue with
  | nil => simp [ProcState.dispatch, h.ring.getNextproc_nil hq] at hd
  | cons x xs =>
      obtain ⟨hlt, -, hrun⟩ := h.ring.run x (by simp [hq])
      have hsno := h.table.sno_eq x hlt (h.table.pid_pos x hlt hrun)
      refine ⟨x, xs, rfl, ?_⟩
      simp only [ProcState.dispatch, h.ring.getNextproc_cons h.table hq, ProcState.popQ_allPro,
        hrun, hsno] at hd
      rcases h.table.waitstate_mem x hlt with hws | hws | hws
      · left
        simp [hws, waitingToDie, waitingToLive] at hd
        exact ⟨hd.symm, hws⟩
      · right; left
        simp [hws] at hd
        exact ⟨hd.symm, hws⟩
      · right; right
        simp only [hws, one_ne_zero, show waitingToDie ≠ waitingToLive by decide, ↓reduceIte] at hd
        split_ifs at hd with hsig
        · left
          rw [Option.map_eq_some_iff] at hd
          obtain ⟨u, hu, rfl⟩ := hd
          refine ⟨hws, hsig.1, hsig.2, u, hu, ?_⟩
          obtain ⟨i, -, -, rfl⟩ :=
            killProc_eff (s := { s.popQ with active := some x }) h.table rfl hlt hrun hu
          rfl
        · right
          exact ⟨(Option.some.inj hd).symm, hws, hsig⟩

/-- `syscall_wait` after `do_wait` came back: reap the signalling child, or wait again. -/
theorem resumeWait_cases (h : ProcInv s) (ha : ActiveRun s a) (hw : s.point = .waitLoop)
    (hr : s.resumeWait = some t) :
    (ProcState.waitDone (s.allPro a) ∧ ∃ i < procSize,
      (s.allPro i).pid = (s.allPro a).signallingChild ∧ i ≠ a ∧
      t.allPro = Function.update (Function.update s.allPro i Pcb.zero) a
        { s.allPro a with waitstate := 0, sigchildState := dead } ∧
      t.procDescriptor = Function.update s.procDescriptor (s.allPro i).sno 0 ∧
      t.procQ = s.procQ ∧ t.procStart = s.procStart ∧ t.procEnd = s.procEnd ∧
      t.globalPid = s.globalPid ∧ t.active = some a ∧ t.point = .user) ∨
    (¬ ProcState.waitDone (s.allPro a) ∧
      t = { (s.pushQ a).modPro a fun p => { p with state := running } with point := .switch }) := by
  simp only [ProcState.resumeWait, ha.active, Option.bind_eq_bind, Option.bind_some] at hr
  by_cases hdone : ProcState.waitDone (s.allPro a)
  · left
    refine ⟨hdone, ?_⟩
    rw [if_pos hdone] at hr
    split_ifs at hr with hi
    set s₁ := s.modPro a fun p => { p with waitstate := 0 } with hs₁
    have hlt : s₁.slotOfPid (s₁.allPro a).signallingChild < procSize :=
      lt_of_le_of_ne (firstSlot_le _) hi
    have hpid := slotOfPid_spec hlt
    generalize s₁.slotOfPid (s₁.allPro a).signallingChild = i at hr hlt hpid hi
    rw [hs₁] at hr hpid
    clear_value s₁
    have hia : i ≠ a := by
      rintro rfl
      simp only [ProcState.modPro_same] at hpid
      exact h.table.signal i ha.lt ha.state hdone.1 i ha.lt hpid ha.state
    rw [ProcState.modPro_other hia, ProcState.modPro_same] at hpid
    refine ⟨i, hlt, hpid, hia, ?_⟩
    rw [← Option.some.inj hr]
    refine ⟨?_, ?_, rfl, rfl, rfl, rfl, ha.active, rfl⟩
    · funext j
      by_cases hja : j = a
      · subst hja
        simp [ProcState.modPro, ProcState.reap, Function.update_of_ne hia.symm]
      · by_cases hji : j = i
        · subst hji
          simp [ProcState.modPro, ProcState.reap, Function.update_of_ne hia]
        · simp [ProcState.modPro, ProcState.reap, Function.update_of_ne hja, Function.update_of_ne hji]
    · simp [ProcState.modPro, ProcState.reap, Function.update_of_ne hia]
  · right
    rw [if_neg hdone] at hr
    refine ⟨hdone, ?_⟩
    rw [← Option.some.inj hr]
    exact doWait_eff ha.active (ha.waitLoop hw) (h.sno_active ha)

end ProcInv

end Sbunix
