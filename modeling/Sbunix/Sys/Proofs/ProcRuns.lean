import Sbunix.Sys.ProcRun
import Sbunix.Sys.Proofs.ProcStep

/-!
# Runs of the process side

Every call keeps `ProcInv`; the ring invariant of all runs follows by induction.
-/

namespace Sbunix

variable {s t : ProcState} {a f i x : Nat} {xs : List Nat}

namespace ProcInv

/-- A creation keeps the invariant when the child is new and the parent stays itself. -/
theorem spawn {c p : Pcb} (h : ProcInv s) (ha : ActiveRun s a) (hu : s.point = .user)
    (hs : Spawned s t a c p)
    (hc : c.sno = s.freeSlot ∧ c.pid = s.globalPid ∧ c.ppid = (s.allPro a).pid ∧
      c.waitstate = 0 ∧ c.signallingChild = 0 ∧ c.sigchildState ≠ 0 ∧ c.state = running)
    (hp : p.sno = (s.allPro a).sno ∧ p.pid = (s.allPro a).pid ∧ p.ppid = (s.allPro a).ppid ∧
      p.signallingChild = (s.allPro a).signallingChild ∧ p.state = running)
    (hws : p.waitstate = 0 ∨ p.waitstate = waitingToLive ∨ p.waitstate = waitingToDie)
    (hss : p.sigchildState = 0 → (s.allPro a).sigchildState = 0) :
    ProcInv t ∧ ActiveRun t s.freeSlot := by
  obtain ⟨hsno, hpid, hppid, hcws, hcsc, hcss, hcst⟩ := hc
  obtain ⟨hpsno, hppid', hpppid, hpsc, hpst⟩ := hp
  have hnq := h.ring.free_notMem hs.free
  have hqueue := hs.queue h.ring ha
  have hins : PcbInv (Function.update s.allPro s.freeSlot c) (s.globalPid + 1) :=
    h.table.insert (h.globalPid_pos ha) hsno hpid (hppid ▸ h.table.pid_lt a ha.lt) hcws hcsc hcss
  have hold : Function.update s.allPro s.freeSlot c a = s.allPro a :=
    Function.update_of_ne hs.ne.symm _ _
  have hrun : ∀ j ∈ s.queue ++ [a], t.procDescriptor j = 1 ∧ (t.allPro j).state = running := by
    intro j hj
    rw [List.mem_append, List.mem_singleton] at hj
    have hjf : j ≠ s.freeSlot := by
      rintro rfl
      rcases hj with hj | hj
      · exact hnq hj
      · exact hs.ne hj
    rw [hs.procDescriptor, Function.update_of_ne hjf]
    by_cases hja : j = a
    · subst hja
      exact ⟨ha.descriptor, by rw [hs.allPro_parent, hpst]⟩
    · rw [hs.allPro_other hjf hja]
      exact (h.ring.run j (hj.resolve_right hja)).2
  refine ⟨⟨?_, ?_, fun _ => ⟨s.freeSlot, ?_⟩⟩, ?_⟩
  · rw [hs.allPro, hs.globalPid]
    refine hins.update (by rw [hold, hpsno]) (by rw [hold, hppid']) (by rw [hold, hpppid]) hws
      (fun _ => by rw [hold]; exact ha.state) ?_ ?_ ?_ ?_
    · rw [hpsc]
      have := h.table.signal_lt a ha.lt
      omega
    · intro _ hz
      rw [hpsc]
      exact h.table.signal_ne a ha.lt ha.state (hss hz)
    · intro _ hz j hj heq hja
      by_cases hjf : j = s.freeSlot
      · subst hjf
        have := h.table.signal_lt a ha.lt
        rw [Function.update_self, hpid, hpsc] at heq
        omega
      · rw [Function.update_of_ne hjf] at heq ⊢
        exact h.table.signal a ha.lt ha.state (hss hz) j hj (by rw [heq, hpsc])
    · intro _ hz heq
      exact h.table.signal a ha.lt ha.state (hss hz) a ha.lt (by rw [← hppid', heq, hpsc]) ha.state
  · refine (h.ring.push ha.lt ha.descriptor ha.state ha.notMem).congr hs.procQ hs.procStart
      hs.procEnd ?_
    rw [h.ring.queue_pushQ ha.lt ha.notMem]
    exact hrun
  all_goals
    refine ⟨hs.active, hs.lt, ?_, ?_, ?_, ?_, ?_⟩
    · rw [hs.procDescriptor, Function.update_self]
    · rw [hs.allPro_child, hcst]
    · rw [hqueue, List.mem_append, List.mem_singleton, not_or]
      exact ⟨hnq, hs.ne⟩
    · intro _
      rw [hs.allPro_child, hcws]
    · intro hw
      rw [hs.point, hu] at hw
      exact absurd hw (by decide)

theorem syscallFork (h : ProcInv s) (ha : ActiveRun s a) (hu : s.point = .user)
    (hf : s.syscallFork = some t) : ProcInv t ∧ ActiveRun t s.freeSlot := by
  refine h.spawn ha hu (syscallFork_eff h ha hf) ⟨rfl, rfl, rfl, rfl, rfl, by simp [forkPcb], rfl⟩
    ⟨rfl, rfl, rfl, rfl, rfl⟩ (h.table.waitstate_mem a ha.lt) ?_
  intro hz
  exact absurd hz one_ne_zero

theorem syscallExec {file : List Char} (h : ProcInv s) (ha : ActiveRun s a)
    (hu : s.point = .user) (hf : s.syscallExec file = some t) :
    ProcInv t ∧ ActiveRun t s.freeSlot :=
  h.spawn ha hu (syscallExec_eff h ha hf) ⟨rfl, rfl, rfl, rfl, rfl, by simp [execPcb], rfl⟩
    ⟨rfl, rfl, rfl, rfl, ha.state⟩ (.inr (.inr rfl)) id

theorem syscallExecFail (h : ProcInv s) (ha : ActiveRun s a) (hu : s.point = .user)
    (hf : s.syscallExecFail = some t) : ProcInv t ∧ ActiveRun t a := by
  obtain ⟨hlt, hd, hne, hall, hdesc, hq, hst, hen, hg, hact, hpt⟩ := syscallExecFail_eff ha hf
  have hqueue : t.queue = s.queue := by simp [ProcState.queue, hq, hst, hen]
  have hother : ∀ j, j ≠ s.freeSlot → t.procDescriptor j = s.procDescriptor j ∧
      t.allPro j = s.allPro j := by
    intro j hj
    rw [hdesc, hall, Function.update_of_ne hj, Function.update_of_ne hj]
    exact ⟨rfl, rfl⟩
  have hat : ActiveRun t a := by
    obtain ⟨hda, hpa⟩ := hother a hne.symm
    refine ⟨hact, ha.lt, hda ▸ ha.descriptor, hpa ▸ ha.state, hqueue ▸ ha.notMem, ?_, ?_⟩
    · exact fun _ => hpa ▸ ha.user hu
    · intro hw
      rw [hpt, hu] at hw
      exact absurd hw (by decide)
  refine ⟨⟨?_, ?_, fun _ => ⟨a, hat⟩⟩, hat⟩
  · rw [hall, hg]
    exact h.table.insert (h.globalPid_pos ha) rfl rfl (h.table.pid_lt a ha.lt) rfl rfl
      (by simp [execPcb])
  · refine h.ring.congr hq hst hen ?_
    intro j hj
    have hjf : j ≠ s.freeSlot := by
      rintro rfl
      exact h.ring.free_notMem hd hj
    obtain ⟨hdj, hpj⟩ := hother j hjf
    rw [hdj, hpj]
    exact (h.ring.run j hj).2

/-- The running process goes to the end of the queue: `yield`, and `do_wait`. -/
theorem requeue {p : Pcb → Pcb} (h : ProcInv s) (ha : ActiveRun s a)
    (hp : (p (s.allPro a)).sno = (s.allPro a).sno ∧ (p (s.allPro a)).pid = (s.allPro a).pid ∧
      (p (s.allPro a)).ppid = (s.allPro a).ppid ∧ (p (s.allPro a)).state = running ∧
      (p (s.allPro a)).signallingChild = (s.allPro a).signallingChild ∧
      (p (s.allPro a)).sigchildState = (s.allPro a).sigchildState)
    (hws : (p (s.allPro a)).waitstate = 0 ∨ (p (s.allPro a)).waitstate = waitingToLive ∨
      (p (s.allPro a)).waitstate = waitingToDie) :
    ProcInv { (s.pushQ a).modPro a p with point := .switch } := by
  obtain ⟨hsno, hpid, hppid, hst, hsc, hss⟩ := hp
  refine ⟨?_, ?_, fun hn => absurd rfl hn⟩
  · exact h.table.update_quiet ha.lt hsno hpid hppid hws (fun _ => ha.state) hsc hss
  · refine (h.ring.push ha.lt ha.descriptor ha.state ha.notMem).congr rfl rfl rfl ?_
    intro j hj
    obtain ⟨-, hd, hr⟩ := (h.ring.push ha.lt ha.descriptor ha.state ha.notMem).run j hj
    refine ⟨hd, ?_⟩
    by_cases hja : j = a
    · subst hja
      simpa [ProcState.modPro] using hst
    · simpa [ProcState.modPro, Function.update_of_ne hja] using hr

theorem syscallSwitch (h : ProcInv s) (ha : ActiveRun s a) (hu : s.point = .user) :
    ProcInv s.syscallSwitch := by
  rw [syscallSwitch_eff h ha hu]
  exact h.requeue ha ⟨rfl, rfl, rfl, rfl, rfl, rfl⟩ (h.table.waitstate_mem a ha.lt)

theorem syscallWait {pid : Nat} (h : ProcInv s) (ha : ActiveRun s a)
    (hf : s.syscallWait pid = some t) : ProcInv t := by
  rcases syscallWait_eff h ha hf with ⟨-, rfl⟩ | ⟨-, rfl⟩
  · exact h
  · exact h.requeue ha ⟨rfl, rfl, rfl, rfl, rfl, rfl⟩ (.inr (.inl rfl))

/-- Ending process `a` and telling its parent changes no other process's state. -/
theorem endProcess_state {n : Int} (h : PcbInv s.allPro s.globalPid) (ha : a < procSize)
    (hpid : (s.allPro a).pid ≠ 0) (hi : i ≠ a) :
    ((s.endProcess a n).allPro i).state = (s.allPro i).state ∧
    ((s.endProcess a n).allPro i).pid = (s.allPro i).pid ∧
    ((s.endProcess a n).allPro i).sno = (s.allPro i).sno ∧
    ((s.endProcess a n).allPro i).ppid = (s.allPro i).ppid ∧
    ((s.endProcess a n).allPro i).waitstate = (s.allPro i).waitstate ∧
    ((s.endProcess a n).allPro i).waitingfor = (s.allPro i).waitingfor := by
  rw [endProcess_eq h ha hpid]
  obtain ⟨-, -, -, -, -, -, -, hfr⟩ := signalParent_frame (s.modPro a ProcState.exitPcb) a n
  obtain ⟨hst, hp, hpp, hsno, hws, hwf⟩ := hfr i
  rw [ProcState.modPro_other hi] at hst hp hpp hsno hws hwf
  exact ⟨hst, hp, hsno, hpp, hws, hwf⟩

/-- Only the parent is told, and it is told the status and the pid. -/
theorem endProcess_told {status : Int} (h : PcbInv s.allPro s.globalPid) (ha : a < procSize)
    (hpid : (s.allPro a).pid ≠ 0) (hi : i < procSize) (hia : i ≠ a) (hip : (s.allPro i).pid ≠ 0) :
    ((s.allPro i).pid = (s.allPro a).ppid →
      ((s.endProcess a status).allPro i).sigchildState = status ∧
      ((s.endProcess a status).allPro i).signallingChild = (s.allPro a).pid) ∧
    ((s.allPro i).pid ≠ (s.allPro a).ppid →
      (s.endProcess a status).allPro i = s.allPro i) := by
  have hsame : ∀ j, ((s.modPro a ProcState.exitPcb).allPro j).pid = (s.allPro j).pid := by
    intro j
    by_cases hja : j = a
    · rw [hja, ProcState.modPro_same]
      rfl
    · rw [ProcState.modPro_other hja]
  have hppid : ((s.modPro a ProcState.exitPcb).allPro a).ppid = (s.allPro a).ppid := by
    rw [ProcState.modPro_same]
    rfl
  rw [endProcess_eq h ha hpid]
  constructor
  · intro heq
    have hslot : (s.modPro a ProcState.exitPcb).slotOfPid (s.allPro a).ppid = i := by
      refine firstSlot_eq hi (by simpa [hsame] using heq) ?_
      intro j hj hje
      rw [hsame, beq_iff_eq, ← heq] at hje
      exact h.pid_inj j hj i hi hje (hje ▸ hip)
    unfold ProcState.signalParent
    rw [hppid, hslot, if_pos hi, ProcState.modPro_same]
    exact ⟨rfl, hsame a⟩
  · intro hne
    rw [signalParent_other, ProcState.modPro_other hia]
    by_cases hp : (s.modPro a ProcState.exitPcb).slotOfPid (s.allPro a).ppid < procSize
    · left
      have hspec := slotOfPid_spec hp
      rw [hsame] at hspec
      rintro rfl
      rw [hppid] at hne
      exact hne hspec
    · left
      rw [hppid]
      rintro rfl
      omega

theorem syscallExit {status : Nat} (h : ProcInv s) (ha : ActiveRun s a)
    (hf : s.syscallExit status = some t) : ProcInv t := by
  have hpid := h.table.pid_pos a ha.lt ha.state
  obtain ⟨hd, hq, hst, hen, hg⟩ := endProcess_frame s a (toInt32 status)
  rw [syscallExit_eff ha hf]
  refine ⟨?_, ?_, fun hn => absurd rfl hn⟩
  · have htab := endProcess_table (n := toInt32 status) h.table ha.lt hpid
    rw [← hg] at htab
    exact htab
  · refine h.ring.congr hq hst hen ?_
    intro j hj
    have hja : j ≠ a := fun he => ha.notMem (he ▸ hj)
    obtain ⟨-, hdj, hr⟩ := h.ring.run j hj
    exact ⟨(congrFun hd j).trans hdj, (endProcess_state h.table ha.lt hpid hja).1.trans hr⟩

/-- Retiring the front stub `x`: it ends with status 0, and its program `i` is reaped. -/
theorem retire_eff {u : ProcState} (h : ProcInv s) (hq : s.queue = x :: xs)
    (hsig : (s.allPro x).sigchildState = 0)
    (hu : { s.popQ with active := some x }.killProc = some u) :
    ∃ i < procSize, i ≠ x ∧ (s.allPro i).pid = (s.allPro x).signallingChild ∧
      (s.allPro i).state ≠ running ∧
      u.allPro = Function.update (s.endProcess x 0).allPro i
        { (s.endProcess x 0).allPro i with state := dead } ∧
      u.procDescriptor = Function.update s.procDescriptor i 0 ∧
      u.procQ = s.popQ.procQ ∧ u.procStart = s.popQ.procStart ∧ u.procEnd = s.procEnd ∧
      u.globalPid = s.globalPid ∧ u.active = none := by
  obtain ⟨hlt, -, hrun⟩ := h.ring.run x (by simp [hq])
  have hpid := h.table.pid_pos x hlt hrun
  obtain ⟨i, hi, hip, rfl⟩ :=
    killProc_eff (s := { s.popQ with active := some x }) h.table rfl hlt hrun hu
  have hpro : ({ s.popQ with active := some x }.endProcess x 0).allPro
      = (s.endProcess x 0).allPro := endProcess_congr rfl
  obtain ⟨hfd, hfq, hfs, hfe, hfg⟩ := endProcess_frame { s.popQ with active := some x } x 0
  rw [hpro] at hip
  have hne : i ≠ x := by
    rintro rfl
    rw [endProcess_self h.table hlt hpid] at hip
    exact h.table.signal i hlt hrun hsig i hlt hip hrun
  obtain ⟨-, hpi, hsi, -⟩ := endProcess_state (s := s) h.table hlt hpid hne
  have hnz := h.table.signal_ne x hlt hrun hsig
  have hip' : (s.allPro i).pid = (s.allPro x).signallingChild := by rw [← hpi]; exact hip
  have hsno : ((s.endProcess x 0).allPro i).sno = i := by
    rw [hsi]
    exact h.table.sno_eq i hi (by rw [hip']; exact hnz)
  refine ⟨i, hi, hne, hip', ?_, ?_, ?_, hfq, hfs, hfe, hfg, rfl⟩
  · exact h.table.signal x hlt hrun hsig i hi hip'
  · show Function.update _ i _ = _
    rw [hpro]
  · show Function.update ({ s.popQ with active := some x }.endProcess x 0).procDescriptor _ 0 = _
    rw [hpro, hsno, hfd]
    rfl

theorem dispatch (h : ProcInv s) (hd : s.dispatch = some t) : ProcInv t := by
  obtain ⟨x, xs, hq, hcases⟩ := dispatch_cases h hd
  obtain ⟨hlt, hdesc, hrun⟩ := h.ring.run x (by simp [hq])
  have hpop := h.ring.pop hq
  have hxs : s.popQ.queue = xs := (h.ring.queue_popQ hq).2
  have hnd := h.ring.nodup
  rw [hq, List.nodup_cons] at hnd
  rcases hcases with ⟨rfl, hws⟩ | ⟨rfl, hws⟩ | ⟨-, -, hsig, u, hu, rfl⟩ | ⟨rfl, -, -⟩
  · refine ⟨h.table, hpop.congr rfl rfl rfl (fun j hj => (hpop.run j hj).2), fun _ => ⟨x, ?_⟩⟩
    refine ⟨rfl, hlt, hdesc, hrun, ?_, fun _ => hws, fun hw => KernelPoint.noConfusion hw⟩
    exact hxs ▸ hnd.1
  · refine ⟨h.table, hpop.congr rfl rfl rfl (fun j hj => (hpop.run j hj).2), fun _ => ⟨x, ?_⟩⟩
    refine ⟨rfl, hlt, hdesc, hrun, ?_, fun hw => KernelPoint.noConfusion hw, fun _ => hws⟩
    exact hxs ▸ hnd.1
  · have hpid := h.table.pid_pos x hlt hrun
    obtain ⟨i, hi, hne, hip, hni, hall, hde, hpq, hps, hpe, hpg, -⟩ := h.retire_eff hq hsig hu
    obtain ⟨-, -, -, -, hfg⟩ := endProcess_frame s x 0
    have htab : PcbInv (s.endProcess x 0).allPro s.globalPid := endProcess_table h.table hlt hpid
    refine ⟨?_, ?_, fun hn => absurd rfl hn⟩
    · rw [← hpg] at htab
      show PcbInv u.allPro u.globalPid
      rw [hall]
      exact htab.update_quiet hi rfl rfl rfl (htab.waitstate_mem i hi)
        (fun hr => absurd (show dead = running from hr) (by decide)) rfl rfl
    · refine hpop.congr hpq hps hpe ?_
      intro j hj
      have hjx : j ≠ x := by
        rintro rfl
        exact hnd.1 (hxs ▸ hj)
      obtain ⟨-, hdj, hrj⟩ := hpop.run j hj
      have hji : j ≠ i := by
        rintro rfl
        exact hni hrj
      refine ⟨?_, ?_⟩
      · show u.procDescriptor j = 1
        rw [hde, Function.update_of_ne hji]
        exact hdj
      · show (u.allPro j).state = running
        rw [hall, Function.update_of_ne hji, (endProcess_state h.table hlt hpid hjx).1]
        exact hrj
  · refine ⟨h.table, ?_, fun hn => absurd rfl hn⟩
    refine (hpop.push hlt hdesc hrun (hxs ▸ hnd.1)).congr rfl rfl rfl ?_
    intro j hj
    exact ((hpop.push hlt hdesc hrun (hxs ▸ hnd.1)).run j hj).2

theorem resumeWait (h : ProcInv s) (ha : ActiveRun s a) (hw : s.point = .waitLoop)
    (hr : s.resumeWait = some t) : ProcInv t := by
  rcases resumeWait_cases h ha hw hr with
    ⟨hdone, i, hi, hip, hne, hall, hde, hpq, hps, hpe, hpg, hact, hpt⟩ | ⟨-, rfl⟩
  · have hnz := h.table.signal_ne a ha.lt ha.state hdone.1
    have hni := h.table.signal a ha.lt ha.state hdone.1 i hi hip
    have hsno := h.table.sno_eq i hi (by rw [hip]; exact hnz)
    have hqueue : t.queue = s.queue := by simp [ProcState.queue, hpq, hps, hpe]
    have hrun : ∀ j, (s.allPro j).state = running → j ≠ a →
        t.procDescriptor j = s.procDescriptor j ∧ t.allPro j = s.allPro j := by
      intro j hj hja
      have hji : j ≠ i := by
        rintro rfl
        exact hni hj
      rw [hde, hsno, hall, Function.update_of_ne hji, Function.update_of_ne hja,
        Function.update_of_ne hji]
      exact ⟨rfl, rfl⟩
    refine ⟨?_, ?_, fun _ => ⟨a, ?_⟩⟩
    · rw [hall, hpg]
      have hold : Function.update s.allPro i Pcb.zero a = s.allPro a :=
        Function.update_of_ne hne.symm _ _
      refine (h.table.wipe (h.globalPid_pos ha)).update (by rw [hold]) (by rw [hold])
        (by rw [hold]) (.inl rfl) (fun _ => by rw [hold]; exact ha.state)
        (h.table.signal_lt a ha.lt) ?_ ?_ ?_
      all_goals
        intro _ hz
        exact absurd (show (dead : Int) = 0 from hz) (by decide)
    · refine h.ring.congr hpq hps hpe ?_
      intro j hj
      have hja : j ≠ a := fun he => ha.notMem (he ▸ hj)
      obtain ⟨-, hdj, hrj⟩ := h.ring.run j hj
      obtain ⟨hd', hp'⟩ := hrun j hrj hja
      rw [hd', hp']
      exact ⟨hdj, hrj⟩
    · refine ⟨hact, ha.lt, ?_, ?_, hqueue ▸ ha.notMem, ?_, ?_⟩
      · rw [hde, hsno, Function.update_of_ne hne.symm]
        exact ha.descriptor
      · rw [hall, Function.update_self]
        exact ha.state
      · intro _
        rw [hall, Function.update_self]
      · intro hw'
        rw [hpt] at hw'
        exact absurd hw' (by decide)
  · exact h.requeue ha ⟨rfl, rfl, rfl, rfl, rfl, rfl⟩ (h.table.waitstate_mem a ha.lt)

end ProcInv

/-- Every process that could run is waiting for the CPU or has it. -/
def Complete (s : ProcState) : Prop :=
  ∀ i < procSize, s.procDescriptor i = 1 → (s.allPro i).state = running →
    i ∈ s.queue ∨ (s.point ≠ .switch ∧ s.active = some i)

namespace Complete

theorem mem_or_eq (hc : Complete s) (ha : ActiveRun s a) (hi : i < procSize)
    (hd : s.procDescriptor i = 1) (hr : (s.allPro i).state = running) : i ∈ s.queue ∨ i = a := by
  rcases hc i hi hd hr with hq | ⟨-, hact⟩
  · exact .inl hq
  · rw [ha.active] at hact
    exact .inr (Option.some.inj hact).symm

theorem spawn {c p : Pcb} (hc : Complete s) (h : ProcInv s) (ha : ActiveRun s a)
    (hu : s.point = .user) (hs : Spawned s t a c p) : Complete t := by
  intro i hi hd hr
  rw [hs.queue h.ring ha, List.mem_append, List.mem_singleton]
  by_cases hif : i = s.freeSlot
  · right
    rw [hs.point, hu, hs.active, hif]
    exact ⟨by decide, rfl⟩
  · left
    by_cases hia : i = a
    · exact .inr hia
    · rw [hs.procDescriptor, Function.update_of_ne hif] at hd
      rw [hs.allPro_other hif hia] at hr
      exact hc.mem_or_eq ha hi hd hr

theorem requeue {p : Pcb → Pcb} (hc : Complete s) (h : ProcInv s) (ha : ActiveRun s a) :
    Complete { (s.pushQ a).modPro a p with point := .switch } := by
  intro i hi hd hr
  left
  show i ∈ (s.pushQ a).queue
  rw [h.ring.queue_pushQ ha.lt ha.notMem, List.mem_append, List.mem_singleton]
  by_cases hia : i = a
  · exact .inr hia
  · have hr' : (((s.pushQ a).modPro a p).allPro i).state = running := hr
    rw [ProcState.modPro_other hia] at hr'
    exact hc.mem_or_eq ha hi hd hr'

theorem syscallExit {status : Nat} (hc : Complete s) (h : ProcInv s) (ha : ActiveRun s a)
    (hf : s.syscallExit status = some t) : Complete t := by
  have hpid := h.table.pid_pos a ha.lt ha.state
  obtain ⟨hfd, hfq, hfs, hfe, -⟩ := endProcess_frame s a (toInt32 status)
  rw [ProcInv.syscallExit_eff ha hf]
  intro i hi hd hr
  left
  have hr' : ((s.endProcess a (toInt32 status)).allPro i).state = running := hr
  have hia : i ≠ a := by
    rintro rfl
    rw [ProcInv.endProcess_self h.table hi hpid] at hr'
    exact absurd hr' (by simp [ProcState.exitPcb])
  rw [(ProcInv.endProcess_state h.table ha.lt hpid hia).1] at hr'
  have hd' : s.procDescriptor i = 1 := (congrFun hfd i).symm.trans hd
  have hmem := (hc.mem_or_eq ha hi hd' hr').resolve_right hia
  simpa [ProcState.queue, hfq, hfs, hfe] using hmem

theorem dispatch (hc : Complete s) (h : ProcInv s) (hsw : s.point = .switch)
    (hd : s.dispatch = some t) : Complete t := by
  have hmem : ∀ i < procSize, s.procDescriptor i = 1 → (s.allPro i).state = running →
      i ∈ s.queue := fun i hi hdi hri => (hc i hi hdi hri).resolve_right (fun hn => hn.1 hsw)
  obtain ⟨x, xs, hq, hcases⟩ := ProcInv.dispatch_cases h hd
  obtain ⟨hlt, -, hrun⟩ := h.ring.run x (by simp [hq])
  have hpid := h.table.pid_pos x hlt hrun
  have hxs : s.popQ.queue = xs := (h.ring.queue_popQ hq).2
  have hnd := h.ring.nodup
  rw [hq, List.nodup_cons] at hnd
  simp only [hq, List.mem_cons] at hmem
  rcases hcases with ⟨rfl, -⟩ | ⟨rfl, -⟩ | ⟨-, -, hsig, u, hu, rfl⟩ | ⟨rfl, -, -⟩ <;>
    intro i hi hdi hri
  · rcases hmem i hi hdi hri with rfl | hx
    · exact .inr ⟨by simp, rfl⟩
    · exact .inl (hxs ▸ hx)
  · rcases hmem i hi hdi hri with rfl | hx
    · exact .inr ⟨by simp, rfl⟩
    · exact .inl (hxs ▸ hx)
  · obtain ⟨j, hj, hne, -, -, hall, hde, hpq, hps, hpe, -, -⟩ := h.retire_eff hq hsig hu
    have hri' : (u.allPro i).state = running := hri
    have hdi' : u.procDescriptor i = 1 := hdi
    left
    have hqu : u.queue = s.popQ.queue := by simp [ProcState.queue, hpq, hps, hpe]
    show i ∈ u.queue
    rw [hqu, hxs]
    have hij : i ≠ j := by
      rintro rfl
      rw [hde, Function.update_self] at hdi'
      exact absurd hdi' (by decide)
    rw [hall, Function.update_of_ne hij] at hri'
    rw [hde, Function.update_of_ne hij] at hdi'
    have hix : i ≠ x := by
      rintro rfl
      rw [ProcInv.endProcess_self h.table hi hpid] at hri'
      exact absurd hri' (by simp [ProcState.exitPcb])
    rw [(ProcInv.endProcess_state h.table hlt hpid hix).1] at hri'
    exact (hmem i hi hdi' hri').resolve_left hix
  · left
    show i ∈ (s.popQ.pushQ x).queue
    rw [(h.ring.pop hq).queue_pushQ hlt (hxs ▸ hnd.1), hxs, List.mem_append, List.mem_singleton]
    exact (hmem i hi hdi hri).symm

theorem resumeWait (hc : Complete s) (h : ProcInv s) (ha : ActiveRun s a)
    (hw : s.point = .waitLoop) (hr : s.resumeWait = some t) : Complete t := by
  rcases ProcInv.resumeWait_cases h ha hw hr with
    ⟨hdone, i, hi, hip, hne, hall, hde, hpq, hps, hpe, -, hact, hpt⟩ | ⟨-, rfl⟩
  · have hnz := h.table.signal_ne a ha.lt ha.state hdone.1
    have hsno := h.table.sno_eq i hi (by rw [hip]; exact hnz)
    have hqueue : t.queue = s.queue := by simp [ProcState.queue, hpq, hps, hpe]
    intro j hj hdj hrj
    rw [hqueue]
    have hji : j ≠ i := by
      rintro rfl
      rw [hde, hsno, Function.update_self] at hdj
      exact absurd hdj (by decide)
    by_cases hja : j = a
    · right
      rw [hpt, hact, hja]
      exact ⟨by decide, rfl⟩
    · left
      rw [hde, hsno, Function.update_of_ne hji] at hdj
      rw [hall, Function.update_of_ne hja, Function.update_of_ne hji] at hrj
      exact (hc.mem_or_eq ha hj hdj hrj).resolve_right hja
  · exact hc.requeue h ha

end Complete

theorem zeroTable_inv : PcbInv (fun _ => Pcb.zero) 1 := by
  refine ⟨?_, ?_, ?_, ?_, ?_, ?_, ?_, ?_, ?_, ?_⟩ <;> simp [Pcb.zero]

theorem initProc_table : PcbInv initProc.allPro initProc.globalPid :=
  zeroTable_inv.insert one_pos rfl rfl one_pos rfl rfl (by decide)

theorem initProc_active : ActiveRun initProc 0 :=
  ⟨rfl, by decide, rfl, rfl, by simp [ProcState.queue, initProc], fun _ => rfl,
    fun hw => KernelPoint.noConfusion hw⟩

theorem initProc_inv : ProcInv initProc := by
  have hq : initProc.queue = [] := by simp [ProcState.queue, initProc]
  refine ⟨initProc_table, ⟨by decide, by decide, by simp [hq], ?_⟩, fun _ => ⟨0, initProc_active⟩⟩
  intro i hi
  simp [hq] at hi

theorem initProc_complete : Complete initProc := by
  intro i _ hd _
  right
  by_cases h0 : i = 0
  · subst h0
    exact ⟨by decide, rfl⟩
  · simp [initProc, Function.update_of_ne h0] at hd

theorem ProcInv.active_user (h : ProcInv s) (hu : s.point = .user) : ∃ a, ActiveRun s a :=
  h.active (by rw [hu]; decide)

theorem ProcInv.active_waitLoop (h : ProcInv s) (hw : s.point = .waitLoop) :
    ∃ a, ActiveRun s a := h.active (by rw [hw]; decide)

/-- One step of any kind but a `kill` keeps the invariant. -/
theorem ProcInv.step {l : ProcLabel} (h : ProcInv s) (hk : ∀ pid, l ≠ .kill pid)
    (hs : procStep l s = some t) : ProcInv t := by
  unfold procStep at hs
  split_ifs at hs with hpt
  cases l with
  | fork =>
      obtain ⟨a, ha⟩ := h.active_user hpt
      exact (h.syscallFork ha hpt hs).1
  | yield =>
      obtain ⟨a, ha⟩ := h.active_user hpt
      exact Option.some.inj hs ▸ h.syscallSwitch ha hpt
  | exit status =>
      obtain ⟨a, ha⟩ := h.active_user hpt
      exact h.syscallExit ha hs
  | wait pid =>
      obtain ⟨a, ha⟩ := h.active_user hpt
      exact h.syscallWait ha hs
  | exec file =>
      obtain ⟨a, ha⟩ := h.active_user hpt
      exact (h.syscallExec ha hpt hs).1
  | execFail =>
      obtain ⟨a, ha⟩ := h.active_user hpt
      exact (h.syscallExecFail ha hpt hs).1
  | kill pid => exact absurd rfl (hk pid)
  | dispatch => exact h.dispatch hs
  | resumeWait =>
      obtain ⟨a, ha⟩ := h.active_waitLoop hpt
      exact h.resumeWait ha hpt hs

theorem Complete.step {l : ProcLabel} (hc : Complete s) (h : ProcInv s) (hl : l.ordinary)
    (hs : procStep l s = some t) : Complete t := by
  unfold procStep at hs
  split_ifs at hs with hpt
  cases l with
  | fork =>
      obtain ⟨a, ha⟩ := h.active_user hpt
      exact hc.spawn h ha hpt (ProcInv.syscallFork_eff h ha hs)
  | yield =>
      obtain ⟨a, ha⟩ := h.active_user hpt
      rw [← Option.some.inj hs, ProcInv.syscallSwitch_eff h ha hpt]
      exact hc.requeue h ha
  | exit status =>
      obtain ⟨a, ha⟩ := h.active_user hpt
      exact hc.syscallExit h ha hs
  | wait pid =>
      obtain ⟨a, ha⟩ := h.active_user hpt
      rcases ProcInv.syscallWait_eff h ha hs with ⟨-, rfl⟩ | ⟨-, rfl⟩
      · exact hc
      · exact hc.requeue h ha
  | exec file =>
      obtain ⟨a, ha⟩ := h.active_user hpt
      exact hc.spawn h ha hpt (ProcInv.syscallExec_eff h ha hs)
  | execFail => exact hl.elim
  | kill pid => exact hl.elim
  | dispatch => exact hc.dispatch h hpt hs
  | resumeWait =>
      obtain ⟨a, ha⟩ := h.active_waitLoop hpt
      exact hc.resumeWait h ha hpt hs

theorem ordinary_inv (h : ProcReach (fun l _ => l.ordinary) s) : ProcInv s ∧ Complete s := by
  refine h.invariant (P := fun s => ProcInv s ∧ Complete s) ?_ ?_
  · rintro _ rfl
    exact ⟨initProc_inv, initProc_complete⟩
  · rintro l s t ⟨hi, hc⟩ ⟨hl, hst⟩
    have hk : ∀ pid, l ≠ .kill pid := by
      rintro pid rfl
      exact hl
    exact ⟨hi.step hk hst, hc.step hi hl hst⟩

/-- What the schedule queue is for: every runnable process is in it once, except the
one that has the CPU, and the next push finds room. -/
structure RingOk (s : ProcState) : Prop where
  nodup : s.queue.Nodup
  active : s.point ≠ .switch → ∀ a, s.active = some a → a ∉ s.queue
  complete : ∀ i, s.Live i → (s.allPro i).state = running →
    ¬ (s.point ≠ .switch ∧ s.active = some i) → i ∈ s.queue
  length : s.queue.length ≤ procSize
  room : s.point ≠ .switch → (s.procEnd + 1) % (procSize + 1) ≠ s.procStart
  roomPop : s.point = .switch → s.procStart ≠ s.procEnd →
    (s.popQ.procEnd + 1) % (procSize + 1) ≠ s.popQ.procStart

/-- The scheduler ring invariant of every run of fork, yield, wait, exit and exec. -/
theorem ordinary_ringOk (h : ProcReach (fun l _ => l.ordinary) s) : RingOk s := by
  obtain ⟨hi, hc⟩ := ordinary_inv h
  refine ⟨hi.ring.nodup, ?_, ?_, hi.ring.length_le, ?_, ?_⟩
  · intro hpt a hact
    obtain ⟨b, hb⟩ := hi.active hpt
    rw [hb.active] at hact
    exact Option.some.inj hact ▸ hb.notMem
  · intro i hl hr hn
    exact (hc i hl.1 hl.2.1 hr).resolve_right hn
  · intro hpt
    obtain ⟨b, hb⟩ := hi.active hpt
    exact hi.ring.push_ne_start hb.lt hb.notMem
  · intro _ hne
    cases hq : s.queue with
    | nil => exact absurd ((ringList_eq_nil hi.ring.start_lt hi.ring.end_lt).mp hq) hne
    | cons x xs =>
        have hnd := hi.ring.nodup
        rw [hq, List.nodup_cons, ← (hi.ring.queue_popQ hq).2] at hnd
        exact (hi.ring.pop hq).push_ne_start (hi.ring.run x (by simp [hq])).1 hnd.1

/-- The invariant after the shell has forked and yielded. -/
theorem ordinary_ringOk_forkYield :
    RingOk ((runLabels procStep [.fork, .yield] initProc).get (by decide)) := by
  exact ordinary_ringOk (ProcReach.of_run (by simp [ProcLabel.ordinary]) (Option.some_get _).symm)

end Sbunix
