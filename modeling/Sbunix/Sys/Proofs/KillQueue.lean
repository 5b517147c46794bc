import Sbunix.Sys.Proofs.ProcIdentity
import Sbunix.Sys.Proofs.ProcRuns

/-!
# `syscall_kill` and the schedule queue

`syscall_kill` uses the victim's slot number as a position in `proc_Q`.  Which
entry leaves the queue therefore depends on where that position lies, and not on
where the victim is queued; `dropCell` is the position of the entry that leaves.
-/

namespace Sbunix

variable {s t : ProcState} {a v pid : Nat} {q : Nat → Nat} {fuel i start : Nat}

/-- Between `start` and the slot number the loop moves every cell up by one. -/
theorem shiftQ_down (h : start ≤ i) (hf : i - start < fuel) :
    shiftQ fuel q i start = some fun j => if start < j ∧ j ≤ i then q (j - 1) else q j := by
  induction fuel generalizing i q with
  | zero => omega
  | succ fuel ih =>
      unfold shiftQ
      split_ifs with h₁ h₂ h₃
      · congr 1
        funext j
        rw [if_neg (by omega)]
      · omega
      · omega
      · rw [ih (by omega) (by omega)]
        congr 1
        funext j
        by_cases hj : j = i
        · subst hj
          rw [if_neg (by omega), if_pos (by omega), Function.update_self]
        · rw [Function.update_of_ne hj]
          by_cases hr : start < j ∧ j ≤ i
          · rw [if_pos hr, if_pos (by omega), Function.update_of_ne (by omega)]
          · rw [if_neg hr, if_neg (by omega)]

/-- A slot number below `start` makes the loop run down to cell 1, where the value of
cell 0 goes, and then from `PROC_SIZE` down to `start`. -/
theorem shiftQ_wrap (h : i < start) (hs : start ≤ procSize) (h0 : 0 < i)
    (hf : i + (procSize - start) < fuel) :
    shiftQ fuel q i start =
      some fun j => if (0 < j ∧ j ≤ i) ∨ (start < j ∧ j ≤ procSize) then q (j - 1) else q j := by
  induction fuel generalizing i q with
  | zero => omega
  | succ fuel ih =>
      unfold shiftQ
      rw [if_neg (by omega), if_neg (by omega)]
      split_ifs with h₁
      · rw [shiftQ_down hs (by omega)]
        congr 1
        funext j
        by_cases hj : j = i
        · subst hj
          rw [if_neg (by omega), if_pos (by omega), Function.update_self]
        · by_cases hr : start < j ∧ j ≤ procSize
          · rw [if_pos hr, if_pos (by omega), Function.update_of_ne (by omega)]
          · rw [if_neg hr, if_neg (by omega), Function.update_of_ne hj]
      · rw [ih (by omega) (by omega) (by omega)]
        congr 1
        funext j
        by_cases hj : j = i
        · subst hj
          rw [if_neg (by omega), if_pos (by omega), Function.update_self]
        · by_cases hr : (0 < j ∧ j ≤ i - 1) ∨ (start < j ∧ j ≤ procSize)
          · rw [if_pos hr, if_pos (by omega), Function.update_of_ne (by omega)]
          · rw [if_neg hr, if_neg (by omega), Function.update_of_ne hj]

/-- Slot 0 is never reached from above: the loop reads `proc_Q[-1]` instead. -/
theorem shiftQ_zero (h : start ≠ 0) : shiftQ fuel q 0 start = none := by
  cases fuel with
  | zero => rfl
  | succ fuel =>
      unfold shiftQ
      rw [if_neg (by omega), if_pos rfl]

/-- The position in `proc_Q` of the entry that a kill of slot `v` drops from the queue;
`none` when no single entry leaves it. -/
def dropCell (s : ProcState) (v : Nat) : Option Nat :=
  if s.procStart = s.procEnd then none
  else if s.procStart ≤ v then
    some (if s.procEnd < s.procStart ∨ v < s.procEnd then v else s.procEnd - 1)
  else if v = 0 then none
  else if s.procStart < s.procEnd then some (s.procEnd - 1)
  else if s.procEnd ≤ 1 then some procSize
  else none

theorem queue_get {d : Nat} (hd : d < s.queue.length) :
    s.queue[d] = s.procQ ((s.procStart + d) % (procSize + 1)) := by
  simp [ProcState.queue, ringList]

/-- Where every entry of a queue that does not wrap moves up, the last one goes. -/
theorem unqueue_movesUp {q : Nat → Nat} (he : s.procEnd < procSize + 1)
    (hlt : s.procStart < s.procEnd)
    (hq : shiftQ (2 * (procSize + 1)) s.procQ v s.procStart = some q)
    (hup : ∀ j, s.procStart < j → j < s.procEnd → q j = s.procQ (j - 1)) :
    ∃ q d, s.unqueue v =
        some { s with procQ := q, procStart := (s.procStart + 1) % (procSize + 1) } ∧
      ∃ hd : d < s.queue.length, s.queue[d] = s.procQ (s.procEnd - 1) ∧
        ringList (procSize + 1) q ((s.procStart + 1) % (procSize + 1)) s.procEnd =
          s.queue.eraseIdx d := by
  have hlen : s.queue.length = ringLen (procSize + 1) s.procStart s.procEnd := length_ringList
  have hl := ringLen_of_le (n := procSize + 1) hlt.le he
  have hcell : (s.procStart + (s.procEnd - s.procStart - 1)) % (procSize + 1) = s.procEnd - 1 := by
    rw [Nat.mod_eq_of_lt] <;> omega
  refine ⟨q, s.procEnd - s.procStart - 1, by rw [ProcState.unqueue, hq]; rfl, by omega, ?_, ?_⟩
  · rw [queue_get, hcell]
  · refine ringList_shift (hlt.trans he) he (by omega) ?_ (fun k hk hk' => by omega)
    intro k hk
    rw [Nat.mod_eq_of_lt (by omega), Nat.mod_eq_of_lt (by omega)]
    exact hup _ (by omega) (by omega)

/-- A kill of a slot with a drop cell erases the entry in that cell and no other. -/
theorem unqueue_of_dropCell {c : Nat} (hs : s.procStart < procSize + 1)
    (he : s.procEnd < procSize + 1) (hv : v < procSize) (hc : dropCell s v = some c) :
    ∃ q d, s.unqueue v =
        some { s with procQ := q, procStart := (s.procStart + 1) % (procSize + 1) } ∧
      ∃ hd : d < s.queue.length, s.queue[d] = s.procQ c ∧
        ringList (procSize + 1) q ((s.procStart + 1) % (procSize + 1)) s.procEnd =
          s.queue.eraseIdx d := by
  have hget : ∀ d (hd : d < s.queue.length), (s.procStart + d) % (procSize + 1) = c →
      s.queue[d] = s.procQ c := by
    intro d hd hdc
    rw [queue_get, hdc]
  have hlen : s.queue.length = ringLen (procSize + 1) s.procStart s.procEnd := length_ringList
  unfold dropCell at hc
  split_ifs at hc with h₁ h₂ h₃ h₄ h₅ h₆ <;> rw [Option.some.injEq] at hc <;> subst hc
  · -- the slot number is the position of a queue entry
    have hq : shiftQ (2 * (procSize + 1)) s.procQ v s.procStart = _ := shiftQ_down h₂ (by omega)
    have hl : v - s.procStart < ringLen (procSize + 1) s.procStart s.procEnd := by
      rcases h₃ with h | h
      · rw [ringLen_of_gt h hs]; omega
      · rw [ringLen_of_le (by omega) he]; omega
    refine ⟨_, v - s.procStart, by rw [ProcState.unqueue, hq]; rfl, hlen ▸ hl, hget _ _ ?_, ?_⟩
    · rw [Nat.mod_eq_of_lt] <;> omega
    · refine ringList_shift hs he hl ?_ ?_
      · intro k hk
        rw [Nat.mod_eq_of_lt (by omega), Nat.mod_eq_of_lt (by omega), if_pos (by omega)]
        rfl
      · intro k hk hk'
        rw [if_neg]
        rcases h₃ with h | h
        · rw [ringLen_of_gt h hs] at hk'
          rcases Nat.lt_or_ge (s.procStart + k) (procSize + 1) with hlt | hge
          · rw [Nat.mod_eq_of_lt hlt]; omega
          · rw [Nat.mod_eq_sub_mod hge, Nat.mod_eq_of_lt] <;> omega
        · rw [ringLen_of_le (by omega) he] at hk'
          rw [Nat.mod_eq_of_lt] <;> omega
  · -- the slot number lies behind the queue: every entry moves up
    exact unqueue_movesUp he (by omega) (shiftQ_down h₂ (by omega)) fun j h1 h2 =>
      if_pos (by omega)
  · exact unqueue_movesUp he h₅ (shiftQ_wrap (by omega) (by omega) (by omega) (by omega))
      fun j h1 h2 => if_pos (by omega)
  · -- at most one entry lies behind the wrap, and cell 0 keeps it
    have hq : shiftQ (2 * (procSize + 1)) s.procQ v s.procStart = _ :=
      shiftQ_wrap (by omega) (by omega) (by omega) (by omega)
    have hl := ringLen_of_gt (n := procSize + 1) (show s.procEnd < s.procStart by omega) hs
    refine ⟨_, procSize - s.procStart, by rw [ProcState.unqueue, hq]; rfl, by omega,
      hget _ _ ?_, ?_⟩
    · rw [Nat.mod_eq_of_lt] <;> omega
    · refine ringList_shift hs he (by omega) ?_ ?_
      · intro k hk
        rw [Nat.mod_eq_of_lt (by omega), Nat.mod_eq_of_lt (by omega), if_pos (by omega)]
        rfl
      · intro k hk hk'
        have hz : (s.procStart + k) % (procSize + 1) = 0 := by
          rw [show s.procStart + k = procSize + 1 by omega, Nat.mod_self]
        rw [hz, if_neg (by omega)]

/-- Without a drop cell the kill breaks the queue: the loop runs out of the table, the
queue was empty, or cell 0 is copied to cell 1 while both are in use. -/
theorem unqueue_of_dropCell_none (hs : s.procStart < procSize + 1)
    (he : s.procEnd < procSize + 1) (hv : v < procSize) (hnd : s.queue.Nodup)
    (hc : dropCell s v = none) (hu : s.unqueue v = some t) :
    t.queue ≠ s.queue.filter (· ≠ v) := by
  have hlen : s.queue.length = ringLen (procSize + 1) s.procStart s.procEnd := length_ringList
  unfold dropCell at hc
  split_ifs at hc with h₁ h₂ h₃ h₄ h₅
  · intro heq
    have hle := List.length_filter_le (fun x => decide (x ≠ v)) s.queue
    rw [← heq, hlen, h₁, ringLen_self] at hle
    rw [ProcState.unqueue, Option.bind_eq_bind, Option.bind_eq_some_iff] at hu
    obtain ⟨q, -, hq⟩ := hu
    rw [← Option.some.inj hq] at hle
    simp only [ProcState.queue, length_ringList, Nat.le_zero] at hle
    rw [ringLen_eq_zero (Nat.mod_lt _ (by omega)) he, succ_mod_eq hs] at hle
    split_ifs at hle <;> omega
  · rw [ProcState.unqueue, h₃, shiftQ_zero (by omega)] at hu
    simp at hu
  · intro heq
    have hq : shiftQ (2 * (procSize + 1)) s.procQ v s.procStart = _ :=
      shiftQ_wrap (by omega) (by omega) (by omega) (by omega)
    rw [ProcState.unqueue, hq] at hu
    have hnd' : t.queue.Nodup := heq ▸ hnd.filter _
    rw [← Option.some.inj hu] at hnd'
    have hl := ringLen_of_gt (n := procSize + 1) (show s.procEnd < s.procStart by omega) hs
    have hpop := ringLen_pop hs he h₁
    have h0 : procSize - s.procStart <
        ringLen (procSize + 1) ((s.procStart + 1) % (procSize + 1)) s.procEnd := by omega
    have h1 : procSize - s.procStart + 1 <
        ringLen (procSize + 1) ((s.procStart + 1) % (procSize + 1)) s.procEnd := by omega
    rw [List.nodup_iff_getElem?_ne_getElem?] at hnd'
    refine hnd' _ _ (Nat.lt_succ_self (procSize - s.procStart))
      (by rwa [ProcState.queue, length_ringList]) ?_
    simp only [ProcState.queue, ringList, List.getElem?_map, List.getElem?_range h0,
      List.getElem?_range h1, Option.map_some, Nat.mod_add_mod]
    rw [show s.procStart + 1 + (procSize - s.procStart) = procSize + 1 by omega,
      show s.procStart + 1 + (procSize - s.procStart + 1) = procSize + 1 + 1 by omega,
      Nat.mod_self, Nat.add_mod_left, Nat.mod_eq_of_lt (by omega), if_neg (by omega),
      if_pos (by omega)]

/-- The queue loses exactly the victim when the drop cell holds it, and only then. -/
theorem unqueue_iff (hs : s.procStart < procSize + 1) (he : s.procEnd < procSize + 1)
    (hv : v < procSize) (hnd : s.queue.Nodup) :
    (∃ t, s.unqueue v = some t ∧ t.queue = s.queue.filter (· ≠ v)) ↔
      ∃ c, dropCell s v = some c ∧ s.procQ c = v := by
  cases hc : dropCell s v with
  | none =>
      constructor
      · rintro ⟨t, hu, heq⟩
        exact absurd heq (unqueue_of_dropCell_none hs he hv hnd hc hu)
      · rintro ⟨c, hc', -⟩
        exact absurd hc' (by simp)
  | some c =>
      obtain ⟨q, d, hu, hd, hget, hqueue⟩ := unqueue_of_dropCell hs he hv hc
      simp only [hu, Option.some.injEq, exists_eq_left', ← hget, ← eraseIdx_eq_filter hnd hd,
        ← hqueue]
      rfl

theorem slotOfPid_eq (h : s.Ids) (hv : v < procSize) (hp : (s.allPro v).pid ≠ 0) :
    s.slotOfPid (s.allPro v).pid = v := by
  apply firstSlot_eq hv (by simp)
  intro j hj heq
  have heq' : (s.allPro j).pid = (s.allPro v).pid := by simpa using heq
  exact h.pid_inj j hj v hv heq' (heq' ▸ hp)

/-- The state of `syscall_kill` before its last loop. -/
def killed (s : ProcState) (a v : Nat) : ProcState :=
  (((s.modPro a ProcState.killCaller).modPro v fun p => { p with state := dead }).setDescriptor
    v 0).signalParent v 0

theorem syscallKill_eq {c : Nat} (h : s.Ids) (hact : s.active = some a)
    (hsno : (s.allPro a).sno = c) (hv : v < procSize) (hp : (s.allPro v).pid ≠ 0) :
    s.syscallKill (s.allPro v).pid = (killed s c v).unqueue v := by
  simp only [ProcState.syscallKill, hact, Option.bind_eq_bind, Option.bind_some,
    slotOfPid_eq h hv hp, hsno, killed]
  rw [if_neg (by omega)]

theorem killed_frame (s : ProcState) (a v : Nat) :
    (killed s a v).procDescriptor = Function.update s.procDescriptor v 0 ∧
    (killed s a v).procQ = s.procQ ∧ (killed s a v).procStart = s.procStart ∧
    (killed s a v).procEnd = s.procEnd ∧ (killed s a v).active = s.active ∧
    (killed s a v).globalPid = s.globalPid ∧ (killed s a v).point = s.point := by
  obtain ⟨hd, hq, hst, hen, hac, hg, hpt, -⟩ := signalParent_frame
    (((s.modPro a ProcState.killCaller).modPro v fun p => { p with state := dead }).setDescriptor
      v 0) v 0
  exact ⟨hd, hq, hst, hen, hac, hg, hpt⟩

/-- A kill changes neither state nor wait state of a process other than the victim. -/
theorem killed_other (h : i ≠ v) :
    ((killed s a v).allPro i).state = (s.allPro i).state ∧
    ((killed s a v).allPro i).waitstate = (s.allPro i).waitstate := by
  obtain ⟨-, -, -, -, -, -, -, hfr⟩ := signalParent_frame
    (((s.modPro a ProcState.killCaller).modPro v fun p => { p with state := dead }).setDescriptor
      v 0) v 0
  obtain ⟨hst, -, -, -, hws, -⟩ := hfr i
  rw [ProcState.setDescriptor_allPro, ProcState.modPro_other h] at hst hws
  by_cases hia : i = a
  · subst hia
    rw [ProcState.modPro_same] at hst hws
    exact ⟨hst, hws⟩
  · rw [ProcState.modPro_other hia] at hst hws
    exact ⟨hst, hws⟩

theorem killed_table (h : PcbInv s.allPro s.globalPid) (ha : a < procSize) (hv : v < procSize)
    (hp : (s.allPro v).pid ≠ 0) : PcbInv (killed s a v).allPro s.globalPid := by
  have h₁ : PcbInv (s.modPro a ProcState.killCaller).allPro s.globalPid :=
    h.update_quiet ha rfl rfl rfl (h.waitstate_mem a ha) id rfl rfl
  have h₂ : PcbInv ((s.modPro a ProcState.killCaller).modPro v fun p =>
      { p with state := dead }).allPro s.globalPid :=
    h₁.update_quiet hv rfl rfl rfl (h₁.waitstate_mem v hv)
      (fun hr => absurd (show dead = running from hr) (by decide)) rfl rfl
  have hpid : ((s.modPro a ProcState.killCaller).allPro v).pid = (s.allPro v).pid := by
    by_cases hva : v = a
    · subst hva
      rw [ProcState.modPro_same]
      rfl
    · rw [ProcState.modPro_other hva]
  refine PcbInv.signalParent (s := ((s.modPro a ProcState.killCaller).modPro v fun p =>
    { p with state := dead }).setDescriptor v 0) h₂ hv ?_ ?_
  · rw [ProcState.setDescriptor_allPro, ProcState.modPro_same]
    exact fun hz => hp (hpid.symm.trans hz)
  · rw [ProcState.setDescriptor_allPro, ProcState.modPro_same]
    exact fun hr => absurd (show dead = running from hr) (by decide)

/-- The drop cell of slot `v` holds `v`: the kill of `v` removes the right entry. -/
def DropsVictim (s : ProcState) (v : Nat) : Prop := ∃ c, dropCell s v = some c ∧ s.procQ c = v

theorem syscallKill_queue_iff (h : ProcInv s) (hids : s.Ids) (ha : ActiveRun s a)
    (hv : v < procSize) (hp : (s.allPro v).pid ≠ 0) :
    (∃ t, s.syscallKill (s.allPro v).pid = some t ∧ t.queue = s.queue.filter (· ≠ v)) ↔
      DropsVictim s v := by
  obtain ⟨-, hq, hst, hen, -⟩ := killed_frame s a v
  have hqueue : (killed s a v).queue = s.queue := by simp [ProcState.queue, hq, hst, hen]
  rw [syscallKill_eq hids ha.active (h.sno_active ha) hv hp, ← hqueue,
    unqueue_iff (hst ▸ h.ring.start_lt) (hen ▸ h.ring.end_lt) hv (hqueue ▸ h.ring.nodup)]
  simp only [DropsVictim, dropCell, hq, hst, hen]

/-- A kill that drops the right entry keeps the invariant. -/
theorem ProcInv.syscallKill (h : ProcInv s) (hids : s.Ids) (ha : ActiveRun s a)
    (hu : s.point = .user) (hv : v < procSize) (hp : (s.allPro v).pid ≠ 0) (hva : v ≠ a)
    (hd : DropsVictim s v) (hk : s.syscallKill (s.allPro v).pid = some t) : ProcInv t := by
  obtain ⟨t', ht', hqueue⟩ := (syscallKill_queue_iff h hids ha hv hp).mpr hd
  rw [hk, Option.some.injEq] at ht'
  subst ht'
  rw [syscallKill_eq hids ha.active (h.sno_active ha) hv hp, ProcState.unqueue,
    Option.bind_eq_bind, Option.bind_eq_some_iff] at hk
  obtain ⟨q, -, hq⟩ := hk
  have ht := (Option.some.inj hq).symm
  obtain ⟨hfd, -, -, hen, hac, hg, hpt⟩ := killed_frame s a v
  have hother : ∀ i, i ≠ v → t.procDescriptor i = s.procDescriptor i ∧
      (t.allPro i).state = (s.allPro i).state ∧
      (t.allPro i).waitstate = (s.allPro i).waitstate := by
    intro i hi
    subst ht
    refine ⟨?_, killed_other hi⟩
    show (killed s a v).procDescriptor i = _
    rw [hfd, Function.update_of_ne hi]
  have hmem : ∀ i ∈ t.queue, i ∈ s.queue ∧ i ≠ v := by
    intro i hi
    rw [hqueue, List.mem_filter] at hi
    exact ⟨hi.1, by simpa using hi.2⟩
  refine ⟨?_, ⟨?_, ?_, ?_, ?_⟩, fun _ => ⟨a, ?_⟩⟩
  · subst ht
    show PcbInv (killed s a v).allPro (killed s a v).globalPid
    rw [hg]
    exact killed_table h.table ha.lt hv hp
  · subst ht
    exact Nat.mod_lt _ (by simp)
  · subst ht
    exact hen ▸ h.ring.end_lt
  · rw [hqueue]
    exact h.ring.nodup.filter _
  · intro i hi
    obtain ⟨his, hiv⟩ := hmem i hi
    obtain ⟨hd', hs', -⟩ := hother i hiv
    obtain ⟨hlt, hdi, hri⟩ := h.ring.run i his
    exact ⟨hlt, hd'.trans hdi, hs'.trans hri⟩
  · obtain ⟨hd', hs', hw'⟩ := hother a hva.symm
    refine ⟨?_, ha.lt, hd'.trans ha.descriptor, hs'.trans ha.state, ?_, ?_, ?_⟩
    · subst ht
      exact hac.trans ha.active
    · exact fun hi => ha.notMem (hmem a hi).1
    · exact fun _ => hw'.trans (ha.user hu)
    · intro hw
      have hpu : t.point = .user := by
        subst ht
        exact hpt.trans hu
      rw [hpu] at hw
      exact KernelPoint.noConfusion hw

/-- The kills that remove the right entry: the victim is alive, is not the caller, and
the drop cell of its slot holds it. Every other call is unrestricted. -/
def killDropsVictim : ProcLabel → ProcState → Prop
  | .kill pid, s => ∃ v, s.Live v ∧ (s.allPro v).pid = pid ∧ s.active ≠ some v ∧ DropsVictim s v
  | _, _ => True

theorem killDropsVictim_inv (h : ProcReach killDropsVictim s) : ProcInv s := by
  refine h.invariant' (P := ProcInv) ?_ ?_
  · rintro _ rfl
    exact initProc_inv
  · rintro l s t hr hi ⟨hl, hst⟩
    have hids := reach_ids hr
    by_cases hk : ∃ pid, l = .kill pid
    · obtain ⟨pid, rfl⟩ := hk
      obtain ⟨v, hlive, rfl, hne, hd⟩ := hl
      unfold procStep at hst
      split_ifs at hst with hpt
      obtain ⟨a, ha⟩ := hi.active_user hpt
      have hva : v ≠ a := by
        rintro rfl
        exact hne ha.active
      exact hi.syscallKill hids ha hpt hlive.1 (hids.live v hlive.1 hlive.2.1) hva hd hst
    · exact hi.step (fun pid he => hk ⟨pid, he⟩) hst

/-- Killing removes exactly the victim from the schedule when the drop cell of its slot
holds it, and only then; while all kills are such, `get_nextproc` takes the queue in
order and meets live processes only. -/
theorem syscallKill_queue :
    ∀ s, ProcReach killDropsVictim s →
      (∀ a v, s.point = .user → s.active = some a → s.Live v → v ≠ a →
        ((∃ t, s.syscallKill (s.allPro v).pid = some t ∧
            t.queue = s.queue.filter (· ≠ v)) ↔ DropsVictim s v)) ∧
      (∀ x xs, s.queue = x :: xs →
        s.Live x ∧ s.getNextproc = some (some x, s.popQ) ∧ s.popQ.queue = xs) := by
  intro s hr
  have hi := killDropsVictim_inv hr
  have hids := reach_ids hr
  refine ⟨?_, ?_⟩
  · intro a v hu hact hlive _
    obtain ⟨b, hb⟩ := hi.active_user hu
    exact syscallKill_queue_iff hi hids hb hlive.1 (hids.live v hlive.1 hlive.2.1)
  · intro x xs hq
    obtain ⟨hlt, hd, hrun⟩ := hi.ring.run x (by simp [hq])
    refine ⟨⟨hlt, hd, ?_⟩, hi.ring.getNextproc_cons hi.table hq, (hi.ring.queue_popQ hq).2⟩
    rw [hrun]
    decide

theorem ordinary_killDropsVictim {l : ProcLabel} (h : l.ordinary) : killDropsVictim l s := by
  cases l with
  | kill pid => exact h.elim
  | _ => trivial

/-- The shell forked, its child gave up the CPU: killing the child empties the queue. -/
theorem syscallKill_queue_oneChild :
    ∃ t, ((runLabels procStep [.fork, .yield, .dispatch] initProc).get (by decide)).syscallKill 2 =
      some t ∧ t.queue = [] := by
  have hr : ProcReach killDropsVictim
      ((runLabels procStep [.fork, .yield, .dispatch] initProc).get (by decide)) :=
    (ProcReach.of_run (P := ProcLabel.ordinary) (by simp [ProcLabel.ordinary])
      (Option.some_get _).symm).mono fun _ _ => ordinary_killDropsVictim
  exact ((syscallKill_queue _ hr).1 0 1 (by decide) (by decide) (by decide) (by decide)).mpr
    ⟨2, by decide, by decide⟩

/-- The shell and two descendants: slots 0 and 1 wait, slot 2 runs. -/
def twoForks : ProcState := (runLabels procStep [.fork, .fork] initProc).get (by decide)

theorem twoForks_reach {cond : ProcLabel → Prop} (h : cond .fork) :
    ProcReach (fun l _ => cond l) twoForks :=
  ProcReach.of_run (by simpa using h) (Option.some_get _).symm

/-- A kill of slot 1 there drops slot 0, which is alive, and keeps slot 1. -/
theorem syscallKill_queue_twoForks :
    ¬ ∀ s a v, ProcReach (fun _ _ => True) s → s.point = .user → s.active = some a →
      s.Live v → v ≠ a →
      ∃ t, s.syscallKill (s.allPro v).pid = some t ∧ t.queue = s.queue.filter (· ≠ v) := by
  intro h
  obtain ⟨t, ht, hq⟩ := h twoForks 2 1 (twoForks_reach trivial) (by decide) (by decide) (by decide)
    (by decide)
  have hk : (twoForks.syscallKill (twoForks.allPro 1).pid).map ProcState.queue = some [1] := by
    decide
  have hf : twoForks.queue.filter (· ≠ 1) = [0] := by decide
  rw [ht, Option.map_some, hq, hf] at hk
  exact absurd hk (by decide)

end Sbunix
