import Sbunix.Sys.Proofs.ContextFrames
import Sbunix.Sys.Proofs.ProcRuns
import Sbunix.Sys.Proofs.RingMode
import Sbunix.Sys.Proofs.UserStacks

/-!
# Every process has a processor of its own

The frames on the kernel stacks simulate one processor for each process: a step lemma for each
call, the simulation of whole runs, and what a process finds when it runs again.
-/

namespace Sbunix

open ByteMem StackMachine

variable {p q : ProcState} {s t : Context} {v : VirtualCpus} {k k' : KernelState} {l : ProcLabel}
  {w : KernelWork} {tr : Traces} {a i : Nat} {m : ByteMem} {r : Gpr → UInt64}

/-! ## What a call does to the processes that wait -/

theorem endProcess_waitstate (p : ProcState) (a : Nat) (status : Int) (j : Nat) :
    ((p.endProcess a status).allPro j).waitstate = (p.allPro j).waitstate := by
  obtain ⟨-, -, -, -, -, -, -, hf⟩ :=
    signalParent_frame (p.modPro (p.allPro a).sno ProcState.exitPcb) a status
  rw [ProcState.endProcess, (hf j).2.2.2.2.1]
  by_cases hj : j = (p.allPro a).sno
  · rw [hj, ProcState.modPro_same]
    rfl
  · rw [ProcState.modPro_other hj]

/-- In `q` a process waits in the queue as it did in `p`. -/
def StillWaits (p q : ProcState) (i : Nat) : Prop :=
  i ∈ p.queue ∧ (q.allPro i).waitstate = (p.allPro i).waitstate

/-- A creation queues the caller behind the others. -/
theorem Spawned.stillWaits {c d : Pcb} (hs : Spawned p q a c d) (h : ProcInv p)
    (ha : ActiveRun p a) (hi : i ∈ q.queue) : StillWaits p q i ∨ i = a := by
  rw [hs.queue h.ring ha, List.mem_append, List.mem_singleton] at hi
  by_cases hia : i = a
  · exact .inr hia
  · have hmem := hi.resolve_right hia
    have hif : i ≠ p.freeSlot := fun he => h.ring.free_notMem hs.free (he ▸ hmem)
    exact .inl ⟨hmem, by rw [hs.allPro_other hif hia]⟩

/-- The caller is queued behind the others with another PCB. -/
theorem requeue_stillWaits {g : Pcb → Pcb} (h : ProcInv p) (ha : ActiveRun p a)
    (hi : i ∈ ({ (p.pushQ a).modPro a g with point := .switch } : ProcState).queue) :
    StillWaits p { (p.pushQ a).modPro a g with point := .switch } i ∨ i = a := by
  have hq : ({ (p.pushQ a).modPro a g with point := .switch } : ProcState).queue = p.queue ++ [a] :=
    h.ring.queue_pushQ ha.lt ha.notMem
  rw [hq, List.mem_append, List.mem_singleton] at hi
  by_cases hia : i = a
  · exact .inr hia
  · refine .inl ⟨hi.resolve_right hia, ?_⟩
    show (((p.pushQ a).modPro a g).allPro i).waitstate = _
    rw [ProcState.modPro_other hia]
    rfl

/-- `syscall_switch` takes processes from the queue and may put a stub back. -/
theorem dispatch_stillWaits (h : ProcInv p) (hd : p.dispatch = some q) (hi : i ∈ q.queue)
    (hw : (q.allPro i).waitstate ≠ waitingToDie) : StillWaits p q i := by
  obtain ⟨x, xs, hq, hcases⟩ := ProcInv.dispatch_cases h hd
  have hpop : p.popQ.queue = xs := (h.ring.queue_popQ hq).2
  have hin : ∀ j ∈ xs, j ∈ p.queue := fun j hj => hq ▸ List.mem_cons_of_mem x hj
  rcases hcases with ⟨rfl, -⟩ | ⟨rfl, -⟩ | ⟨-, -, hsig, u, hu, rfl⟩ | ⟨rfl, hws, -⟩
  · exact ⟨hin i (hpop ▸ hi), rfl⟩
  · exact ⟨hin i (hpop ▸ hi), rfl⟩
  · obtain ⟨j, -, -, -, -, hall, -, hpq, hps, hpe, -, -⟩ := ProcInv.retire_eff h hq hsig hu
    have huq : u.queue = p.popQ.queue := by simp [ProcState.queue, hpq, hps, hpe]
    refine ⟨hin i (hpop ▸ huq ▸ hi), ?_⟩
    show (u.allPro i).waitstate = _
    rw [hall, ← endProcess_waitstate p x 0 i]
    by_cases hij : i = j
    · rw [hij, Function.update_self]
    · rw [Function.update_of_ne hij]
  · have hnd := h.ring.nodup
    rw [hq, List.nodup_cons] at hnd
    have hrun := h.ring.run x (by simp [hq])
    have hqueue : (p.popQ.pushQ x).queue = xs ++ [x] := by
      rw [← hpop]
      exact (h.ring.pop hq).queue_pushQ hrun.1 (by rw [hpop]; exact hnd.1)
    have hi' : i ∈ xs ++ [x] := hqueue ▸ hi
    rw [List.mem_append, List.mem_singleton] at hi'
    refine ⟨hin i (hi'.resolve_right fun he => ?_), rfl⟩
    exact hw (he ▸ hws)

/-- The calls that take a process out of the table, whose invariant they break. -/
def ProcLabel.kills : ProcLabel → Prop
  | .kill _ => True
  | _ => False

theorem ProcLabel.ne_kill (hl : ¬ l.kills) : ∀ pid, l ≠ .kill pid := by
  rintro pid rfl
  exact hl trivial

theorem point_ne_switch (hpt : p.point = .user ∨ p.point = .waitLoop) : p.point ≠ .switch := by
  intro hsw
  rw [hsw] at hpt
  rcases hpt with hpt | hpt <;> cases hpt

/-- Except the caller nobody begins to wait in a step. -/
theorem procStep_stillWaits (h : ProcInv p) (hk : ¬ l.kills) (hs : procStep l p = some q)
    (hi : i ∈ q.queue) (hw : (q.allPro i).waitstate ≠ waitingToDie) :
    StillWaits p q i ∨ p.point ≠ .switch ∧ p.active = some i := by
  unfold procStep at hs
  split_ifs at hs with hpt
  have hcaller : ∀ {a}, ActiveRun p a → p.point = .user ∨ p.point = .waitLoop →
      StillWaits p q i ∨ i = a → StillWaits p q i ∨ p.point ≠ .switch ∧ p.active = some i := by
    intro a ha hpt hor
    cases hor with
    | inl hstill => exact .inl hstill
    | inr he => exact .inr ⟨point_ne_switch hpt, he ▸ ha.active⟩
  cases l with
  | fork =>
      obtain ⟨a, ha⟩ := h.active_user hpt
      exact hcaller ha (.inl hpt) ((ProcInv.syscallFork_eff h ha hs).stillWaits h ha hi)
  | yield =>
      obtain ⟨a, ha⟩ := h.active_user hpt
      have hq := Option.some.inj hs
      rw [ProcInv.syscallSwitch_eff h ha hpt] at hq
      subst hq
      exact hcaller ha (.inl hpt) (requeue_stillWaits h ha hi)
  | exit status =>
      obtain ⟨a, ha⟩ := h.active_user hpt
      obtain rfl := ProcInv.syscallExit_eff ha hs
      obtain ⟨-, hq, hst, hen, -⟩ := endProcess_frame p a (toInt32 status)
      have hqueue : (p.endProcess a (toInt32 status)).queue = p.queue := by
        simp [ProcState.queue, hq, hst, hen]
      exact .inl ⟨hqueue ▸ hi, endProcess_waitstate p a _ i⟩
  | wait pid =>
      obtain ⟨a, ha⟩ := h.active_user hpt
      rcases ProcInv.syscallWait_eff h ha hs with ⟨-, rfl⟩ | ⟨-, rfl⟩
      · exact .inl ⟨hi, rfl⟩
      · exact hcaller ha (.inl hpt) (requeue_stillWaits h ha hi)
  | exec file =>
      obtain ⟨a, ha⟩ := h.active_user hpt
      exact hcaller ha (.inl hpt) ((ProcInv.syscallExec_eff h ha hs).stillWaits h ha hi)
  | execFail =>
      obtain ⟨a, ha⟩ := h.active_user hpt
      obtain ⟨-, hfree, -, hall, -, hq, hst, hen, -⟩ := ProcInv.syscallExecFail_eff ha hs
      have hqueue : q.queue = p.queue := by simp [ProcState.queue, hq, hst, hen]
      rw [hqueue] at hi
      have hif : i ≠ p.freeSlot := fun he => h.ring.free_notMem hfree (he ▸ hi)
      exact .inl ⟨hi, by rw [hall, Function.update_of_ne hif]⟩
  | kill pid => exact absurd trivial hk
  | dispatch => exact .inl (dispatch_stillWaits h hs hi hw)
  | resumeWait =>
      obtain ⟨a, ha⟩ := h.active_waitLoop hpt
      rcases ProcInv.resumeWait_cases h ha hpt hs with
        ⟨hdone, j, hj, hjp, hja, hall, -, hq, hst, hen, -⟩ | ⟨-, rfl⟩
      · have hqueue : q.queue = p.queue := by simp [ProcState.queue, hq, hst, hen]
        rw [hqueue] at hi
        have hia : i ≠ a := fun he => ha.notMem (he ▸ hi)
        have hij : i ≠ j := by
          rintro rfl
          exact h.table.signal a ha.lt ha.state hdone.1 i hj hjp (h.ring.run i hi).2.2
        exact .inl ⟨hi, by rw [hall, Function.update_of_ne hia, Function.update_of_ne hij]⟩
      · exact hcaller ha (.inr hpt) (requeue_stillWaits h ha hi)

/-- The calls that make a process. -/
def ProcLabel.creates : ProcLabel → Prop
  | .fork | .exec _ | .execFail => True
  | _ => False

/-- No other call takes a slot. -/
theorem procStep_descriptor (h : ProcInv p) (hk : ¬ l.kills) (hl : ¬ l.creates)
    (hs : procStep l p = some q) (hi : q.procDescriptor i = 1) : p.procDescriptor i = 1 := by
  have hupdate : ∀ {f : Nat → Nat} {j : Nat}, Function.update f j 0 i = 1 → f i = 1 := by
    intro f j hj
    by_cases hij : i = j
    · rw [hij, Function.update_self] at hj
      exact absurd hj (by decide)
    · rwa [Function.update_of_ne hij] at hj
  unfold procStep at hs
  split_ifs at hs with hpt
  cases l with
  | fork => exact absurd trivial hl
  | exec file => exact absurd trivial hl
  | execFail => exact absurd trivial hl
  | kill pid => exact absurd trivial hk
  | yield =>
      obtain ⟨a, ha⟩ := h.active_user hpt
      have hq := Option.some.inj hs
      rw [ProcInv.syscallSwitch_eff h ha hpt] at hq
      subst hq
      exact hi
  | exit status =>
      obtain ⟨a, ha⟩ := h.active_user hpt
      obtain rfl := ProcInv.syscallExit_eff ha hs
      rw [← (endProcess_frame p a (toInt32 status)).1]
      exact hi
  | wait pid =>
      obtain ⟨a, ha⟩ := h.active_user hpt
      rcases ProcInv.syscallWait_eff h ha hs with ⟨-, rfl⟩ | ⟨-, rfl⟩
      · exact hi
      · exact hi
  | dispatch =>
      obtain ⟨x, xs, hq, hcases⟩ := ProcInv.dispatch_cases h hs
      rcases hcases with ⟨rfl, -⟩ | ⟨rfl, -⟩ | ⟨-, -, hsig, u, hu, rfl⟩ | ⟨rfl, -, -⟩
      · exact hi
      · exact hi
      · obtain ⟨j, -, -, -, -, -, hde, -⟩ := ProcInv.retire_eff h hq hsig hu
        have hi' : u.procDescriptor i = 1 := hi
        rw [hde] at hi'
        exact hupdate hi'
      · exact hi
  | resumeWait =>
      obtain ⟨a, ha⟩ := h.active_waitLoop hpt
      rcases ProcInv.resumeWait_cases h ha hpt hs with
        ⟨-, j, -, -, -, -, hde, -⟩ | ⟨-, rfl⟩
      · rw [hde] at hi
        exact hupdate hi
      · exact hi

/-! ## The simulation -/

/-- The process of slot `i` waits in the queue with the registers `r`. One that has yielded
starts from its frame, one in `syscall_wait` from below. -/
structure Waiting (s : Context) (r : Gpr → UInt64) (i : Nat) : Prop where
  parked : Parked s.cpu.mem (s.reg i) i r
  ready : (s.kernel.proc.allPro i).waitstate = 0 → s.kStack i = s.reg i
  blocked : (s.kernel.proc.allPro i).waitstate = waitingToLive →
    InSlot i (s.kStack i) ∧ s.kStack i ≤ s.reg i

theorem Waiting.keep (h : Waiting s r i) (hq : StillWaits s.kernel.proc t.kernel.proc i)
    (hreg : t.reg i = s.reg i) (hk : t.kStack i = s.kStack i)
    (hm : Parked s.cpu.mem (s.reg i) i r → Parked t.cpu.mem (s.reg i) i r) : Waiting t r i := by
  refine ⟨?_, ?_, ?_⟩
  · rw [hreg]
    exact hm h.parked
  · rw [hq.2, hk, hreg]
    exact h.ready
  · rw [hq.2, hk, hreg]
    exact h.blocked

/-- The machine agrees with virtual processors, one for each process. -/
structure Simulates (s : Context) (v : VirtualCpus) : Prop where
  kernel : s.kernel = v.kernel
  image : s.image = v.image
  inv : ProcInv s.kernel.proc
  handler : s.kernel.handler ≠ none → s.kernel.proc.point = .user
  made : ∀ i, s.kernel.proc.procDescriptor i = 1 →
    s.kStackbase i = kstackTop i ∧ (s.image i).user.uStackbase = stackTop i
  tss : ∀ a, s.kernel.proc.point ≠ .switch → s.kernel.proc.active = some a →
    s.rsp0 ≤ kstackTop a ∧ kstackTop a ≤ s.rsp0 + 8000
  program : s.kernel.userMode → s.cpu.regs = v.cpu
  called : ¬ s.kernel.userMode → s.kernel.proc.point ≠ .switch →
    ∀ a, s.kernel.proc.active = some a → Parked s.cpu.mem (s.reg a) a v.cpu
  switch : s.kernel.proc.point = .switch → ∃ b, InSlot b s.cpu.sp ∧
    (b ∈ s.kernel.proc.queue → (s.kernel.proc.allPro b).waitstate ≠ waitingToDie →
      s.cpu.sp ≤ s.reg b)
  waiting : ∀ i ∈ s.kernel.proc.queue, (s.kernel.proc.allPro i).waitstate ≠ waitingToDie →
    Waiting s (v.saved i) i

theorem KernelState.handler_not_user {n : Nat} (h : k.handler = some n) : ¬ k.userMode := by
  intro hu
  rw [hu.2] at h
  cases h

namespace Simulates

/-- The process the kernel works for, away from `syscall_switch`. -/
theorem activeRun (h : Simulates s v) (hsw : s.kernel.proc.point ≠ .switch)
    (ha : s.kernel.proc.active = some a) : ActiveRun s.kernel.proc a := by
  obtain ⟨b, hb⟩ := h.inv.active hsw
  have hba := hb.active
  rw [ha] at hba
  exact Option.some.inj hba ▸ hb

theorem tss_inSlot (h : Simulates s v) (hsw : s.kernel.proc.point ≠ .switch)
    (ha : s.kernel.proc.active = some a) : InSlot a s.rsp0 := by
  have ht := h.tss a hsw ha
  unfold InSlot
  omega

theorem kernelSp_user (hu : s.kernel.userMode) : s.kernelSp = s.rsp0 := if_pos hu

theorem kernelSp_called (hu : ¬ s.kernel.userMode) (hsw : s.kernel.proc.point ≠ .switch)
    (ha : s.kernel.proc.active = some a) : s.kernelSp = s.reg a := by
  unfold Context.kernelSp
  rw [if_neg hu]
  cases hp : s.kernel.proc.point with
  | switch => exact absurd hp hsw
  | user => rw [ha]; rfl
  | waitLoop => rw [ha]; rfl

theorem kernelSp_switch (hsw : s.kernel.proc.point = .switch) : s.kernelSp = s.cpu.sp := by
  have hu : ¬ s.kernel.userMode := by
    intro hu
    rw [hu.1] at hsw
    cases hsw
  unfold Context.kernelSp
  rw [if_neg hu, hsw]

/-- A process in the queue is not the one that runs. -/
theorem ne_active (h : Simulates s v) (hsw : s.kernel.proc.point ≠ .switch)
    (ha : s.kernel.proc.active = some a) (hi : i ∈ s.kernel.proc.queue) : i ≠ a :=
  fun he => (h.activeRun hsw ha).notMem (he ▸ hi)

/-! ### Steps of the program -/

theorem userMode_switch (hu : s.kernel.userMode) : s.kernel.proc.point ≠ .switch := by
  rw [hu.1]
  decide

theorem user_active (h : Simulates s v) (hu : s.kernel.userMode) :
    ∃ a, s.kernel.proc.active = some a := by
  obtain ⟨a, ha⟩ := h.inv.active (userMode_switch hu)
  exact ⟨a, ha.active⟩

/-- A step that stays in user mode and touches no frame. -/
theorem stay {cpu : StackMachine Gpr} {regs : Gpr → UInt64} (h : Simulates s v)
    (hu : s.kernel.userMode) (hk : k.proc = s.kernel.proc) (hh : k.handler = none)
    (hregs : cpu.regs = regs)
    (hm : ∀ i ∈ s.kernel.proc.queue, ∀ r, Parked s.cpu.mem (s.reg i) i r →
      Parked cpu.mem (s.reg i) i r) :
    Simulates { s with kernel := k, cpu := cpu } { v with kernel := k, cpu := regs } where
  kernel := rfl
  image := h.image
  inv := hk ▸ h.inv
  handler := fun _ => hk ▸ hu.1
  made := by
    rw [hk]
    exact h.made
  tss := by
    rw [hk]
    exact h.tss
  program := fun _ => hregs
  called := fun hn => absurd ⟨hk ▸ hu.1, hh⟩ hn
  switch := fun hsw => absurd (hk ▸ hsw) (userMode_switch hu)
  waiting := by
    rw [hk]
    intro i hi hw
    exact (h.waiting i hi hw).keep ⟨hi, congrArg (fun p => (p.allPro i).waitstate) hk⟩ rfl rfl
      (hm i hi _)

theorem program_step {regs : Gpr → UInt64} (h : Simulates s v)
    (hs : contextStep (.program regs) s = some t) :
    ∃ v', virtualStep (.program regs) v = some v' ∧ Simulates t v' := by
  rw [contextStep] at hs
  split_ifs at hs with hu
  obtain rfl := Option.some.inj hs
  refine ⟨{ v with kernel := s.kernel, cpu := regs }, ?_,
    h.stay hu rfl hu.2 rfl fun _ _ _ hp => hp⟩
  rw [virtualStep, if_pos (h.kernel ▸ hu), h.kernel]

/-- Memory after C functions that an interrupt has called. -/
theorem over_delivered {cpu : StackMachine Gpr} (h : Simulates s v) (hu : s.kernel.userMode)
    (ha : s.kernel.proc.active = some a) (hfit : stackFloor s.kernelSp ≤ tr.low)
    (hlow : alignedTop s.rsp0 ≤ cpu.sp + 168) (hhigh : cpu.sp ≤ alignedTop s.rsp0)
    (hload : ∀ x < 2 ^ 64, x + 168 < alignedTop s.rsp0 ∨ alignedTop s.rsp0 ≤ x →
      cpu.mem.load x = s.cpu.mem.load x) :
    ∀ i ∈ s.kernel.proc.queue, ∀ r, Parked s.cpu.mem (s.reg i) i r →
      Parked (tr.over cpu.sp cpu.mem) (s.reg i) i r := by
  intro i hi r hp
  have hsw := userMode_switch hu
  have hne := h.ne_active hsw ha hi
  have hin := h.tss_inSlot hsw ha
  have ht := h.tss a hsw ha
  have hlt := (h.inv.ring.run i hi).1
  have hdiv : s.rsp0 < alignedTop s.rsp0 + 16 ∧ alignedTop s.rsp0 ≤ s.rsp0 := by
    unfold alignedTop
    omega
  rw [kernelSp_user hu] at hfit
  have hslot : InSlot a cpu.sp := by
    unfold InSlot at *
    omega
  have hfloor : stackFloor cpu.sp = stackFloor s.rsp0 := by
    have h₁ := stackFloor_eq hslot
    have h₂ := stackFloor_eq hin
    omega
  rw [← hfloor] at hfit
  refine Parked.over ?_ hlt hslot hfit fun he => absurd he hne
  apply hp.congr
  intro x _ _ hx
  apply hload x (kstackSlot_lt hlt hx)
  unfold KstackSlot kstackTop at hx
  unfold InSlot kstackTop at hslot
  have hai : a ≠ i := fun he => hne he.symm
  unfold kstackTop at ht
  omega

theorem interrupt_step {n : Nat} {err : UInt64} (h : Simulates s v)
    (hfit : stackFloor s.kernelSp ≤ tr.low) (hs : contextStep (.interrupt n err tr) s = some t) :
    ∃ v', virtualStep (.interrupt n err tr) v = some v' ∧ Simulates t v' := by
  rw [contextStep] at hs
  split_ifs at hs with hu
  obtain ⟨code, hcode, ht⟩ := Option.bind_eq_some_iff.mp hs
  obtain rfl := Option.some.inj ht
  obtain ⟨a, ha⟩ := h.user_active hu.1
  have hsw := userMode_switch hu.1
  have htss := h.tss a hsw ha
  have hpos := kstackbase_pos
  have hlt := kstackTop_lt (h.activeRun hsw ha).lt
  have htop : 168 ≤ alignedTop s.rsp0 ∧ s.rsp0 < 2 ^ 64 := by
    have hbase : 8192 ≤ kstackTop a := by
      unfold kstackTop
      omega
    unfold alignedTop
    omega
  have hdel := @delivered_spec s.cpu s.rsp0 n err htop.1 htop.2
  have hafter : ∃ f, (execAll tr.body code ⟨deliver s.rsp0 n err s.cpu, []⟩).cpu.mem =
      (tr.body f (pushAll gprPushed.reverse (deliver s.rsp0 n err s.cpu))).mem :=
    interrupt_mem hcode hu.2
  obtain ⟨f, hmem⟩ := hafter
  have hkeeps : KeepsFrame s.rsp0 tr.body := by
    intro f c hc
    refine ⟨rfl, ?_⟩
    intro x hx hx'
    have hslot : KstackSlot a x := by
      unfold alignedTop at hc hx'
      unfold KstackSlot kstackTop
      unfold kstackTop at htss
      omega
    exact Traces.over_load (h.activeRun hsw ha).lt hslot (.inr hx)
  have hregs : (execAll tr.body code ⟨deliver s.rsp0 n err s.cpu, []⟩).cpu.regs = s.cpu.regs :=
    (interrupt_undisturbed hcode hkeeps htop.1 htop.2).1.regs
  refine ⟨{ v with kernel := s.kernel, cpu := v.cpu }, ?_,
    h.stay hu.1 rfl hu.1.2 (hregs.trans (h.program hu.1)) ?_⟩
  · rw [virtualStep, if_pos ⟨h.kernel ▸ hu.1, hu.2, by rw [hcode]; rfl⟩, h.kernel]
  · rw [hmem]
    exact over_delivered h hu.1 ha hfit hdel.1 (by omega) hdel.2.2

/-- The frame that a system call builds. -/
theorem trap_parked (h : Simulates s v) (hsw : s.kernel.proc.point ≠ .switch)
    (ha : s.kernel.proc.active = some a) :
    Parked (trap s.rsp0 s.cpu).mem (trap s.rsp0 s.cpu).sp a s.cpu.regs := by
  have htss := h.tss a hsw ha
  have hlt := kstackTop_lt (h.activeRun hsw ha).lt
  have hbase : 8192 ≤ kstackTop a := by
    unfold kstackTop
    omega
  have htop : 160 ≤ alignedTop s.rsp0 ∧ alignedTop s.rsp0 ≤ s.rsp0 ∧
      s.rsp0 < alignedTop s.rsp0 + 16 := by
    unfold alignedTop
    omega
  have hsp := trap_sp (c := s.cpu) htop.1 (Nat.lt_of_le_of_lt htss.1 hlt)
  exact ⟨by omega, by omega, trap_frame htop.1 (Nat.lt_of_le_of_lt htss.1 hlt)⟩

/-- It is not on the stacks of the processes that wait. -/
theorem trap_waiting (h : Simulates s v) (hsw : s.kernel.proc.point ≠ .switch)
    (ha : s.kernel.proc.active = some a) (hi : i ∈ s.kernel.proc.queue)
    (hp : Parked s.cpu.mem (s.reg i) i r) : Parked (trap s.rsp0 s.cpu).mem (s.reg i) i r := by
  have hne := h.ne_active hsw ha hi
  have htss := h.tss a hsw ha
  have hlt := kstackTop_lt (h.activeRun hsw ha).lt
  have hlti := (h.inv.ring.run i hi).1
  have htop : alignedTop s.rsp0 ≤ s.rsp0 ∧ s.rsp0 < alignedTop s.rsp0 + 16 := by
    unfold alignedTop
    omega
  apply hp.congr
  intro x _ _ hslot
  have hx := hslot
  unfold KstackSlot kstackTop at hx
  unfold kstackTop at htss hlt
  apply trap_load (by omega) (by omega) (kstackSlot_lt hlti hslot)
  omega

/-- What `sys_call` does with the call number. -/
theorem kernelStep_sysCall {rax : Nat} (hk : kernelStep (.sysCall rax) k = some k') :
    k.userMode ∧ k'.proc = k.proc := by
  rw [kernelStep] at hk
  split_ifs at hk with hu
  · obtain rfl := Option.some.inj hk
    exact ⟨hu, rfl⟩
  · obtain rfl := Option.some.inj hk
    exact ⟨hu, rfl⟩

theorem sysCall_step (h : Simulates s v) (hfit : stackFloor s.kernelSp ≤ tr.low)
    (hs : contextStep (.sysCall tr) s = some t) :
    ∃ v', virtualStep (.sysCall tr) v = some v' ∧ Simulates t v' := by
  obtain ⟨a, ha, hs⟩ := Option.bind_eq_some_iff.mp hs
  obtain ⟨k, hk, hs⟩ := Option.bind_eq_some_iff.mp hs
  obtain ⟨hu, hproc⟩ := kernelStep_sysCall hk
  have hsw := userMode_switch hu
  have hpark := h.trap_parked hsw ha
  refine ⟨{ v with kernel := k, cpu := v.cpu }, ?_, ?_⟩
  · rw [virtualStep, ← h.kernel, ← h.program hu, hk]
    rfl
  cases hh : k.handler with
  | none =>
      rw [hh] at hs
      obtain rfl := Option.some.inj hs
      have hin := hpark.inSlot
      have hlta := (h.activeRun hsw ha).lt
      have hfloor : stackFloor (trap s.rsp0 s.cpu).sp = stackFloor s.rsp0 := by
        have h₁ := stackFloor_eq hin
        have h₂ := stackFloor_eq (h.tss_inSlot hsw ha)
        omega
      rw [kernelSp_user hu, ← hfloor] at hfit
      -- the frame comes back as it is
      have hback := hpark.over hlta hin hfit fun _ => Nat.le_refl _
      have hregs : (resume (tr.body .sysCall (trap s.rsp0 s.cpu))).regs = v.cpu :=
        (hback.resume (c := tr.body .sysCall (trap s.rsp0 s.cpu)) hlta rfl rfl).trans (h.program hu)
      refine h.stay hu hproc hh hregs ?_
      intro i hi r hp
      have hmem : (resume (tr.body .sysCall (trap s.rsp0 s.cpu))).mem =
          tr.over (trap s.rsp0 s.cpu).sp (trap s.rsp0 s.cpu).mem := popAll_mem _ _
      rw [hmem]
      exact (h.trap_waiting hsw ha hi hp).over (h.inv.ring.run i hi).1 hin hfit
        fun he => absurd he (h.ne_active hsw ha hi)
  | some n =>
      rw [hh] at hs
      obtain rfl := Option.some.inj hs
      have hnu : ¬ k.userMode := KernelState.handler_not_user hh
      refine ⟨rfl, h.image, hproc ▸ h.inv, fun _ => hproc ▸ hu.1, ?_, ?_, fun hn => absurd hn hnu,
        ?_, fun hn => absurd (hproc ▸ hn) hsw, ?_⟩
      · rw [hproc]
        exact h.made
      · rw [hproc]
        exact h.tss
      · rw [hproc]
        intro _ _ b hb
        obtain rfl : a = b := Option.some.inj (ha.symm.trans hb)
        dsimp only
        rw [Function.update_self, ← h.program hu]
        exact hpark
      · rw [hproc]
        intro i hi hw
        have hreg : Function.update s.reg a (trap s.rsp0 s.cpu).sp i = s.reg i :=
          Function.update_of_ne (h.ne_active hsw ha hi) _ _
        exact (h.waiting i hi hw).keep ⟨hi, congrArg (fun p => (p.allPro i).waitstate) hproc⟩ hreg
          rfl (h.trap_waiting hsw ha hi)

/-! ### Where the steps of the kernel end -/

/-- A handler has run on the stack of its process. -/
theorem worked_parked (h : Simulates s v) (hu : ¬ s.kernel.userMode)
    (hsw : s.kernel.proc.point ≠ .switch) (ha : s.kernel.proc.active = some a)
    (hfit : stackFloor s.kernelSp ≤ tr.low) : Parked (s.worked a tr) (s.reg a) a v.cpu := by
  have hp := h.called hu hsw a ha
  rw [kernelSp_called hu hsw ha] at hfit
  exact hp.over (h.activeRun hsw ha).lt hp.inSlot hfit fun _ => Nat.le_refl _

theorem worked_waiting (h : Simulates s v) (hu : ¬ s.kernel.userMode)
    (hsw : s.kernel.proc.point ≠ .switch) (ha : s.kernel.proc.active = some a)
    (hfit : stackFloor s.kernelSp ≤ tr.low) (hi : i ∈ s.kernel.proc.queue)
    (hp : Parked s.cpu.mem (s.reg i) i r) : Parked (s.worked a tr) (s.reg i) i r := by
  rw [kernelSp_called hu hsw ha] at hfit
  exact hp.over (h.inv.ring.run i hi).1 (h.called hu hsw a ha).inSlot hfit
    fun he => absurd he (h.ne_active hsw ha hi)

end Simulates

/-- The call returns to its program. -/
theorem Simulates.returned {v : VirtualCpus} {w : UInt64} (hinv : ProcInv k.proc)
    (hpt : k.proc.point = .user) (hh : k.handler = none) (ha : k.proc.active = some a)
    (hkernel : v.kernel = k) (himage : s.image = v.image)
    (hmade : ∀ i, k.proc.procDescriptor i = 1 →
      s.kStackbase i = kstackTop i ∧ (s.image i).user.uStackbase = stackTop i)
    (htss : s.rsp0 ≤ kstackTop a ∧ kstackTop a ≤ s.rsp0 + 8000)
    (hp : Parked m (s.reg a) a r) (hcpu : v.cpu = Function.update r .rax w)
    (hwait : ∀ i ∈ k.proc.queue, (k.proc.allPro i).waitstate ≠ waitingToDie →
      Waiting { s with kernel := k, cpu := { s.cpu with mem := m } } (v.saved i) i) :
    Simulates (s.ret a k m w) v := by
  have hsw : k.proc.point ≠ .switch := by
    rw [hpt]
    decide
  obtain ⟨b, hb⟩ := hinv.active hsw
  obtain rfl : a = b := Option.some.inj (ha.symm.trans hb.active)
  have hmem : (s.ret a k m w).cpu.mem = setField m (s.reg a) .rax w := popAll_mem _ _
  refine ⟨hkernel.symm, himage, hinv, fun _ => hpt, hmade, ?_, ?_, fun hn => absurd ⟨hpt, hh⟩ hn,
    fun hn => absurd hn hsw, ?_⟩
  · intro c _ hc
    obtain rfl : a = c := Option.some.inj (ha.symm.trans hc)
    exact htss
  · intro _
    have hset : Parked (setField m (s.reg a) .rax w) (s.reg a) a (Function.update r .rax w) :=
      hp.setField hb.lt
    rw [hcpu]
    exact hset.resume (c := { s.cpu with sp := s.reg a, mem := setField m (s.reg a) .rax w }) hb.lt
      rfl rfl
  · intro i hi hw
    have hne : i ≠ a := fun he => hb.notMem (he ▸ hi)
    refine (hwait i hi hw).keep (t := s.ret a k m w) ⟨hi, rfl⟩ rfl rfl ?_
    intro hpi
    rw [hmem]
    exact hpi.setField_other hp (hinv.ring.run i hi).1 hb.lt hne

/-- A process starts from its `k_stack`. -/
theorem Simulates.started {v : VirtualCpus} (hinv : ProcInv s.kernel.proc)
    (hpt : s.kernel.proc.point = .user) (hh : s.kernel.handler = none)
    (ha : s.kernel.proc.active = some a) (hkernel : v.kernel = s.kernel)
    (himage : s.image = v.image)
    (hmade : ∀ i, s.kernel.proc.procDescriptor i = 1 →
      s.kStackbase i = kstackTop i ∧ (s.image i).user.uStackbase = stackTop i)
    (hp : Parked s.cpu.mem (s.kStack a) a v.cpu)
    (hwait : ∀ i ∈ s.kernel.proc.queue, (s.kernel.proc.allPro i).waitstate ≠ waitingToDie →
      Waiting s (v.saved i) i) :
    Simulates (s.start a) v := by
  have hsw : s.kernel.proc.point ≠ .switch := by
    rw [hpt]
    decide
  obtain ⟨b, hb⟩ := hinv.active hsw
  obtain rfl : a = b := Option.some.inj (ha.symm.trans hb.active)
  have hmem : (s.start a).cpu.mem = s.cpu.mem := popAll_mem _ _
  refine ⟨hkernel.symm, himage, hinv, fun _ => hpt, hmade, ?_, ?_, fun hn => absurd ⟨hpt, hh⟩ hn,
    fun hn => absurd hn hsw, ?_⟩
  · intro c _ hc
    obtain rfl : a = c := Option.some.inj (ha.symm.trans hc)
    have hbase := (hmade a hb.descriptor).1
    show s.kStackbase a ≤ kstackTop a ∧ kstackTop a ≤ s.kStackbase a + 8000
    omega
  · intro _
    exact hp.resume (c := { s.cpu with sp := s.kStack a }) hb.lt rfl rfl
  · intro i hi hw
    refine (hwait i hi hw).keep (t := s.start a) ⟨hi, rfl⟩ rfl rfl ?_
    intro hpi
    rw [hmem]
    exact hpi

/-- The kernel looks for the next process, with its stack pointer in the slot `b`. -/
theorem Simulates.switching {v : VirtualCpus} {b : Nat} (hinv : ProcInv s.kernel.proc)
    (hpt : s.kernel.proc.point = .switch) (hh : s.kernel.handler = none)
    (hkernel : v.kernel = s.kernel) (himage : s.image = v.image)
    (hmade : ∀ i, s.kernel.proc.procDescriptor i = 1 →
      s.kStackbase i = kstackTop i ∧ (s.image i).user.uStackbase = stackTop i)
    (hb : InSlot b s.cpu.sp)
    (hsp : b ∈ s.kernel.proc.queue → (s.kernel.proc.allPro b).waitstate ≠ waitingToDie →
      s.cpu.sp ≤ s.reg b)
    (hwait : ∀ i ∈ s.kernel.proc.queue, (s.kernel.proc.allPro i).waitstate ≠ waitingToDie →
      Waiting s (v.saved i) i) :
    Simulates s v where
  kernel := hkernel.symm
  image := himage
  inv := hinv
  handler := fun hn => absurd hh hn
  made := hmade
  tss := fun _ hn => absurd hpt hn
  program := fun hu => absurd hpt (userMode_switch hu)
  called := fun _ hn => absurd hpt hn
  switch := fun _ => ⟨b, hb, hsp⟩
  waiting := hwait

/-! ### Calls that return at once -/

/-- What the other handlers do to the process side. -/
structure FileCalled (p q : ProcState) : Prop where
  inv : ProcInv q
  active : q.active = p.active
  point : q.point = p.point
  queue : q.queue = p.queue
  procDescriptor : q.procDescriptor = p.procDescriptor
  waitstate : ∀ i, (q.allPro i).waitstate = (p.allPro i).waitstate

theorem fileCall_eff {fd : List (Option FileObject)} {currentDir : Option (List Char)}
    (h : ProcInv p) (hpt : p.point = .user) (hq : p.fileCall fd currentDir = some q) :
    FileCalled p q := by
  obtain ⟨a, hact, hq⟩ := Option.bind_eq_some_iff.mp hq
  obtain rfl := Option.some.inj hq
  obtain ⟨b, hb⟩ := h.active_user hpt
  obtain rfl : a = b := Option.some.inj (hact.symm.trans hb.active)
  have hother : ∀ i, ((p.modPro a fun p => { p with fd, currentDir }).allPro i).waitstate =
        (p.allPro i).waitstate ∧
      ((p.modPro a fun p => { p with fd, currentDir }).allPro i).state = (p.allPro i).state := by
    intro i
    by_cases hi : i = a
    · rw [hi, ProcState.modPro_same]
      exact ⟨rfl, rfl⟩
    · rw [ProcState.modPro_other hi]
      exact ⟨rfl, rfl⟩
  refine ⟨⟨?_, ?_, fun _ => ⟨a, ?_⟩⟩, rfl, rfl, rfl, rfl, fun i => (hother i).1⟩
  · exact h.table.update_quiet hb.lt rfl rfl rfl (h.table.waitstate_mem a hb.lt) id rfl rfl
  · refine h.ring.congr rfl rfl rfl ?_
    intro j hj
    rw [(hother j).2]
    exact (h.ring.run j hj).2
  · refine ⟨hact, hb.lt, hb.descriptor, (hother a).2.trans hb.state, hb.notMem, ?_, ?_⟩
    · exact fun hu => (hother a).1.trans (hb.user hu)
    · exact fun hw => (hother a).1.trans (hb.waitLoop hw)

theorem kernelStep_files {fd : List (Option FileObject)} {currentDir : Option (List Char)}
    (hk : kernelStep (.files fd currentDir) k = some k') :
    (∃ n, k.handler = some n) ∧ k'.handler = none ∧
      k.proc.fileCall fd currentDir = some k'.proc := by
  rw [kernelStep] at hk
  cases hh : k.handler with
  | none =>
      rw [hh] at hk
      cases hk
  | some n =>
      rw [hh] at hk
      dsimp only at hk
      split_ifs at hk
      obtain ⟨q, hq, hk⟩ := Option.bind_eq_some_iff.mp hk
      obtain rfl := Option.some.inj hk
      exact ⟨⟨n, rfl⟩, rfl, hq⟩

theorem kernelStep_run (hk : kernelStep (.run l) k = some k') :
    procStep l k.proc = some k'.proc ∧ k'.handler = none ∧ ¬ k.userMode := by
  rw [kernelStep] at hk
  split_ifs at hk with hn
  obtain ⟨q, hq, hk⟩ := Option.bind_eq_some_iff.mp hk
  obtain rfl := Option.some.inj hk
  exact ⟨hq, rfl, run_not_user hn hq⟩

namespace Simulates

theorem files_step {fd : List (Option FileObject)} {currentDir : Option (List Char)} {w : UInt64}
    (h : Simulates s v) (hfit : stackFloor s.kernelSp ≤ tr.low)
    (hs : contextStep (.files fd currentDir w tr) s = some t) :
    ∃ v', virtualStep (.files fd currentDir w tr) v = some v' ∧ Simulates t v' := by
  obtain ⟨a, ha, hs⟩ := Option.bind_eq_some_iff.mp hs
  obtain ⟨k, hk, hs⟩ := Option.bind_eq_some_iff.mp hs
  obtain rfl := Option.some.inj hs
  obtain ⟨⟨n, hn⟩, hh, hq⟩ := kernelStep_files hk
  have hpt := h.handler (by rw [hn]; exact Option.some_ne_none n)
  have hsw : s.kernel.proc.point ≠ .switch := by
    rw [hpt]
    decide
  have hu := KernelState.handler_not_user hn
  have hq := fileCall_eff h.inv hpt hq
  refine ⟨v.ret k w, ?_, ?_⟩
  · rw [virtualStep, ← h.kernel, hk]
    rfl
  refine returned hq.inv (hq.point.trans hpt) hh (hq.active.trans ha) rfl h.image ?_
    (h.tss a hsw ha) (h.worked_parked hu hsw ha hfit) rfl ?_
  · rw [hq.procDescriptor]
    exact h.made
  · intro i hi hw
    rw [hq.queue] at hi
    rw [hq.waitstate] at hw
    exact (h.waiting i hi hw).keep ⟨hi, hq.waitstate i⟩ rfl rfl
      (h.worked_waiting hu hsw ha hfit hi)

/-- The invariants that a step of the process side keeps. -/
theorem run_inv (h : Simulates s v) (hk : kernelStep (.run l) s.kernel = some k)
    (hl : ¬ l.kills) : ProcInv k.proc := h.inv.step (ProcLabel.ne_kill hl) (kernelStep_run hk).1

theorem run_made (h : Simulates s v) (hk : kernelStep (.run l) s.kernel = some k)
    (hl : ¬ l.kills) (hc : ¬ l.creates) :
    ∀ i, k.proc.procDescriptor i = 1 →
      s.kStackbase i = kstackTop i ∧ (s.image i).user.uStackbase = stackTop i :=
  fun i hi => h.made i (procStep_descriptor h.inv hl hc (kernelStep_run hk).1 hi)

end Simulates

end Sbunix
