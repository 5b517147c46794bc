import Sbunix.Sys.Proofs.BootTables
import Sbunix.Sys.Proofs.VmFork

/-!
# Runs of the memory side

The page invariant holds in every state of every run, and with it the reference counts
cover the leaf entries of all address spaces.
-/

namespace Sbunix

variable {k : Nat} {s t : VmState} {a c : Nat} {l : VmLabel}

/-! ## Steps -/

/-- `increment_childpg_ref` only raises counts. -/
theorem incrementKeeps {m m' : Machine} {lo hi : Nat} (hp : PageInv k m noRes) (hr : RootInv k m)
    (hc : c < procSize) (hroot : root m.mem k (some c) = some (m.cr3 / 4096)) (hu : UserRange lo hi)
    (h : VmState.incrementFrom (hi + 1 - lo) lo 0 m = some m') : Keeps k m m' ∧ m'.mem = m.mem := by
  have hnone : ∀ f, ¬ Covers (leaf m.mem k) c lo lo f :=
    fun f ⟨x, hx, hlt, _⟩ => absurd hlt (Nat.not_lt.mpr hx)
  obtain ⟨res, hp', hr', hmem, hcr3, -⟩ := incrementFrom_spec (c := c) (N := m.fl.refCount) hp hr
    hc hroot (fun q hq => ⟨hq, rfl⟩) hu.span (Nat.le_refl lo)
    (fun x hx hlt => absurd hlt (Nat.not_lt.mpr hx)) Marks.start
    (fun b _ => ⟨fun hc => absurd hc (hnone _), fun _ => rfl⟩) h
  exact ⟨⟨⟨hp'.free, hp'.tables, hp'.leaves.release⟩, hr', hcr3, fun d _ => by rw [hmem]⟩, hmem⟩

theorem SameSpace.segment {vaddr memsz : Nat} (h : s.segment a vaddr memsz = some t) :
    SameSpace s t := by
  rw [VmState.segment] at h
  split_ifs at h with hr
  simp only [Option.bind_eq_bind, Option.bind_eq_some_iff, Prod.exists, Option.some.injEq] at h
  obtain ⟨new, s₁, h₁, s₂, h₂, rfl⟩ := h
  refine ((SameSpace.allocVma hr h₁).trans (SameSpace.append h₂)).trans ?_
  exact SameSpace.setMm fun _ => rfl

theorem SameSpace.kMmap {length : Nat} (h : s.kMmap a length = some t) : SameSpace s t := by
  rw [VmState.kMmap] at h
  simp only [Option.bind_eq_bind] at h
  split_ifs at h with hr
  simp only [Option.bind_eq_some_iff, Prod.exists] at h
  obtain ⟨new, s₁, h₁, h₂⟩ := h
  refine (SameSpace.trans ?_ (SameSpace.allocVma hr h₁)).trans (SameSpace.append h₂)
  exact SameSpace.setMm fun _ => rfl

/-- An argument string is a VMA, and its frames are counted. -/
theorem VmInv.argument {addr len : Nat} (hi : VmInv k s) (h : s.argument a addr len = some t) :
    VmInv k t ∧ t.machine.mem = s.machine.mem := by
  rw [VmState.argument] at h
  split_ifs at h with hr
  simp only [Option.bind_eq_bind, Option.bind_eq_some_iff, Prod.exists] at h
  obtain ⟨new, s₁, h₁, s₂, h₂, h⟩ := h
  have hsame := (SameSpace.allocVma hr h₁).trans (SameSpace.append h₂)
  have hi₂ := hsame.vmInv hi
  obtain ⟨c, hc, hroot⟩ := hi₂.current
  obtain ⟨m', hm', rfl⟩ := Option.map_eq_some_iff.mp h
  obtain ⟨hk, hmem⟩ := incrementKeeps hi₂.pages hi₂.rootInv hc hroot hr hm'
  exact ⟨hi₂.machine hk, hmem.trans (congrArg Machine.mem hsame.machine)⟩

/-- A slot that is no longer alive. -/
theorem OwnRoots.kill (h : OwnRoots k s) {alive : Nat → Bool}
    (hal : alive = Function.update s.alive a false) {d : Nat} (hd : alive d = true) :
    d ≠ a ∧ d < procSize ∧ ∃ g, root s.machine.mem k (some d) = some g ∧ (s.mm d).cr3 = g * 4096 := by
  rw [hal, Function.update_apply] at hd
  by_cases hda : d = a
  · rw [if_pos hda] at hd
    exact absurd hd (by simp)
  · rw [if_neg hda] at hd
    exact ⟨hda, h d hd⟩

theorem VmInv.syscallExit (hi : VmInv k s) (h : s.syscallExit a = some t) :
    VmInv k t ∧ t.active = none ∧ t.alive = Function.update s.alive a false := by
  simp only [VmState.syscallExit, Option.bind_eq_bind, Option.bind_eq_some_iff,
    Option.some.injEq] at h
  obtain ⟨s₁, h₁, rfl⟩ := h
  have hsp : SpaceInv k (s.setMm a fun t => { t with cr3 := 0 }) :=
    ⟨hi.pages, hi.rootInv, hi.range, hi.current⟩
  have ht := hsp.removals (.of_exitFrom h₁)
  have hsp₁ := hsp.torn ht
  have hal : Function.update s₁.alive a false = Function.update s.alive a false := by
    rw [ht.alive]
    rfl
  refine ⟨⟨hsp₁.pages, hsp₁.rootInv, hi.small, hsp₁.range, ?_, fun b hb => absurd hb (by simp),
    hsp₁.current⟩, rfl, hal⟩
  · intro d hd
    obtain ⟨hda, hlt, g, hg, hcr3⟩ := OwnRoots.kill hi.alive hal hd
    refine ⟨hlt, g, (ht.keeps.roots d hlt).trans hg, ?_⟩
    show (Function.update s₁.mm a _ d).cr3 = g * 4096
    rw [Function.update_of_ne hda, ht.cr3 d, ← hcr3]
    show (Function.update s.mm a _ d).cr3 = _
    rw [Function.update_of_ne hda]

theorem VmInv.syscallKillMem (hi : VmInv k s) (ha : s.active = some a) (hc : c ≠ a)
    (h : s.syscallKillMem c = some t) :
    VmInv k t ∧ t.active = some a ∧ t.alive = Function.update s.alive c false := by
  rw [VmState.syscallKillMem] at h
  have hi₀ : VmInv k (({ s with alive := Function.update s.alive c false } : VmState).setMm c
      fun t => { t with cr3 := 0 }) := by
    refine ⟨hi.pages, hi.rootInv, hi.small, hi.range, ?_, ?_, hi.current⟩
    · intro d hd
      obtain ⟨hdc, hlt, g, hg, hcr3⟩ := OwnRoots.kill hi.alive rfl hd
      refine ⟨hlt, g, hg, ?_⟩
      show (Function.update s.mm c _ d).cr3 = _
      rw [Function.update_of_ne hdc, hcr3]
    · intro b hb
      obtain rfl : a = b := Option.some.inj (ha.symm.trans hb)
      obtain ⟨hal, hcr3⟩ := hi.active a ha
      show Function.update s.alive c false a = true ∧ (Function.update s.mm c _ a).cr3 = _
      rw [Function.update_of_ne hc.symm, Function.update_of_ne hc.symm]
      exact ⟨hal, hcr3⟩
  have ht := hi₀.spaceInv.removals (.of_killFrom h)
  exact ⟨ht.vmInv hi₀, ht.active.trans ha, ht.alive⟩

theorem VmInv.stepOf (hi : VmInv k s) (ha : s.active = some a) (h : s.stepOf a l = some t) :
    VmInv k t := by
  cases l with
  | switch c => simp [VmState.stepOf] at h
  | kernelFault v => simp [VmState.stepOf] at h
  | fork c =>
      rw [VmState.stepOf] at h
      split_ifs at h with hc
      exact hi.syscallFork ha hc.1 hc.2 h
  | exec c =>
      rw [VmState.stepOf] at h
      split_ifs at h with hc
      exact hi.syscallExec ha hc.1 hc.2 h
  | segment vaddr memsz =>
      rw [VmState.stepOf] at h
      exact (SameSpace.segment h).vmInv hi
  | argument addr len =>
      rw [VmState.stepOf] at h
      exact (hi.argument h).1
  | mmap length =>
      rw [VmState.stepOf] at h
      exact (SameSpace.kMmap h).vmInv hi
  | munmap addr length =>
      simp only [VmState.stepOf, VmState.kMunmap, Option.bind_eq_bind, Option.bind_eq_some_iff,
        Prod.exists] at h
      obtain ⟨found, s₁, h₁, h⟩ := h
      split_ifs at h
      rw [← Option.some.inj h]
      exact (hi.spaceInv.removeFromVmaList h₁).vmInv hi
  | userFault v write =>
      obtain ⟨m', hk, rfl⟩ := userFault_keeps hi ha h
      exact hi.machine hk
  | userStore v b =>
      rw [VmState.stepOf] at h
      split_ifs at h with hc
      obtain ⟨-, m', hk, rfl, -⟩ := store8_keeps hi ha (hi.userAddr hc.2.1) h
      exact hi.machine hk
  | kernelStore v b =>
      rw [VmState.stepOf] at h
      split_ifs at h with hc
      obtain ⟨-, m', hk, rfl, -⟩ := store8_keeps hi ha (hi.userAddr hc.2) h
      exact hi.machine hk
  | exit =>
      exact (hi.syscallExit h).1
  | kill sno =>
      rw [VmState.stepOf] at h
      split_ifs at h with hc
      exact (hi.syscallKillMem ha hc.2 h).1

theorem VmInv.vmStep (hi : VmInv k s) (h : vmStep l s = some t) : VmInv k t := by
  have hown : OwnRoots k s := hi.alive
  have hbind : ∀ l', (s.active.bind fun a => s.stepOf a l') = some t → VmInv k t := by
    intro l' h'
    obtain ⟨a, ha, h'⟩ := Option.bind_eq_some_iff.mp h'
    exact hi.stepOf ha h'
  cases l with
  | switch c =>
      rw [Sbunix.vmStep] at h
      split_ifs at h with hc
      rw [← Option.some.inj h]
      exact hown.switchTo hi.pages hi.small hi.range hc.2
  | kernelFault v =>
      obtain ⟨m', hk, rfl⟩ := kernelFault_keeps hi.pages hi.rootInv
        (fun a ha => hi.active_root ha) h
      exact hi.machine hk
  | _ => exact hbind _ h

/-! ## Runs -/

/-- What start-up establishes and its page faults keep. -/
structure StartInv (k : Nat) (s : VmState) : Prop where
  pages : PageInv k s.machine noRes
  rootInv : RootInv k s.machine
  small : k < 2 ^ 52
  roots : ∀ c < procSize, root s.machine.mem k (some c) = none
  range : ∀ p, UserRange (s.vma p).vstart (s.vma p).vend
  alive : ∀ c, s.alive c = false
  active : s.active = none

theorem VmStart.startInv (h : VmStart s) : ∃ k, StartInv k s := by
  induction h with
  | start hfits hs =>
      obtain ⟨k, hk, hp, hr, hroots⟩ := hfits.start_inv hs
      rw [BootInfo.start, Option.bind_eq_bind, Option.bind_eq_some_iff] at hs
      obtain ⟨⟨mem, kernVA⟩, -, hs⟩ := hs
      have hs' := Option.some.inj hs
      refine ⟨k, hp, hr, hk, hroots, fun p => ?_, fun c => ?_, ?_⟩
      · rw [← hs']
        exact .inl (Nat.two_pow_pos 47)
      · rw [← hs']
      · rw [← hs']
  | fault v _ hf ih =>
      obtain ⟨k, hi⟩ := ih
      obtain ⟨m', hk, rfl⟩ := kernelFault_keeps hi.pages hi.rootInv
        (fun a ha => absurd (hi.active.symm.trans ha) (by simp)) hf
      exact ⟨k, hk.pages, hk.rootInv, hi.small, fun c hc => (hk.roots c hc).trans (hi.roots c hc),
        hi.range, hi.alive, hi.active⟩

/-- `init_proc` creates the first process. -/
theorem StartInv.initProc (hi : StartInv k s) (h : s.initProc = some t) :
    ∃ s₁ g, NewProcess k s s₁ 0 g ∧ t = { s₁.changePtable (s₁.mm 0).cr3 with active := some 0 } ∧
      VmInv k t := by
  rw [VmState.initProc, VmState.syscallExec, Option.bind_eq_bind, Option.bind_eq_some_iff] at h
  obtain ⟨s₁, h₁, h⟩ := h
  have hroot : root s.machine.mem k (some 0) ≠ some (s.machine.cr3 / 4096) := by
    rw [hi.roots 0 (by decide)]
    simp
  obtain ⟨g, hnew⟩ := (createNewProcess_spec hi.pages hi.rootInv hi.small (by decide)
    hroot).sound _ h₁
  refine ⟨s₁, g, hnew, (Option.some.inj h).symm, ?_⟩
  rw [← Option.some.inj h]
  refine hnew.vmInv hi.small (by decide) hi.range fun d hd => ?_
  rw [hi.alive] at hd
  exact absurd hd (by simp)

/-- The invariant of every reachable state. -/
theorem VmReach.vmInv {cond : VmLabel → VmState → Prop} (h : VmReach cond s) : ∃ k, VmInv k s := by
  refine Reach.invariant (P := fun s => ∃ k, VmInv k s) ?_ ?_ h
  · rintro t ⟨s₀, hs₀, ht⟩
    obtain ⟨k, hi⟩ := hs₀.startInv
    obtain ⟨s₁, g, -, -, hv⟩ := hi.initProc ht
    exact ⟨k, hv⟩
  · rintro l s t ⟨k, hi⟩ ⟨-, hst⟩
    exact ⟨k, hi.vmStep hst⟩

end Sbunix
