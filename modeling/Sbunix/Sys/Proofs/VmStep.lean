import Sbunix.Sys.Proofs.CreateSpace
import Sbunix.Sys.Proofs.ForkPages
import Sbunix.Sys.Proofs.UnmapRange

/-!
# The steps of the memory side keep the page invariant

One lemma for each operation on VMA lists, then one for each system call and fault.
-/

namespace Sbunix

variable {k : Nat} {s t u : VmState} {a c v p q start stop node : Nat}

/-! ## Operations on VMA lists -/

/-- `t` is `s` up to VMA lists; the nodes still cover user addresses only. -/
structure SameSpace (s t : VmState) : Prop where
  machine : t.machine = s.machine
  alive : t.alive = s.alive
  active : t.active = s.active
  cr3 : ∀ d, (t.mm d).cr3 = (s.mm d).cr3
  range : (∀ p, UserRange (s.vma p).vstart (s.vma p).vend) →
    ∀ p, UserRange (t.vma p).vstart (t.vma p).vend

namespace SameSpace

theorem refl : SameSpace s s := ⟨rfl, rfl, rfl, fun _ => rfl, id⟩

theorem trans (h : SameSpace s t) (h' : SameSpace t u) : SameSpace s u :=
  ⟨h'.machine.trans h.machine, h'.alive.trans h.alive, h'.active.trans h.active,
    fun d => (h'.cr3 d).trans (h.cr3 d), fun hr => h'.range (h.range hr)⟩

theorem setMm {f : Mm → Mm} (hf : ∀ x, (f x).cr3 = x.cr3) : SameSpace s (s.setMm a f) := by
  refine ⟨rfl, rfl, rfl, fun d => ?_, id⟩
  show (Function.update s.mm a (f (s.mm a)) d).cr3 = _
  by_cases hd : d = a
  · rw [hd, Function.update_self, hf]
  · rw [Function.update_of_ne hd]

theorem setVma {n : Vma} (hn : UserRange n.vstart n.vend) : SameSpace s (s.setVma p n) := by
  refine ⟨rfl, rfl, rfl, fun _ => rfl, fun hr x => ?_⟩
  show UserRange (Function.update s.vma p n x).vstart (Function.update s.vma p n x).vend
  by_cases hx : x = p
  · rw [hx, Function.update_self]
    exact hn
  · rw [Function.update_of_ne hx]
    exact hr x

theorem setNext : SameSpace s (s.setNext p q) := by
  refine ⟨rfl, rfl, rfl, fun _ => rfl, fun hr x => ?_⟩
  show UserRange (Function.update s.vma p _ x).vstart (Function.update s.vma p _ x).vend
  by_cases hx : x = p
  · rw [hx, Function.update_self]
    exact hr p
  · rw [Function.update_of_ne hx]
    exact hr x

theorem recycle (h : s.recyclevmastruct node = some t) : SameSpace s t := by
  rw [VmState.recyclevmastruct] at h
  split_ifs at h with h0
  · rw [← Option.some.inj h]
    exact setNext.trans ⟨rfl, rfl, rfl, fun _ => rfl, id⟩
  · rw [Option.map_eq_some_iff] at h
    obtain ⟨last, -, rfl⟩ := h
    exact setNext.trans setNext

theorem kmalloc {n : Nat} (h : s.kmalloc n = some (p, t)) : SameSpace s t := by
  rw [VmState.kmalloc] at h
  split_ifs at h
  simp only [Option.some.injEq, Prod.mk.injEq] at h
  rw [← h.2]
  exact ⟨rfl, rfl, rfl, fun _ => rfl, id⟩

theorem recyclebin : SameSpace s s.getvmaFromRecylebin.2 := by
  rw [VmState.getvmaFromRecylebin]
  split_ifs
  · exact refl
  · exact ⟨rfl, rfl, rfl, fun _ => rfl, id⟩

theorem allocVma (hr : UserRange start stop) (h : s.allocVma start stop = some (p, t)) :
    SameSpace s t := by
  rw [VmState.allocVma] at h
  split_ifs at h with h0
  · simp only [Option.bind_eq_bind, Option.bind_eq_some_iff, Prod.exists, Option.some.injEq,
      Prod.mk.injEq] at h
    obtain ⟨new, s', hnew, -, rfl⟩ := h
    exact (recyclebin.trans (kmalloc hnew)).trans (setVma hr)
  · have ht : s.getvmaFromRecylebin.2.setVma s.getvmaFromRecylebin.1 ⟨start, stop, 0⟩ = t :=
      congrArg Prod.snd (Option.some.inj h)
    rw [← ht]
    exact recyclebin.trans (setVma hr)

theorem append (h : s.appendToVmaList a p = some t) : SameSpace s t := by
  rw [VmState.appendToVmaList] at h
  split_ifs at h
  · rw [← Option.some.inj h]
    exact setMm fun _ => rfl
  · rw [Option.map_eq_some_iff] at h
    obtain ⟨last, -, rfl⟩ := h
    exact setNext

theorem allocVma_vma (h : s.allocVma start stop = some (p, t)) :
    t.vma = Function.update s.vma p ⟨start, stop, 0⟩ := by
  have hbin : s.getvmaFromRecylebin.2.vma = s.vma := by
    rw [VmState.getvmaFromRecylebin]
    split_ifs <;> rfl
  rw [VmState.allocVma] at h
  split_ifs at h with h0
  · simp only [Option.bind_eq_bind, Option.bind_eq_some_iff, Prod.exists, Option.some.injEq,
      Prod.mk.injEq] at h
    obtain ⟨new, s', hnew, rfl, rfl⟩ := h
    rw [VmState.kmalloc] at hnew
    split_ifs at hnew
    simp only [Option.some.injEq, Prod.mk.injEq] at hnew
    rw [← hbin, ← hnew.2]
    rfl
  · simp only [Option.bind_eq_bind, Option.bind_some, Option.some.injEq, Prod.mk.injEq] at h
    rw [← h.2, ← h.1, ← hbin]
    rfl

/-- Linking a node in does not change the bounds of any. -/
theorem append_bounds (h : s.appendToVmaList a p = some t) (x : Nat) :
    (t.vma x).vstart = (s.vma x).vstart ∧ (t.vma x).vend = (s.vma x).vend := by
  rw [VmState.appendToVmaList] at h
  split_ifs at h
  · rw [← Option.some.inj h]
    exact ⟨rfl, rfl⟩
  · rw [Option.map_eq_some_iff] at h
    obtain ⟨last, -, rfl⟩ := h
    show (Function.update s.vma last _ x).vstart = _ ∧ (Function.update s.vma last _ x).vend = _
    by_cases hx : x = last
    · rw [hx, Function.update_self]
      exact ⟨rfl, rfl⟩
    · rw [Function.update_of_ne hx]
      exact ⟨rfl, rfl⟩

/-- The invariant does not speak about lists. -/
theorem vmInv (h : SameSpace s t) (hi : VmInv k s) : VmInv k t := by
  refine ⟨h.machine ▸ hi.pages, h.machine ▸ hi.rootInv, hi.small, h.range hi.range, ?_, ?_, ?_⟩
  · intro c hc
    rw [h.alive] at hc
    rw [h.machine, h.cr3]
    exact hi.alive c hc
  · intro a ha
    rw [h.active] at ha
    rw [h.alive, h.cr3, h.machine]
    exact hi.active a ha
  · rw [h.machine]
    exact hi.current

end SameSpace

/-! ## Removing VMAs -/

/-- The bounds of all nodes are kept. -/
def SameBounds (s t : VmState) : Prop :=
  ∀ p, (t.vma p).vstart = (s.vma p).vstart ∧ (t.vma p).vend = (s.vma p).vend

namespace SameBounds

theorem trans (h : SameBounds s t) (h' : SameBounds t u) : SameBounds s u := fun p =>
  ⟨(h' p).1.trans (h p).1, (h' p).2.trans (h p).2⟩

theorem setNext : SameBounds s (s.setNext p q) := by
  intro x
  show (Function.update s.vma p _ x).vstart = _ ∧ (Function.update s.vma p _ x).vend = _
  by_cases hx : x = p
  · rw [hx, Function.update_self]
    exact ⟨rfl, rfl⟩
  · rw [Function.update_of_ne hx]
    exact ⟨rfl, rfl⟩

theorem recycle (h : s.recyclevmastruct node = some t) : SameBounds s t := by
  rw [VmState.recyclevmastruct] at h
  split_ifs at h with h0
  · rw [← Option.some.inj h]
    exact setNext.trans fun _ => ⟨rfl, rfl⟩
  · rw [Option.map_eq_some_iff] at h
    obtain ⟨last, -, rfl⟩ := h
    exact setNext.trans setNext

end SameBounds

/-- What `remove_from_vma_list` does besides the lists: it unmaps the pages of `node`. -/
structure Removed (s t : VmState) (node : Nat) : Prop where
  machine : s.machine.unmapPhyaddrRange (s.vma node).vstart (s.vma node).vend = some t.machine
  alive : t.alive = s.alive
  active : t.active = s.active
  cr3 : ∀ d, (t.mm d).cr3 = (s.mm d).cr3
  bounds : SameBounds s t

/-- The first node of a list that covers `[start, stop]`. -/
def matchFrom (vma : Nat → Vma) (start stop : Nat) : Nat → Nat → Option Nat
  | 0, _ => none
  | fuel + 1, p =>
      if p = 0 then none
      else if (vma p).vstart ≤ start ∧ stop ≤ (vma p).vend then some p
      else matchFrom vma start stop fuel (vma p).nextvma

theorem removeFrom_cases {fuel r : Nat} (h : s.removeFrom start stop fuel p q = some (r, t)) :
    (r = 0 ∧ t = s ∧ matchFrom s.vma start stop fuel q = none) ∨
      (r = 1 ∧ ∃ n, matchFrom s.vma start stop fuel q = some n ∧ Removed s t n) := by
  induction fuel generalizing p q with
  | zero => simp [VmState.removeFrom] at h
  | succ fuel ih =>
      rw [VmState.removeFrom] at h
      rw [matchFrom]
      split_ifs at h with h0 hm
      · simp only [Option.some.injEq, Prod.mk.injEq] at h
        exact .inl ⟨h.1.symm, h.2.symm, if_pos h0⟩
      · simp only [Option.bind_eq_bind, Option.bind_eq_some_iff, Option.some.injEq,
          Prod.mk.injEq] at h
        obtain ⟨s₁, h₁, s₂, h₂, rfl, rfl⟩ := h
        have hsame := SameSpace.setNext.trans (SameSpace.recycle h₁)
        have hbounds := SameBounds.setNext.trans (SameBounds.recycle h₁)
        rw [(hbounds q).1, (hbounds q).2] at h₂
        obtain ⟨m, hm', rfl⟩ := Option.map_eq_some_iff.mp h₂
        rw [hsame.machine] at hm'
        rw [if_neg h0, if_pos hm]
        exact .inr ⟨rfl, q, rfl, hm', hsame.alive, hsame.active, hsame.cr3, hbounds⟩
      · rw [if_neg h0, if_neg hm]
        exact ih h

theorem removeFromVmaList_cases {r : Nat} (h : s.removeFromVmaList a start stop = some (r, t)) :
    (r = 0 ∧ t = s ∧ matchFrom s.vma start stop (2 ^ 64) (s.mm a).vmaList = none) ∨
      (r = 1 ∧ ∃ n, matchFrom s.vma start stop (2 ^ 64) (s.mm a).vmaList = some n ∧
        Removed s t n) := by
  rw [VmState.removeFromVmaList] at h
  have hfuel : (2 ^ 64 : Nat) = 2 ^ 64 - 1 + 1 := rfl
  split_ifs at h with h0 hm
  · simp only [Option.some.injEq, Prod.mk.injEq] at h
    rw [hfuel, matchFrom, if_pos h0]
    exact .inl ⟨h.1.symm, h.2.symm, rfl⟩
  · simp only [Option.bind_eq_bind, Option.bind_eq_some_iff, Option.some.injEq,
      Prod.mk.injEq] at h
    obtain ⟨s₁, h₁, s₃, h₃, rfl, rfl⟩ := h
    obtain ⟨m, hm', rfl⟩ := Option.map_eq_some_iff.mp h₁
    have hsame := SameSpace.recycle h₃
    have hbounds := SameBounds.recycle h₃
    have hmm := SameSpace.setMm (s := { s with machine := m }) (a := a)
      (f := fun t => { t with vmaList := (s.vma (s.mm a).vmaList).nextvma }) fun _ => rfl
    rw [hfuel, matchFrom, if_neg h0, if_pos hm]
    refine .inr ⟨rfl, _, rfl, ?_, hsame.alive, hsame.active,
      fun d => (hsame.cr3 d).trans (hmm.cr3 d), hbounds⟩
    rw [hsame.machine]
    exact hm'
  · exact removeFrom_cases h

/-- A sequence of calls of `remove_from_vma_list`. -/
inductive Removals (a : Nat) : VmState → VmState → Prop
  | refl {s : VmState} : Removals a s s
  | step {s t u : VmState} {start stop r : Nat} :
      s.removeFromVmaList a start stop = some (r, t) → Removals a t u → Removals a s u

/-- The loop of `syscall_exit`. -/
theorem Removals.of_exitFrom {fuel : Nat} (h : VmState.exitFrom a fuel p s = some t) :
    Removals a s t := by
  induction fuel generalizing p s with
  | zero => cases h
  | succ fuel ih =>
    rw [VmState.exitFrom] at h
    split_ifs at h
    · rw [← Option.some.inj h]
      exact refl
    · simp only [Option.bind_eq_bind, Option.bind_eq_some_iff, Prod.exists] at h
      obtain ⟨r, u, hu, h⟩ := h
      exact step hu (ih h)

/-- The loop of `syscall_kill`. -/
theorem Removals.of_killFrom {fuel : Nat} (h : VmState.killFrom a fuel p s = some t) :
    Removals a s t := by
  induction fuel generalizing p s with
  | zero => cases h
  | succ fuel ih =>
    rw [VmState.killFrom] at h
    split_ifs at h
    · rw [← Option.some.inj h]
      exact refl
    · simp only [Option.bind_eq_bind, Option.bind_eq_some_iff, Prod.exists] at h
      obtain ⟨r, u, hu, h⟩ := h
      exact step hu (ih h)

/-- What removing VMAs keeps of an address space. -/
structure Torn (k : Nat) (s t : VmState) : Prop where
  keeps : Keeps k s.machine t.machine
  alive : t.alive = s.alive
  active : t.active = s.active
  cr3 : ∀ d, (t.mm d).cr3 = (s.mm d).cr3
  bounds : SameBounds s t

namespace Torn

theorem trans (h : Torn k s t) (h' : Torn k t u) : Torn k s u :=
  ⟨h.keeps.trans h'.keeps, h'.alive.trans h.alive, h'.active.trans h.active,
    fun d => (h'.cr3 d).trans (h.cr3 d), h.bounds.trans h'.bounds⟩

theorem range (h : Torn k s t) (hr : ∀ p, UserRange (s.vma p).vstart (s.vma p).vend) (p : Nat) :
    UserRange (t.vma p).vstart (t.vma p).vend := by
  rw [(h.bounds p).1, (h.bounds p).2]
  exact hr p

theorem vmInv (h : Torn k s t) (hi : VmInv k s) : VmInv k t := by
  have hm := hi.machine h.keeps
  refine ⟨hm.pages, hm.rootInv, hm.small, h.range hi.range, ?_, ?_, hm.current⟩
  · intro c hc
    rw [h.alive] at hc
    rw [h.cr3]
    exact hm.alive c hc
  · intro a ha
    rw [h.active] at ha
    rw [h.alive, h.cr3]
    exact hm.active a ha

end Torn

/-- What tearing down needs. -/
structure SpaceInv (k : Nat) (s : VmState) : Prop where
  pages : PageInv k s.machine noRes
  rootInv : RootInv k s.machine
  range : ∀ p, UserRange (s.vma p).vstart (s.vma p).vend
  current : ∃ c < procSize, root s.machine.mem k (some c) = some (s.machine.cr3 / 4096)

namespace SpaceInv

theorem torn_refl (h : SpaceInv k s) : Torn k s s :=
  ⟨Keeps.refl h.pages h.rootInv, rfl, rfl, fun _ => rfl, fun _ => ⟨rfl, rfl⟩⟩

theorem torn (h : SpaceInv k s) (ht : Torn k s t) : SpaceInv k t := by
  refine ⟨ht.keeps.pages, ht.keeps.rootInv, ht.range h.range, ?_⟩
  obtain ⟨c, hc, hr⟩ := h.current
  exact ⟨c, hc, by rw [ht.keeps.roots c hc, ht.keeps.cr3, hr]⟩

theorem removed (h : SpaceInv k s) (hr : Removed s t node) : Torn k s t := by
  obtain ⟨c, hc, hroot⟩ := h.current
  obtain ⟨m', hm', hk, -⟩ := unmapRange_spec h.pages h.rootInv hc hroot (h.range node)
  rw [hr.machine] at hm'
  exact ⟨Option.some.inj hm' ▸ hk, hr.alive, hr.active, hr.cr3, hr.bounds⟩

theorem removeFromVmaList {r : Nat} (h : SpaceInv k s)
    (hf : s.removeFromVmaList a start stop = some (r, t)) : Torn k s t := by
  rcases removeFromVmaList_cases hf with ⟨-, rfl, -⟩ | ⟨-, n, -, hrem⟩
  · exact h.torn_refl
  · exact h.removed hrem

theorem removals (h : SpaceInv k s) (hr : Removals a s t) : Torn k s t := by
  induction hr with
  | refl => exact h.torn_refl
  | step hrem _ ih =>
    have ht := h.removeFromVmaList hrem
    exact ht.trans (ih (h.torn ht))

end SpaceInv

theorem VmInv.spaceInv (h : VmInv k s) : SpaceInv k s :=
  ⟨h.pages, h.rootInv, h.range, h.current⟩

/-! ## Faults -/

/-- Mapping a page that is no PML4 window. -/
theorem mapKeeps {m m' : Machine} {sp : Space} {pa : Nat} (hinv : PageInv k m noRes)
    (hr : RootInv k m) (hs : InSpace k m v sp) (hnw : ¬ Window (sp, pageOf v)) (hv : v % 4096 = 0)
    (h0 : leaf m.mem k (sp, pageOf v) = 0) (h : m.mapPhyaddr v = some (pa, m')) :
    Keeps k m m' ∧ ∃ P b, Mapped k m m' (sp, pageOf v) P b := by
  obtain ⟨P, b, hm, hpages, hroot, -⟩ := (Machine.mapPhyaddr_fresh hinv hr hs hnw hv h0).sound _ h
  refine ⟨⟨hpages, hroot, hm.cr3, fun c hc => roots_of_leaf (fun d hd => ?_) hc⟩, P, b, hm⟩
  rw [hm.leaf, Function.update_of_ne]
  intro he
  exact hnw (he ▸ window_mk hd)

/-- The page of an address, as the fault handlers compute it. -/
theorem pageAddr_eq : v >>> 12 <<< 12 = v / 4096 * 4096 := by
  rw [Nat.shiftRight_eq_div_pow, Nat.shiftLeft_eq]

theorem pageOf_pageAddr : pageOf (v / 4096 * 4096) = pageOf v := by
  unfold pageOf
  omega

theorem InSpace.pageAddr {m : Machine} {sp : Space} (h : InSpace k m v sp) :
    InSpace k m (v / 4096 * 4096) sp :=
  InSpace.of_add (Nat.mul_mod_left _ _) (Nat.mod_lt v (by decide))
    (by rwa [show v / 4096 * 4096 + v % 4096 = v by omega])

/-- `map_phyaddr` for a page fault at an address that is not mapped. -/
theorem faultKeeps {m m' : Machine} {sp : Space} {pa : Nat} (hinv : PageInv k m noRes)
    (hr : RootInv k m) (hs : InSpace k m v sp) (hnw : ¬ Window (sp, pageOf v))
    (h0 : leaf m.mem k (sp, pageOf v) = 0)
    (h : m.mapPhyaddr (v >>> 12 <<< 12) = some (pa, m')) :
    Keeps k m m' ∧ ∃ P b, Mapped k m m' (sp, pageOf v) P b := by
  rw [pageAddr_eq] at h
  rw [← pageOf_pageAddr] at hnw h0 ⊢
  exact mapKeeps hinv hr hs.pageAddr hnw (Nat.mul_mod_left _ _) h0 h

/-- The address of a kernel fault lies in a half of the current address space. -/
theorem KernelRange.inSpace {m : Machine} {active : Option Nat} (h : KernelRange active v)
    (hact : ∀ a, active = some a → a < procSize ∧ root m.mem k (some a) = some (m.cr3 / 4096)) :
    ∃ sp, InSpace k m v sp ∧ ¬ Window (sp, pageOf v) := by
  obtain ⟨-, ⟨h511, hw⟩ | ⟨h510, ha⟩⟩ := h
  · refine ⟨none, h511, ?_⟩
    rintro ⟨-, c, hc, he⟩
    exact hw c hc he
  · obtain ⟨a, ha⟩ := Option.ne_none_iff_exists'.mp ha
    obtain ⟨hlt, hr⟩ := hact a ha
    exact ⟨some a, ⟨hlt, h510, hr⟩, fun hw => absurd hw.1 (by simp)⟩

/-- A present leaf entry lets the kernel through. -/
theorem leaf_of_walk {m : Machine} {sp : Space} (hinv : PageInv k m noRes) (hr : RootInv k m)
    (hs : InSpace k m v sp) (hw : walk m.mem m.cr3 v = none) : leaf m.mem k (sp, pageOf v) = 0 := by
  by_contra h0
  have hodd : leaf m.mem k (sp, pageOf v) % 2 = 1 := hinv.leaves.odd h0
  obtain ⟨f2, f3, f4, hw'⟩ := walk_leaf hinv.tables hr hs hodd
  rw [hw] at hw'
  exact absurd hw' (by simp)

/-- A page fault in kernel mode maps a fresh frame. -/
theorem kernelFault_mapped (hinv : PageInv k s.machine noRes) (hr : RootInv k s.machine)
    (hact : ∀ a, s.active = some a →
      a < procSize ∧ root s.machine.mem k (some a) = some (s.machine.cr3 / 4096))
    (h : vmStep (.kernelFault v) s = some t) :
    ∃ m', t = { s with machine := m' } ∧ Keeps k s.machine m' ∧
      ∃ p P b, leaf s.machine.mem k p = 0 ∧ Mapped k s.machine m' p P b := by
  rw [vmStep] at h
  split_ifs at h with hc
  obtain ⟨hrange, hwalk⟩ := hc
  obtain ⟨sp, hs, hnw⟩ := hrange.inSpace hact
  rw [VmState.pagemama, if_pos rfl, VmState.onMachine, Option.map_eq_some_iff] at h
  obtain ⟨m', hm', rfl⟩ := h
  rw [Option.map_eq_some_iff] at hm'
  obtain ⟨⟨pa, m''⟩, hmap, rfl⟩ := hm'
  have h0 := leaf_of_walk hinv hr hs hwalk
  obtain ⟨hk, P, b, hm⟩ := faultKeeps hinv hr hs hnw h0 hmap
  exact ⟨_, rfl, hk, _, P, b, h0, hm⟩

theorem kernelFault_keeps (hinv : PageInv k s.machine noRes) (hr : RootInv k s.machine)
    (hact : ∀ a, s.active = some a →
      a < procSize ∧ root s.machine.mem k (some a) = some (s.machine.cr3 / 4096))
    (h : vmStep (.kernelFault v) s = some t) :
    ∃ m', Keeps k s.machine m' ∧ t = { s with machine := m' } := by
  obtain ⟨m', ht, hk, -⟩ := kernelFault_mapped hinv hr hact h
  exact ⟨m', hk, ht⟩

/-- What `IsPageInVmaList` finds is a node that covers the address. -/
theorem inVmaFrom_cover {vma : Nat → Vma} {fuel : Nat} (h : VmState.inVmaFrom vma v fuel p = true) :
    ∃ x, (vma x).vstart ≤ v ∧ v ≤ (vma x).vend := by
  induction fuel generalizing p with
  | zero => simp [VmState.inVmaFrom] at h
  | succ fuel ih =>
      rw [VmState.inVmaFrom] at h
      split_ifs at h with h0 hc
      · exact ⟨p, hc⟩
      · exact ih h

theorem VmInv.userAddr (h : VmInv k s) (hv : s.isPageInVmaList a v = true) : UserAddr v := by
  obtain ⟨x, hlo, hhi⟩ := inVmaFrom_cover hv
  exact (h.range x).userAddr hlo hhi

theorem VmInv.canonical (h : VmInv k s) (hv : s.isPageInVmaList a v = true) : Canonical v := by
  obtain ⟨x, hlo, hhi⟩ := inVmaFrom_cover hv
  exact (h.range x).canonical hlo hhi

/-- What the hardware allows a program depends on the leaf entry alone. -/
theorem permits_eq {m : Machine} {sp : Space} {write : Bool} (hinv : PageInv k m noRes)
    (hr : RootInv k m) (hs : InSpace k m v sp) : permits m v write =
      (leaf m.mem k (sp, pageOf v) % 8 == 7 ||
        (!write && leaf m.mem k (sp, pageOf v) % 8 == 5)) := by
  have hflags := hinv.leaves.flags (sp, pageOf v)
  by_cases h0 : leaf m.mem k (sp, pageOf v) = 0
  · rw [permits, walk_none hinv.tables hr hs h0, h0]
    simp
  · have hodd : leaf m.mem k (sp, pageOf v) % 2 = 1 := hinv.leaves.odd h0
    obtain ⟨f2, f3, f4, hw⟩ := walk_leaf hinv.tables hr hs hodd
    have h7 : ∀ f, (f * 4096 + 7) / 4 % 2 = 1 ∧ (f * 4096 + 7) / 2 % 2 = 1 := by omega
    rw [permits, hw]
    simp only [(h7 _).1, (h7 _).2, beq_self_eq_true, Bool.or_true, Bool.and_self, Bool.true_and]
    generalize leaf m.mem k (sp, pageOf v) = w at *
    have hcases : w % 8 = 7 ∨ w % 8 = 5 ∨ w % 8 = 3 := by omega
    have hdiv : w / 4 % 2 = w % 8 / 4 ∧ w / 2 % 2 = w % 8 / 2 % 2 := by omega
    rw [hdiv.1, hdiv.2]
    rcases hcases with hc | hc | hc <;> rw [hc] <;> cases write <;> rfl

/-- What a handled fault of a program does for its page: nothing, a copy of its own, or a
fresh frame. -/
inductive FaultHandled (k : Nat) (m m' : Machine) (p : Page) : Prop
  | same (h : m' = m)
  | copied (b n : Nat) (h0 : leaf m.mem k p ≠ 0) (hb : b < listSize)
      (hfr : leaf m.mem k p / 4096 = m.fl.frame b) (h : Copied k m m' p b n)
  | mapped (P : List Nat) (b : Nat) (h0 : leaf m.mem k p = 0) (h : Mapped k m m' p P b)

theorem userFault_handled {write : Bool} (hi : VmInv k s) (ha : s.active = some a)
    (h : s.stepOf a (.userFault v write) = some t) :
    UserAddr v ∧ ∃ m', t = { s with machine := m' } ∧ PageInv k m' noRes ∧ RootInv k m' ∧
      FaultHandled k s.machine m' (pageAt a v) := by
  rw [VmState.stepOf] at h
  split_ifs at h with hc
  obtain ⟨hlt, hperm⟩ := hc
  obtain ⟨halt, hroot⟩ := hi.active_root ha
  rw [VmState.pagemama, if_neg (by simp), ha, Option.bind_eq_bind, Option.bind_some] at h
  split_ifs at h with hin hpw
  · -- a write to a page that may only be read
    obtain ⟨chk, -, h⟩ := Option.bind_eq_some_iff.mp h
    have hu := hi.userAddr hin
    have hs := hu.inSpace halt hroot
    refine ⟨hu, ?_⟩
    split_ifs at h
    · obtain ⟨m', hcow, rfl⟩ := Option.map_eq_some_iff.mp h
      have h0 : leaf s.machine.mem k (pageAt a v) ≠ 0 := by
        intro h0
        simp only [FaultCode.mk.injEq] at hpw
        rw [walk_none hi.pages.tables hi.rootInv hs h0] at hpw
        exact absurd hpw.1 (by simp)
      obtain ⟨b, hb, -, hfr⟩ := hi.pages.leaves.owned _ hu.userPage.managed h0
      obtain ⟨n, hcp, hpages, hrt⟩ := (Machine.cow_spec hi.pages hi.rootInv hs hu.userPage hlt h0 hb
        hfr).sound _ hcow
      exact ⟨m', rfl, hpages, hrt, .copied b n h0 hb hfr hcp⟩
    · exact ⟨s.machine, (Option.some.inj h).symm, hi.pages, hi.rootInv, .same rfl⟩
  · -- the page is not mapped: reading would be allowed otherwise
    have hu := hi.userAddr hin
    have hs := hu.inSpace halt hroot
    refine ⟨hu, ?_⟩
    obtain ⟨m', hm', rfl⟩ := Option.map_eq_some_iff.mp h
    obtain ⟨⟨pa, m''⟩, hmap, rfl⟩ := Option.map_eq_some_iff.mp hm'
    have h0 : leaf s.machine.mem k (spaceOf a v, pageOf v) = 0 := by
      by_contra h0
      have hpage : UserPage (spaceOf a v, pageOf v) := hu.userPage
      have hflags := hi.pages.leaves.managed_flags hpage.managed
      have hodd : leaf s.machine.mem k (spaceOf a v, pageOf v) % 2 = 1 := hi.pages.leaves.odd h0
      obtain ⟨f2, f3, f4, hw⟩ := walk_leaf hi.pages.tables hi.rootInv hs hodd
      rw [permits_eq hi.pages hi.rootInv hs] at hperm
      rw [hw] at hpw
      have h57 : leaf s.machine.mem k (spaceOf a v, pageOf v) % 8 = 7 ∨
          leaf s.machine.mem k (spaceOf a v, pageOf v) % 8 = 5 := by omega
      cases write with
      | true => exact hpw rfl
      | false =>
          rcases h57 with h57 | h57 <;> rw [h57] at hperm <;> exact absurd hperm (by decide)
    rw [pageAddr_eq] at hmap
    have hfresh := Machine.mapPhyaddr_fresh hi.pages hi.rootInv hs.pageAddr
      (by rw [pageOf_pageAddr]; exact hu.userPage.not_window) (Nat.mul_mod_left _ _)
      (by rw [pageOf_pageAddr]; exact h0)
    obtain ⟨P, b, hm, hpages, hrt, -⟩ := hfresh.sound _ hmap
    rw [pageOf_pageAddr] at hm
    exact ⟨m'', rfl, hpages, hrt, .mapped P b h0 hm⟩

/-- A page fault of a program, handled. -/
theorem userFault_keeps {write : Bool} (hi : VmInv k s) (ha : s.active = some a)
    (h : s.stepOf a (.userFault v write) = some t) :
    ∃ m', Keeps k s.machine m' ∧ t = { s with machine := m' } := by
  obtain ⟨hu, m', ht, hpages, hrt, hhandled⟩ := userFault_handled hi ha h
  refine ⟨m', ?_, ht⟩
  cases hhandled with
  | same h =>
    rw [h]
    exact .refl hi.pages hi.rootInv
  | copied b n _ _ _ hcp =>
    exact ⟨hpages, hrt, hcp.cr3, fun c hc => roots_of_update hu.userPage hcp.leaf hc⟩
  | mapped P b _ hm =>
    exact ⟨hpages, hrt, hm.cr3, fun c hc => roots_of_update hu.userPage hm.leaf hc⟩

/-- A byte store to a user page. -/
theorem store8_keeps {x : Nat} (hi : VmInv k s) (ha : s.active = some a) (hu : UserAddr v)
    (h : s.store8 v x = some t) :
    leaf s.machine.mem k (pageAt a v) ≠ 0 ∧
      ∃ m', Keeps k s.machine m' ∧ t = { s with machine := m' } ∧
        leaf m'.mem k = leaf s.machine.mem k ∧
        (∀ f, IsTable m'.mem k f ↔ IsTable s.machine.mem k f) ∧ m'.fl = s.machine.fl ∧
        m'.mem = Function.update s.machine.mem (leaf s.machine.mem k (pageAt a v) / 4096)
          (Function.update (s.machine.mem (leaf s.machine.mem k (pageAt a v) / 4096)) (v % 4096)
            (x % 256)) := by
  obtain ⟨halt, hroot⟩ := hi.active_root ha
  have hs := hu.inSpace halt hroot
  obtain ⟨m', hm', rfl⟩ := Option.map_eq_some_iff.mp h
  obtain ⟨f, hf, hmem⟩ := Option.map_eq_some_iff.mp hm'
  have h0 : leaf s.machine.mem k (pageAt a v) ≠ 0 := by
    intro h0
    rw [Machine.frameOf, walk_none hi.pages.tables hi.rootInv hs h0] at hf
    exact absurd hf (by simp)
  have hodd : leaf s.machine.mem k (spaceOf a v, pageOf v) % 2 = 1 := hi.pages.leaves.odd h0
  rw [frameOf_leaf hi.pages.tables hi.rootInv hs hodd] at hf
  have hfr : leaf s.machine.mem k (pageAt a v) / 4096 = f := Option.some.inj hf
  obtain ⟨b, hb, hb0, hfb⟩ := hi.pages.leaves.owned _ hu.userPage.managed h0
  have hnt : ¬ IsTable s.machine.mem k f := by
    have := Machine.mapped_not_table hi.pages (s := spaceOf a v) (v := v) hu.userPage h0 hfb
    rwa [← hfb, hfr] at this
  have hcur : f ≠ s.machine.cr3 / 4096 := by
    rintro rfl
    exact hnt hi.current_isTable
  rw [hfr]
  have hagree : ∀ g, IsTable s.machine.mem k g → m'.mem g = s.machine.mem g := by
    intro g hg
    rw [← hmem]
    refine Function.update_of_ne ?_ _ _
    rintro rfl
    exact hnt hg
  have hfl : m'.fl = s.machine.fl := by rw [← hmem]
  have hcr3 : m'.cr3 = s.machine.cr3 := by rw [← hmem]
  obtain ⟨htab, hleaf⟩ := tables_of_agree hagree
  have hist : ∀ g, IsTable m'.mem k g ↔ IsTable s.machine.mem k g := fun g => isTable_congr htab
  refine ⟨h0, m', ⟨⟨?_, ?_, ?_⟩, ?_, hcr3, ?_⟩, rfl, hleaf, hist, hfl, ?_⟩
  · rw [hfl]
    exact hi.pages.free
  · rw [hfl]
    exact hi.pages.tables.agree hagree
  · rw [hleaf, hfl]
    exact hi.pages.leaves.retable fun g hg => .inl ((hist g).mp hg)
  · refine hi.rootInv.congr hcr3 (fun j _ => word_congr ?_) (htab none) ?_
    · rw [← hmem]
      exact Function.update_of_ne hcur.symm _ _
    · rw [hfl]
      exact hi.rootInv.notFree
  · exact fun c hc => roots_of_leaf (fun d hd => by rw [hleaf]) hc
  · rw [← hmem]

end Sbunix
