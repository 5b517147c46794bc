import Sbunix.Sys.Proofs.ForkIsolation
import Sbunix.Sys.Proofs.HeapPlaces

/-!
# Frames that are freed early or get lost

No frame is freed that a page still maps. A frame of user data is lost when no page maps it and
the free list does not hold it.
`unmap_phyaddr` frees a frame only at the count 1, `cow` never frees the old one, and
`create_new_process` drops whatever the slot still maps.
-/

namespace Sbunix

variable {k : Nat} {m m' : Machine} {s t : VmState} {a b c f v w : Nat} {p q : Page}
  {xs vs : List Nat} {lists : Option Nat → List Nat} {l : VmLabel}

/-- A page of a program maps the frame `f`. -/
def Machine.Used (m : Machine) (f : Nat) : Prop := ∃ p ∈ m.mappings f, UserPage p

/-- The memory side, and the frames that programs have got since they were last free. -/
structure FrameState where
  vm : VmState
  data : Nat → Prop

/-- A step other than `syscall_kill`. -/
def frameStep (l : VmLabel) (s : FrameState) : Option FrameState :=
  match l with
  | .kill _ => none
  | l => (vmStep l s.vm).map fun vm =>
      ⟨vm, fun f => (s.data f ∨ vm.machine.Used f) ∧ ¬ vm.machine.fl.IsFree f⟩

/-- No frame is lost. -/
def FrameState.NoneLost (s : FrameState) : Prop := ∀ f, s.data f → s.vm.machine.Used f

namespace Machine

variable (m : Machine)

/-- A page other than that of `v` maps the same frame. -/
def Shared (a v : Nat) : Prop :=
  ∀ w, walk m.mem m.cr3 v = some w → ∃ p ∈ m.mappings (w.e4 / 4096), p ≠ pageAt a v

/-- The frame at `v` has the count 1, or another page maps it. -/
def LastCounted (a v : Nat) : Prop :=
  ∀ w, walk m.mem m.cr3 v = some w →
    m.fl.getReferenceCount w.e4 = some 1 ∨ ∃ p ∈ m.mappings (w.e4 / 4096), p ≠ pageAt a v

/-- What the slot `c` still maps is mapped elsewhere too. -/
def SlotShared (c : Nat) : Prop :=
  ∀ f q, (some c, q) ∈ m.mappings f → ∃ p ∈ m.mappings f, p.1 ≠ some c

end Machine

/-- The addresses that are unmapped with the node `n`. -/
def VmState.nodeAddrs (s : VmState) (n : Nat) : List Nat := rangeAddrs (s.vma n).vstart (s.vma n).vend

/-- The step forgets no frame. -/
def Returns (l : VmLabel) (s : VmState) : Prop :=
  ∀ a, s.active = some a → match l with
    | .munmap addr length => ∀ n,
        matchFrom s.vma addr ((addr + length) % 2 ^ 64) (2 ^ 64) (s.mm a).vmaList = some n →
          ∀ v ∈ s.nodeAddrs n, s.machine.LastCounted a v
    | .exit => ∀ n ∈ s.vmaNodes a, ∀ v ∈ s.nodeAddrs n, s.machine.LastCounted a v
    | .userFault v _ => s.machine.Shared a v
    | .fork c | .exec c => s.machine.SlotShared c
    | _ => True

/-- Runs whose steps all meet a condition. -/
def FrameReach (cond : VmLabel → VmState → Prop) : FrameState → Prop :=
  Reach (fun s => (∃ s₀, VmStart s₀ ∧ s₀.initProc = some s.vm) ∧ s.data = s.vm.machine.Used)
    fun l s t => cond l s.vm ∧ frameStep l s = some t

/-! ## Frames of programs -/

theorem FreeList.getReferenceCount_eq {fl : FreeList} (hb : b < listSize)
    (h : w / 4096 = fl.frame b) : fl.getReferenceCount w = some (fl.refCount b) := by
  rw [FreeList.getReferenceCount, FreeList.blockindex_eq hb h, Option.map_some]

theorem RootInv.mem_mappings (hr : RootInv k m) :
    p ∈ m.mappings f ↔ leaf m.mem k p ≠ 0 ∧ leaf m.mem k p / 4096 = f := by
  rw [Machine.mappings, hr.kernelHalf]
  rfl

namespace PageInv

variable (hp : PageInv k m noRes)

include hp

theorem frame_of_user (hu : UserPage p) (h0 : leaf m.mem k p ≠ 0) :
    ∃ b < listSize, leaf m.mem k p / 4096 = m.fl.frame b := by
  obtain ⟨b, hb, -, hfr⟩ := hp.leaves.owned _ hu.managed h0
  exact ⟨b, hb, hfr⟩

/-- All pages that map a frame of a program have one page number. -/
theorem home_user (hu : UserPage p) (h0 : leaf m.mem k p ≠ 0) (h0' : leaf m.mem k q ≠ 0)
    (h : leaf m.mem k q / 4096 = leaf m.mem k p / 4096) : q.2 = p.2 := by
  obtain ⟨b, -, hfr⟩ := hp.frame_of_user hu h0
  refine hp.leaves.home q p h0' h0 h ?_
  rw [h, hfr]
  exact FreeList.frame_mono

/-- They all are pages of programs. -/
theorem userPage (hu : UserPage p) (h0 : leaf m.mem k p ≠ 0) (h0' : leaf m.mem k q ≠ 0)
    (h : leaf m.mem k q / 4096 = leaf m.mem k p / 4096) : UserPage q := by
  have hnum := hp.home_user hu h0 h0' h
  by_cases hq : q.1 = none
  · by_cases hpn : p.1 = none
    · have heq : q = p := Prod.ext (hq.trans hpn.symm) hnum
      rw [heq]
      exact hu
    · -- the halves do not overlap
      obtain ⟨sp, n⟩ := p
      obtain ⟨sq, n'⟩ := q
      obtain ⟨d, hd⟩ := Option.ne_none_iff_exists'.mp hpn
      subst hnum hd hq
      have hlow := (exists_table h0).1.2
      have hhigh := (exists_table h0').1.1
      omega
  · exact .inl hq

end PageInv

/-! ## Unmapping -/

theorem Unmapped.isFree_iff (h : Unmapped k m m' p b) :
    m'.fl.IsFree f ↔ m.fl.IsFree f ∨ m.fl.refCount b = 1 ∧ f = m.fl.frame b := by
  have hfr : ∀ d, m'.fl.frame d = m.fl.frame d := FreeList.frame_congr h.freeMemory
  unfold FreeList.IsFree
  simp only [hfr, h.blocks]
  by_cases h1 : m.fl.refCount b = 1
  · simp [h1, or_comm]
  · simp [h1]

/-- The count of another frame stays. -/
theorem Unmapped.getReferenceCount (h : Unmapped k m m' p b) (hw : w / 4096 ≠ m.fl.frame b) :
    m'.fl.getReferenceCount w = m.fl.getReferenceCount w := by
  have hidx : m'.fl.blockindex w = m.fl.blockindex w := by
    simp only [FreeList.blockindex, h.freeMemory]
  unfold FreeList.getReferenceCount
  rw [hidx, h.refCount]
  cases hb : m.fl.blockindex w with
  | none => rfl
  | some d =>
    rw [Option.map_some, Option.map_some, Function.update_of_ne]
    rintro rfl
    exact hw (FreeList.frame_of_blockindex hb)

section

variable (hp : PageInv k m noRes) (hr : RootInv k m) (hc : c < procSize)
  (hroot : root m.mem k (some c) = some (m.cr3 / 4096)) (hvs : ∀ v ∈ vs, UserAddr v ∧ v % 4096 = 0)

include hp hr hc hroot hvs

/-- Unmapping frees the frames whose count was 1. -/
theorem unmapList_isFree (h : vs.foldlM (fun m v => Machine.unmapPhyaddr m v) m = some m') :
    m'.fl.IsFree f ↔ m.fl.IsFree f ∨ ∃ v ∈ vs, leaf m.mem k (pageAt c v) ≠ 0 ∧
      leaf m.mem k (pageAt c v) / 4096 = f ∧
      m.fl.getReferenceCount (leaf m.mem k (pageAt c v)) = some 1 := by
  induction vs generalizing m with
  | nil =>
    rw [← Option.some.inj h]
    simp
  | cons v vs ih =>
    rw [List.foldlM_cons, Option.bind_eq_bind, Option.bind_eq_some_iff] at h
    obtain ⟨m₁, h₁, h⟩ := h
    obtain ⟨hu, hv⟩ := hvs v List.mem_cons_self
    obtain ⟨m₂, h₂, hk, hcase⟩ := unmapUser_spec hp hr hc hroot hu hv
    obtain rfl : m₂ = m₁ := Option.some.inj (h₂.symm.trans h₁)
    rw [ih hk.pages hk.rootInv (by rw [hk.roots c hc, hk.cr3, hroot])
      (fun v hv => hvs v (List.mem_cons_of_mem _ hv)) h]
    simp only [List.mem_cons, exists_eq_or_imp]
    cases hcase with
    | inl hsame =>
      obtain ⟨h0, rfl⟩ := hsame
      simp [h0]
    | inr hun =>
      obtain ⟨b, hb, -, h0, hfr, hun⟩ := hun
      have hpage : UserPage (pageAt c v) := hu.userPage
      -- another visited page has another frame, and its entry and count are the old ones
      have hrest : ∀ u, leaf m₂.mem k (pageAt c u) ≠ 0 ∧ leaf m₂.mem k (pageAt c u) / 4096 = f ∧
          m₂.fl.getReferenceCount (leaf m₂.mem k (pageAt c u)) = some 1 ↔
          pageAt c u ≠ pageAt c v ∧ leaf m.mem k (pageAt c u) ≠ 0 ∧
            leaf m.mem k (pageAt c u) / 4096 = f ∧
            m.fl.getReferenceCount (leaf m.mem k (pageAt c u)) = some 1 := by
        intro u
        by_cases hne : pageAt c u = pageAt c v
        · simp [hne, hun.leaf]
        · rw [hun.leaf, Function.update_of_ne hne]
          by_cases hu0 : leaf m.mem k (pageAt c u) = 0
          · simp [hu0]
          · rw [hun.getReferenceCount]
            · simp [hne]
            · intro heq
              apply hne
              exact pageAt_congr (hp.home_user hpage h0 hu0 (heq.trans hfr.symm))
      simp only [hrest, hun.isFree_iff, FreeList.getReferenceCount_eq hb hfr, hfr]
      constructor
      · rintro ((hfree | ⟨h1, rfl⟩) | ⟨u, hu, -, hall⟩)
        · exact .inl hfree
        · exact .inr (.inl ⟨h0, rfl, congrArg some h1⟩)
        · exact .inr (.inr ⟨u, hu, hall⟩)
      · rintro (hfree | ⟨-, rfl, h1⟩ | ⟨u, hu, hall⟩)
        · exact .inl (.inl hfree)
        · exact .inl (.inr ⟨Option.some.inj h1, rfl⟩)
        · by_cases hne : pageAt c u = pageAt c v
          · rw [hne, hfr, FreeList.getReferenceCount_eq hb hfr] at hall
            exact .inl (.inr ⟨Option.some.inj hall.2.2, hall.2.1.symm⟩)
          · exact .inr ⟨u, hu, hne, hall⟩

end

/-- Every frame that a program has mapped is mapped by one afterwards, or free. -/
def Returned (m m' : Machine) : Prop := ∀ f, m.Used f → m'.Used f ∨ m'.fl.IsFree f

theorem RootInv.used_iff (hr : RootInv k m) :
    m.Used f ↔ ∃ p, UserPage p ∧ leaf m.mem k p ≠ 0 ∧ leaf m.mem k p / 4096 = f := by
  unfold Machine.Used
  simp only [hr.mem_mappings]
  constructor
  · rintro ⟨p, hp, hu⟩
    exact ⟨p, hu, hp⟩
  · rintro ⟨p, hu, hp⟩
    exact ⟨p, hp, hu⟩

section

variable (hp : PageInv k m noRes) (hr : RootInv k m) (hc : c < procSize)
  (hroot : root m.mem k (some c) = some (m.cr3 / 4096))

include hp hr hc hroot

/-- What holds of the entry that the hardware finds for `v`, if it finds one. -/
theorem forall_walk {P : Nat → Prop} (hu : UserAddr v) :
    (∀ w, walk m.mem m.cr3 v = some w → P w.e4) ↔
      (leaf m.mem k (pageAt c v) ≠ 0 → P (leaf m.mem k (pageAt c v))) := by
  have hwalk := hp.walk_space hr (hu.inSpace hc hroot)
  change _ = if leaf m.mem k (pageAt c v) = 0 then _ else some (leaf m.mem k (pageAt c v)) at hwalk
  by_cases h0 : leaf m.mem k (pageAt c v) = 0
  · rw [if_pos h0, Option.map_eq_none_iff] at hwalk
    simp [hwalk, h0]
  · rw [if_neg h0] at hwalk
    obtain ⟨w, hw, he⟩ := Option.map_eq_some_iff.mp hwalk
    simp [hw, he, h0]

/-- Unmapping pages loses no frame exactly if the last entries of frames go with the count 1. -/
theorem unmapList_returned (hvs : ∀ v ∈ vs, UserAddr v ∧ v % 4096 = 0)
    (h : vs.foldlM (fun m v => Machine.unmapPhyaddr m v) m = some m') :
    Returned m m' ↔ ∀ v ∈ vs, m.LastCounted c v := by
  obtain ⟨m₁, h₁, hk, hleaf⟩ := unmapList_spec hp hr hc hroot hvs
  obtain rfl : m₁ = m' := Option.some.inj (h₁.symm.trans h)
  have hfree : ∀ f, _ := fun f => unmapList_isFree (f := f) hp hr hc hroot hvs h
  constructor
  · intro hret v hv
    have hu := (hvs v hv).1
    have hpage : UserPage (pageAt c v) := hu.userPage
    rw [Machine.LastCounted, forall_walk (P := fun e => m.fl.getReferenceCount e = some 1 ∨
      ∃ p ∈ m.mappings (e / 4096), p ≠ pageAt c v) hp hr hc hroot hu]
    intro h0
    cases hret _ (hr.used_iff.mpr ⟨_, hpage, h0, rfl⟩) with
    | inl hused =>
      -- a page that still maps the frame has not been visited
      obtain ⟨q, -, hq0, hqf⟩ := hk.rootInv.used_iff.mp hused
      rw [hleaf] at hq0 hqf
      split_ifs at hq0 hqf with hvis
      · exact absurd rfl hq0
      · refine .inr ⟨q, hr.mem_mappings.mpr ⟨hq0, hqf⟩, ?_⟩
        intro heq
        exact hvis ⟨v, hv, heq⟩
    | inr hret =>
      cases (hfree _).mp hret with
      | inl hold => exact absurd hold (hp.leaves.not_free hp.free h0)
      | inr hnew =>
        obtain ⟨u, -, hu0, huf, hcount⟩ := hnew
        rw [pageAt_congr (hp.home_user hpage h0 hu0 huf)] at hcount
        exact .inl hcount
  · intro hall f hused
    obtain ⟨q, hq, hq0, rfl⟩ := hr.used_iff.mp hused
    by_cases hvis : ∃ v ∈ vs, q = pageAt c v
    · obtain ⟨v, hv, rfl⟩ := hvis
      have hlast := hall v hv
      rw [Machine.LastCounted, forall_walk (P := fun e => m.fl.getReferenceCount e = some 1 ∨
        ∃ p ∈ m.mappings (e / 4096), p ≠ pageAt c v) hp hr hc hroot (hvs v hv).1] at hlast
      cases hlast hq0 with
      | inl hcount => exact .inr ((hfree _).mpr (.inr ⟨v, hv, hq0, rfl, hcount⟩))
      | inr hother =>
        obtain ⟨p, hmem, hne⟩ := hother
        obtain ⟨hp0, hpf⟩ := hr.mem_mappings.mp hmem
        have hnum := hp.home_user hq hq0 hp0 hpf
        refine .inl (hk.rootInv.used_iff.mpr ⟨p, hp.userPage hq hq0 hp0 hpf, ?_⟩)
        rw [hleaf, if_neg]
        · exact ⟨hp0, hpf⟩
        · rintro ⟨u, -, rfl⟩
          exact hne (pageAt_congr hnum)
    · refine .inl (hk.rootInv.used_iff.mpr ⟨q, hq, ?_⟩)
      rw [hleaf, if_neg hvis]
      exact ⟨hq0, rfl⟩

end

/-! ## Teardown -/

/-- The pages of a removed node are unmapped one by one. -/
theorem unmapNode_eq {n : Nat} (hrange : UserRange (s.vma n).vstart (s.vma n).vend) :
    m.unmapPhyaddrRange (s.vma n).vstart (s.vma n).vend =
      (s.nodeAddrs n).foldlM (fun m v => Machine.unmapPhyaddr m v) m :=
  unmapPhyaddrRange_eq hrange.vend_lt

/-- The teardown loop unmaps the nodes of the process one after the other. -/
theorem VmState.Owned.exitFrom_machine {fuel : Nat} (h : s.Owned lists)
    (hrange : ∀ n, UserRange (s.vma n).vstart (s.vma n).vend) (hl : lists (some a) = xs)
    (heq : VmState.exitFrom a fuel (s.mm a).vmaList s = some t) :
    (xs.flatMap s.nodeAddrs).foldlM (fun m v => Machine.unmapPhyaddr m v) s.machine =
      some t.machine := by
  induction xs generalizing s lists fuel with
  | nil =>
    have hhead : (s.mm a).vmaList = 0 := h.head_eq_zero.mpr hl
    cases fuel with
    | zero => cases heq
    | succ fuel =>
      rw [VmState.exitFrom, if_pos hhead] at heq
      rw [← Option.some.inj heq]
      rfl
  | cons x xs ih =>
    obtain ⟨n, u, howned, hbounds, hm, heq⟩ := h.exitFrom_cons hl heq
    have haddrs : u.nodeAddrs = s.nodeAddrs := by
      funext y
      rw [VmState.nodeAddrs, (hbounds y).1, (hbounds y).2]
      rfl
    have hlu : recycled lists a xs x (some a) = xs := by
      rw [recycled, Function.update_of_ne (Option.some_ne_none a), Function.update_self]
    rw [unmapNode_eq (hrange x)] at hm
    have hrest := ih howned (fun y => by rw [(hbounds y).1, (hbounds y).2]; exact hrange y) hlu heq
    rw [haddrs] at hrest
    rw [List.flatMap_cons, List.foldlM_append, hm]
    exact hrest

/-- `remove_from_vma_list` in the address space of the process. -/
theorem VmInv.munmap_returned {addr length : Nat} (hi : VmInv k s) (ha : s.active = some a)
    (h : s.kMunmap a addr length = some t) :
    Returned s.machine t.machine ↔ Returns (.munmap addr length) s := by
  obtain ⟨halt, hroot⟩ := hi.active_root ha
  simp only [VmState.kMunmap, Option.bind_eq_bind, Option.bind_eq_some_iff, Prod.exists] at h
  obtain ⟨found, s₁, h₁, h⟩ := h
  split_ifs at h with h0
  obtain rfl := Option.some.inj h
  cases removeFromVmaList_cases h₁ with
  | inl hnone => exact absurd hnone.1 h0
  | inr hsome =>
    obtain ⟨-, n, hn, hrem⟩ := hsome
    have hm := hrem.machine
    rw [unmapNode_eq (hi.range n)] at hm
    rw [unmapList_returned hi.pages hi.rootInv halt hroot
      (fun v hv => (hi.range n).rangeAddrs hv) hm]
    constructor
    · intro hall b hb n' hn'
      obtain rfl : a = b := Option.some.inj (ha.symm.trans hb)
      obtain rfl : n = n' := Option.some.inj (hn.symm.trans hn')
      exact hall
    · intro hall
      exact hall a ha n hn

theorem VmInv.exit_returned (hi : VmInv k s) (howned : s.Owned lists) (ha : s.active = some a)
    (h : s.syscallExit a = some t) : Returned s.machine t.machine ↔ Returns .exit s := by
  obtain ⟨halt, hroot⟩ := hi.active_root ha
  have hnodes := howned.vmaNodes a
  simp only [VmState.syscallExit, Option.bind_eq_bind, Option.bind_eq_some_iff,
    Option.some.injEq] at h
  obtain ⟨u, hu, rfl⟩ := h
  have hcr3 : (s.setMm a fun m => { m with cr3 := 0 }).Owned lists := howned.setMm fun _ => rfl
  have hm := hcr3.exitFrom_machine hi.range rfl hu
  rw [← hnodes] at hm
  have hvs : ∀ v ∈ (s.vmaNodes a).flatMap s.nodeAddrs, UserAddr v ∧ v % 4096 = 0 := by
    intro v hv
    obtain ⟨n, -, hv⟩ := List.mem_flatMap.mp hv
    exact (hi.range n).rangeAddrs hv
  show Returned s.machine u.machine ↔ _
  rw [unmapList_returned hi.pages hi.rootInv halt hroot hvs hm]
  constructor
  · intro hall b hb n hn v hv
    obtain rfl : a = b := Option.some.inj (ha.symm.trans hb)
    exact hall v (List.mem_flatMap.mpr ⟨n, hn, hv⟩)
  · intro hall v hv
    obtain ⟨n, hn, hv⟩ := List.mem_flatMap.mp hv
    exact hall a ha n hn v hv

/-! ## Faults -/

/-- Frames stay where they are, and more may be mapped. -/
theorem Returned.of_leaf (hr : RootInv k m) (hr' : RootInv k m')
    (h : ∀ p, leaf m.mem k p ≠ 0 → leaf m'.mem k p = leaf m.mem k p) : Returned m m' := by
  intro f hused
  obtain ⟨p, hu, h0, hf⟩ := hr.used_iff.mp hused
  refine .inl (hr'.used_iff.mpr ⟨p, hu, ?_⟩)
  rw [h p h0]
  exact ⟨h0, hf⟩

theorem mapped_returned {P : List Nat} (h : Mapped k m m' p P b) (h0 : leaf m.mem k p = 0)
    (hr : RootInv k m) (hr' : RootInv k m') : Returned m m' := by
  apply Returned.of_leaf hr hr'
  intro q hq
  rw [h.leaf, Function.update_of_ne]
  rintro rfl
  exact hq h0

/-- `cow` never frees the frame that the page had. -/
theorem copied_returned {n : Nat} (h : Copied k m m' p b n) (hp : PageInv k m noRes)
    (hr : RootInv k m) (hr' : RootInv k m') (hu : UserPage p) (h0 : leaf m.mem k p ≠ 0) :
    Returned m m' ↔ ∃ q ∈ m.mappings (leaf m.mem k p / 4096), q ≠ p := by
  have hnew : m.fl.IsFree (m.fl.frame n) := ⟨n, by simp [h.blocks], rfl⟩
  constructor
  · intro hret
    cases hret _ (hr.used_iff.mpr ⟨p, hu, h0, rfl⟩) with
    | inl hused =>
      obtain ⟨q, -, hq0, hqf⟩ := hr'.used_iff.mp hused
      rw [h.leaf] at hq0 hqf
      by_cases hq : q = p
      · rw [hq, Function.update_self, entry_div (by decide)] at hqf
        rw [hqf] at hnew
        exact absurd hnew (hp.leaves.not_free hp.free h0)
      · rw [Function.update_of_ne hq] at hq0 hqf
        exact ⟨q, hr.mem_mappings.mpr ⟨hq0, hqf⟩, hq⟩
    | inr hfree =>
      obtain ⟨d, hd, heq⟩ := hfree
      refine absurd ⟨d, ?_, ?_⟩ (hp.leaves.not_free hp.free h0)
      · simp [h.blocks, hd]
      · rw [heq]
        exact FreeList.frame_congr h.freeMemory _
  · rintro ⟨q', hmem, hne⟩ f hused
    obtain ⟨hq0', hqf'⟩ := hr.mem_mappings.mp hmem
    obtain ⟨q, hq, hq0, rfl⟩ := hr.used_iff.mp hused
    by_cases hqp : q = p
    · rw [hqp]
      refine .inl (hr'.used_iff.mpr ⟨q', hp.userPage hu h0 hq0' hqf', ?_⟩)
      rw [h.leaf, Function.update_of_ne hne]
      exact ⟨hq0', hqf'⟩
    · refine .inl (hr'.used_iff.mpr ⟨q, hq, ?_⟩)
      rw [h.leaf, Function.update_of_ne hqp]
      exact ⟨hq0, rfl⟩

theorem VmInv.userFault_returned {write : Bool} (hi : VmInv k s) (ha : s.active = some a)
    (h : s.stepOf a (.userFault v write) = some t) :
    Returned s.machine t.machine ↔ Returns (.userFault v write) s := by
  obtain ⟨halt, hroot⟩ := hi.active_root ha
  obtain ⟨hu, m', rfl, hp', hr', hhandled⟩ := userFault_handled hi ha h
  have hpage : UserPage (pageAt a v) := hu.userPage
  have hret : Returns (.userFault v write) s ↔ (leaf s.machine.mem k (pageAt a v) ≠ 0 →
      ∃ p ∈ s.machine.mappings (leaf s.machine.mem k (pageAt a v) / 4096), p ≠ pageAt a v) := by
    rw [← forall_walk (P := fun e => ∃ p ∈ s.machine.mappings (e / 4096), p ≠ pageAt a v)
      hi.pages hi.rootInv halt hroot hu]
    constructor
    · intro hall
      exact hall a ha
    · intro hall b hb
      obtain rfl : a = b := Option.some.inj (ha.symm.trans hb)
      exact hall
  rw [hret]
  cases hhandled with
  | same heq =>
    -- the fault would be raised again
    rw [VmState.stepOf] at h
    split_ifs at h with hc
    have hin : s.isPageInVmaList a v = true := by
      by_contra hout
      rw [VmState.pagemama, if_neg (by simp), ha, Option.bind_eq_bind, Option.bind_some,
        if_neg hout] at h
      cases h
    have hperm := (hi.userFault ha hc.1 hin hc.2).sound _ h
    rw [heq, hc.2] at hperm
    cases hperm
  | copied b n h0 _ _ hcp =>
    rw [copied_returned hcp hi.pages hi.rootInv hr' hpage h0]
    simp [h0]
  | mapped P b h0 hm =>
    constructor
    · intro _ hne
      exact absurd h0 hne
    · intro _
      exact mapped_returned hm h0 hi.rootInv hr'

/-! ## New processes -/

/-- A new process drops what its slot maps and takes over frames of others. -/
theorem slot_returned (hp : PageInv k m noRes) (hr : RootInv k m) (hr' : RootInv k m')
    (hfree : ∀ f, m'.fl.IsFree f → m.fl.IsFree f)
    (hout : ∀ q, UserPage q → q.1 ≠ some c → SameFrame (leaf m'.mem k q) (leaf m.mem k q))
    (hin : ∀ q, leaf m'.mem k (some c, q) ≠ 0 → ∃ p, UserPage p ∧ p.1 ≠ some c ∧
      leaf m.mem k p ≠ 0 ∧ leaf m'.mem k (some c, q) / 4096 = leaf m.mem k p / 4096) :
    Returned m m' ↔ m.SlotShared c := by
  constructor
  · intro hret f q hmem
    obtain ⟨h0, hf⟩ := hr.mem_mappings.mp hmem
    cases hret f (hr.used_iff.mpr ⟨_, .inl (by simp), h0, hf⟩) with
    | inl hused =>
      obtain ⟨p, hu, hp0, hpf⟩ := hr'.used_iff.mp hused
      by_cases hpc : p.1 = some c
      · obtain ⟨sp, n⟩ := p
        obtain rfl : sp = some c := hpc
        obtain ⟨p', -, hpc', hp0', hpf'⟩ := hin n hp0
        exact ⟨p', hr.mem_mappings.mpr ⟨hp0', hpf'.symm.trans hpf⟩, hpc'⟩
      · obtain ⟨hzero, hdiv⟩ := hout p hu hpc
        refine ⟨p, hr.mem_mappings.mpr ⟨?_, hdiv.symm.trans hpf⟩, hpc⟩
        intro hz
        exact hp0 (hzero.mpr hz)
    | inr hfr =>
      rw [← hf] at hfr
      exact absurd (hfree _ hfr) (hp.leaves.not_free hp.free h0)
  · intro hslot f hused
    obtain ⟨q, hq, hq0, rfl⟩ := hr.used_iff.mp hused
    -- a page outside the slot that maps the frame stays
    obtain ⟨p, hu, hpc, hp0, hpf⟩ : ∃ p, UserPage p ∧ p.1 ≠ some c ∧ leaf m.mem k p ≠ 0 ∧
        leaf m.mem k p / 4096 = leaf m.mem k q / 4096 := by
      by_cases hqc : q.1 = some c
      · obtain ⟨sp, n⟩ := q
        obtain rfl : sp = some c := hqc
        obtain ⟨p, hmem, hpc⟩ := hslot _ n (hr.mem_mappings.mpr ⟨hq0, rfl⟩)
        obtain ⟨hp0, hpf⟩ := hr.mem_mappings.mp hmem
        exact ⟨p, hp.userPage hq hq0 hp0 hpf, hpc, hp0, hpf⟩
      · exact ⟨q, hq, hqc, hq0, rfl⟩
    obtain ⟨hzero, hdiv⟩ := hout p hu hpc
    refine .inl (hr'.used_iff.mpr ⟨p, hu, ?_, hdiv.trans hpf⟩)
    intro hz
    exact hp0 (hzero.mp hz)

theorem VmInv.exec_returned (hi : VmInv k s) (ha : s.active = some a) (hc : c < procSize)
    (hdead : s.alive c = false) (h : s.syscallExec c = some t) :
    Returned s.machine t.machine ↔ s.machine.SlotShared c := by
  have hi' := hi.syscallExec ha hc hdead h
  rw [VmState.syscallExec, Option.bind_eq_bind, Option.bind_eq_some_iff] at h
  obtain ⟨s₁, h₁, h⟩ := h
  obtain ⟨g, hnew⟩ := (createNewProcess_spec hi.pages hi.rootInv hi.small hc
    (hi.root_ne ha hc hdead)).sound _ h₁
  obtain ⟨P, hcr, -⟩ := hnew.created
  obtain rfl := Option.some.inj h
  refine slot_returned hi.pages hi.rootInv hi'.rootInv ?_ ?_ ?_
  · intro f hf
    obtain ⟨b, hb, rfl⟩ := hf
    refine ⟨b, by rw [hcr.blocks]; exact List.mem_append_right P hb, ?_⟩
    show s₁.machine.fl.frame b = s.machine.fl.frame b
    exact FreeList.frame_congr hcr.freeMemory b
  · intro q hq hqc
    refine .of_eq ((hcr.leaf q ?_).trans (if_neg hqc))
    rintro rfl
    exact hq.not_window (window_mk hc)
  · intro q hq
    exact absurd (hnew.leaf_child q) hq

theorem VmInv.fork_returned (hi : VmInv k s) (howned : s.Owned lists) (ha : s.active = some a)
    (h : Sbunix.vmStep (.fork c) s = some t) :
    Returned s.machine t.machine ↔ s.machine.SlotShared c := by
  have hforked := hi.forked howned ha h
  refine slot_returned hi.pages hi.rootInv hforked.inv.rootInv hforked.isFree hforked.outside ?_
  intro q hq
  obtain ⟨hp0, hpf⟩ := hforked.inherited q hq
  refine ⟨(some a, q), .inl (by simp), ?_, hp0, hpf⟩
  intro heq
  exact hforked.ne (Option.some.inj heq)

/-! ## Runs -/

/-- Steps that leave all entries where they are. -/
theorem Returned.of_same (hr : RootInv k m) (hr' : RootInv k m')
    (h : leaf m'.mem k = leaf m.mem k) : Returned m m' := by
  apply Returned.of_leaf hr hr'
  intro p _
  rw [h]

theorem VmInv.stepOf_returned (hi : VmInv k s) (howned : s.Owned lists) (ha : s.active = some a)
    (hl : ∀ c, l ≠ .kill c) (h : s.stepOf a l = some t) :
    Returned s.machine t.machine ↔ Returns l s := by
  have hi' := hi.stepOf ha h
  have hr := hi.rootInv
  have hr' := hi'.rootInv
  cases l with
  | switch c => cases h
  | kernelFault v => cases h
  | kill c => exact absurd rfl (hl c)
  | fork c =>
    have hstep : Sbunix.vmStep (.fork c) s = some t := by
      show s.active.bind _ = _
      rw [ha, Option.bind_some, h]
    rw [hi.fork_returned howned ha hstep]
    exact ⟨fun hslot _ _ => hslot, fun hall => hall a ha⟩
  | exec c =>
    rw [VmState.stepOf] at h
    split_ifs at h with hc
    rw [hi.exec_returned ha hc.1 hc.2 h]
    exact ⟨fun hslot _ _ => hslot, fun hall => hall a ha⟩
  | munmap addr length => exact hi.munmap_returned ha h
  | exit => exact hi.exit_returned howned ha h
  | userFault v write => exact hi.userFault_returned ha h
  | segment vaddr memsz =>
    rw [VmState.stepOf] at h
    refine iff_of_true (.of_same hr hr' ?_) fun _ _ => trivial
    rw [(SameSpace.segment h).machine]
  | argument addr len =>
    rw [VmState.stepOf] at h
    refine iff_of_true (.of_same hr hr' ?_) fun _ _ => trivial
    rw [(hi.argument h).2]
  | mmap length =>
    rw [VmState.stepOf] at h
    refine iff_of_true (.of_same hr hr' ?_) fun _ _ => trivial
    rw [(SameSpace.kMmap h).machine]
  | userStore v b =>
    rw [VmState.stepOf] at h
    split_ifs at h with hc
    obtain ⟨-, m', -, rfl, hleaf, -⟩ := store8_keeps hi ha (hi.userAddr hc.2.1) h
    exact iff_of_true (.of_same hr hr' hleaf) fun _ _ => trivial
  | kernelStore v b =>
    rw [VmState.stepOf] at h
    split_ifs at h with hc
    obtain ⟨-, m', -, rfl, hleaf, -⟩ := store8_keeps hi ha (hi.userAddr hc.2) h
    exact iff_of_true (.of_same hr hr' hleaf) fun _ _ => trivial

/-- A step forgets no frame exactly under its condition. -/
theorem VmInv.vmStep_returned (hi : VmInv k s) (howned : s.Owned lists) (hl : ∀ c, l ≠ .kill c)
    (h : Sbunix.vmStep l s = some t) : Returned s.machine t.machine ↔ Returns l s := by
  have hi' := hi.vmStep h
  have hbind : ∀ l', (∀ c, l' ≠ .kill c) → (s.active.bind fun a => s.stepOf a l') = some t →
      (Returned s.machine t.machine ↔ Returns l' s) := by
    intro l' hl' h'
    obtain ⟨a, ha, h'⟩ := Option.bind_eq_some_iff.mp h'
    exact hi.stepOf_returned howned ha hl' h'
  cases l with
  | switch c =>
    rw [Sbunix.vmStep] at h
    split_ifs at h
    obtain rfl := Option.some.inj h
    exact iff_of_true (.of_same hi.rootInv hi'.rootInv rfl) fun _ _ => trivial
  | kernelFault v =>
    obtain ⟨m', rfl, -, p, P, b, h0, hm⟩ := kernelFault_mapped hi.pages hi.rootInv
      (fun a ha => hi.active_root ha) h
    exact iff_of_true (mapped_returned hm h0 hi.rootInv hi'.rootInv) fun _ _ => trivial
  | _ => exact hbind _ hl h

theorem frameStep_eq {s t : FrameState} (h : frameStep l s = some t) :
    (∀ c, l ≠ .kill c) ∧ vmStep l s.vm = some t.vm ∧
      t.data = fun f => (s.data f ∨ t.vm.machine.Used f) ∧ ¬ t.vm.machine.fl.IsFree f := by
  cases l with
  | kill c => cases h
  | _ =>
    obtain ⟨vm, hvm, rfl⟩ := Option.map_eq_some_iff.mp h
    exact ⟨fun c => by simp, hvm, rfl⟩

theorem frameStep_some {s : FrameState} (hl : ∀ c, l ≠ .kill c) (h : vmStep l s.vm = some t) :
    frameStep l s = some ⟨t, fun f => (s.data f ∨ t.machine.Used f) ∧ ¬ t.machine.fl.IsFree f⟩ := by
  cases l with
  | kill c => exact absurd rfl (hl c)
  | _ =>
    show (vmStep _ s.vm).map _ = _
    rw [h]
    rfl

theorem VmInv.used_not_free (hi : VmInv k s) (h : s.machine.Used f) : ¬ s.machine.fl.IsFree f := by
  obtain ⟨p, -, h0, rfl⟩ := hi.rootInv.used_iff.mp h
  exact hi.pages.leaves.not_free hi.pages.free h0

section

variable {cond cond' : VmLabel → VmState → Prop}

theorem FrameReach.vmReach {s : FrameState} (h : FrameReach cond s) :
    VmReach (fun _ _ => True) s.vm := by
  refine Reach.simulate FrameState.vm ?_ ?_ h
  · intro s hs
    exact .init hs.1
  · intro l s t hs hst
    exact .step l hs ⟨trivial, (frameStep_eq hst.2).2.1⟩

/-- Runs of the memory side are runs here. -/
theorem VmReach.frames (h : VmReach cond s)
    (hc : ∀ l s, cond l s → (∀ c, l ≠ .kill c) ∧ cond' l s) : ∃ data, FrameReach cond' ⟨s, data⟩ := by
  induction h with
  | @init s hs => exact ⟨s.machine.Used, .init ⟨hs, rfl⟩⟩
  | step l _ hst ih =>
    obtain ⟨data, hr⟩ := ih
    obtain ⟨hl, hc'⟩ := hc _ _ hst.1
    exact ⟨_, .step l hr ⟨hc', frameStep_some hl hst.2⟩⟩

/-- What programs have mapped is noted. -/
theorem FrameReach.data {s : FrameState} (h : FrameReach cond s) (hused : s.vm.machine.Used f) :
    s.data f := by
  induction h with
  | init hs =>
    rw [hs.2]
    exact hused
  | step l hr hst ih =>
    obtain ⟨-, hvm, ht⟩ := frameStep_eq hst.2
    obtain ⟨k, hi⟩ := (FrameReach.vmReach hr).vmInv
    rw [ht]
    exact ⟨.inr hused, (hi.vmStep hvm).used_not_free hused⟩

end

/-- In a state in which no frame is lost, a step loses none exactly under its condition. -/
theorem noneLost_step {cond : VmLabel → VmState → Prop} {s t : FrameState} (h : FrameReach cond s)
    (hs : s.NoneLost) (hst : frameStep l s = some t) : t.NoneLost ↔ Returns l s.vm := by
  obtain ⟨k, hi⟩ := h.vmReach.vmInv
  obtain ⟨lists, howned⟩ := h.vmReach.owned
  obtain ⟨hl, hvm, ht⟩ := frameStep_eq hst
  rw [← hi.vmStep_returned howned hl hvm]
  unfold FrameState.NoneLost
  rw [ht]
  constructor
  · intro hall f hused
    by_cases hfree : t.vm.machine.fl.IsFree f
    · exact .inr hfree
    · exact .inl (hall f ⟨.inl (h.data hused), hfree⟩)
  · intro hret f hf
    obtain ⟨hold | hnew, hfree⟩ := hf
    · exact (hret f (hs f hold)).resolve_right hfree
    · exact hnew

/-- As long as the steps return their frames no frame is lost, and the first step that does not
loses one. -/
theorem frames_returned {s : FrameState} (h : FrameReach Returns s) :
    s.NoneLost ∧ ∀ l t, frameStep l s = some t → (t.NoneLost ↔ Returns l s.vm) := by
  have hs : s.NoneLost := by
    refine Reach.invariant' (P := FrameState.NoneLost) ?_ ?_ h
    · intro s hs
      unfold FrameState.NoneLost
      rw [hs.2]
      exact fun _ => id
    · intro l s t hr hs hst
      have hr : FrameReach Returns s := hr
      exact (noneLost_step hr hs hst.2).mpr hst.1
  exact ⟨hs, fun l t hst => noneLost_step h hs hst⟩

/-- Loading a program loses nothing. -/
theorem Loads.returns (h : Loads l s) : (∀ c, l ≠ .kill c) ∧ Returns l s := by
  cases l with
  | segment vaddr memsz => exact ⟨fun c => by simp, fun _ _ => trivial⟩
  | userFault v write =>
    refine ⟨fun c => by simp, ?_⟩
    intro a _ w hw
    have hnone : walk s.machine.mem s.machine.cr3 v = none := h
    rw [hnone] at hw
    cases hw
  | _ => cases h

/-! ## No frame is freed early -/

/-- No frame is freed early. The second part speaks about every call that a teardown makes:
`unmap_phyaddr` is called on user pages, one after the other. -/
theorem refCount_covers {cond : VmLabel → VmState → Prop} (h : VmReach cond s) :
    (∀ b < listSize, (s.machine.mappings (s.machine.fl.frame b)).Finite ∧
      (s.machine.mappings (s.machine.fl.frame b)).ncard ≤ s.machine.fl.refCount b) ∧
    (∀ (vs : List Nat) (m : Machine), (∀ v ∈ vs, UserAddr v ∧ v % 4096 = 0) →
      vs.foldlM (fun m v => Machine.unmapPhyaddr m v) s.machine = some m →
      (∀ v padd, UserAddr v → m.freedBy v = some padd → ∃ p, m.mappings (padd / 4096) = {p}) ∧
      (∀ b ∈ m.fl.blocks, m.mappings (m.fl.frame b) = ∅) ∧
      ∀ padd fl', m.fl.getPage = some (padd, fl') → m.mappings (padd / 4096) = ∅) ∧
    ∀ a v w, s.alive a = true → p1Index v ≠ 510 → walk s.machine.mem (s.mm a).cr3 v = some w →
      pageAt a v ∈ s.machine.mappings (w.e4 / 4096) := by
  obtain ⟨k, hi⟩ := h.vmInv
  refine ⟨fun b hb => ⟨hi.pages.mappings_finite hi.rootInv _, hi.pages.mappings_le hi.rootInv hb⟩,
    fun vs m hvs hm => ?_, fun a v w ha h510 hw => ?_⟩
  · obtain ⟨c, hc, hroot⟩ := hi.current
    obtain ⟨m', hm', hk, -⟩ := unmapList_spec hi.pages hi.rootInv hc hroot hvs
    obtain rfl : m' = m := Option.some.inj (hm'.symm.trans hm)
    have hroot' : root m'.mem k (some c) = some (m'.cr3 / 4096) := by
      rw [hk.roots c hc, hk.cr3, hroot]
    exact ⟨fun v padd hu hf => ⟨_, hk.pages.freedBy hk.rootInv hc hroot' hu hf⟩,
      fun b hb => hk.pages.free_unmapped hk.rootInv hb,
      fun padd fl' hg => hk.pages.getPage_unmapped hk.rootInv hg⟩
  · obtain ⟨h0, hleaf, -⟩ := hi.walk_alive ha h510 hw
    rw [Machine.mappings, hi.rootInv.kernelHalf]
    exact ⟨h0, by rw [hleaf]⟩

/-- The page that the first program shares with its child. -/
theorem refCount_covers_fork : ∃ (s : VmState) (b : Nat), VmReach (fun _ _ => True) s ∧
    b < listSize ∧ pageAt 0 0x400000 ∈ s.machine.mappings (s.machine.fl.frame b) ∧
    pageAt 1 0x400000 ∈ s.machine.mappings (s.machine.fl.frame b) ∧ 2 ≤ s.machine.fl.refCount b := by
  obtain ⟨k, s, h⟩ := onePage
  obtain ⟨lists, howned⟩ := h.reach.owned
  obtain ⟨t, ht, -⟩ := h.vmStep_fork
  have hforked := h.inv.forked howned h.active ht
  have hreach : VmReach (fun _ _ => True) t := .step (.fork 1) h.reach ⟨trivial, ht⟩
  obtain ⟨b, hb, hleaf, -⟩ := h.block
  have hfr : t.machine.fl.frame b = s.machine.fl.frame b :=
    FreeList.frame_congr hforked.freeMemory b
  have hmem : ∀ d, d = 0 ∨ d = 1 →
      pageAt d 0x400000 ∈ t.machine.mappings (t.machine.fl.frame b) := by
    intro d hd
    obtain ⟨h0, heq⟩ := hforked.frame_eq h.userAddr h.covered h.mapped hd
    rw [hleaf, entry_div (by decide)] at heq
    exact hforked.inv.rootInv.mem_mappings.mpr ⟨h0, heq.trans hfr.symm⟩
  obtain ⟨hfin, hle⟩ := (refCount_covers hreach).1 b hb
  have hpair : ({pageAt 0 0x400000, pageAt 1 0x400000} : Set Page).ncard = 2 :=
    Set.ncard_pair (by decide)
  have hsub : ({pageAt 0 0x400000, pageAt 1 0x400000} : Set Page) ⊆
      t.machine.mappings (t.machine.fl.frame b) :=
    Set.insert_subset (hmem 0 (.inl rfl)) (Set.singleton_subset_iff.mpr (hmem 1 (.inr rfl)))
  refine ⟨t, b, hreach, hb, hmem 0 (.inl rfl), hmem 1 (.inr rfl), ?_⟩
  rw [← hpair]
  exact (Set.ncard_le_ncard hsub hfin).trans hle

/-! ## A page that is unmapped -/

/-- A program whose first VMA is one page, which it alone has mapped, in a frame with the count
`n`. -/
structure PageOnce (k : Nat) (s : VmState) (a b n : Nat) : Prop where
  inv : VmInv k s
  active : s.active = some a
  node : ∃ lists x xs, s.Owned lists ∧ lists (some a) = x :: xs ∧
    (s.vma x).vstart = 0x400000 ∧ (s.vma x).vend = 0x400FFF
  block : b < listSize
  entry : leaf s.machine.mem k (pageAt a 0x400000) = s.machine.fl.frame b * 4096 + 7
  count : s.machine.fl.refCount b = n
  once : s.machine.mappings (s.machine.fl.frame b) = {pageAt a 0x400000}

theorem VmState.Owned.first_node {r : Nat × Nat} {rs : List (Nat × Nat)} (h : s.Owned lists)
    (hareas : s.areas (s.vmaNodes a) = r :: rs) :
    ∃ x xs, lists (some a) = x :: xs ∧ (s.vma x).vstart = r.1 ∧ (s.vma x).vend = r.2 := by
  rw [h.vmaNodes] at hareas
  cases hl : lists (some a) with
  | nil =>
    rw [hl] at hareas
    cases hareas
  | cons x xs =>
    rw [hl, VmState.areas, List.map_cons] at hareas
    have hr := (List.cons.inj hareas).1
    exact ⟨x, xs, rfl, congrArg Prod.fst hr, congrArg Prod.snd hr⟩

namespace PageOnce

variable {n : Nat}

theorem frame_eq (h : PageOnce k s a b n) :
    leaf s.machine.mem k (pageAt a 0x400000) / 4096 = s.machine.fl.frame b := by
  rw [h.entry, entry_div (by decide)]

theorem mapped (h : PageOnce k s a b n) : leaf s.machine.mem k (pageAt a 0x400000) ≠ 0 := by
  rw [h.entry]
  exact Nat.succ_ne_zero _

theorem userAddr : UserAddr 0x400000 := by decide

theorem used (h : PageOnce k s a b n) : s.machine.Used (s.machine.fl.frame b) :=
  h.inv.rootInv.used_iff.mpr ⟨_, userAddr.userPage, h.mapped, h.frame_eq⟩

/-- The program unmaps the page: no page has its frame then, and the frame is free if its count was
1. -/
theorem munmap (h : PageOnce k s a b n) : ∃ t, vmStep (.munmap 0x400000 0xFFF) s = some t ∧
    t.machine.mappings (s.machine.fl.frame b) = ∅ ∧
    (t.machine.fl.IsFree (s.machine.fl.frame b) ↔ n = 1) ∧
    (n = 1 → Returned s.machine t.machine) := by
  obtain ⟨lists, x, xs, howned, hl, hstart, hend⟩ := h.node
  obtain ⟨hlt, hroot⟩ := h.inv.active_root h.active
  have hrange : UserRange 0x400000 0x400FFF := .inl (by decide)
  have haddrs : rangeAddrs 0x400000 0x400FFF = [0x400000] := by decide
  obtain ⟨m, hm, hk, hleaf⟩ := unmapRange_spec h.inv.pages h.inv.rootInv hlt hroot hrange
  have hcovers : s.Covers x 0x400000 0x400FFF := ⟨hstart.le, hend.ge⟩
  obtain ⟨u, -, -, -, hres⟩ := (howned.remove_head hl hcovers).result
  rw [hstart, hend, hm] at hres
  have hstep : vmStep (.munmap 0x400000 0xFFF) s = some { u with machine := m } := by
    show s.active.bind _ = _
    rw [h.active, Option.bind_some, VmState.stepOf, VmState.kMunmap,
      show (0x400000 + 0xFFF) % 2 ^ 64 = 0x400FFF by decide, hres]
    rfl
  have hvs : ∀ v ∈ rangeAddrs 0x400000 0x400FFF, UserAddr v ∧ v % 4096 = 0 :=
    fun v hv => hrange.rangeAddrs hv
  rw [haddrs] at hvs hleaf
  rw [unmapPhyaddrRange_eq hrange.vend_lt, haddrs] at hm
  have hcount : s.machine.fl.getReferenceCount (leaf s.machine.mem k (pageAt a 0x400000)) =
      some n := by
    rw [FreeList.getReferenceCount_eq h.block h.frame_eq, h.count]
  refine ⟨_, hstep, ?_, ?_, ?_⟩
  · apply Set.eq_empty_of_forall_notMem
    intro p hp
    obtain ⟨hp0, hpf⟩ := hk.rootInv.mem_mappings.mp hp
    rw [hleaf] at hp0 hpf
    split_ifs at hp0 hpf with hvis
    · exact hp0 rfl
    · have hmem := h.inv.rootInv.mem_mappings.mpr ⟨hp0, hpf⟩
      rw [h.once] at hmem
      exact hvis ⟨0x400000, List.mem_singleton_self _, hmem⟩
  · show m.fl.IsFree _ ↔ _
    rw [unmapList_isFree h.inv.pages h.inv.rootInv hlt hroot hvs hm]
    constructor
    · rintro (hold | ⟨v, hv, -, -, hone⟩)
      · rw [← h.frame_eq] at hold
        exact absurd hold (h.inv.pages.leaves.not_free h.inv.pages.free h.mapped)
      · rw [List.mem_singleton.mp hv, hcount] at hone
        exact Option.some.inj hone
    · intro hn
      rw [hn] at hcount
      exact .inr ⟨_, List.mem_singleton_self _, h.mapped, h.frame_eq, hcount⟩
  · intro hn
    show Returned s.machine m
    rw [unmapList_returned h.inv.pages h.inv.rootInv hlt hroot hvs hm]
    intro v hv w hw
    obtain rfl := List.mem_singleton.mp hv
    have hentry := h.inv.walk_user h.active userAddr
    rw [hw, if_neg h.mapped] at hentry
    rw [Option.some.inj hentry, hcount, hn]
    exact .inl rfl

end PageOnce

theorem OnePage.once (h : OnePage k s) : ∃ b, PageOnce k s 0 b 1 := by
  obtain ⟨lists, howned⟩ := h.reach.owned
  obtain ⟨b, hb, hleaf, hone⟩ := h.block
  obtain ⟨x, xs, hl, hstart, hend⟩ := howned.first_node h.areas
  exact ⟨b, h.inv, h.active, ⟨lists, x, xs, howned, hl, hstart, hend⟩, hb, hleaf, hone,
    h.inv.pages.mappings_eq h.inv.rootInv hb hone h.mapped (by rw [hleaf, entry_div (by decide)])⟩

/-- The first program unmaps its page, and the frame is free. -/
theorem frames_returned_first : ∃ (s t : FrameState) (f : Nat), FrameReach Returns s ∧
    s.vm.machine.Used f ∧ frameStep (.munmap 0x400000 0xFFF) s = some t ∧ FrameReach Returns t ∧
    t.NoneLost ∧ t.vm.machine.mappings f = ∅ ∧ t.vm.machine.fl.IsFree f := by
  obtain ⟨k, s, h⟩ := onePage
  obtain ⟨data, hr⟩ := h.loaded.frames fun _ _ => Loads.returns
  obtain ⟨b, hb⟩ := h.once
  obtain ⟨t, ht, hnone, hfree, hret⟩ := hb.munmap
  obtain ⟨lists, howned⟩ := h.reach.owned
  have hreturns := (h.inv.vmStep_returned howned (fun c => by simp) ht).mp (hret rfl)
  have hstep := frameStep_some (s := ⟨s, data⟩) (fun c => by simp) ht
  have hr' : FrameReach Returns _ := .step _ hr ⟨hreturns, hstep⟩
  exact ⟨_, _, _, hr, hb.used, hstep, hr', (frames_returned hr').1, hnone, hfree.mpr rfl⟩

/-! ## A page that an argument string has counted -/

/-- A fault in the kernel maps the page, with the count 1. -/
theorem VmInv.kernelFault_counted (hi : VmInv k s) (ha : s.active = some a) (hu : UserAddr v)
    (hkernel : KernelRange (some a) v) (hv : v % 4096 = 0)
    (h0 : leaf s.machine.mem k (pageAt a v) = 0) (hroom : 8 ≤ s.machine.fl.totalblockcount) :
    ∃ m b, Sbunix.vmStep (.kernelFault v) s = some { s with machine := m } ∧ b < listSize ∧
      leaf m.mem k (pageAt a v) = m.fl.frame b * 4096 + 7 ∧ m.fl.refCount b = 1 := by
  obtain ⟨halt, hroot⟩ := hi.active_root ha
  have hs := hu.inSpace halt hroot
  have hwalk := walk_none hi.pages.tables hi.rootInv hs h0
  obtain ⟨⟨pa, m⟩, hm, P, b, hmap, -⟩ := (Machine.mapPhyaddr_fresh hi.pages hi.rootInv hs
    hu.userPage.not_window hv h0).exists_some hroom
  have hpage : v >>> 12 <<< 12 = v := by
    rw [Nat.shiftRight_eq_div_pow, Nat.shiftLeft_eq]
    omega
  refine ⟨m, b, ?_, hi.pages.free.lt b (by simp [hmap.blocks]), leaf_mapped hmap, hmap.ref⟩
  rw [Sbunix.vmStep, if_pos ⟨ha ▸ hkernel, hwalk⟩, VmState.pagemama, if_pos rfl, VmState.onMachine,
    hpage, hm]
  rfl

/-- A program that `exec` has loaded, with an argument string in its segment. -/
theorem exec_counted : ∃ k s b data, FrameReach (fun _ _ => True) ⟨s, data⟩ ∧
    PageOnce k s 1 b 2 := by
  obtain ⟨k, s, -, hs⟩ := firstSegment fun _ _ => 0
  have hva := hs.kernVA
  have hroom := hs.room
  -- the new address space
  obtain ⟨s₁, hstep₁, hi₁, ha₁, hempty₁, hlist₁, hbin₁, hva₁, hroom₁⟩ := hs.inv.exec_total hs.active
    (c := 1) (by decide) (hs.alive 1 (by decide)) (by omega) (by omega)
  have hreach : VmReach (fun l _ => ∀ c, l ≠ .kill c) s :=
    hs.loaded.mono fun l _ _ hst => ⟨hst.1.returns.1, hst.2⟩
  have hreach₁ : VmReach (fun l _ => ∀ c, l ≠ .kill c) s₁ :=
    .step (.exec 1) hreach ⟨fun c => by simp, hstep₁⟩
  obtain ⟨lists₁, howned₁⟩ := hreach₁.owned
  rw [hs.recycled] at hbin₁
  -- the segment of the program
  obtain ⟨s₂, hstep₂, hmore₂, -⟩ := segment_total howned₁ ha₁ hbin₁
    (by omega) 0x400000 0xFFF (.inl (by decide))
  have hi₂ := hi₁.vmStep hstep₂
  -- `strcpy` copies the string there
  obtain ⟨m, b, hstep₃, hb, hleaf, hone⟩ := hi₂.kernelFault_counted hmore₂.active PageOnce.userAddr
    (by decide) (by decide) (by rw [hmore₂.machine]; exact hempty₁ _) (by rw [hmore₂.machine]; omega)
  have hi₃ := hi₂.vmStep hstep₃
  have hreach₃ : VmReach (fun l _ => ∀ c, l ≠ .kill c) { s₂ with machine := m } :=
    .step _ (.step (.segment 0x400000 0xFFF) hreach₁ ⟨fun c => by simp, hstep₂⟩)
      ⟨fun c => by simp, hstep₃⟩
  obtain ⟨lists₃, howned₃⟩ := hreach₃.owned
  have hva₂ := hmore₂.kernVA
  -- the VMA of the string
  obtain ⟨u, hmore, -, hstep₄⟩ := argument_counted (v := 0x400000) howned₃ hmore₂.active
    hmore₂.recycled (by show s₂.kernVA + 24 < 2 ^ 64; omega) hi₃ (.inl (by decide)) hb
    (by show leaf m.mem k _ / 4096 = m.fl.frame b; rw [hleaf, entry_div (by decide)])
  have hi₄ := hi₃.vmStep hstep₄
  have hreach₄ : VmReach (fun l _ => ∀ c, l ≠ .kill c) _ :=
    .step (.argument 0x400000 0) hreach₃ ⟨fun c => by simp, hstep₄⟩
  obtain ⟨data, hrun⟩ : ∃ data, FrameReach (fun _ _ => True) ⟨_, data⟩ :=
    hreach₄.frames fun l s hl => ⟨hl, trivial⟩
  have hareas : u.areas (u.vmaNodes 1) = [(0x400000, 0x400FFF), (0x400000, 0x400000)] := by
    rw [hmore.areas]
    show s₂.areas (s₂.vmaNodes 1) ++ _ = _
    rw [hmore₂.areas, vmaNodes_nil hlist₁]
    rfl
  obtain ⟨lists, howned⟩ := hmore.owned
  obtain ⟨x, xs, hl, hstart, hend⟩ := howned.first_node hareas
  refine ⟨k, _, b, data, hrun, hi₄, hmore.active,
    ⟨lists, x, xs, ⟨howned.family, howned.heap, howned.bound⟩, hl, hstart, hend⟩, hb, hleaf, ?_, ?_⟩
  · show Function.update m.fl.refCount b (m.fl.refCount b + 1) b = 2
    rw [Function.update_self, hone]
  · exact hi₃.pages.mappings_eq hi₃.rootInv hb hone (by rw [hleaf]; exact Nat.succ_ne_zero _)
      (by rw [hleaf, entry_div (by decide)])

/-- The program unmaps the page of the string. -/
theorem munmap_lost : ∃ (s : FrameState) (f : Nat), FrameReach (fun _ _ => True) s ∧
    s.data f ∧ s.vm.machine.mappings f = ∅ ∧ ¬ s.vm.machine.fl.IsFree f := by
  obtain ⟨k, s, b, data, hrun, h⟩ := exec_counted
  obtain ⟨t, ht, hnone, hfree, -⟩ := h.munmap
  have hkept : ¬ t.machine.fl.IsFree (s.machine.fl.frame b) :=
    fun hf => absurd (hfree.mp hf) (by decide)
  exact ⟨_, _, .step (.munmap 0x400000 0xFFF) hrun ⟨trivial, frameStep_some (fun c => by simp) ht⟩,
    ⟨.inl (hrun.data h.used), hkept⟩, hnone, hkept⟩

end Sbunix
