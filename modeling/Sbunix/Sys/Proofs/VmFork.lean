import Sbunix.Sys.Proofs.VmStep

/-!
# New processes

`create_new_process`, and `copy_vma` with it: the child of a fork starts with an empty
user half and shares, node by node, the pages its parent has mapped.
-/

namespace Sbunix

variable {k : Nat} {s t u : VmState} {m m' : Machine} {a c g ga gc v n node lo hi : Nat}

/-! ## Creating a process -/

/-- The state after `create_new_process`. -/
structure NewProcess (k : Nat) (s t : VmState) (c g : Nat) : Prop where
  created : ∃ P, Created k s.machine t.machine c g P ∧ P.length ≤ 4
  pages : PageInv k t.machine noRes
  rootInv : RootInv k t.machine
  alive : t.alive = Function.update s.alive c true
  active : t.active = s.active
  vma : t.vma = s.vma
  vmaRecycleList : t.vmaRecycleList = s.vmaRecycleList
  kernVA : t.kernVA = s.kernVA + 200
  cr3 : (t.mm c).cr3 = g * 4096
  vmaList : (t.mm c).vmaList = 0
  mm : ∀ d, d ≠ c → t.mm d = s.mm d

theorem kmalloc_spec : Attempt (s.kmalloc n) (s.kernVA + n < 2 ^ 64) fun r =>
    r = (s.kernVA + 1, { s with kernVA := s.kernVA + n }) := by
  rw [VmState.kmalloc]
  by_cases h : 2 ^ 64 - 1 < s.kernVA + n
  · rw [if_pos h]
    exact ⟨fun hroom => absurd h (by omega), fun r hr => absurd hr (by simp)⟩
  · rw [if_neg h]
    exact .some rfl

theorem createNewProcess_spec (hp : PageInv k s.machine noRes) (hr : RootInv k s.machine)
    (hk : k < 2 ^ 52) (hc : c < procSize)
    (hcur : root s.machine.mem k (some c) ≠ some (s.machine.cr3 / 4096)) :
    Attempt (s.createNewProcess c)
      (8 ≤ s.machine.fl.totalblockcount ∧ s.kernVA + 200 < 2 ^ 64) fun t =>
      ∃ g, NewProcess k s t c g := by
  unfold VmState.createNewProcess
  simp only [Option.bind_eq_bind]
  refine ((mappageTable_spec hp hr hc hk hcur).bind
    (N := fun _ => s.kernVA + 200 < 2 ^ 64) ?_).consequence (fun h => ⟨h.1, fun _ _ => h.2⟩)
    fun _ => id
  rintro ⟨cr3, m'⟩ ⟨g, P, hcr3, hcr, hpages, hroot, hlen⟩
  simp only at hcr3
  refine (kmalloc_spec.bind (N := fun r => r.2.kernVA + 100 < 2 ^ 64) ?_).consequence ?_
    fun _ => id
  · rintro ⟨p₁, s₁⟩ h₁
    obtain ⟨-, rfl⟩ := Prod.mk.inj h₁
    refine (kmalloc_spec.bind (N := fun _ => True) ?_).consequence
      (fun h => ⟨h, fun _ _ => trivial⟩) fun _ => id
    rintro ⟨p₂, s₂⟩ h₂
    obtain ⟨-, rfl⟩ := Prod.mk.inj h₂
    refine .some ⟨g, ⟨P, hcr, hlen⟩, hpages, hroot, rfl, rfl, rfl, rfl, rfl, ?_, ?_, fun d hd => ?_⟩
    · simpa [VmState.setMm] using hcr3
    · simp [VmState.setMm]
    · simp [VmState.setMm, hd]
  · intro h
    have hva : s.kernVA + 100 < 2 ^ 64 := by omega
    refine ⟨hva, ?_⟩
    rintro ⟨p₁, s₁⟩ h₁
    obtain ⟨-, rfl⟩ := Prod.mk.inj h₁
    exact h

theorem NewProcess.root_eq (h : NewProcess k s t c g) (d : Nat) (hd : d < procSize) :
    root t.machine.mem k (some d) = if d = c then some g else root s.machine.mem k (some d) := by
  obtain ⟨P, hcr, -⟩ := h.created
  split_ifs with hdc
  · rw [hdc, hcr.newRoot]
  · exact hcr.roots d hd hdc

/-- Processes own their PML4s. -/
def OwnRoots (k : Nat) (s : VmState) : Prop := ∀ d, s.alive d = true →
  d < procSize ∧ ∃ g, root s.machine.mem k (some d) = some g ∧ (s.mm d).cr3 = g * 4096

/-- Loading the PML4 of a process. -/
theorem OwnRoots.switchTo (hal : OwnRoots k s) (hp : PageInv k s.machine noRes) (hk : k < 2 ^ 52)
    (hrange : ∀ p, UserRange (s.vma p).vstart (s.vma p).vend) (hc : s.alive c = true) :
    VmInv k { s.changePtable (s.mm c).cr3 with active := some c } := by
  obtain ⟨hlt, g, hg, hcr3⟩ := hal c hc
  have hroot : root s.machine.mem k (some c) = some ((s.mm c).cr3 / 4096) := by
    rw [hg, hcr3, Nat.mul_div_cancel _ (by decide)]
  have hpages : PageInv k ({ s.machine with cr3 := (s.mm c).cr3 } : Machine) noRes :=
    ⟨hp.free, hp.tables, hp.leaves⟩
  refine ⟨hpages, RootInv.of_slot hpages.tables hlt hroot, hk, hrange, hal, ?_, ⟨c, hlt, hroot⟩⟩
  intro d hd
  obtain rfl : c = d := Option.some.inj hd
  exact ⟨hc, rfl⟩

theorem NewProcess.ownRoots (h : NewProcess k s t c g) (hc : c < procSize) (hal : OwnRoots k s) :
    OwnRoots k t := by
  intro d hd
  rw [h.alive, Function.update_apply] at hd
  by_cases hdc : d = c
  · rw [hdc]
    exact ⟨hc, g, by rw [h.root_eq c hc, if_pos rfl], h.cr3⟩
  · rw [if_neg hdc] at hd
    obtain ⟨hlt, g', hg', hcr3⟩ := hal d hd
    exact ⟨hlt, g', by rw [h.root_eq d hlt, if_neg hdc, hg'], by rw [h.mm d hdc, hcr3]⟩

/-- Switching to the new process. -/
theorem NewProcess.vmInv (h : NewProcess k s t c g) (hk : k < 2 ^ 52) (hc : c < procSize)
    (hrange : ∀ p, UserRange (s.vma p).vstart (s.vma p).vend) (hal : OwnRoots k s) :
    VmInv k { t.changePtable (t.mm c).cr3 with active := some c } := by
  refine (h.ownRoots hc hal).switchTo h.pages hk (h.vma ▸ hrange) ?_
  rw [h.alive, Function.update_self]

/-- A slot that is not alive does not own the current PML4. -/
theorem VmInv.root_ne (hi : VmInv k s) (ha : s.active = some a) (hc : c < procSize)
    (hdead : s.alive c = false) :
    root s.machine.mem k (some c) ≠ some (s.machine.cr3 / 4096) := by
  intro hr
  obtain ⟨halt, hroot⟩ := hi.active_root ha
  have hnil : ∀ d, d < procSize → ValidPath (some d) [] := fun d hd => ⟨hd, by simp⟩
  obtain ⟨hs, -⟩ := hi.pages.tables.path_unique (hnil c hc) (hnil a halt) hr hroot
  have hca : c = a := Option.some.inj hs
  rw [hca, (hi.active a ha).1] at hdead
  exact absurd hdead (by simp)

theorem VmInv.syscallExec (hi : VmInv k s) (ha : s.active = some a) (hc : c < procSize)
    (hdead : s.alive c = false) (h : s.syscallExec c = some t) : VmInv k t := by
  rw [VmState.syscallExec, Option.bind_eq_bind, Option.bind_eq_some_iff] at h
  obtain ⟨s₁, h₁, h⟩ := h
  obtain ⟨g, hnew⟩ := (createNewProcess_spec hi.pages hi.rootInv hi.small hc
    (hi.root_ne ha hc hdead)).sound _ h₁
  rw [← Option.some.inj h]
  exact hnew.vmInv hi.small hc hi.range hi.alive

/-! ## Sharing the pages of the parent -/

theorem UserRange.span (h : UserRange lo hi) : UserSpan lo (lo + (hi + 1 - lo)) := by
  intro x hlo hlt
  refine ⟨h.userAddr hlo (by omega), ?_⟩
  have hup : upml4 - 4096 * (procSize - 1) = 0xFFFFFFFF801FF000 - 4096 * 99 := rfl
  rcases h with h | ⟨h, h'⟩ | ⟨h, h'⟩
  · omega
  · omega
  · rw [hup] at h'
    omega

/-- `m'` is `m` after the mapped pages among the `n` addresses from `lo` have been counted and
shared with slot `c`; the blocks `P` have become page tables of `c`. -/
structure NodeShared (k : Nat) (m m' : Machine) (a c lo n : Nat) (P : List Nat) : Prop where
  shared : SharedTo (leaf m.mem k) (leaf m'.mem k) a c lo (lo + n)
  blocks : m.fl.blocks = P ++ m'.fl.blocks
  freeMemory : m'.fl.freeMemory = m.fl.freeMemory
  counted : ∀ b < listSize, b ∉ P →
    Covers (leaf m.mem k) a lo (lo + n) (m.fl.frame b) → m'.fl.refCount b = m.fl.refCount b + 1
  uncounted : ∀ b < listSize, b ∉ P →
    ¬ Covers (leaf m.mem k) a lo (lo + n) (m.fl.frame b) → m'.fl.refCount b = m.fl.refCount b
  isTable : ∀ f, IsTable m.mem k f → IsTable m'.mem k f
  fresh : ∀ f, IsTable m'.mem k f → IsTable m.mem k f ∨ ∃ b ∈ P, f = m.fl.frame b
  frames : ∀ f, ¬ IsTable m'.mem k f → m'.mem f = m.mem f

/-- What holds between two nodes of `copy_vma`. -/
structure ForkInv (k : Nat) (s : VmState) (a c ga gc : Nat) : Prop where
  pages : PageInv k s.machine noRes
  slots : Slots k s.machine a c ga gc
  childOf : ChildOf (leaf s.machine.mem k) a c
  range : ∀ p, UserRange (s.vma p).vstart (s.vma p).vend
  cr3 : s.machine.cr3 = ga * 4096
  mmParent : (s.mm a).cr3 = ga * 4096
  mmChild : (s.mm c).cr3 = gc * 4096

/-- One node of `copy_vma`, on the machine. -/
theorem shareNode_spec {m₁ : Machine} (hp : PageInv k m noRes) (hslots : Slots k m a c ga gc)
    (hchild : ChildOf (leaf m.mem k) a c) (hcr3 : m.cr3 = ga * 4096) (hspan : UserSpan lo (lo + n))
    (h₁ : VmState.incrementFrom n lo 0 m = some m₁)
    (h₂ : VmState.shareFrom (gc * 4096) (ga * 4096) n lo 0 m₁ = some m') :
    (∃ P, NodeShared k m m' a c lo n P) ∧ PageInv k m' noRes ∧ ChildOf (leaf m'.mem k) a c ∧
      m'.cr3 = m.cr3 ∧ ∀ d < procSize, root m'.mem k (some d) = root m.mem k (some d) := by
  have hroot : root m.mem k (some a) = some (m.cr3 / 4096) := by
    rw [hcr3, Nat.mul_div_cancel _ (by decide)]
    exact hslots.parent
  have hnone : ∀ f, ¬ Covers (leaf m.mem k) a lo lo f :=
    fun f ⟨x, hx, hlt, _⟩ => absurd hlt (Nat.not_lt.mpr hx)
  obtain ⟨res, hp₁, -, hmem₁, hcr3₁, hfm₁, hbl₁, hcl₁, hct₁⟩ :=
    incrementFrom_spec (c := c) (N := m.fl.refCount) hp (RootInv.of_slot hp.tables hslots.lt.1 hroot)
      hslots.lt.1 hroot hchild hspan (Nat.le_refl lo)
      (fun x hx hlt => absurd hlt (Nat.not_lt.mpr hx)) Marks.start
      (fun b _ => ⟨fun hc => absurd hc (hnone _), fun _ => rfl⟩) h₁
  have hslots₁ : Slots k m₁ a c ga gc :=
    ⟨hslots.ne, hslots.lt, by rw [hmem₁]; exact hslots.parent, by rw [hmem₁]; exact hslots.child⟩
  have hsharing : Sharing k m₁ res (leaf m.mem k) a c lo lo (lo + n) 0 :=
    ⟨hp₁, by rw [hmem₁]; exact SharedTo.start, by rw [hmem₁]; exact hchild,
      by rw [hmem₁]; exact hcl₁, .inl rfl⟩
  obtain ⟨hp', hdone, hchild', hcr3', ⟨P, hP⟩, hroots⟩ := shareFrom_spec hsharing hslots₁
    (Nat.le_refl lo) rfl (fun x hx hlt => (hspan x hx hlt).1) (hcr3₁.trans hcr3) h₂
  refine ⟨⟨P, hdone, ?_, hP.freeMemory.trans hfm₁, ?_, ?_, ?_, ?_, ?_⟩,
    ⟨hp'.free, hp'.tables, hp'.leaves.release⟩, hchild', hcr3'.trans hcr3₁, ?_⟩
  · rw [← hbl₁]
    exact hP.blocks
  · intro b hb hbP hc
    rw [hP.refs b hbP]
    refine (hct₁ b hb).1 ?_
    rwa [FreeList.frame_congr hfm₁ b]
  · intro b hb hbP hc
    rw [hP.refs b hbP]
    refine (hct₁ b hb).2 ?_
    rwa [FreeList.frame_congr hfm₁ b]
  · intro f hf
    exact hP.isTable f (hmem₁ ▸ hf)
  · intro f hf
    rcases hP.fresh f hf with ht | ⟨b, hb, rfl⟩
    · exact .inl (hmem₁ ▸ ht)
    · exact .inr ⟨b, hb, FreeList.frame_congr hfm₁ b⟩
  · intro f hf
    rw [hP.frames f hf, hmem₁]
  · intro d hd
    rw [hroots d hd, hmem₁]

/-- One node of `copy_vma`. -/
theorem ForkInv.copyNode (h : ForkInv k s a c ga gc) (hf : s.copyNode a c node = some t) :
    ForkInv k t a c ga gc ∧
      (∃ P, NodeShared k s.machine t.machine a c (s.vma node).vstart
        ((s.vma node).vend + 1 - (s.vma node).vstart) P) ∧
      t.alive = s.alive ∧ t.active = s.active ∧ (∀ d, (t.mm d).cr3 = (s.mm d).cr3) ∧
      ∀ d < procSize, root t.machine.mem k (some d) = root s.machine.mem k (some d) := by
  simp only [VmState.copyNode, Option.bind_eq_bind, Option.bind_eq_some_iff, Prod.exists] at hf
  obtain ⟨new, s₁, h₁, s₂, h₂, s₃, h₃, h₄⟩ := hf
  have hsame := (SameSpace.allocVma (h.range node) h₁).trans (SameSpace.append h₂)
  obtain ⟨m₃, hm₃, rfl⟩ := Option.map_eq_some_iff.mp h₃
  obtain ⟨m₄, hm₄, rfl⟩ := Option.map_eq_some_iff.mp h₄
  have hbounds : (s₂.vma node).vstart = (s.vma node).vstart ∧
      (s₂.vma node).vend = (s.vma node).vend := by
    have hvma := SameSpace.allocVma_vma h₁
    rw [(SameSpace.append_bounds h₂ node).1, (SameSpace.append_bounds h₂ node).2, hvma]
    by_cases hn : node = new
    · rw [hn, Function.update_self, ← hn]
      exact ⟨rfl, rfl⟩
    · rw [Function.update_of_ne hn]
      exact ⟨rfl, rfl⟩
  rw [hbounds.1, hbounds.2, hsame.machine] at hm₃
  have hm₄ : VmState.shareFrom (s₂.mm c).cr3 (s₂.mm a).cr3
      ((s₂.vma node).vend + 1 - (s₂.vma node).vstart) (s₂.vma node).vstart 0 m₃ = some m₄ := hm₄
  rw [hbounds.1, hbounds.2, hsame.cr3, hsame.cr3, h.mmParent, h.mmChild] at hm₄
  obtain ⟨hnode, hpages, hchild, hcr3, hroots⟩ :=
    shareNode_spec h.pages h.slots h.childOf h.cr3 (h.range node).span hm₃ hm₄
  refine ⟨⟨hpages, ⟨h.slots.ne, h.slots.lt, ?_, ?_⟩, hchild, hsame.range h.range, hcr3.trans h.cr3,
    (hsame.cr3 a).trans h.mmParent, (hsame.cr3 c).trans h.mmChild⟩, hnode, hsame.alive,
    hsame.active, hsame.cr3, hroots⟩
  · exact (hroots a h.slots.lt.1).trans h.slots.parent
  · exact (hroots c h.slots.lt.2).trans h.slots.child

/-- All nodes. -/
theorem ForkInv.copyFrom {fuel : Nat} (h : ForkInv k s a c ga gc)
    (hf : VmState.copyFrom a c fuel node s = some t) :
    ForkInv k t a c ga gc ∧ t.alive = s.alive ∧ t.active = s.active ∧
      (∀ d, (t.mm d).cr3 = (s.mm d).cr3) ∧
      ∀ d < procSize, root t.machine.mem k (some d) = root s.machine.mem k (some d) := by
  induction fuel generalizing node s with
  | zero => simp [VmState.copyFrom] at hf
  | succ fuel ih =>
      rw [VmState.copyFrom] at hf
      split_ifs at hf with h0
      · obtain rfl : s = t := Option.some.inj hf
        exact ⟨h, rfl, rfl, fun _ => rfl, fun _ _ => rfl⟩
      · rw [Option.bind_eq_bind, Option.bind_eq_some_iff] at hf
        obtain ⟨s₁, h₁, hf⟩ := hf
        obtain ⟨hinv, -, hal, hac, hmm, hroots⟩ := h.copyNode h₁
        obtain ⟨hinv', hal', hac', hmm', hroots'⟩ := ih hinv hf
        exact ⟨hinv', hal'.trans hal, hac'.trans hac, fun d => (hmm' d).trans (hmm d),
          fun d hd => (hroots' d hd).trans (hroots d hd)⟩

/-- The user half of a new process is empty. -/
theorem NewProcess.leaf_child (h : NewProcess k s t c g) (q : Nat) :
    leaf t.machine.mem k (some c, q) = 0 := by
  obtain ⟨P, hcr, -⟩ := h.created
  rw [hcr.leaf _ (by simp), if_pos rfl]

/-- What `copy_vma` starts from in `syscall_fork`. -/
theorem VmInv.forkInv (hi : VmInv k s) (ha : s.active = some a) (hc : c < procSize)
    (hdead : s.alive c = false) (hnew : NewProcess k s t c g) {f : Mm → Mm}
    (hf : ∀ x, (f x).cr3 = x.cr3) :
    ∃ ga, ForkInv k (t.setMm c f) a c ga g ∧ s.machine.cr3 = ga * 4096 := by
  obtain ⟨halive, hcr3⟩ := hi.active a ha
  obtain ⟨halt, ga, hga, hmm⟩ := hi.alive a halive
  have hne : a ≠ c := by
    rintro rfl
    rw [halive] at hdead
    exact absurd hdead (by simp)
  obtain ⟨P, hcr, -⟩ := hnew.created
  have hmm' := (SameSpace.setMm (s := t) (a := c) hf).cr3
  refine ⟨ga, ⟨hnew.pages, ⟨hne, ⟨halt, hc⟩, ?_, ?_⟩, ?_, ?_, ?_, ?_, ?_⟩, hcr3.symm.trans hmm⟩
  · show root t.machine.mem k (some a) = some ga
    rw [hnew.root_eq a halt, if_neg hne, hga]
  · show root t.machine.mem k (some c) = some g
    rw [hnew.root_eq c hc, if_pos rfl]
  · intro q hq
    exact absurd (hnew.leaf_child q) hq
  · show ∀ p, UserRange (t.vma p).vstart (t.vma p).vend
    rw [hnew.vma]
    exact hi.range
  · show t.machine.cr3 = ga * 4096
    rw [hcr.cr3, ← hcr3, hmm]
  · rw [hmm', hnew.mm a hne, hmm]
  · rw [hmm', hnew.cr3]

theorem VmInv.syscallFork (hi : VmInv k s) (ha : s.active = some a) (hc : c < procSize)
    (hdead : s.alive c = false) (h : s.syscallFork a c = some t) : VmInv k t := by
  simp only [VmState.syscallFork, Option.bind_eq_bind, Option.bind_eq_some_iff] at h
  obtain ⟨s₁, h₁, s₂, h₂, h⟩ := h
  obtain ⟨g, hnew⟩ := (createNewProcess_spec hi.pages hi.rootInv hi.small hc
    (hi.root_ne ha hc hdead)).sound _ h₁
  obtain ⟨ga, hfork, -⟩ := hi.forkInv ha hc hdead hnew
    (f := fun t => { t with heapTop := (s₁.mm a).heapTop, vmaList := 0 }) fun _ => rfl
  obtain ⟨hfork', hal, -, hmm, hroots⟩ := hfork.copyFrom h₂
  rw [← Option.some.inj h]
  refine OwnRoots.switchTo ?_ hfork'.pages hi.small hfork'.range ?_
  · intro d hd
    rw [hal] at hd
    obtain ⟨hlt, g', hg', hcr3⟩ := hnew.ownRoots hc hi.alive d hd
    refine ⟨hlt, g', (hroots d hlt).trans hg', (hmm d).trans ?_⟩
    exact ((SameSpace.setMm (f := fun t => { t with heapTop := (s₁.mm a).heapTop, vmaList := 0 })
      fun _ => rfl).cr3 d).trans hcr3
  · rw [hal]
    show s₁.alive c = true
    rw [hnew.alive, Function.update_self]

end Sbunix
