import Sbunix.Sys.Proofs.HeapPlaces

/-!
# The memory of a killed process

`syscall_kill` runs in the address space of the process that calls it, and follows the link of
a node that `remove_from_vma_list` has just recycled.
-/

namespace Sbunix

open VmState

variable {s t u : VmState} {lists : Option Nat → List Nat} {xs ys : List Nat} {m m' : Machine}
  {a b c k n p r v x start stop : Nat}

/-! ## What is claimed, and when it holds -/

/-- After the kill of slot `c` by the process `a`: the nodes of `c` are recycled, each once, its
list is empty, its pages are unmapped with their counts decreased, and the address space of `a`
is as before. -/
structure TornDown (s t : VmState) (c : Nat) : Prop where
  recycled : ∀ x ∈ s.vmaNodes c, t.recycledNodes.count x = 1
  empty : t.vmaNodes c = []
  unmapped : ∀ r ∈ s.areas (s.vmaNodes c), ∀ v, r.1 ≤ v → v ≤ r.2 → ∀ w,
    walk s.machine.mem (s.mm c).cr3 v = some w → walk t.machine.mem (s.mm c).cr3 v = none ∧
      ∀ b, s.machine.fl.blockindex w.e4 = some b →
        t.machine.fl.refCount b < s.machine.fl.refCount b
  own : ∀ v < 2 ^ 64, walk t.machine.mem s.machine.cr3 v = walk s.machine.mem s.machine.cr3 v

/-- `c` has at most one VMA, no page of it is mapped, and what the loop of
`unmap_phyaddr_range` visits is not mapped in the address space that is loaded. -/
structure NothingMapped (s : VmState) (c : Nat) : Prop where
  one : (s.vmaNodes c).length ≤ 1
  victim : ∀ r ∈ s.areas (s.vmaNodes c), ∀ v, r.1 ≤ v → v ≤ r.2 →
    walk s.machine.mem (s.mm c).cr3 v = none
  killer : ∀ r ∈ s.areas (s.vmaNodes c), ∀ v ∈ rangeAddrs r.1 r.2,
    walk s.machine.mem s.machine.cr3 v = none

/-! ## Address spaces that are not loaded -/

/-- An address of the space whose PML4 is at `r`. -/
theorem PageInv.walk_slot (hp : PageInv k m noRes) (hc : c < procSize)
    (hroot : root m.mem k (some c) = some (r / 4096)) (hu : UserAddr v) :
    walk m.mem r v = none ↔ leaf m.mem k (pageAt c v) = 0 := by
  have hpages : PageInv k ({ m with cr3 := r } : Machine) noRes := ⟨hp.free, hp.tables, hp.leaves⟩
  have hrootInv : RootInv k ({ m with cr3 := r } : Machine) := RootInv.of_slot hpages.tables hc hroot
  have hs : InSpace k ({ m with cr3 := r } : Machine) v (spaceOf c v) := hu.inSpace hc hroot
  exact hpages.walk_eq_none hrootInv hs

/-- Unmapping pages that are not mapped. -/
theorem unmapList_unmapped (vs : List Nat) (hp : PageInv k m noRes) (hr : RootInv k m)
    (hc : c < procSize) (hroot : root m.mem k (some c) = some (m.cr3 / 4096))
    (hvs : ∀ v ∈ vs, UserAddr v ∧ leaf m.mem k (pageAt c v) = 0) :
    vs.foldlM (fun m v => Machine.unmapPhyaddr m v) m = some m := by
  induction vs with
  | nil => rfl
  | cons v vs ih =>
    obtain ⟨hu, h0⟩ := hvs v List.mem_cons_self
    rw [List.foldlM_cons,
      Machine.unmapPhyaddr_unmapped hp.tables hr (hu.inSpace hc hroot) h0]
    exact ih fun v hv => hvs v (List.mem_cons_of_mem _ hv)

/-! ## The loop of syscall_kill -/

/-- `syscall_kill` stops behind the node it has recycled first. -/
theorem killFrom_head (fuel : Nat) (h : s.Owned lists) (hl : lists (some c) = x :: xs)
    (hm : s.machine.unmapPhyaddrRange (s.vma x).vstart (s.vma x).vend = some m) :
    ∃ u : VmState, VmState.killFrom c (fuel + 2) (s.mm c).vmaList s = some { u with machine := m } ∧
      u.Owned (recycled lists c xs x) := by
  have hchain := h.family.chain (some c)
  rw [hl] at hchain
  obtain ⟨hhead, hne, -⟩ := hchain
  have hhead : (s.mm c).vmaList = x := hhead
  obtain ⟨u, howned, -, -, hres⟩ := (h.remove_head hl ⟨Nat.le_refl _, Nat.le_refl _⟩).result
  rw [hm] at hres
  -- the recycled node is the last of its new list
  have hnext : (u.vma x).nextvma = 0 := by
    have hlast := howned.family.chain none
    rw [recycled, Function.update_self] at hlast
    exact hlast.next_eq
  refine ⟨u, ?_, howned⟩
  rw [hhead, VmState.killFrom, if_neg hne, hres]
  show VmState.killFrom c (fuel + 1) (u.vma x).nextvma { u with machine := m } = _
  rw [VmState.killFrom, if_pos hnext]

/-- The state in which the loop starts. -/
def VmState.markDead (s : VmState) (c : Nat) : VmState :=
  ({ s with alive := Function.update s.alive c false } : VmState).setMm c
    fun m => { m with cr3 := 0 }

theorem markDead_vmaList : ((s.markDead c).mm c).vmaList = (s.mm c).vmaList := by
  simp [VmState.markDead, VmState.setMm]

theorem syscallKillMem_eq :
    s.syscallKillMem c = VmState.killFrom c (2 ^ 64) (s.mm c).vmaList (s.markDead c) := by
  rw [← markDead_vmaList]
  rfl

theorem VmState.Owned.markDead (h : s.Owned lists) : (s.markDead c).Owned lists := by
  have halive : ({ s with alive := Function.update s.alive c false } : VmState).Owned lists :=
    ⟨h.family, h.heap, h.bound⟩
  exact halive.setMm fun _ => rfl

/-- What `syscall_kill` leaves of a list with a first node `x`. -/
theorem syscallKillMem_cons (h : s.Owned lists) (hl : lists (some c) = x :: xs)
    (hm : s.machine.unmapPhyaddrRange (s.vma x).vstart (s.vma x).vend = some m) :
    ∃ t, s.syscallKillMem c = some t ∧ t.machine = m ∧ t.vmaNodes c = xs ∧
      t.recycledNodes = lists none ++ [x] := by
  have hfuel : (2 ^ 64 : Nat) = 2 ^ 64 - 2 + 2 := rfl
  obtain ⟨u, hu, howned⟩ := killFrom_head (2 ^ 64 - 2) (h.markDead (c := c)) hl hm
  refine ⟨{ u with machine := m }, ?_, rfl, ?_, ?_⟩
  · rw [syscallKillMem_eq, hfuel, ← markDead_vmaList]
    exact hu
  · have hnodes := howned.vmaNodes c
    rw [recycled, Function.update_of_ne (Option.some_ne_none c), Function.update_self] at hnodes
    exact hnodes
  · have hnodes := howned.recycledNodes
    rw [recycled, Function.update_self] at hnodes
    exact hnodes

theorem syscallKillMem_nil (h : s.Owned lists) (hl : lists (some c) = []) :
    s.syscallKillMem c = some (s.markDead c) ∧ (s.markDead c).vmaNodes c = [] := by
  have hhead : (s.mm c).vmaList = 0 := h.head_eq_zero.mpr hl
  have hfuel : (2 ^ 64 : Nat) = 2 ^ 64 - 1 + 1 := rfl
  refine ⟨?_, vmaNodes_nil (markDead_vmaList.trans hhead)⟩
  rw [syscallKillMem_eq, hhead, hfuel, VmState.killFrom, if_pos rfl]

theorem vmStep_kill (ha : s.active = some a) (hca : c ≠ a) (hc : c < procSize) :
    vmStep (.kill c) s = s.syscallKillMem c := by
  show Option.bind _ _ = _
  rw [ha, Option.bind_some, VmState.stepOf, if_pos ⟨hc, hca⟩]

/-! ## When the teardown is complete -/

section

variable (hi : VmInv k s) (hs : s.Owned lists) (ha : s.active = some a)
  (hl : lists (some c) = x :: xs)
  (hm : s.machine.unmapPhyaddrRange (s.vma x).vstart (s.vma x).vend = some m) (hmach : t.machine = m)
  (htnodes : t.vmaNodes c = xs)

include hs hl in
theorem areas_cons :
    s.areas (s.vmaNodes c) = ((s.vma x).vstart, (s.vma x).vend) :: s.areas xs := by
  rw [hs.vmaNodes, hl]
  rfl

include hi ha hm hmach

/-- Nothing that the loop visits was mapped in the space of the killer. -/
theorem TornDown.killer_unmapped (htorn : TornDown s t c) :
    ∀ v ∈ rangeAddrs (s.vma x).vstart (s.vma x).vend,
      walk s.machine.mem s.machine.cr3 v = none := by
  intro v hv
  obtain ⟨halt, hroot⟩ := hi.active_root ha
  obtain ⟨m', hm', hkeeps, hleaf⟩ := unmapRange_spec hi.pages hi.rootInv halt hroot (hi.range x)
  obtain rfl := Option.some.inj (hm.symm.trans hm')
  have hrootm : root m.mem k (some a) = some (s.machine.cr3 / 4096) := by
    rw [hkeeps.roots a halt, hroot]
  have hu := ((hi.range x).rangeAddrs hv).1
  rw [← htorn.own v hu.1, hmach, hkeeps.pages.walk_slot halt hrootm hu, hleaf, if_pos ⟨v, hv, rfl⟩]

include hs hl htnodes

theorem TornDown.nothingMapped (hal : s.alive c = true) (htorn : TornDown s t c) :
    NothingMapped s c := by
  obtain ⟨halt, hroot⟩ := hi.active_root ha
  obtain ⟨m', hm', hkeeps, hleaf⟩ := unmapRange_spec hi.pages hi.rootInv halt hroot (hi.range x)
  obtain rfl := Option.some.inj (hm.symm.trans hm')
  obtain ⟨hc, g, hg, hcr3⟩ := hi.alive c hal
  have hrootc : root s.machine.mem k (some c) = some ((s.mm c).cr3 / 4096) := by
    rw [hg, hcr3, Nat.mul_div_cancel _ (by decide)]
  have hrootmc : root m.mem k (some c) = some ((s.mm c).cr3 / 4096) := by
    rw [hkeeps.roots c hc, hrootc]
  have hareas := areas_cons hs hl
  have hkiller := htorn.killer_unmapped hi ha hm hmach
  have hempty := htorn.empty
  rw [htnodes] at hempty
  refine ⟨?_, ?_, ?_⟩
  · rw [hs.vmaNodes, hl, hempty]
    exact Nat.le_refl _
  · rw [hareas, hempty]
    intro r hr' v hlo hhi
    obtain rfl := List.mem_singleton.mp hr'
    have hu := (hi.range x).userAddr hlo hhi
    by_contra hmapped
    obtain ⟨w, hw⟩ := Option.ne_none_iff_exists'.mp hmapped
    have hgone := (htorn.unmapped _ (by rw [hareas]; exact List.mem_cons_self) v hlo hhi w hw).1
    rw [hmach, hkeeps.pages.walk_slot hc hrootmc hu, hleaf] at hgone
    rw [hi.pages.walk_slot hc hrootc hu] at hmapped
    by_cases hvisit : ∃ u ∈ rangeAddrs (s.vma x).vstart (s.vma x).vend, pageAt c v = pageAt a u
    · -- only a page of the kernel half lies in both spaces
      obtain ⟨u, humem, hpage⟩ := hvisit
      rw [hpage] at hmapped
      exact hmapped ((hi.pages.walk_slot halt hroot ((hi.range x).rangeAddrs humem).1).mp
        (hkiller u humem))
    · rw [if_neg hvisit] at hgone
      exact hmapped hgone
  · rw [hareas, hempty]
    intro r hr' v hv
    obtain rfl := List.mem_singleton.mp hr'
    exact hkiller v hv

/-- The loop finds nothing to unmap, and recycles the only node. -/
theorem NothingMapped.tornDown (htrec : t.recycledNodes = lists none ++ [x])
    (hnone : NothingMapped s c) : TornDown s t c := by
  obtain ⟨halt, hroot⟩ := hi.active_root ha
  have hmem : ((s.vma x).vstart, (s.vma x).vend) ∈ s.areas (s.vmaNodes c) := by
    rw [areas_cons hs hl]
    exact List.mem_cons_self
  have hnodes := hs.vmaNodes c
  rw [hl] at hnodes
  have hone := hnone.one
  rw [hnodes, List.length_cons] at hone
  have hnil : xs = [] := List.eq_nil_of_length_eq_zero (by omega)
  have hsame : m = s.machine := by
    have hlist := unmapList_unmapped (rangeAddrs (s.vma x).vstart (s.vma x).vend) hi.pages
      hi.rootInv halt hroot fun v hv => by
        have hu := ((hi.range x).rangeAddrs hv).1
        refine ⟨hu, (hi.pages.walk_slot halt hroot hu).mp ?_⟩
        exact hnone.killer _ hmem v hv
    rw [unmapPhyaddrRange_eq (hi.range x).vend_lt, hlist] at hm
    exact (Option.some.inj hm).symm
  refine ⟨fun y hy => ?_, htnodes.trans hnil, fun r hr' v hlo hhi w hw => ?_, fun v _ => ?_⟩
  · rw [hnodes, hnil, List.mem_singleton] at hy
    rw [htrec, hy, List.count_append, List.count_singleton_self,
      List.count_eq_zero_of_not_mem]
    intro hmem
    exact Option.some_ne_none c (hs.family.unique (some c) none x (by simp [hl]) hmem)
  · rw [hnone.victim r hr' v hlo hhi] at hw
    cases hw
  · rw [hmach, hsame]

end

/-- In every state in which a process kills another one the kill ends, and tears down the
memory of its victim exactly if it has almost nothing to do. -/
theorem syscallKillMem_tornDown {cond : VmLabel → VmState → Prop} (hr : VmReach cond s)
    (ha : s.active = some a) (hca : c ≠ a) (hal : s.alive c = true) :
    ∃ t, vmStep (.kill c) s = some t ∧ (TornDown s t c ↔ NothingMapped s c) := by
  obtain ⟨k, hi⟩ := hr.vmInv
  rw [vmStep_kill ha hca (hi.alive c hal).1]
  obtain ⟨lists, hs⟩ := hr.owned
  cases hl : lists (some c) with
  | nil =>
    obtain ⟨ht, hnil⟩ := syscallKillMem_nil hs hl
    have hnodes := hs.vmaNodes c
    rw [hl] at hnodes
    have hmach : (s.markDead c).machine = s.machine := rfl
    refine ⟨_, ht, fun _ => ⟨?_, ?_, ?_⟩, fun _ => ⟨?_, hnil, ?_, ?_⟩⟩
    all_goals simp [hnodes, hmach, VmState.areas]
  | cons x xs =>
    obtain ⟨halt, hroot⟩ := hi.active_root ha
    obtain ⟨m, hm, -⟩ := unmapRange_spec hi.pages hi.rootInv halt hroot (hi.range x)
    obtain ⟨t, ht, hmach, htnodes, htrec⟩ := syscallKillMem_cons hs hl hm
    exact ⟨t, ht, TornDown.nothingMapped hi hs ha hl hm hmach htnodes hal,
      NothingMapped.tornDown hi hs ha hl hm hmach htnodes htrec⟩

/-! ### A fork of a program that has touched no page -/

/-- Pages that are not mapped are not counted. -/
theorem incrementFrom_unmapped (h : ∀ u, v ≤ u → u < v + n → m.getPhysAddr u = some 0)
    (marked : Nat) : VmState.incrementFrom n v marked m = some m := by
  induction n generalizing v with
  | zero => rfl
  | succ n ih =>
    rw [VmState.incrementFrom, h v (Nat.le_refl v) (by omega)]
    apply ih
    intro u hlo hhi
    exact h u (by omega) (by omega)

/-- Pages that are not mapped are not shared. -/
theorem shareFrom_unmapped {procCr3 : Nat}
    (h : ∀ u, v ≤ u → u < v + n → m.getPhysAddr u = some 0) (marked : Nat) :
    VmState.shareFrom procCr3 r n v marked m = some m := by
  induction n generalizing v with
  | zero => rfl
  | succ n ih =>
    rw [VmState.shareFrom, h v (Nat.le_refl v) (by omega)]
    simp only [Option.bind_eq_bind, Option.bind_some, true_or, if_true]
    apply ih
    intro u hlo hhi
    exact h u (by omega) (by omega)

/-- One turn of `copy_vma` at a node without mapped pages. -/
theorem copyNode_unmapped (h : s.Owned lists) (hne : a ≠ c) (hx : x ∈ lists (some a))
    (hbin : s.vmaRecycleList = 0) (hva : s.kernVA + 24 < 2 ^ 64)
    (hr : UserRange (s.vma x).vstart (s.vma x).vend)
    (h0 : ∀ v, (s.vma x).vstart ≤ v → v ≤ (s.vma x).vend → s.machine.getPhysAddr v = some 0) :
    ∃ t p lists', s.copyNode a c x = some t ∧ t.Owned lists' ∧
      Added s t lists lists' c p (s.vma x).vstart (s.vma x).vend ∧
      t.machine = s.machine ∧ t.alive = s.alive ∧ t.vmaRecycleList = 0 ∧
      t.kernVA = s.kernVA + 24 := by
  obtain ⟨p, u, t, lists', halloc, happend, ht, hadd, hspace, hbin', hva'⟩ :=
    h.add_total hbin hva c hr
  obtain ⟨hlo, hhi⟩ := bounds_of_areas (hadd.others a hne).areas hx
  have hunmapped : ∀ v, (s.vma x).vstart ≤ v →
      v < (s.vma x).vstart + ((s.vma x).vend + 1 - (s.vma x).vstart) →
      t.machine.getPhysAddr v = some 0 := by
    intro v hlo hhi
    rw [hspace.machine]
    exact h0 v hlo (by omega)
  have hinc : t.incrementChildpgRef (t.vma x).vstart (t.vma x).vend = some t := by
    rw [VmState.incrementChildpgRef, VmState.onMachine, hlo, hhi,
      incrementFrom_unmapped hunmapped]
    rfl
  refine ⟨t, p, lists', ?_, ht, hadd, hspace.machine, hspace.alive, hbin', hva'⟩
  rw [VmState.copyNode, halloc]
  simp only [Option.bind_eq_bind, Option.bind_some]
  rw [happend, Option.bind_some, hinc, Option.bind_some, VmState.onMachine, hlo, hhi,
    shareFrom_unmapped hunmapped]
  rfl

/-- `copy_vma` of a program without mapped pages. -/
theorem copyFrom_unmapped {fuel : Nat} (h : s.Owned lists) (hne : a ≠ c)
    (hl : lists (some a) = xs ++ ys) (hx : Chain s.next 0 x ys) (hfuel : ys.length < fuel)
    (hbin : s.vmaRecycleList = 0) (hva : s.kernVA + 24 * ys.length < 2 ^ 64)
    (hr : ∀ y ∈ ys, UserRange (s.vma y).vstart (s.vma y).vend)
    (h0 : ∀ y ∈ ys, ∀ v, (s.vma y).vstart ≤ v → v ≤ (s.vma y).vend →
      s.machine.getPhysAddr v = some 0) :
    ∃ t, VmState.copyFrom a c fuel x s = some t ∧ t.alive = s.alive := by
  induction ys generalizing s lists xs x fuel with
  | nil =>
    cases fuel with
    | zero => exact absurd hfuel (Nat.not_lt_zero _)
    | succ fuel => exact ⟨s, by rw [VmState.copyFrom, if_pos (show x = 0 from hx)], rfl⟩
  | cons y ys ih =>
    obtain ⟨rfl, hne0, -⟩ := hx
    cases fuel with
    | zero => exact absurd hfuel (Nat.not_lt_zero _)
    | succ fuel =>
      rw [List.length_cons] at hva hfuel
      obtain ⟨u, p, lists', hu, howned, hadd, hmach, halive, hbin', hva'⟩ := copyNode_unmapped h hne
        (by simp [hl]) hbin (by omega) (hr x List.mem_cons_self) (h0 x List.mem_cons_self)
      have hkeep := hadd.others a hne
      have hl' : lists' (some a) = (xs ++ [x]) ++ ys := by
        rw [hkeep.nodes, hl, List.append_assoc, List.singleton_append]
      have hrest : Chain u.next 0 (u.next x) ys := by
        have hchain := howned.family.chain (some a)
        rw [hl', List.append_assoc] at hchain
        exact hchain.next_eq
      have hb : ∀ y ∈ ys, (u.vma y).vstart = (s.vma y).vstart ∧ (u.vma y).vend = (s.vma y).vend :=
        fun y hy => bounds_of_areas hkeep.areas (by simp [hl, hy])
      have hlt : ys.length < fuel := Nat.lt_of_succ_lt_succ hfuel
      obtain ⟨t, ht, halive'⟩ := ih howned hl' hrest hlt hbin' (by omega)
        (fun y hy => by
          rw [(hb y hy).1, (hb y hy).2]
          exact hr y (List.mem_cons_of_mem x hy))
        (fun y hy v hlo hhi => by
          rw [(hb y hy).1] at hlo
          rw [(hb y hy).2] at hhi
          rw [hmach]
          exact h0 y (List.mem_cons_of_mem x hy) v hlo hhi)
      refine ⟨t, ?_, halive'.trans halive⟩
      rw [VmState.copyFrom, if_neg hne0, hu]
      exact ht

theorem VmInv.fork_unmapped (hi : VmInv k s) (hs : s.Owned lists) (ha : s.active = some a)
    (hc : c < procSize) (hdead : s.alive c = false) (hroom : 8 ≤ s.machine.fl.totalblockcount)
    (hbin : s.vmaRecycleList = 0)
    (hva : s.kernVA + 200 + 24 * (lists (some a)).length < 2 ^ 64)
    (h0 : ∀ x ∈ lists (some a), ∀ v, (s.vma x).vstart ≤ v → v ≤ (s.vma x).vend →
      leaf s.machine.mem k (pageAt a v) = 0) :
    ∃ t, Sbunix.vmStep (.fork c) s = some t ∧ t.active = some c ∧
      t.alive = Function.update s.alive c true := by
  obtain ⟨halt, hroot⟩ := hi.active_root ha
  have hne : a ≠ c := by
    rintro rfl
    rw [(hi.active a ha).1] at hdead
    cases hdead
  obtain ⟨u, hu, g, hnew⟩ := (createNewProcess_spec hi.pages hi.rootInv hi.small hc
    (hi.root_ne ha hc hdead)).exists_some ⟨hroom, by omega⟩
  obtain ⟨P, hcr, -⟩ := hnew.created
  obtain ⟨lists₁, hs₁, hkeep₁⟩ := Frames.createNewProcess hu lists hs
  obtain ⟨u₀, hu₀⟩ : ∃ u₀, u.setMm c (fun m =>
    { m with heapTop := (u.mm a).heapTop, vmaList := 0 }) = u₀ := ⟨_, rfl⟩
  obtain ⟨lists₂, hs₂, hkeep₂⟩ : ∃ lists₂, u₀.Owned lists₂ ∧ KeepsList u u₀ lists₁ lists₂ a := by
    have hdrop : Frames (· = c) u u₀ := by
      rw [← hu₀]
      exact Frames.inherit
    obtain ⟨lists₂, hs₂, hkeep₂⟩ := hdrop lists₁ hs₁
    exact ⟨lists₂, hs₂, hkeep₂ a hne⟩
  have hkeep := (hkeep₁ a hne).trans hkeep₂
  have hva₀ : u₀.kernVA = s.kernVA + 200 := by rw [← hu₀]; exact hnew.kernVA
  have hmach₀ : u₀.machine = u.machine := by rw [← hu₀]; rfl
  have hb : ∀ x ∈ lists (some a), (u₀.vma x).vstart = (s.vma x).vstart ∧
      (u₀.vma x).vend = (s.vma x).vend := fun x hx => bounds_of_areas hkeep.areas hx
  have hroot' : root u.machine.mem k (some a) = some (u.machine.cr3 / 4096) := by
    rw [hcr.roots a halt hne, hcr.cr3, hroot]
  have hread : ∀ y ∈ lists₂ (some a), ∀ v, (u₀.vma y).vstart ≤ v → v ≤ (u₀.vma y).vend →
      u₀.machine.getPhysAddr v = some 0 := by
    intro y hy v hlo hhi
    rw [hkeep.nodes] at hy
    rw [(hb y hy).1] at hlo
    rw [(hb y hy).2] at hhi
    have hu := (hi.range y).userAddr hlo hhi
    rw [hmach₀, Machine.getPhysAddr_eq hnew.pages.tables hnew.rootInv (hu.inSpace halt hroot'),
      show (spaceOf a v, pageOf v) = pageAt a v from rfl]
    have hpage : pageAt a v ≠ (none, pml4Page c) := by
      intro he
      exact hu.userPage.not_window (he ▸ window_mk hc)
    have hspace : (pageAt a v).1 ≠ some c := by
      unfold pageAt spaceOf
      split_ifs
      · exact (Option.some_ne_none c).symm
      · exact fun he => hne (Option.some.inj he)
    rw [hcr.leaf _ hpage, if_neg hspace, h0 y hy v hlo hhi]
  obtain ⟨t, ht, halive⟩ := copyFrom_unmapped hs₂ hne (List.nil_append _).symm
    (hs₂.family.chain (some a)) (hs₂.length_lt (some a))
    (by rw [← hu₀]; exact hnew.vmaRecycleList.trans hbin)
    (by rw [hva₀, hkeep.nodes]; exact hva)
    (fun y hy => by
      rw [hkeep.nodes] at hy
      rw [(hb y hy).1, (hb y hy).2]
      exact hi.range y)
    hread
  have hcopy : u₀.copyVma a c = some t := ht
  have halive₀ : u₀.alive = u.alive := by rw [← hu₀]; rfl
  refine ⟨{ t.changePtable (t.mm c).cr3 with active := some c }, ?_, rfl,
    halive.trans (halive₀.trans hnew.alive)⟩
  show Option.bind _ _ = _
  rw [ha, Option.bind_some, VmState.stepOf, if_pos ⟨hc, hdead⟩, VmState.syscallFork, hu]
  simp only [Option.bind_eq_bind, Option.bind_some]
  rw [hu₀, hcopy]
  rfl

/-- A process runs on behind a fork: its child has as many VMAs. -/
theorem fork_switch (hreach : VmReach (fun _ _ => True) s) (howned : s.Owned lists)
    (ha : s.active = some a) (hc : c < procSize) (hdead : s.alive c = false)
    (hstep : vmStep (.fork c) s = some t) (halive : t.alive = Function.update s.alive c true) :
    ∃ u lists', VmReach (fun _ _ => True) u ∧ u.Owned lists' ∧ u.active = some a ∧
      u.alive c = true ∧ (lists' (some c)).length = (lists (some a)).length := by
  obtain ⟨k, hi⟩ := hreach.vmInv
  obtain ⟨hlt, -⟩ := hi.active_root ha
  have hlive := (hi.active a ha).1
  have hne : a ≠ c := by
    rintro rfl
    rw [hlive] at hdead
    cases hdead
  have hreach₁ : VmReach (fun _ _ => True) t := .step _ hreach ⟨trivial, hstep⟩
  have hfork : s.syscallFork a c = some t := by
    obtain ⟨d, hd, hstep⟩ := Option.bind_eq_some_iff.mp (show Option.bind _ _ = some t from hstep)
    obtain rfl : a = d := Option.some.inj (ha.symm.trans hd)
    rw [VmState.stepOf] at hstep
    split_ifs at hstep
    exact hstep
  have hcopied := congrArg List.length (syscallFork_areas hne howned hfork).1
  rw [howned.vmaNodes, VmState.areas, VmState.areas, List.length_map, List.length_map] at hcopied
  obtain ⟨u, hu⟩ : ∃ u, { t.changePtable (t.mm a).cr3 with active := some a } = u := ⟨_, rfl⟩
  have hlive₁ : t.alive a = true := by
    rw [halive, Function.update_of_ne hne]
    exact hlive
  have hreach₂ : VmReach (fun _ _ => True) u := by
    refine .step (.switch a) hreach₁ ⟨trivial, ?_⟩
    rw [vmStep, if_pos ⟨hlt, hlive₁⟩, hu]
  obtain ⟨lists', howned'⟩ := hreach₂.owned
  have hnodes : u.vmaNodes c = t.vmaNodes c := by
    rw [← hu]
    rfl
  rw [← hnodes, howned'.vmaNodes] at hcopied
  refine ⟨u, lists', hreach₂, howned', by rw [← hu], ?_, hcopied⟩
  rw [← hu]
  show t.alive c = true
  rw [halive, Function.update_self]

/-- The first program, which has two segments and has touched no page, runs on behind a fork. -/
theorem firstFork : ∃ s lists x y, VmReach (fun _ _ => True) s ∧ s.Owned lists ∧
    s.active = some 0 ∧ s.alive 1 = true ∧ lists (some 1) = [x, y] := by
  obtain ⟨k, s, hreach, hs⟩ := firstSegment fun _ _ => 0
  obtain ⟨lists, howned⟩ := hreach.owned
  have hva := hs.kernVA
  obtain ⟨s₁, hstep₁, hmore, -⟩ := segment_total howned hs.active hs.recycled
    (by omega) 0x600000 0xFFF (.inl (by decide))
  have hva₁ := hmore.kernVA
  have hreach₁ : VmReach (fun _ _ => True) s₁ := .step _ hreach ⟨trivial, hstep₁⟩
  obtain ⟨lists₁, howned₁⟩ := hreach₁.owned
  have hareas := hmore.areas
  rw [hs.areas, howned₁.vmaNodes] at hareas
  have hlen : (lists₁ (some 0)).length = 2 := by
    have hlen := congrArg List.length hareas
    rwa [VmState.areas, List.length_map] at hlen
  have hlow : ∀ z ∈ lists₁ (some 0), (s₁.vma z).vend < 2 ^ 39 := by
    intro z hz
    have hmem : ((s₁.vma z).vstart, (s₁.vma z).vend) ∈ s₁.areas (lists₁ (some 0)) :=
      List.mem_map_of_mem hz
    rw [hareas] at hmem
    simp only [List.cons_append, List.nil_append, List.mem_cons, Prod.mk.injEq,
      List.not_mem_nil, or_false] at hmem
    rcases hmem with ⟨-, hend⟩ | ⟨-, hend⟩
    · rw [hend]
      decide
    · rw [hend]
      decide
  have hdead : s₁.alive 1 = false := by
    rw [hmore.alive]
    exact hs.alive 1 (by decide)
  obtain ⟨s₂, hstep₂, -, halive₂⟩ := (hs.inv.vmStep hstep₁).fork_unmapped (c := 1) howned₁
    hmore.active (by decide) hdead
    (by rw [hmore.machine]; exact Nat.le_trans (by decide) hs.room) hmore.recycled
    (by rw [hlen]; omega)
    (fun z hz v _ hhi => by
      have hlt := hlow z hz
      have hspace : spaceOf 0 v = some 0 := by
        unfold spaceOf
        rw [if_neg]
        rw [p1Index_eq]
        omega
      rw [pageAt, hspace, hmore.machine]
      exact hs.empty _)
  obtain ⟨u, lists', hreach', howned', ha', halive', hcount⟩ :=
    fork_switch hreach₁ howned₁ hmore.active (by decide) hdead hstep₂ halive₂
  obtain ⟨x, y, hxy⟩ := List.length_eq_two.mp (hcount.trans hlen)
  exact ⟨u, lists', x, y, hreach', howned', ha', halive', hxy⟩

/-- The kill of a child with two VMAs. -/
theorem syscallKillMem_tornDown_firstFork : ∃ s t, VmReach (fun _ _ => True) s ∧
    s.active = some 0 ∧ vmStep (.kill 1) s = some t ∧ (TornDown s t 1 ↔ NothingMapped s 1) := by
  obtain ⟨s, lists, x, y, hreach, -, ha, hal, -⟩ := firstFork
  obtain ⟨t, ht, hiff⟩ := syscallKillMem_tornDown hreach ha (by decide) hal
  exact ⟨s, t, hreach, ha, ht, hiff⟩

/-- The second VMA of a killed process stays on its list. -/
theorem kill_secondVma : ∃ s t, VmReach (fun _ _ => True) s ∧ s.active = some 0 ∧
    s.alive 1 = true ∧ vmStep (.kill 1) s = some t ∧ ¬ TornDown s t 1 := by
  obtain ⟨s, lists, x, y, hreach, howned, ha, hal, hl⟩ := firstFork
  obtain ⟨k, hi⟩ := hreach.vmInv
  obtain ⟨halt, hroot⟩ := hi.active_root ha
  obtain ⟨m, hm, -⟩ := unmapRange_spec hi.pages hi.rootInv halt hroot (hi.range x)
  obtain ⟨t, ht, -, hnodes, -⟩ := syscallKillMem_cons howned hl hm
  refine ⟨s, t, hreach, ha, hal, ?_, fun htorn => ?_⟩
  · rw [vmStep_kill ha (by decide) (by decide)]
    exact ht
  · rw [htorn.empty] at hnodes
    cases hnodes

end Sbunix
