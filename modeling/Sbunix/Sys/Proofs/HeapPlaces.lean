import Sbunix.Sys.Proofs.HeapRuns

/-!
# Blocks share no page with other VMAs

`k_mmap` allocates from the heap top, which lies behind all VMAs of the process in the lower half
as long as nothing is placed above it: `read_elf` sets it from the last segment, and
`syscall_exec` adds VMAs where the arguments lay in the old program.
-/

namespace Sbunix

open VmState

variable {s t u : VmState} {lists : Option Nat → List Nat} {T : Nat → Prop} {l : VmLabel}
  {a c d k p v x length start stop : Nat}

/-! ## Lists that shrink -/

/-- A list that is kept stays beside its heap. -/
theorem Frames.besideHeap (hf : Frames T s t) (hs : s.Owned lists) (hd : ¬ T d)
    (h : s.BesideHeap d) : t.BesideHeap d := by
  obtain ⟨lists', ht, hkeep⟩ := hf lists hs
  have hkeep := hkeep d hd
  refine ⟨?_, ?_⟩
  · rw [hkeep.heapTop]
    exact h.aligned
  · rw [ht.vmaNodes, hkeep.nodes, hkeep.areas, hkeep.heapTop, ← hs.vmaNodes]
    exact h.beside

/-- The list of a process after something has been removed from it. -/
theorem VmState.BesideHeap.remove {r : Nat} (h : s.BesideHeap c) (hs : s.Owned lists)
    (heq : s.removeFromVmaList c start stop = some (r, t)) : t.BesideHeap c := by
  have htop := removeFromVmaList_heapTop heq c
  refine ⟨?_, ?_⟩
  · rw [htop]
    exact h.aligned
  · have hbeside := h.beside
    rw [hs.vmaNodes] at hbeside
    rcases hs.remove c start stop with ⟨hnone, -⟩ | ⟨pre, x, post, hr⟩
    · rw [hnone] at heq
      rw [← (Prod.mk.inj (Option.some.inj heq)).2, hs.vmaNodes]
      exact hbeside
    · obtain ⟨u, howned, -, hbounds, hres⟩ := hr.result
      rw [heq] at hres
      obtain ⟨m, -, hm⟩ := Option.map_eq_some_iff.mp hres.symm
      obtain rfl := (Prod.mk.inj hm).2
      have hnodes : ({ u with machine := m } : VmState).vmaNodes c = pre ++ post := by
        have hlist := howned.vmaNodes c
        rw [recycled, Function.update_of_ne (Option.some_ne_none c), Function.update_self] at hlist
        exact hlist
      rw [hnodes, htop]
      intro r hr'
      apply hbeside
      have hareas : ({ u with machine := m } : VmState).areas (pre ++ post) =
          s.areas (pre ++ post) := SameBounds.areas (fun p => hbounds p) _
      rw [hareas] at hr'
      have hsub : pre ++ post ⊆ lists (some c) := by
        rw [hr.split]
        exact (List.Sublist.append_left (List.sublist_cons_self x post) pre).subset
      exact List.map_subset _ hsub hr'

theorem VmState.BesideHeap.removals (h : s.BesideHeap c) (hs : s.Owned lists)
    (hr : Removals c s t) : t.BesideHeap c := by
  induction hr generalizing lists with
  | refl => exact h
  | step hrem _ ih =>
    obtain ⟨lists', hs', -⟩ := Frames.remove hrem lists hs
    exact ih (h.remove hs hrem) hs'

theorem vmaNodes_nil (h : (s.mm c).vmaList = 0) : s.vmaNodes c = [] := by
  have hfuel : (2 ^ 64 : Nat) = 2 ^ 64 - 1 + 1 := rfl
  rw [VmState.vmaNodes, hfuel, nodesFrom, if_pos h]

theorem VmState.BesideHeap.congr (h : s.BesideHeap c) (hvma : t.vma = s.vma)
    (hlist : (t.mm c).vmaList = (s.mm c).vmaList) (htop : (t.mm c).heapTop = (s.mm c).heapTop) :
    t.BesideHeap c := by
  have hareas : t.areas (t.vmaNodes c) = s.areas (s.vmaNodes c) := by
    unfold VmState.areas VmState.vmaNodes
    rw [hvma, hlist]
  refine ⟨?_, ?_⟩
  · rw [htop]
    exact h.aligned
  · rw [hareas, htop]
    exact h.beside

/-- A slot without VMAs. -/
theorem VmState.BesideHeap.empty (hal : (s.mm c).heapTop % 4096 = 0) (h : (s.mm c).vmaList = 0) :
    s.BesideHeap c := by
  refine ⟨hal, fun r hr => ?_⟩
  rw [vmaNodes_nil h] at hr
  cases hr

/-! ## Lists that grow -/

/-- The list of a process after a node has been added. -/
theorem Added.besideHeap {lists' : Option Nat → List Nat} (hadd : Added s t lists lists' c p start stop)
    (hs : s.Owned lists) (ht : t.Owned lists') {u : VmState} (hu : u.vma = t.vma)
    (hmm : (u.mm c).vmaList = (t.mm c).vmaList) (hal : (u.mm c).heapTop % 4096 = 0)
    (hnew : stop < (u.mm c).heapTop ∨ 2 ^ 47 ≤ start)
    (hold : ∀ r ∈ s.areas (s.vmaNodes c), r.2 < (u.mm c).heapTop ∨ 2 ^ 47 ≤ r.1) :
    u.BesideHeap c := by
  have hnodes : u.vmaNodes c = lists (some c) ++ [p] := by
    rw [VmState.vmaNodes, hu, hmm]
    exact (ht.vmaNodes c).trans hadd.nodes
  have hareas : u.areas (lists (some c) ++ [p]) =
      s.areas (lists (some c)) ++ [(start, stop)] := by
    have hsame : u.areas (lists (some c) ++ [p]) = t.areas (lists (some c) ++ [p]) := by
      unfold VmState.areas
      rw [hu]
    rw [hsame, areas_append, hadd.kept, areas_singleton, hadd.area.1, hadd.area.2]
  refine ⟨hal, fun r hr => ?_⟩
  rw [hnodes, hareas, List.mem_append, List.mem_singleton] at hr
  rcases hr with hr | rfl
  · exact hold r (hs.vmaNodes c ▸ hr)
  · exact hnew

/-- `fork` gives the child what the VMAs of the parent cover, and its heap top. -/
theorem syscallFork_areas (hne : a ≠ c) (hs : s.Owned lists) (h : s.syscallFork a c = some t) :
    t.areas (t.vmaNodes c) = s.areas (s.vmaNodes a) ∧ (t.mm c).heapTop = (s.mm a).heapTop := by
  simp only [VmState.syscallFork, Option.bind_eq_bind, Option.bind_eq_some_iff,
    Option.some.injEq] at h
  obtain ⟨u, hu, u', hu', rfl⟩ := h
  obtain ⟨lists₁, hs₁, hkeep₁⟩ := Frames.createNewProcess hu lists hs
  have hka := hkeep₁ a hne
  obtain ⟨u₀, hu₀⟩ : ∃ u₀, u.setMm c (fun m =>
    { m with heapTop := (u.mm a).heapTop, vmaList := 0 }) = u₀ := ⟨_, rfl⟩
  rw [hu₀] at hu'
  have hvma : u₀.vma = u.vma := by rw [← hu₀]; rfl
  have hmc : u₀.mm c = { u.mm c with heapTop := (u.mm a).heapTop, vmaList := 0 } := by
    rw [← hu₀]
    exact Function.update_self _ _ _
  have hma : u₀.mm a = u.mm a := by
    rw [← hu₀]
    exact Function.update_of_ne hne _ _
  have hdrop : Frames (· = c) u u₀ := by
    rw [← hu₀]
    exact Frames.inherit
  obtain ⟨lists₂, hs₂, hkeep₂⟩ := hdrop lists₁ hs₁
  have hka₂ := hkeep₂ a hne
  have hnil : lists₂ (some c) = [] := by
    rw [← hs₂.head_eq_zero]
    show (u₀.mm c).vmaList = 0
    rw [hmc]
  obtain ⟨lists₃, hs₃, hareas, -, htop⟩ :=
    hs₂.copied hne (List.nil_append _).symm (hs₂.family.chain (some a)) hu'
  have hnodes : VmState.vmaNodes { u'.changePtable (u'.mm c).cr3 with active := some c } c =
      lists₃ (some c) := hs₃.vmaNodes c
  refine ⟨?_, ?_⟩
  · rw [hnodes, hs.vmaNodes]
    show u'.areas (lists₃ (some c)) = _
    rw [hareas, hnil, hka₂.nodes, hka₂.areas, hka.nodes, hka.areas]
    rfl
  · show (u'.mm c).heapTop = _
    rw [htop, hmc, ← hka.heapTop]

theorem createNewProcess_mm (h : s.createNewProcess c = some t) :
    (t.mm c).vmaList = 0 ∧ (t.mm c).heapTop = (s.mm c).heapTop := by
  simp only [VmState.createNewProcess, Option.bind_eq_bind, Option.bind_eq_some_iff,
    Prod.exists, Option.some.injEq] at h
  obtain ⟨cr3, m, -, p, u, hu, q, u', hu', rfl⟩ := h
  rw [VmState.kmalloc] at hu hu'
  split_ifs at hu hu'
  rw [← (Prod.mk.inj (Option.some.inj hu')).2, ← (Prod.mk.inj (Option.some.inj hu)).2]
  simp [VmState.setMm]

/-! ## Steps -/

section

variable (h : s.BesideHeap a)

include h

/-- The child's list and heap top are those of the parent. -/
theorem VmState.BesideHeap.fork (hs : s.Owned lists) (hne : a ≠ c)
    (hf : s.syscallFork a c = some t) : t.BesideHeap c := by
  obtain ⟨hareas, htop⟩ := syscallFork_areas hne hs hf
  refine ⟨?_, ?_⟩
  · rw [htop]
    exact h.aligned
  · rw [hareas, htop]
    exact h.beside

theorem VmState.BesideHeap.exec (he : s.syscallExec a = some t) : t.BesideHeap a := by
  simp only [VmState.syscallExec, Option.bind_eq_bind, Option.bind_eq_some_iff,
    Option.some.injEq] at he
  obtain ⟨u, hu, rfl⟩ := he
  obtain ⟨hnil, htop⟩ := createNewProcess_mm hu
  refine .empty ?_ hnil
  show (u.mm a).heapTop % 4096 = 0
  rw [htop]
  exact h.aligned

omit h in
/-- The last segment sets the heap top. -/
theorem VmState.Owned.segment_beside {vaddr memsz : Nat} (hs : s.Owned lists)
    (hold : ∀ r ∈ s.areas (s.vmaNodes a), r.2 < pageBehind (vaddr + memsz) ∨ 2 ^ 47 ≤ r.1)
    (hseg : s.segment a vaddr memsz = some t) : t.BesideHeap a := by
  rw [VmState.segment] at hseg
  split_ifs at hseg with hr
  simp only [Option.bind_eq_bind, Option.bind_eq_some_iff, Prod.exists, Option.some.injEq] at hseg
  obtain ⟨p, u, halloc, u', happend, rfl⟩ := hseg
  obtain ⟨lists', ht, hadd⟩ := hs.added halloc happend
  rw [hadd.area.2, pageBehind_eq hr]
  refine hadd.besideHeap hs ht rfl ?_ ?_ ?_ ?_
  all_goals simp only [VmState.setMm, Function.update_self]
  · exact Nat.mul_mod_left _ _
  · exact .inl lt_pageBehind
  · exact hold

theorem VmState.BesideHeap.argument {addr len : Nat} (hs : s.Owned lists)
    (hplace : addr + len < (s.mm a).heapTop ∨ 2 ^ 47 ≤ addr)
    (harg : s.argument a addr len = some t) : t.BesideHeap a := by
  rw [VmState.argument] at harg
  split_ifs at harg
  simp only [Option.bind_eq_bind, Option.bind_eq_some_iff, Prod.exists] at harg
  obtain ⟨p, u, halloc, u', happend, hinc⟩ := harg
  obtain ⟨m, -, rfl⟩ := Option.map_eq_some_iff.mp hinc
  obtain ⟨lists', ht, hadd⟩ := hs.added halloc happend
  refine hadd.besideHeap hs ht rfl rfl ?_ ?_ ?_
  all_goals simp only [hadd.heapTop]
  · exact h.aligned
  · exact hplace
  · exact h.beside

/-- A block ends below the heap top, which only rises. -/
theorem VmState.BesideHeap.mmap (hs : s.Owned lists) (hlen : 1 ≤ length)
    (hfits : (s.mm a).heapTop + length < 2 ^ 47) (hm : s.kMmap a length = some t) :
    t.BesideHeap a := by
  obtain ⟨lists', p, ht, hm⟩ := hs.kMmap hlen (by omega) hm
  have hbeside := h.beside
  rw [hs.vmaNodes] at hbeside
  refine ⟨?_, fun r hr => ?_⟩
  · rw [hm.heapTop]
    exact Nat.mul_mod_left _ _
  · rw [ht.vmaNodes, hm.nodes, areas_append, hm.kept, areas_singleton, List.mem_append,
      List.mem_singleton] at hr
    rw [hm.heapTop]
    rcases hr with hr | rfl
    · have hlt : (s.mm a).heapTop + length - 1 < pageBehind ((s.mm a).heapTop + length - 1) :=
        lt_pageBehind
      have hold := hbeside r hr
      omega
    · dsimp only
      rw [hm.area.2]
      exact .inl lt_pageBehind

theorem VmState.BesideHeap.munmap {addr : Nat} (hs : s.Owned lists)
    (hm : s.kMunmap a addr length = some t) : t.BesideHeap a := by
  simp only [VmState.kMunmap, Option.bind_eq_bind, Option.bind_eq_some_iff, Prod.exists] at hm
  obtain ⟨found, u, hu, hm⟩ := hm
  split_ifs at hm
  rw [← Option.some.inj hm]
  exact h.remove hs hu

theorem VmState.BesideHeap.dropCr3 : (s.setMm a fun m => { m with cr3 := 0 }).BesideHeap a := by
  refine h.congr rfl ?_ ?_ <;> simp [VmState.setMm]

theorem VmState.BesideHeap.exit (hs : s.Owned lists) (he : s.syscallExit a = some t) :
    t.BesideHeap a := by
  simp only [VmState.syscallExit, Option.bind_eq_bind, Option.bind_eq_some_iff,
    Option.some.injEq] at he
  obtain ⟨u, hu, rfl⟩ := he
  obtain ⟨lists₁, hs₁, -⟩ := Frames.setMm (c := a) (f := fun m => { m with cr3 := 0 })
    (fun _ => rfl) lists hs
  have hal := (h.dropCr3.removals hs₁ (.of_exitFrom hu)).aligned
  refine .empty ?_ ?_ <;> simp [VmState.setMm, hal]

theorem VmState.BesideHeap.kill (hs : s.Owned lists) (hk : s.syscallKillMem a = some t) :
    t.BesideHeap a := by
  obtain ⟨lists₁, hs₁, -⟩ := Frames.setMm (c := a) (f := fun m => { m with cr3 := 0 })
    (fun _ => rfl) lists hs
  have hal₁ : VmState.BesideHeap ({ s with alive := Function.update s.alive a false }.setMm a
      fun m => { m with cr3 := 0 }) a := h.dropCr3.congr rfl rfl rfl
  have hs₁' : ({ s with alive := Function.update s.alive a false }.setMm a
      fun m => { m with cr3 := 0 }).Owned lists₁ := ⟨hs₁.family, hs₁.heap, hs₁.bound⟩
  exact hal₁.removals hs₁' (.of_killFrom hk)

end

/-- A step that touches the list of `c`. -/
theorem stepOf_besideHeap (ha : s.active = some a) (hal : s.alive a = true) (hs : s.Owned lists)
    (hall : ∀ c, s.BesideHeap c) (hl : PlacesBeside l s) (h : s.stepOf a l = some t)
    (htouch : s.Touches c l) : t.BesideHeap c := by
  have hl := hl a ha
  have hown : s.active = some c → a = c := fun hc => Option.some.inj (ha.symm.trans hc)
  cases l with
  | switch d => cases htouch
  | kernelFault v => cases htouch
  | userFault v write => cases htouch
  | userStore v b => cases htouch
  | kernelStore v b => cases htouch
  | fork d =>
    obtain rfl : d = c := htouch
    rw [VmState.stepOf] at h
    split_ifs at h with hd
    have hne : a ≠ d := by
      rintro rfl
      rw [hal] at hd
      exact absurd hd.2 (by decide)
    exact (hall a).fork hs hne h
  | exec d =>
    obtain rfl : d = c := htouch
    rw [VmState.stepOf] at h
    split_ifs at h
    exact (hall d).exec h
  | segment vaddr memsz =>
    obtain rfl := hown htouch
    exact hs.segment_beside hl h
  | argument addr len =>
    obtain rfl := hown htouch
    exact (hall a).argument hs hl h
  | mmap length =>
    obtain rfl := hown htouch
    exact (hall a).mmap hs hl.1 hl.2 h
  | munmap addr length =>
    obtain rfl := hown htouch
    exact (hall a).munmap hs h
  | exit =>
    obtain rfl := hown htouch
    exact (hall a).exit hs h
  | kill d =>
    obtain rfl : d = c := htouch
    rw [VmState.stepOf] at h
    split_ifs at h
    exact (hall d).kill hs h

/-- While nothing is placed above the heap tops, no VMA of the lower half lies there. -/
theorem VmReach.besideHeap (h : VmReach PlacesBeside s) (c : Nat) : s.BesideHeap c := by
  induction h generalizing c with
  | init hs =>
    obtain ⟨s₀, hs₀, hs⟩ := hs
    have hmm := hs₀.mm
    have hempty : ∀ d, s₀.BesideHeap d := by
      intro d
      refine .empty ?_ ?_ <;> simp [hmm]
    by_cases hc : c = 0
    · simp only [VmState.initProc, VmState.syscallExec, Option.bind_eq_bind,
        Option.bind_eq_some_iff, Option.some.injEq] at hs
      obtain ⟨u, hu, rfl⟩ := hs
      obtain ⟨hnil, htop⟩ := createNewProcess_mm hu
      rw [hc]
      refine .empty ?_ hnil
      show (u.mm 0).heapTop % 4096 = 0
      rw [htop]
      exact (hempty 0).aligned
    · exact (Frames.syscallExec hs).besideHeap hs₀.noVma hc (hempty c)
  | @step s t l hr hst ih =>
    obtain ⟨hl, hst⟩ := hst
    obtain ⟨k, hi⟩ := VmReach.vmInv hr
    obtain ⟨lists, hs⟩ := VmReach.owned hr
    have hal : ∀ a, s.active = some a → s.alive a = true := fun a ha => (hi.active a ha).1
    by_cases htouch : s.Touches c l
    · rcases vmStep_cases hst with ⟨d, rfl⟩ | ⟨v, rfl⟩ | ⟨a, ha, hstep⟩
      · cases htouch
      · cases htouch
      · exact stepOf_besideHeap ha (hal a ha) hs ih hl hstep htouch
    · exact (Frames.vmStep hal hst).besideHeap hs htouch (ih c)

/-- In every run that places nothing between the heap tops and the upper half, no page of what
`k_mmap` allocates below `2 ^ 47` holds an address of a VMA that the process has. -/
theorem mmap_disjoint (h : VmReach PlacesBeside s) (hfits : (s.mm a).heapTop + length < 2 ^ 47)
    (heq : s.malloc a length = some (p, t)) :
    ∀ v, p ≤ v → v < p + length → ∀ r ∈ s.areas (s.vmaNodes a), ∀ w, r.1 ≤ w → w ≤ r.2 →
      w / 4096 ≠ v / 4096 := by
  obtain ⟨t', -, hp⟩ := Option.map_eq_some_iff.mp heq
  obtain ⟨rfl, -⟩ := Prod.mk.inj hp
  have hbeside := h.besideHeap a
  have hal := hbeside.aligned
  intro v hlo hhi r hr w hrlo hrhi
  have hcases := hbeside.beside r hr
  omega

/-! ### An argument above the heap top -/

/-- An exec into a free slot goes through while there is room. -/
theorem VmInv.exec_total (hi : VmInv k s) (ha : s.active = some a) (hc : c < procSize)
    (hdead : s.alive c = false) (hroom : 8 ≤ s.machine.fl.totalblockcount)
    (hva : s.kernVA + 200 < 2 ^ 64) : ∃ t, Sbunix.vmStep (.exec c) s = some t ∧ VmInv k t ∧
      t.active = some c ∧ (∀ q, leaf t.machine.mem k (some c, q) = 0) ∧
      (t.mm c).vmaList = 0 ∧ t.vmaRecycleList = s.vmaRecycleList ∧ t.kernVA = s.kernVA + 200 ∧
      s.machine.fl.totalblockcount ≤ t.machine.fl.totalblockcount + 8 := by
  obtain ⟨u, hu, g, hnew⟩ := (createNewProcess_spec hi.pages hi.rootInv hi.small hc
    (hi.root_ne ha hc hdead)).exists_some ⟨hroom, hva⟩
  obtain ⟨t, ht⟩ : ∃ t, { u.changePtable (u.mm c).cr3 with active := some c } = t := ⟨_, rfl⟩
  have hstep : Sbunix.vmStep (.exec c) s = some t := by
    show Option.bind _ _ = _
    rw [ha, Option.bind_some, VmState.stepOf, if_pos ⟨hc, hdead⟩, VmState.syscallExec, hu, ← ht]
    rfl
  obtain ⟨P, hcr, hlen⟩ := hnew.created
  have hused := hi.pages.free.toThreaded.total_eq hnew.pages.free.toThreaded hcr.blocks
  refine ⟨t, hstep, hi.vmStep hstep, ?_, ?_, ?_, ?_, ?_, ?_⟩
  all_goals rw [← ht]
  · exact fun q => hnew.leaf_child q
  · exact hnew.vmaList
  · exact hnew.vmaRecycleList
  · exact hnew.kernVA
  · show s.machine.fl.totalblockcount ≤ u.machine.fl.totalblockcount + 8
    omega

section

variable (hs : s.Owned lists) (ha : s.active = some a) (hbin : s.vmaRecycleList = 0)
  (hva : s.kernVA + 24 < 2 ^ 64)

include hs ha hbin hva

theorem segment_total (vaddr memsz : Nat) (hr : UserRange vaddr (vaddr + memsz)) :
    ∃ t, vmStep (.segment vaddr memsz) s = some t ∧ OneMore s t a vaddr (vaddr + memsz) ∧
      (t.mm a).heapTop = pageBehind (vaddr + memsz) := by
  obtain ⟨p, u, t, lists', halloc, happend, ht, hadd, hspace, hbin', hva'⟩ :=
    hs.add_total hbin hva a hr
  have ht' : (t.setMm a fun m => { m with heapTop := pageBehind (vaddr + memsz) }).Owned lists' :=
    ht.setMm fun _ => rfl
  refine ⟨_, ?_, ⟨⟨lists', ht'⟩, ?_, hspace.machine, hspace.active.trans ha,
    hspace.alive, hbin', hva'⟩, ?_⟩
  · show Option.bind _ _ = _
    rw [ha, Option.bind_some, VmState.stepOf, VmState.segment, if_pos hr, Option.bind_eq_bind,
      halloc, Option.bind_some]
    simp only [Option.bind_eq_bind]
    rw [happend, Option.bind_some, hadd.area.2, pageBehind_eq hr]
  · rw [ht'.vmaNodes, hs.vmaNodes, hadd.nodes]
    show t.areas (lists (some a) ++ [p]) = _
    rw [areas_append, hadd.kept, areas_singleton, hadd.area.1, hadd.area.2]
  · simp [VmState.setMm]

/-- An empty argument string, on a page that is mapped or not. -/
theorem argument_total (hi : VmInv k s) (hr : UserRange v v) :
    ∃ t m, vmStep (.argument v 0) s = some { t with machine := m } ∧ OneMore s t a v v ∧
      (t.mm a).heapTop = (s.mm a).heapTop := by
  have hu := hr.userAddr (Nat.le_refl v) (Nat.le_refl v)
  by_cases h0 : leaf s.machine.mem k (pageAt a v) = 0
  · obtain ⟨halt, hroot⟩ := hi.active_root ha
    have hinc : VmState.incrementFrom 1 v 0 s.machine = some s.machine := by
      rw [VmState.incrementFrom,
        Machine.getPhysAddr_eq hi.pages.tables hi.rootInv (hu.inSpace halt hroot),
        show (spaceOf a v, pageOf v) = pageAt a v from rfl, h0]
      rfl
    obtain ⟨t, hmore, htop, hstep⟩ := argument_step hs ha hbin hva hr hinc
    exact ⟨t, _, hstep, hmore, htop⟩
  · obtain ⟨b, hb, -, hfr⟩ := hi.pages.leaves.owned _ hu.userPage.managed h0
    obtain ⟨t, hmore, htop, hstep⟩ := argument_counted hs ha hbin hva hi hr hb hfr
    exact ⟨t, _, hstep, hmore, htop⟩

end

/-- A program of one segment that `exec` loads with one argument, an empty string, and its first
block. -/
theorem exec_argument (hr : VmReach (fun _ _ => True) s) (hi : VmInv k s) (ha : s.active = some a)
    (hdead : s.alive 1 = false) (hbin : s.vmaRecycleList = 0)
    (hroom : 8 ≤ s.machine.fl.totalblockcount) (hva : s.kernVA + 400 < 2 ^ 64)
    (hv : UserRange v v) :
    ∃ s₁ s₂ s₃ t, vmStep (.exec 1) s = some s₁ ∧ s₁.active = some 1 ∧
      s₁.areas (s₁.vmaNodes 1) = [] ∧ vmStep (.segment 0x400000 0xFFF) s₁ = some s₂ ∧
      s₂.active = some 1 ∧ vmStep (.argument v 0) s₂ = some s₃ ∧ s₃.active = some 1 ∧
      s₃.areas (s₃.vmaNodes 1) = [(0x400000, 0x400FFF), (v, v)] ∧
      (s₃.mm 1).heapTop = 0x401000 ∧ s₃.malloc 1 1 = some (0x401000, t) := by
  obtain ⟨s₁, hstep₁, hi₁, ha₁, hempty₁, hlist₁, hbin₁, hva₁, -⟩ :=
    hi.exec_total ha (c := 1) (by decide) hdead hroom (by omega)
  rw [hbin] at hbin₁
  have hreach₁ : VmReach (fun _ _ => True) s₁ := .step (.exec 1) hr ⟨trivial, hstep₁⟩
  obtain ⟨lists₁, howned₁⟩ := hreach₁.owned
  obtain ⟨s₂, hstep₂, hmore₂, htop₂⟩ := segment_total howned₁ ha₁ hbin₁
    (by omega) 0x400000 0xFFF (.inl (by decide))
  obtain ⟨lists₂, howned₂⟩ := hmore₂.owned
  have hva₂ := hmore₂.kernVA
  obtain ⟨s₃, m, hstep₃, hmore₃, htop₃⟩ := argument_total howned₂ hmore₂.active hmore₂.recycled
    (by omega) (hi₁.vmStep hstep₂) hv
  obtain ⟨lists₃, howned₃⟩ := hmore₃.owned
  have howned : VmState.Owned { s₃ with machine := m } lists₃ :=
    ⟨howned₃.family, howned₃.heap, howned₃.bound⟩
  have htop : (s₃.mm 1).heapTop = 0x401000 := htop₃.trans htop₂
  have hva₃ := hmore₃.kernVA
  obtain ⟨t, ht, -⟩ := howned.kMmap_total 1 1 hmore₃.recycled (by show s₃.kernVA + 24 < 2 ^ 64; omega)
    (by decide) (by show (s₃.mm 1).heapTop + 1 ≤ _; rw [htop]; decide)
    (by show UserRange (s₃.mm 1).heapTop _; rw [htop]; exact .inl (by decide))
  have hnone : s₁.areas (s₁.vmaNodes 1) = [] := by
    rw [vmaNodes_nil hlist₁]
    rfl
  refine ⟨s₁, s₂, { s₃ with machine := m }, t, hstep₁, ha₁, hnone, hstep₂, hmore₂.active, hstep₃,
    hmore₃.active, ?_, htop, ?_⟩
  · show s₃.areas (s₃.vmaNodes 1) = _
    rw [hmore₃.areas, hmore₂.areas, hnone]
    rfl
  · rw [VmState.malloc, ht]
    show some ((s₃.mm 1).heapTop, t) = _
    rw [htop]

/-- The string lies where the heap of the program that called `exec` began: the first block goes
there too. -/
theorem mmap_argument : ∃ s a p t, VmReach (fun _ _ => True) s ∧ s.active = some a ∧
    s.malloc a 1 = some (p, t) ∧ ∃ r ∈ s.areas (s.vmaNodes a), r.1 ≤ p ∧ p ≤ r.2 := by
  obtain ⟨k, s, hreach, hs⟩ := firstSegment fun _ _ => 0
  have hva := hs.kernVA
  obtain ⟨s₁, s₂, s₃, t, hstep₁, -, -, hstep₂, -, hstep₃, hactive, hareas, -, hmalloc⟩ :=
    exec_argument (v := 0x401000) hreach hs.inv hs.active (hs.alive 1 (by decide)) hs.recycled
      (Nat.le_trans (by decide) hs.room) (by omega) (.inl (by decide))
  have hreach₂ : VmReach (fun _ _ => True) s₂ :=
    .step (.segment 0x400000 0xFFF) (.step (.exec 1) hreach ⟨trivial, hstep₁⟩) ⟨trivial, hstep₂⟩
  refine ⟨s₃, 1, 0x401000, t, .step (.argument 0x401000 0) hreach₂ ⟨trivial, hstep₃⟩, hactive,
    hmalloc, (0x401000, 0x401000), ?_, Nat.le_refl _, Nat.le_refl _⟩
  rw [hareas]
  exact List.mem_cons_of_mem _ List.mem_cons_self

/-- The string lies on the stack of the process that called `exec`: the first block shares no page
with it. -/
theorem mmap_disjoint_stack : ∃ s t, VmReach PlacesBeside s ∧
    s.areas (s.vmaNodes 1) = [(0x400000, 0x400FFF), (ustacktop - 16, ustacktop - 16)] ∧
    s.malloc 1 1 = some (0x401000, t) ∧
    ∀ v, 0x401000 ≤ v → v < 0x401000 + 1 → ∀ r ∈ s.areas (s.vmaNodes 1), ∀ w, r.1 ≤ w → w ≤ r.2 →
      w / 4096 ≠ v / 4096 := by
  obtain ⟨k, s, hreach, hs⟩ := smallBoot_firstProcess fun _ _ => 0
  have hva := hs.kernVA
  have hroom : 8 ≤ s.machine.fl.totalblockcount := by
    have := hs.room
    simp only [smallBoot] at this
    omega
  obtain ⟨s₁, s₂, s₃, t, hstep₁, ha₁, hnone, hstep₂, ha₂, hstep₃, -, hareas, htop, hmalloc⟩ :=
    exec_argument (v := ustacktop - 16) (hreach _) hs.inv hs.active (by rw [hs.alive]; rfl)
      hs.vmaRecycleList hroom (by omega) (.inr (.inr (by decide)))
  have hsegment : PlacesBeside (.segment 0x400000 0xFFF) s₁ := by
    intro a ha r hr
    obtain rfl : 1 = a := Option.some.inj (ha₁.symm.trans ha)
    rw [hnone] at hr
    cases hr
  have hargument : PlacesBeside (.argument (ustacktop - 16) 0) s₂ := fun _ _ => .inr (by decide)
  have hreach₃ : VmReach PlacesBeside s₃ :=
    .step (.argument (ustacktop - 16) 0) (.step (.segment 0x400000 0xFFF)
      (.step (.exec 1) (hreach _) ⟨fun _ _ => trivial, hstep₁⟩) ⟨hsegment, hstep₂⟩)
      ⟨hargument, hstep₃⟩
  exact ⟨s₃, t, hreach₃, hareas, hmalloc, mmap_disjoint hreach₃ (by rw [htop]; decide) hmalloc⟩

end Sbunix
