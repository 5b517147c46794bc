import Sbunix.Sys.Proofs.UnmapExact
import Sbunix.Sys.Proofs.FreshPages
import Sbunix.Sys.Tlb

/-!
# Coherence of the TLB

The operations with a TLB change the machine as those without do, and keep the TLB
coherent while `unmap_phyaddr`, at a frame with more than one reference, meets only pages
that were not used: `tlb_coherent`.
-/

namespace Sbunix

variable {k : Nat} {m m' : Machine} {c c' : Cpu} {s t : TlbState} {a b d u v : Nat}

/-! ## The machine behind the TLB -/

@[simp] theorem Cpu.access_machine : (c.access v).machine = c.machine := by
  unfold Cpu.access
  cases walk c.machine.mem c.machine.cr3 v with
  | none => rfl
  | some w => rfl

theorem mem_access {p : Nat × Translation} (h : p ∈ (c.access v).tlb) :
    p ∈ c.tlb ∨ ∃ w, walk c.machine.mem c.machine.cr3 v = some w ∧ p = (pageOf v, w.translation) := by
  unfold Cpu.access at h
  cases hw : walk c.machine.mem c.machine.cr3 v with
  | none =>
      rw [hw] at h
      exact .inl h
  | some w =>
      rw [hw] at h
      rcases List.mem_cons.mp h with rfl | h
      · exact .inr ⟨w, rfl, rfl⟩
      · exact .inl h

theorem Cpu.mapPhyaddr_machine (h : c.mapPhyaddr v = some c') :
    (∃ pa, c.machine.mapPhyaddr v = some (pa, c'.machine)) ∧ c'.tlb = [] := by
  unfold Cpu.mapPhyaddr at h
  obtain ⟨⟨pa, m⟩, hm, h⟩ := Option.bind_eq_some_iff.mp h
  obtain rfl := Option.some.inj h
  exact ⟨⟨pa, hm⟩, rfl⟩

theorem Cpu.unmapLeaf_map : (c.unmapLeaf v).map Cpu.machine = c.machine.unmapLeaf v := by
  unfold Cpu.unmapLeaf Machine.unmapLeaf
  simp only [Option.bind_eq_bind, Option.map_bind]
  congr 1
  funext padd
  simp only [Function.comp_apply]
  split_ifs
  · rfl
  · simp only [Option.map_bind]
    congr 1
    funext count
    simp only [Function.comp_apply]
    split_ifs
    · simp [Cpu.freePage, Cpu.flushTLB, Option.bind_assoc, Option.map_bind]
    · simp [Option.map_bind]

/-- The TLB decides nothing about the machine. -/
theorem Cpu.unmapPhyaddr_map : (c.unmapPhyaddr v).map Cpu.machine = c.machine.unmapPhyaddr v := by
  unfold Cpu.unmapPhyaddr Machine.unmapPhyaddr
  simp only [Option.bind_eq_bind, Option.map_bind]
  congr 1
  funext p2e
  simp only [Function.comp_apply]
  split_ifs
  · rfl
  simp only [Option.map_bind]
  congr 1
  funext p3e
  simp only [Function.comp_apply]
  split_ifs
  · rfl
  simp only [Option.map_bind]
  congr 1
  funext p4e
  simp only [Function.comp_apply]
  split_ifs
  · rfl
  · exact Cpu.unmapLeaf_map

/-- `unmap_phyaddr` empties the TLB if the reference count is 1, and keeps it otherwise. -/
theorem Cpu.unmapLeaf_tlb {e : Nat} (he : c.machine.load64 (Machine.leafAddr v) = some e)
    (h : c.unmapLeaf v = some c') : c' = c ∨ e ≠ 0 ∧
      (c'.tlb = [] ∧ c.machine.fl.getReferenceCount e = some 1 ∨
        c'.tlb = c.tlb ∧ c.machine.fl.getReferenceCount e ≠ some 1) := by
  unfold Cpu.unmapLeaf at h
  rw [he, Option.bind_eq_bind, Option.bind_some] at h
  split_ifs at h with h0
  · exact .inl (Option.some.inj h).symm
  refine .inr ⟨?_, ?_⟩
  · rintro rfl
    exact h0 rfl
  obtain ⟨count, hcount, h⟩ := Option.bind_eq_some_iff.mp h
  rw [hcount]
  by_cases h1 : count = 1
  · rw [if_pos h1] at h
    simp only [Cpu.freePage, Option.bind_eq_bind, Option.bind_assoc, Option.bind_some] at h
    obtain ⟨m, -, h⟩ := Option.bind_eq_some_iff.mp h
    obtain ⟨fl, -, h⟩ := Option.bind_eq_some_iff.mp h
    obtain ⟨fl', -, h⟩ := Option.bind_eq_some_iff.mp h
    obtain ⟨m', -, h⟩ := Option.bind_eq_some_iff.mp h
    rw [← Option.some.inj h]
    exact .inl ⟨rfl, congrArg some h1⟩
  · rw [if_neg h1] at h
    simp only [Option.pure_def, Option.bind_eq_bind, Option.bind_some] at h
    obtain ⟨fl, -, h⟩ := Option.bind_eq_some_iff.mp h
    obtain ⟨m', -, h⟩ := Option.bind_eq_some_iff.mp h
    rw [← Option.some.inj h]
    exact .inr ⟨rfl, fun he => h1 (Option.some.inj he)⟩

theorem Cpu.unmapPhyaddr_tlb (h : c.unmapPhyaddr v = some c') : c' = c ∨
    ∃ e, c.machine.getPhysAddr v = some e ∧ e ≠ 0 ∧
      (c'.tlb = [] ∧ c.machine.fl.getReferenceCount e = some 1 ∨
        c'.tlb = c.tlb ∧ c.machine.fl.getReferenceCount e ≠ some 1) := by
  unfold Cpu.unmapPhyaddr at h
  unfold Machine.getPhysAddr
  simp only [p2Table_p1Table, p3Table_p2Table, Option.bind_eq_bind] at h ⊢
  obtain ⟨p2e, h2, h⟩ := Option.bind_eq_some_iff.mp h
  rw [h2, Option.bind_some]
  split_ifs at h ⊢ with h20
  · exact .inl (Option.some.inj h).symm
  obtain ⟨p3e, h3, h⟩ := Option.bind_eq_some_iff.mp h
  rw [h3, Option.bind_some]
  split_ifs at h ⊢ with h30
  · exact .inl (Option.some.inj h).symm
  obtain ⟨p4e, h4, h⟩ := Option.bind_eq_some_iff.mp h
  rw [h4, Option.bind_some]
  split_ifs at h ⊢ with h40
  · exact .inl (Option.some.inj h).symm
  obtain ⟨e, he⟩ : ∃ e, c.machine.load64 (Machine.leafAddr v) = some e := by
    unfold Cpu.unmapLeaf at h
    obtain ⟨e, he, -⟩ := Option.bind_eq_some_iff.mp h
    exact ⟨e, he⟩
  rcases Cpu.unmapLeaf_tlb he h with hc | hc
  · exact .inl hc
  · exact .inr ⟨e, by simpa [h20, h30, h40] using he, hc⟩

/-- The TLB after the flush of `cow` and the first byte of the copy. -/
def Cpu.copying (m : Machine) (v : Nat) : Cpu := (Cpu.mk m []).access (v &&& 0xFFFFFFFFFFFFF000)

theorem Cpu.cow_eq : c.cow v =
    (c.machine.loadPage (v &&& 0xFFFFFFFFFFFFF000)).bind fun cowPage =>
      (c.machine.cowEntry v).bind fun m =>
        (m.storePage (v &&& 0xFFFFFFFFFFFFF000) cowPage).bind fun m' =>
          some { Cpu.copying m v with machine := m' } := by
  simp only [Cpu.cow, Machine.cowEntry, Cpu.access_machine, Option.bind_eq_bind, Option.bind_assoc,
    Cpu.copying, Cpu.flushTLB]
  refine congrArg _ (funext fun cowPage => congrArg _ (funext fun oldPage => ?_))
  split_ifs <;> simp [Option.bind_assoc]

/-- After the flush, `cow` has used the translation of the page through the new entry. -/
theorem Cpu.cow_machine (h : c.cow v = some c') : c.machine.cow v = some c'.machine ∧
    (c.machine.loadPage (v &&& 0xFFFFFFFFFFFFF000)).isSome ∧
    ∃ m, c.machine.cowEntry v = some m ∧
      ∀ p ∈ c'.tlb, ∃ w, walk m.mem m.cr3 (v &&& 0xFFFFFFFFFFFFF000) = some w ∧
        p = (pageOf (v &&& 0xFFFFFFFFFFFFF000), w.translation) := by
  rw [Cpu.cow_eq] at h
  obtain ⟨cowPage, hpage, h⟩ := Option.bind_eq_some_iff.mp h
  obtain ⟨m, hentry, h⟩ := Option.bind_eq_some_iff.mp h
  obtain ⟨m', hstore, h⟩ := Option.bind_eq_some_iff.mp h
  obtain rfl := Option.some.inj h
  refine ⟨?_, Option.isSome_of_eq_some hpage, m, hentry, fun p hp => ?_⟩
  · rw [Machine.cow_eq, hpage, Option.bind_some, hentry, Option.bind_some]
    exact hstore
  · dsimp only at hp
    unfold Cpu.copying at hp
    rcases mem_access hp with hp | hp
    · exact absurd hp List.not_mem_nil
    · exact hp

@[simp] theorem TlbState.cpu_withCpu : (s.withCpu c).cpu = c := rfl

@[simp] theorem TlbState.withCpu_machine : (s.withCpu c).vm.machine = c.machine := rfl

@[simp] theorem TlbState.withCpu_tlb : (s.withCpu c).tlb = c.tlb := rfl

@[simp] theorem TlbState.withCpu_withCpu : (s.withCpu c).withCpu c' = s.withCpu c' := rfl

theorem tlbStep_unmap (hv : v % 4096 = 0) (hu : UserAddr v) (h : s.cpu.unmapPhyaddr v = some c) :
    tlbStep (.unmap v) s = some (s.withCpu c) := by
  rw [tlbStep, if_pos ⟨hv, hu⟩, h]
  rfl

/-! ## Coherence -/

/-- The addresses of a page have one walk. -/
theorem walk_page {mem : Nat → Nat → Nat} {r : Nat} (h : pageOf u = pageOf v) :
    walk mem r u = walk mem r v := by
  obtain ⟨h1, h2, h3, h4⟩ := pIndex_pageOf (v := u)
  obtain ⟨g1, g2, g3, g4⟩ := pIndex_pageOf (v := v)
  unfold walk
  rw [h1, h2, h3, h4, g1, g2, g3, g4, h]

/-- A translation grants what the leaf entry does at most. -/
theorem Walk.translation_le (w : Walk) : w.translation.frame = w.e4 / 4096 ∧
    (w.translation.write = true → w.e4 / 2 % 2 = 1) ∧
    (w.translation.user = true → w.e4 / 4 % 2 = 1) := by
  refine ⟨rfl, fun h => ?_, fun h => ?_⟩
  · simp only [translation, List.all_cons, List.all_nil, Bool.and_true, Bool.and_eq_true,
      beq_iff_eq] at h
    exact h.2.2.2
  · simp only [translation, List.all_cons, List.all_nil, Bool.and_true, Bool.and_eq_true,
      beq_iff_eq] at h
    exact h.2.2.2

theorem TlbState.coherent_of_flushed (h : s.tlb = []) : s.Coherent := by
  intro v t _ ht
  rw [h] at ht
  exact absurd ht List.not_mem_nil

/-- What is found now is coherent. -/
theorem TlbState.Coherent.access (h : s.Coherent) : (s.withCpu (s.cpu.access v)).Coherent := by
  intro u t hu ht
  rw [withCpu_tlb] at ht
  rw [withCpu_machine, Cpu.access_machine]
  rcases mem_access ht with ht | ⟨w, hw, ht⟩
  · exact h u t hu ht
  · obtain ⟨hp, rfl⟩ := Prod.mk.inj ht
    exact ⟨w, (walk_page hp).trans hw, w.translation_le⟩

/-! ## The page invariant -/

/-- `map_phyaddr` at a user page that is mapped clears its start. -/
theorem mapMapped_keeps {pa : Nat} (hinv : PageInv k m noRes) (hr : RootInv k m)
    (hd : d < procSize) (hroot : root m.mem k (some d) = some (m.cr3 / 4096)) (hu : UserAddr v)
    (hv : v % 4096 = 0) (h0 : leaf m.mem k (pageAt d v) ≠ 0)
    (h : m.mapPhyaddr v = some (pa, m')) : Keeps k m m' := by
  have hs := hu.inSpace hd hroot
  have hp : UserPage (pageAt d v) := hu.userPage
  obtain ⟨b, hlt, hb0, hb⟩ := hinv.leaves.owned _ hp.managed h0
  have hcur : IsTable m.mem k (m.cr3 / 4096) := ⟨some d, [], ⟨hd, by simp⟩, hroot⟩
  have hnt := Machine.mapped_not_table hinv hp h0 hb
  have hnr := Machine.mapped_not_root hinv hcur hp h0 hb
  unfold Machine.mapPhyaddr at h
  obtain ⟨m₁, hm₁, hleaf₁⟩ := Option.bind_eq_some_iff.mp h
  obtain ⟨P, hg, hinv₁, hr₁, -, f4, h4⟩ := (ensureTables_spec hinv hr hs).sound _ hm₁
  have hodd : leaf m₁.mem k (spaceOf d v, pageOf v) % 2 = 1 := by
    rw [hg.leaf]
    exact hinv.leaves.odd h0
  have h0₁ : leaf m₁.mem k (pageAt d v) ≠ 0 := by rwa [hg.leaf]
  have hb₁ : leaf m₁.mem k (pageAt d v) / 4096 = m₁.fl.frame b := by
    rw [hg.leaf, hg.frame_eq, hb]
  have hnt₁ := Machine.mapped_not_table hinv₁ hp h0₁ hb₁
  have hnr₁ : m₁.fl.frame b ≠ m₁.cr3 / 4096 := by rwa [hg.frame_eq, hg.cr3]
  rw [Machine.mapLeaf_present hinv₁.tables hr₁ (hg.inSpace hs) hv h4 hodd hb₁
    (fun l hl hf => hnt₁ ⟨_, l, hl, hf⟩) hnr₁] at hleaf₁
  obtain ⟨-, rfl⟩ := Prod.mk.inj (Option.some.inj hleaf₁)
  have hagree : ∀ f, IsTable m₁.mem k f → Function.update m₁.mem (m₁.fl.frame b)
      (clearTo (m₁.mem (m₁.fl.frame b)) 519) f = m₁.mem f := by
    intro f hf
    refine Function.update_of_ne ?_ _ _
    rintro rfl
    exact hnt₁ hf
  obtain ⟨htab, hleaf⟩ := tables_of_agree hagree
  refine ⟨⟨hinv₁.free, hinv₁.tables.agree hagree, ?_⟩, ?_, hg.cr3, fun c hc => ?_⟩
  · rw [hleaf]
    exact hinv₁.leaves.retable fun f hf => .inl ((isTable_congr htab).mp hf)
  · exact hr₁.congr rfl (fun j _ => word_congr (Function.update_of_ne hnr₁.symm _ _)) (htab none)
      hr₁.notFree
  · refine roots_of_leaf (fun e he => ?_) hc
    rw [hleaf, hg.leaf]

theorem mapUser_keeps {pa : Nat} (hinv : PageInv k m noRes) (hr : RootInv k m)
    (hd : d < procSize) (hroot : root m.mem k (some d) = some (m.cr3 / 4096)) (hu : UserAddr v)
    (hv : v % 4096 = 0) (h : m.mapPhyaddr v = some (pa, m')) : Keeps k m m' := by
  by_cases h0 : leaf m.mem k (pageAt d v) = 0
  · exact (mapKeeps hinv hr (hu.inSpace hd hroot) hu.userPage.not_window hv h0 h).1
  · exact mapMapped_keeps hinv hr hd hroot hu hv h0 h

/-- What an operation keeps of the memory side. -/
theorem VmInv.withCpu (hi : VmInv k s.vm) (hk : Keeps k s.vm.machine c.machine) :
    VmInv k (s.withCpu c).vm :=
  hi.machine hk

/-- `unmap_phyaddr` with a TLB. -/
theorem unmap_coherent (hi : VmInv k s.vm) (hs : s.Coherent) (hu : UserAddr v) (hv : v % 4096 = 0)
    (hsafe : UnmapsUnused (.unmap v) s) (h : s.cpu.unmapPhyaddr v = some c) :
    VmInv k (s.withCpu c).vm ∧ (s.withCpu c).Coherent := by
  have hm : s.vm.machine.unmapPhyaddr v = some c.machine := by
    have hmap := Cpu.unmapPhyaddr_map (c := s.cpu) (v := v)
    rw [h] at hmap
    exact hmap.symm
  obtain ⟨d, hd, hroot⟩ := hi.current
  obtain ⟨m', hm', hk, hcase⟩ := unmapUser_spec hi.pages hi.rootInv hd hroot hu hv
  obtain rfl : m' = c.machine := Option.some.inj (hm'.symm.trans hm)
  refine ⟨hi.withCpu hk, ?_⟩
  rcases Cpu.unmapPhyaddr_tlb h with rfl | ⟨e, he, hne, ⟨htlb, -⟩ | ⟨htlb, hcount⟩⟩
  · exact hs
  · exact TlbState.coherent_of_flushed htlb
  · -- the entry goes, and the page was not used
    have hunused := hsafe e he hne hcount
    intro u t hua ht
    change (pageOf u, t) ∈ c.tlb at ht
    rw [htlb] at ht
    have hpage : pageOf u ≠ pageOf v := fun hp => hunused t (hp ▸ ht)
    have hroot' : root c.machine.mem k (some d) = some (c.machine.cr3 / 4096) := by
      rw [hk.roots d hd, hk.cr3, hroot]
    have hleaf : leaf c.machine.mem k (pageAt d u) = leaf s.vm.machine.mem k (pageAt d u) := by
      rcases hcase with ⟨-, he⟩ | ⟨b, -, -, -, -, hun⟩
      · rw [he]
      · rw [hun.leaf, Function.update_of_ne fun he => hpage (congrArg Prod.snd he)]
    obtain ⟨w, hw, hwt⟩ := hs u t hua ht
    have hold := hi.pages.walk_space hi.rootInv (hua.inSpace hd hroot)
    have hnew := hk.pages.walk_space hk.rootInv (hua.inSpace hd hroot')
    rw [show (spaceOf d u, pageOf u) = pageAt d u from rfl] at hold hnew
    rw [hleaf, ← hold, hw] at hnew
    obtain ⟨w', hw', he⟩ := Option.map_eq_some_iff.mp hnew
    refine ⟨w', hw', ?_⟩
    rw [he]
    exact hwt

/-- A page that can be read is mapped. -/
theorem walk_of_loadPage (h : (m.loadPage v).isSome) : ∃ w, walk m.mem m.cr3 v = some w := by
  cases hw : walk m.mem m.cr3 v with
  | some w => exact ⟨w, rfl⟩
  | none =>
      have h8 : m.load8 (v + 0) = none := by
        rw [Machine.load8, Machine.frameOf, Nat.add_zero, hw]
        rfl
      rw [Machine.loadPage, List.range_succ_eq_map, List.mapM_cons, h8] at h
      exact absurd h (by simp)

/-- `cow` with a TLB. -/
theorem cow_coherent (hi : VmInv k s.vm) (hu : UserAddr v) (h : s.cpu.cow v = some c) :
    VmInv k (s.withCpu c).vm ∧ (s.withCpu c).Coherent := by
  obtain ⟨hm, hload, m, hentry, htlb⟩ := Cpu.cow_machine h
  obtain ⟨d, hd, hroot⟩ := hi.current
  have hs := hu.inSpace hd hroot
  have hp : UserPage (pageAt d v) := hu.userPage
  have hmask : v &&& 0xFFFFFFFFFFFFF000 = v / 4096 * 4096 := and_pageMask hu.1
  rw [hmask] at hload htlb
  have h0 : leaf s.vm.machine.mem k (pageAt d v) ≠ 0 := by
    intro h0
    obtain ⟨w, hw⟩ := walk_of_loadPage hload
    rw [walk_page pageOf_pageAddr] at hw
    have hnone := walk_none hi.pages.tables hi.rootInv hs h0
    exact absurd (hw.symm.trans hnone) (by simp)
  obtain ⟨b, hlt, -, hb⟩ := hi.pages.leaves.owned _ hp.managed h0
  obtain ⟨n, hmv⟩ := (Machine.cowEntry_spec hi.pages hi.rootInv hs hp h0 hlt hb).sound _ hentry
  obtain ⟨n', hcp, hpages, hr⟩ :=
    (Machine.cow_spec hi.pages hi.rootInv hs hp hu.1 h0 hlt hb).sound _ hm
  obtain rfl : n = n' := (List.cons.inj (hmv.blocks.symm.trans hcp.blocks)).1
  have hk : Keeps k s.vm.machine c.machine :=
    ⟨hpages, hr, hcp.cr3, fun e he => roots_of_update hp hcp.leaf he⟩
  refine ⟨hi.withCpu hk, ?_⟩
  -- the copy goes through the translation that the new entry has given
  have hwalk : (walk m.mem m.cr3 v).map Walk.e4 = some (s.vm.machine.fl.frame n * 4096 + 7) := by
    rw [hmv.pages.walk_space hmv.root (hs.congr hmv.cr3 hmv.tables), hmv.leaf, Function.update_self,
      if_neg (Nat.succ_ne_zero _)]
  have hwalk' : (walk c.machine.mem c.machine.cr3 v).map Walk.e4 =
      some (s.vm.machine.fl.frame n * 4096 + 7) := by
    rw [hpages.walk_space hr (hs.congr hcp.cr3 hcp.tables), hcp.leaf, Function.update_self,
      if_neg (Nat.succ_ne_zero _)]
  intro u t hua ht
  obtain ⟨w, hw, hpt⟩ := htlb _ ht
  obtain ⟨hpage, rfl⟩ := Prod.mk.inj hpt
  rw [walk_page pageOf_pageAddr] at hw
  rw [hw] at hwalk
  obtain ⟨w', hw', he⟩ := Option.map_eq_some_iff.mp hwalk'
  refine ⟨w', (walk_page (hpage.trans pageOf_pageAddr)).trans hw', ?_⟩
  rw [he, ← Option.some.inj hwalk]
  exact w.translation_le

/-! ## Runs -/

theorem tlbStep_coherent {l : TlbLabel} (hi : VmInv k s.vm) (hs : s.Coherent)
    (hsafe : UnmapsUnused l s) (h : tlbStep l s = some t) : VmInv k t.vm ∧ t.Coherent := by
  cases l with
  | map v =>
      rw [tlbStep] at h
      split_ifs at h with hv
      obtain ⟨c, hc, rfl⟩ := Option.map_eq_some_iff.mp h
      obtain ⟨⟨pa, hm⟩, htlb⟩ := Cpu.mapPhyaddr_machine hc
      refine ⟨hi.withCpu ?_, TlbState.coherent_of_flushed htlb⟩
      obtain ⟨hal, hu | ⟨hrange, hnone⟩⟩ := hv
      · obtain ⟨d, hd, hroot⟩ := hi.current
        exact mapUser_keeps hi.pages hi.rootInv hd hroot hu hal hm
      · obtain ⟨sp, hsp, hnw⟩ := hrange.inSpace fun a ha => hi.active_root ha
        exact (mapKeeps hi.pages hi.rootInv hsp hnw hal
          (leaf_of_walk hi.pages hi.rootInv hsp hnone) hm).1
  | unmap v =>
      rw [tlbStep] at h
      split_ifs at h with hv
      obtain ⟨c, hc, rfl⟩ := Option.map_eq_some_iff.mp h
      exact unmap_coherent hi hs hv.2 hv.1 hsafe hc
  | cow v =>
      rw [tlbStep] at h
      split_ifs at h with hu
      obtain ⟨c, hc, rfl⟩ := Option.map_eq_some_iff.mp h
      exact cow_coherent hi hu hc
  | switch c =>
      have hvm : vmStep (.switch c) s.vm = some t.vm := by
        rw [tlbStep] at h
        rw [vmStep]
        split_ifs at h ⊢ with hc
        rw [← Option.some.inj h]
        rfl
      have htlb : t.tlb = [] := by
        rw [tlbStep] at h
        split_ifs at h with hc
        rw [← Option.some.inj h]
        rfl
      exact ⟨hi.vmStep hvm, TlbState.coherent_of_flushed htlb⟩
  | access v =>
      obtain rfl : s.withCpu (s.cpu.access v) = t := Option.some.inj h
      refine ⟨?_, hs.access⟩
      have hvm : (s.withCpu (s.cpu.access v)).vm = s.vm := by
        show ({ s.vm with machine := (s.cpu.access v).machine } : VmState) = s.vm
        rw [Cpu.access_machine]
        rfl
      rw [hvm]
      exact hi

/-- The TLB is coherent in every run in which `unmap_phyaddr`, at a frame with a reference count
other than 1, only meets pages that were not used since the last write of `cr3`. -/
theorem tlb_coherent (h : TlbReach UnmapsUnused s) : s.Coherent := by
  have hinv : (∃ k, VmInv k s.vm) ∧ s.Coherent := by
    refine Reach.invariant (P := fun s : TlbState => (∃ k, VmInv k s.vm) ∧ s.Coherent) ?_ ?_ h
    · rintro t ⟨hvm, htlb⟩
      exact ⟨hvm.vmInv, TlbState.coherent_of_flushed htlb⟩
    · rintro l s t ⟨⟨k, hi⟩, hs⟩ ⟨hsafe, hst⟩
      obtain ⟨hi', hs'⟩ := tlbStep_coherent hi hs hsafe hst
      exact ⟨⟨k, hi'⟩, hs'⟩
  exact hinv.2

/-! ## A page that is used and then unmapped -/

/-- A program uses the page of `v`, and `unmap_phyaddr` takes it away. -/
structure UsedThenUnmapped (s : VmState) (v : Nat) (w : Walk) (c c' : Cpu) : Prop where
  walk : walk s.machine.mem s.machine.cr3 v = some w
  access : Cpu.access ⟨s.machine, []⟩ v = c
  machine : c.machine = s.machine
  tlb : c.tlb = [(pageOf v, w.translation)]
  unmap : c.unmapPhyaddr v = some c'
  gone : Sbunix.walk c'.machine.mem c'.machine.cr3 v = none

theorem VmInv.used_unmapped {s : VmState} (hi : VmInv k s) (ha : s.active = some a) (hu : UserAddr v)
    (hv : v % 4096 = 0) (h0 : leaf s.machine.mem k (pageAt a v) ≠ 0) :
    ∃ w c c', UsedThenUnmapped s v w c c' := by
  obtain ⟨halt, hroot⟩ := hi.active_root ha
  have hwalk := hi.walk_user ha hu
  rw [if_neg h0] at hwalk
  obtain ⟨w, hw, -⟩ := Option.map_eq_some_iff.mp hwalk
  obtain ⟨m', hm', hk, ⟨hz, -⟩ | ⟨b, -, -, -, -, hun⟩⟩ :=
    unmapUser_spec hi.pages hi.rootInv halt hroot hu hv
  · exact absurd hz h0
  obtain ⟨c, hc⟩ : ∃ c, Cpu.access ⟨s.machine, []⟩ v = c := ⟨_, rfl⟩
  have hmach : c.machine = s.machine := by rw [← hc, Cpu.access_machine]
  obtain ⟨c', hunmap, rfl⟩ : ∃ c', c.unmapPhyaddr v = some c' ∧ c'.machine = m' := by
    have hmap := Cpu.unmapPhyaddr_map (c := c) (v := v)
    rw [hmach, hm'] at hmap
    exact Option.map_eq_some_iff.mp hmap
  refine ⟨w, c, c', hw, hc, hmach, ?_, hunmap, ?_⟩
  · rw [← hc, Cpu.access, hw]
  · have hroot' : root c'.machine.mem k (some a) = some (c'.machine.cr3 / 4096) := by
      rw [hk.roots a halt, hk.cr3, hroot]
    refine walk_none hk.pages.tables hk.rootInv (hu.inSpace halt hroot') ?_
    rw [hun.leaf]
    exact Function.update_self _ _ _

theorem UsedThenUnmapped.reach {cond : TlbLabel → TlbState → Prop} {s : VmState} {w : Walk}
    (h : UsedThenUnmapped s v w c c') (hr : VmReach (fun _ _ => True) s) (hu : UserAddr v)
    (hv : v % 4096 = 0) (haccess : cond (.access v) ⟨s, []⟩)
    (hunmap : cond (.unmap v) (TlbState.withCpu ⟨s, []⟩ c)) :
    TlbReach cond (TlbState.withCpu ⟨s, []⟩ c) ∧ TlbReach cond (TlbState.withCpu ⟨s, []⟩ c') := by
  have hused : TlbReach cond (TlbState.withCpu ⟨s, []⟩ c) :=
    .step (.access v) (.init ⟨hr, rfl⟩) ⟨haccess, by rw [← h.access]; rfl⟩
  exact ⟨hused, .step (.unmap v) hused ⟨hunmap, tlbStep_unmap hv hu h.unmap⟩⟩

/-- The first program uses its page, and the kernel unmaps it. -/
theorem tlb_coherent_first : ∃ (s t : TlbState) (e : Nat × Translation), TlbReach UnmapsUnused s ∧
    s.tlb = [e] ∧ tlbStep (.unmap 0x400000) s = some t ∧ TlbReach UnmapsUnused t ∧
    walk t.vm.machine.mem t.vm.machine.cr3 0x400000 = none ∧ t.Coherent := by
  obtain ⟨k, s, h⟩ := onePage
  have hu := h.userAddr
  obtain ⟨w, c, c', hc⟩ := h.inv.used_unmapped h.active hu (by decide) h.mapped
  -- the count is 1
  have hsafe : UnmapsUnused (.unmap 0x400000) (TlbState.withCpu ⟨s, []⟩ c) := by
    intro e he _ hcount
    obtain ⟨halt, hroot⟩ := h.inv.active_root h.active
    obtain ⟨b, hb, hleaf, hone⟩ := h.block
    change c.machine.getPhysAddr 0x400000 = some e at he
    change c.machine.fl.getReferenceCount e ≠ some 1 at hcount
    rw [hc.machine] at he hcount
    rw [Machine.getPhysAddr_eq h.inv.pages.tables h.inv.rootInv (hu.inSpace halt hroot)] at he
    obtain rfl : leaf s.machine.mem k (pageAt 0 0x400000) = e := Option.some.inj he
    rw [FreeList.getReferenceCount,
      FreeList.blockindex_eq hb (by rw [hleaf, entry_div (by decide)]), Option.map_some, hone] at hcount
    exact absurd rfl hcount
  obtain ⟨hused, hrun⟩ := hc.reach h.reach hu (by decide) trivial hsafe
  exact ⟨_, _, _, hused, hc.tlb, tlbStep_unmap (by decide) hu hc.unmap, hrun, hc.gone,
    tlb_coherent hrun⟩

/-- A page with two references that a program has used and then unmaps stays in the TLB. -/
theorem tlb_stale : ∃ s, TlbReach (fun _ _ => True) s ∧ ¬ s.Coherent := by
  obtain ⟨k, s, h⟩ := onePage
  have hu := h.userAddr
  -- an argument string on the page takes the count to 2
  obtain ⟨t₀, t, b, hmore, ht, hi', heq, hb, hleaf, -⟩ := h.argument
  have hactive : t.active = some 0 := by
    rw [heq]
    exact hmore.active
  have hmach : t.machine = { s.machine with
      fl := { s.machine.fl with refCount := Function.update s.machine.fl.refCount b 2 } } := by
    rw [heq]
  obtain ⟨halt, hroot⟩ := hi'.active_root hactive
  have hleaf' : leaf t.machine.mem k (pageAt 0 0x400000) = s.machine.fl.frame b * 4096 + 7 := by
    rw [hmach]
    exact hleaf
  have h0 : leaf t.machine.mem k (pageAt 0 0x400000) ≠ 0 := by
    rw [hleaf']
    exact Nat.succ_ne_zero _
  obtain ⟨w, c₁, c, hc⟩ := hi'.used_unmapped hactive hu (by decide) h0
  have hrun : TlbReach (fun _ _ => True) (TlbState.withCpu ⟨t, []⟩ c) :=
    (hc.reach (.step _ h.reach ⟨trivial, ht⟩) hu (by decide) trivial trivial).2
  refine ⟨_, hrun, fun hcoh => ?_⟩
  -- the count is 2, so nothing was flushed
  have hcount : t.machine.fl.getReferenceCount (leaf t.machine.mem k (pageAt 0 0x400000)) ≠ some 1 := by
    have hidx : t.machine.fl.blockindex (leaf t.machine.mem k (pageAt 0 0x400000)) = some b := by
      refine FreeList.blockindex_eq hb ?_
      rw [hleaf', entry_div (by decide), hmach]
      rfl
    rw [FreeList.getReferenceCount, hidx, Option.map_some, hmach]
    show some (Function.update s.machine.fl.refCount b _ b) ≠ some 1
    rw [Function.update_self]
    decide
  have htlb : (pageOf 0x400000, w.translation) ∈ c.tlb := by
    rcases Cpu.unmapPhyaddr_tlb hc.unmap with rfl | ⟨e, he, -, ⟨-, h1⟩ | ⟨hsame, -⟩⟩
    · rw [hc.tlb]
      exact List.mem_singleton_self _
    · rw [hc.machine] at he h1
      rw [Machine.getPhysAddr_eq hi'.pages.tables hi'.rootInv (hu.inSpace halt hroot)] at he
      rw [← Option.some.inj he] at h1
      exact absurd h1 hcount
    · rw [hsame, hc.tlb]
      exact List.mem_singleton_self _
  obtain ⟨w', hw', -⟩ := hcoh 0x400000 w.translation hu htlb
  exact absurd (hw'.symm.trans hc.gone) (by simp)

end Sbunix
