import Sbunix.Sys.Proofs.FreshPages

/-!
# Faults of programs

What `pagemama` leaves after a fault of a program: `cow` gives the process a page of its own,
and the access that faulted is allowed.
-/

namespace Sbunix

variable {k : Nat} {m m' : Machine} {s t : VmState} {a v b n f i : Nat} {sp : Space}
  {l : List Nat} {mem mem' : Nat → Nat → Nat} {fl fl' : FreeList}

/-! ## Tables that stay -/

/-- The page below a last-level table. -/
theorem exists_page (hl : ValidPath sp l) (hi : i < 512)
    (hlen : l.length = if sp = none then 2 else 3) :
    ∃ q, ValidPage (sp, q) ∧ pagePath sp q = l ∧ q % 512 = i := by
  cases sp with
  | none =>
      obtain ⟨-, hlt⟩ := hl
      obtain ⟨i3, i2, rfl⟩ := List.length_eq_two.mp hlen
      have h3 : i3 < 512 := hlt i3 (by simp)
      have h2 : i2 < 512 := hlt i2 (by simp)
      refine ⟨511 * 2 ^ 27 + i2 * 2 ^ 18 + i3 * 2 ^ 9 + i, ⟨by omega, by omega⟩, ?_, by omega⟩
      simp only [pagePath, List.cons.injEq, and_true]
      exact ⟨by omega, by omega⟩
  | some c =>
      obtain ⟨hc, -, hlt, htop⟩ := hl
      obtain ⟨i3, i2, i1, rfl⟩ := List.length_eq_three.mp hlen
      have h3 : i3 < 512 := hlt i3 (by simp)
      have h2 : i2 < 512 := hlt i2 (by simp)
      have h1 : i1 < 510 := htop i1 (by simp)
      refine ⟨i1 * 2 ^ 27 + i2 * 2 ^ 18 + i3 * 2 ^ 9 + i, ⟨hc, by omega⟩, ?_, by omega⟩
      simp only [pagePath, List.cons.injEq, and_true]
      exact ⟨by omega, by omega, by omega⟩

/-- An entry that leads to a table is determined by the table. -/
theorem TableInv.entry_eq (h : TableInv k mem fl) (h' : TableInv k mem' fl')
    (htab : ∀ s l, ValidPath s l → tableAt mem' k s l = tableAt mem k s l)
    (hl : ValidPath sp (i :: l)) (hf : tableAt mem k sp l = some f) :
    word mem' f i = word mem f i := by
  have hf' : tableAt mem' k sp l = some f := (htab sp l (validPath_closed sp i l hl)).trans hf
  have hcons := htab sp (i :: l) hl
  rw [tableAt_cons, tableAt_cons, hf, hf', Option.bind_some, Option.bind_some, child, child] at hcons
  have hlt := hl.head_lt
  rcases h.entry sp i l f hl hf with h0 | h7 <;> rcases h'.entry sp i l f hl hf' with h0' | h7'
  · rw [h0, h0']
  · rw [if_pos ⟨hlt, by omega⟩, if_neg (by simp [h0])] at hcons
    exact absurd hcons (by simp)
  · rw [if_pos (show i < 512 ∧ word mem f i ≠ 0 from ⟨hlt, by omega⟩),
      if_neg (by simp [h0'])] at hcons
    exact absurd hcons (by simp)
  · rw [if_pos ⟨hlt, by omega⟩, if_pos ⟨hlt, by omega⟩, Option.some.injEq] at hcons
    omega

/-- Where the tables are the same, a table changes only in the entries of pages that do. -/
theorem TableInv.table_eq (h : TableInv k mem fl) (h' : TableInv k mem' fl')
    (htab : ∀ s l, ValidPath s l → tableAt mem' k s l = tableAt mem k s l)
    (hleaf : ∀ q, pagePath sp q = l → leaf mem' k (sp, q) = leaf mem k (sp, q))
    (hl : ValidPath sp l) (hf : tableAt mem k sp l = some f) (hi : i < 512) :
    word mem' f i = word mem f i := by
  by_cases hbelow : ValidPath sp (i :: l)
  · exact h.entry_eq h' htab hbelow hf
  have hf' : tableAt mem' k sp l = some f := (htab sp l hl).trans hf
  by_cases hlen : l.length = if sp = none then 2 else 3
  · -- an entry of a last-level table
    obtain ⟨q, hq, rfl, rfl⟩ := exists_page hl hi hlen
    rw [← leaf_of_table hq hf, ← leaf_of_table hq hf', hleaf q rfl]
  · -- slots 510 and 511 of a PML4
    cases sp with
    | none =>
        refine absurd ⟨?_, ?_⟩ hbelow
        · have := hl.1
          simp only [if_true] at hlen
          simp only [List.length_cons]
          omega
        · intro j hj
          rcases List.mem_cons.mp hj with rfl | hj
          · exact hi
          · exact hl.2 j hj
    | some c =>
        obtain ⟨hc, hle, hlt, htop⟩ := hl
        cases l with
        | nil =>
            have hi510 : ¬ i < 510 := by
              intro hlt'
              exact hbelow ⟨hc, by simp, by simpa using hi, by simpa using hlt'⟩
            have hroot : root mem k (some c) = some f := hf
            have hroot' : root mem' k (some c) = some f := hf'
            obtain ⟨h510, h511⟩ := h.top c f hc hroot
            obtain ⟨h510', h511'⟩ := h'.top c f hc hroot'
            have hcases : i = 510 ∨ i = 511 := by omega
            rcases hcases with rfl | rfl
            · rw [h510, h510']
            · rw [h511, h511']
        | cons j l =>
            refine absurd ⟨hc, ?_, ?_, ?_⟩ hbelow
            · simp only [reduceCtorEq, if_false, List.length_cons] at hlen hle ⊢
              omega
            · intro x hx
              rcases List.mem_cons.mp hx with rfl | hx
              · exact hi
              · exact hlt x hx
            · simpa [List.getLast?_cons_cons] using htop

/-! ## Copy-on-write faults -/

/-- `m'` is `m` after the page of `v` in the process `a` has been moved from the frame `f` to the
frame `n`. Leaf entries and tables are those of all address spaces. -/
structure PrivateCopy (m m' : Machine) (a v f n : Nat) : Prop where
  other : n ≠ f
  unmapped : m.mappings n = ∅
  entry : ∃ w, walk m'.mem m'.cr3 v = some w ∧ w.e4 = n * 4096 + 7
  writable : permits m' v true = true
  content : ∀ x < 4096, m'.mem n x = m.mem f x
  old : m'.mem f = m.mem f
  leaves : ∀ p, p ≠ pageAt a v → leaf m'.mem m.kernelHalf p = leaf m.mem m.kernelHalf p
  tables : ∀ c, c ≠ a → ∀ l g, ValidPath (some c) l → tableAt m.mem m.kernelHalf (some c) l = some g →
    tableAt m'.mem m.kernelHalf (some c) l = some g ∧ ∀ i < 512, word m'.mem g i = word m.mem g i
  count : ∃ r, m.fl.getReferenceCount (f * 4096) = some (r + 1) ∧
    m'.fl.getReferenceCount (f * 4096) = some r

theorem FreeList.getPage_room {r : Nat × FreeList} (h : fl.getPage = some r) :
    5 ≤ fl.totalblockcount := by
  by_contra hlow
  rw [FreeList.getPage, if_pos (Nat.lt_of_not_le hlow)] at h
  exact absurd h (by simp)

theorem FreeList.decrement_total {paddr : Nat} (h : fl.decrementReferenceCount paddr = some fl') :
    fl'.totalblockcount = fl.totalblockcount := by
  obtain ⟨b, -, rfl⟩ := Option.map_eq_some_iff.mp h
  split_ifs <;> rfl

/-- `cow` halts when `get_page` does. -/
theorem Machine.cow_room (h : m.cow v = some m') : 5 ≤ m.fl.totalblockcount := by
  rw [cow_eq] at h
  obtain ⟨buf, -, h⟩ := Option.bind_eq_some_iff.mp h
  obtain ⟨m₁, h, -⟩ := Option.bind_eq_some_iff.mp h
  simp only [cowEntry, Option.bind_eq_bind] at h
  obtain ⟨old, -, h⟩ := Option.bind_eq_some_iff.mp h
  split_ifs at h
  · obtain ⟨fl, hfl, h⟩ := Option.bind_eq_some_iff.mp h
    simp only [Option.pure_def, Option.bind_some] at h
    obtain ⟨⟨p, m₂⟩, hget, -⟩ := Option.bind_eq_some_iff.mp h
    obtain ⟨r, hr, -⟩ := Option.map_eq_some_iff.mp hget
    have hroom : 5 ≤ fl.totalblockcount := FreeList.getPage_room hr
    rwa [FreeList.decrement_total hfl] at hroom
  · simp only [Option.pure_def, Option.bind_some] at h
    obtain ⟨⟨p, m₂⟩, hget, -⟩ := Option.bind_eq_some_iff.mp h
    obtain ⟨r, hr, -⟩ := Option.map_eq_some_iff.mp hget
    exact FreeList.getPage_room hr

/-- What `cow` leaves is a copy of its own. -/
theorem PrivateCopy.of_copied (hp : PageInv k m noRes) (hr : RootInv k m) (ha : a < procSize)
    (hroot : root m.mem k (some a) = some (m.cr3 / 4096)) (hu : UserAddr v) (h510 : p1Index v < 510)
    (h0 : leaf m.mem k (pageAt a v) ≠ 0) (hlt : b < listSize)
    (hb : leaf m.mem k (pageAt a v) / 4096 = m.fl.frame b)
    (h : Copied k m m' (pageAt a v) b n) (hp' : PageInv k m' noRes) (hr' : RootInv k m') :
    PrivateCopy m m' a v (m.fl.frame b) (m.fl.frame n) := by
  have hn : n ∈ m.fl.blocks := by simp [h.blocks]
  have hnf : m.fl.frame n ≠ m.fl.frame b := fun he =>
    Machine.mapped_not_free hp h0 hb (he ▸ ⟨n, hn, rfl⟩)
  have hnb : n ≠ b := fun he => hnf (by rw [he])
  have hs' : InSpace k m' v (spaceOf a v) := by
    refine hu.inSpace ha ?_
    rw [roots_of_update hu.userPage h.leaf ha, h.cr3]
    exact hroot
  have hleaf : leaf m'.mem k (spaceOf a v, pageOf v) = m.fl.frame n * 4096 + 7 := by
    rw [h.leaf]
    exact Function.update_self ..
  have hfr : ∀ c, m'.fl.frame c = m.fl.frame c := FreeList.frame_congr h.freeMemory
  have hpos := hp.leaves.count_pos hlt h0 hb
  have hdiv : m.fl.frame b * 4096 / 4096 = m.fl.frame b := Nat.mul_div_cancel _ (by decide)
  have hk := hr.kernelHalf
  constructor
  · exact hnf
  · exact hp.free_unmapped hr hn
  · obtain ⟨f2, f3, f4, hw⟩ := walk_leaf hp'.tables hr' hs' (by rw [hleaf]; exact entry_odd (by decide))
    exact ⟨_, hw, hleaf⟩
  · rw [permits_eq hp' hr' hs', hleaf, show (m.fl.frame n * 4096 + 7) % 8 = 7 by omega]
    rfl
  · exact h.page
  · exact h.frames _ (Machine.mapped_not_table (s := spaceOf a v) (v := v) hp hu.userPage h0 hb)
      hnf.symm
  · intro p hne
    rw [hk, h.leaf, Function.update_of_ne hne]
  · intro c hc l g hl hg
    rw [hk] at hg ⊢
    refine ⟨(h.tables _ l hl).trans hg, fun i hi => ?_⟩
    refine hp.tables.table_eq hp'.tables h.tables (fun q _ => ?_) hl hg hi
    rw [h.leaf, Function.update_of_ne]
    intro he
    have hsp : some c = spaceOf a v := congrArg Prod.fst he
    rw [spaceOf, if_neg (by omega), Option.some.injEq] at hsp
    exact hc hsp
  · refine ⟨m.fl.refCount b - 1, ?_, ?_⟩
    · rw [FreeList.getReferenceCount, FreeList.blockindex_eq hlt hdiv, Option.map_some,
        Nat.sub_add_cancel hpos]
    · rw [FreeList.getReferenceCount, FreeList.blockindex_eq hlt (by rw [hdiv, hfr]), Option.map_some,
        h.refCount, Function.update_of_ne hnb.symm, Function.update_self]

/-! ## Progress -/

/-- The fault that the hardware raises for an access of a program. -/
def faultCode (m : Machine) (v : Nat) (write : Bool) : FaultCode :=
  ⟨(walk m.mem m.cr3 v).isSome, write, true⟩

/-- Pages that VMAs cover are unmapped, shared or writable. -/
theorem VmInv.low_bits (hi : VmInv k s) (hin : s.isPageInVmaList a v = true) :
    leaf s.machine.mem k (pageAt a v) % 8 = 0 ∨ leaf s.machine.mem k (pageAt a v) % 8 = 5 ∨
      leaf s.machine.mem k (pageAt a v) % 8 = 7 := by
  have hu : UserAddr v := hi.userAddr hin
  have hpage : UserPage (pageAt a v) := hu.userPage
  rcases hi.pages.leaves.managed_flags hpage.managed with h0 | h5 | h7
  · rw [h0]
    exact .inl rfl
  · exact .inr (.inl (by omega))
  · exact .inr (.inr (by omega))

section

variable (hi : VmInv k s) (ha : s.active = some a) (hv : v < 2 ^ 64)
  (hin : s.isPageInVmaList a v = true)

include hi ha hin

/-- A page that is not mapped. -/
theorem VmInv.demandFault {write : Bool} (h0 : leaf s.machine.mem k (pageAt a v) = 0) :
    Attempt (s.pagemama false v (faultCode s.machine v write)) (8 ≤ s.machine.fl.totalblockcount)
      fun t => permits t.machine v write = true := by
  obtain ⟨halt, hroot⟩ := hi.active_root ha
  have hu := hi.userAddr hin
  have hs := hu.inSpace halt hroot
  have hwalk := walk_none hi.pages.tables hi.rootInv hs h0
  have hmap := Machine.mapPhyaddr_fresh hi.pages hi.rootInv hs.pageAddr
    (by rw [pageOf_pageAddr]; exact hu.userPage.not_window) (Nat.mul_mod_left _ _)
    (by rw [pageOf_pageAddr]; exact h0)
  have herr : faultCode s.machine v write ≠ ⟨true, true, true⟩ := by simp [faultCode, hwalk]
  rw [VmState.pagemama, if_neg (by simp), ha, Option.bind_eq_bind, Option.bind_some, if_pos hin,
    if_neg herr, VmState.onMachine, pageAddr_eq]
  constructor
  · intro hroom
    cases hmap.total hroom with
    | intro r hr => exact ⟨{ s with machine := r.2 }, by rw [hr]; rfl⟩
  · intro t ht
    obtain ⟨m', hm', rfl⟩ := Option.map_eq_some_iff.mp ht
    obtain ⟨r, hr, rfl⟩ := Option.map_eq_some_iff.mp hm'
    obtain ⟨P, b, hmapped, hp', hr', -⟩ := hmap.sound r hr
    rw [pageOf_pageAddr] at hmapped
    have hs' : InSpace k r.2 v (spaceOf a v) := by
      refine hu.inSpace halt ?_
      rw [roots_of_update hu.userPage hmapped.leaf halt, hmapped.cr3]
      exact hroot
    have hleaf : leaf r.2.mem k (spaceOf a v, pageOf v) % 8 = 7 := by
      rw [hmapped.leaf, Function.update_self]
      omega
    show permits r.2 v write = true
    rw [permits_eq hp' hr' hs', hleaf]
    rfl

include hv

/-- A write to a page that is shared. -/
theorem VmInv.cowFault (h5 : leaf s.machine.mem k (pageAt a v) % 8 = 5) :
    Attempt (s.pagemama false v (faultCode s.machine v true)) (5 ≤ s.machine.fl.totalblockcount)
      fun t => permits t.machine v true = true := by
  obtain ⟨halt, hroot⟩ := hi.active_root ha
  have hu := hi.userAddr hin
  have hs := hu.inSpace halt hroot
  have h0 : leaf s.machine.mem k (pageAt a v) ≠ 0 := by omega
  have hodd : leaf s.machine.mem k (spaceOf a v, pageOf v) % 2 = 1 := hi.pages.leaves.odd h0
  obtain ⟨f2, f3, f4, hwalk⟩ := walk_leaf hi.pages.tables hi.rootInv hs hodd
  obtain ⟨-, g, h4⟩ := exists_table (show leaf s.machine.mem k (spaceOf a v, pageOf v) ≠ 0 from h0)
  rw [← path3_eq] at h4
  have hcheck : s.machine.checkCow v = some true := by
    have hand : leaf s.machine.mem k (spaceOf a v, pageOf v) &&& 7 = 5 :=
      (Nat.and_two_pow_sub_one_eq_mod _ 3).trans h5
    rw [Machine.checkCow, Machine.load64_leafAddr hi.pages.tables hi.rootInv hs h4,
      Option.bind_eq_bind, Option.bind_some, hand]
    simp only [Option.pure_def, Option.some.injEq, beq_self_eq_true, Bool.and_true, bne_iff_ne]
    exact h0
  obtain ⟨b, hb, -, hfr⟩ := hi.pages.leaves.owned _ hu.userPage.managed h0
  have hcow := Machine.cow_spec hi.pages hi.rootInv hs hu.userPage hv h0 hb hfr
  have herr : faultCode s.machine v true = ⟨true, true, true⟩ := by simp [faultCode, hwalk]
  rw [VmState.pagemama, if_neg (by simp), ha, Option.bind_eq_bind, Option.bind_some, if_pos hin,
    if_pos herr, hcheck, Option.bind_eq_bind, Option.bind_some, if_pos rfl, VmState.onMachine]
  constructor
  · intro hroom
    cases hcow.total hroom with
    | intro m' hm' => exact ⟨{ s with machine := m' }, by rw [hm']; rfl⟩
  · intro t ht
    obtain ⟨m', hm', rfl⟩ := Option.map_eq_some_iff.mp ht
    obtain ⟨n, hcp, hp', hr'⟩ := hcow.sound m' hm'
    have hs' : InSpace k m' v (spaceOf a v) := by
      refine hu.inSpace halt ?_
      rw [roots_of_update hu.userPage hcp.leaf halt, hcp.cr3]
      exact hroot
    have hleaf : leaf m'.mem k (spaceOf a v, pageOf v) % 8 = 7 := by
      rw [hcp.leaf, Function.update_self]
      omega
    show permits m' v true = true
    rw [permits_eq hp' hr' hs', hleaf]
    rfl

/-- The flags of the page decide which of the two faults an access raises. -/
theorem VmInv.userFault {write : Bool} (hperm : permits s.machine v write = false) :
    Attempt (s.pagemama false v (faultCode s.machine v write)) (8 ≤ s.machine.fl.totalblockcount)
      fun t => permits t.machine v write = true := by
  obtain ⟨halt, hroot⟩ := hi.active_root ha
  rw [permits_eq hi.pages hi.rootInv ((hi.userAddr hin).inSpace halt hroot)] at hperm
  change (leaf s.machine.mem k (pageAt a v) % 8 == 7 ||
    (!write && leaf s.machine.mem k (pageAt a v) % 8 == 5)) = false at hperm
  have hu : UserAddr v := hi.userAddr hin
  have hpage : UserPage (pageAt a v) := hu.userPage
  rcases hi.pages.leaves.managed_flags hpage.managed with h0 | h5 | h7
  · exact hi.demandFault ha hin h0
  · have h5' : leaf s.machine.mem k (pageAt a v) % 8 = 5 := by omega
    cases write with
    | false => simp [h5'] at hperm
    | true => exact (hi.cowFault ha hv hin h5').consequence (fun h => by omega) fun _ => id
  · have h7' : leaf s.machine.mem k (pageAt a v) % 8 = 7 := by omega
    simp [h7'] at hperm

end

/-- In every reachable state the leaf entries inside VMAs have the low bits 0, 5 or 7, a fault
inside a VMA is resolved, and a fault outside every VMA maps nothing: `pagemama` does not
return. -/
theorem userFault_resolved {cond : VmLabel → VmState → Prop} (h : VmReach cond s) :
    (∀ c x, s.isPageInVmaList c x = true →
      leaf s.machine.mem s.machine.kernelHalf (pageAt c x) % 8 = 0 ∨
        leaf s.machine.mem s.machine.kernelHalf (pageAt c x) % 8 = 5 ∨
        leaf s.machine.mem s.machine.kernelHalf (pageAt c x) % 8 = 7) ∧
    ∀ a v write, s.active = some a → v < 2 ^ 64 → permits s.machine v write = false →
      (s.isPageInVmaList a v = true →
        (8 ≤ s.machine.fl.totalblockcount →
          ∃ t, s.pagemama false v (faultCode s.machine v write) = some t) ∧
        ∀ t, s.pagemama false v (faultCode s.machine v write) = some t →
          permits t.machine v write = true) ∧
      (s.isPageInVmaList a v = false →
        s.pagemama false v (faultCode s.machine v write) = none) := by
  cases h.vmInv with
  | intro k hi =>
    constructor
    · intro c x hin
      rw [hi.rootInv.kernelHalf]
      exact hi.low_bits hin
    · intro a v write ha hv hperm
      constructor
      · intro hin
        have hfault := hi.userFault ha hv hin hperm
        exact ⟨hfault.total, hfault.sound⟩
      · intro hout
        rw [VmState.pagemama, if_neg (by simp), ha, Option.bind_eq_bind, Option.bind_some,
          if_neg (by simp [hout])]

/-- The first write of the first program to its segment. -/
theorem OneSegment.firstWrite {mem₀ : Nat → Nat → Nat} (h : OneSegment mem₀ k s) :
    permits s.machine 0x400000 true = false ∧ ∃ t,
      vmStep (.userFault 0x400000 true) s = some t ∧ t.active = some 0 ∧
      s.pagemama false 0x400000 (faultCode s.machine 0x400000 true) = some t := by
  obtain ⟨-, h0, hw, -⟩ := h.fault
  have hperm : permits s.machine 0x400000 true = false := by
    rw [permits, hw]
  obtain ⟨pa, m', -, hstep⟩ : ∃ pa m', s.machine.mapPhyaddr (0x400000 / 4096 * 4096) = some (pa, m') ∧
      vmStep (.userFault 0x400000 true) s = some { s with machine := m' } :=
    h.inv.pageFault h.active (by decide) h.covered h0 (Nat.le_trans (by decide) h.room)
  refine ⟨hperm, _, hstep, h.active, ?_⟩
  have hstep' : s.active.bind _ = _ := hstep
  rwa [h.active, Option.bind_some, VmState.stepOf, if_pos ⟨by decide, hperm⟩,
    ← h.active] at hstep'

theorem userFault_resolved_first : ∃ s t : VmState, s.active = some 0 ∧
    permits s.machine 0x400000 true = false ∧
    s.pagemama false 0x400000 (faultCode s.machine 0x400000 true) = some t ∧
    permits t.machine 0x400000 true = true := by
  obtain ⟨k, s, hreach, hseg⟩ := firstSegment fun _ _ => 0
  obtain ⟨hperm, t, -, -, ht⟩ := hseg.firstWrite
  have hfault := (userFault_resolved hreach).2 0 0x400000 true hseg.active (by decide) hperm
  exact ⟨s, t, hseg.active, hperm, ht, (hfault.1 hseg.covered).2 t ht⟩

end Sbunix
