import Sbunix.Sys.Proofs.TableGrowth

/-!
# Reading and writing leaf entries

The last level of `map_phyaddr`, `set_Cow`, `unmap_phyaddr` and `cow`, for an address
of the current process whose page is no PML4 window.
-/

namespace Sbunix

variable {k : Nat} {m m' : Machine} {res : Page → Option Nat} {s : Space} {v w f4 : Nat}

/-- `m'` is `m` with the leaf entry of `p` written. -/
structure LeafStore (k : Nat) (m m' : Machine) (p : Page) (w : Nat) : Prop where
  cr3 : m'.cr3 = m.cr3
  fl : m'.fl = m.fl
  tables : ∀ s l, ValidPath s l → tableAt m'.mem k s l = tableAt m.mem k s l
  leaf : leaf m'.mem k = Function.update (leaf m.mem k) p w
  frames : ∀ f, ¬ IsTable m.mem k f → m'.mem f = m.mem f
  inv : TableInv k m'.mem m'.fl
  root : RootInv k m'

/-- `m'` is `m` after the blocks `P` have become page tables and block `b` has been mapped
at the page `p`. -/
structure Mapped (k : Nat) (m m' : Machine) (p : Page) (P : List Nat) (b : Nat) : Prop where
  cr3 : m'.cr3 = m.cr3
  blocks : m.fl.blocks = P ++ b :: m'.fl.blocks
  freeMemory : m'.fl.freeMemory = m.fl.freeMemory
  refs : ∀ c, c ∉ P → c ≠ b → m'.fl.refCount c = m.fl.refCount c
  ref : m'.fl.refCount b = 1
  leaf : leaf m'.mem k = Function.update (leaf m.mem k) p (m.fl.frame b * 4096 + 7)
  isTable : ∀ f, IsTable m.mem k f → IsTable m'.mem k f
  fresh : ∀ f, IsTable m'.mem k f → IsTable m.mem k f ∨ ∃ c ∈ P, f = m.fl.frame c
  frames : ∀ f, ¬ IsTable m'.mem k f → f ≠ m.fl.frame b → m'.mem f = m.mem f
  page : m'.mem (m.fl.frame b) = clearTo (m.mem (m.fl.frame b)) 519

/-- `m'` is `m` after the page `p` has been unmapped from block `b`, which is freed and
partly cleared if this was its last count. -/
structure Unmapped (k : Nat) (m m' : Machine) (p : Page) (b : Nat) : Prop where
  cr3 : m'.cr3 = m.cr3
  freeMemory : m'.fl.freeMemory = m.fl.freeMemory
  blocks : m'.fl.blocks = if m.fl.refCount b = 1 then b :: m.fl.blocks else m.fl.blocks
  refCount : m'.fl.refCount = Function.update m.fl.refCount b (m.fl.refCount b - 1)
  tables : ∀ s l, ValidPath s l → tableAt m'.mem k s l = tableAt m.mem k s l
  leaf : leaf m'.mem k = Function.update (leaf m.mem k) p 0
  frames : ∀ f, ¬ IsTable m.mem k f → f ≠ m.fl.frame b → m'.mem f = m.mem f
  page : m'.mem (m.fl.frame b) =
    if m.fl.refCount b = 1 then clearTo (m.mem (m.fl.frame b)) 519 else m.mem (m.fl.frame b)

namespace Machine

section

variable (hinv : TableInv k m.mem m.fl) (hr : RootInv k m) (hs : InSpace k m v s)
  (h4 : tableAt m.mem k s (path3 v s) = some f4)

include hinv hr hs h4

theorem load64_leafAddr : m.load64 (leafAddr v) = some (leaf m.mem k (s, pageOf v)) := by
  have hlt := (pIndex_lt v).2.2.2
  have hfr : m.frameOf (p4Table baseInit v + 8 * p4Index v) = some f4 :=
    frameOf_at4 hinv hr hs (by omega) h4
  rw [leafAddr, load64_entry hfr p4Table_aligned hlt]
  rw [path3_eq] at h4
  rw [leaf_of_table hs.validPage h4, pIndex_pageOf.2.2.2]

theorem store64_leafAddr : m.store64 (leafAddr v) w =
    some { m with mem := Function.update m.mem f4 (wr64 (m.mem f4) (8 * p4Index v) w) } := by
  have hlt := (pIndex_lt v).2.2.2
  have hfr : m.frameOf (p4Table baseInit v + 8 * p4Index v) = some f4 :=
    frameOf_at4 hinv hr hs (by omega) h4
  rw [leafAddr, store64_entry hfr p4Table_aligned hlt]

/-- Storing to the leaf entry of a page; a PML4 window must keep its frame. -/
theorem store64_leafAddr_spec
    (hwin : Window (s, pageOf v) → SameFrame w (leaf m.mem k (s, pageOf v))) (hw : w < 2 ^ 64) :
    ∃ m', m.store64 (leafAddr v) w = some m' ∧ LeafStore k m m' (s, pageOf v) w := by
  have h4' := h4
  rw [path3_eq] at h4'
  have htable : IsTable m.mem k f4 := ⟨s, _, hs.validPath3, h4⟩
  have hne4 : f4 ≠ m.cr3 / 4096 :=
    ne_root hinv hr hs hs.validPath3 (.inr (by simp [path3])) h4
  refine ⟨_, store64_leafAddr hinv hr hs h4, ?_⟩
  have hword : ∀ g j, word (Function.update m.mem f4 (wr64 (m.mem f4) (8 * p4Index v) w)) g j =
      if g = f4 ∧ j = p4Index v then w else word m.mem g j := fun g j => word_store hw
  obtain ⟨htab, hleaf⟩ := hinv.leaf_write (w := w) hs.validPage hwin h4'
    (by rw [hword, if_pos ⟨rfl, pIndex_pageOf.2.2.2.symm⟩])
    (fun g j hne => by rw [hword, if_neg (by rwa [pIndex_pageOf.2.2.2])])
  refine ⟨rfl, rfl, htab, hleaf, ?_, ?_, ?_⟩
  · intro f hf
    refine Function.update_of_ne ?_ _ _
    rintro rfl
    exact hf htable
  · refine hinv.congr htab ?_ ?_ hinv.notFree
    · intro t i l f hl hf
      rw [hword, if_neg]
      rintro ⟨rfl, -⟩
      obtain ⟨rfl, rfl⟩ := hinv.path_unique (validPath_closed t i l hl)
        (validPath_pagePath hs.validPage) hf h4'
      exact not_validPath_below hl
    · intro c f hc hf
      have hnil : ValidPath (some c) [] := ⟨hc, by simp⟩
      have hne : f ≠ f4 := by
        rintro rfl
        obtain ⟨-, hl⟩ := hinv.path_unique hnil hs.validPath3 hf h4
        simp [path3] at hl
      rw [hword, hword, if_neg (fun h => hne h.1), if_neg (fun h => hne h.1)]
      exact ⟨rfl, rfl⟩
  · refine hr.congr rfl ?_ (htab none) hr.notFree
    intro j _
    show word (Function.update m.mem f4 _) _ _ = _
    rw [hword, if_neg (fun h => hne4 h.1.symm)]

end

section

variable (hinv : TableInv k m.mem m.fl) (hr : RootInv k m) (hs : InSpace k m v s)

include hinv hr hs

/-- The checks that `unmap_phyaddr` and `get_phys_addr` make on the way down. -/
theorem checkTables {α : Type} (x y : Option α) :
    ((m.load64 (p1Table baseInit + 8 * p1Index v)).bind fun e1 => if e1 = 0 then x else
      (m.load64 (p2Table baseInit v + 8 * p2Index v)).bind fun e2 => if e2 = 0 then x else
        (m.load64 (p3Table baseInit v + 8 * p3Index v)).bind fun e3 => if e3 = 0 then x else y) =
    if (tableAt m.mem k s (path3 v s)).isSome then y else x := by
  obtain ⟨hi1, hi2, hi3, -⟩ := pIndex_lt v
  have hempty : ∀ f i, child m.mem f i = none → i < 512 → word m.mem f i = 0 := by
    intro f i hc hi
    by_contra hne
    rw [child, if_pos ⟨hi, hne⟩] at hc
    exact absurd hc (by simp)
  rw [load64_entry (frameOf_at1 hr (by omega)) p1Table_aligned hi1, Option.bind_some]
  cases h2 : tableAt m.mem k s (path1 v s) with
  | none =>
      have h4 : tableAt m.mem k s (path3 v s) = none := by
        rw [path3, path2, tableAt_cons, tableAt_cons, h2]
        rfl
      rw [tableAt_path1 hr hs] at h2
      rw [if_pos (hempty _ _ h2 hi1), h4]
      rfl
  | some f2 =>
      rw [entry_path1 hinv hr hs h2, if_neg (by omega),
        load64_entry (frameOf_at2 hinv hr hs (by omega) h2) p2Table_aligned hi2, Option.bind_some]
      cases h3 : tableAt m.mem k s (path2 v s) with
      | none =>
          have h4 : tableAt m.mem k s (path3 v s) = none := by
            rw [path3, tableAt_cons, h3]
            rfl
          rw [path2, tableAt_cons, h2] at h3
          rw [if_pos (hempty _ _ h3 hi2), h4]
          rfl
      | some f3 =>
          rw [entry_path2 hinv hs h2 h3, if_neg (by omega),
            load64_entry (frameOf_at3 hinv hr hs (by omega) h3) p3Table_aligned hi3,
            Option.bind_some]
          cases h4 : tableAt m.mem k s (path3 v s) with
          | none =>
              rw [path3, tableAt_cons, h3] at h4
              rw [if_pos (hempty _ _ h4 hi3)]
              rfl
          | some f4 =>
              rw [entry_path3 hinv hs h3 h4, if_neg (by omega)]
              rfl

/-- `get_phys_addr` reads the leaf entry. -/
theorem getPhysAddr_eq : m.getPhysAddr v = some (leaf m.mem k (s, pageOf v)) := by
  have hcheck := checkTables hinv hr hs (some 0) (m.load64 (leafAddr v))
  refine hcheck.trans ?_
  cases h4 : tableAt m.mem k s (path3 v s) with
  | none =>
      rw [path3_eq] at h4
      rw [leaf_of_missing h4]
      rfl
  | some f4 => exact load64_leafAddr hinv hr hs h4

/-- An unmapped page is left alone. -/
theorem unmapPhyaddr_unmapped (h0 : leaf m.mem k (s, pageOf v) = 0) :
    m.unmapPhyaddr v = some m := by
  have hcheck := checkTables hinv hr hs (some m) (m.unmapLeaf v)
  rw [unmapPhyaddr]
  simp only [p2Table_p1Table, p3Table_p2Table]
  refine hcheck.trans ?_
  cases h4 : tableAt m.mem k s (path3 v s) with
  | none => rfl
  | some f4 =>
      show m.unmapLeaf v = some m
      rw [unmapLeaf, load64_leafAddr hinv hr hs h4, h0]
      rfl

theorem unmapPhyaddr_mapped (h0 : leaf m.mem k (s, pageOf v) ≠ 0) :
    m.unmapPhyaddr v = m.unmapLeaf v := by
  have hcheck := checkTables hinv hr hs (some m) (m.unmapLeaf v)
  obtain ⟨hp, f4, h4⟩ := exists_table h0
  rw [← path3_eq] at h4
  rw [unmapPhyaddr]
  simp only [p2Table_p1Table, p3Table_p2Table]
  refine hcheck.trans ?_
  rw [h4]
  rfl

end

/-- The last level of `map_phyaddr` at an entry that is not present: `get_page` returns `p`. -/
theorem mapLeaf_page {f p : Nat} {fl' : FreeList} (hg : m.fl.getPage = some (p, fl'))
    (hp : p % 4096 = 0) (hlt : p / 4096 < 2 ^ 52) (hne : f ≠ p / 4096) (hv : v % 4096 = 0)
    (hfr : m.frameOf (leafAddr v) = some f) (heven : word m.mem f (p4Index v) % 2 = 0)
    (hcfr : ∀ mem',
      (∀ f' j, f' ≠ p / 4096 → ¬ (f' = f ∧ j = p4Index v) → word mem' f' j = word m.mem f' j) →
      word mem' f (p4Index v) = p / 4096 * 4096 + 7 → ∀ x < 4096,
      (Machine.mk mem' m.cr3 fl').frameOf (v + x) = some (p / 4096)) :
    m.mapLeaf v = some (p, ⟨Function.update (Function.update m.mem f
      (wr64 (m.mem f) (8 * p4Index v) (p / 4096 * 4096 + 7))) (p / 4096)
      (clearTo (m.mem (p / 4096)) 519), m.cr3, fl'⟩) := by
  have hidx := (pIndex_lt v).2.2.2
  have hw : p / 4096 * 4096 + 7 < 2 ^ 64 := by omega
  have hentry : (p &&& 0xFFFFFFFFFFFFF000) ||| 7 = p / 4096 * 4096 + 7 :=
    and_or_flags (by omega) rfl (by decide)
  have hload : m.load64 (leafAddr v) = some (word m.mem f (p4Index v)) :=
    load64_entry hfr p4Table_aligned hidx
  have hstore : ({ m with fl := fl' } : Machine).store64 (leafAddr v) (p / 4096 * 4096 + 7) =
      some { m with mem := Function.update m.mem f
                      (wr64 (m.mem f) (8 * p4Index v) (p / 4096 * 4096 + 7)), fl := fl' } :=
    store64_entry hfr p4Table_aligned hidx
  have habsent : word m.mem f (p4Index v) &&& 1 = 0 := by
    rw [Nat.and_one_is_mod, heven]
  rw [mapLeaf, hload]
  simp only [Option.bind_eq_bind, Option.bind_some, if_pos habsent, Machine.getPage, hg,
    Option.map_some, hentry, hstore, Option.pure_def]
  rw [zeroWords_eq (n := 511) (g := p / 4096) hv (by decide) (by decide)]
  · simp only [Option.bind_some, Function.update_of_ne hne.symm]
  · intro mem' hmem' x hx
    refine hcfr mem' ?_ ?_ x hx
    · intro f' j hf' hcell
      rw [word_congr (hmem' f' hf'), word_store hw, if_neg hcell]
    · rw [word_congr (hmem' f hne), word_store hw, if_pos ⟨rfl, rfl⟩]

/-- The last level of `map_phyaddr` at a page that is not mapped: the store that maps the page
`get_page` returns, and the machine after it has been cleared. -/
theorem mapLeaf_fresh (hfree : FreeInv m.fl) (hinv : TableInv k m.mem m.fl)
    (hr : RootInv k m) (hs : InSpace k m v s) (hv : v % 4096 = 0)
    (h4 : tableAt m.mem k s (path3 v s) = some f4) (h0 : leaf m.mem k (s, pageOf v) = 0) :
    Attempt (m.mapLeaf v) (5 ≤ m.fl.totalblockcount) fun r =>
      ∃ b bs fl', m.fl.blocks = b :: bs ∧ fl'.blocks = bs ∧ FreeInv fl' ∧
        fl'.freeMemory = m.fl.freeMemory ∧ fl'.refCount = Function.update m.fl.refCount b 1 ∧
        r.1 = m.fl.frame b * 4096 ∧
        ({ m with fl := fl' } : Machine).store64 (leafAddr v) (m.fl.frame b * 4096 + 7) =
          some { m with mem := Function.update m.mem f4
                          (wr64 (m.mem f4) (8 * p4Index v) (m.fl.frame b * 4096 + 7)), fl := fl' } ∧
        r.2 = { m with mem := Function.update (Function.update m.mem f4
                        (wr64 (m.mem f4) (8 * p4Index v) (m.fl.frame b * 4096 + 7)))
                        (m.fl.frame b) (clearTo (m.mem (m.fl.frame b)) 519), fl := fl' } := by
  cases hg : m.fl.getPage with
  | none =>
      refine ⟨fun hroom => ?_, fun r h => ?_⟩
      · obtain ⟨r, hr⟩ := FreeList.getPage_total hroom
        exact absurd (hg.symm.trans hr) (by simp)
      · rw [mapLeaf, load64_leafAddr hinv hr hs h4, h0] at h
        simp [Machine.getPage, hg] at h
  | some r =>
      obtain ⟨q, fl'⟩ := r
      obtain ⟨b, bs, hb, rfl, hfree', hbs, hfm, hrc⟩ := hfree.getPage hg
      have hmem : b ∈ m.fl.blocks := by simp [hb]
      have hfreeb : m.fl.IsFree (m.fl.frame b) := ⟨b, hmem, rfl⟩
      have hlt : m.fl.frame b < 2 ^ 52 := hfree.frame_lt (hfree.lt b hmem)
      have htail : ∀ f, fl'.IsFree f → m.fl.IsFree f := fun f hf =>
        (hfree.isFree_tail hb hbs hfm hf).1
      have htable : IsTable m.mem k f4 := ⟨s, _, hs.validPath3, h4⟩
      have hne : f4 ≠ m.fl.frame b := fun he => hinv.notFree f4 htable (he ▸ hfreeb)
      have hinv' : TableInv k m.mem fl' :=
        hinv.refree fun f hf hfree => hinv.notFree f hf (htail f hfree)
      have hr' : RootInv k ({ m with fl := fl' } : Machine) :=
        hr.congr rfl (fun _ _ => rfl) (fun _ _ => rfl) fun hf => hr.notFree (htail _ hf)
      have hs' : InSpace k ({ m with fl := fl' } : Machine) v s := hs.congr rfl fun _ _ _ => rfl
      have hstore := store64_leafAddr (m := { m with fl := fl' }) (w := m.fl.frame b * 4096 + 7)
        hinv' hr' hs' h4
      have hdiv : m.fl.frame b * 4096 / 4096 = m.fl.frame b := Nat.mul_div_cancel _ (by decide)
      have hcell : word m.mem f4 (p4Index v) = 0 := by
        rw [← h0]
        rw [path3_eq] at h4
        rw [leaf_of_table hs.validPage h4, pIndex_pageOf.2.2.2]
      have hpage := mapLeaf_page hg (Nat.mul_mod_left _ _) (hdiv.symm ▸ hlt) (hdiv.symm ▸ hne) hv
        (frameOf_at4 hinv hr hs (by have := (pIndex_lt v).2.2.2; omega) h4) (by rw [hcell]) (by
          intro mem' hother hnew x hx
          rw [hdiv] at hother hnew ⊢
          have hidx := (pIndex_add hv hx).2.2.2
          have hpath := frameOf_path hinv hr (hs.add hv hx) mem' fl' (m.fl.frame b)
            ((path3_add hv hx).symm ▸ h4)
            (fun l hl hf => hinv.notFree _ ⟨s, l, hl, hf⟩ hfreeb)
            (fun he => hr.notFree (he ▸ hfreeb))
            (fun f j hf hf4 => hother f j hf fun h => hf4 h.1)
            (by rw [hidx, hnew]; exact entry_odd (by decide))
          rw [hidx, hnew] at hpath
          exact hpath.trans (congrArg some (entry_div (by decide))))
      rw [hdiv] at hpage
      rw [hpage]
      exact .some ⟨b, bs, fl', hb, hbs, hfree', hfm, hrc, rfl, hstore, rfl⟩

/-- The last level of `map_phyaddr` at a page that is mapped. -/
theorem mapLeaf_present {g : Nat} (hinv : TableInv k m.mem m.fl) (hr : RootInv k m)
    (hs : InSpace k m v s) (hv : v % 4096 = 0)
    (h4 : tableAt m.mem k s (path3 v s) = some f4) (hodd : leaf m.mem k (s, pageOf v) % 2 = 1)
    (hg : leaf m.mem k (s, pageOf v) / 4096 = g)
    (hgt : ∀ l, ValidPath s l → tableAt m.mem k s l ≠ some g) (hgr : g ≠ m.cr3 / 4096) :
    m.mapLeaf v = some (leaf m.mem k (s, pageOf v),
      { m with mem := Function.update m.mem g (clearTo (m.mem g) 519) }) := by
  have hne : f4 ≠ g := by
    rintro rfl
    exact hgt _ hs.validPath3 h4
  have hcell : word m.mem f4 (p4Index v) = leaf m.mem k (s, pageOf v) := by
    rw [path3_eq] at h4
    rw [leaf_of_table hs.validPage h4, pIndex_pageOf.2.2.2]
  have hfr : ∀ mem', (∀ f, f ≠ g → mem' f = m.mem f) → ∀ x < 4096,
      ({ m with mem := mem' } : Machine).frameOf (v + x) = some g := by
    intro mem' hmem' x hx
    have hidx := (pIndex_add hv hx).2.2.2
    have hcell' : word mem' f4 (p4Index v) = leaf m.mem k (s, pageOf v) := by
      rw [word_congr (hmem' f4 hne), hcell]
    have hpath := frameOf_path hinv hr (hs.add hv hx) mem' m.fl g
      ((path3_add hv hx).symm ▸ h4) hgt hgr (fun f j hf _ => word_congr (hmem' f hf))
      (by rw [hidx, hcell']; exact hodd)
    rw [hidx, hcell', hg] at hpath
    exact hpath
  have hzero : m.zeroWords v 1 512 =
      some { m with mem := Function.update m.mem g (clearTo (m.mem g) 519) } :=
    zeroWords_eq (n := 511) hv (by decide) (by decide) hfr
  have hpresent : ¬ leaf m.mem k (s, pageOf v) &&& 1 = 0 := by
    rw [Nat.and_one_is_mod, hodd]
    decide
  rw [mapLeaf, load64_leafAddr hinv hr hs h4]
  simp only [Option.bind_eq_bind, Option.bind_some, if_neg hpresent, Option.pure_def, hzero]

/-- `map_phyaddr` at a page that is not mapped and is no PML4 window. -/
theorem mapPhyaddr_fresh (hinv : PageInv k m noRes) (hr : RootInv k m)
    (hs : InSpace k m v s) (hnw : ¬ Window (s, pageOf v)) (hv : v % 4096 = 0)
    (h0 : leaf m.mem k (s, pageOf v) = 0) :
    Attempt (m.mapPhyaddr v) (8 ≤ m.fl.totalblockcount) fun r =>
      ∃ P b, Mapped k m r.2 (s, pageOf v) P b ∧ PageInv k r.2 noRes ∧ RootInv k r.2 ∧
        P.length = missing m.mem k v s ∧ r.1 = m.fl.frame b * 4096 := by
  rw [mapPhyaddr, Option.bind_eq_bind]
  refine ((ensureTables_spec hinv hr hs).bind (N := fun m₁ => 5 ≤ m₁.fl.totalblockcount)
    ?_).consequence ?_ fun _ => id
  rotate_left
  · refine fun h8 => ⟨by omega, ?_⟩
    rintro m₁ ⟨P, hg, hinv₁, -, hlen, -⟩
    have htot := hinv.free.toThreaded.total_eq hinv₁.free.toThreaded hg.blocks
    have := missing_le (m := m) (k := k) (v := v) (s := s)
    omega
  rintro m₁ ⟨P, hg, hinv₁, hr₁, hlen, f4, h4⟩
  have hs₁ := hg.inSpace hs
  refine (mapLeaf_fresh hinv₁.free hinv₁.tables hr₁ hs₁ hv h4 (by rw [hg.leaf, h0])).consequence
    id ?_
  rintro ⟨pa, m'⟩ ⟨b, bs, fl', hb, hbs, hfree', hfm, hrc, hpa, hstore, hm'⟩
  simp only at hpa hm' ⊢
  have hfr : ∀ c, m₁.fl.frame c = m.fl.frame c := hg.frame_eq
  rw [hfr] at hstore hm' hpa
  have hmem : b ∈ m₁.fl.blocks := by simp [hb]
  have hlt : m.fl.frame b < 2 ^ 52 := hfr b ▸ hinv₁.free.frame_lt (hinv₁.free.lt b hmem)
  have hfreeb : m₁.fl.IsFree (m.fl.frame b) := ⟨b, hmem, (hfr b).symm⟩
  have hnt : ¬ IsTable m₁.mem k (m.fl.frame b) := fun ht => hinv₁.tables.notFree _ ht hfreeb
  have htail : ∀ f, fl'.IsFree f → m₁.fl.IsFree f ∧ f ≠ m.fl.frame b := fun f hf =>
    hfr b ▸ hinv₁.free.isFree_tail hb hbs hfm hf
  -- the state between taking the block and writing the entry
  have hinv₂ : TableInv k m₁.mem fl' :=
    hinv₁.tables.refree fun f hf hfree => hinv₁.tables.notFree f hf (htail f hfree).1
  have hr₂ : RootInv k ({ m₁ with fl := fl' } : Machine) :=
    hr₁.congr rfl (fun _ _ => rfl) (fun _ _ => rfl) fun hf => hr₁.notFree (htail _ hf).1
  have hs₂ : InSpace k ({ m₁ with fl := fl' } : Machine) v s := hs₁.congr rfl fun _ _ _ => rfl
  obtain ⟨m₃, hstore', hls⟩ := store64_leafAddr_spec (w := m.fl.frame b * 4096 + 7)
    (m := { m₁ with fl := fl' }) hinv₂ hr₂ hs₂ h4 (fun h => absurd h hnw) (by omega)
  obtain rfl : _ = m₃ := Option.some.inj (hstore.symm.trans hstore')
  -- clearing the page touches no table
  have hnt₃ := fun ht => hnt ((isTable_congr hls.tables).mp ht)
  have hagree : ∀ f, IsTable (Function.update m₁.mem f4
      (wr64 (m₁.mem f4) (8 * p4Index v) (m.fl.frame b * 4096 + 7))) k f →
      m'.mem f = Function.update m₁.mem f4
        (wr64 (m₁.mem f4) (8 * p4Index v) (m.fl.frame b * 4096 + 7)) f := by
    intro f hf
    rw [hm']
    refine Function.update_of_ne ?_ _ _
    rintro rfl
    exact hnt₃ hf
  obtain ⟨htab, hleaf⟩ := tables_of_agree hagree
  have htab' : ∀ s l, ValidPath s l → tableAt m'.mem k s l = tableAt m₁.mem k s l :=
    fun s l hl => (htab s l hl).trans (hls.tables s l hl)
  have hleaf' : leaf m'.mem k =
      Function.update (leaf m.mem k) (s, pageOf v) (m.fl.frame b * 4096 + 7) := by
    rw [hleaf, hls.leaf, ← hg.leaf]
  have hfl : m'.fl = fl' := by rw [hm']
  have hcr3 : m'.cr3 = m₁.cr3 := by rw [hm']
  have hist : ∀ f, IsTable m'.mem k f ↔ IsTable m₁.mem k f := fun f => isTable_congr htab'
  refine ⟨P, b, ⟨?_, ?_, ?_, ?_, ?_, hleaf', ?_, ?_, ?_, ?_⟩, ⟨?_, ?_, ?_⟩, ?_, hlen, hpa⟩
  · exact hcr3.trans hg.cr3
  · rw [hg.blocks, hb, hfl, hbs]
  · rw [hfl, hfm, hg.freeMemory]
  · intro c hcP hcb
    rw [hfl, hrc, Function.update_of_ne hcb, hg.refs c hcP]
  · rw [hfl, hrc, Function.update_self]
  · exact fun f hf => (hist f).mpr (hg.isTable hf)
  · exact fun f hf => hg.fresh f ((hist f).mp hf)
  · intro f hf hne
    have hf₁ : ¬ IsTable m₁.mem k f := fun ht => hf ((hist f).mpr ht)
    rw [hm', ← hg.frames f hf₁]
    exact (Function.update_of_ne hne _ _).trans (hls.frames f hf₁)
  · rw [hm', ← hg.frames _ hnt]
    exact Function.update_self ..
  · rw [hfl]
    exact hfree'
  · rw [hfl]
    exact hls.inv.agree hagree
  · have hpop : LeafInv (leaf m₁.mem k) (IsTable m₁.mem k) fl' noRes :=
      hinv₁.leaves.pop hinv₁.free hmem hfm hrc
    have hfr' : fl'.frame b = m.fl.frame b := by
      rw [← hfr b]
      exact FreeList.frame_congr hfm b
    have hmap := hpop.map (b := b) (p := (s, pageOf v)) (w := m.fl.frame b * 4096 + 7)
      (hinv₁.free.lt b hmem) (hinv₁.free.ne_zero hmem) (by rw [hrc, Function.update_self])
      (fun p hp he => by
        refine hinv₁.leaves.not_free hinv₁.free hp ?_
        rw [he, hfr']
        exact hfreeb)
      (fun _ => by rw [hfr']; exact hnt) (by rw [hfr']; omega) (by omega)
    rw [hleaf', hfl, ← hg.leaf]
    exact hmap.retable fun f hf => .inl ((hist f).mp hf)
  · refine hls.root.congr hcr3 ?_ (htab none) ?_
    · intro j _
      rw [hm']
      refine word_congr (Function.update_of_ne ?_ _ _)
      rintro he
      exact hr₁.notFree (he ▸ hfreeb)
    · rw [hfl]
      exact hr₂.notFree

section

variable {b : Nat} (hinv : PageInv k m noRes) (hr : RootInv k m)
  (hcur : IsTable m.mem k (m.cr3 / 4096)) (hs : InSpace k m v s) (hu : UserPage (s, pageOf v))
  (h0 : leaf m.mem k (s, pageOf v) ≠ 0) (hlt : b < listSize) (hb0 : b ≠ 0)
  (hb : leaf m.mem k (s, pageOf v) / 4096 = m.fl.frame b)

include hinv hu h0 hb

theorem mapped_not_table : ¬ IsTable m.mem k (m.fl.frame b) := by
  have hnt := hinv.leaves.notTable _ hu.not_window h0
  rw [hb] at hnt
  exact hnt FreeList.frame_mono

omit hu in
theorem mapped_not_free : ¬ m.fl.IsFree (m.fl.frame b) :=
  hb ▸ hinv.leaves.not_free hinv.free h0

include hcur

theorem mapped_not_root : m.fl.frame b ≠ m.cr3 / 4096 := by
  intro he
  exact mapped_not_table hinv hu h0 hb (he ▸ hcur)

include hr hs in
/-- Clearing the mapped page through its own address. -/
theorem zeroWords_mapped (hv : v % 4096 = 0) : m.zeroWords v 1 512 =
    some { m with mem := Function.update m.mem (m.fl.frame b)
                    (clearTo (m.mem (m.fl.frame b)) 519) } := by
  have hnt := mapped_not_table hinv hu h0 hb
  obtain ⟨hp, f4, h4⟩ := exists_table h0
  have hleaf := leaf_of_table hp h4
  rw [← path3_eq] at h4
  have hodd : leaf m.mem k (s, pageOf v) % 2 = 1 := hinv.leaves.odd h0
  have hne : f4 ≠ m.fl.frame b := by
    rintro rfl
    exact hnt ⟨_, _, hs.validPath3, h4⟩
  refine zeroWords_eq (n := 511) hv (by decide) (by decide) ?_
  intro mem' hmem' x hx
  have hidx := (pIndex_add hv hx).2.2.2
  have hcell : word mem' f4 (p4Index v) = leaf m.mem k (s, pageOf v) := by
    rw [word_congr (hmem' f4 hne), hleaf, pIndex_pageOf.2.2.2]
  have hpath := frameOf_path hinv.tables hr (hs.add hv hx) mem' m.fl (m.fl.frame b)
    ((path3_add hv hx).symm ▸ h4) (fun l hl hf => hnt ⟨_, l, hl, hf⟩)
    (mapped_not_root hinv hcur hu h0 hb) (fun f j hf _ => word_congr (hmem' f hf))
    (by rw [hidx, hcell]; exact hodd)
  rw [hidx, hcell, hb] at hpath
  exact hpath

include hr hs

/-- The last steps of `unmap_phyaddr`, once the free list and the page are as they will be. -/
theorem unmapStore (mem' : Nat → Nat → Nat) {fl' : FreeList} (hfree : FreeInv fl')
    (hfm : fl'.freeMemory = m.fl.freeMemory)
    (hblocks : fl'.blocks = if m.fl.refCount b = 1 then b :: m.fl.blocks else m.fl.blocks)
    (hrc : fl'.refCount = Function.update m.fl.refCount b (m.fl.refCount b - 1))
    (hmem : ∀ f, f ≠ m.fl.frame b → mem' f = m.mem f)
    (hpage : mem' (m.fl.frame b) =
      if m.fl.refCount b = 1 then clearTo (m.mem (m.fl.frame b)) 519 else m.mem (m.fl.frame b)) :
    ∃ m', (Machine.mk mem' m.cr3 fl').store64 (leafAddr v) 0 = some m' ∧
      Unmapped k m m' (s, pageOf v) b ∧ PageInv k m' noRes ∧ RootInv k m' := by
  have hnw := hu.not_window
  have hnt := mapped_not_table hinv hu h0 hb
  have hnr := mapped_not_root hinv hcur hu h0 hb
  obtain ⟨-, f4, h4⟩ := exists_table h0
  rw [← path3_eq] at h4
  have hfr : ∀ x, fl'.frame x = m.fl.frame x := FreeList.frame_congr hfm
  have hfree' : ∀ f, fl'.IsFree f → m.fl.IsFree f ∨ f = m.fl.frame b := by
    rintro f ⟨x, hx, rfl⟩
    rw [hblocks] at hx
    rw [hfr]
    split_ifs at hx
    · rcases List.mem_cons.mp hx with rfl | hx
      · exact .inr rfl
      · exact .inl ⟨x, hx, rfl⟩
    · exact .inl ⟨x, hx, rfl⟩
  have hagree : ∀ f, IsTable m.mem k f → mem' f = m.mem f :=
    fun f hf => hmem f fun he => hnt (he ▸ hf)
  obtain ⟨htab, hleaf⟩ := tables_of_agree hagree
  have hinv' : TableInv k mem' fl' := by
    refine (hinv.tables.agree hagree).refree fun f hf hfr => ?_
    rw [isTable_congr htab] at hf
    rcases hfree' f hfr with hfr | rfl
    · exact hinv.tables.notFree f hf hfr
    · exact hnt hf
  have hr' : RootInv k (Machine.mk mem' m.cr3 fl') := by
    refine hr.congr rfl (fun j _ => word_congr (hmem _ hnr.symm)) (htab none) fun hf => ?_
    rcases hfree' _ hf with hf | he
    · exact hr.notFree hf
    · exact hnr he.symm
  have hs' : InSpace k (Machine.mk mem' m.cr3 fl') v s := hs.congr rfl htab
  obtain ⟨m', hstore, hls⟩ := store64_leafAddr_spec (w := 0) hinv' hr' hs'
    ((htab _ _ hs.validPath3).trans h4) (fun h => absurd h hnw) (by decide)
  have htab' : ∀ s l, ValidPath s l → tableAt m'.mem k s l = tableAt m.mem k s l :=
    fun s l hl => (hls.tables s l hl).trans (htab s l hl)
  have hleaf' : leaf m'.mem k = Function.update (leaf m.mem k) (s, pageOf v) 0 := by
    rw [hls.leaf]
    exact congrArg (fun x => Function.update x _ _) hleaf
  have hframes : ∀ f, ¬ IsTable m.mem k f → m'.mem f = mem' f :=
    fun f hf => hls.frames f fun ht => hf ((isTable_congr htab).mp ht)
  have hfl : m'.fl = fl' := hls.fl
  refine ⟨m', hstore, ⟨hls.cr3, ?_, ?_, ?_, htab', hleaf', ?_, ?_⟩, ⟨?_, hls.inv, ?_⟩, hls.root⟩
  · rw [hfl, hfm]
  · rw [hfl, hblocks]
  · rw [hfl, hrc]
  · exact fun f hf hne => (hframes f hf).trans (hmem f hne)
  · rw [hframes _ hnt, hpage]
  · rw [hfl]
    exact hfree
  · rw [hleaf', hfl]
    exact (hinv.leaves.unmap h0 hb hfm hrc).retable
      fun f hf => .inl ((isTable_congr htab').mp hf)

include hlt hb0

/-- `unmap_phyaddr` at a mapped user page. -/
theorem unmapPhyaddr_spec (hv : v % 4096 = 0) :
    ∃ m', m.unmapPhyaddr v = some m' ∧ Unmapped k m m' (s, pageOf v) b ∧
      PageInv k m' noRes ∧ RootInv k m' := by
  have hnb : b ∉ m.fl.blocks := fun hmem => mapped_not_free hinv h0 hb ⟨b, hmem, rfl⟩
  have hpos := hinv.leaves.count_pos hlt h0 hb
  obtain ⟨hp, f4, h4⟩ := exists_table h0
  rw [← path3_eq] at h4
  have hodd : leaf m.mem k (s, pageOf v) % 2 = 1 := hinv.leaves.odd h0
  have hidx : ∀ fl' : FreeList, fl'.freeMemory = m.fl.freeMemory →
      fl'.blockindex (leaf m.mem k (s, pageOf v)) = some b := by
    intro fl' hfm
    refine FreeList.blockindex_eq hlt ?_
    rw [hb]
    exact (FreeList.frame_congr hfm b).symm
  rw [unmapPhyaddr_mapped hinv.tables hr hs h0, unmapLeaf,
    load64_leafAddr hinv.tables hr hs h4]
  simp only [Option.bind_eq_bind, Option.bind_some, Nat.and_one_is_mod, hodd, Option.pure_def,
    FreeList.getReferenceCount, FreeList.decrementReferenceCount, FreeList.freePage, hidx _ rfl,
    Option.map_some, one_ne_zero, if_false]
  by_cases h1 : m.fl.refCount b = 1
  · obtain ⟨hfree, hblocks⟩ := hinv.free.push hnb hlt hb0
    obtain ⟨m', hstore, hres⟩ := unmapStore hinv hr hcur hs hu h0 hb
      (Function.update m.mem (m.fl.frame b) (clearTo (m.mem (m.fl.frame b)) 519))
      hfree rfl (by rw [hblocks, if_pos h1]) (by rw [h1])
      (fun f hf => Function.update_of_ne hf _ _) (by rw [Function.update_self, if_pos h1])
    refine ⟨m', ?_, hres⟩
    rw [if_pos h1, zeroWords_mapped hinv hr hcur hs hu h0 hb hv]
    simp only [Option.bind_some, Option.map_some, hidx, h1]
    exact hstore
  · obtain ⟨hfree, hblocks⟩ := hinv.free.setCount (c := m.fl.refCount b - 1) hnb
    obtain ⟨m', hstore, hres⟩ := unmapStore hinv hr hcur hs hu h0 hb m.mem hfree rfl
      (by rw [hblocks, if_neg h1]) rfl (fun f _ => rfl) (by rw [if_neg h1])
    refine ⟨m', ?_, hres⟩
    rw [if_neg h1, if_neg (show ¬ m.fl.refCount b < 1 by omega)]
    exact hstore

end

end Machine

end Sbunix
