import Sbunix.Sys.Proofs.LeafOps
import Sbunix.Sys.Proofs.PageTree

/-!
# One mapping, one translation

`map_phyaddr` at a page that is not mapped, over any tables in which no other path leads
to the table it fills first: `mapPhyaddr_one`.
-/

namespace Sbunix

variable {m m' m'' : Machine} {r v f g i n : Nat} {l : List Nat}

/-- `m'` is `m` after entries on the way to `v` have been filled. -/
structure Filled (m m' : Machine) (v : Nat) : Prop where
  cr3 : m'.cr3 = m.cr3
  inv : TreeInv m'.mem (m.cr3 / 4096) v
  walks : ∀ q, p1Index q ≠ 510 → pageOf q ≠ pageOf v →
    walk m'.mem m.cr3 q = walk m.mem m.cr3 q
  tables : ∀ l f, OutsidePath 3 l → tableFrom m.mem (m.cr3 / 4096) l = some f →
    tableFrom m'.mem (m.cr3 / 4096) l = some f
  words : ∀ l f j, OutsidePath 3 l → tableFrom m.mem (m.cr3 / 4096) l = some f →
    word m.mem f j ≠ 0 → word m'.mem f j = word m.mem f j
  created : ∀ i l f, i :: l <:+ way4 v → tableFrom m.mem (m.cr3 / 4096) (i :: l) = none →
    tableFrom m'.mem (m.cr3 / 4096) l = some f → word m'.mem f i ≠ 0 → word m'.mem f i % 8 = 7

namespace Filled

theorem refl (h510 : p1Index v ≠ 510) (h : TreeInv m.mem (m.cr3 / 4096) v) : Filled m m v := by
  refine ⟨rfl, h, fun _ _ _ => rfl, fun _ _ _ hf => hf, fun _ _ _ _ _ _ => rfl, ?_⟩
  intro i l f hl hnone hf hne
  have hlt := ((outsidePath_way4 h510).suffix hl).head_lt
  rw [tableFrom_cons_of hf hlt hne] at hnone
  exact absurd hnone (by simp)

theorem trans (h510 : p1Index v ≠ 510) (h : Filled m m' v) (h' : Filled m' m'' v) :
    Filled m m'' v := by
  obtain ⟨hcr3, hinv, hwalks, htables, hwords, hcreated⟩ := h'
  rw [h.cr3] at hinv hwalks htables hwords hcreated
  refine ⟨hcr3.trans h.cr3, hinv, fun q hq hne => (hwalks q hq hne).trans (h.walks q hq hne),
    fun l f hl hf => htables l f hl (h.tables l f hl hf), ?_, ?_⟩
  · intro l f j hl hf hne
    have hw := h.words l f j hl hf hne
    rw [hwords l f j hl (h.tables l f hl hf) (hw.symm ▸ hne), hw]
  · intro i l f hl hnone hf hne
    have hout := (outsidePath_way4 h510).suffix hl
    cases hmid : tableFrom m'.mem (m.cr3 / 4096) (i :: l) with
    | none => exact hcreated i l f hl hmid hf hne
    | some g =>
        -- the entry was filled in the first part, and the second keeps it
        obtain ⟨f', hf', -, hne', -⟩ := exists_tableFrom_tail hmid
        obtain rfl : f' = f := Option.some.inj ((htables l f' hout.tail hf').symm.trans hf)
        rw [hwords l f' i hout.tail hf' hne']
        exact h.created i l f' hl hnone hf' hne'

/-- One entry filled. -/
theorem of_fill (h510 : p1Index v ≠ 510) (hinv : TreeInv m.mem (m.cr3 / 4096) v)
    (hl : i :: l <:+ way4 v) (hf : tableFrom m.mem (m.cr3 / 4096) l = some f)
    (h0 : word m.mem f i = 0) (hg : ¬ InUse m.mem (m.cr3 / 4096) g) (hcr3 : m'.cr3 = m.cr3)
    (hnew : word m'.mem f i = g * 4096 + 7)
    (hother : ∀ f' j, f' ≠ g → ¬ (f' = f ∧ j = i) → word m'.mem f' j = word m.mem f' j)
    (hzero : (i :: l).length ≤ 3 → ∀ j < 512, word m'.mem g j = 0) : Filled m m' v := by
  refine ⟨hcr3, fill_inv h510 hinv hl hf h0 hg hnew hother hzero, ?_, ?_, ?_, ?_⟩
  · exact fun q hq hne => fill_walk hinv hl hf h0 hg hnew hother hzero rfl hq fun _ => hne
  · intro l' f' hl' hf'
    rw [fill_tables h510 hinv hl hf h0 hg hnew hother hzero hl', if_neg]
    · exact hf'
    · rintro rfl
      rw [tableFrom_cons, hf, Option.bind_some, child_eq_none h0] at hf'
      exact absurd hf' (by simp)
  · intro l' f' j hl' hf' hne
    refine hother f' j (fill_ne hg (hl'.mono (by have := hl'.1; omega)) hf') ?_
    rintro ⟨rfl, rfl⟩
    exact hne h0
  · intro j l' f' hsuf hnone hf' hne
    have hout := (outsidePath_way4 h510).suffix hsuf
    obtain ⟨hf₀, hw | ⟨rfl, -, rfl⟩⟩ :=
      fill_word h510 hinv hl hf h0 hg hnew hother hzero hout.tail hf' hout.head_lt hne
    · rw [tableFrom_cons_of hf₀ hout.head_lt (hw ▸ hne)] at hnone
      exact absurd hnone (by simp)
    · omega

end Filled

theorem Fresh.mono {used used' : Nat → Prop} {fl : FreeList} (hu : ∀ f, used' f → used f)
    (h : Fresh used n fl) : Fresh used' n fl := by
  induction n generalizing used used' fl with
  | zero => trivial
  | succ n ih =>
      obtain ⟨p, fl', hg, hp, h0, hnot, hrest⟩ := h
      exact ⟨p, fl', hg, hp, h0, fun h => hnot (hu _ h), ih (fun f => Or.imp_left (hu f)) hrest⟩

theorem Fresh.pred {used : Nat → Prop} {fl : FreeList} (h : Fresh used (n + 1) fl) :
    Fresh used n fl := by
  induction n generalizing used fl with
  | zero => trivial
  | succ n ih =>
      obtain ⟨p, fl', hg, hp, h0, hnot, hrest⟩ := h
      exact ⟨p, fl', hg, hp, h0, hnot, ih hrest⟩

theorem FreeList.getPage_lt {fl fl' : FreeList} {p : Nat} (h : fl.getPage = some (p, fl')) :
    p / 4096 < 2 ^ 52 := by
  have hlt : p < 2 ^ 64 := by
    unfold FreeList.getPage at h
    split_ifs at h <;>
    · simp only [Option.some.injEq, Prod.mk.injEq] at h
      rw [← h.1]
      exact Nat.mod_lt _ (by decide)
  omega

section

variable (h510 : p1Index v ≠ 510) (hinv : TreeInv m.mem (m.cr3 / 4096) v)

include h510 hinv

/-- One level of `map_phyaddr`: the entry for the way `i :: l` is filled when it is empty. -/
theorem ensureTable_filled {tbl chld : Nat} (hfresh : Fresh (InUse m.mem (m.cr3 / 4096)) (n + 1) m.fl)
    (hl : i :: l <:+ way4 v) (hlen : l.length < 3)
    (hf : tableFrom m.mem (m.cr3 / 4096) l = some f) (htbl : tbl % 4096 = 0)
    (hchld : chld % 4096 = 0) (hfr : m.frameOf (tbl + 8 * i) = some f)
    (hcfr : ∀ mem' fl' g, SelfMap mem' (m.cr3 / 4096) → Way mem' (m.cr3 / 4096) (i :: l) g →
      ∀ x < 4096, (Machine.mk mem' m.cr3 fl').frameOf (chld + x) = some g) :
    ∃ m', m.ensureTable tbl i chld = some m' ∧ Filled m m' v ∧
      walk m'.mem m.cr3 v = walk m.mem m.cr3 v ∧ Fresh (InUse m'.mem (m.cr3 / 4096)) n m'.fl ∧
      ∃ g, tableFrom m'.mem (m.cr3 / 4096) (i :: l) = some g := by
  have hout := fill_outside h510 hl
  have hi := hout.head_lt
  by_cases h0 : word m.mem f i = 0
  · obtain ⟨p, fl', hget, hp, -, hg, hrest⟩ := hfresh
    have hlt := FreeList.getPage_lt hget
    have hne : f ≠ p / 4096 := fill_ne hg (hout.tail.mono (by omega)) hf
    have hens := Machine.ensureTable_page hget hp hlt hne hfr htbl hchld hi h0
      fun mem' hother hnew => hcfr mem' fl' (p / 4096)
        (fill_self hinv hl hf h0 hg hother) (fill_way_new h510 hinv hl hf h0 hg hnew hother)
    have hnew : word (linkMem m.mem f i (p / 4096)) f i = p / 4096 * 4096 + 7 :=
      linkMem_self hlt hne
    have hother : ∀ f' j, f' ≠ p / 4096 → ¬ (f' = f ∧ j = i) →
        word (linkMem m.mem f i (p / 4096)) f' j = word m.mem f' j :=
      fun f' j hf' hcell => linkMem_other hlt hf' hcell
    have hzero : (i :: l).length ≤ 3 →
        ∀ j < 512, word (linkMem m.mem f i (p / 4096)) (p / 4096) j = 0 :=
      fun _ j hj => linkMem_new hj
    refine ⟨_, hens, Filled.of_fill h510 hinv hl hf h0 hg rfl hnew hother hzero,
      fill_walk hinv hl hf h0 hg hnew hother hzero rfl h510 fun h4 => ?_, ?_, p / 4096, ?_⟩
    · rw [List.length_cons] at h4
      omega
    · exact hrest.mono fun f' hf' => fill_inUse h510 hinv hl hf h0 hg hnew hother hzero hf'
    · rw [fill_tables h510 hinv hl hf h0 hg hnew hother hzero (hout.mono (by simpa using hlen)),
        if_pos rfl]
  · exact ⟨m, Machine.ensureTable_present hfr htbl hi h0, Filled.refl h510 hinv, rfl,
      hfresh.pred, _, tableFrom_cons_of hf hi h0⟩

/-- The first three levels. -/
theorem ensureTables_filled (hfresh : Fresh (InUse m.mem (m.cr3 / 4096)) 4 m.fl) :
    ∃ m', m.ensureTables v = some m' ∧ Filled m m' v ∧
      walk m'.mem m.cr3 v = walk m.mem m.cr3 v ∧
      Fresh (InUse m'.mem (m.cr3 / 4096)) 1 m'.fl ∧
      ∃ g, tableFrom m'.mem (m.cr3 / 4096) (way3 v) = some g := by
  have hout := outsidePath_way4 h510
  obtain ⟨h1, h2, h3, -⟩ := pIndex_lt v
  have hsuf3 : way3 v <:+ way4 v := List.suffix_cons _ _
  have hsuf2 : way2 v <:+ way4 v := (List.suffix_cons _ _).trans hsuf3
  have hsuf1 : way1 v <:+ way4 v := (List.suffix_cons _ _).trans hsuf2
  obtain ⟨m₁, he₁, hfill₁, hwalk₁, hfr₁, f₁, hf₁⟩ := ensureTable_filled h510 hinv hfresh hsuf1
    (by decide) tableFrom_nil p1Table_aligned p2Table_aligned
    (Machine.frameOf_p1Table hinv.self (by omega))
    fun mem' fl' g hself hway x hx => Machine.frameOf_way1 hself hx hway
  have hcr3₁ := hfill₁.cr3
  have hinv₁ := hfill₁.inv
  rw [← hcr3₁] at hinv₁ hfr₁ hf₁
  obtain ⟨m₂, he₂, hfill₂, hwalk₂, hfr₂, f₂, hf₂⟩ := ensureTable_filled h510 hinv₁ hfr₁ hsuf2
    (by simp [way1]) hf₁ p2Table_aligned p3Table_aligned
    (Machine.frameOf_way1 hinv₁.self (by omega) (hinv₁.present.way (hout.suffix hsuf1) hf₁))
    fun mem' fl' g hself hway x hx => Machine.frameOf_way2 hself hx hway
  have hcr3₂ := hfill₂.cr3
  have hinv₂ := hfill₂.inv
  rw [← hcr3₂] at hinv₂ hfr₂ hf₂
  obtain ⟨m₃, he₃, hfill₃, hwalk₃, hfr₃, f₃, hf₃⟩ := ensureTable_filled h510 hinv₂ hfr₂ hsuf3
    (by simp [way2, way1]) hf₂ p3Table_aligned p4Table_aligned
    (Machine.frameOf_way2 hinv₂.self (by omega) (hinv₂.present.way (hout.suffix hsuf2) hf₂))
    fun mem' fl' g hself hway x hx => Machine.frameOf_way3 hself hx hway
  refine ⟨m₃, ?_, (hfill₁.trans h510 hfill₂).trans h510 hfill₃, ?_, ?_, f₃, ?_⟩
  · rw [ensureTables_eq, he₁, Option.bind_some, he₂, Option.bind_some, he₃]
  · rw [← hwalk₁, ← hcr3₁, ← hwalk₂, ← hcr3₂, hwalk₃]
  · rw [← hcr3₁, ← hcr3₂]
    exact hfr₃
  · rw [← hcr3₁, ← hcr3₂]
    exact hf₃

end

/-- `get_phys_addr` reads the last entry of the walk. -/
theorem Machine.getPhysAddr_walk {w : Walk} (hs : SelfMap m.mem (m.cr3 / 4096))
    (hw : walk m.mem m.cr3 v = some w) : m.getPhysAddr v = some w.e4 := by
  obtain ⟨h1, h2, h3, h4⟩ := pIndex_lt v
  unfold walk at hw
  dsimp only at hw
  split_ifs at hw with o1 o2 o3 o4
  obtain rfl := Option.some.inj hw
  have l1 : m.load64 (p1Table baseInit + 8 * p1Index v) = some _ :=
    load64_entry (frameOf_p1Table hs (by omega)) p1Table_aligned h1
  have l2 : m.load64 (p2Table baseInit v + 8 * p2Index v) = some _ :=
    load64_entry (frameOf_p2Table hs (by omega) (by omega)) p2Table_aligned h2
  have l3 : m.load64 (p3Table baseInit v + 8 * p3Index v) = some _ :=
    load64_entry (frameOf_p3Table hs (by omega) (by omega) (by unfold t2; omega)) p3Table_aligned h3
  have l4 : m.load64 (leafAddr v) = some _ :=
    load64_entry (frameOf_p4Table hs (by omega) (by omega) (by unfold t2; omega)
      (by unfold t3 t2; omega)) p4Table_aligned h4
  rw [getPhysAddr, l1, l2, l3, l4]
  simp only [Option.bind_eq_bind, Option.bind_some]
  rw [if_neg (by omega), if_neg (by unfold t2; omega), if_neg (by unfold t3 t2; omega)]
  rfl

/-- The last level, at an empty entry. -/
theorem mapLeaf_filled (h510 : p1Index v ≠ 510) (hinv : TreeInv m.mem (m.cr3 / 4096) v)
    (hfresh : Fresh (InUse m.mem (m.cr3 / 4096)) 1 m.fl) (hv : v % 4096 = 0)
    (hf : tableFrom m.mem (m.cr3 / 4096) (way3 v) = some f) (h0 : word m.mem f (p4Index v) = 0) :
    ∃ p m', m.mapLeaf v = some (p, m') ∧ Filled m m' v ∧ word m'.mem f (p4Index v) % 8 = 7 := by
  obtain ⟨p, fl', hget, hp, -, hg, -⟩ := hfresh
  have hout := outsidePath_way4 h510
  have hl : p4Index v :: way3 v <:+ way4 v := List.suffix_rfl
  have hlt := FreeList.getPage_lt hget
  have hw : p / 4096 * 4096 + 7 < 2 ^ 64 := by omega
  have hne : f ≠ p / 4096 := fill_ne hg (hout.tail.mono (by have := hout.tail.1; omega)) hf
  have hsuf : way3 v <:+ way4 v := List.suffix_cons _ _
  have hleaf := Machine.mapLeaf_page hget hp hlt hne hv
    (Machine.frameOf_way3 hinv.self (by have := (pIndex_lt v).2.2.2; omega)
      (hinv.present.way (hout.suffix hsuf) hf)) (by rw [h0])
    (fun mem' hother hnew x hx => by
      have hway := fill_way_new h510 hinv hl hf h0 hg hnew hother
      rw [← way4, ← way4_add hv hx] at hway
      exact Machine.frameOf_way (m := ⟨mem', m.cr3, fl'⟩) hway)
  have hnew : word (Function.update (Function.update m.mem f
      (wr64 (m.mem f) (8 * p4Index v) (p / 4096 * 4096 + 7))) (p / 4096)
      (clearTo (m.mem (p / 4096)) 519)) f (p4Index v) = p / 4096 * 4096 + 7 := by
    rw [word_congr (Function.update_of_ne hne _ _), word_store hw, if_pos ⟨rfl, rfl⟩]
  refine ⟨p, _, hleaf, Filled.of_fill h510 hinv hl hf h0 hg rfl hnew ?_ ?_, by rw [hnew]; omega⟩
  · intro f' j hf' hcell
    rw [word_congr (Function.update_of_ne hf' _ _), word_store hw, if_neg hcell]
  · intro hlen
    simp [way3, way2, way1] at hlen

/-- `map_phyaddr` at a page that is not mapped: the page is then mapped, with the user and
write bits in every entry that was made, and every other page is translated as before. -/
theorem mapPhyaddr_one (hself : SelfMap m.mem (m.cr3 / 4096))
    (hpresent : Present m.mem (m.cr3 / 4096)) (hsole : SoleWay m.mem (m.cr3 / 4096) v)
    (hv : v % 4096 = 0) (h510 : p1Index v ≠ 510) (hnone : walk m.mem m.cr3 v = none)
    (hfresh : Fresh (InUse m.mem (m.cr3 / 4096)) 4 m.fl) :
    ∃ p m' w, m.mapPhyaddr v = some (p, m') ∧ m'.cr3 = m.cr3 ∧
      walk m'.mem m'.cr3 v = some w ∧
      (tableFrom m.mem (m.cr3 / 4096) (way1 v) = none → w.e1 % 8 = 7) ∧
      (tableFrom m.mem (m.cr3 / 4096) (way2 v) = none → w.e2 % 8 = 7) ∧
      (tableFrom m.mem (m.cr3 / 4096) (way3 v) = none → w.e3 % 8 = 7) ∧ w.e4 % 8 = 7 ∧
      (∃ e, m'.getPhysAddr v = some e ∧ e / 4096 = w.e4 / 4096) ∧
      ∀ q, p1Index q ≠ 510 → pageOf q ≠ pageOf v → walk m'.mem m'.cr3 q = walk m.mem m.cr3 q := by
  obtain ⟨m₁, he, hfill₁, hwalk, hfresh₁, f, hf⟩ :=
    ensureTables_filled h510 ⟨hself, hpresent, hsole⟩ hfresh
  have hcr3 := hfill₁.cr3
  have hinv₁ := hfill₁.inv
  have hout := outsidePath_way4 h510
  have hsuf3 : way3 v <:+ way4 v := List.suffix_cons _ _
  have hsuf2 : way2 v <:+ way4 v := (List.suffix_cons _ _).trans hsuf3
  have hsuf1 : way1 v <:+ way4 v := (List.suffix_cons _ _).trans hsuf2
  -- the page was not mapped before, nor did the new tables map it
  have h0 : word m₁.mem f (p4Index v) = 0 := by
    by_contra h0
    obtain ⟨w, hw, -⟩ := (hinv₁.present.way hout (tableFrom_cons_of hf hout.head_lt h0)).walk
    rw [hwalk, hnone] at hw
    exact absurd hw (by simp)
  rw [← hcr3] at hinv₁ hfresh₁
  obtain ⟨p, m₂, hleaf, hfill₂, hnew⟩ := mapLeaf_filled h510 hinv₁ hfresh₁ hv (hcr3.symm ▸ hf) h0
  have hfill := hfill₁.trans h510 hfill₂
  have hpres := hfill.inv.present
  have hf₂ : tableFrom m₂.mem (m.cr3 / 4096) (way3 v) = some f := by
    rw [← hcr3]
    exact hfill₂.tables _ f hout.tail (hcr3.symm ▸ hf)
  obtain ⟨f3, hf3, h3, hn3, rfl⟩ := exists_tableFrom_tail hf₂
  obtain ⟨f2, hf2, h2, hn2, rfl⟩ := exists_tableFrom_tail hf3
  obtain ⟨f1, hf1, h1, hn1, rfl⟩ := exists_tableFrom_tail hf2
  obtain rfl : m.cr3 / 4096 = f1 := Option.some.inj hf1
  have ho3 : OutsidePath 3 (way2 v) := (hout.suffix hsuf2).mono (by simp [way2, way1])
  have ho2 : OutsidePath 3 (way1 v) := (hout.suffix hsuf1).mono (by simp [way1])
  have o1 := hpres _ _ _ outsidePath_nil hf1 h1 hn1
  have o2 := hpres _ _ _ ho2 hf2 h2 hn2
  have o3 := hpres _ _ _ ho3 hf3 h3 hn3
  obtain ⟨w, hw, hw1, hw2, hw3, hw4⟩ : ∃ w : Walk, walk m₂.mem m.cr3 v = some w ∧
      w.e1 = word m₂.mem (m.cr3 / 4096) (p1Index v) ∧ w.e2 = word m₂.mem _ (p2Index v) ∧
      w.e3 = word m₂.mem _ (p3Index v) ∧ w.e4 = word m₂.mem _ (p4Index v) :=
    ⟨_, walk_eq rfl rfl rfl rfl ⟨o1, o2, o3, by omega⟩, rfl, rfl, rfl, rfl⟩
  refine ⟨p, m₂, w, ?_, hfill.cr3, ?_, ?_, ?_, ?_, ?_, ⟨w.e4, ?_, rfl⟩, ?_⟩
  · rw [Machine.mapPhyaddr, he, Option.bind_eq_bind, Option.bind_some, hleaf]
  · rw [hfill.cr3, hw]
  · rw [hw1]
    exact fun hn => hfill.created _ _ _ hsuf1 hn hf1 hn1
  · rw [hw2]
    exact fun hn => hfill.created _ _ _ hsuf2 hn hf2 hn2
  · rw [hw3]
    exact fun hn => hfill.created _ _ _ hsuf3 hn hf3 hn3
  · rw [hw4, hnew]
  · refine Machine.getPhysAddr_walk ?_ ?_
    · rw [hfill.cr3]
      exact hfill.inv.self
    · rw [hfill.cr3, hw]
  · rw [hfill.cr3]
    exact hfill.walks

/-! ## Small page tables -/

/-- Memory with the given entries, the latest first, and zero elsewhere. -/
def wordsMem : List (Nat × Nat × Nat) → Nat → Nat → Nat
  | [] => fun _ _ => 0
  | (f, i, w) :: es => Function.update (wordsMem es) f (wr64 (wordsMem es f) (8 * i) w)

/-- A machine with the PML4 in frame 1 and the blocks from 10 on free. -/
def wordsMachine (es : List (Nat × Nat × Nat)) : Machine :=
  ⟨wordsMem es, 4096, ⟨0, (· + 1), fun _ => 0, 10, 100, 0, 0⟩⟩

theorem word_wordsMem_nil : word (wordsMem []) f i = 0 := rd64_zero fun _ _ => rfl

theorem word_wordsMem_cons {es : List (Nat × Nat × Nat)} {f' j w : Nat} (hw : w < 2 ^ 64) :
    word (wordsMem ((f', j, w) :: es)) f i = if f = f' ∧ i = j then w else word (wordsMem es) f i :=
  word_store hw

/-- What holds of zero and of the given entries holds of all of them. -/
theorem word_wordsMem {P : Nat → Prop} {es : List (Nat × Nat × Nat)} (h0 : P 0)
    (h : ∀ e ∈ es, e.2.2 < 2 ^ 64 ∧ P e.2.2) : P (word (wordsMem es) f i) := by
  induction es with
  | nil => rwa [word_wordsMem_nil]
  | cons e es ih =>
      obtain ⟨hw, hP⟩ := h e List.mem_cons_self
      rw [word_wordsMem_cons hw]
      split_ifs
      · exact hP
      · exact ih fun e he => h e (List.mem_cons_of_mem _ he)

theorem Present.of_words {mem : Nat → Nat → Nat}
    (h : ∀ f i, word mem f i ≠ 0 → word mem f i % 2 = 1) : Present mem r :=
  fun _ f i _ _ _ hne => h f i hne

theorem le_of_tableFrom {mem : Nat → Nat → Nat} (hr : r ≤ n)
    (h : ∀ f i, word mem f i / 4096 ≤ n) (hf : tableFrom mem r l = some f) : f ≤ n := by
  cases l with
  | nil =>
      obtain rfl : r = f := Option.some.inj hf
      exact hr
  | cons i l =>
      obtain ⟨f', -, -, -, rfl⟩ := exists_tableFrom_tail hf
      exact h f' i

theorem FreeList.getPage_blocks {b : Nat} {fl : FreeList} (hfm : fl.freeMemory = 0)
    (hnext : fl.next = (· + 1)) (hhead : fl.headFreelist = b) (htot : 5 ≤ fl.totalblockcount)
    (hb : b ≠ 0) (hlt : b < 2 ^ 52) :
    ∃ fl', fl.getPage = some (b * 4096, fl') ∧ fl'.freeMemory = 0 ∧ fl'.next = (· + 1) ∧
      fl'.headFreelist = b + 1 ∧ fl'.totalblockcount = fl.totalblockcount - 1 := by
  have hpage : (0 + b * 4096) % 2 ^ 64 = b * 4096 := by omega
  unfold FreeList.getPage
  rw [if_neg (by omega)]
  simp only [hhead, hb, if_false, hfm, hnext, hpage]
  exact ⟨_, rfl, rfl, rfl, rfl, rfl⟩

/-- The blocks from `b` on are free, in their order. -/
theorem fresh_blocks {used : Nat → Prop} {b : Nat} {fl : FreeList} (hfm : fl.freeMemory = 0)
    (hnext : fl.next = (· + 1)) (hhead : fl.headFreelist = b) (htot : n + 4 ≤ fl.totalblockcount)
    (hb : b ≠ 0) (hlt : b + n < 2 ^ 50) (hused : ∀ f, used f → f < b) : Fresh used n fl := by
  induction n generalizing used b fl with
  | zero => trivial
  | succ n ih =>
      have hdiv : b * 4096 / 4096 = b := Nat.mul_div_cancel _ (by decide)
      obtain ⟨fl', hget, hfm', hnext', hhead', htot'⟩ :=
        FreeList.getPage_blocks hfm hnext hhead (by omega) hb (by omega)
      refine ⟨_, _, hget, by omega, by omega, fun h => ?_,
        ih hfm' hnext' hhead' (by omega) (Nat.succ_ne_zero b) (by omega) ?_⟩
      · have := hused _ h
        omega
      · rintro f (h | rfl)
        · have := hused f h
          omega
        · omega

/-- The blocks from 10 on are not in use when every entry leads to a frame below 10. -/
theorem fresh_wordsMachine {es : List (Nat × Nat × Nat)}
    (h : ∀ f i, word (wordsMem es) f i / 4096 ≤ 9) :
    Fresh (InUse (wordsMachine es).mem ((wordsMachine es).cr3 / 4096)) 4 (wordsMachine es).fl := by
  refine fresh_blocks (b := 10) rfl rfl rfl (by decide : 8 ≤ 100) (by decide) (by decide) ?_
  rintro f ⟨l, -, hf⟩
  have hle : f ≤ 9 := le_of_tableFrom (show 4096 / 4096 ≤ 9 by decide) h hf
  omega

/-- Only the PML4, which maps itself. -/
def rootOnly : Machine := wordsMachine [(1, 510, 4096 + 7)]

theorem word_rootOnly : word rootOnly.mem f i = if f = 1 ∧ i = 510 then 4096 + 7 else 0 := by
  rw [rootOnly, wordsMachine, word_wordsMem_cons (by decide), word_wordsMem_nil]

theorem tableFrom_rootOnly (hl : OutsidePath n l) (hf : tableFrom rootOnly.mem 1 l = some f) :
    l = [] ∧ f = 1 := by
  induction l generalizing f with
  | nil => exact ⟨rfl, (Option.some.inj hf).symm⟩
  | cons i l ih =>
      obtain ⟨f', hf', -, hne, -⟩ := exists_tableFrom_tail hf
      obtain ⟨rfl, rfl⟩ := ih (hl.suffix (List.suffix_cons i l)) hf'
      rw [word_rootOnly] at hne
      have h510 : i = 510 := by
        by_contra h
        simp [h] at hne
      exact absurd (by simp [h510]) hl.2.2

/-- Three tables and the page are made below a PML4 that is otherwise empty. -/
theorem mapPhyaddr_one_root : ∃ p m' w, rootOnly.mapPhyaddr 0x7FFF_F000 = some (p, m') ∧
    walk m'.mem m'.cr3 0x7FFF_F000 = some w ∧ w.e1 % 8 = 7 ∧ w.e2 % 8 = 7 ∧ w.e3 % 8 = 7 ∧
      w.e4 % 8 = 7 := by
  have hne : ∀ i l, OutsidePath 4 (i :: l) → tableFrom rootOnly.mem 1 (i :: l) = none := by
    intro i l hl
    cases hf : tableFrom rootOnly.mem 1 (i :: l) with
    | none => rfl
    | some f => exact absurd (tableFrom_rootOnly hl hf).1 (by simp)
  have hout := outsidePath_way4 (v := 0x7FFF_F000) (by decide)
  obtain ⟨p, m', w, hmap, -, hw, h1, h2, h3, h4, -⟩ := mapPhyaddr_one (m := rootOnly)
    (v := 0x7FFF_F000)
    (by rw [SelfMap, show rootOnly.cr3 / 4096 = 1 from rfl, word_rootOnly]; decide)
    (Present.of_words fun f i => word_wordsMem (P := fun w => w ≠ 0 → w % 2 = 1) (by decide)
      (by decide))
    (by
      intro i l f l' hl hf _ hl' hf'
      have hl3 := (hout.suffix hl).tail
      rw [(tableFrom_rootOnly hl3 hf).1, (tableFrom_rootOnly hl' hf').1])
    (by decide) (by decide)
    (by
      unfold walk
      rw [show rootOnly.cr3 / 4096 = 1 from rfl, word_rootOnly, if_pos (by decide)])
    (fresh_wordsMachine fun f i => word_wordsMem (P := fun w => w / 4096 ≤ 9) (by decide)
      (by decide))
  have hsuf3 : way3 0x7FFF_F000 <:+ way4 0x7FFF_F000 := List.suffix_cons _ _
  have hsuf2 := (List.suffix_cons _ _ : way2 0x7FFF_F000 <:+ way3 0x7FFF_F000).trans hsuf3
  have hsuf1 := (List.suffix_cons _ _ : way1 0x7FFF_F000 <:+ way2 0x7FFF_F000).trans hsuf2
  exact ⟨p, m', w, hmap, hw, h1 (hne _ _ (hout.suffix hsuf1)), h2 (hne _ _ (hout.suffix hsuf2)),
    h3 (hne _ _ (hout.suffix hsuf3)), h4⟩

/-- Two entries of one page directory lead to the same page table. -/
def sharedTable : Machine :=
  wordsMachine [(1, 510, 4096 + 7), (1, 0, 2 * 4096 + 7), (2, 0, 3 * 4096 + 7),
    (3, 0, 4 * 4096 + 7), (3, 1, 4 * 4096 + 7)]

theorem word_sharedTable : word sharedTable.mem f i =
    if f = 1 ∧ i = 510 then 4096 + 7 else if f = 1 ∧ i = 0 then 2 * 4096 + 7
    else if f = 2 ∧ i = 0 then 3 * 4096 + 7 else if f = 3 ∧ i = 0 then 4 * 4096 + 7
    else if f = 3 ∧ i = 1 then 4 * 4096 + 7 else 0 := by
  rw [sharedTable, wordsMachine, word_wordsMem_cons (by decide), word_wordsMem_cons (by decide),
    word_wordsMem_cons (by decide), word_wordsMem_cons (by decide),
    word_wordsMem_cons (by decide), word_wordsMem_nil]

/-- Mapping page 0 there fills the first entry of the shared table. -/
theorem mapPhyaddr_sharedTable : ∃ m', sharedTable.mapPhyaddr 0 = some (10 * 4096, m') ∧
    m'.cr3 = 4096 ∧
    ∀ f j, f ≠ 10 → word m'.mem f j =
      if f = 4 ∧ j = 0 then 10 * 4096 + 7 else word sharedTable.mem f j := by
  have hroot : sharedTable.cr3 / 4096 = 1 := by decide
  have hself : SelfMap sharedTable.mem (sharedTable.cr3 / 4096) := by
    rw [SelfMap, hroot, word_sharedTable]
    decide
  have hway1 : Way sharedTable.mem 1 (way1 0) 2 := ⟨1, rfl, by rw [word_sharedTable]; decide⟩
  have hway2 : Way sharedTable.mem 1 (way2 0) 3 := ⟨2, hway1, by rw [word_sharedTable]; decide⟩
  have hway3 : Way sharedTable.mem 1 (way3 0) 4 := ⟨3, hway2, by rw [word_sharedTable]; decide⟩
  have h4 : word sharedTable.mem 4 (p4Index 0) = 0 := by
    rw [word_sharedTable]
    decide
  have htables : sharedTable.ensureTables 0 = some sharedTable := by
    rw [ensureTables_eq,
      Machine.ensureTable_present (Machine.frameOf_p1Table hself (by decide)) p1Table_aligned
        (by decide) (by rw [hroot, word_sharedTable]; decide),
      Option.bind_some,
      Machine.ensureTable_present (Machine.frameOf_way1 hself (by decide) hway1) p2Table_aligned
        (by decide) (by rw [word_sharedTable]; decide),
      Option.bind_some,
      Machine.ensureTable_present (Machine.frameOf_way2 hself (by decide) hway2) p3Table_aligned
        (by decide) (by rw [word_sharedTable]; decide)]
  obtain ⟨fl', hget, -⟩ : ∃ fl', sharedTable.fl.getPage = some (10 * 4096, fl') ∧ _ :=
    FreeList.getPage_blocks rfl rfl rfl (show 5 ≤ 100 by decide) (by decide) (by decide)
  have hleaf := Machine.mapLeaf_page (v := 0) hget
    (by decide) (by decide) (by decide) (by decide)
    (Machine.frameOf_way3 hself (by decide) hway3) (by rw [h4])
    (by
      intro mem' hother hnew x hx
      have hkeep : ∀ f i, f ≠ 10 → f ≠ 4 → word mem' f i = word sharedTable.mem f i :=
        fun f i hf hf4 => hother f i hf fun h => hf4 h.1
      have hway : Way mem' 1 (way4 (0 + x)) (10 * 4096 / 4096) := by
        rw [way4_add (by decide) hx]
        refine ⟨4, ⟨3, ⟨2, ⟨1, rfl, ?_⟩, ?_⟩, ?_⟩, ?_⟩
        · rw [hkeep _ _ (by decide) (by decide), word_sharedTable]
          decide
        · rw [hkeep _ _ (by decide) (by decide), word_sharedTable]
          decide
        · rw [hkeep _ _ (by decide) (by decide), word_sharedTable]
          decide
        · rw [hnew]
          decide
      refine Machine.frameOf_way (m := ⟨mem', sharedTable.cr3, fl'⟩) ?_
      show Way mem' (sharedTable.cr3 / 4096) _ _
      rw [hroot]
      exact hway)
  refine ⟨_, by rw [Machine.mapPhyaddr, htables, Option.bind_eq_bind, Option.bind_some, hleaf],
    rfl, ?_⟩
  intro f j hf
  show word (Function.update _ (10 * 4096 / 4096) _) f j = _
  rw [word_congr (Function.update_of_ne hf _ _), word_store (by decide)]
  rfl

/-- The page whose table is shared becomes mapped as well. -/
theorem mapPhyaddr_shared : ¬ ∀ (m : Machine) (v : Nat), SelfMap m.mem (m.cr3 / 4096) →
    Present m.mem (m.cr3 / 4096) → v % 4096 = 0 → p1Index v ≠ 510 →
    walk m.mem m.cr3 v = none → Fresh (InUse m.mem (m.cr3 / 4096)) 4 m.fl →
    ∃ p m', m.mapPhyaddr v = some (p, m') ∧ ∀ q, p1Index q ≠ 510 → pageOf q ≠ pageOf v →
      walk m'.mem m'.cr3 q = walk m.mem m.cr3 q := by
  intro h
  have hnone : ∀ q, (way4 q).reverse = [0, 0, 0, 0] ∨ (way4 q).reverse = [0, 0, 1, 0] →
      walk sharedTable.mem sharedTable.cr3 q = none := by
    rintro q (hq | hq) <;>
    · rw [walk_eq_entries, hq, show sharedTable.cr3 / 4096 = 1 by decide]
      simp [entries, word_sharedTable]
  obtain ⟨p, m, hmap, hwalk⟩ := h sharedTable 0
    (by rw [SelfMap, show sharedTable.cr3 / 4096 = 1 from rfl, word_sharedTable]; decide)
    (Present.of_words fun f i => word_wordsMem (P := fun w => w ≠ 0 → w % 2 = 1) (by decide)
      (by decide))
    (by decide) (by decide) (hnone 0 (.inl (by decide)))
    (fresh_wordsMachine fun f i => word_wordsMem (P := fun w => w / 4096 ≤ 9) (by decide)
      (by decide))
  obtain ⟨m', hmap', hcr3, hwords⟩ := mapPhyaddr_sharedTable
  obtain ⟨-, rfl⟩ := Prod.mk.inj (Option.some.inj (hmap.symm.trans hmap'))
  have hq := hwalk (2 ^ 21) (by decide) (by decide)
  rw [hnone _ (.inr (by decide)), walk_eq_entries, hcr3,
    show (way4 (2 ^ 21)).reverse = [0, 0, 1, 0] by decide] at hq
  simp [entries, hwords, word_sharedTable] at hq

end Sbunix
