import Sbunix.Sys.Proofs.LeafOps

/-!
# A new PML4

`mappageTable` maps a frame in the window of a slot, clears its user half and makes it
map itself and the kernel half; a PML4 that is already there is emptied.
-/

namespace Sbunix

variable {k : Nat} {m m' m₂ : Machine} {c f4 g pa w : Nat}

/-- The words of a fresh PML4. -/
def pml4Page' (b : Nat → Nat) (k g : Nat) : Nat → Nat :=
  wr64 (wr64 (clearTo b 4080) 4088 (k * 4096 + 7)) 4080 (g * 4096 + 7)

theorem inSpace_window (hc : c < procSize) : InSpace k m (upml4 - 4096 * c) none := by
  have hlt : c < 100 := hc
  show p1Index (upml4 - 4096 * c) = 511
  rw [p1Index_eq]
  unfold upml4 kernmem
  omega

theorem window_aligned (hc : c < procSize) : (upml4 - 4096 * c) % 4096 = 0 := by
  have hlt : c < 100 := hc
  unfold upml4 kernmem
  omega

/-- `m'` is `m` after the slot `c` has got the empty PML4 `g`; the blocks `P` have left the
free list. -/
structure Created (k : Nat) (m m' : Machine) (c g : Nat) (P : List Nat) : Prop where
  cr3 : m'.cr3 = m.cr3
  freeMemory : m'.fl.freeMemory = m.fl.freeMemory
  blocks : m.fl.blocks = P ++ m'.fl.blocks
  refs : ∀ b, b ∉ P → m'.fl.refCount b = m.fl.refCount b
  newRoot : root m'.mem k (some c) = some g
  roots : ∀ d < procSize, d ≠ c → root m'.mem k (some d) = root m.mem k (some d)
  leaf : ∀ p, p ≠ (none, pml4Page c) → leaf m'.mem k p = if p.1 = some c then 0 else leaf m.mem k p
  frames : ∀ f, ¬ IsTable m.mem k f → (∀ b ∈ P, f ≠ m.fl.frame b) → m'.mem f = m.mem f

section

variable {b : Nat → Nat} {i : Nat}

theorem pml4_zero {mem : Nat → Nat → Nat} (hm : mem g = pml4Page' b k g) (hi : i < 510) :
    word mem g i = 0 := by
  unfold word pml4Page' at *
  rw [hm, rd64_wr64_other (by omega), rd64_wr64_other (by omega)]
  refine rd64_zero fun x hx => ?_
  unfold clearTo
  rw [if_pos (by omega)]

theorem pml4_self {mem : Nat → Nat → Nat} (hm : mem g = pml4Page' b k g) (hg : g < 2 ^ 52) :
    word mem g 510 = g * 4096 + 7 := by
  unfold word pml4Page' at *
  rw [hm]
  exact rd64_wr64_same (by omega)

theorem pml4_kern {mem : Nat → Nat → Nat} (hm : mem g = pml4Page' b k g) (hk : k < 2 ^ 52) :
    word mem g 511 = k * 4096 + 7 := by
  unfold word pml4Page' at *
  rw [hm, rd64_wr64_other (by omega)]
  exact rd64_wr64_same (by omega)

end

/-- The stores `mappageTable` makes once the PML4 `g` is mapped in its window. -/
theorem fillPml4 (hinv : TableInv k m.mem m.fl) (hr : RootInv k m) (hc : c < procSize)
    (h4 : tableAt m.mem k none (path3 (upml4 - 4096 * c) none) = some f4)
    (hg : ∀ l, ValidPath none l → tableAt m.mem k none l ≠ some g) (hgr : g ≠ m.cr3 / 4096)
    (hg52 : g < 2 ^ 52) (hcr3 : m₂.cr3 = m.cr3)
    (hother : ∀ f j, f ≠ g → f ≠ f4 → word m₂.mem f j = word m.mem f j)
    (hodd : word m₂.mem f4 (p4Index (upml4 - 4096 * c)) % 2 = 1)
    (hcell : word m₂.mem f4 (p4Index (upml4 - 4096 * c)) / 4096 = g) :
    (do
      let m ← m₂.zeroWords (upml4 - 4096 * c) 8 510
      let e ← m.load64 (p1Table baseInit + 8 * 511)
      let m ← m.store64 (upml4 - 4096 * c + 8 * 511) e
      let m ← m.store64 (upml4 - 4096 * c + 8 * 510) ((g * 4096 &&& 0xFFFFFFFFFFFFF000) ||| 7)
      some (g * 4096, m)) =
    some (g * 4096, { m₂ with mem := Function.update m₂.mem g (pml4Page' (m₂.mem g) k g) }) := by
  have hv := window_aligned hc
  have hs : InSpace k m (upml4 - 4096 * c) none := inSpace_window hc
  have hvf := hs.validPath3
  have hne4 : f4 ≠ g := by
    rintro rfl
    exact hg _ hvf h4
  have hr4 : f4 ≠ m.cr3 / 4096 := ne_root hinv hr hs hvf (.inl rfl) h4
  -- whatever is written to `g`, the window address leads to it
  have hfr : ∀ mem', (∀ f, f ≠ g → mem' f = m₂.mem f) → ∀ x < 4096,
      ({ m₂ with mem := mem' } : Machine).frameOf (upml4 - 4096 * c + x) = some g := by
    intro mem' hmem' x hx
    have hidx := (pIndex_add hv hx).2.2.2
    have hw4 : word mem' f4 (p4Index (upml4 - 4096 * c)) =
        word m₂.mem f4 (p4Index (upml4 - 4096 * c)) := word_congr (hmem' f4 hne4)
    have hpath := frameOf_path hinv hr (hs.add hv hx) mem' m₂.fl g
      ((path3_add hv hx).symm ▸ h4) hg hgr
      (fun f j hf hf4 => (word_congr (hmem' f hf)).trans (hother f j hf hf4))
      (by rw [hidx, hw4]; exact hodd)
    rw [hidx, hw4, hcell] at hpath
    show (Machine.mk mem' m₂.cr3 m₂.fl).frameOf _ = _
    rw [hcr3]
    exact hpath
  have hzero : m₂.zeroWords (upml4 - 4096 * c) 8 510 =
      some { m₂ with mem := Function.update m₂.mem g (clearTo (m₂.mem g) 4080) } :=
    Machine.zeroWords_eq (n := 509) hv (by decide) (by decide) hfr
  have hstore : ∀ pg i w, i < 512 →
      ({ m₂ with mem := Function.update m₂.mem g pg } : Machine).store64
        (upml4 - 4096 * c + 8 * i) w =
      some { m₂ with mem := Function.update m₂.mem g (wr64 pg (8 * i) w) } := by
    intro pg i w hi
    have hstore := Machine.store64_entry (w := w) (hfr (Function.update m₂.mem g pg)
      (fun f hf => Function.update_of_ne hf _ _) (8 * i) (by omega)) hv hi
    simp only [Function.update_self, Function.update_idem] at hstore
    exact hstore
  -- the current PML4 is as before
  have hroot : ∀ pg j, word (Function.update m₂.mem g pg) (m.cr3 / 4096) j =
      word m.mem (m.cr3 / 4096) j := by
    intro pg j
    rw [word_congr (Function.update_of_ne hgr.symm _ _), hother _ j hgr.symm hr4.symm]
  have hload : ∀ pg, ({ m₂ with mem := Function.update m₂.mem g pg } : Machine).load64
      (p1Table baseInit + 8 * 511) = some (k * 4096 + 7) := by
    intro pg
    have hself : SelfMap (Function.update m₂.mem g pg) (m₂.cr3 / 4096) := by
      rw [hcr3]
      exact hr.selfMap.congr (hroot pg 510)
    have hfrp1 : ({ m₂ with mem := Function.update m₂.mem g pg } : Machine).frameOf
        (p1Table baseInit + 8 * 511) = some (m₂.cr3 / 4096) :=
      Machine.frameOf_p1Table (m := { m₂ with mem := Function.update m₂.mem g pg }) hself (by decide)
    rw [Machine.load64_entry hfrp1 p1Table_aligned (by decide)]
    show some (word (Function.update m₂.mem g pg) (m₂.cr3 / 4096) 511) = _
    rw [hcr3, hroot, hr.kern]
  have hflags : (g * 4096 &&& 0xFFFFFFFFFFFFF000) ||| 7 = g * 4096 + 7 :=
    and_or_flags (by omega) (by omega) (by decide)
  have hkern := hstore (clearTo (m₂.mem g) 4080) 511 (k * 4096 + 7) (by decide)
  have hself := hstore (wr64 (clearTo (m₂.mem g) 4080) (8 * 511) (k * 4096 + 7)) 510
    (g * 4096 + 7) (by decide)
  simp only [Option.bind_eq_bind, hzero, Option.bind_some, hload, hkern, hself, hflags]
  rfl

section

variable (m₂ g w) (hinv : TableInv k m.mem m.fl) (hr : RootInv k m)
  (hc : c < procSize)
  (h4 : tableAt m.mem k none (path3 (upml4 - 4096 * c) none) = some f4)
  (hg : ∀ t l, t ≠ some c → ValidPath t l → tableAt m.mem k t l ≠ some g)
  (hgr : g ≠ m.cr3 / 4096) (hg52 : g < 2 ^ 52) (hk : k < 2 ^ 52)
  (hw : w % 2 = 1) (hwg : w / 4096 = g) (hcr3 : m₂.cr3 = m.cr3)
  (hcell : word m₂.mem f4 (pml4Page c % 512) = w)
  (hword : ∀ f j, f ≠ g → ¬ (f = f4 ∧ j = pml4Page c % 512) →
    word m₂.mem f j = word m.mem f j)
  (hframe : ∀ f, f ≠ g → f ≠ f4 → m₂.mem f = m.mem f)
  (hfree : ∀ f, IsTable m.mem k f ∨ f = g → ¬ m₂.fl.IsFree f)
  (hrfree : ¬ m₂.fl.IsFree (m.cr3 / 4096))

include hinv hr hc h4 hg hgr hg52 hk hw hwg hcr3 hcell hword hframe hfree hrfree

/-- The end of `mappageTable`: `m` has the tables of the window, `m₂` its entry `w`. -/
theorem fillPml4_spec
    (hm' : m' = { m₂ with mem := Function.update m₂.mem g (pml4Page' (m₂.mem g) k g) }) :
    TableInv k m'.mem m₂.fl ∧ RootInv k m' ∧
      root m'.mem k (some c) = some g ∧
      (∀ d < procSize, d ≠ c → root m'.mem k (some d) = root m.mem k (some d)) ∧
      (∀ p, leaf m'.mem k p = if p = (none, pml4Page c) then w
        else if p.1 = some c then 0 else leaf m.mem k p) ∧
      (∀ f, IsTable m'.mem k f → IsTable m.mem k f ∨ f = g) ∧
      ∀ f, ¬ IsTable m'.mem k f → m'.mem f = m.mem f := by
  have hs : InSpace k m (upml4 - 4096 * c) none := inSpace_window hc
  have hvf := hs.validPath3
  have hf4 : tableAt m.mem k none (pagePath none (pml4Page c)) = some f4 := by
    rw [path3_eq] at h4
    exact h4
  have hne4 : f4 ≠ g := by
    rintro rfl
    exact hg none _ (by simp) hvf h4
  have hr4 : f4 ≠ m.cr3 / 4096 := ne_root hinv hr hs hvf (.inl rfl) h4
  have hpage : m'.mem g = pml4Page' (m₂.mem g) k g := by
    rw [hm']
    exact Function.update_self ..
  have hmem : ∀ f, f ≠ g → m'.mem f = m₂.mem f := by
    intro f hf
    rw [hm']
    exact Function.update_of_ne hf _ _
  have hcell' : word m'.mem f4 (pml4Page c % 512) = w := by rw [word_congr (hmem f4 hne4), hcell]
  have hw0 : w ≠ 0 := by omega
  have hother : ∀ f j, f ≠ g → ¬ (f = f4 ∧ j = pml4Page c % 512) →
      word m'.mem f j = word m.mem f j :=
    fun f j hf hne => (word_congr (hmem f hf)).trans (hword f j hf hne)
  have hzero : ∀ j < 510, word m'.mem g j = 0 := fun j hj => pml4_zero hpage hj
  obtain ⟨htab, hleaf⟩ := hinv.table_reset hc hf4 hg hcell' hw0 hwg hzero hother
  have hnil : ∀ d, d < procSize → ValidPath (some d) [] := fun d hd => ⟨hd, by simp⟩
  have hroots : ∀ d < procSize, d ≠ c → root m'.mem k (some d) = root m.mem k (some d) := by
    intro d hd hdc
    have heq := htab (some d) [] (hnil d hd)
    rw [if_neg (by simpa using hdc)] at heq
    exact heq
  have hrootc : root m'.mem k (some c) = some g := by
    have heq := htab (some c) [] (hnil c hc)
    rw [if_pos rfl, if_pos rfl] at heq
    exact heq
  refine ⟨?_, ?_, hrootc, hroots, hleaf, ?_, ?_⟩
  · exact hinv.reset hc hf4 hg hcell' hw0 hwg hzero hother (pml4_self hpage hg52)
      (pml4_kern hpage hk) hfree
  · have hcr3' : m'.cr3 = m.cr3 := by rw [hm', ← hcr3]
    refine hr.congr hcr3' (fun j _ => ?_) (fun l hl => ?_) ?_
    · rw [word_congr (hmem _ hgr.symm)]
      exact hword _ j hgr.symm fun he => hr4 he.1.symm
    · rw [htab none l hl, if_neg (by simp)]
    · rw [hm']
      exact hrfree
  · exact fun f hf => hinv.isTable_reset hc hf4 hg hcell' hw0 hwg hzero hother hf
  · intro f hf
    have hfg : f ≠ g := by
      rintro rfl
      exact hf ⟨some c, [], hnil c hc, hrootc⟩
    have hff : f ≠ f4 := by
      rintro rfl
      exact hf ⟨none, _, hvf, by rw [htab none _ hvf, if_neg (by simp)]; exact h4⟩
    rw [hmem f hfg, hframe f hfg hff]

/-- `mappageTable` after `map_phyaddr`. -/
theorem created_of {m₀ : Machine} {P Q : List Nat} (hgrow : Grow k m₀ m P)
    (hgm : IsTable m₀.mem k g ∨ ∃ b ∈ P ++ Q, g = m₀.fl.frame b)
    (hblocks : m.fl.blocks = Q ++ m₂.fl.blocks) (hfm : m₂.fl.freeMemory = m.fl.freeMemory)
    (hrefs : ∀ b, b ∉ Q → m₂.fl.refCount b = m.fl.refCount b) (hfreeinv : FreeInv m₂.fl)
    (hleaves : LeafInv (Function.update (leaf m.mem k) (none, pml4Page c) w)
      (fun f => IsTable m.mem k f ∨ f = g) m₂.fl noRes) :
    Attempt (do
      let m ← m₂.zeroWords (upml4 - 4096 * c) 8 510
      let e ← m.load64 (p1Table baseInit + 8 * 511)
      let m ← m.store64 (upml4 - 4096 * c + 8 * 511) e
      let m ← m.store64 (upml4 - 4096 * c + 8 * 510) ((g * 4096 &&& 0xFFFFFFFFFFFFF000) ||| 7)
      some (g * 4096, m)) True fun r =>
        r.1 = g * 4096 ∧ Created k m₀ r.2 c g (P ++ Q) ∧ PageInv k r.2 noRes ∧ RootInv k r.2 := by
  have hidx : p4Index (upml4 - 4096 * c) = pml4Page c % 512 := pIndex_pageOf.2.2.2
  rw [fillPml4 hinv hr hc h4 (fun l hl => hg none l (by simp) hl) hgr hg52 hcr3
    (fun f j hf hf4 => hword f j hf fun he => hf4 he.1) (by rw [hidx, hcell]; exact hw)
    (by rw [hidx, hcell]; exact hwg)]
  obtain ⟨m', hm'⟩ : ∃ m' : Machine,
    { m₂ with mem := Function.update m₂.mem g (pml4Page' (m₂.mem g) k g) } = m' := ⟨_, rfl⟩
  rw [hm']
  obtain ⟨htables, hroot, hrootc, hroots, hleaf, hist, hframes⟩ :=
    fillPml4_spec m₂ g w hinv hr hc h4 hg hgr hg52 hk hw hwg hcr3 hcell hword hframe hfree hrfree
      hm'.symm
  have hfl : m'.fl = m₂.fl := by rw [← hm']
  have hcr3' : m'.cr3 = m.cr3 := by rw [← hm', ← hcr3]
  have hnil : ∀ d, d < procSize → ValidPath (some d) [] := fun d hd => ⟨hd, by simp⟩
  refine .some ⟨rfl, ⟨?_, ?_, ?_, ?_, hrootc, ?_, ?_, ?_⟩, ⟨?_, ?_, ?_⟩, hroot⟩
  · rw [hcr3', hgrow.cr3]
  · rw [hfl, hfm, hgrow.freeMemory]
  · rw [hgrow.blocks, hblocks, hfl, List.append_assoc]
  · intro b hb
    rw [List.mem_append, not_or] at hb
    rw [hfl, hrefs b hb.2, hgrow.refs b hb.1]
  · intro d hd hdc
    rw [hroots d hd hdc, hgrow.root_eq (hnil d hd)]
  · intro p hp
    rw [hleaf, if_neg hp, hgrow.leaf]
  · intro f hf hfr
    have hft : ¬ IsTable m.mem k f := by
      intro ht
      rcases hgrow.fresh f ht with ht | ⟨b, hb, rfl⟩
      · exact hf ht
      · exact hfr b (List.mem_append_left _ hb) rfl
    have hft' : ¬ IsTable m'.mem k f := by
      intro ht
      rcases hist f ht with ht | rfl
      · exact hft ht
      · exact hgm.elim hf fun ⟨b, hb, he⟩ => hfr b hb he
    rw [hframes f hft', hgrow.frames f hft]
  · rw [hfl]
    exact hfreeinv
  · rw [hfl]
    exact htables
  · rw [hfl]
    refine hleaves.drop (fun p => ?_) hist
    rw [hleaf]
    by_cases hp : p = (none, pml4Page c)
    · subst hp
      rw [if_pos rfl, Function.update_self]
      exact .inl rfl
    · rw [if_neg hp, Function.update_of_ne hp]
      by_cases hpc : p.1 = some c
      · rw [if_pos hpc]
        exact .inr rfl
      · rw [if_neg hpc]
        exact .inl rfl

end

/-- What `mappageTable` does after `map_phyaddr` has returned `p`. -/
def finishTable (m : Machine) (c p : Nat) : Option (Nat × Machine) := do
  let ppml4 := p &&& 0xFFFFFFFFFFFFF000
  let m ← m.zeroWords (upml4 - 4096 * c) 8 510
  let e ← m.load64 (p1Table baseInit + 8 * 511)
  let m ← m.store64 (upml4 - 4096 * c + 8 * 511) e
  let m ← m.store64 (upml4 - 4096 * c + 8 * 510) ((ppml4 &&& 0xFFFFFFFFFFFFF000) ||| 7)
  some (ppml4, m)

theorem mappageTable_eq : m.mappageTable c =
    (m.ensureTables (upml4 - 4096 * c)).bind fun m =>
      (m.mapLeaf (upml4 - 4096 * c)).bind fun r => finishTable r.2 c r.1 := by
  rw [Machine.mappageTable, Machine.mapPhyaddr]
  simp only [Option.bind_eq_bind, Option.bind_assoc]
  rfl

section

variable {m₁ : Machine} {P : List Nat} (hg₁ : Grow k m m₁ P)
  (hinv₁ : PageInv k m₁ noRes) (hr₁ : RootInv k m₁) (hc : c < procSize) (hk : k < 2 ^ 52)
  (h4 : tableAt m₁.mem k none (path3 (upml4 - 4096 * c) none) = some f4)

include hg₁ hinv₁ hr₁ hc hk h4

/-- The slot has had no PML4 so far. -/
theorem finishTable_fresh (h0 : leaf m.mem k (none, pml4Page c) = 0) :
    Attempt ((m₁.mapLeaf (upml4 - 4096 * c)).bind fun r => finishTable r.2 c r.1)
      (5 ≤ m₁.fl.totalblockcount) fun r =>
      ∃ g Q, r.1 = g * 4096 ∧ Created k m r.2 c g Q ∧ PageInv k r.2 noRes ∧ RootInv k r.2 ∧
        Q.length ≤ P.length + 1 := by
  have hs : InSpace k m₁ (upml4 - 4096 * c) none := inSpace_window hc
  have hidx : p4Index (upml4 - 4096 * c) = pml4Page c % 512 := pIndex_pageOf.2.2.2
  refine ((Machine.mapLeaf_fresh hinv₁.free hinv₁.tables hr₁ hs (window_aligned hc) h4
    (by rw [hg₁.leaf]; exact h0)).bind (N := fun _ => True) ?_).consequence
    (fun h5 => ⟨h5, fun _ _ => trivial⟩) fun _ => id
  rintro ⟨p, m₂⟩ ⟨b, bs, fl', hb, hbs, hfree', hfm, hrc, hp, -, hm₂⟩
  simp only at hp hm₂
  subst hp
  have hmem : b ∈ m₁.fl.blocks := by simp [hb]
  have hfreeb : m₁.fl.IsFree (m₁.fl.frame b) := ⟨b, hmem, rfl⟩
  have hlt : m₁.fl.frame b < 2 ^ 52 := hinv₁.free.frame_lt (hinv₁.free.lt b hmem)
  have hw : m₁.fl.frame b * 4096 + 7 < 2 ^ 64 := by omega
  have hnt : ¬ IsTable m₁.mem k (m₁.fl.frame b) := fun ht => hinv₁.tables.notFree _ ht hfreeb
  have htail : ∀ f, fl'.IsFree f → m₁.fl.IsFree f ∧ f ≠ m₁.fl.frame b :=
    fun f => hinv₁.free.isFree_tail hb hbs hfm
  have hne4 : f4 ≠ m₁.fl.frame b := by
    rintro rfl
    exact hnt ⟨none, _, hs.validPath3, h4⟩
  have hfl₂ : m₂.fl = fl' := by rw [hm₂]
  have hcr3₂ : m₂.cr3 = m₁.cr3 := by rw [hm₂]
  have hfr' : fl'.frame b = m₁.fl.frame b := FreeList.frame_congr hfm b
  have hframe : ∀ f, f ≠ m₁.fl.frame b → m₂.mem f = Function.update m₁.mem f4
      (wr64 (m₁.mem f4) (8 * p4Index (upml4 - 4096 * c)) (m₁.fl.frame b * 4096 + 7)) f := by
    intro f hf
    rw [hm₂]
    exact Function.update_of_ne hf _ _
  have hmask : m₁.fl.frame b * 4096 &&& 0xFFFFFFFFFFFFF000 = m₁.fl.frame b * 4096 := by
    rw [and_pageMask (Nat.lt_of_le_of_lt (Nat.le_add_right _ 7) hw),
      Nat.mul_div_cancel _ (by decide)]
  rw [finishTable, hmask]
  refine (created_of (Q := [b]) m₂ (m₁.fl.frame b) (m₁.fl.frame b * 4096 + 7) hinv₁.tables hr₁ hc h4
    (fun t l _ hl ht => hnt ⟨t, l, hl, ht⟩) (fun he => hr₁.notFree (he ▸ hfreeb)) hlt hk
    (by omega) (by omega) hcr3₂
    (by rw [word_congr (hframe f4 hne4), word_store hw, if_pos ⟨rfl, hidx.symm⟩])
    (fun f j hf hcell => by
      rw [word_congr (hframe f hf), word_store hw, if_neg (by rwa [hidx])])
    (fun f hf hf4 => (hframe f hf).trans (Function.update_of_ne hf4 _ _))
    (fun f hf hfr => by
      rw [hfl₂] at hfr
      exact hf.elim (fun ht => hinv₁.tables.notFree f ht (htail f hfr).1) (htail f hfr).2)
    (fun hfr => by
      rw [hfl₂] at hfr
      exact hr₁.notFree (htail _ hfr).1)
    hg₁ (.inr ⟨b, List.mem_append_right P (List.mem_singleton_self b), hg₁.frame_eq b⟩)
    (by rw [hfl₂, hb, hbs]; exact List.singleton_append.symm) (by rw [hfl₂, hfm])
    (fun d hd => by
      rw [hfl₂, hrc, Function.update_of_ne (by simpa using hd)])
    (by rw [hfl₂]; exact hfree') ?_).consequence id
    fun r h => ⟨_, _, h.1, h.2.1, h.2.2.1, h.2.2.2, by simp⟩
  · -- the leaf entry of the window
    rw [hfl₂]
    have hmapped := (hinv₁.leaves.pop hinv₁.free hmem hfm hrc).map (b := b)
      (p := (none, pml4Page c)) (w := m₁.fl.frame b * 4096 + 7) (hinv₁.free.lt b hmem)
      (hinv₁.free.ne_zero hmem) (by rw [hrc, Function.update_self])
      (fun q hq he => by
        refine hinv₁.leaves.not_free hinv₁.free hq ?_
        rw [he, hfr']
        exact hfreeb)
      (fun hnw => absurd (window_mk hc) hnw) (by rw [hfr']; omega) (by omega)
    refine hmapped.retable fun f hf => hf.imp_right ?_
    rintro rfl q hq hq0 he
    by_cases hqw : q = (none, pml4Page c)
    · exact hq (hqw ▸ window_mk hc)
    · rw [Function.update_of_ne hqw] at hq0 he
      exact hinv₁.leaves.not_free hinv₁.free hq0 (he ▸ hfreeb)

/-- The slot has been used before: its PML4 is emptied. -/
theorem finishTable_reused (h0 : leaf m.mem k (none, pml4Page c) ≠ 0)
    (hcur : root m₁.mem k (some c) ≠ some (m₁.cr3 / 4096)) :
    Attempt ((m₁.mapLeaf (upml4 - 4096 * c)).bind fun r => finishTable r.2 c r.1) True fun r =>
      ∃ g Q, r.1 = g * 4096 ∧ Created k m r.2 c g Q ∧ PageInv k r.2 noRes ∧ RootInv k r.2 ∧
        Q.length ≤ P.length + 1 := by
  have hs : InSpace k m₁ (upml4 - 4096 * c) none := inSpace_window hc
  have hidx : p4Index (upml4 - 4096 * c) = pml4Page c % 512 := pIndex_pageOf.2.2.2
  have hnil : ValidPath (some c) [] := ⟨hc, by simp⟩
  obtain ⟨w, hw⟩ : ∃ w, leaf m₁.mem k (none, pml4Page c) = w := ⟨_, rfl⟩
  have hw0 : w ≠ 0 := by rwa [← hw, hg₁.leaf]
  have hodd : w % 2 = 1 := by
    rw [← hw] at hw0 ⊢
    exact hinv₁.leaves.odd hw0
  have hroot : root m₁.mem k (some c) = some (w / 4096) := by
    rw [root_eq hc, hw, if_neg hw0]
  have hist : IsTable m₁.mem k (w / 4096) := ⟨some c, [], hnil, hroot⟩
  have hgr : w / 4096 ≠ m₁.cr3 / 4096 := fun he => hcur (he ▸ hroot)
  have hg : ∀ t l, t ≠ some c → ValidPath t l → tableAt m₁.mem k t l ≠ some (w / 4096) :=
    fun t l ht hl hf => ht (hinv₁.tables.path_unique hl hnil hf hroot).1
  obtain ⟨b, hlt, -, hb⟩ := hinv₁.leaves.owned (none, pml4Page c) (window_mk hc).managed (hw ▸ hw0)
  rw [hw] at hb
  have hg52 : w / 4096 < 2 ^ 52 := hb ▸ hinv₁.free.frame_lt hlt
  have hmask : w &&& 0xFFFFFFFFFFFFF000 = w / 4096 * 4096 := and_pageMask (by omega)
  have hpage : pageOf (upml4 - 4096 * c) = pml4Page c := rfl
  have hcell : word m₁.mem f4 (pml4Page c % 512) = w := by
    rw [← hw]
    rw [path3_eq] at h4
    exact (leaf_of_table hs.validPage h4).symm
  have hne4 : f4 ≠ w / 4096 := by
    rintro rfl
    exact hg none _ (by simp) hs.validPath3 h4
  have hpresent := Machine.mapLeaf_present (g := w / 4096) hinv₁.tables hr₁ hs (window_aligned hc) h4
    (by rw [hpage, hw]; exact hodd) (by rw [hpage, hw])
    (fun l hl => hg none l (by simp) hl) hgr
  rw [hpresent, hpage, hw, Option.bind_some, finishTable, hmask]
  refine (created_of
    { m₁ with mem := Function.update m₁.mem (w / 4096) (clearTo (m₁.mem (w / 4096)) 519) } (w / 4096) w
    hinv₁.tables hr₁ hc h4 hg hgr hg52 hk hodd rfl rfl
    (by rw [word_congr (Function.update_of_ne hne4 _ _), hcell])
    (fun f j hf _ => word_congr (Function.update_of_ne hf _ _))
    (fun f hf _ => Function.update_of_ne hf _ _)
    (fun f hf => hinv₁.tables.notFree f (hf.elim id fun he => he ▸ hist)) hr₁.notFree
    hg₁ ?_ (show _ = [] ++ _ from rfl) rfl (fun _ _ => rfl) hinv₁.free ?_).consequence id
    fun r h => ⟨_, _, h.1, h.2.1, h.2.2.1, h.2.2.2, by simp⟩
  · rcases hg₁.fresh _ hist with ht | ⟨b', hb', he⟩
    · exact .inl ht
    · exact .inr ⟨b', List.mem_append_left _ hb', he⟩
  · rw [← hw, Function.update_eq_self, hw]
    exact hinv₁.leaves.retable fun f hf => .inl (hf.elim id fun he => he ▸ hist)

end

/-- `mappageTable` for a slot whose PML4 is not the current one. -/
theorem mappageTable_spec (hinv : PageInv k m noRes) (hr : RootInv k m) (hc : c < procSize)
    (hk : k < 2 ^ 52) (hcur : root m.mem k (some c) ≠ some (m.cr3 / 4096)) :
    Attempt (m.mappageTable c) (8 ≤ m.fl.totalblockcount) fun r =>
      ∃ g P, r.1 = g * 4096 ∧ Created k m r.2 c g P ∧ PageInv k r.2 noRes ∧ RootInv k r.2 ∧
        P.length ≤ 4 := by
  rw [mappageTable_eq]
  refine ((ensureTables_spec hinv hr (inSpace_window hc)).bind
    (N := fun m₁ => 5 ≤ m₁.fl.totalblockcount) ?_).consequence ?_ fun _ => id
  · rintro m₁ ⟨P, hg₁, hinv₁, hr₁, hlen, f4, h4⟩
    have hnil : ValidPath (some c) [] := ⟨hc, by simp⟩
    have hfew : ∀ r : Nat × Machine, (∃ g Q, r.1 = g * 4096 ∧ Created k m r.2 c g Q ∧
        PageInv k r.2 noRes ∧ RootInv k r.2 ∧ Q.length ≤ P.length + 1) →
        ∃ g Q, r.1 = g * 4096 ∧ Created k m r.2 c g Q ∧ PageInv k r.2 noRes ∧ RootInv k r.2 ∧
          Q.length ≤ 4 := by
      rintro r ⟨g, Q, hpa, hcr, hpages, hroot, hQ⟩
      have := missing_le (m := m) (k := k) (v := upml4 - 4096 * c) (s := none)
      exact ⟨g, Q, hpa, hcr, hpages, hroot, by omega⟩
    by_cases h0 : leaf m.mem k (none, pml4Page c) = 0
    · exact (finishTable_fresh hg₁ hinv₁ hr₁ hc hk h4 h0).consequence id hfew
    · exact (finishTable_reused hg₁ hinv₁ hr₁ hc hk h4 h0
        (by rwa [hg₁.root_eq hnil, hg₁.cr3])).consequence (fun _ => trivial) hfew
  · refine fun h8 => ⟨by omega, ?_⟩
    rintro m₁ ⟨P, hg, hinv₁, -, hlen, -⟩
    have htot := hinv.free.toThreaded.total_eq hinv₁.free.toThreaded hg.blocks
    have := missing_le (m := m) (k := k) (v := upml4 - 4096 * c) (s := none)
    omega

end Sbunix
