import Sbunix.Sys.AddressSpace
import Sbunix.Sys.Proofs.FreeBlocks

/-!
# The forest of page tables

What writing an entry does to the tables and to the leaf entries: nothing, when no
table in use changes (`tables_congr`); one table more (`table_link`); one leaf entry
changed (`leaf_write`); one user half emptied (`table_reset`).
-/

namespace Sbunix

variable {mem mem' : Nat → Nat → Nat} {k f g i j w c q : Nat} {s : Space} {l : List Nat}
  {p p' : Page} {fl : FreeList}

/-! ## Words -/

theorem word_congr (h : mem' f = mem f) : word mem' f i = word mem f i := by
  unfold word
  rw [h]

theorem word_store (hw : w < 2 ^ 64) :
    word (Function.update mem f (wr64 (mem f) (8 * i) w)) g j =
      if g = f ∧ j = i then w else word mem g j := by
  unfold word
  by_cases hg : g = f
  · subst hg
    rw [Function.update_self]
    by_cases hj : j = i
    · rw [if_pos ⟨rfl, hj⟩, hj, rd64_wr64_same hw]
    · rw [if_neg (fun h => hj h.2), rd64_wr64_other (by omega)]
  · rw [Function.update_of_ne hg, if_neg (fun h => hg h.1)]

theorem child_congr (h : word mem' f i = word mem f i) : child mem' f i = child mem f i := by
  unfold child
  rw [h]

theorem child_eq_some (h : child mem f i = some g) :
    i < 512 ∧ word mem f i ≠ 0 ∧ word mem f i / 4096 = g := by
  unfold child at h
  split_ifs at h with hi
  exact ⟨hi.1, hi.2, Option.some.inj h⟩

theorem child_eq_none (h : word mem f i = 0) : child mem f i = none := by
  unfold child
  rw [if_neg (by simp [h])]

/-! ## Paths and pages -/

theorem validPath_closed : PathClosed ValidPath := by
  intro s i l h
  cases s with
  | none =>
      obtain ⟨hlen, hlt⟩ := h
      rw [List.length_cons] at hlen
      exact ⟨by omega, fun j hj => hlt j (List.mem_cons_of_mem i hj)⟩
  | some c =>
      obtain ⟨hc, hlen, hlt, htop⟩ := h
      rw [List.length_cons] at hlen
      refine ⟨hc, by omega, fun j hj => hlt j (List.mem_cons_of_mem i hj), ?_⟩
      cases l with
      | nil => simp
      | cons j l => simpa [List.getLast?_cons_cons] using htop

theorem ValidPath.head_lt (h : ValidPath s (i :: l)) : i < 512 := by
  cases s with
  | none => exact h.2 i List.mem_cons_self
  | some c => exact h.2.2.1 i List.mem_cons_self

theorem ValidPath.nil (h : ValidPath s l) : ValidPath s [] := by
  induction l with
  | nil => exact h
  | cons i l ih => exact ih (validPath_closed s i l h)

theorem validPath_pagePath (h : ValidPage (s, q)) : ValidPath s (pagePath s q) := by
  cases s with
  | none =>
      refine ⟨by simp [pagePath], ?_⟩
      simp only [pagePath, List.mem_cons, List.not_mem_nil, or_false, forall_eq_or_imp, forall_eq]
      omega
  | some c =>
      obtain ⟨hc, hq⟩ := h
      refine ⟨hc, by simp [pagePath], ?_, ?_⟩
      · simp only [pagePath, List.mem_cons, List.not_mem_nil, or_false, forall_eq_or_imp, forall_eq]
        omega
      · simp only [pagePath, List.getLast?_cons_cons, List.getLast?_singleton, Option.mem_some_iff,
          forall_eq']
        omega

/-- Nothing lies below a last-level table. -/
theorem not_validPath_below : ¬ ValidPath s (i :: pagePath s q) := by
  cases s with
  | none =>
      rintro ⟨hlen, -⟩
      simp [pagePath] at hlen
  | some c =>
      rintro ⟨-, hlen, -⟩
      simp [pagePath] at hlen

/-- A page is known by its last-level table and its entry there. -/
theorem page_ext (h : ValidPage (s, q)) (h' : ValidPage (s, j)) (hp : pagePath s q = pagePath s j)
    (hi : q % 512 = j % 512) : q = j := by
  cases s with
  | none =>
      obtain ⟨hlo, hhi⟩ := h
      obtain ⟨hlo', hhi'⟩ := h'
      simp only [pagePath, List.cons.injEq, and_true] at hp
      omega
  | some c =>
      obtain ⟨-, hhi⟩ := h
      obtain ⟨-, hhi'⟩ := h'
      simp only [pagePath, List.cons.injEq, and_true] at hp
      omega

theorem pml4Page_eq (h : c < procSize) : pml4Page c = 0xFFFF801FF - c := by
  have hc : c < 100 := h
  unfold pml4Page pageOf upml4 kernmem
  omega

theorem validPage_window (h : c < procSize) : ValidPage (none, pml4Page c) := by
  have hc : c < 100 := h
  rw [ValidPage, pml4Page_eq h]
  omega

theorem window_mk (h : c < procSize) : Window (none, pml4Page c) := ⟨rfl, c, h, rfl⟩

theorem pml4Page_inj (h : c < procSize) (h' : j < procSize) (he : pml4Page c = pml4Page j) :
    c = j := by
  have hc : c < 100 := h
  have hj : j < 100 := h'
  rw [pml4Page_eq h, pml4Page_eq h'] at he
  omega

theorem UserPage.not_window (h : UserPage p) : ¬ Window p := by
  rintro ⟨hs, c, hc, hq⟩
  have hc' : c < 100 := hc
  have hlt := h.resolve_left (fun hn => hn hs)
  rw [hq, pml4Page_eq hc, pml4Page_eq (by decide)] at hlt
  have h99 : procSize - 1 = 99 := by decide
  omega

theorem UserPage.managed (h : UserPage p) : ManagedPage p := by
  refine h.imp_right fun hlt => ?_
  rw [pml4Page_eq (by decide)] at hlt ⊢
  omega

theorem Window.managed (h : Window p) : ManagedPage p := by
  obtain ⟨-, c, hc, hq⟩ := h
  right
  rw [hq, pml4Page_eq hc, pml4Page_eq (by decide)]
  omega

/-! ## Tables and roots -/

theorem tableAt_none : tableAt mem k none l = kernelTable mem k l :=
  tree_root (show root mem k none = some k from rfl) l

theorem tableAt_cons :
    tableAt mem k s (i :: l) = (tableAt mem k s l).bind fun f => child mem f i := rfl

theorem leaf_of_table (hp : ValidPage (s, q)) (h : tableAt mem k s (pagePath s q) = some f) :
    leaf mem k (s, q) = word mem f (q % 512) := by
  rw [leaf, if_pos hp]
  simp only [h, Option.elim_some]

theorem leaf_of_missing (h : tableAt mem k s (pagePath s q) = none) : leaf mem k (s, q) = 0 := by
  unfold leaf
  split_ifs
  · simp only [h, Option.elim_none]
  · rfl

theorem leaf_of_invalid (h : ¬ ValidPage p) : leaf mem k p = 0 := if_neg h

/-- A mapped page has a last-level table. -/
theorem exists_table (h : leaf mem k (s, q) ≠ 0) :
    ValidPage (s, q) ∧ ∃ f, tableAt mem k s (pagePath s q) = some f := by
  refine ⟨?_, ?_⟩
  · by_contra hp
    exact h (leaf_of_invalid hp)
  · cases hf : tableAt mem k s (pagePath s q) with
    | none => exact absurd (leaf_of_missing hf) h
    | some f => exact ⟨f, rfl⟩

theorem leaf_window (h : c < procSize) :
    leaf mem k (none, pml4Page c) = kernelLeaf mem k (pml4Page c) := by
  rw [leaf, if_pos (validPage_window h), kernelLeaf, tableAt_none]

theorem root_eq (h : c < procSize) :
    root mem k (some c) = if leaf mem k (none, pml4Page c) = 0 then none
      else some (leaf mem k (none, pml4Page c) / 4096) := by
  rw [leaf_window h]
  rfl

/-- Two entries that lead to the same frame, or are both empty. -/
def SameFrame (w w' : Nat) : Prop := (w = 0 ↔ w' = 0) ∧ w / 4096 = w' / 4096

theorem SameFrame.of_eq {w w' : Nat} (h : w = w') : SameFrame w w' := by
  rw [h]
  exact ⟨Iff.rfl, rfl⟩

theorem root_congr (hv : ValidPath s [])
    (h : ∀ c < procSize,
      SameFrame (leaf mem' k (none, pml4Page c)) (leaf mem k (none, pml4Page c))) :
    root mem' k s = root mem k s := by
  cases s with
  | none => rfl
  | some c =>
      have hc : c < procSize := hv.1
      obtain ⟨h0, hdiv⟩ := h c hc
      rw [root_eq hc, root_eq hc, hdiv]
      by_cases hz : leaf mem k (none, pml4Page c) = 0
      · rw [if_pos hz, if_pos (h0.mpr hz)]
      · rw [if_neg hz, if_neg fun h => hz (h0.mp h)]

/-- Tables whose entries are all kept are reached as before. -/
theorem tableAt_congr (hroot : root mem' k s = root mem k s)
    (h : ∀ i l f, ValidPath s (i :: l) → tableAt mem k s l = some f →
      word mem' f i = word mem f i) (hl : ValidPath s l) :
    tableAt mem' k s l = tableAt mem k s l :=
  tree_congr validPath_closed hroot (fun i l f hv hf => child_congr (h i l f hv hf)) l hl

/-- When neither the entries that lead to tables nor the frames of the PML4s change, no table
does. -/
theorem tables_congr
    (h : ∀ s i l f, ValidPath s (i :: l) → tableAt mem k s l = some f → word mem' f i = word mem f i)
    (hw : ∀ c f, c < procSize → tableAt mem k none (pagePath none (pml4Page c)) = some f →
      SameFrame (word mem' f (pml4Page c % 512)) (word mem f (pml4Page c % 512))) :
    ∀ s l, ValidPath s l → tableAt mem' k s l = tableAt mem k s l := by
  have hkern : ∀ l, ValidPath none l → tableAt mem' k none l = tableAt mem k none l :=
    fun l hl => tableAt_congr rfl (h none) hl
  intro s l hl
  refine tableAt_congr (root_congr hl.nil ?_) (h s) hl
  intro c hc
  have heq := hkern _ (validPath_pagePath (validPage_window hc))
  cases hf : tableAt mem k none (pagePath none (pml4Page c)) with
  | none =>
      rw [leaf_of_missing hf, leaf_of_missing (heq.trans hf)]
      exact .of_eq rfl
  | some f =>
      rw [leaf_of_table (validPage_window hc) hf, leaf_of_table (validPage_window hc) (heq.trans hf)]
      exact hw c f hc hf

/-- The leaf entry of a page after a change that keeps the tables. -/
theorem leaf_congr (htab : ∀ s l, ValidPath s l → tableAt mem' k s l = tableAt mem k s l)
    (h : ∀ f, tableAt mem k p.1 (pagePath p.1 p.2) = some f →
      word mem' f (p.2 % 512) = word mem f (p.2 % 512)) :
    leaf mem' k p = leaf mem k p := by
  by_cases hp : ValidPage p
  · have heq := htab p.1 _ (validPath_pagePath hp)
    cases hf : tableAt mem k p.1 (pagePath p.1 p.2) with
    | none => rw [leaf_of_missing (s := p.1) hf, leaf_of_missing (s := p.1) (heq.trans hf)]
    | some f =>
        rw [leaf_of_table (s := p.1) hp hf, leaf_of_table (s := p.1) hp (heq.trans hf), h f hf]
  · rw [leaf_of_invalid hp, leaf_of_invalid hp]

/-- Frames that are not page tables do not matter. -/
theorem tables_of_agree (h : ∀ f, IsTable mem k f → mem' f = mem f) :
    (∀ s l, ValidPath s l → tableAt mem' k s l = tableAt mem k s l) ∧
      leaf mem' k = leaf mem k := by
  have htab : ∀ s l, ValidPath s l → tableAt mem' k s l = tableAt mem k s l := by
    refine tables_congr ?_ ?_
    · exact fun s i l f hl hf => word_congr (h f ⟨s, l, validPath_closed s i l hl, hf⟩)
    · exact fun c f hc hf =>
        .of_eq (word_congr (h f ⟨none, _, validPath_pagePath (validPage_window hc), hf⟩))
  refine ⟨htab, ?_⟩
  funext p
  by_cases hp : ValidPage p
  · exact leaf_congr htab fun f hf => word_congr (h f ⟨p.1, _, validPath_pagePath hp, hf⟩)
  · rw [leaf_of_invalid hp, leaf_of_invalid hp]

theorem isTable_congr (h : ∀ s l, ValidPath s l → tableAt mem' k s l = tableAt mem k s l) :
    IsTable mem' k f ↔ IsTable mem k f := by
  constructor
  · rintro ⟨s, l, hl, hf⟩
    exact ⟨s, l, hl, h s l hl ▸ hf⟩
  · rintro ⟨s, l, hl, hf⟩
    exact ⟨s, l, hl, (h s l hl).trans hf⟩

/-- The well-formed forests: no table is reached twice or free, entries that lead to
tables have the flags the kernel gives them, and each PML4 maps itself and the kernel half. -/
structure TableInv (k : Nat) (mem : Nat → Nat → Nat) (fl : FreeList) : Prop where
  unshared : Unshared (child mem) (root mem k) ValidPath
  entry : ∀ s i l f, ValidPath s (i :: l) → tableAt mem k s l = some f →
    word mem f i = 0 ∨ word mem f i % 4096 = 7
  notFree : ∀ f, IsTable mem k f → ¬ fl.IsFree f
  top : ∀ c f, c < procSize → root mem k (some c) = some f →
    word mem f 510 = f * 4096 + 7 ∧ word mem f 511 = k * 4096 + 7

namespace TableInv

/-- Two ways to one table are the same way. -/
theorem path_unique (h : TableInv k mem fl) {t : Space} {l' : List Nat} (hl : ValidPath s l)
    (hl' : ValidPath t l') (hf : tableAt mem k s l = some f) (hf' : tableAt mem k t l' = some f) :
    s = t ∧ l = l' := h.unshared s l t l' f hl hl' hf hf'

/-- Writing the leaf entry of a page; a PML4 window must keep its frame. -/
theorem leaf_write (h : TableInv k mem fl) (hp : ValidPage (s, q))
    (hwin : Window (s, q) → SameFrame w (leaf mem k (s, q)))
    (hf : tableAt mem k s (pagePath s q) = some f) (hnew : word mem' f (q % 512) = w)
    (hother : ∀ g j, ¬ (g = f ∧ j = q % 512) → word mem' g j = word mem g j) :
    (∀ s l, ValidPath s l → tableAt mem' k s l = tableAt mem k s l) ∧
      leaf mem' k = Function.update (leaf mem k) (s, q) w := by
  have hvq := validPath_pagePath hp
  -- a cell with index `j` in the last-level table of page `(t, j)` is the written one only there
  have hcell : ∀ t j g, ValidPage (t, j) → (t, j) ≠ (s, q) →
      tableAt mem k t (pagePath t j) = some g → word mem' g (j % 512) = word mem g (j % 512) := by
    intro t j g hj hne hg
    apply hother
    rintro ⟨rfl, hij⟩
    obtain ⟨rfl, hpath⟩ := h.path_unique (validPath_pagePath hj) hvq hg hf
    exact hne (by rw [page_ext hj hp hpath hij])
  have htab : ∀ s l, ValidPath s l → tableAt mem' k s l = tableAt mem k s l := by
    refine tables_congr ?_ ?_
    · intro t i l g hl hg
      apply hother
      rintro ⟨rfl, -⟩
      obtain ⟨rfl, rfl⟩ := h.path_unique (validPath_closed t i l hl) hvq hg hf
      exact not_validPath_below hl
    · intro c g hc hg
      by_cases he : ((none, pml4Page c) : Page) = (s, q)
      · obtain ⟨rfl, rfl⟩ := Prod.mk.inj he
        obtain rfl := Option.some.inj (hg.symm.trans hf)
        have hwin' := hwin (window_mk hc)
        rwa [leaf_of_table hp hf, ← hnew] at hwin'
      · exact .of_eq (hcell none (pml4Page c) g (validPage_window hc) he hg)
  refine ⟨htab, ?_⟩
  funext p'
  by_cases he : p' = (s, q)
  · subst he
    rw [Function.update_self, leaf_of_table hp ((htab s _ hvq).trans hf), hnew]
  · rw [Function.update_of_ne he]
    by_cases hp' : ValidPage p'
    · exact leaf_congr htab fun g hg => hcell p'.1 p'.2 g hp' he hg
    · rw [leaf_of_invalid hp', leaf_of_invalid hp']

section Link

variable (h : TableInv k mem fl) (hl : ValidPath s (i :: l)) (hf : tableAt mem k s l = some f)
  (h0 : word mem f i = 0) (hg : ¬ IsTable mem k g) (hnew : word mem' f i = g * 4096 + 7)
  (hzero : ∀ j < 512, word mem' g j = 0)
  (hother : ∀ f' j, f' ≠ g → ¬ (f' = f ∧ j = i) → word mem' f' j = word mem f' j)

include h hl hf h0 hg hzero hother

/-- A leaf entry is kept when its table is reached as `table_link` says. -/
theorem leaf_link_of (hp : ValidPage p)
    (htab : tableAt mem' k p.1 (pagePath p.1 p.2) =
      if p.1 = s ∧ pagePath p.1 p.2 = i :: l then some g
      else tableAt mem k p.1 (pagePath p.1 p.2)) :
    leaf mem' k p = leaf mem k p := by
  have hvp := validPath_pagePath hp
  by_cases hin : p.1 = s ∧ pagePath p.1 p.2 = i :: l
  · rw [if_pos hin] at htab
    have hold : tableAt mem k p.1 (pagePath p.1 p.2) = none := by
      rw [hin.2, hin.1, tableAt_cons, hf]
      exact child_eq_none h0
    rw [leaf_of_missing (s := p.1) hold, leaf_of_table (s := p.1) hp htab,
      hzero _ (Nat.mod_lt _ (by decide))]
  · rw [if_neg hin] at htab
    cases ht : tableAt mem k p.1 (pagePath p.1 p.2) with
    | none => rw [leaf_of_missing (s := p.1) ht, leaf_of_missing (s := p.1) (htab.trans ht)]
    | some t =>
        rw [leaf_of_table (s := p.1) hp ht, leaf_of_table (s := p.1) hp (htab.trans ht)]
        apply hother
        · rintro rfl
          exact hg ⟨p.1, _, hvp, ht⟩
        · rintro ⟨rfl, -⟩
          obtain ⟨rfl, rfl⟩ := h.path_unique (validPath_closed s i l hl) hvp hf ht
          exact not_validPath_below hl

include hnew

/-- Linking the fresh, cleared table `g` adds one table and no leaf entry. -/
theorem table_link :
    (∀ t l', ValidPath t l' → tableAt mem' k t l' =
      if t = s ∧ l' = i :: l then some g else tableAt mem k t l') ∧
      leaf mem' k = leaf mem k := by
  have hfg : f ≠ g := by
    rintro rfl
    exact hg ⟨s, l, validPath_closed s i l hl, hf⟩
  have htree : ∀ t l', ValidPath t l' → tree (child mem') (root mem k) t l' =
      if t = s ∧ l' = i :: l then some g else tableAt mem k t l' := by
    refine tree_link
      (fun t l' hl' hf' => h.unshared t l' s l f hl' (validPath_closed s i l hl) hf' hf)
      validPath_closed hl hf (child_eq_none h0) ?_ ?_ ?_ ?_
    · exact fun t l' hl' ht => hg ⟨t, l', hl', ht⟩
    · rw [child, if_pos ⟨hl.head_lt, by omega⟩, hnew]
      exact congrArg some (by omega)
    · exact fun f' j hne hcell => child_congr (hother f' j hne hcell)
    · exact fun t l' j hl' => child_eq_none (hzero j hl'.head_lt)
  have hroot : ∀ t, ValidPath t [] → root mem' k t = root mem k t := by
    intro t ht
    refine root_congr ht fun c hc => ?_
    refine .of_eq (leaf_link_of h hl hf h0 hg hzero hother (validPage_window hc) ?_)
    rw [← htree none _ (validPath_pagePath (validPage_window hc))]
    have hnone : root mem' k none = root mem k none := rfl
    exact tree_root hnone _
  have htab : ∀ t l', ValidPath t l' → tableAt mem' k t l' =
      if t = s ∧ l' = i :: l then some g else tableAt mem k t l' := by
    intro t l' hl'
    rw [← htree t l' hl']
    exact tree_root (hroot t hl'.nil) l'
  refine ⟨htab, ?_⟩
  funext p
  by_cases hp : ValidPage p
  · exact leaf_link_of h hl hf h0 hg hzero hother hp (htab p.1 _ (validPath_pagePath hp))
  · rw [leaf_of_invalid hp, leaf_of_invalid hp]

theorem isTable_link (f' : Nat) : IsTable mem' k f' ↔ IsTable mem k f' ∨ f' = g := by
  have htab := (table_link h hl hf h0 hg hnew hzero hother).1
  constructor
  · rintro ⟨t, l', hl', ht⟩
    rw [htab t l' hl'] at ht
    split_ifs at ht with hin
    · exact .inr (Option.some.inj ht).symm
    · exact .inl ⟨t, l', hl', ht⟩
  · rintro (⟨t, l', hl', ht⟩ | rfl)
    · refine ⟨t, l', hl', ?_⟩
      rw [htab t l' hl', if_neg]
      · exact ht
      · rintro ⟨rfl, rfl⟩
        rw [tableAt_cons, hf] at ht
        rw [show (some f).bind (fun f => child mem f i) = child mem f i from rfl,
          child_eq_none h0] at ht
        exact absurd ht (by simp)
    · exact ⟨s, i :: l, hl, by rw [htab s _ hl, if_pos ⟨rfl, rfl⟩]⟩

theorem link {fl' : FreeList} (hi : s ≠ none → l = [] → i < 510)
    (hfree : ∀ f', IsTable mem k f' ∨ f' = g → ¬ fl'.IsFree f') : TableInv k mem' fl' := by
  obtain ⟨htab, -⟩ := table_link h hl hf h0 hg hnew hzero hother
  have hgt : ∀ t l', ValidPath t l' → tableAt mem k t l' ≠ some g :=
    fun t l' hl' ht => hg ⟨t, l', hl', ht⟩
  have huns : Unshared (child mem') (root mem' k) ValidPath :=
    h.unshared.link hgt htab
  refine ⟨huns, ?_, ?_, ?_⟩
  · intro t j l' f' hl' hf'
    rw [htab t l' (validPath_closed t j l' hl')] at hf'
    split_ifs at hf' with hin
    · rw [← Option.some.inj hf']
      exact .inl (hzero j hl'.head_lt)
    · by_cases hcell : f' = f ∧ j = i
      · rw [hcell.1, hcell.2, hnew]
        exact .inr (by omega)
      · have hne : f' ≠ g := by
          rintro rfl
          exact hgt t l' (validPath_closed t j l' hl') hf'
        rw [hother f' j hne hcell]
        exact h.entry t j l' f' hl' hf'
  · intro f' hf'
    exact hfree f' ((isTable_link h hl hf h0 hg hnew hzero hother f').mp hf')
  · intro c f' hc hf'
    have hnil : ValidPath (some c) [] := ⟨hc, by simp⟩
    have hold : root mem k (some c) = some f' := by
      have heq := htab (some c) [] hnil
      rw [if_neg (by simp)] at heq
      exact heq.symm.trans hf'
    have hne : f' ≠ g := by
      rintro rfl
      exact hgt (some c) [] hnil hold
    have hkeep : ∀ j, 510 ≤ j → word mem' f' j = word mem f' j := by
      intro j hj
      apply hother f' j hne
      rintro ⟨rfl, rfl⟩
      obtain ⟨rfl, rfl⟩ := h.path_unique (validPath_closed s j l hl) hnil hf hold
      have := hi (by simp) rfl
      omega
    rw [hkeep 510 (by omega), hkeep 511 (by omega)]
    exact h.top c f' hc hold

end Link

section Reset

variable (h : TableInv k mem fl) (hc : c < procSize)
  (hf : tableAt mem k none (pagePath none (pml4Page c)) = some f)
  (hg : ∀ t l', t ≠ some c → ValidPath t l' → tableAt mem k t l' ≠ some g)
  (hwin : word mem' f (pml4Page c % 512) = w) (hw0 : w ≠ 0) (hwg : w / 4096 = g)
  (hzero : ∀ j < 510, word mem' g j = 0)
  (hother : ∀ f' j, f' ≠ g → ¬ (f' = f ∧ j = pml4Page c % 512) → word mem' f' j = word mem f' j)

include h hc hf hg hwin hw0 hwg hzero hother

/-- A new PML4 `g` for slot `c`: its window entry is the only leaf entry gained, and the
user half of the slot is empty. -/
theorem table_reset :
    (∀ t l', ValidPath t l' → tableAt mem' k t l' =
      if t = some c then (if l' = [] then some g else none) else tableAt mem k t l') ∧
      ∀ p, leaf mem' k p =
        if p = (none, pml4Page c) then w
        else if p.1 = some c then 0 else leaf mem k p := by
  have hwp := validPage_window hc
  have hvf := validPath_pagePath hwp
  have hcell : ∀ t j l' f', t ≠ some c → ValidPath t (j :: l') → tableAt mem k t l' = some f' →
      word mem' f' j = word mem f' j := by
    intro t j l' f' ht hl' hf'
    apply hother
    · rintro rfl
      exact hg t l' ht (validPath_closed t j l' hl') hf'
    · rintro ⟨rfl, -⟩
      obtain ⟨rfl, rfl⟩ := h.path_unique (validPath_closed t j l' hl') hvf hf' hf
      exact not_validPath_below hl'
  have hkern : ∀ l', ValidPath none l' → tableAt mem' k none l' = tableAt mem k none l' := by
    intro l' hl'
    exact tableAt_congr rfl (fun j l' f' hl' hf' => hcell none j l' f' (by simp) hl' hf') hl'
  have hleafw : leaf mem' k (none, pml4Page c) = w := by
    rw [leaf_of_table hwp ((hkern _ hvf).trans hf), hwin]
  -- a leaf entry of another half, or of another page of the kernel half, is kept
  have hkeep : ∀ p, p.1 ≠ some c → p ≠ (none, pml4Page c) →
      (ValidPage p → tableAt mem' k p.1 (pagePath p.1 p.2) =
        tableAt mem k p.1 (pagePath p.1 p.2)) → leaf mem' k p = leaf mem k p := by
    intro p hpc hne htab
    by_cases hp : ValidPage p
    · have hvp := validPath_pagePath hp
      cases ht : tableAt mem k p.1 (pagePath p.1 p.2) with
      | none => rw [leaf_of_missing (s := p.1) ht, leaf_of_missing (s := p.1) ((htab hp).trans ht)]
      | some t =>
          rw [leaf_of_table (s := p.1) hp ht, leaf_of_table (s := p.1) hp ((htab hp).trans ht)]
          apply hother
          · rintro rfl
            exact hg p.1 _ hpc hvp ht
          · rintro ⟨rfl, hidx⟩
            obtain ⟨hs, hpath⟩ := h.path_unique hvp hvf ht hf
            obtain ⟨s, q⟩ := p
            obtain rfl : s = none := hs
            exact hne (by rw [page_ext hp hwp hpath hidx])
    · rw [leaf_of_invalid hp, leaf_of_invalid hp]
  have hroot : ∀ t, t ≠ some c → ValidPath t [] → root mem' k t = root mem k t := by
    intro t ht hv
    cases t with
    | none => rfl
    | some d =>
        have hd : d < procSize := hv.1
        have hdc : d ≠ c := fun he => ht (he ▸ rfl)
        rw [root_eq hd, root_eq hd, hkeep (none, pml4Page d) (by simp)
          (fun he => hdc (pml4Page_inj hd hc (Prod.mk.inj he).2))
          (fun hv => hkern _ (validPath_pagePath hv))]
  have hrootc : root mem' k (some c) = some g := by
    rw [root_eq hc, hleafw, if_neg hw0, hwg]
  have htab : ∀ t l', ValidPath t l' → tableAt mem' k t l' =
      if t = some c then (if l' = [] then some g else none) else tableAt mem k t l' := by
    refine tree_reset validPath_closed hrootc hroot ?_ ?_
    · exact fun t j l' f' ht hl' hf' => child_congr (hcell t j l' f' ht hl' hf')
    · intro j hj
      exact child_eq_none (hzero j (hj.2.2.2 j (by simp)))
  refine ⟨htab, ?_⟩
  intro p
  by_cases hpw : p = (none, pml4Page c)
  · rw [if_pos hpw, hpw, hleafw]
  · rw [if_neg hpw]
    by_cases hpc : p.1 = some c
    · rw [if_pos hpc]
      by_cases hp : ValidPage p
      · refine leaf_of_missing (s := p.1) ?_
        rw [htab p.1 _ (validPath_pagePath hp), if_pos hpc, if_neg]
        rw [hpc]
        simp [pagePath]
      · exact leaf_of_invalid hp
    · rw [if_neg hpc]
      refine hkeep p hpc hpw fun hp => ?_
      rw [htab p.1 _ (validPath_pagePath hp), if_neg hpc]

theorem isTable_reset {f' : Nat} (hf' : IsTable mem' k f') : IsTable mem k f' ∨ f' = g := by
  obtain ⟨t, l', hl', ht⟩ := hf'
  rw [(table_reset h hc hf hg hwin hw0 hwg hzero hother).1 t l' hl'] at ht
  split_ifs at ht
  · exact .inr (Option.some.inj ht).symm
  · exact .inl ⟨t, l', hl', ht⟩

theorem reset {fl' : FreeList} (hself : word mem' g 510 = g * 4096 + 7)
    (hkern : word mem' g 511 = k * 4096 + 7)
    (hfree : ∀ f', IsTable mem k f' ∨ f' = g → ¬ fl'.IsFree f') : TableInv k mem' fl' := by
  obtain ⟨htab, -⟩ := table_reset h hc hf hg hwin hw0 hwg hzero hother
  have hvf := validPath_pagePath (validPage_window hc)
  have huns : Unshared (child mem') (root mem' k) ValidPath := h.unshared.reset hg htab
  refine ⟨huns, ?_, ?_, ?_⟩
  · intro t j l' f' hl' hf'
    have hvl := validPath_closed t j l' hl'
    rw [htab t l' hvl] at hf'
    split_ifs at hf' with ht hnil
    · subst ht hnil
      rw [← Option.some.inj hf']
      exact .inl (hzero j (hl'.2.2.2 j (by simp)))
    · have hkeep : word mem' f' j = word mem f' j := by
        apply hother
        · rintro rfl
          exact hg t l' ht hvl hf'
        · rintro ⟨rfl, -⟩
          obtain ⟨rfl, rfl⟩ := h.path_unique hvl hvf hf' hf
          exact not_validPath_below hl'
      rw [hkeep]
      exact h.entry t j l' f' hl' hf'
  · intro f' hf'
    exact hfree f' (isTable_reset h hc hf hg hwin hw0 hwg hzero hother hf')
  · intro d f' hd hf'
    have hnil : ValidPath (some d) [] := ⟨hd, by simp⟩
    have heq := htab (some d) [] hnil
    by_cases hdc : some d = some c
    · rw [if_pos hdc, if_pos rfl] at heq
      obtain rfl : g = f' := Option.some.inj (heq.symm.trans hf')
      exact ⟨hself, hkern⟩
    · rw [if_neg hdc] at heq
      have hold : root mem k (some d) = some f' := heq.symm.trans hf'
      have hkeep : ∀ j, word mem' f' j = word mem f' j := by
        intro j
        apply hother
        · rintro rfl
          exact hg (some d) [] hdc hnil hold
        · rintro ⟨rfl, -⟩
          obtain ⟨hsd, -⟩ := h.path_unique hnil hvf hold hf
          exact absurd hsd (by simp)
      rw [hkeep, hkeep]
      exact h.top d f' hd hold

end Reset

/-- What is on the free list may change as long as no table is put there. -/
theorem refree {fl' : FreeList} (h : TableInv k mem fl)
    (hfree : ∀ f, IsTable mem k f → ¬ fl'.IsFree f) : TableInv k mem fl' :=
  ⟨h.unshared, h.entry, hfree, h.top⟩

/-- Forests with the same tables and entries are well formed together. -/
theorem congr {fl' : FreeList} (h : TableInv k mem fl)
    (htab : ∀ s l, ValidPath s l → tableAt mem' k s l = tableAt mem k s l)
    (hword : ∀ s i l f, ValidPath s (i :: l) → tableAt mem k s l = some f →
      word mem' f i = word mem f i)
    (htop : ∀ c f, c < procSize → root mem k (some c) = some f →
      word mem' f 510 = word mem f 510 ∧ word mem' f 511 = word mem f 511)
    (hfree : ∀ f, IsTable mem k f → ¬ fl'.IsFree f) : TableInv k mem' fl' := by
  refine ⟨h.unshared.congr htab, ?_, ?_, ?_⟩
  · intro s i l f hl hf
    rw [htab s l (validPath_closed s i l hl)] at hf
    rw [hword s i l f hl hf]
    exact h.entry s i l f hl hf
  · intro f hf
    exact hfree f ((isTable_congr htab).mp hf)
  · intro c f hc hf
    have hnil : ValidPath (some c) [] := ⟨hc, by simp⟩
    have hroot : root mem k (some c) = some f := (htab (some c) [] hnil).symm.trans hf
    rw [(htop c f hc hroot).1, (htop c f hc hroot).2]
    exact h.top c f hc hroot

/-- Frames that are not page tables may change. -/
theorem agree (h : TableInv k mem fl) (ha : ∀ f, IsTable mem k f → mem' f = mem f) :
    TableInv k mem' fl := by
  obtain ⟨htab, -⟩ := tables_of_agree ha
  refine h.congr htab ?_ ?_ h.notFree
  · exact fun s i l f hl hf => word_congr (ha f ⟨s, l, validPath_closed s i l hl, hf⟩)
  · intro c f hc hf
    have hnil : ValidPath (some c) [] := ⟨hc, by simp⟩
    have heq := ha f ⟨some c, [], hnil, hf⟩
    exact ⟨word_congr heq, word_congr heq⟩

end TableInv

end Sbunix
