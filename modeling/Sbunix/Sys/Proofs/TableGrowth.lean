import Sbunix.Misc.Attempt
import Sbunix.Sys.Proofs.CurrentSpace

/-!
# Building the tables of an address

What the first three levels of `map_phyaddr` and `set_Cow` do: blocks from the front
of the free list become tables, and no leaf entry changes.
-/

namespace Sbunix

variable {k : Nat} {m m' m'' : Machine} {res : Page → Option Nat} {s : Space} {l : List Nat}
  {v i f g p : Nat} {P Q : List Nat}

/-- `m'` is `m` after the blocks `P` have become page tables. -/
structure Grow (k : Nat) (m m' : Machine) (P : List Nat) : Prop where
  cr3 : m'.cr3 = m.cr3
  blocks : m.fl.blocks = P ++ m'.fl.blocks
  freeMemory : m'.fl.freeMemory = m.fl.freeMemory
  refs : ∀ b, b ∉ P → m'.fl.refCount b = m.fl.refCount b
  tables : ∀ s l f, ValidPath s l → tableAt m.mem k s l = some f → tableAt m'.mem k s l = some f
  leaf : leaf m'.mem k = leaf m.mem k
  frames : ∀ f, ¬ IsTable m'.mem k f → m'.mem f = m.mem f
  fresh : ∀ f, IsTable m'.mem k f → IsTable m.mem k f ∨ ∃ b ∈ P, f = m.fl.frame b

namespace Grow

theorem refl : Grow k m m [] :=
  ⟨rfl, rfl, rfl, fun _ _ => rfl, fun _ _ _ _ hf => hf, rfl, fun _ _ => rfl, fun _ hf => .inl hf⟩

theorem isTable (h : Grow k m m' P) (hf : IsTable m.mem k f) : IsTable m'.mem k f := by
  obtain ⟨s, l, hl, ht⟩ := hf
  exact ⟨s, l, hl, h.tables s l f hl ht⟩

theorem frame_eq (h : Grow k m m' P) (b : Nat) : m'.fl.frame b = m.fl.frame b :=
  FreeList.frame_congr h.freeMemory b

theorem trans (h : Grow k m m' P) (h' : Grow k m' m'' Q) : Grow k m m'' (P ++ Q) := by
  refine ⟨h'.cr3.trans h.cr3, ?_, h'.freeMemory.trans h.freeMemory, ?_, ?_,
    h'.leaf.trans h.leaf, ?_, ?_⟩
  · rw [h.blocks, h'.blocks, List.append_assoc]
  · intro b hb
    rw [List.mem_append, not_or] at hb
    rw [h'.refs b hb.2, h.refs b hb.1]
  · exact fun s l f hl hf => h'.tables s l f hl (h.tables s l f hl hf)
  · intro f hf
    rw [h'.frames f hf, h.frames f (fun ht => hf (h'.isTable ht))]
  · intro f hf
    rcases h'.fresh f hf with ht | ⟨b, hb, rfl⟩
    · rcases h.fresh f ht with ht | ⟨b, hb, rfl⟩
      · exact .inl ht
      · exact .inr ⟨b, List.mem_append_left Q hb, rfl⟩
    · exact .inr ⟨b, List.mem_append_right P hb, by rw [h.frame_eq]⟩

/-- The roots of the halves in use are kept. -/
theorem root_eq (h : Grow k m m' P) (hs : ValidPath s []) :
    root m'.mem k s = root m.mem k s :=
  root_congr hs fun c _ => .of_eq (by rw [h.leaf])

theorem inSpace (h : Grow k m m' P) (hs : InSpace k m v s) : InSpace k m' v s := by
  cases s with
  | none => exact hs
  | some c =>
      obtain ⟨hc, hi, hr⟩ := hs
      have hnil : ValidPath (some c) [] := ⟨hc, by simp⟩
      exact ⟨hc, hi, by rw [h.root_eq hnil, h.cr3, hr]⟩

end Grow

/-- Memory after the cleared table `g` has been linked to the cell `i` of `f`. -/
def linkMem (mem : Nat → Nat → Nat) (f i g : Nat) : Nat → Nat → Nat :=
  Function.update (Function.update mem f (wr64 (mem f) (8 * i) (g * 4096 + 7))) g
    (clearTo (mem g) 4096)

section

variable {mem : Nat → Nat → Nat} {f' j : Nat}

theorem linkMem_self (hg : g < 2 ^ 52) (hne : f ≠ g) : word (linkMem mem f i g) f i = g * 4096 + 7 := by
  have hw : g * 4096 + 7 < 2 ^ 64 := by omega
  rw [linkMem, word_congr (Function.update_of_ne hne _ _), word_store hw, if_pos ⟨rfl, rfl⟩]

theorem linkMem_new (hj : j < 512) : word (linkMem mem f i g) g j = 0 := by
  unfold word linkMem
  rw [Function.update_self]
  refine rd64_zero fun x hx => ?_
  unfold clearTo
  rw [if_pos (by omega)]

theorem linkMem_other (hg : g < 2 ^ 52) (hne : f' ≠ g) (hcell : ¬ (f' = f ∧ j = i)) :
    word (linkMem mem f i g) f' j = word mem f' j := by
  have hw : g * 4096 + 7 < 2 ^ 64 := by omega
  rw [linkMem, word_congr (Function.update_of_ne hne _ _), word_store hw, if_neg hcell]

theorem linkMem_frame (hne : f' ≠ g) (hne' : f' ≠ f) : linkMem mem f i g f' = mem f' := by
  rw [linkMem, Function.update_of_ne hne, Function.update_of_ne hne']

end

namespace Machine

variable {tbl chld : Nat}

theorem ensureTable_present (hfr : m.frameOf (tbl + 8 * i) = some f) (htbl : tbl % 4096 = 0)
    (hi : i < 512) (hne : word m.mem f i ≠ 0) : m.ensureTable tbl i chld = some m := by
  rw [ensureTable, load64_entry hfr htbl hi, Option.bind_eq_bind, Option.bind_some, if_neg hne]

/-- An empty cell gets the page `p` that `get_page` returns. -/
theorem ensureTable_page {p : Nat} {fl' : FreeList} (hg : m.fl.getPage = some (p, fl'))
    (hp : p % 4096 = 0) (hlt : p / 4096 < 2 ^ 52) (hne : f ≠ p / 4096)
    (hfr : m.frameOf (tbl + 8 * i) = some f) (htbl : tbl % 4096 = 0) (hchld : chld % 4096 = 0)
    (hi : i < 512) (h0 : word m.mem f i = 0)
    (hcfr : ∀ mem',
      (∀ f' j, f' ≠ p / 4096 → ¬ (f' = f ∧ j = i) → word mem' f' j = word m.mem f' j) →
      word mem' f i = p / 4096 * 4096 + 7 → ∀ x < 4096,
      (Machine.mk mem' m.cr3 fl').frameOf (chld + x) = some (p / 4096)) :
    m.ensureTable tbl i chld = some ⟨linkMem m.mem f i (p / 4096), m.cr3, fl'⟩ := by
  have hw : p / 4096 * 4096 + 7 < 2 ^ 64 := by omega
  have hentry : (p &&& 0xFFFFFFFFFFFFF000) ||| 7 = p / 4096 * 4096 + 7 :=
    and_or_flags (by omega) rfl (by decide)
  have hstore : ({ m with fl := fl' } : Machine).store64 (tbl + 8 * i) (p / 4096 * 4096 + 7) =
      some { m with mem := Function.update m.mem f
                      (wr64 (m.mem f) (8 * i) (p / 4096 * 4096 + 7)), fl := fl' } :=
    store64_entry hfr htbl hi
  rw [ensureTable, load64_entry hfr htbl hi]
  simp only [Option.bind_eq_bind, Option.bind_some, if_pos h0, Machine.getPage, hg,
    Option.map_some, hentry, hstore]
  rw [zeroWords_eq (n := 511) (g := p / 4096) hchld (by decide) (by decide)]
  · simp only [linkMem, Function.update_of_ne hne.symm]
  · intro mem' hmem' x hx
    refine hcfr mem' ?_ ?_ x hx
    · intro f' j hf' hcell
      rw [word_congr (hmem' f' hf'), word_store hw, if_neg hcell]
    · rw [word_congr (hmem' f hne), word_store hw, if_pos ⟨rfl, rfl⟩]

/-- An empty cell gets the first page of the free list. -/
theorem ensureTable_missing (hfree : FreeInv m.fl) (hfr : m.frameOf (tbl + 8 * i) = some f)
    (htbl : tbl % 4096 = 0) (hchld : chld % 4096 = 0) (hi : i < 512) (h0 : word m.mem f i = 0)
    (hff : ¬ m.fl.IsFree f)
    (hcfr : ∀ mem' fl' b, b ∈ m.fl.blocks →
      (∀ f' j, f' ≠ m.fl.frame b → ¬ (f' = f ∧ j = i) → word mem' f' j = word m.mem f' j) →
      word mem' f i = m.fl.frame b * 4096 + 7 → ∀ x < 4096,
      (Machine.mk mem' m.cr3 fl').frameOf (chld + x) = some (m.fl.frame b)) :
    m.ensureTable tbl i chld =
      m.fl.getPage.map fun r => ⟨linkMem m.mem f i (r.1 / 4096), m.cr3, r.2⟩ := by
  cases hg : m.fl.getPage with
  | none =>
      rw [ensureTable, load64_entry hfr htbl hi]
      simp [h0, Machine.getPage, hg]
  | some r =>
      obtain ⟨p, fl'⟩ := r
      obtain ⟨b, bs, hb, rfl, -⟩ := hfree.getPage hg
      have hmem : b ∈ m.fl.blocks := by simp [hb]
      have hlt : m.fl.frame b < 2 ^ 52 := hfree.frame_lt (hfree.lt b hmem)
      have hne : f ≠ m.fl.frame b := fun he => hff ⟨b, hmem, he⟩
      have hdiv : m.fl.frame b * 4096 / 4096 = m.fl.frame b := Nat.mul_div_cancel _ (by decide)
      refine ensureTable_page hg (Nat.mul_mod_left _ _) (hdiv.symm ▸ hlt) (hdiv.symm ▸ hne) hfr htbl
        hchld hi h0 fun mem' hother hcell => ?_
      rw [hdiv] at hother hcell ⊢
      exact hcfr mem' fl' b hmem hother hcell

end Machine

section Level

variable {tbl chld : Nat}

/-- One level: the cell `i` of the table `f` gets a table when it has none. -/
theorem ensureTable_spec (hinv : ForestInv k m) (hr : RootInv k m)
    (hl : ValidPath s (i :: l)) (hi : s ≠ none → l = [] → i < 510)
    (hf : tableAt m.mem k s l = some f) (hrf : m.cr3 / 4096 = f → i < 510)
    (htbl : tbl % 4096 = 0) (hchld : chld % 4096 = 0) (hfr : m.frameOf (tbl + 8 * i) = some f)
    (hcfr : ∀ mem' fl' g, ¬ IsTable m.mem k g → g ≠ m.cr3 / 4096 →
      (∀ f' j, f' ≠ g → ¬ (f' = f ∧ j = i) → word mem' f' j = word m.mem f' j) →
      word mem' f i = g * 4096 + 7 → ∀ x < 4096,
      (Machine.mk mem' m.cr3 fl').frameOf (chld + x) = some g) :
    Attempt (m.ensureTable tbl i chld) (5 ≤ m.fl.totalblockcount) fun m' =>
      ∃ P, Grow k m m' P ∧ ForestInv k m' ∧ RootInv k m' ∧
        P.length = (if tableAt m.mem k s (i :: l) = none then 1 else 0) ∧
        (∃ g, tableAt m'.mem k s (i :: l) = some g) ∧
        ∀ t l', ValidPath t l' → ¬ (t = s ∧ l' = i :: l) →
          tableAt m'.mem k t l' = tableAt m.mem k t l' := by
  have hlt := hl.head_lt
  have hvl := validPath_closed s i l hl
  have htable : IsTable m.mem k f := ⟨s, l, hvl, hf⟩
  have hchild : tableAt m.mem k s (i :: l) = child m.mem f i := by
    rw [tableAt_cons, hf, Option.bind_some]
  by_cases h0 : word m.mem f i = 0
  · have hnone := hchild.trans (child_eq_none h0)
    rw [Machine.ensureTable_missing hinv.free hfr htbl hchld hlt h0 (hinv.tables.notFree f htable)
      (fun mem' fl' b hb hother hnew => hcfr mem' fl' (m.fl.frame b)
        (fun ht => hinv.tables.notFree _ ht ⟨b, hb, rfl⟩)
        (fun he => hr.notFree (he ▸ ⟨b, hb, rfl⟩)) hother hnew)]
    refine ⟨fun hroom => ?_, fun m' h => ?_⟩
    · obtain ⟨r, hg⟩ := FreeList.getPage_total hroom
      exact ⟨_, by rw [hg]; rfl⟩
    obtain ⟨⟨p, fl'⟩, hg, hm'⟩ := Option.map_eq_some_iff.mp h
    obtain ⟨b, bs, hb, rfl, hfree', hbs, hfm, hrc⟩ := hinv.free.getPage hg
    have hmem : m'.mem = linkMem m.mem f i (m.fl.frame b) := by
      rw [← hm', Nat.mul_div_cancel _ (by decide)]
    have hcr3 : m'.cr3 = m.cr3 := by rw [← hm']
    obtain rfl : m'.fl = fl' := by rw [← hm']
    have hbmem : b ∈ m.fl.blocks := by simp [hb]
    have hg52 : m.fl.frame b < 2 ^ 52 := hinv.free.frame_lt (hinv.free.lt b hbmem)
    have hgfree : m.fl.IsFree (m.fl.frame b) := ⟨b, hbmem, rfl⟩
    have hg : ¬ IsTable m.mem k (m.fl.frame b) := fun ht => hinv.tables.notFree _ ht hgfree
    have hfg : f ≠ m.fl.frame b := by
      rintro rfl
      exact hg htable
    have hgr : m.cr3 / 4096 ≠ m.fl.frame b := fun he => hr.notFree (he ▸ hgfree)
    have hnew : word m'.mem f i = m.fl.frame b * 4096 + 7 := hmem ▸ linkMem_self hg52 hfg
    have hzero : ∀ j < 512, word m'.mem (m.fl.frame b) j = 0 :=
      fun j hj => hmem ▸ linkMem_new hj
    have hother : ∀ f' j, f' ≠ m.fl.frame b → ¬ (f' = f ∧ j = i) →
        word m'.mem f' j = word m.mem f' j :=
      fun f' j hne hcell => hmem ▸ linkMem_other hg52 hne hcell
    obtain ⟨htab, hleaf⟩ := hinv.tables.table_link hl hf h0 hg hnew hzero hother
    have hist := hinv.tables.isTable_link hl hf h0 hg hnew hzero hother
    have htail : ∀ f', m'.fl.IsFree f' → m.fl.IsFree f' ∧ f' ≠ m.fl.frame b :=
      fun f' => hinv.free.isFree_tail hb hbs hfm
    refine ⟨[b], ⟨hcr3, ?_, hfm, ?_, ?_, hleaf, ?_, ?_⟩, ⟨hfree', ?_⟩, ⟨?_, ?_, ?_, ?_⟩, ?_,
      ⟨m.fl.frame b, ?_⟩, ?_⟩
    · rw [hb, hbs]
      rfl
    · intro c hc
      rw [hrc, Function.update_of_ne (by simpa using hc)]
    · intro t l' f' hl' hf'
      rw [htab t l' hl', if_neg]
      · exact hf'
      · rintro ⟨rfl, rfl⟩
        rw [hnone] at hf'
        simp at hf'
    · intro f' hf'
      rw [hist, not_or] at hf'
      rw [hmem, linkMem_frame hf'.2 (fun he => hf'.1 (he ▸ htable))]
    · intro f' hf'
      exact ((hist f').mp hf').imp_right fun he => ⟨b, by simp, he⟩
    · refine hinv.tables.link hl hf h0 hg hnew hzero hother hi ?_
      rintro f' (ht | rfl) hfree
      · exact hinv.tables.notFree f' ht (htail f' hfree).1
      · exact (htail _ hfree).2 rfl
    · rw [hcr3, hother _ _ hgr (fun he => absurd (hrf he.1) (by omega))]
      exact hr.self
    · rw [hcr3, hother _ _ hgr (fun he => absurd (hrf he.1) (by omega))]
      exact hr.kern
    · rw [hcr3]
      exact fun hfree => hr.notFree (htail _ hfree).1
    · intro l' hl'
      rw [hcr3, htab none l' hl']
      split_ifs
      · exact fun he => hgr (Option.some.inj he).symm
      · exact hr.outside l' hl'
    · rw [if_pos hnone]
      rfl
    · rw [htab s _ hl, if_pos ⟨rfl, rfl⟩]
    · intro t l' hl' hne
      rw [htab t l' hl', if_neg hne]
  · have hsome : child m.mem f i = some (word m.mem f i / 4096) := by
      rw [child, if_pos ⟨hlt, h0⟩]
    rw [Machine.ensureTable_present hfr htbl hlt h0]
    refine .some ⟨[], Grow.refl, hinv, hr, ?_, ⟨_, hchild.trans hsome⟩, fun _ _ _ _ => rfl⟩
    rw [hchild, hsome, if_neg (by simp)]
    rfl

end Level

section Levels

variable (hinv : ForestInv k m) (hr : RootInv k m) (hs : InSpace k m v s)

include hinv hr hs

theorem ensureTable1_spec :
    Attempt (m.ensureTable (p1Table baseInit) (p1Index v) (p2Table baseInit v))
      (5 ≤ m.fl.totalblockcount) fun m' =>
      ∃ P, Grow k m m' P ∧ ForestInv k m' ∧ RootInv k m' ∧
        P.length = (if tableAt m.mem k s (path1 v s) = none then 1 else 0) ∧
        (∃ f2, tableAt m'.mem k s (path1 v s) = some f2) ∧
        ∀ l, ValidPath s l → l ≠ path1 v s → tableAt m'.mem k s l = tableAt m.mem k s l := by
  have hidx := (pIndex_lt v).1
  have hfr : m.frameOf (p1Table baseInit + 8 * p1Index v) = some (m.cr3 / 4096) :=
    frameOf_at1 hr (by omega)
  cases s with
  | none =>
      -- the entry for the kernel half is always there
      have h511 : p1Index v = 511 := hs
      have hne : word m.mem (m.cr3 / 4096) (p1Index v) ≠ 0 := by
        rw [h511, hr.kern]
        omega
      rw [Machine.ensureTable_present hfr p1Table_aligned hidx hne]
      exact .some ⟨[], Grow.refl, hinv, hr, rfl, ⟨k, rfl⟩, fun _ _ _ => rfl⟩
  | some c =>
      obtain ⟨hc, h510, hroot⟩ := hs
      have hs : InSpace k m v (some c) := ⟨hc, h510, hroot⟩
      refine (ensureTable_spec hinv hr hs.validPath1
        (fun _ _ => h510) hroot (fun _ => h510) p1Table_aligned p2Table_aligned hfr
        (fun mem' fl' g hg hgr hother hnew x hx => by
          have hself : SelfMap mem' (m.cr3 / 4096) :=
            hr.selfMap.congr
              (hother _ 510 (Ne.symm hgr) fun he => absurd he.2 (Ne.symm hs.p1Index_ne))
          rw [Machine.frameOf_p2Table (m := ⟨mem', m.cr3, fl'⟩) hself hx
            (show word mem' _ _ % 2 = 1 by rw [hnew]; omega)]
          refine congrArg some ?_
          show word mem' (m.cr3 / 4096) (p1Index v) / 4096 = g
          rw [hnew]
          omega)).consequence id ?_
      rintro m' ⟨P, hg, hinv', hr', hlen, ht, hsame⟩
      exact ⟨P, hg, hinv', hr', hlen, ht, fun l hl hne => hsame _ l hl fun he => hne he.2⟩

theorem ensureTable2_spec {f2 : Nat} (h2 : tableAt m.mem k s (path1 v s) = some f2) :
    Attempt (m.ensureTable (p2Table baseInit v) (p2Index v) (p3Table baseInit v))
      (5 ≤ m.fl.totalblockcount) fun m' =>
      ∃ P, Grow k m m' P ∧ ForestInv k m' ∧ RootInv k m' ∧
        P.length = (if tableAt m.mem k s (path2 v s) = none then 1 else 0) ∧
        (∃ f3, tableAt m'.mem k s (path2 v s) = some f3) ∧
        ∀ l, ValidPath s l → l ≠ path2 v s → tableAt m'.mem k s l = tableAt m.mem k s l := by
  have hidx := (pIndex_lt v).2.1
  have hfr : m.frameOf (p2Table baseInit v + 8 * p2Index v) = some f2 :=
    frameOf_at2 hinv.tables hr hs (by omega) h2
  have hne2 : f2 ≠ m.cr3 / 4096 := by
    refine ne_root hinv.tables hr hs hs.validPath1 ?_ h2
    cases s with
    | none => exact .inl rfl
    | some c => exact .inr (by simp [path1])
  obtain ⟨o1, ht2⟩ := t2_eq hinv.tables hr hs h2
  refine (ensureTable_spec hinv hr hs.validPath2
    (fun hns hnil => by
      cases s with
      | none => exact absurd rfl hns
      | some c => simp [path1] at hnil)
    h2 (fun he => absurd he.symm hne2) p2Table_aligned p3Table_aligned hfr
    (fun mem' fl' g hg hgr hother hnew x hx => by
      have hkeep : ∀ j, word mem' (m.cr3 / 4096) j = word m.mem (m.cr3 / 4096) j :=
        fun j => hother _ j (Ne.symm hgr) fun he => hne2 he.1.symm
      have hself : SelfMap mem' (m.cr3 / 4096) := hr.selfMap.congr (hkeep 510)
      have ht2' : Machine.t2 mem' (m.cr3 / 4096) v = f2 := by
        rw [Machine.t2, hkeep]
        exact ht2
      rw [Machine.frameOf_p3Table (m := ⟨mem', m.cr3, fl'⟩) hself hx
        (show word mem' _ _ % 2 = 1 by rw [hkeep]; exact o1)
        (show word mem' (Machine.t2 mem' _ v) _ % 2 = 1 by rw [ht2', hnew]; omega)]
      refine congrArg some ?_
      show word mem' (Machine.t2 mem' (m.cr3 / 4096) v) (p2Index v) / 4096 = g
      rw [ht2', hnew]
      omega)).consequence id ?_
  rintro m' ⟨P, hg, hinv', hr', hlen, ht, hsame⟩
  exact ⟨P, hg, hinv', hr', hlen, ht, fun l hl hne => hsame _ l hl fun he => hne he.2⟩

theorem ensureTable3_spec {f3 : Nat} (h3 : tableAt m.mem k s (path2 v s) = some f3) :
    Attempt (m.ensureTable (p3Table baseInit v) (p3Index v) (p4Table baseInit v))
      (5 ≤ m.fl.totalblockcount) fun m' =>
      ∃ P, Grow k m m' P ∧ ForestInv k m' ∧ RootInv k m' ∧
        P.length = (if tableAt m.mem k s (path3 v s) = none then 1 else 0) ∧
        (∃ f4, tableAt m'.mem k s (path3 v s) = some f4) ∧
        ∀ l, ValidPath s l → l ≠ path3 v s → tableAt m'.mem k s l = tableAt m.mem k s l := by
  have hidx := (pIndex_lt v).2.2.1
  have hfr : m.frameOf (p3Table baseInit v + 8 * p3Index v) = some f3 :=
    frameOf_at3 hinv.tables hr hs (by omega) h3
  obtain ⟨f2, h2⟩ := table2_of_table3 h3
  have hne3 : f3 ≠ m.cr3 / 4096 :=
    ne_root hinv.tables hr hs hs.validPath2 (.inr (by simp [path2])) h3
  have hne23 : f2 ≠ f3 := by
    rintro rfl
    obtain ⟨-, hl⟩ := hinv.tables.path_unique hs.validPath1 hs.validPath2 h2 h3
    exact absurd (congrArg List.length hl) (by simp [path2])
  have htab2 : IsTable m.mem k f2 := ⟨s, _, hs.validPath1, h2⟩
  obtain ⟨o1, ht2⟩ := t2_eq hinv.tables hr hs h2
  obtain ⟨o2, ht3⟩ := t3_eq hinv.tables hr hs h2 h3
  refine (ensureTable_spec hinv hr hs.validPath3
    (fun _ hnil => by simp [path2] at hnil)
    h3 (fun he => absurd he.symm hne3) p3Table_aligned p4Table_aligned hfr
    (fun mem' fl' g hg hgr hother hnew x hx => by
      have hkeep : ∀ j, word mem' (m.cr3 / 4096) j = word m.mem (m.cr3 / 4096) j :=
        fun j => hother _ j (Ne.symm hgr) fun he => hne3 he.1.symm
      have hkeep2 : ∀ j, word mem' f2 j = word m.mem f2 j :=
        fun j => hother _ j (fun he => hg (he ▸ htab2)) fun he => hne23 he.1
      have hself : SelfMap mem' (m.cr3 / 4096) := hr.selfMap.congr (hkeep 510)
      have ht2' : Machine.t2 mem' (m.cr3 / 4096) v = f2 := by
        rw [Machine.t2, hkeep]
        exact ht2
      have ht3' : Machine.t3 mem' (m.cr3 / 4096) v = f3 := by
        rw [Machine.t3, ht2', hkeep2, ← ht2]
        exact ht3
      rw [Machine.frameOf_p4Table (m := ⟨mem', m.cr3, fl'⟩) hself hx
        (show word mem' _ _ % 2 = 1 by rw [hkeep]; exact o1)
        (show word mem' (Machine.t2 mem' _ v) _ % 2 = 1 by rw [ht2', hkeep2]; exact o2)
        (show word mem' (Machine.t3 mem' _ v) _ % 2 = 1 by rw [ht3', hnew]; omega)]
      refine congrArg some ?_
      show word mem' (Machine.t3 mem' (m.cr3 / 4096) v) (p3Index v) / 4096 = g
      rw [ht3', hnew]
      omega)).consequence id ?_
  rintro m' ⟨P, hg, hinv', hr', hlen, ht, hsame⟩
  exact ⟨P, hg, hinv', hr', hlen, ht, fun l hl hne => hsame _ l hl fun he => hne he.2⟩

omit hinv hr hs in
theorem ensureTables_eq : m.ensureTables v =
    (m.ensureTable (p1Table baseInit) (p1Index v) (p2Table baseInit v)).bind fun m =>
      (m.ensureTable (p2Table baseInit v) (p2Index v) (p3Table baseInit v)).bind fun m =>
        m.ensureTable (p3Table baseInit v) (p3Index v) (p4Table baseInit v) := by
  unfold Machine.ensureTables
  simp only [p2Table_p1Table, p3Table_p2Table, p4Table_p3Table]
  rfl

omit hinv hr hs in
theorem missing_le : missing m.mem k v s ≤ 3 := by
  unfold missing
  split_ifs <;> omega

/-- The three levels together. -/
theorem ensureTables_forest : Attempt (m.ensureTables v) (7 ≤ m.fl.totalblockcount) fun m' =>
    ∃ P, Grow k m m' P ∧ ForestInv k m' ∧ RootInv k m' ∧
      P.length = missing m.mem k v s ∧ ∃ f4, tableAt m'.mem k s (path3 v s) = some f4 := by
  rw [ensureTables_eq]
  have hne12 : path2 v s ≠ path1 v s := fun he => by simp [path2] at he
  have hne23 : path3 v s ≠ path2 v s := fun he => by simp [path3] at he
  have hne13 : path3 v s ≠ path1 v s := by
    intro he
    have hlen := congrArg List.length he
    simp only [path3, path2, List.length_cons] at hlen
    omega
  refine ((ensureTable1_spec hinv hr hs).bind (N := fun m₁ => 6 ≤ m₁.fl.totalblockcount)
    ?_).consequence ?_ fun _ => id
  · rintro m₁ ⟨P, hg₁, hinv₁, hr₁, hlen₁, ⟨f2, hf2⟩, hsame₁⟩
    have hs₁ := hg₁.inSpace hs
    refine ((ensureTable2_spec hinv₁ hr₁ hs₁ hf2).bind (N := fun m₂ => 5 ≤ m₂.fl.totalblockcount)
      ?_).consequence ?_ fun _ => id
    · rintro m₂ ⟨Q, hg₂, hinv₂, hr₂, hlen₂, ⟨f3, hf3⟩, hsame₂⟩
      refine (ensureTable3_spec hinv₂ hr₂ (hg₂.inSpace hs₁) hf3).consequence id ?_
      rintro m' ⟨R, hg₃, hinv₃, hr₃, hlen₃, ht, -⟩
      refine ⟨P ++ Q ++ R, (hg₁.trans hg₂).trans hg₃, hinv₃, hr₃, ?_, ht⟩
      rw [hsame₁ _ hs.validPath2 hne12] at hlen₂
      rw [hsame₂ _ hs.validPath3 hne23, hsame₁ _ hs.validPath3 hne13] at hlen₃
      rw [List.length_append, List.length_append, hlen₁, hlen₂, hlen₃]
      rfl
    · refine fun h6 => ⟨by omega, ?_⟩
      rintro m₂ ⟨Q, hg₂, hinv₂, -, hlen₂, -⟩
      have htot := hinv₁.free.toThreaded.total_eq hinv₂.free.toThreaded hg₂.blocks
      split_ifs at hlen₂ <;> omega
  · refine fun h7 => ⟨by omega, ?_⟩
    rintro m₁ ⟨P, hg₁, hinv₁, -, hlen₁, -⟩
    have htot := hinv.free.toThreaded.total_eq hinv₁.free.toThreaded hg₁.blocks
    split_ifs at hlen₁ <;> omega

end Levels

/-- Tables come from the free list, so no page uses their frames. -/
theorem LeafInv.alloc (hinv : PageInv k m res) (hblocks : m.fl.blocks = P ++ m'.fl.blocks)
    (hfm : m'.fl.freeMemory = m.fl.freeMemory)
    (hrefs : ∀ b, b ∉ P → m'.fl.refCount b = m.fl.refCount b)
    (hfresh : ∀ f, IsTable m'.mem k f → IsTable m.mem k f ∨ ∃ b ∈ P, f = m.fl.frame b) :
    LeafInv (leaf m.mem k) (IsTable m'.mem k) m'.fl res := by
  have hfree : ∀ b ∈ P, b ∈ m.fl.blocks := by
    intro b hb
    rw [hblocks]
    exact List.mem_append_left _ hb
  have hcount : ∀ b < listSize,
      (users (claims (leaf m.mem k) res) (m.fl.frame b)).ncard ≤ m'.fl.refCount b := by
    intro b hb
    by_cases hP : b ∈ P
    · have hnone : users (claims (leaf m.mem k) res) (m.fl.frame b) = ∅ := by
        refine Set.eq_empty_of_forall_notMem fun p hp => ?_
        exact hinv.leaves.free_unused hinv.free (hfree b hP) (mem_users.mp hp)
      rw [hnone, Set.ncard_empty]
      exact Nat.zero_le _
    · rw [hrefs b hP]
      exact hinv.leaves.count b hb
  refine (hinv.leaves.recount hfm hcount).retable fun f hf => ?_
  refine (hfresh f hf).imp_right ?_
  rintro ⟨b, hb, rfl⟩ p _ hp he
  exact hinv.leaves.not_free hinv.free hp (he ▸ ⟨b, hfree b hb, rfl⟩)

/-- The three levels together, with leaf entries and counts. -/
theorem ensureTables_spec (hinv : PageInv k m res) (hr : RootInv k m) (hs : InSpace k m v s) :
    Attempt (m.ensureTables v) (7 ≤ m.fl.totalblockcount) fun m' =>
      ∃ P, Grow k m m' P ∧ PageInv k m' res ∧ RootInv k m' ∧
        P.length = missing m.mem k v s ∧ ∃ f4, tableAt m'.mem k s (path3 v s) = some f4 := by
  refine (ensureTables_forest hinv.forest hr hs).consequence id ?_
  rintro m' ⟨P, hg, hinv', hr', hlen, ht⟩
  refine ⟨P, hg, ⟨hinv'.free, hinv'.tables, ?_⟩, hr', hlen, ht⟩
  rw [hg.leaf]
  exact .alloc hinv hg.blocks hg.freeMemory hg.refs hg.fresh

end Sbunix
