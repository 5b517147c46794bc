import Sbunix.Sys.Proofs.LeafCounts
import Sbunix.Sys.Proofs.Mmu
import Sbunix.Sys.Proofs.Tables

/-!
# The current address space

How the addresses that the kernel computes for an address `v` reach the tables of the
half that `v` lies in, below the PML4 in `cr3`.
-/

namespace Sbunix

/-- The state of memory between kernel operations. -/
structure PageInv (k : Nat) (m : Machine) (res : Page → Option Nat) : Prop where
  free : FreeInv m.fl
  tables : TableInv k m.mem m.fl
  leaves : LeafInv (leaf m.mem k) (IsTable m.mem k) m.fl res

/-- What building page tables needs and keeps, whatever the leaf entries are. -/
structure ForestInv (k : Nat) (m : Machine) : Prop where
  free : FreeInv m.fl
  tables : TableInv k m.mem m.fl

/-- The frame in `cr3` is a PML4 that maps itself and the kernel half. -/
structure RootInv (k : Nat) (m : Machine) : Prop where
  self : word m.mem (m.cr3 / 4096) 510 = m.cr3 / 4096 * 4096 + 7 ∨
    word m.mem (m.cr3 / 4096) 510 = m.cr3 / 4096 * 4096 + 3
  kern : word m.mem (m.cr3 / 4096) 511 = k * 4096 + 7
  notFree : ¬ m.fl.IsFree (m.cr3 / 4096)
  outside : ∀ l, ValidPath none l → tableAt m.mem k none l ≠ some (m.cr3 / 4096)

/-- `v` lies in the half `s` of the current address space. -/
def InSpace (k : Nat) (m : Machine) (v : Nat) : Space → Prop
  | none => p1Index v = 511
  | some c => c < procSize ∧ p1Index v < 510 ∧ root m.mem k (some c) = some (m.cr3 / 4096)

variable {k : Nat} {m : Machine} {res : Page → Option Nat} {mem' : Nat → Nat → Nat}
  {s : Space} {l : List Nat} {v o c f f2 f3 f4 : Nat}

theorem pIndex_pageOf : p1Index v = pageOf v / 2 ^ 27 % 512 ∧ p2Index v = pageOf v / 2 ^ 18 % 512 ∧
    p3Index v = pageOf v / 2 ^ 9 % 512 ∧ p4Index v = pageOf v % 512 := by
  rw [p1Index_eq, p2Index_eq, p3Index_eq, p4Index_eq]
  unfold pageOf
  omega

theorem path3_eq : path3 v s = pagePath s (pageOf v) := by
  obtain ⟨h1, h2, h3, -⟩ := pIndex_pageOf (v := v)
  cases s with
  | none => rw [path3, path2, path1, h2, h3, pagePath]
  | some c => rw [path3, path2, path1, h1, h2, h3, pagePath]

/-- The addresses of one page. -/
theorem pIndex_add (hv : v % 4096 = 0) (ho : o < 4096) : p1Index (v + o) = p1Index v ∧
    p2Index (v + o) = p2Index v ∧ p3Index (v + o) = p3Index v ∧ p4Index (v + o) = p4Index v := by
  simp only [p1Index_eq, p2Index_eq, p3Index_eq, p4Index_eq]
  omega

theorem pageOf_add (hv : v % 4096 = 0) (ho : o < 4096) : pageOf (v + o) = pageOf v := by
  unfold pageOf
  omega

theorem path3_add (hv : v % 4096 = 0) (ho : o < 4096) : path3 (v + o) s = path3 v s := by
  rw [path3_eq, path3_eq, pageOf_add hv ho]

theorem InSpace.add (h : InSpace k m v s) (hv : v % 4096 = 0) (ho : o < 4096) :
    InSpace k m (v + o) s := by
  have hi := (pIndex_add hv ho).1
  cases s with
  | none => exact hi.trans h
  | some c => exact ⟨h.1, hi.symm ▸ h.2.1, h.2.2⟩

theorem InSpace.validPage (h : InSpace k m v s) : ValidPage (s, pageOf v) := by
  cases s with
  | none =>
      have h511 : p1Index v = 511 := h
      rw [p1Index_eq] at h511
      unfold ValidPage pageOf
      omega
  | some c =>
      obtain ⟨hc, h510, -⟩ := h
      rw [p1Index_eq] at h510
      refine ⟨hc, ?_⟩
      unfold pageOf
      omega

theorem InSpace.validPath3 (h : InSpace k m v s) : ValidPath s (path3 v s) := by
  rw [path3_eq]
  exact validPath_pagePath h.validPage

theorem InSpace.validPath2 (h : InSpace k m v s) : ValidPath s (path2 v s) :=
  validPath_closed s _ _ h.validPath3

theorem InSpace.validPath1 (h : InSpace k m v s) : ValidPath s (path1 v s) :=
  validPath_closed s _ _ h.validPath2

theorem InSpace.of_add (hv : v % 4096 = 0) (ho : o < 4096) (h : InSpace k m (v + o) s) :
    InSpace k m v s := by
  have hi := (pIndex_add hv ho).1
  cases s with
  | none => exact hi.symm.trans h
  | some c => exact ⟨h.1, hi ▸ h.2.1, h.2.2⟩

theorem InSpace.congr {m' : Machine} (h : InSpace k m v s) (hcr3 : m'.cr3 = m.cr3)
    (htab : ∀ s l, ValidPath s l → tableAt m'.mem k s l = tableAt m.mem k s l) :
    InSpace k m' v s := by
  cases s with
  | none => exact h
  | some c =>
      have hnil : ValidPath (some c) [] := h.validPath1.nil
      exact ⟨h.1, h.2.1, by rw [hcr3]; exact (htab (some c) [] hnil).trans h.2.2⟩

theorem InSpace.p1Index_ne (h : InSpace k m v s) : p1Index v ≠ 510 := by
  cases s with
  | none =>
      have h511 : p1Index v = 511 := h
      omega
  | some c =>
      have := h.2.1
      omega

theorem RootInv.selfMap (h : RootInv k m) : SelfMap m.mem (m.cr3 / 4096) := by
  unfold SelfMap
  rcases h.self with he | he <;> rw [he] <;> omega

theorem PageInv.forest (h : PageInv k m res) : ForestInv k m := ⟨h.free, h.tables⟩

/-- The PML4 of a slot may be loaded into `cr3`. -/
theorem RootInv.of_slot (h : TableInv k m.mem m.fl) (hc : c < procSize)
    (hr : root m.mem k (some c) = some (m.cr3 / 4096)) : RootInv k m := by
  obtain ⟨hself, hkern⟩ := h.top c _ hc hr
  have hnil : ValidPath (some c) [] := ⟨hc, by simp⟩
  refine ⟨.inl hself, hkern, h.notFree _ ⟨some c, [], hnil, hr⟩, ?_⟩
  intro l hl hf
  obtain ⟨hs, -⟩ := h.path_unique hl hnil hf hr
  exact absurd hs (by simp)

/-- A deeper table has the shallower ones above it. -/
theorem table2_of_table3 (h3 : tableAt m.mem k s (path2 v s) = some f3) :
    ∃ f2, tableAt m.mem k s (path1 v s) = some f2 := by
  rw [path2, tableAt_cons, Option.bind_eq_some_iff] at h3
  obtain ⟨f2, h2, -⟩ := h3
  exact ⟨f2, h2⟩

theorem table3_of_table4 (h4 : tableAt m.mem k s (path3 v s) = some f4) :
    ∃ f3, tableAt m.mem k s (path2 v s) = some f3 := by
  rw [path3, tableAt_cons, Option.bind_eq_some_iff] at h4
  obtain ⟨f3, h3, -⟩ := h4
  exact ⟨f3, h3⟩

/-- What is kept of the PML4 in use and of the tables keeps `RootInv`. -/
theorem RootInv.congr {m' : Machine} (h : RootInv k m) (hcr3 : m'.cr3 = m.cr3)
    (hw : ∀ j, 510 ≤ j → word m'.mem (m.cr3 / 4096) j = word m.mem (m.cr3 / 4096) j)
    (htab : ∀ l, ValidPath none l → tableAt m'.mem k none l = tableAt m.mem k none l)
    (hfree : ¬ m'.fl.IsFree (m.cr3 / 4096)) : RootInv k m' := by
  refine ⟨?_, ?_, ?_, ?_⟩
  · rw [hcr3, hw 510 (by decide)]
    exact h.self
  · rw [hcr3, hw 511 (by decide)]
    exact h.kern
  · rw [hcr3]
    exact hfree
  · intro l hl
    rw [hcr3, htab l hl]
    exact h.outside l hl

section

variable (hinv : TableInv k m.mem m.fl) (hr : RootInv k m) (hs : InSpace k m v s)

include hr hs in
/-- The first table below the PML4. -/
theorem tableAt_path1 :
    tableAt m.mem k s (path1 v s) = child m.mem (m.cr3 / 4096) (p1Index v) := by
  cases s with
  | none =>
      have h511 : p1Index v = 511 := hs
      rw [h511, child, hr.kern, if_pos ⟨by decide, by omega⟩]
      show some k = _
      exact congrArg some (by omega)
  | some c =>
      obtain ⟨-, -, hroot⟩ := hs
      rw [path1, tableAt_cons]
      show (root m.mem k (some c)).bind _ = _
      rw [hroot]
      rfl

include hinv hr hs

theorem entry1 : word m.mem (m.cr3 / 4096) (p1Index v) = 0 ∨
    word m.mem (m.cr3 / 4096) (p1Index v) % 4096 = 7 := by
  cases s with
  | none =>
      have h511 : p1Index v = 511 := hs
      rw [h511, hr.kern]
      omega
  | some c => exact hinv.entry (some c) (p1Index v) [] _ hs.validPath1 hs.2.2

/-! The entries on the way to the tables of `v`. -/

theorem entry_path1 (h2 : tableAt m.mem k s (path1 v s) = some f2) :
    word m.mem (m.cr3 / 4096) (p1Index v) = f2 * 4096 + 7 := by
  rw [tableAt_path1 hr hs] at h2
  obtain ⟨-, hne, hdiv⟩ := child_eq_some h2
  have h7 := (entry1 hinv hr hs).resolve_left hne
  omega

omit hr in
theorem entry_path2 (h2 : tableAt m.mem k s (path1 v s) = some f2)
    (h3 : tableAt m.mem k s (path2 v s) = some f3) :
    word m.mem f2 (p2Index v) = f3 * 4096 + 7 := by
  have hentry := hinv.entry s (p2Index v) (path1 v s) f2 hs.validPath2 h2
  rw [path2, tableAt_cons, h2] at h3
  obtain ⟨-, hne, hdiv⟩ := child_eq_some h3
  have h7 := hentry.resolve_left hne
  omega

omit hr in
theorem entry_path3 (h3 : tableAt m.mem k s (path2 v s) = some f3)
    (h4 : tableAt m.mem k s (path3 v s) = some f4) :
    word m.mem f3 (p3Index v) = f4 * 4096 + 7 := by
  have hentry := hinv.entry s (p3Index v) (path2 v s) f3 hs.validPath3 h3
  rw [path3, tableAt_cons, h3] at h4
  obtain ⟨-, hne, hdiv⟩ := child_eq_some h4
  have h7 := hentry.resolve_left hne
  omega

theorem t2_eq (h2 : tableAt m.mem k s (path1 v s) = some f2) :
    word m.mem (m.cr3 / 4096) (p1Index v) % 2 = 1 ∧ Machine.t2 m.mem (m.cr3 / 4096) v = f2 := by
  rw [Machine.t2, entry_path1 hinv hr hs h2]
  omega

theorem t3_eq (h2 : tableAt m.mem k s (path1 v s) = some f2)
    (h3 : tableAt m.mem k s (path2 v s) = some f3) :
    word m.mem f2 (p2Index v) % 2 = 1 ∧ Machine.t3 m.mem (m.cr3 / 4096) v = f3 := by
  rw [Machine.t3, (t2_eq hinv hr hs h2).2, entry_path2 hinv hs h2 h3]
  omega

theorem t4_eq (h2 : tableAt m.mem k s (path1 v s) = some f2)
    (h3 : tableAt m.mem k s (path2 v s) = some f3)
    (h4 : tableAt m.mem k s (path3 v s) = some f4) :
    word m.mem f3 (p3Index v) % 2 = 1 ∧ Machine.t4 m.mem (m.cr3 / 4096) v = f4 := by
  rw [Machine.t4, (t3_eq hinv hr hs h2 h3).2, entry_path3 hinv hs h3 h4]
  omega

/-- No table below the PML4 is the PML4. -/
theorem ne_root (hl : ValidPath s l) (hne : s = none ∨ l ≠ []) (hf : tableAt m.mem k s l = some f) :
    f ≠ m.cr3 / 4096 := by
  rintro rfl
  cases s with
  | none => exact hr.outside l hl hf
  | some c =>
      obtain ⟨-, hnil⟩ := hinv.path_unique hl hl.nil hf hs.2.2
      exact hne.elim (by simp) (fun h => h hnil)

/-! The addresses of `sys/paging.c` for the tables of `v`. -/

section

variable (ho : o < 4096)

include ho

omit hinv hs in
theorem frameOf_at1 : m.frameOf (p1Table baseInit + o) = some (m.cr3 / 4096) :=
  Machine.frameOf_p1Table hr.selfMap ho

theorem frameOf_at2 (h2 : tableAt m.mem k s (path1 v s) = some f2) :
    m.frameOf (p2Table baseInit v + o) = some f2 := by
  obtain ⟨o1, t2⟩ := t2_eq hinv hr hs h2
  rw [Machine.frameOf_p2Table hr.selfMap ho o1, t2]

theorem frameOf_at3 (h3 : tableAt m.mem k s (path2 v s) = some f3) :
    m.frameOf (p3Table baseInit v + o) = some f3 := by
  obtain ⟨f2, h2⟩ := table2_of_table3 h3
  obtain ⟨o1, t2⟩ := t2_eq hinv hr hs h2
  obtain ⟨o2, t3⟩ := t3_eq hinv hr hs h2 h3
  rw [Machine.frameOf_p3Table hr.selfMap ho o1 (t2.symm ▸ o2), t3]

theorem frameOf_at4 (h4 : tableAt m.mem k s (path3 v s) = some f4) :
    m.frameOf (p4Table baseInit v + o) = some f4 := by
  obtain ⟨f3, h3⟩ := table3_of_table4 h4
  obtain ⟨f2, h2⟩ := table2_of_table3 h3
  obtain ⟨o1, t2⟩ := t2_eq hinv hr hs h2
  obtain ⟨o2, t3⟩ := t3_eq hinv hr hs h2 h3
  obtain ⟨o3, t4⟩ := t4_eq hinv hr hs h2 h3 h4
  rw [Machine.frameOf_p4Table hr.selfMap ho o1 (t2.symm ▸ o2) (t3.symm ▸ o3), t4]

end

/-- An address on a mapped page leads to the mapped frame, whatever happens to one frame
`g` that is no table on the way. -/
theorem frameOf_path (mem' : Nat → Nat → Nat) (fl' : FreeList) (g : Nat)
    (h4 : tableAt m.mem k s (path3 v s) = some f4)
    (hg : ∀ l, ValidPath s l → tableAt m.mem k s l ≠ some g) (hgr : g ≠ m.cr3 / 4096)
    (hother : ∀ f j, f ≠ g → f ≠ f4 → word mem' f j = word m.mem f j)
    (hodd : word mem' f4 (p4Index v) % 2 = 1) :
    (Machine.mk mem' m.cr3 fl').frameOf v = some (word mem' f4 (p4Index v) / 4096) := by
  obtain ⟨f3, h3⟩ := table3_of_table4 h4
  obtain ⟨f2, h2⟩ := table2_of_table3 h3
  have hne4 : f4 ≠ m.cr3 / 4096 :=
    ne_root hinv hr hs hs.validPath3 (.inr (by simp [path3])) h4
  have hlen : ∀ l, l.length < (path3 v s).length → ValidPath s l → tableAt m.mem k s l ≠ some f4 := by
    intro l hlt hl hf
    obtain ⟨-, hp⟩ := hinv.path_unique hl hs.validPath3 hf h4
    exact absurd (congrArg List.length hp) (Nat.ne_of_lt hlt)
  have k1 : word mem' (m.cr3 / 4096) (p1Index v) = f2 * 4096 + 7 := by
    rw [hother _ _ hgr.symm hne4.symm]
    exact entry_path1 hinv hr hs h2
  have k2 : word mem' f2 (p2Index v) = f3 * 4096 + 7 := by
    rw [hother f2]
    · exact entry_path2 hinv hs h2 h3
    · exact fun he => hg _ hs.validPath1 (he ▸ h2)
    · exact fun he => hlen _ (by simp [path3, path2]) hs.validPath1 (he ▸ h2)
  have k3 : word mem' f3 (p3Index v) = f4 * 4096 + 7 := by
    rw [hother f3]
    · exact entry_path3 hinv hs h3 h4
    · exact fun he => hg _ hs.validPath2 (he ▸ h3)
    · exact fun he => hlen _ (by simp [path3]) hs.validPath2 (he ▸ h3)
  have hdiv : ∀ f, (f * 4096 + 7) / 4096 = f := fun f => by omega
  rw [Machine.frameOf, walk_eq k1 (by rw [hdiv, k2]) (by rw [hdiv, k3])
    (show _ = word mem' f4 (p4Index v) by rw [hdiv]) ⟨by omega, by omega, by omega, hodd⟩]
  rfl

/-- The walk of an address on a mapped page ends with its leaf entry. -/
theorem walk_leaf (hodd : leaf m.mem k (s, pageOf v) % 2 = 1) :
    ∃ f2 f3 f4, walk m.mem m.cr3 v =
      some ⟨f2 * 4096 + 7, f3 * 4096 + 7, f4 * 4096 + 7, leaf m.mem k (s, pageOf v)⟩ := by
  have hne : leaf m.mem k (s, pageOf v) ≠ 0 := by omega
  obtain ⟨hp, f4, h4⟩ := exists_table hne
  have hl := leaf_of_table hp h4
  rw [← path3_eq] at h4
  obtain ⟨f3, h3⟩ := table3_of_table4 h4
  obtain ⟨f2, h2⟩ := table2_of_table3 h3
  have hdiv : ∀ f, (f * 4096 + 7) / 4096 = f := fun f => by omega
  refine ⟨f2, f3, f4, walk_eq (entry_path1 hinv hr hs h2) ?_ ?_ ?_ ⟨?_, ?_, ?_, hodd⟩⟩
  · rw [hdiv, entry_path2 hinv hs h2 h3]
  · rw [hdiv, entry_path3 hinv hs h3 h4]
  · rw [hdiv, hl, pIndex_pageOf.2.2.2]
  all_goals omega

theorem frameOf_leaf (hodd : leaf m.mem k (s, pageOf v) % 2 = 1) :
    m.frameOf v = some (leaf m.mem k (s, pageOf v) / 4096) := by
  obtain ⟨f2, f3, f4, hw⟩ := walk_leaf hinv hr hs hodd
  rw [Machine.frameOf, hw]
  rfl

/-- A page without a leaf entry is not mapped. -/
theorem walk_none (h0 : leaf m.mem k (s, pageOf v) = 0) : walk m.mem m.cr3 v = none := by
  have hdiv : ∀ f, (f * 4096 + 7) / 4096 = f := fun f => by omega
  have hempty : ∀ f i, child m.mem f i = none → i < 512 → word m.mem f i = 0 := by
    intro f i hc hi
    by_contra hne
    rw [child, if_pos ⟨hi, hne⟩] at hc
    exact absurd hc (by simp)
  obtain ⟨hi1, hi2, hi3, -⟩ := pIndex_lt v
  unfold walk
  cases h2 : tableAt m.mem k s (path1 v s) with
  | none =>
      rw [tableAt_path1 hr hs] at h2
      simp [hempty _ _ h2 hi1]
  | some f2 =>
      have e1 := entry_path1 hinv hr hs h2
      cases h3 : tableAt m.mem k s (path2 v s) with
      | none =>
          rw [path2, tableAt_cons, h2] at h3
          simp [e1, hdiv, hempty _ _ h3 hi2]
      | some f3 =>
          have e2 := entry_path2 hinv hs h2 h3
          cases h4 : tableAt m.mem k s (path3 v s) with
          | none =>
              rw [path3, tableAt_cons, h3] at h4
              simp [e1, e2, hdiv, hempty _ _ h4 hi3]
          | some f4 =>
              have e3 := entry_path3 hinv hs h3 h4
              rw [path3_eq] at h4
              rw [leaf_of_table hs.validPage h4, ← pIndex_pageOf.2.2.2] at h0
              simp [e1, e2, e3, hdiv, h0]

/-- What the walk of an address finds in its leaf entry, which is present or zero. -/
theorem walk_entry (hodd : leaf m.mem k (s, pageOf v) ≠ 0 → leaf m.mem k (s, pageOf v) % 2 = 1) :
    (walk m.mem m.cr3 v).map Walk.e4 =
      if leaf m.mem k (s, pageOf v) = 0 then none else some (leaf m.mem k (s, pageOf v)) := by
  split_ifs with h0
  · rw [walk_none hinv hr hs h0]
    rfl
  · obtain ⟨f2, f3, f4, hw⟩ := walk_leaf hinv hr hs (hodd h0)
    rw [hw]
    rfl

end

end Sbunix
