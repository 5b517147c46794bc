import Sbunix.Sys.Proofs.VmFork
import Sbunix.Sys.Proofs.FreshPages

/-!
# The map of a forked process

`copy_vma` over any list of VMAs: they may overlap, share pages and lie anywhere outside
slot 510, in the kernel half as well.  Leaf entries may have any flags.  What has been
shared is kept for a set of addresses, so that nodes may come back to a page.
-/

namespace Sbunix

open VmState

variable {k : Nat} {s t : VmState} {m₀ m m' : Machine} {a c ga gc n u v marked : Nat}
  {lf lf' lf'' : Page → Nat} {U D : Nat → Prop} {lists : Option Nat → List Nat} {xs ys : List Nat}

/-! ## Leaf entries -/

/-- `lf'` is `lf` with the pages of the addresses in `D` shared with slot `c`. -/
structure MapShared (lf lf' : Page → Nat) (a c : Nat) (D : Nat → Prop) : Prop where
  shared : ∀ u, D u → lf (pageAt a u) ≠ 0 → lf' (pageAt c u) = lf (pageAt a u) / 4096 * 4096 + 5
  other : ∀ p, (∀ u, D u → p = pageAt c u → lf (pageAt a u) = 0) → lf' p = lf p

namespace MapShared

theorem start : MapShared lf lf a c fun _ => False :=
  ⟨fun _ h => h.elim, fun _ _ => rfl⟩

theorem mono {D' : Nat → Prop} (h : MapShared lf lf' a c D) (hD : ∀ u, D' u ↔ D u) :
    MapShared lf lf' a c D' :=
  ⟨fun u hu => h.shared u ((hD u).mp hu), fun p hp => h.other p fun u hu => hp u ((hD u).mpr hu)⟩

/-- The parent keeps its frames, with less rights at most. -/
theorem parent (h : MapShared lf lf' a c D) (u : Nat) :
    lf' (pageAt a u) = lf (pageAt a u) ∨
      lf (pageAt a u) ≠ 0 ∧ lf' (pageAt a u) = lf (pageAt a u) / 4096 * 4096 + 5 := by
  by_cases hall : ∀ x, D x → pageAt a u = pageAt c x → lf (pageAt a x) = 0
  · exact .inl (h.other _ hall)
  · simp only [not_forall] at hall
    obtain ⟨x, hx, hp, hl⟩ := hall
    have hpx : pageAt a u = pageAt a x := pageAt_congr (congrArg Prod.snd hp)
    right
    rw [hpx, ← hpx, hp, h.shared x hx hl, ← hp, hpx]
    exact ⟨hl, rfl⟩

theorem parent_frame (h : MapShared lf lf' a c D) (u : Nat) :
    SameFrame (lf' (pageAt a u)) (lf (pageAt a u)) := by
  cases h.parent u with
  | inl heq => exact .of_eq heq
  | inr hne =>
    rw [hne.2]
    exact ⟨⟨fun h0 => absurd h0 (Nat.succ_ne_zero _), fun h0 => absurd h0 hne.1⟩,
      entry_div (by decide)⟩

/-- Outside the half of the child all frames stay. -/
theorem outside (h : MapShared lf lf' a c D) {p : Page} (hp : p.1 ≠ some c) :
    SameFrame (lf' p) (lf p) := by
  by_cases hall : ∀ u, D u → p = pageAt c u → lf (pageAt a u) = 0
  · exact .of_eq (h.other p hall)
  · simp only [not_forall] at hall
    obtain ⟨u, hu, rfl, h0⟩ := hall
    -- the page lies in the kernel half
    have hsame : pageAt a u = pageAt c u := by
      unfold pageAt spaceOf at hp ⊢
      split_ifs at hp ⊢ with h511
      · rfl
      · exact absurd rfl hp
    rw [← hsame]
    exact h.parent_frame u

/-- What the child has got are frames of the parent. -/
theorem inherited (h : MapShared lf lf' a c D) {q : Nat} (hq : lf (some c, q) = 0)
    (h0 : lf' (some c, q) ≠ 0) :
    lf (some a, q) ≠ 0 ∧ lf' (some c, q) / 4096 = lf (some a, q) / 4096 := by
  by_cases hall : ∀ u, D u → (some c, q) = pageAt c u → lf (pageAt a u) = 0
  · rw [h.other _ hall] at h0
    exact absurd hq h0
  · simp only [not_forall] at hall
    obtain ⟨u, hu, hp, hu0⟩ := hall
    have hparent : pageAt a u = (some a, q) := by
      unfold pageAt spaceOf at hp ⊢
      split_ifs at hp ⊢
      · cases hp
      · exact congrArg (some a, ·) (congrArg Prod.snd hp).symm
    rw [hp, h.shared u hu hu0, hparent, entry_div (by decide)]
    rw [hparent] at hu0
    exact ⟨hu0, rfl⟩

/-- A page that the parent has not mapped is as before. -/
theorem unmapped (h : MapShared lf lf' a c D) (h0 : lf (pageAt a u) = 0) :
    lf' (pageAt c u) = lf (pageAt c u) := by
  apply h.other
  intro x _ hp
  rw [← pageAt_congr (congrArg Prod.snd hp)]
  exact h0

/-- The entry of the child, which had none in its own half. -/
theorem entry (h : MapShared lf lf' a c D) (hchild : ∀ q, lf (some c, q) = 0)
    (hu : ∃ x, D x ∧ pageOf u = pageOf x) :
    lf' (pageAt c u) =
      if lf (pageAt a u) = 0 then 0 else lf (pageAt a u) / 4096 * 4096 + 5 := by
  split_ifs with h0
  · rw [h.unmapped h0]
    unfold pageAt spaceOf at h0 ⊢
    split_ifs at h0 ⊢ with h511
    · exact h0
    · exact hchild _
  · obtain ⟨x, hx, hpage⟩ := hu
    rw [pageAt_congr hpage] at h0 ⊢
    rw [pageAt_congr hpage]
    exact h.shared x hx h0

/-- One address more: its page has just been shared. -/
theorem step (h : MapShared lf lf' a c D) (h0 : lf (pageAt a v) ≠ 0)
    (hnew : lf'' = Function.update lf' (pageAt c v) (lf (pageAt a v) / 4096 * 4096 + 5)) :
    MapShared lf lf'' a c fun u => D u ∨ u = v := by
  have hself : ∀ u, pageAt c u = pageAt c v →
      lf'' (pageAt c u) = lf (pageAt a u) / 4096 * 4096 + 5 := by
    intro u hp
    have hpage : pageAt a u = pageAt a v := pageAt_congr (congrArg Prod.snd hp)
    rw [hp, hpage, hnew, Function.update_self]
  refine ⟨?_, ?_⟩
  · intro u hu hl
    by_cases hp : pageAt c u = pageAt c v
    · exact hself u hp
    · rw [hnew, Function.update_of_ne hp]
      refine h.shared u (hu.resolve_right ?_) hl
      rintro rfl
      exact hp rfl
  · intro p hp
    have hne : p ≠ pageAt c v := fun he => h0 (hp v (.inr rfl) he)
    rw [hnew, Function.update_of_ne hne]
    exact h.other p fun u hu => hp u (.inl hu)

/-- One address more: nothing had to be done. -/
theorem skip (h : MapShared lf lf' a c D)
    (h0 : lf (pageAt a v) ≠ 0 → lf' (pageAt c v) = lf (pageAt a v) / 4096 * 4096 + 5) :
    MapShared lf lf' a c fun u => D u ∨ u = v := by
  refine ⟨?_, fun p hp => h.other p fun u hu => hp u (.inl hu)⟩
  intro u hu hl
  cases hu with
  | inl hD => exact h.shared u hD hl
  | inr he =>
    rw [he] at hl ⊢
    exact h0 hl

end MapShared

/-! ## Between two turns -/

/-- The addresses in `U` are ones that `copy_vma` can share for the process in slot `a`: they
lie outside slot 510, their entries are 64-bit words, and the frames of different pages are
different and not free. -/
structure Shareable (k : Nat) (m : Machine) (a : Nat) (U : Nat → Prop) : Prop where
  outside : ∀ u, U u → p1Index u ≠ 510
  fits : ∀ u, U u → leaf m.mem k (pageAt a u) < 2 ^ 64
  notFree : ∀ u, U u → leaf m.mem k (pageAt a u) ≠ 0 →
    ¬ m.fl.IsFree (leaf m.mem k (pageAt a u) / 4096)
  home : ∀ u v, U u → U v → leaf m.mem k (pageAt a u) ≠ 0 → leaf m.mem k (pageAt a v) ≠ 0 →
    leaf m.mem k (pageAt a u) / 4096 = leaf m.mem k (pageAt a v) / 4096 → pageOf u = pageOf v

/-- What holds between two turns of the loops of `copy_vma`: `m₀` is the machine at its
start, and the addresses in `D` have been shared. -/
structure ForkMap (k : Nat) (m₀ m : Machine) (a c ga gc : Nat) (D : Nat → Prop) : Prop where
  forest : ForestInv k m
  slots : Slots k m a c ga gc
  cr3 : m.cr3 = ga * 4096
  shared : MapShared (leaf m₀.mem k) (leaf m.mem k) a c D
  blocks : m.fl.blocks ⊆ m₀.fl.blocks
  freeMemory : m.fl.freeMemory = m₀.fl.freeMemory
  frames : ∀ f, ¬ IsTable m.mem k f → m.mem f = m₀.mem f

/-- Addresses outside slot 510 lie in one of the two halves. -/
theorem inSpace_spaceOf (hv : p1Index v ≠ 510) (hc : c < procSize)
    (hr : root m.mem k (some c) = some (m.cr3 / 4096)) : InSpace k m v (spaceOf c v) := by
  have hlt : p1Index v < 512 := (pIndex_lt v).1
  unfold spaceOf
  by_cases h511 : p1Index v = 511
  · rw [if_pos h511]
    exact h511
  · rw [if_neg h511]
    exact ⟨hc, by omega, hr⟩

namespace ForkMap

theorem frame_eq (h : ForkMap k m₀ m a c ga gc D) (b : Nat) : m.fl.frame b = m₀.fl.frame b :=
  FreeList.frame_congr h.freeMemory b

theorem isFree (h : ForkMap k m₀ m a c ga gc D) {f : Nat} (hf : m.fl.IsFree f) :
    m₀.fl.IsFree f := by
  obtain ⟨b, hb, rfl⟩ := hf
  exact ⟨b, h.blocks hb, h.frame_eq b⟩

theorem root_cr3 (h : ForkMap k m₀ m a c ga gc D) :
    root m.mem k (some a) = some (m.cr3 / 4096) := by
  rw [h.cr3, Nat.mul_div_cancel _ (by decide)]
  exact h.slots.parent

theorem entry_lt (h : ForkMap k m₀ m a c ga gc D) (hU : Shareable k m₀ a U) (hv : U v) :
    leaf m.mem k (pageAt a v) < 2 ^ 64 := by
  have hfits := hU.fits v hv
  cases h.shared.parent v with
  | inl heq => rw [heq]; exact hfits
  | inr hne => omega

/-- `get_phys_addr` reads the entry of the parent. -/
theorem getPhysAddr (h : ForkMap k m₀ m a c ga gc D) (hU : Shareable k m₀ a U) (hv : U v) :
    m.getPhysAddr v = some (leaf m.mem k (pageAt a v)) :=
  Machine.getPhysAddr_eq h.forest.tables
    (RootInv.of_slot h.forest.tables h.slots.lt.1 h.root_cr3)
    (inSpace_spaceOf (hU.outside v hv) h.slots.lt.1 h.root_cr3)

/-- A change of reference counts only. -/
theorem count {b x : Nat} (h : ForkMap k m₀ m a c ga gc D) (hb : b ∉ m.fl.blocks) :
    ForkMap k m₀ { m with fl := { m.fl with refCount := Function.update m.fl.refCount b x } }
      a c ga gc D := by
  obtain ⟨hfree, hblocks⟩ := h.forest.free.setCount (c := x) hb
  refine ⟨⟨hfree, ?_⟩, ⟨h.slots.ne, h.slots.lt, h.slots.parent, h.slots.child⟩, h.cr3, h.shared,
    ?_, h.freeMemory, h.frames⟩
  · apply h.forest.tables.refree
    intro f hf hfr
    obtain ⟨d, hd, rfl⟩ := hfr
    rw [hblocks] at hd
    exact h.forest.tables.notFree _ hf ⟨d, hd, rfl⟩
  · rw [hblocks]
    exact h.blocks

/-- `increment_reference_count` of the frame of a mapped page. -/
theorem increment (h : ForkMap k m₀ m a c ga gc D) (hU : Shareable k m₀ a U) (hv : U v)
    (h0 : leaf m.mem k (pageAt a v) ≠ 0) {paddr : Nat}
    (hp : paddr / 4096 = leaf m.mem k (pageAt a v) / 4096) :
    Attempt (m.fl.incrementReferenceCount paddr) (∃ b < listSize, paddr / 4096 = m₀.fl.frame b)
      fun fl => ForkMap k m₀ { m with fl := fl } a c ga gc D ∧
        fl.totalblockcount = m.fl.totalblockcount := by
  obtain ⟨hzero, hdiv⟩ := h.shared.parent_frame v
  have hnf := hU.notFree v hv fun hz => h0 (hzero.mpr hz)
  rw [← hdiv, ← hp] at hnf
  unfold FreeList.incrementReferenceCount
  refine ⟨?_, ?_⟩
  · intro hroom
    obtain ⟨b, hb, hfr⟩ := hroom
    rw [← h.frame_eq] at hfr
    rw [FreeList.blockindex_eq hb hfr]
    exact ⟨_, rfl⟩
  · intro fl hfl
    obtain ⟨b, hb, rfl⟩ := Option.map_eq_some_iff.mp hfl
    have hfr := FreeList.frame_of_blockindex hb
    refine ⟨h.count ?_, rfl⟩
    intro hmem
    apply hnf
    exact h.isFree ⟨b, hmem, hfr⟩

/-- `set_Cow` for the page of `v` in the tables of the child. -/
theorem setCow (h : ForkMap k m₀ m a c ga gc D) (hU : Shareable k m₀ a U) (hv : U v)
    {w : Nat} (hw : leaf m.mem k (pageAt a v) = w) (h0 : w ≠ 0) :
    Attempt (({ m with cr3 := gc * 4096 } : Machine).setCow v w) (7 ≤ m.fl.totalblockcount)
      fun m' => ForkMap k m₀ { m' with cr3 := ga * 4096 } a c ga gc (fun u => D u ∨ u = v) ∧
        leaf m'.mem k (pageAt c v) ≠ 0 ∧
        m.fl.totalblockcount = missing m.mem k v (spaceOf c v) + m'.fl.totalblockcount := by
  have hfit := h.entry_lt hU hv
  rw [hw] at hfit
  have hforest : ForestInv k ({ m with cr3 := gc * 4096 } : Machine) :=
    ⟨h.forest.free, h.forest.tables⟩
  have hroot : root ({ m with cr3 := gc * 4096 } : Machine).mem k (some c) =
      some (({ m with cr3 := gc * 4096 } : Machine).cr3 / 4096) := by
    show root m.mem k (some c) = some (gc * 4096 / 4096)
    rw [Nat.mul_div_cancel _ (by decide)]
    exact h.slots.child
  have hs := inSpace_spaceOf (hU.outside v hv) h.slots.lt.2 hroot
  -- a window lies in the kernel half, which parent and child share
  have hwin : Window (spaceOf c v, pageOf v) →
      leaf m.mem k (spaceOf c v, pageOf v) ≠ 0 ∧
        leaf m.mem k (spaceOf c v, pageOf v) / 4096 = w / 4096 := by
    intro hwin
    have hnone : spaceOf c v = none := hwin.1
    have hsame : pageAt a v = (spaceOf c v, pageOf v) := by
      unfold spaceOf at hnone
      split_ifs at hnone with h511
      unfold pageAt spaceOf
      rw [if_pos h511, if_pos h511]
    rw [← hsame, hw]
    exact ⟨h0, rfl⟩
  apply (Machine.setCow_forest hforest (RootInv.of_slot hforest.tables h.slots.lt.2 hroot) hs hfit
    hwin).consequence id
  intro m' hm'
  obtain ⟨P, hsh, hinv, -, hlen⟩ := hm'
  have hleaf : leaf m'.mem k =
      Function.update (leaf m.mem k) (pageAt c v) (w / 4096 * 4096 + 5) := hsh.leaf
  have hroots : ∀ d, d < procSize → root m'.mem k (some d) = root m.mem k (some d) := by
    intro d hd
    have hnil : ValidPath (some d) [] := ⟨hd, by simp⟩
    apply root_congr hnil
    intro j hj
    rw [hleaf, Function.update_apply]
    split_ifs with hp
    · obtain ⟨hne, hdiv⟩ := hwin (show Window (pageAt c v) from hp ▸ window_mk hj)
      rw [hp]
      refine ⟨⟨fun hz => absurd hz (Nat.succ_ne_zero _), fun hz => absurd hz hne⟩, ?_⟩
      rw [entry_div (by decide)]
      exact hdiv.symm
    · exact .of_eq rfl
  refine ⟨⟨⟨hinv.free, hinv.tables⟩, ⟨h.slots.ne, h.slots.lt, ?_, ?_⟩, rfl, ?_, ?_, ?_, ?_⟩, ?_, ?_⟩
  · exact (hroots a h.slots.lt.1).trans h.slots.parent
  · exact (hroots c h.slots.lt.2).trans h.slots.child
  · have hpar := h.shared.parent_frame v
    rw [hw] at hpar
    refine h.shared.step (fun hz => h0 (hpar.1.mpr hz)) ?_
    rw [← hpar.2]
    exact hleaf
  · intro b hb
    have hsub : b ∈ m.fl.blocks := by
      show b ∈ ({ m with cr3 := gc * 4096 } : Machine).fl.blocks
      rw [hsh.blocks]
      exact List.mem_append_right P hb
    exact h.blocks hsub
  · exact hsh.freeMemory.trans h.freeMemory
  · intro f hf
    exact (hsh.frames f hf).trans (h.frames f fun ht => hf (hsh.isTable f ht))
  · rw [hleaf, Function.update_self]
    exact Nat.succ_ne_zero _
  · rw [← hlen]
    exact hforest.free.total_eq hinv.free.toThreaded hsh.blocks

end ForkMap

/-! ## The byte loops -/

/-- The frames that `increment_reference_count` is called for lie in `p_list`. -/
def Listed (k : Nat) (m : Machine) (a : Nat) (U : Nat → Prop) : Prop :=
  ∀ u, U u → leaf m.mem k (pageAt a u) / 4096 ≠ 0 →
    ∃ b < listSize, leaf m.mem k (pageAt a u) / 4096 = m.fl.frame b

/-- The first of a range of pages and the others. -/
theorem forall_range_succ (hv : ∀ u, v ≤ u → u < v + (n + 1) → U u) :
    U v ∧ ∀ u, v + 1 ≤ u → u < v + 1 + n → U u := by
  refine ⟨hv v (Nat.le_refl v) (Nat.lt_add_of_pos_right (Nat.succ_pos n)), fun u hle hlt => ?_⟩
  apply hv u (Nat.le_of_succ_le hle)
  rw [Nat.add_right_comm v 1 n] at hlt
  exact hlt

/-- The loop of `increment_childpg_ref` changes reference counts only. -/
theorem incrementFrom_forkMap (hU : Shareable k m₀ a U) (h : ForkMap k m₀ m a c ga gc D)
    (hv : ∀ u, v ≤ u → u < v + n → U u) :
    Attempt (VmState.incrementFrom n v marked m) (Listed k m₀ a U)
      fun m' => ForkMap k m₀ m' a c ga gc D ∧ m'.fl.totalblockcount = m.fl.totalblockcount := by
  induction n generalizing m v marked with
  | zero => exact .some ⟨h, rfl⟩
  | succ n ih =>
    obtain ⟨hUv, hrest⟩ := forall_range_succ hv
    rw [VmState.incrementFrom, h.getPhysAddr hU hUv, Option.bind_eq_bind, Option.bind_some]
    dsimp only
    rw [and_pageMask (h.entry_lt hU hUv)]
    by_cases hcount : leaf m.mem k (pageAt a v) / 4096 * 4096 ≠ 0 ∧
        leaf m.mem k (pageAt a v) / 4096 * 4096 ≠ marked
    · rw [if_pos hcount, Option.bind_eq_bind]
      have hdiv : leaf m.mem k (pageAt a v) / 4096 * 4096 / 4096 =
          leaf m.mem k (pageAt a v) / 4096 := Nat.mul_div_cancel _ (by decide)
      have hpos : leaf m.mem k (pageAt a v) / 4096 ≠ 0 := by
        intro hz
        rw [hz] at hcount
        exact hcount.1 rfl
      have h0 : leaf m.mem k (pageAt a v) ≠ 0 := by
        intro hz
        rw [hz] at hpos
        exact hpos rfl
      have hfirst := h.increment hU hUv h0 hdiv
      apply (hfirst.bind (N := fun _ => Listed k m₀ a U) ?_).consequence
      · intro hroom
        refine ⟨?_, fun _ _ => hroom⟩
        rw [hdiv, (h.shared.parent_frame v).2]
        apply hroom v hUv
        rw [← (h.shared.parent_frame v).2]
        exact hpos
      · intro m' hm'
        exact hm'
      · intro fl hfl
        apply (ih hfl.1 hrest).consequence id
        intro m' hm'
        exact ⟨hm'.1, hm'.2.trans hfl.2⟩
    · rw [if_neg hcount]
      exact ih h hrest

/-! ## Tables for the child -/

/-- The tables that the child lacks for the page of `v`, if the parent has mapped it. -/
def tableCost (k : Nat) (m₀ m : Machine) (a c v : Nat) : Nat :=
  if leaf m₀.mem k (pageAt a v) = 0 then 0 else missing m.mem k v (spaceOf c v)

/-- A bound on the tables for `n` addresses from `v` on. -/
def tableNeed (k : Nat) (m₀ m : Machine) (a c v n : Nat) : Nat :=
  if n = 0 then 0 else 3 * ((v + n - 1) / 4096 - v / 4096) + tableCost k m₀ m a c v

theorem tableCost_le : tableCost k m₀ m a c v ≤ 3 := by
  unfold tableCost
  split_ifs
  · exact Nat.zero_le 3
  · exact missing_le

theorem missing_eq_zero {s : Space} (h : leaf m.mem k (s, pageOf v) ≠ 0) :
    missing m.mem k v s = 0 := by
  obtain ⟨-, f4, h4⟩ := exists_table h
  rw [← path3_eq] at h4
  obtain ⟨f3, h3⟩ := table3_of_table4 h4
  obtain ⟨f2, h2⟩ := table2_of_table3 h3
  simp [missing, h2, h3, h4]

/-- Once a page has been dealt with, it costs no more. -/
theorem tableCost_done (h : leaf m₀.mem k (pageAt a v) = 0 ∨ leaf m.mem k (pageAt c v) ≠ 0)
    (hu : u / 4096 = v / 4096) : tableCost k m₀ m a c u = 0 := by
  have hpage : pageOf u = pageOf v := by
    unfold pageOf
    rw [hu]
  unfold tableCost
  rw [pageAt_congr hpage]
  cases h with
  | inl h0 => rw [if_pos h0]
  | inr hne =>
    rw [← pageAt_congr hpage] at hne
    rw [missing_eq_zero hne, ite_self]

/-- The next address, after `m` has used some tables for `v` and become `m'`. -/
theorem tableNeed_succ {used : Nat}
    (hdone : leaf m₀.mem k (pageAt a v) = 0 ∨ leaf m'.mem k (pageAt c v) ≠ 0)
    (hused : used ≤ tableCost k m₀ m a c v) :
    tableNeed k m₀ m' a c (v + 1) n + used ≤ tableNeed k m₀ m a c v (n + 1) := by
  unfold tableNeed
  rw [if_neg (Nat.succ_ne_zero n)]
  by_cases hn : n = 0
  · rw [if_pos hn]
    omega
  · rw [if_neg hn]
    by_cases hpage : (v + 1) / 4096 = v / 4096
    · rw [tableCost_done hdone hpage]
      omega
    · have hle : tableCost k m₀ m' a c (v + 1) ≤ 3 := tableCost_le
      omega

/-- The frame in `marked` is that of a page that has been shared. -/
def Passed (k : Nat) (m₀ : Machine) (a marked : Nat) (D : Nat → Prop) : Prop :=
  marked = 0 ∨ ∃ u, D u ∧ leaf m₀.mem k (pageAt a u) ≠ 0 ∧
    marked / 4096 = leaf m₀.mem k (pageAt a u) / 4096

/-- An entry that equals `marked` is that of a page that has been shared. -/
theorem ForkMap.passed (h : ForkMap k m₀ m a c ga gc D) (hU : Shareable k m₀ a U)
    (hD : ∀ u, D u → U u) (hv : U v) (hmarked : Passed k m₀ a marked D)
    (h0 : leaf m₀.mem k (pageAt a v) ≠ 0)
    (heq : leaf m.mem k (pageAt a v) = marked) :
    leaf m.mem k (pageAt c v) = leaf m₀.mem k (pageAt a v) / 4096 * 4096 + 5 := by
  obtain ⟨hzero, hdiv⟩ := h.shared.parent_frame v
  have hne : marked ≠ 0 := by
    rw [← heq]
    exact fun hz => h0 (hzero.mp hz)
  obtain ⟨u, hu, hu0, hmark⟩ := hmarked.resolve_left hne
  have hpage : pageOf v = pageOf u := by
    apply hU.home v u hv (hD u hu) h0 hu0
    rw [← hdiv, heq, hmark]
  rw [pageAt_congr hpage, pageAt_congr hpage]
  exact h.shared.shared u hu hu0

theorem ForkMap.cover {D' : Nat → Prop} (h : ForkMap k m₀ m a c ga gc D) (hD : ∀ u, D' u ↔ D u) :
    ForkMap k m₀ m a c ga gc D' :=
  ⟨h.forest, h.slots, h.cr3, h.shared.mono hD, h.blocks, h.freeMemory, h.frames⟩

/-- The second loop of `copy_vma`. -/
theorem shareFrom_forkMap (hU : Shareable k m₀ a U) (h : ForkMap k m₀ m a c ga gc D)
    (hD : ∀ u, D u → U u) (hv : ∀ u, v ≤ u → u < v + n → U u)
    (hmarked : Passed k m₀ a marked D) :
    Attempt (VmState.shareFrom (gc * 4096) (ga * 4096) n v marked m)
      (7 + tableNeed k m₀ m a c v n ≤ m.fl.totalblockcount)
      fun m' => ForkMap k m₀ m' a c ga gc (fun u => D u ∨ v ≤ u ∧ u < v + n) ∧
        m.fl.totalblockcount ≤ m'.fl.totalblockcount + tableNeed k m₀ m a c v n := by
  induction n generalizing m v marked D with
  | zero =>
    refine .some ⟨h.cover fun u => or_iff_left ?_, Nat.le_add_right _ _⟩
    omega
  | succ n ih =>
    obtain ⟨hUv, hrest⟩ := forall_range_succ hv
    have hD' : ∀ u, D u ∨ u = v → U u := by
      intro u hu
      cases hu with
      | inl hDu => exact hD u hDu
      | inr he =>
        rw [he]
        exact hUv
    have hset : ∀ u, (D u ∨ v ≤ u ∧ u < v + (n + 1)) ↔
        ((D u ∨ u = v) ∨ v + 1 ≤ u ∧ u < v + 1 + n) := by
      intro u
      rw [or_assoc]
      apply or_congr_right
      omega
    obtain ⟨w, hw⟩ : ∃ w, leaf m.mem k (pageAt a v) = w := ⟨_, rfl⟩
    obtain ⟨hzero, hdiv⟩ := h.shared.parent_frame v
    rw [hw] at hzero hdiv
    rw [VmState.shareFrom, h.getPhysAddr hU hUv, hw, Option.bind_eq_bind, Option.bind_some]
    by_cases hskip : w = 0 ∨ w = marked
    · rw [if_pos hskip]
      have hchild : leaf m₀.mem k (pageAt a v) ≠ 0 →
          leaf m.mem k (pageAt c v) = leaf m₀.mem k (pageAt a v) / 4096 * 4096 + 5 := by
        intro h0
        apply h.passed hU hD hUv hmarked h0
        exact hw.trans (hskip.resolve_left fun hz => h0 (hzero.mp hz))
      have hdone : leaf m₀.mem k (pageAt a v) = 0 ∨ leaf m.mem k (pageAt c v) ≠ 0 := by
        by_cases h0 : leaf m₀.mem k (pageAt a v) = 0
        · exact .inl h0
        · right
          rw [hchild h0]
          exact Nat.succ_ne_zero _
      have hneed := tableNeed_succ (n := n) hdone (Nat.zero_le (tableCost k m₀ m a c v))
      have hmap : ForkMap k m₀ m a c ga gc fun u => D u ∨ u = v :=
        ⟨h.forest, h.slots, h.cr3, h.shared.skip hchild, h.blocks, h.freeMemory, h.frames⟩
      have hmarked' : Passed k m₀ a marked fun u => D u ∨ u = v := by
        apply hmarked.imp_right
        intro hex
        cases hex with
        | intro u hu => exact ⟨u, .inl hu.1, hu.2⟩
      apply (ih hmap hD' hrest hmarked').consequence
      · intro hroom
        omega
      · intro m' hm'
        exact ⟨hm'.1.cover hset, by omega⟩
    · rw [if_neg hskip, Option.bind_eq_bind]
      rw [not_or] at hskip
      have h0 : leaf m₀.mem k (pageAt a v) ≠ 0 := fun hz => hskip.1 (hzero.mpr hz)
      have hcost : tableCost k m₀ m a c v = missing m.mem k v (spaceOf c v) := if_neg h0
      have hmarked' : Passed k m₀ a w fun u => D u ∨ u = v := .inr ⟨v, .inr rfl, h0, hdiv⟩
      apply ((h.setCow hU hUv hw hskip.1).bind (N := fun m₁ =>
        7 + tableNeed k m₀ m₁ a c (v + 1) n ≤ m₁.fl.totalblockcount) ?_).consequence
      · intro hroom
        refine ⟨by omega, ?_⟩
        intro m₁ hm₁
        have hneed := tableNeed_succ (n := n) (.inr hm₁.2.1) (Nat.le_of_eq hcost.symm)
        have htotal := hm₁.2.2
        omega
      · intro m' hm'
        exact hm'
      · intro m₁ hm₁
        have hneed := tableNeed_succ (n := n) (.inr hm₁.2.1) (Nat.le_of_eq hcost.symm)
        apply (ih hm₁.1 hD' hrest hmarked').consequence
        · intro hroom
          exact hroom
        · intro m' hm'
          have htotal := hm₁.2.2
          have hpost : m₁.fl.totalblockcount ≤
              m'.fl.totalblockcount + tableNeed k m₀ m₁ a c (v + 1) n := hm'.2
          exact ⟨hm'.1.cover hset, by omega⟩

/-! ## Nodes -/

/-- The address lies in one of the areas `l`. -/
def InAreas (l : List (Nat × Nat)) (u : Nat) : Prop := ∃ r ∈ l, r.1 ≤ u ∧ u ≤ r.2

/-- A bound on the pages of the areas `l`. -/
def pagesOf (l : List (Nat × Nat)) : Nat := (l.map fun r => r.2 / 4096 + 1 - r.1 / 4096).sum

theorem allocVma_spec {start stop : Nat} :
    Attempt (s.allocVma start stop) (s.kernVA + 24 < 2 ^ 64) fun r =>
      s.allocVma start stop = some r ∧ r.2.machine = s.machine ∧ r.2.kernVA ≤ s.kernVA + 24 := by
  rw [allocVma, getvmaFromRecylebin]
  by_cases hbin : s.vmaRecycleList = 0
  · rw [if_pos hbin]
    simp only [if_true, VmState.kmalloc]
    by_cases hfull : 2 ^ 64 - 1 < s.kernVA + 24
    · rw [if_pos hfull]
      refine ⟨fun hroom => absurd hfull (by omega), fun r hr => ?_⟩
      cases hr
    · rw [if_neg hfull]
      exact .some ⟨rfl, rfl, Nat.le_refl _⟩
  · rw [if_neg hbin]
    dsimp only
    rw [if_neg hbin]
    exact .some ⟨rfl, rfl, Nat.le_add_right _ _⟩

/-- A step of the machine changes nothing else. -/
theorem onMachine_spec {f : Machine → Option Machine} {room : Prop} {post : Machine → Prop}
    (h : Attempt (f s.machine) room post) : Attempt (s.onMachine f) room fun t =>
      post t.machine ∧ t = { s with machine := t.machine } := by
  apply h.map
  intro m' hm'
  exact ⟨hm', rfl⟩

/-- What holds between two nodes of `copy_vma`. -/
structure ForkNodes (k : Nat) (m₀ : Machine) (s : VmState) (a c ga gc : Nat)
    (lists : Option Nat → List Nat) (D : Nat → Prop) : Prop where
  owned : s.Owned lists
  map : ForkMap k m₀ s.machine a c ga gc D
  mmParent : (s.mm a).cr3 = ga * 4096
  mmChild : (s.mm c).cr3 = gc * 4096

theorem tableNeed_le {lo hi : Nat} :
    tableNeed k m₀ m a c lo (hi + 1 - lo) ≤ pagesOf [(lo, hi)] * 3 := by
  have hcost : tableCost k m₀ m a c lo ≤ 3 := tableCost_le
  have hpages : pagesOf [(lo, hi)] = hi / 4096 + 1 - lo / 4096 := by simp [pagesOf]
  rw [hpages]
  unfold tableNeed
  split_ifs with h0
  · exact Nat.zero_le _
  · omega

/-- One node of `copy_vma`. -/
theorem ForkNodes.copyNode {node lo hi : Nat} (hU : Shareable k m₀ a U)
    (h : ForkNodes k m₀ s a c ga gc lists D) (hD : ∀ u, D u → U u)
    (hlo : (s.vma node).vstart = lo) (hhi : (s.vma node).vend = hi)
    (hcov : ∀ u, lo ≤ u → u ≤ hi → U u) :
    Attempt (s.copyNode a c node)
      (s.kernVA + 24 < 2 ^ 64 ∧ Listed k m₀ a U ∧
        7 + pagesOf [(lo, hi)] * 3 ≤ s.machine.fl.totalblockcount)
      fun t => ∃ lists', ForkNodes k m₀ t a c ga gc lists' (fun u => D u ∨ lo ≤ u ∧ u ≤ hi) ∧
        KeepsList s t lists lists' a ∧ t.kernVA ≤ s.kernVA + 24 ∧
        s.machine.fl.totalblockcount ≤ t.machine.fl.totalblockcount + pagesOf [(lo, hi)] * 3 := by
  rw [VmState.copyNode, hlo, hhi, Option.bind_eq_bind]
  apply (allocVma_spec.bind (N := fun _ => Listed k m₀ a U ∧
    7 + pagesOf [(lo, hi)] * 3 ≤ s.machine.fl.totalblockcount) ?_).consequence
    (fun hroom => ⟨hroom.1, fun _ _ => hroom.2⟩) fun _ => id
  intro r hr
  obtain ⟨p, s₁⟩ := r
  obtain ⟨halloc, hmach₁, hva₁⟩ := hr
  obtain ⟨howned₁, hfree, hnext⟩ := h.owned.alloc halloc
  obtain ⟨s₂, happend, -, hva₂⟩ := howned₁.append c hfree hnext
  obtain ⟨lists', howned₂, hadd⟩ := h.owned.added halloc happend
  have hmach₂ : s₂.machine = s.machine := (SameSpace.append happend).machine.trans hmach₁
  have hmm₂ : ∀ d, (s₂.mm d).cr3 = (s.mm d).cr3 := by
    intro d
    rw [(SameSpace.append happend).cr3 d, allocVma_mm halloc]
  have hvma₁ : (s₁.vma node).vstart = lo ∧ (s₁.vma node).vend = hi := by
    rw [SameSpace.allocVma_vma halloc]
    by_cases hn : node = p
    · rw [hn, Function.update_self]
      exact ⟨rfl, rfl⟩
    · rw [Function.update_of_ne hn]
      exact ⟨hlo, hhi⟩
  obtain ⟨hlo₂, hhi₂⟩ := SameSpace.append_bounds happend node
  rw [hvma₁.1] at hlo₂
  rw [hvma₁.2] at hhi₂
  have hspan : ∀ u, lo ≤ u → u < lo + (hi + 1 - lo) → U u := by
    intro u hle hlt
    exact hcov u hle (by omega)
  simp only [happend, Option.bind_eq_bind, Option.bind_some, hlo₂, hhi₂]
  have hmap₂ : ForkMap k m₀ s₂.machine a c ga gc D := by
    rw [hmach₂]
    exact h.map
  have hinc : Attempt (s₂.incrementChildpgRef lo hi) _ _ :=
    onMachine_spec (incrementFrom_forkMap hU hmap₂ hspan)
  apply (hinc.bind (N := fun _ =>
    7 + pagesOf [(lo, hi)] * 3 ≤ s.machine.fl.totalblockcount) ?_).consequence
    (fun hroom => ⟨hroom.1, fun _ _ => hroom.2⟩) fun _ => id
  intro s₃ hs₃
  obtain ⟨⟨hmap₃, htotal₃⟩, heq₃⟩ := hs₃
  have hneed : tableNeed k m₀ s₃.machine a c lo (hi + 1 - lo) ≤ pagesOf [(lo, hi)] * 3 :=
    tableNeed_le
  have hshare : Attempt (s₃.onMachine (VmState.shareFrom (gc * 4096) (ga * 4096) (hi + 1 - lo) lo 0))
      _ _ := onMachine_spec (shareFrom_forkMap hU hmap₃ hD hspan (.inl rfl))
  have hc₃ : (s₃.mm c).cr3 = gc * 4096 := by
    rw [heq₃]
    exact (hmm₂ c).trans h.mmChild
  have ha₃ : (s₃.mm a).cr3 = ga * 4096 := by
    rw [heq₃]
    exact (hmm₂ a).trans h.mmParent
  have hvma₃ : (s₃.vma node).vstart = lo ∧ (s₃.vma node).vend = hi := by
    rw [heq₃]
    exact ⟨hlo₂, hhi₂⟩
  have hva₃ : s₃.kernVA = s₂.kernVA := by rw [heq₃]
  rw [hc₃, ha₃, hvma₃.1, hvma₃.2]
  rw [hmach₂] at htotal₃
  apply hshare.consequence
  · intro hroom
    omega
  · intro t ht
    obtain ⟨⟨hmap, htotal⟩, heq⟩ := ht
    have hkeep := hadd.others a h.map.slots.ne
    have ht : t = { s₂ with machine := t.machine } := by rw [heq, heq₃]
    refine ⟨lists', ⟨?_, hmap.cover fun u => or_congr_right ?_, ?_, ?_⟩, ?_, ?_, ?_⟩
    · rw [ht]
      exact ⟨howned₂.family, howned₂.heap, howned₂.bound⟩
    · omega
    · rw [heq]
      exact ha₃
    · rw [heq]
      exact hc₃
    · rw [ht]
      exact ⟨hkeep.nodes, hkeep.areas, hkeep.heapTop⟩
    · rw [ht, hva₂]
      exact hva₁
    · omega

theorem inAreas_cons {r : Nat × Nat} {l : List (Nat × Nat)} :
    InAreas (r :: l) u ↔ r.1 ≤ u ∧ u ≤ r.2 ∨ InAreas l u := by
  simp [InAreas]

theorem pagesOf_cons {r : Nat × Nat} {l : List (Nat × Nat)} :
    pagesOf (r :: l) = pagesOf [r] + pagesOf l := by
  simp [pagesOf]

/-- `copy_vma` from the node `x` of the list of the parent on. -/
theorem ForkNodes.copyFrom {fuel x : Nat} (hU : Shareable k m₀ a U)
    (h : ForkNodes k m₀ s a c ga gc lists D) (hD : ∀ u, D u → U u)
    (hl : lists (some a) = xs ++ ys) (hx : Chain s.next 0 x ys) (hfuel : ys.length < fuel)
    (hcov : ∀ u, InAreas (s.areas ys) u → U u) :
    Attempt (VmState.copyFrom a c fuel x s)
      (s.kernVA + 24 * ys.length < 2 ^ 64 ∧ Listed k m₀ a U ∧
        7 + pagesOf (s.areas ys) * 3 ≤ s.machine.fl.totalblockcount)
      fun t => (∃ lists', ForkNodes k m₀ t a c ga gc lists' fun u => D u ∨ InAreas (s.areas ys) u) ∧
        s.machine.fl.totalblockcount ≤ t.machine.fl.totalblockcount + pagesOf (s.areas ys) * 3 := by
  induction ys generalizing s lists xs x fuel D with
  | nil =>
    cases fuel with
    | zero => exact absurd hfuel (Nat.not_lt_zero _)
    | succ fuel =>
      rw [VmState.copyFrom, if_pos (show x = 0 from hx)]
      refine .some ⟨⟨lists, h.owned, h.map.cover fun u => or_iff_left ?_, h.mmParent, h.mmChild⟩,
        Nat.le_add_right _ _⟩
      simp [VmState.areas, InAreas]
  | cons y ys ih =>
    obtain ⟨rfl, h0, -⟩ := hx
    cases fuel with
    | zero => exact absurd hfuel (Nat.not_lt_zero _)
    | succ fuel =>
      have hareas : s.areas (x :: ys) = ((s.vma x).vstart, (s.vma x).vend) :: s.areas ys := rfl
      rw [VmState.copyFrom, if_neg h0, Option.bind_eq_bind, hareas, pagesOf_cons,
        List.length_cons]
      rw [hareas] at hcov
      have hhead : ∀ u, (s.vma x).vstart ≤ u → u ≤ (s.vma x).vend → U u := by
        intro u hlo hhi
        exact hcov u (inAreas_cons.mpr (.inl ⟨hlo, hhi⟩))
      have hnode := h.copyNode hU hD rfl rfl hhead
      apply (hnode.bind (N := fun t => t.kernVA + 24 * ys.length < 2 ^ 64 ∧ Listed k m₀ a U ∧
        7 + pagesOf (s.areas ys) * 3 ≤ t.machine.fl.totalblockcount) ?_).consequence
      · intro hroom
        obtain ⟨hva, hlisted, htotal⟩ := hroom
        refine ⟨⟨by omega, hlisted, by omega⟩, ?_⟩
        intro t ht
        obtain ⟨lists', -, -, hva', htotal'⟩ := ht
        exact ⟨by omega, hlisted, by omega⟩
      · intro t ht
        exact ht
      · intro t ht
        obtain ⟨lists', ht, hkeep, -, htotal⟩ := ht
        obtain ⟨hl', hrest, hys⟩ := hkeep.rest hl ht.owned
        have hcov' : ∀ u, InAreas (t.areas ys) u → U u := by
          intro u hu
          rw [hys] at hu
          exact hcov u (inAreas_cons.mpr (.inr hu))
        have hD' : ∀ u, D u ∨ (s.vma x).vstart ≤ u ∧ u ≤ (s.vma x).vend → U u := by
          intro u hu
          cases hu with
          | inl hDu => exact hD u hDu
          | inr hin => exact hhead u hin.1 hin.2
        have hfuel' : ys.length < fuel := Nat.lt_of_succ_lt_succ hfuel
        have hloop := ih ht hD' hl' hrest hfuel' hcov'
        rw [hys] at hloop
        apply hloop.consequence id
        intro t' ht'
        obtain ⟨⟨lists'', ht'⟩, htotal'⟩ := ht'
        refine ⟨⟨lists'', ht'.owned, ht'.map.cover ?_, ht'.mmParent, ht'.mmChild⟩, ?_⟩
        · intro u
          rw [inAreas_cons, or_assoc]
        · omega

/-! ## The map of the child -/

/-- The state in which `copy_vma` is called for the child in slot `c`: its page tables are
freshly built and its VMA list is empty. The VMAs of the parent lie outside slot 510 and
below the last address, and the pages that it has mapped there have different frames, which
`get_page` has handed out. -/
structure ForkStart (k : Nat) (s : VmState) (a c ga gc : Nat) : Prop where
  forest : ForestInv k s.machine
  slots : Slots k s.machine a c ga gc
  owned : ∃ lists, s.Owned lists
  cr3 : s.machine.cr3 = ga * 4096
  mmParent : (s.mm a).cr3 = ga * 4096
  mmChild : (s.mm c).cr3 = gc * 4096
  childList : (s.mm c).vmaList = 0
  childEmpty : ∀ q, leaf s.machine.mem k (some c, q) = 0
  below : ∀ r ∈ s.areas (s.vmaNodes a), r.2 < 2 ^ 64 - 1
  shareable : Shareable k s.machine a (InAreas (s.areas (s.vmaNodes a)))
  present : ∀ u, InAreas (s.areas (s.vmaNodes a)) u → leaf s.machine.mem k (pageAt a u) ≠ 0 →
    leaf s.machine.mem k (pageAt a u) % 2 = 1

/-- Memory for the nodes and the page tables of the child; the counted frames have an entry in
`p_list`. -/
structure ForkRoom (k : Nat) (s : VmState) (a : Nat) : Prop where
  nodes : s.kernVA + 24 * (s.vmaNodes a).length < 2 ^ 64
  listed : Listed k s.machine a (InAreas (s.areas (s.vmaNodes a)))
  tables : 7 + pagesOf (s.areas (s.vmaNodes a)) * 3 ≤ s.machine.fl.totalblockcount

/-- The child has the VMAs of the parent, whose list is unchanged, and on the pages of these
it has what the parent had, present and not writable. -/
structure ForkCopied (s t : VmState) (a c : Nat) : Prop where
  child : t.areas (t.vmaNodes c) = s.areas (s.vmaNodes a)
  parent : t.vmaNodes a = s.vmaNodes a ∧ t.areas (t.vmaNodes a) = s.areas (s.vmaNodes a)
  pages : ∀ u v, InAreas (s.areas (s.vmaNodes a)) u → v / 4096 = u / 4096 →
    (walk t.machine.mem (t.mm c).cr3 v).map Walk.e4 =
      (walk s.machine.mem (s.mm a).cr3 v).map fun w => w.e4 / 4096 * 4096 + 5

/-- The walk of an address whose entry is empty or present. -/
theorem walk_e4 (hinv : TableInv k m.mem m.fl) (hd : a < procSize)
    (hr : root m.mem k (some a) = some (m.cr3 / 4096)) (hv : p1Index v ≠ 510)
    (hodd : leaf m.mem k (pageAt a v) ≠ 0 → leaf m.mem k (pageAt a v) % 2 = 1) :
    (walk m.mem m.cr3 v).map Walk.e4 =
      if leaf m.mem k (pageAt a v) = 0 then none else some (leaf m.mem k (pageAt a v)) := by
  have hroot := RootInv.of_slot hinv hd hr
  have hs := inSpace_spaceOf hv hd hr
  exact walk_entry hinv hroot hs hodd

/-- The same below the PML4 of any slot. -/
theorem walk_slot {g : Nat} (hinv : TableInv k m.mem m.fl) (hd : a < procSize)
    (hr : root m.mem k (some a) = some g) (hv : p1Index v ≠ 510)
    (hodd : leaf m.mem k (pageAt a v) ≠ 0 → leaf m.mem k (pageAt a v) % 2 = 1) :
    (walk m.mem (g * 4096) v).map Walk.e4 =
      if leaf m.mem k (pageAt a v) = 0 then none else some (leaf m.mem k (pageAt a v)) := by
  obtain ⟨m', hm'⟩ : ∃ m' : Machine, m' = { m with cr3 := g * 4096 } := ⟨_, rfl⟩
  have hmem : m'.mem = m.mem := by rw [hm']
  have hcr3 : m'.cr3 = g * 4096 := by rw [hm']
  have hfl : m'.fl = m.fl := by rw [hm']
  rw [← hmem, ← hcr3]
  apply walk_e4
  · rw [hmem, hfl]
    exact hinv
  · exact hd
  · rw [hmem, hcr3, hr, Nat.mul_div_cancel _ (by decide)]
  · exact hv
  · rw [hmem]
    exact hodd

/-- `copy_vma` from the first node on. -/
theorem ForkStart.nodes (h : ForkStart k s a c ga gc) :
    Attempt (s.copyVma a c) (ForkRoom k s a) fun t =>
      (∃ lists, ForkNodes k s.machine t a c ga gc lists (InAreas (s.areas (s.vmaNodes a)))) ∧
        s.machine.fl.totalblockcount ≤
          t.machine.fl.totalblockcount + pagesOf (s.areas (s.vmaNodes a)) * 3 := by
  obtain ⟨lists, howned⟩ := h.owned
  have hnodes := howned.vmaNodes a
  have hchain : Chain s.next 0 (s.mm a).vmaList (s.vmaNodes a) := by
    rw [hnodes]
    exact howned.family.chain (some a)
  have hlen : (s.vmaNodes a).length < 2 ^ 64 := by
    rw [hnodes]
    exact howned.length_lt (some a)
  have hmap : ForkMap k s.machine s.machine a c ga gc fun _ => False :=
    ⟨h.forest, h.slots, h.cr3, .start, List.Subset.refl _, rfl, fun _ _ => rfl⟩
  have hstart : ForkNodes k s.machine s a c ga gc lists fun _ => False :=
    ⟨howned, hmap, h.mmParent, h.mmChild⟩
  have hall : lists (some a) = [] ++ s.vmaNodes a := by
    rw [hnodes]
    rfl
  apply (hstart.copyFrom h.shareable (fun _ hu => hu.elim) hall hchain hlen
    fun _ hu => hu).consequence
  · intro hroom
    exact ⟨hroom.nodes, hroom.listed, hroom.tables⟩
  · intro t ht
    obtain ⟨⟨lists', ht⟩, htotal⟩ := ht
    exact ⟨⟨lists', ht.owned, ht.map.cover fun u => iff_of_eq (false_or _).symm, ht.mmParent,
      ht.mmChild⟩, htotal⟩

/-- `copy_vma` copies the whole map, for any list of VMAs and any leaf flags. -/
theorem copyVma_copied (h : ForkStart k s a c ga gc) :
    Attempt (s.copyVma a c) (ForkRoom k s a) fun t => ForkCopied s t a c := by
  refine ⟨h.nodes.total, ?_⟩
  intro t ht
  obtain ⟨⟨lists₁, hnodes₁⟩, -⟩ := h.nodes.sound t ht
  obtain ⟨lists, howned⟩ := h.owned
  have hnodes := howned.vmaNodes a
  obtain ⟨lists', howned', hchild, hother, -⟩ :=
    howned.copied h.slots.ne (List.nil_append _).symm (howned.family.chain (some a)) ht
  have hkeep := hother a h.slots.ne
  have hempty : lists (some c) = [] := howned.head_eq_zero.mp h.childList
  refine ⟨?_, ⟨?_, ?_⟩, ?_⟩
  · rw [howned'.vmaNodes c, hchild, hempty, hnodes]
    rfl
  · rw [howned'.vmaNodes a, hkeep.nodes, hnodes]
  · rw [howned'.vmaNodes a, hkeep.nodes, hkeep.areas, hnodes]
  · intro u v hu hv
    have hpage : pageOf v = pageOf u := by
      unfold pageOf
      rw [hv]
    have hout : p1Index v ≠ 510 := by
      rw [pIndex_pageOf.1, hpage, ← pIndex_pageOf.1]
      exact h.shareable.outside u hu
    have hodd := h.present u hu
    rw [← pageAt_congr hpage] at hodd
    have hshared := hnodes₁.map.shared.entry h.childEmpty ⟨u, hu, hpage⟩
    rw [hnodes₁.mmChild, h.mmParent, walk_slot hnodes₁.map.forest.tables h.slots.lt.2
      hnodes₁.map.slots.child hout, hshared]
    · have hparent := walk_slot h.forest.tables h.slots.lt.1 h.slots.parent hout hodd
      rw [← Function.comp_def (fun e => e / 4096 * 4096 + 5) Walk.e4, ← Option.map_map, hparent]
      by_cases h0 : leaf s.machine.mem k (pageAt a v) = 0
      · simp [h0]
      · simp [h0]
    · intro hne
      rw [hshared] at hne ⊢
      by_cases h0 : leaf s.machine.mem k (pageAt a v) = 0
      · rw [if_pos h0] at hne
        exact absurd rfl hne
      · rw [if_neg h0]
        omega

/-! ## Forks of running processes -/

theorem InAreas.userAddr (hrange : ∀ p, UserRange (s.vma p).vstart (s.vma p).vend)
    (h : InAreas (s.areas xs) u) : UserAddr u := by
  obtain ⟨r, hr, hlo, hhi⟩ := h
  obtain ⟨p, -, rfl⟩ := List.mem_map.mp hr
  exact (hrange p).userAddr hlo hhi

/-- Programs have frames of `p_list`. -/
theorem ForkInv.listed (h : ForkInv k s a c ga gc) :
    Listed k s.machine a (InAreas (s.areas xs)) := by
  intro u hu hne
  have h0 : leaf s.machine.mem k (pageAt a u) ≠ 0 := by
    intro hz
    rw [hz] at hne
    exact hne rfl
  obtain ⟨b, hb, -, hfr⟩ :=
    h.pages.leaves.owned _ (hu.userAddr h.range).userPage.managed h0
  exact ⟨b, hb, hfr⟩

/-- The invariant of the memory side gives what `copy_vma` needs. -/
theorem ForkInv.forkStart (h : ForkInv k s a c ga gc) (howned : s.Owned lists)
    (hlist : (s.mm c).vmaList = 0) (hempty : ∀ q, leaf s.machine.mem k (some c, q) = 0) :
    ForkStart k s a c ga gc := by
  have huser : ∀ u, InAreas (s.areas (s.vmaNodes a)) u → UserAddr u :=
    fun u hu => hu.userAddr h.range
  have hframe : ∀ u, InAreas (s.areas (s.vmaNodes a)) u →
      leaf s.machine.mem k (pageAt a u) ≠ 0 → ∃ b < listSize,
        leaf s.machine.mem k (pageAt a u) / 4096 = s.machine.fl.frame b := by
    intro u hu h0
    obtain ⟨b, hb, -, hfr⟩ := h.pages.leaves.owned _ (huser u hu).userPage.managed h0
    exact ⟨b, hb, hfr⟩
  refine ⟨h.pages.forest, h.slots, ⟨lists, howned⟩, h.cr3, h.mmParent, h.mmChild, hlist, hempty,
    ?_, ⟨?_, ?_, ?_, ?_⟩, ?_⟩
  · intro r hr
    obtain ⟨p, -, rfl⟩ := List.mem_map.mp hr
    have hup : upml4 - 4096 * (procSize - 1) = 0xFFFFFFFF801FF000 - 4096 * 99 := rfl
    rcases h.range p with hp | hp | hp
    · exact hp.trans (by decide)
    · exact hp.2.trans (by decide)
    · exact hp.2.trans (by decide)
  · intro u hu
    have haddr := (huser u hu).2
    omega
  · intro u hu
    by_cases h0 : leaf s.machine.mem k (pageAt a u) = 0
    · rw [h0]
      decide
    · obtain ⟨b, hb, hfr⟩ := hframe u hu h0
      have hlt := h.pages.free.frame_lt hb
      omega
  · intro u _ h0 hfree
    exact h.pages.leaves.not_free h.pages.free h0 hfree
  · intro u v hu _ hu0 hv0 heq
    obtain ⟨b, -, hfr⟩ := hframe u hu hu0
    apply h.pages.leaves.home _ _ hu0 hv0 heq
    rw [hfr]
    exact FreeList.frame_mono
  · intro u _ h0
    exact h.pages.leaves.odd h0

/-- `syscall_fork` calls `copy_vma` in such a state. -/
theorem VmInv.forkStart (hi : VmInv k s) (ha : s.active = some a) (howned : s.Owned lists)
    (hc : c < procSize) (hdead : s.alive c = false) (ht : s.createNewProcess c = some t) :
    ∃ ga gc, ForkInv k (t.setMm c fun m => { m with heapTop := n, vmaList := 0 }) a c ga gc ∧
      ForkStart k (t.setMm c fun m => { m with heapTop := n, vmaList := 0 }) a c ga gc ∧
      NewProcess k s t c gc := by
  obtain ⟨gc, hnew⟩ := (createNewProcess_spec hi.pages hi.rootInv hi.small hc
    (hi.root_ne ha hc hdead)).sound _ ht
  obtain ⟨ga, hfork, -⟩ := hi.forkInv ha hc hdead hnew
    (f := fun m => { m with heapTop := n, vmaList := 0 }) fun _ => rfl
  have hframes : Frames (· = c) s (t.setMm c fun m => { m with heapTop := n, vmaList := 0 }) :=
    (Frames.createNewProcess ht).trans Frames.inherit
  obtain ⟨lists', howned', -⟩ := hframes lists howned
  refine ⟨ga, gc, hfork, hfork.forkStart howned' ?_ hnew.leaf_child, hnew⟩
  show (Function.update t.mm c _ c).vmaList = 0
  rw [Function.update_self]

/-- It can fork; `n` is the heap that the child inherits. -/
theorem OnePage.fork (h : OnePage k s) (n : Nat) : ∃ t t₁ u ga gc,
    s.createNewProcess 1 = some t ∧ t.setMm 1 (fun m => { m with heapTop := n, vmaList := 0 }) = t₁ ∧
    ForkStart k t₁ 0 1 ga gc ∧ t₁.areas (t₁.vmaNodes 0) = [(0x400000, 0x400FFF)] ∧
    leaf t₁.machine.mem k (pageAt 0 0x400000) ≠ 0 ∧ t₁.copyVma 0 1 = some u ∧
    50 ≤ u.machine.fl.totalblockcount := by
  obtain ⟨lists, howned⟩ := h.reach.owned
  have hroom := h.room
  have hheap := h.kernVA
  have hdead := h.alive 1 (by decide)
  obtain ⟨t, ht⟩ := (createNewProcess_spec h.inv.pages h.inv.rootInv h.inv.small (by decide)
    (h.inv.root_ne h.active (by decide) hdead)).total ⟨by omega, by omega⟩
  obtain ⟨ga, gc, hfork, hstart, hnew⟩ :=
    h.inv.forkStart (n := n) h.active howned (by decide) hdead ht
  obtain ⟨t₁, ht₁⟩ : ∃ t₁, t.setMm 1 (fun m => { m with heapTop := n, vmaList := 0 }) = t₁ :=
    ⟨_, rfl⟩
  have hmach₁ : t₁.machine = t.machine := by rw [← ht₁]; rfl
  have hva₁ : t₁.kernVA = s.kernVA + 200 := by rw [← ht₁]; exact hnew.kernVA
  have hvma₁ : t₁.vma = s.vma := by rw [← ht₁]; exact hnew.vma
  have hmm₁ : t₁.mm 0 = s.mm 0 := by
    rw [← ht₁]
    exact hnew.mm 0 (by decide)
  have hnodes₁ : t₁.vmaNodes 0 = s.vmaNodes 0 := by
    unfold VmState.vmaNodes
    rw [hvma₁, hmm₁]
  have hareas₁ : t₁.areas (t₁.vmaNodes 0) = [(0x400000, 0x400FFF)] := by
    rw [hnodes₁, ← h.areas]
    unfold VmState.areas
    rw [hvma₁]
  have hone : (s.vmaNodes 0).length = 1 := by
    have hlen := congrArg List.length h.areas
    rw [VmState.areas, List.length_map] at hlen
    exact hlen
  rw [ht₁] at hfork hstart
  obtain ⟨P, hcr, hlen⟩ := hnew.created
  have hused := h.inv.pages.free.toThreaded.total_eq hnew.pages.free.toThreaded hcr.blocks
  have hforkRoom : ForkRoom k t₁ 0 := by
    refine ⟨?_, hfork.listed, ?_⟩
    · rw [hnodes₁, hva₁, hone]
      omega
    · rw [hareas₁, hmach₁]
      simp only [pagesOf, List.map_cons, List.map_nil, List.sum_cons, List.sum_nil]
      omega
  obtain ⟨u, hu⟩ := hstart.nodes.total hforkRoom
  have htotal := (hstart.nodes.sound u hu).2
  rw [hareas₁, hmach₁] at htotal
  simp only [pagesOf, List.map_cons, List.map_nil, List.sum_cons, List.sum_nil] at htotal
  refine ⟨t, t₁, u, ga, gc, ht, ht₁, hstart, hareas₁, ?_, hu, by omega⟩
  have hpage : pageAt 0 0x400000 = (some 0, pageOf 0x400000) := by
    unfold pageAt spaceOf
    rw [if_neg (by decide)]
  have hmapped := h.mapped
  rw [hpage] at hmapped ⊢
  rw [hmach₁, hcr.leaf _ (by simp), if_neg (by decide)]
  exact hmapped

/-- The first program, with one page mapped, forks. -/
theorem copyVma_copied_first : ∃ k s t ga gc, ForkStart k s 0 1 ga gc ∧
    s.areas (s.vmaNodes 0) = [(0x400000, 0x400FFF)] ∧
    leaf s.machine.mem k (pageAt 0 0x400000) ≠ 0 ∧
    s.copyVma 0 1 = some t ∧ ForkCopied s t 0 1 := by
  obtain ⟨k, s, h⟩ := onePage
  obtain ⟨-, t₁, u, ga, gc, -, -, hstart, hareas, hmapped, hu, -⟩ := h.fork 0
  exact ⟨k, t₁, u, ga, gc, hstart, hareas, hmapped, hu, (copyVma_copied hstart).sound u hu⟩

end Sbunix
