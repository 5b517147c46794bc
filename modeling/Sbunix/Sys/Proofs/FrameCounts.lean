import Sbunix.Sys.Proofs.FirstProcess

/-!
# Reference counts and mapped frames

In every reachable state the count of a block is at least the number of leaf entries that
map it, over the user halves of all slots and the kernel half they share.
-/

namespace Sbunix

variable {k : Nat} {m : Machine} {s : VmState} {a b c v padd : Nat} {p : Page}

/-- The top table of the kernel half, as the PML4 in use has it. -/
def Machine.kernelHalf (m : Machine) : Nat := word m.mem (m.cr3 / 4096) 511 / 4096

/-- The leaf entries of all address spaces that map the frame `f`. -/
def Machine.mappings (m : Machine) (f : Nat) : Set Page :=
  {p | leaf m.mem m.kernelHalf p ≠ 0 ∧ leaf m.mem m.kernelHalf p / 4096 = f}

/-- The argument of the call of `free_page` that `unmap_phyaddr` makes for `v`, if it makes one
(`sys/paging.c:425-440`). -/
def Machine.freedBy (m : Machine) (v : Nat) : Option Nat :=
  (m.getPhysAddr v).bind fun padd =>
    if padd &&& 1 ≠ 0 ∧ m.fl.getReferenceCount padd = some 1 then some padd else none

theorem RootInv.kernelHalf (h : RootInv k m) : m.kernelHalf = k := by
  rw [Machine.kernelHalf, h.kern]
  omega

theorem RootInv.mappings (h : RootInv k m) (f : Nat) :
    m.mappings f = users (claims (leaf m.mem k) noRes) f := by
  rw [Machine.mappings, h.kernelHalf]
  ext p
  rw [mem_users, claims, Set.mem_ofPred_eq]
  by_cases h0 : leaf m.mem k p = 0
  · simp [h0, noRes]
  · simp [h0]

theorem PageInv.mappings_finite (hp : PageInv k m noRes) (hr : RootInv k m) (f : Nat) :
    (m.mappings f).Finite := by
  rw [hr.mappings]
  exact hp.leaves.finite.users_finite f

theorem PageInv.mappings_le (hp : PageInv k m noRes) (hr : RootInv k m) (hb : b < listSize) :
    (m.mappings (m.fl.frame b)).ncard ≤ m.fl.refCount b := by
  rw [hr.mappings]
  exact hp.leaves.count b hb

/-- A frame that is counted once is mapped once. -/
theorem PageInv.mappings_eq (hp : PageInv k m noRes) (hr : RootInv k m) (hb : b < listSize)
    (hone : m.fl.refCount b = 1) (h0 : leaf m.mem k p ≠ 0)
    (hfr : leaf m.mem k p / 4096 = m.fl.frame b) : m.mappings (m.fl.frame b) = {p} := by
  have hle := hp.mappings_le hr hb
  have hmem : p ∈ m.mappings (m.fl.frame b) := by
    rw [Machine.mappings, hr.kernelHalf]
    exact ⟨h0, hfr⟩
  refine (Set.eq_of_subset_of_ncard_le (Set.singleton_subset_iff.mpr hmem) ?_
    (hp.mappings_finite hr _)).symm
  rw [Set.ncard_singleton]
  omega

/-- A page is unmapped with `free_page` only when no other leaf entry maps its frame. -/
theorem PageInv.freedBy (hp : PageInv k m noRes) (hr : RootInv k m) (hc : c < procSize)
    (hroot : root m.mem k (some c) = some (m.cr3 / 4096)) (hu : UserAddr v)
    (h : m.freedBy v = some padd) : m.mappings (padd / 4096) = {pageAt c v} := by
  have hs := hu.inSpace hc hroot
  rw [Machine.freedBy, Machine.getPhysAddr_eq hp.tables hr hs, Option.bind_some] at h
  split_ifs at h with hcond
  obtain ⟨hodd, hcount⟩ := hcond
  obtain rfl := Option.some.inj h
  have h0 : leaf m.mem k (pageAt c v) ≠ 0 := by
    intro h0
    exact hodd (by rw [show (spaceOf c v, pageOf v) = pageAt c v from rfl, h0]; rfl)
  obtain ⟨b, hb, -, hfr⟩ := hp.leaves.owned _ hu.userPage.managed h0
  have hfr' : leaf m.mem k (spaceOf c v, pageOf v) / 4096 = m.fl.frame b := hfr
  rw [FreeList.getReferenceCount, FreeList.blockindex_eq hb hfr', Option.map_some,
    Option.some.injEq] at hcount
  rw [hfr']
  exact hp.mappings_eq hr hb hcount h0 hfr

/-- No leaf entry maps a frame of the free list. -/
theorem PageInv.free_unmapped (hp : PageInv k m noRes) (hr : RootInv k m) (hb : b ∈ m.fl.blocks) :
    m.mappings (m.fl.frame b) = ∅ := by
  rw [hr.mappings]
  refine Set.eq_empty_of_forall_notMem fun p hmem => ?_
  rw [mem_users] at hmem
  exact hp.leaves.free_unused hp.free hb hmem

theorem PageInv.getPage_unmapped {fl' : FreeList} (hp : PageInv k m noRes) (hr : RootInv k m)
    (h : m.fl.getPage = some (padd, fl')) : m.mappings (padd / 4096) = ∅ := by
  obtain ⟨b, bs, hb, rfl, -⟩ := hp.free.getPage h
  rw [Nat.mul_div_cancel _ (by decide)]
  exact hp.free_unmapped hr (by simp [hb])

/-- What a live process can translate, the recursive slot apart, are leaf entries. -/
theorem VmInv.walk_alive {w : Walk} (hi : VmInv k s) (ha : s.alive a = true)
    (h510 : p1Index v ≠ 510) (hw : walk s.machine.mem (s.mm a).cr3 v = some w) :
    leaf s.machine.mem k (pageAt a v) ≠ 0 ∧ leaf s.machine.mem k (pageAt a v) = w.e4 ∧ ∃ f2 f3 f4,
      w = ⟨f2 * 4096 + 7, f3 * 4096 + 7, f4 * 4096 + 7, leaf s.machine.mem k (pageAt a v)⟩ := by
  have hi' := OwnRoots.switchTo hi.alive hi.pages hi.small hi.range ha
  obtain ⟨hlt, hroot⟩ := hi'.active_root rfl
  have hs : InSpace k ({ s.machine with cr3 := (s.mm a).cr3 } : Machine) v (spaceOf a v) := by
    unfold spaceOf
    split_ifs with h511
    · exact h511
    · have := (pIndex_lt v).1
      exact ⟨hlt, by omega, hroot⟩
  have h0 : leaf s.machine.mem k (pageAt a v) ≠ 0 := by
    intro h0
    have hnone := walk_none hi'.pages.tables hi'.rootInv hs h0
    exact absurd (hw.symm.trans hnone) (by simp)
  have hodd : leaf s.machine.mem k (spaceOf a v, pageOf v) % 2 = 1 := hi.pages.leaves.odd h0
  obtain ⟨f2, f3, f4, hw'⟩ := walk_leaf hi'.pages.tables hi'.rootInv hs hodd
  have heq := Option.some.inj (hw.symm.trans hw')
  exact ⟨h0, by rw [heq]; rfl, f2, f3, f4, heq⟩

end Sbunix
