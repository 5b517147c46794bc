import Sbunix.Sys.PageRun
import Sbunix.Sys.Proofs.BootList

/-!
# The free list over runs of the memory manager

The chain of free blocks, the pages that are out and the counts, from start-up with any
memory map on. The last five blocks of the list are never handed out.
-/

namespace Sbunix

/-! ## The list of a memory map -/

/-- The number of pages of a region that become blocks. -/
def MemRegion.pages (r : MemRegion) (physfree : Nat) : Nat :=
  if r.base = 0 then 0
  else pageUp (r.base + r.length) - max (pageUp r.base) (kernelPages physfree)

/-- The page number of `FREEMEMORY` after a region; `F` is the one before. -/
def MemRegion.firstPage (r : MemRegion) (physfree F : Nat) : Nat :=
  if r.base ≠ 0 ∧ pageUp r.base < pageUp (r.base + r.length) ∧
      pageUp r.base < kernelPages physfree then
    min (pageUp (r.base + r.length)) (kernelPages physfree)
  else F

namespace BootMap

variable (b : BootMap)

/-- The number of blocks. -/
def pages : Nat := (b.regions.map fun r => r.pages b.physfree).sum

/-- The page number of `FREEMEMORY`. -/
def firstPage : Nat := b.regions.foldl (fun F r => r.firstPage b.physfree F) 0

/-- The address of a block. -/
def addr (i : Nat) : Nat := (b.firstPage + i) * 4096

variable {b} {s t : PageState} {i j n F padd : Nat}

theorem addr_inj : b.addr i = b.addr j ↔ i = j := by
  unfold addr
  omega

theorem addr_aligned : b.addr i % 4096 = 0 := Nat.mul_mod_left _ _

end BootMap

/-- The calls of `freelist` add up. -/
theorem FreeList.Built.regions {n F : Nat} {fl : FreeList} (rs : List MemRegion) (physfree : Nat)
    (h : fl.Built n) (hF : fl.freeMemory = 4096 * F) :
    (rs.foldl (fun fl r => fl.freelist r.base r.length physfree) fl).Built
        (n + (rs.map fun r => r.pages physfree).sum) ∧
      (rs.foldl (fun fl r => fl.freelist r.base r.length physfree) fl).freeMemory =
        4096 * rs.foldl (fun F r => r.firstPage physfree F) F := by
  induction rs generalizing fl n F with
  | nil => exact ⟨h, hF⟩
  | cons r rs ih =>
      rw [List.foldl_cons, List.foldl_cons, List.map_cons, List.sum_cons, ← Nat.add_assoc]
      by_cases hbase : r.base = 0
      · have hskip : fl.freelist r.base r.length physfree = fl := by
          rw [FreeList.freelist, if_pos hbase]
        have hfirst : r.firstPage physfree F = F := if_neg fun h => h.1 hbase
        have hpages : r.pages physfree = 0 := if_pos hbase
        rw [hskip, hfirst, hpages]
        exact ih h hF
      · obtain ⟨hb, hfm⟩ := h.freelist r.length physfree hbase
        have hpages : r.pages physfree =
            pageUp (r.base + r.length) - max (pageUp r.base) (kernelPages physfree) := if_neg hbase
        rw [hpages]
        apply ih hb
        rw [hfm, MemRegion.firstPage]
        by_cases hlow : pageUp r.base < pageUp (r.base + r.length) ∧
            pageUp r.base < kernelPages physfree
        · rw [if_pos hlow, if_pos ⟨hbase, hlow⟩]
        · rw [if_neg hlow, if_neg fun h => hlow h.2, hF]

theorem MemRegion.firstPage_le {r : MemRegion} {physfree F : Nat}
    (h : F ≤ kernelPages physfree) : r.firstPage physfree F ≤ kernelPages physfree := by
  unfold MemRegion.firstPage
  split_ifs
  · exact Nat.min_le_right _ _
  · exact h

/-! ## The release of a page -/

theorem FreeList.release_last {fl : FreeList} {i padd : Nat} (hidx : fl.blockindex padd = some i)
    (hone : fl.refCount i = 1) : fl.release padd = some
      { fl with
        next := Function.update fl.next i fl.headFreelist, headFreelist := i,
        totalblockcount := fl.totalblockcount + 1,
        refCount := Function.update fl.refCount i 0 } := by
  have hidx' : ({ fl with next := Function.update fl.next i fl.headFreelist, headFreelist := i,
                          totalblockcount := fl.totalblockcount + 1 } : FreeList).blockindex padd =
      some i := hidx
  simp [FreeList.release, FreeList.getReferenceCount, FreeList.freePage,
    FreeList.decrementReferenceCount, hidx, hidx', hone]

theorem FreeList.release_shared {fl : FreeList} {i padd : Nat}
    (hidx : fl.blockindex padd = some i) (hc : 1 ≤ fl.refCount i) (hone : fl.refCount i ≠ 1) :
    fl.release padd =
      some { fl with refCount := Function.update fl.refCount i (fl.refCount i - 1) } := by
  simp [FreeList.release, FreeList.getReferenceCount, FreeList.decrementReferenceCount, hidx, hone,
    Nat.ne_zero_of_lt hc]

namespace BootMap

variable {b : BootMap} {s t : PageState} {i j n padd : Nat}

theorem built : b.freeList.Built b.pages ∧ b.freeList.freeMemory = 4096 * b.firstPage := by
  have h := FreeList.Built.empty.regions b.regions b.physfree (F := 0) rfl
  rwa [Nat.zero_add] at h

theorem currblock : b.freeList.currblock = b.pages := built.1.curr

theorem firstPage_le : b.firstPage ≤ kernelPages b.physfree := by
  have hfold : ∀ (rs : List MemRegion) (F : Nat), F ≤ kernelPages b.physfree →
      rs.foldl (fun F r => r.firstPage b.physfree F) F ≤ kernelPages b.physfree := by
    intro rs
    induction rs with
    | nil => exact fun F hF => hF
    | cons r rs ih => exact fun F hF => ih _ (MemRegion.firstPage_le hF)
  exact hfold b.regions 0 (Nat.zero_le _)

theorem firstPage_lt : b.firstPage + listSize < 2 ^ 52 := by
  have hle := b.firstPage_le
  have hlt := b.physfree_lt
  unfold kernelPages at hle
  rw [show listSize = 50000 from rfl]
  omega

/-! ## The invariant -/

/-- The blocks of the list are those from 1 on whose page is not out; the last five stay. -/
structure ListInv (b : BootMap) (s : PageState) : Prop where
  threaded : Threaded b.pages s.fl
  base : s.fl.freeMemory = 4096 * b.firstPage
  free : ∀ i, i ∈ s.fl.blocks ↔ 1 ≤ i ∧ i < b.pages ∧ b.addr i ∉ s.out
  out : ∀ padd ∈ s.out, ∃ i, 1 ≤ i ∧ i + 6 ≤ b.pages ∧ padd = b.addr i ∧ 1 ≤ s.fl.refCount i
  nodup : s.out.Nodup
  counts : ∀ i, s.fl.refCount i ≤ s.increments + 1
  reserve : 6 ≤ b.pages → ∃ xs, s.fl.blocks = xs ++ List.range' (b.pages - 5) 5

theorem ListInv.start (h2 : 2 ≤ b.pages) (hn : b.pages ≤ listSize + 1) :
    ListInv b ⟨b.freeList, [], 0⟩ := by
  obtain ⟨hbuilt, hfm⟩ := b.built
  have hdiv : b.freeList.freeMemory / 4096 = b.firstPage := by
    rw [hfm, Nat.mul_div_cancel_left _ (by decide)]
  obtain ⟨ht, hblocks⟩ := hbuilt.threaded h2 hn (hfm ▸ Nat.mul_mod_right 4096 _)
    (hdiv ▸ b.firstPage_lt)
  refine ⟨ht, hfm, fun i => ?_, fun _ h => absurd h List.not_mem_nil, List.nodup_nil, fun i => ?_,
    fun h6 => ⟨List.range' 1 (b.pages - 6), ?_⟩⟩
  · rw [hblocks, List.mem_range'_1]
    simp only [List.not_mem_nil, not_false_eq_true, and_true]
    omega
  · show b.freeList.refCount i ≤ 0 + 1
    rw [hbuilt.refCount]
    exact Nat.zero_le _
  · show b.freeList.blocks = _
    have hsplit : b.pages - 2 + 1 = b.pages - 6 + 5 := by omega
    have hfive : b.pages - 5 = 1 + 1 * (b.pages - 6) := by omega
    rw [hblocks, hsplit, hfive, List.range'_append]

namespace ListInv

theorem frame (h : ListInv b s) (i : Nat) : s.fl.frame i * 4096 = b.addr i := by
  rw [FreeList.frame, h.base, Nat.mul_div_cancel_left _ (by decide), addr]

/-- A page that is out, with its block. -/
theorem block (h : ListInv b s) (hn : b.pages ≤ listSize + 1) (ho : padd ∈ s.out) :
    ∃ i, 1 ≤ i ∧ i + 6 ≤ b.pages ∧ padd = b.addr i ∧ 1 ≤ s.fl.refCount i ∧
      s.fl.blockindex padd = some i ∧ i ∉ s.fl.blocks := by
  obtain ⟨i, h1, h6, rfl, hc⟩ := h.out padd ho
  refine ⟨i, h1, h6, rfl, hc, FreeList.blockindex_eq (by omega) ?_, fun hb => ?_⟩
  · rw [← h.frame, Nat.mul_div_cancel _ (by decide)]
  · exact ((h.free i).mp hb).2.2 ho

/-- `get_page` hands out a block that was free. -/
theorem getPage (h : ListInv b s) (hn : b.pages ≤ listSize + 1) (hs : s.getPage = some t) :
    ListInv b t := by
  rw [PageState.getPage, Option.bind_eq_bind, Option.bind_eq_some_iff] at hs
  obtain ⟨⟨padd, fl'⟩, hg, hs⟩ := hs
  obtain rfl := Option.some.inj hs
  obtain ⟨i, bs, hbs, rfl, hlen, ht, hblocks, hfm, hrc⟩ := h.threaded.getPage hn hg
  have hnodup := h.threaded.nodup
  rw [hbs, List.nodup_cons] at hnodup
  have hmem : i ∈ s.fl.blocks := by simp [hbs]
  obtain ⟨h1, hlt, hout⟩ := (h.free i).mp hmem
  have hpages : 7 ≤ b.pages := by
    have hlen' := Threaded.length_le h.threaded.nodup h.threaded.lt
      fun h0 => h.threaded.ne_zero h0 rfl
    rw [hbs, List.length_cons] at hlen'
    omega
  obtain ⟨xs, hxs⟩ : ∃ xs, bs = xs ++ List.range' (b.pages - 5) 5 := by
    obtain ⟨xs, hxs⟩ := h.reserve (by omega)
    cases xs with
    | nil =>
        have := congrArg List.length (hbs.symm.trans hxs)
        simp at this
        omega
    | cons x xs => exact ⟨xs, (List.cons.inj (hbs.symm.trans hxs)).2⟩
  have h6 : i + 6 ≤ b.pages := by
    have hni : i ∉ List.range' (b.pages - 5) 5 := fun hi =>
      hnodup.1 (hxs ▸ List.mem_append_right xs hi)
    rw [List.mem_range'_1] at hni
    omega
  rw [h.frame]
  refine ⟨ht, hfm.trans h.base, fun j => ?_, fun padd hp => ?_, List.nodup_cons.mpr ⟨hout, h.nodup⟩,
    fun j => ?_, fun _ => ⟨xs, hblocks.trans hxs⟩⟩
  · show j ∈ fl'.blocks ↔ _
    have hj : j ∈ bs ↔ j ∈ s.fl.blocks ∧ j ≠ i := by
      rw [hbs, List.mem_cons]
      constructor
      · intro hj
        exact ⟨.inr hj, fun he => hnodup.1 (he ▸ hj)⟩
      · rintro ⟨hj, hne⟩
        exact hj.resolve_left hne
    rw [hblocks, hj, h.free, List.mem_cons, not_or, addr_inj]
    tauto
  · show ∃ j, _ ∧ _ ∧ _ ∧ 1 ≤ fl'.refCount j
    rw [hrc]
    cases hp with
    | head => exact ⟨i, h1, h6, rfl, by rw [Function.update_self]⟩
    | tail _ hp =>
        obtain ⟨j, hj1, hj6, rfl, hc⟩ := h.out padd hp
        have hne : j ≠ i := by
          rintro rfl
          exact hout hp
        exact ⟨j, hj1, hj6, rfl, by rwa [Function.update_of_ne hne]⟩
  · show fl'.refCount j ≤ s.increments + 1
    rw [hrc]
    by_cases hj : j = i
    · rw [hj, Function.update_self]
      exact Nat.le_add_left 1 _
    · rw [Function.update_of_ne hj]
      exact h.counts j

/-- A further reference to a page that is out. -/
theorem increment (h : ListInv b s) (hn : b.pages ≤ listSize + 1) (ho : padd ∈ s.out)
    (hs : s.increment padd = some t) : ListInv b t := by
  obtain ⟨i, h1, h6, rfl, hc, hidx, hnot⟩ := h.block hn ho
  rw [PageState.increment, FreeList.incrementReferenceCount, hidx] at hs
  obtain rfl := Option.some.inj hs
  obtain ⟨ht, hblocks⟩ := h.threaded.setCount (c := s.fl.refCount i + 1) hn hnot
  refine ⟨ht, h.base, fun j => ?_, fun padd hp => ?_, h.nodup, fun j => ?_, fun h6 => ?_⟩
  · exact (iff_of_eq (congrArg (j ∈ ·) hblocks)).trans (h.free j)
  · obtain ⟨j, hj1, hj6, rfl, hcj⟩ := h.out padd hp
    refine ⟨j, hj1, hj6, rfl, ?_⟩
    show 1 ≤ Function.update s.fl.refCount i (s.fl.refCount i + 1) j
    by_cases hj : j = i
    · rw [hj, Function.update_self]
      exact Nat.le_add_left 1 _
    · rwa [Function.update_of_ne hj]
  · show Function.update s.fl.refCount i (s.fl.refCount i + 1) j ≤ s.increments + 1 + 1
    by_cases hj : j = i
    · rw [hj, Function.update_self]
      exact Nat.succ_le_succ (h.counts i)
    · rw [Function.update_of_ne hj]
      exact Nat.le_succ_of_le (h.counts j)
  · obtain ⟨xs, hxs⟩ := h.reserve h6
    exact ⟨xs, hblocks.trans hxs⟩

/-- The release of a page that is out. -/
theorem release (h : ListInv b s) (hn : b.pages ≤ listSize + 1) (ho : padd ∈ s.out)
    (hs : s.release padd = some t) : ListInv b t := by
  obtain ⟨i, h1, h6, rfl, hc, hidx, hnot⟩ := h.block hn ho
  have hcount : s.fl.getReferenceCount (b.addr i) = some (s.fl.refCount i) := by
    rw [FreeList.getReferenceCount, hidx, Option.map_some]
  rw [PageState.release, hcount, Option.bind_eq_bind, Option.bind_some] at hs
  by_cases hone : s.fl.refCount i = 1
  · -- the last reference: the block goes to the front of the list
    obtain ⟨ht, hblocks⟩ := h.threaded.push hn hnot (by omega) (Nat.ne_zero_of_lt h1)
    rw [FreeList.release_last hidx hone, if_pos hone] at hs
    obtain rfl := Option.some.inj hs
    refine ⟨ht, h.base, fun j => ?_, fun padd hp => ?_, h.nodup.erase _, fun j => ?_, fun h6 => ?_⟩
    · refine (iff_of_eq (congrArg (j ∈ ·) hblocks)).trans ?_
      rw [List.mem_cons, h.free, h.nodup.mem_erase_iff, Ne, addr_inj]
      constructor
      · rintro (rfl | ⟨hj1, hj2, hj3⟩)
        · exact ⟨h1, by omega, fun hj => hj.1 rfl⟩
        · exact ⟨hj1, hj2, fun hj => hj3 hj.2⟩
      · rintro ⟨hj1, hj2, hj3⟩
        by_cases hj : j = i
        · exact .inl hj
        · exact .inr ⟨hj1, hj2, fun ho' => hj3 ⟨hj, ho'⟩⟩
    · obtain ⟨hne, hp⟩ := h.nodup.mem_erase_iff.mp hp
      obtain ⟨j, hj1, hj6, rfl, hcj⟩ := h.out padd hp
      refine ⟨j, hj1, hj6, rfl, ?_⟩
      show 1 ≤ Function.update s.fl.refCount i 0 j
      rwa [Function.update_of_ne fun he => hne (congrArg b.addr he)]
    · show Function.update s.fl.refCount i 0 j ≤ s.increments + 1
      by_cases hj : j = i
      · rw [hj, Function.update_self]
        exact Nat.zero_le _
      · rw [Function.update_of_ne hj]
        exact h.counts j
    · obtain ⟨xs, hxs⟩ := h.reserve h6
      exact ⟨i :: xs, hblocks.trans (congrArg (i :: ·) hxs)⟩
  · -- one reference fewer
    obtain ⟨ht, hblocks⟩ := h.threaded.setCount (c := s.fl.refCount i - 1) hn hnot
    rw [FreeList.release_shared hidx hc hone, if_neg hone] at hs
    obtain rfl := Option.some.inj hs
    refine ⟨ht, h.base, fun j => ?_, fun padd hp => ?_, h.nodup, fun j => ?_, fun h6 => ?_⟩
    · exact (iff_of_eq (congrArg (j ∈ ·) hblocks)).trans (h.free j)
    · obtain ⟨j, hj1, hj6, rfl, hcj⟩ := h.out padd hp
      refine ⟨j, hj1, hj6, rfl, ?_⟩
      show 1 ≤ Function.update s.fl.refCount i (s.fl.refCount i - 1) j
      by_cases hj : j = i
      · rw [hj, Function.update_self]
        omega
      · rwa [Function.update_of_ne hj]
    · show Function.update s.fl.refCount i (s.fl.refCount i - 1) j ≤ s.increments + 1
      by_cases hj : j = i
      · rw [hj, Function.update_self]
        exact (Nat.sub_le _ _).trans (h.counts i)
      · rw [Function.update_of_ne hj]
        exact h.counts j
    · obtain ⟨xs, hxs⟩ := h.reserve h6
      exact ⟨xs, hblocks.trans hxs⟩

/-- One step of the memory manager. -/
theorem pageStep {l : PageLabel} (h : ListInv b s) (hn : b.pages ≤ listSize + 1)
    (hs : Sbunix.pageStep l s = some t) : ListInv b t := by
  cases l with
  | get => exact h.getPage hn hs
  | increment padd =>
      by_cases ho : padd ∈ s.out
      · exact h.increment hn ho ((if_pos ho).symm.trans hs)
      · exact absurd ((if_neg ho).symm.trans hs) (by simp)
  | release padd =>
      by_cases ho : padd ∈ s.out
      · exact h.release hn ho ((if_pos ho).symm.trans hs)
      · exact absurd ((if_neg ho).symm.trans hs) (by simp)

end ListInv

end BootMap

theorem PageReach.listInv {b : BootMap} {s : PageState} (h2 : 2 ≤ b.pages)
    (hn : b.pages ≤ listSize + 1) (h : PageReach b s) : b.ListInv s :=
  h.invariant (fun _ hs => hs ▸ .start h2 hn) fun _ _ _ hi hs => hi.pageStep hn hs

/-- What `get_page` returns was not out. -/
theorem BootMap.ListInv.fresh {b : BootMap} {s : PageState} {fl' : FreeList} {padd : Nat}
    (h : b.ListInv s) (hn : b.pages ≤ listSize + 1) (hg : s.fl.getPage = some (padd, fl')) :
    padd ∉ s.out := by
  obtain ⟨i, bs, hbs, rfl, -⟩ := h.threaded.getPage hn hg
  rw [h.frame]
  exact ((h.free i).mp (by simp [hbs])).2.2

/-- Free-list integrity: `n` is the number of blocks that `freelist` has made. An `int` holds
every count as long as fewer than `2 ^ 31 - 2` references have been added. -/
theorem freelist_integrity {b : BootMap} {s : PageState} {n : Nat}
    (hcurr : b.freeList.currblock = n) (h2 : 2 ≤ n) (hn : n < 50000) (h : PageReach b s) :
    ∃ bs, Chain s.fl.next 0 s.fl.headFreelist bs ∧ bs.Nodup ∧
      (∀ i, i ∈ bs ↔ 1 ≤ i ∧ i < n ∧ s.fl.freeMemory + i * 4096 ∉ s.out) ∧
      bs.length = s.fl.totalblockcount + 1 ∧
      (∀ i ∈ bs, s.fl.refCount i = 0) ∧
      (∀ padd ∈ s.out, ∃ i, 1 ≤ i ∧ i < n ∧ padd = s.fl.freeMemory + i * 4096 ∧
        1 ≤ s.fl.refCount i) ∧
      (∀ i, s.fl.refCount i ≤ s.increments + 1) ∧
      ∀ padd fl', s.fl.getPage = some (padd, fl') → padd ∉ s.out := by
  rw [BootMap.currblock] at hcurr
  subst hcurr
  have hsize : b.pages ≤ listSize + 1 := by
    have : listSize = 50000 := rfl
    omega
  have hi := h.listInv h2 hsize
  have haddr : ∀ i, s.fl.freeMemory + i * 4096 = b.addr i := by
    intro i
    rw [hi.base, BootMap.addr]
    omega
  refine ⟨s.fl.blocks, hi.threaded.chain, hi.threaded.nodup, fun i => ?_, hi.threaded.length,
    hi.threaded.unused, fun padd hp => ?_, hi.counts, fun padd fl' => hi.fresh hsize⟩
  · rw [haddr]
    exact hi.free i
  · obtain ⟨i, h1, h6, rfl, hc⟩ := hi.out padd hp
    exact ⟨i, h1, by omega, (haddr i).symm, hc⟩

/-- The map of a machine with 64 KiB above the kernel. -/
def smallMap : BootMap :=
  { regions := [⟨0x100000, 0x230000, by decide⟩], physfree := 0x220000, physfree_lt := by decide }

/-- Two pages are taken, the first gets a second reference, and each loses one. -/
def smallLabels : List PageLabel :=
  [.get, .get, .increment 0x322000, .release 0x322000, .release 0x323000]

/-- The first page is still out, and the second is back. -/
def smallState : PageState :=
  (runLabels pageStep smallLabels ⟨smallMap.freeList, [], 0⟩).get (by decide +kernel)

theorem smallState_reach : PageReach smallMap smallState :=
  Reach.of_run (.init rfl) (fun _ _ _ h => h) (Option.some_get _).symm

theorem freelist_integrity_smallMap : ∃ bs,
    Chain smallState.fl.next 0 smallState.fl.headFreelist bs ∧ bs.Nodup ∧
      (∀ i, i ∈ bs ↔ 1 ≤ i ∧ i < 15 ∧ smallState.fl.freeMemory + i * 4096 ∉ [0x322000]) ∧
      bs.length = 13 ∧ (∀ i ∈ bs, smallState.fl.refCount i = 0) ∧
      smallState.fl.refCount 1 = 1 ∧ smallState.increments = 1 := by
  have hcurr : smallMap.freeList.currblock = 15 := by
    rw [BootMap.currblock]
    decide
  have hout : smallState.out = [0x322000] := by decide +kernel
  have htotal : smallState.fl.totalblockcount = 12 := by decide +kernel
  obtain ⟨bs, hc, hn, hmem, hlen, hzero, -⟩ :=
    freelist_integrity hcurr (by decide) (by decide) smallState_reach
  rw [hout] at hmem
  rw [htotal] at hlen
  exact ⟨bs, hc, hn, hmem, hlen, hzero, by decide +kernel, by decide +kernel⟩

end Sbunix
