import Sbunix.Sys.Proofs.PageRuns

/-!
# Which memory maps work

Blocks are numbered through all regions and turned back into addresses with one base. A map
works when the pages that follow that base one after the other, up to the last block that
`get_page` gives away, all lie in regions of the map.
-/

namespace Sbunix

namespace BootMap

variable {b : BootMap} {s : PageState} {i n padd : Nat}

/-- The page at an address lies in one region of the map that `freelist` does not skip. -/
def InRegion (b : BootMap) (padd : Nat) : Prop :=
  ∃ r ∈ b.regions, r.base ≠ 0 ∧ r.base ≤ padd ∧ padd + 4096 ≤ r.base + r.length

/-- `freelist` stores nothing behind `p_list` (all it stores are block numbers from 2 on), and
all pages that `get_page` ever returns are pages of memory. -/
def RealRam (b : BootMap) : Prop :=
  (∀ i, listSize ≤ i → b.freeList.next i = 0) ∧
  ∀ s padd fl', PageReach b s → s.fl.getPage = some (padd, fl') →
    padd % 4096 = 0 ∧ b.physfree + 1024 * 1024 < padd ∧ b.InRegion padd ∧
      ∃ i < listSize, padd = s.fl.freeMemory + i * 4096

/-- The blocks fit `p_list`, and the pages from `FREEMEMORY` on, as many as there are blocks to
give away, lie behind `physfree` + 1 MiB and in regions of the map. -/
def Contiguous (b : BootMap) : Prop :=
  b.pages ≤ listSize + 1 ∧ ∀ i, 1 ≤ i → i + 6 ≤ b.pages →
    b.physfree + 1024 * 1024 < b.addr i ∧ b.InRegion (b.addr i)

/-- With fewer than two blocks nothing ever happens. -/
theorem stuck (h2 : b.pages < 2) (h : PageReach b s) : s = ⟨b.freeList, [], 0⟩ := by
  refine h.invariant (fun _ hs => hs) ?_
  rintro l s t rfl hs
  have htotal : b.freeList.totalblockcount < 5 := by
    have := b.built.1.total
    omega
  cases l with
  | get =>
      have hnone : (⟨b.freeList, [], 0⟩ : PageState).fl.getPage = none := if_pos htotal
      simp [pageStep, PageState.getPage, hnone] at hs
  | increment padd => simp [pageStep] at hs
  | release padd => simp [pageStep] at hs

/-- What `get_page` returns in a reachable state is one of the blocks `1` to `n - 6`. -/
theorem getPage_block {fl' : FreeList} (hn : b.pages ≤ listSize + 1) (h : PageReach b s)
    (hg : s.fl.getPage = some (padd, fl')) :
    ∃ i, 1 ≤ i ∧ i + 6 ≤ b.pages ∧ padd = b.addr i ∧ s.fl.freeMemory = 4096 * b.firstPage := by
  by_cases h2 : 2 ≤ b.pages
  · have hi := h.listInv h2 hn
    have hnext : s.getPage = some ⟨fl', padd :: s.out, s.increments⟩ := by
      rw [PageState.getPage, hg]
      rfl
    obtain ⟨i, h1, h6, hp, -⟩ := (hi.getPage hn hnext).out padd List.mem_cons_self
    exact ⟨i, h1, h6, hp, hi.base⟩
  · rw [stuck (Nat.lt_of_not_le h2) h] at hg
    have htotal : b.freeList.totalblockcount < 5 := by
      have := b.built.1.total
      omega
    exact absurd (hg.symm.trans (if_pos htotal)) (by simp)

/-- Six free blocks are enough for `get_page`. -/
theorem getPage_of_blocks (hi : ListInv b s) (hblocks : s.fl.blocks = List.range' i n)
    (h6 : 6 ≤ n) : ∃ padd fl', s.fl.getPage = some (padd, fl') := by
  have htotal : 5 ≤ s.fl.totalblockcount := by
    have := hi.threaded.length
    rw [hblocks, List.length_range'] at this
    omega
  obtain ⟨⟨padd, fl'⟩, hg⟩ := FreeList.getPage_total htotal
  exact ⟨padd, fl', hg⟩

/-- The blocks are handed out in order. -/
theorem handOut (hn : b.pages ≤ listSize + 1) : ∀ i, i + 6 ≤ b.pages →
    ∃ s, PageReach b s ∧ s.fl.blocks = List.range' (i + 1) (b.pages - (i + 1)) := by
  intro i
  induction i with
  | zero =>
      intro h6
      refine ⟨_, .init rfl, ?_⟩
      have hi := ListInv.start (b := b) (by omega) hn
      have hc := b.built.1.chain (b.pages - 2) 1 (Nat.le_refl 1) (by omega)
      have hhead : b.freeList.headFreelist = 1 := by
        rw [b.built.1.head]
        omega
      have hsame := hi.threaded.chain
      show b.freeList.blocks = _
      rw [show b.pages - (0 + 1) = b.pages - 2 + 1 by omega]
      exact Chain.unique hsame (by rw [hhead]; exact hc)
  | succ i ih =>
      intro h6
      obtain ⟨s, hs, hblocks⟩ := ih (by omega)
      have hi := hs.listInv (by omega) hn
      obtain ⟨padd, fl', hg⟩ := getPage_of_blocks hi hblocks (by omega)
      obtain ⟨j, bs, hbs, -, -, -, hbs', -⟩ := hi.threaded.getPage hn hg
      refine ⟨⟨fl', padd :: s.out, s.increments⟩, .step .get hs ?_, ?_⟩
      · show s.getPage = _
        rw [PageState.getPage, hg]
        rfl
      · rw [show b.pages - (i + 1) = b.pages - (i + 1 + 1) + 1 by omega, List.range'_succ,
          hbs] at hblocks
        exact hbs'.trans (List.cons.inj hblocks).2

/-- Each of the blocks `1` to `n - 6` is returned in some run. -/
theorem getPage_addr (hn : b.pages ≤ listSize + 1) (h1 : 1 ≤ i) (h6 : i + 6 ≤ b.pages) :
    ∃ s fl', PageReach b s ∧ s.fl.getPage = some (b.addr i, fl') := by
  obtain ⟨j, rfl⟩ : ∃ j, i = j + 1 := ⟨i - 1, by omega⟩
  obtain ⟨s, hs, hblocks⟩ := handOut hn j (by omega)
  have hi := hs.listInv (by omega) hn
  obtain ⟨padd, fl', hg⟩ := getPage_of_blocks hi hblocks (by omega)
  obtain ⟨k, bs, hbs, rfl, -⟩ := hi.threaded.getPage hn hg
  rw [show b.pages - (j + 1) = b.pages - (j + 1 + 1) + 1 by omega, List.range'_succ,
    hbs] at hblocks
  obtain rfl := (List.cons.inj hblocks).1
  rw [hi.frame] at hg
  exact ⟨s, fl', hs, hg⟩

/-- `freelist` stays inside `p_list` up to 50001 blocks. -/
theorem inTable_iff : (∀ i, listSize ≤ i → b.freeList.next i = 0) ↔ b.pages ≤ listSize + 1 := by
  have hnext := b.built.1.next
  constructor
  · intro h
    have h0 := h listSize (Nat.le_refl _)
    rw [hnext] at h0
    by_contra hlt
    rw [if_pos ⟨by decide, by omega⟩] at h0
    omega
  · intro h i hi
    rw [hnext, if_neg (by omega)]

end BootMap

/-- Exactly for contiguous maps `get_page` returns only pages of memory. -/
theorem realRam_iff (b : BootMap) : b.RealRam ↔ b.Contiguous := by
  constructor
  · rintro ⟨htable, hpages⟩
    have hn := BootMap.inTable_iff.mp htable
    refine ⟨hn, fun i h1 h6 => ?_⟩
    obtain ⟨s, fl', hs, hg⟩ := BootMap.getPage_addr hn h1 h6
    obtain ⟨-, hlow, hregion, -⟩ := hpages s _ fl' hs hg
    exact ⟨hlow, hregion⟩
  · rintro ⟨hn, hpages⟩
    refine ⟨BootMap.inTable_iff.mpr hn, fun s padd fl' hs hg => ?_⟩
    obtain ⟨i, h1, h6, rfl, hbase⟩ := BootMap.getPage_block hn hs hg
    obtain ⟨hlow, hregion⟩ := hpages i h1 h6
    refine ⟨BootMap.addr_aligned, hlow, hregion, i, by omega, ?_⟩
    rw [hbase, BootMap.addr]
    omega

/-- A map with the hole from 15 to 16 MiB. -/
def holeMap : BootMap :=
  { regions := [⟨0x100000, 0xE00000, by decide⟩, ⟨0x1000000, 0x7000000, by decide⟩]
    physfree := 0x230000
    physfree_lt := by decide }

/-- In that map `get_page` returns the page at 15 MiB. -/
theorem realRam_holeMap : ¬ holeMap.RealRam ∧ ∃ s fl', PageReach holeMap s ∧
    s.fl.getPage = some (0xF00000, fl') ∧ ¬ holeMap.InRegion 0xF00000 := by
  have hpages : holeMap.pages = 31695 := by decide
  have haddr : holeMap.addr 3023 = 0xF00000 := by decide
  have hout : ¬ holeMap.InRegion 0xF00000 := by
    rintro ⟨r, hr, -, hlo, hhi⟩
    obtain rfl | rfl := List.mem_pair.mp hr
    · exact absurd hhi (by decide)
    · exact absurd hlo (by decide)
  have hn : holeMap.pages ≤ listSize + 1 := by
    rw [hpages]
    decide
  obtain ⟨s, fl', hs, hg⟩ := BootMap.getPage_addr hn (by decide : 1 ≤ 3023) (by rw [hpages]; decide)
  rw [haddr] at hg
  exact ⟨fun h => hout (h.2 s _ fl' hs hg).2.2.1, s, fl', hs, hg, hout⟩

end Sbunix
