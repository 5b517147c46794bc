import Sbunix.Sys.Boot
import Sbunix.Sys.Proofs.FreeBlocks

/-!
# The free list after start-up

`freelist` numbers the pages of the region above `physfree` + 1 MiB from 0 on and links
all but block 0.
-/

namespace Sbunix

theorem page_succ (b j : Nat) : b + 4096 + 4096 * j = b + 4096 * (j + 1) := by omega

/-- The number of the first page that starts at or behind an address. -/
def pageUp (a : Nat) : Nat := (a + 4095) / 4096

/-- The pages up to `physfree` + 1 MiB. -/
def kernelPages (physfree : Nat) : Nat := (physfree + 1024 * 1024) / 4096 + 1

theorem le_page {a q : Nat} : a ≤ 4096 * q ↔ pageUp a ≤ q := by
  unfold pageUp
  omega

theorem page_low {physfree q : Nat} :
    4096 * q ≤ physfree + 1024 * 1024 ↔ q < kernelPages physfree := by
  unfold kernelPages
  omega

theorem pageUp_aligned {a : Nat} (h : a % 4096 = 0) : 4096 * pageUp a = a := by
  unfold pageUp
  omega

theorem max_succ_low {q k : Nat} (h : q < k) : max (q + 1) k = max q k := by omega

theorem pages_succ_high {n q k e : Nat} (hq : ¬ q < k) (hlt : q < e) :
    n + 1 + (e - max (q + 1) k) = n + (e - max q k) := by omega

theorem min_succ_low {q k e : Nat} (hq : q < k) (hlt : q < e) (h : ¬ (q + 1 < e ∧ q + 1 < k)) :
    q + 1 = min e k := by omega

namespace FreeList

variable {fl : FreeList} {fuel b last physfree n q : Nat}

/-- The list after `n` pages have been added. -/
structure Built (fl : FreeList) (n : Nat) : Prop where
  next : ∀ i, fl.next i = if 1 ≤ i ∧ i + 1 < n then i + 1 else 0
  refCount : ∀ i, fl.refCount i = 0
  head : fl.headFreelist = min 1 (n - 1)
  total : fl.totalblockcount = n - 2
  last : fl.lastfreeblock = n - 1
  curr : fl.currblock = n

theorem Built.empty : Built emptyFreeList 0 := by
  refine ⟨fun i => ?_, fun _ => rfl, rfl, rfl, rfl, rfl⟩
  rw [if_neg (by omega)]
  rfl

/-- Setting `FREEMEMORY`. -/
theorem Built.setBase (h : Built fl n) : Built { fl with freeMemory := b } n :=
  ⟨h.next, h.refCount, h.head, h.total, h.last, h.curr⟩

/-- One page more. -/
theorem Built.add (h : Built fl n) (hal : b % 4096 = 0)
    (hb : physfree + 1024 * 1024 < b) (hl : b < last) :
    ∃ fl', freelistFrom (fuel + 1) b last physfree fl =
        freelistFrom fuel (b + 4096) last physfree fl' ∧ Built fl' (n + 1) ∧
      fl'.freeMemory = fl.freeMemory := by
  have hlast := h.last
  have hcurr := h.curr
  have htotal := h.total
  rw [freelistFrom, if_neg (by omega), if_neg (by omega), if_neg (by omega)]
  by_cases h0 : fl.lastfreeblock = 0
  · rw [if_pos h0]
    refine ⟨_, rfl, ⟨fun i => ?_, h.refCount, ?_, ?_, ?_, ?_⟩, rfl⟩
    · show fl.next i = _
      rw [h.next, if_neg (by omega), if_neg (by omega)]
    · show fl.currblock = _
      omega
    · show fl.totalblockcount = _
      omega
    · show fl.currblock = _
      omega
    · show fl.currblock + 1 = _
      omega
  · rw [if_neg h0]
    refine ⟨_, rfl, ⟨fun i => ?_, fun i => ?_, ?_, ?_, ?_, ?_⟩, rfl⟩
    · show Function.update fl.next fl.lastfreeblock fl.currblock i = _
      by_cases hi : i = fl.lastfreeblock
      · rw [hi, Function.update_self, if_pos (by omega)]
        omega
      · rw [Function.update_of_ne hi, h.next]
        split_ifs <;> omega
    · show Function.update fl.refCount fl.lastfreeblock 0 i = 0
      by_cases hi : i = fl.lastfreeblock
      · rw [hi, Function.update_self]
      · rw [Function.update_of_ne hi, h.refCount]
    · show fl.headFreelist = _
      rw [h.head]
      omega
    · show fl.totalblockcount + 1 = _
      omega
    · show fl.currblock = _
      omega
    · show fl.currblock + 1 = _
      omega

/-- The pages from number `q` to the end of the region: those up to `physfree` + 1 MiB move
`FREEMEMORY`, the others become blocks. -/
theorem Built.pages (physfree : Nat) (h : Built fl n) (hfuel : pageUp last ≤ q + fuel) :
    Built (freelistFrom fuel (4096 * q) last physfree fl)
        (n + (pageUp last - max q (kernelPages physfree))) ∧
      (freelistFrom fuel (4096 * q) last physfree fl).freeMemory =
        if q < pageUp last ∧ q < kernelPages physfree then
          4096 * min (pageUp last) (kernelPages physfree)
        else fl.freeMemory := by
  induction fuel generalizing q fl n with
  | zero =>
      have hend : pageUp last ≤ max q (kernelPages physfree) := hfuel.trans (Nat.le_max_left _ _)
      rw [Nat.sub_eq_zero_of_le hend, if_neg (by omega)]
      exact ⟨h, rfl⟩
  | succ fuel ih =>
      have hal : 4096 * q % 4096 = 0 := Nat.mul_mod_right 4096 q
      by_cases hl : last ≤ 4096 * q
      · have hend := le_page.mp hl
        rw [freelistFrom, if_pos hl, Nat.sub_eq_zero_of_le (hend.trans (Nat.le_max_left _ _)),
          if_neg (by omega)]
        exact ⟨h, rfl⟩
      · have hlt : q < pageUp last := by
          rwa [le_page, Nat.not_le] at hl
        have hfuel' : pageUp last ≤ q + 1 + fuel := by omega
        by_cases hlow : 4096 * q ≤ physfree + 1024 * 1024
        · have hq := page_low.mp hlow
          obtain ⟨hb, hfm⟩ := ih (h.setBase (b := 4096 * (q + 1))) hfuel'
          rw [freelistFrom, if_neg hl, if_neg (fun hne => hne hal), if_pos hlow, ← Nat.mul_succ,
            if_pos ⟨hlt, hq⟩]
          refine ⟨by rw [← max_succ_low hq]; exact hb, hfm.trans ?_⟩
          by_cases hin : q + 1 < pageUp last ∧ q + 1 < kernelPages physfree
          · rw [if_pos hin]
          · rw [if_neg hin, ← min_succ_low hq hlt hin]
        · have hq : ¬ q < kernelPages physfree := fun hq => hlow (page_low.mpr hq)
          obtain ⟨fl', heq, hfl', hfm'⟩ := h.add hal (Nat.lt_of_not_le hlow) (Nat.lt_of_not_le hl)
          obtain ⟨hb, hfm⟩ := ih hfl' hfuel'
          rw [heq, ← Nat.mul_succ, ← pages_succ_high hq hlt]
          refine ⟨hb, ?_⟩
          rw [hfm, if_neg fun h => hq (Nat.lt_of_succ_lt h.2), if_neg fun h => hq h.2, hfm']

/-- A call of `freelist` adds the pages of the region that lie above `physfree` + 1 MiB. -/
theorem Built.freelist {base : Nat} (length physfree : Nat) (h : Built fl n) (hbase : base ≠ 0) :
    Built (fl.freelist base length physfree)
        (n + (pageUp (base + length) - max (pageUp base) (kernelPages physfree))) ∧
      (fl.freelist base length physfree).freeMemory =
        if pageUp base < pageUp (base + length) ∧ pageUp base < kernelPages physfree then
          4096 * min (pageUp (base + length)) (kernelPages physfree)
        else fl.freeMemory := by
  have hfuel : pageUp (base + length) ≤ pageUp base + (length / 4096 + 1) := by
    unfold pageUp
    omega
  rw [FreeList.freelist, if_neg hbase]
  by_cases hal : base % 4096 = 0
  · have hb := pageUp_aligned hal
    have hfuel' : pageUp (base + length) ≤ pageUp base + (length / 4096 + 2) := Nat.le_succ_of_le hfuel
    have hres := h.pages physfree hfuel'
    rwa [hb] at hres
  · have hb : base - base % 4096 + 4096 = 4096 * pageUp base := by
      unfold pageUp
      omega
    by_cases hl : base + length ≤ base
    · have hlen : length = 0 := by omega
      rw [freelistFrom, if_pos hl, hlen, Nat.add_zero,
        Nat.sub_eq_zero_of_le (Nat.le_max_left _ _), if_neg (by omega)]
      exact ⟨h, rfl⟩
    · rw [freelistFrom, if_neg hl, if_pos hal, hb]
      exact h.pages physfree hfuel

/-- The blocks from 1 on, linked in order. -/
theorem Built.chain (h : Built fl n) : ∀ j i, 1 ≤ i → i + j + 1 = n →
    Chain fl.next 0 i (List.range' i (j + 1)) := by
  intro j
  induction j with
  | zero =>
      intro i hi hn
      refine ⟨rfl, by omega, ?_⟩
      show fl.next i = 0
      rw [h.next, if_neg (by omega)]
  | succ j ih =>
      intro i hi hn
      refine ⟨rfl, by omega, ?_⟩
      rw [h.next, if_pos (by omega)]
      exact ih (i + 1) (by omega) (by omega)

/-- From two pages on, the list holds all blocks but 0. -/
theorem Built.threaded (h : Built fl n) (hn : 2 ≤ n) (hsize : n ≤ listSize + 1)
    (hal : fl.freeMemory % 4096 = 0) (hbd : fl.freeMemory / 4096 + listSize < 2 ^ 52) :
    Threaded n fl ∧ fl.blocks = List.range' 1 (n - 2 + 1) := by
  refine Threaded.of_chain hsize hal hbd ?_ List.nodup_range' ?_ ?_ fun b _ => h.refCount b
  · rw [h.head, show min 1 (n - 1) = 1 by omega]
    exact h.chain (n - 2) 1 (Nat.le_refl 1) (by omega)
  · rw [List.length_range', h.total]
  · intro b hb
    have := List.mem_range'_1.mp hb
    omega

theorem Built.freeInv (h : Built fl n) (hn : 2 ≤ n) (hle : n ≤ listSize)
    (hal : fl.freeMemory % 4096 = 0) (hlo : 0 < fl.freeMemory / 4096)
    (hbd : fl.freeMemory / 4096 + listSize < 2 ^ 52) : FreeInv fl := by
  obtain ⟨ht, -⟩ := h.threaded hn (Nat.le_succ_of_le hle) hal hbd
  exact ⟨{ ht with lt := fun b hb => (ht.lt b hb).trans_le hle }, hlo⟩

end FreeList

theorem last_le {last e q physfree : Nat} (hlast : last ≤ 4096 * e) (he : q + 7 ≤ e)
    (hq : q = physfree / 4096 + 257) (hal : physfree % 4096 = 0) :
    last ≤ physfree + 1024 * 1024 + 4096 * (e - q - 2 + 3) := by
  have : e - q - 2 + 3 = e - q + 1 := by omega
  rw [this]
  omega

/-- The free list that C `start` builds. -/
theorem BootInfo.Fits.freeInv {i : BootInfo} (h : i.Fits) :
    FreeInv (emptyFreeList.freelist i.base i.length i.physfree) ∧
      (emptyFreeList.freelist i.base i.length i.physfree).freeMemory =
        i.physfree + 1024 * 1024 + 4096 ∧
      i.base + i.length ≤ i.physfree + 1024 * 1024 + 4096 *
        ((emptyFreeList.freelist i.base i.length i.physfree).totalblockcount + 3) := by
  have hphi : i.physfree < 0x400000 := by
    have := h.physfree_high
    have hphys : physbase = 0x200000 := rfl
    omega
  have hbase : i.base ≠ 0 := h.base_pos.ne'
  have hlow : kernelPages i.physfree = i.physfree / 4096 + 257 := by
    unfold kernelPages
    omega
  have hlt : pageUp i.base < kernelPages i.physfree := by
    rw [← page_low]
    exact (le_of_eq (pageUp_aligned h.base_aligned)).trans h.base_low
  have hal := h.physfree_aligned
  have hend : kernelPages i.physfree + 7 ≤ pageUp (i.base + i.length) := by
    have := h.enough
    unfold pageUp
    omega
  have hfew : pageUp (i.base + i.length) < kernelPages i.physfree + listSize := by
    have := h.few
    rw [show 4096 * listSize = 4096 * 50000 from rfl] at this
    rw [show listSize = 50000 from rfl]
    unfold pageUp
    omega
  obtain ⟨hbuilt, hfm⟩ := FreeList.Built.empty.freelist i.length i.physfree hbase
  obtain ⟨fl, hfl⟩ : ∃ fl, emptyFreeList.freelist i.base i.length i.physfree = fl := ⟨_, rfl⟩
  rw [hfl, if_pos ⟨by omega, hlt⟩, Nat.min_eq_right (by omega)] at hfm
  rw [hfl, Nat.max_eq_right hlt.le, Nat.zero_add] at hbuilt
  have hdiv : fl.freeMemory / 4096 = kernelPages i.physfree := by
    rw [hfm, Nat.mul_div_cancel_left _ (by decide)]
  rw [hfl]
  refine ⟨hbuilt.freeInv (by omega) (by omega) (hfm ▸ Nat.mul_mod_right 4096 _) ?_ ?_, ?_, ?_⟩
  · rw [hdiv]
    omega
  · rw [hdiv, show listSize = 50000 from rfl]
    omega
  · omega
  · rw [hbuilt.total]
    exact last_le (le_page.mpr (Nat.le_refl _)) hend hlow hal

end Sbunix
