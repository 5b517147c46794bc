import Sbunix.Sys.Proofs.FirstProcess

/-!
# When unmap_phyaddr_range is exact

The loop visits each page of a range once, and no other, exactly for ranges that end inside a
page, below the last page of memory, and lie below 2 GiB or in the highest 2 GiB.
-/

namespace Sbunix

variable {k : Nat} {m : Machine} {s t : VmState} {a n u v vstart vend start stop : Nat}

/-- The addresses of the pages of `[vstart, vend]`, each once. -/
def ExactPages (vs : List Nat) (vstart vend : Nat) : Prop :=
  vs.Nodup ∧ ∀ v, v ∈ vs ↔ v % 4096 = 0 ∧ vstart / 4096 ≤ v / 4096 ∧ v / 4096 ≤ vend / 4096

/-- The ranges that the loop handles. -/
def LoopRange (vstart vend : Nat) : Prop :=
  vend % 4096 ≠ 0 ∧ vend < 2 ^ 64 - 4096 ∧ (vend < 2 ^ 31 ∨ 0xFFFFFFFF80000000 ≤ vstart)

theorem LoopRange.rangeAddrs_eq (h : LoopRange vstart vend) (hle : vstart ≤ vend) :
    rangeAddrs vstart vend =
      List.range' (vstart / 4096 * 4096) (vend / 4096 - vstart / 4096 + 1) 4096 := by
  obtain ⟨hmod, hlt, hcase⟩ := h
  have hend : unmapEnd vend = (vend / 4096 + 1) * 4096 := by
    rw [unmapEnd_eq, if_pos hmod]
    omega
  obtain ⟨hal, hlt64⟩ := unmapEnd_aligned (v := vend) (by omega)
  have hstart : toUint64 (toInt32 (unmapStart vstart)) = vstart / 4096 * 4096 := by
    rw [unmapStart_eq]
    refine toUint64_toInt32 ?_
    omega
  rw [rangeAddrs, unmapAddrs_eq unmapStart_counter hal hlt64 ?_
    ((turns_le unmapStart_counter).trans (Nat.le_succ _)), hstart, hend]
  · rw [← Nat.sub_mul, Nat.mul_div_cancel _ (by decide),
      Nat.sub_add_comm (Nat.div_le_div_right hle)]
  · rw [unmapStart_eq, hend]
    rcases hcase with h | h
    · exact .inr (by omega)
    · refine .inl ?_
      rw [toInt32_high (by omega) (by omega)]
      omega

/-- Exactness of the loop. -/
theorem rangeAddrs_exact (hle : vstart ≤ vend) (hv : vend < 2 ^ 64) :
    ExactPages (rangeAddrs vstart vend) vstart vend ↔ LoopRange vstart vend := by
  constructor
  · rintro ⟨-, hmem⟩
    -- the first and the last page are visited
    obtain ⟨-, hlt, hlast⟩ := mem_rangeAddrs ((hmem (vend / 4096 * 4096)).mpr
      ⟨Nat.mul_mod_left _ _, by omega, by omega⟩)
    obtain ⟨-, -, hfirst⟩ := mem_rangeAddrs ((hmem (vstart / 4096 * 4096)).mpr
      ⟨Nat.mul_mod_left _ _, by omega, by omega⟩)
    rw [unmapEnd_eq] at hlt
    refine ⟨?_, ?_, ?_⟩
    · intro h0
      rw [if_neg (by omega)] at hlt
      omega
    · split_ifs at hlt <;> omega
    · by_contra hno
      -- the loop would have to visit the page at 2 GiB
      obtain ⟨-, -, hmid⟩ := mem_rangeAddrs ((hmem (2 ^ 31)).mpr ⟨by decide, by omega, by omega⟩)
      omega
  · intro h
    rw [h.rangeAddrs_eq hle]
    refine ⟨List.nodup_range' 4096, fun v => ?_⟩
    rw [List.mem_range']
    constructor
    · rintro ⟨i, hi, rfl⟩
      omega
    · rintro ⟨hal, hlo, hhi⟩
      exact ⟨v / 4096 - vstart / 4096, by omega, by omega⟩

/-- What the hardware finds for an address of the current space is the leaf entry of its page. -/
theorem PageInv.walk_space {m : Machine} {sp : Space} (hp : PageInv k m noRes) (hr : RootInv k m)
    (hs : InSpace k m v sp) : (walk m.mem m.cr3 v).map Walk.e4 =
      if leaf m.mem k (sp, pageOf v) = 0 then none else some (leaf m.mem k (sp, pageOf v)) := by
  exact walk_entry hp.tables hr hs hp.leaves.odd

theorem VmInv.walk_user (hi : VmInv k s) (ha : s.active = some a) (hu : UserAddr v) :
    (walk s.machine.mem s.machine.cr3 v).map Walk.e4 =
      if leaf s.machine.mem k (pageAt a v) = 0 then none
      else some (leaf s.machine.mem k (pageAt a v)) := by
  obtain ⟨halt, hroot⟩ := hi.active_root ha
  exact hi.pages.walk_space hi.rootInv (hu.inSpace halt hroot)

/-- The pages of a removed VMA are unmapped, and no others. -/
theorem VmInv.removed_exact (hi : VmInv k s) (ha : s.active = some a) (hrem : Removed s t n)
    (hle : (s.vma n).vstart ≤ (s.vma n).vend) (h : LoopRange (s.vma n).vstart (s.vma n).vend)
    (hc : Canonical v) : leaf t.machine.mem k (pageAt a v) =
      if (s.vma n).vstart / 4096 ≤ v / 4096 ∧ v / 4096 ≤ (s.vma n).vend / 4096 then 0
      else leaf s.machine.mem k (pageAt a v) := by
  obtain ⟨halt, hroot⟩ := hi.active_root ha
  obtain ⟨m', hm', -, hleaf⟩ := unmapRange_spec hi.pages hi.rootInv halt hroot (hi.range n)
  obtain rfl : m' = t.machine := Option.some.inj (hm'.symm.trans hrem.machine)
  have hv := (hi.range n).vend_lt
  obtain ⟨-, hmem⟩ := (rangeAddrs_exact hle hv).mpr h
  rw [hleaf]
  refine if_congr ?_ rfl rfl
  constructor
  · rintro ⟨u, hu, hp⟩
    obtain ⟨-, hlo, hhi⟩ := (hmem u).mp hu
    obtain ⟨-, -, hlow⟩ := mem_rangeAddrs hu
    have hcu : Canonical u := by
      unfold Canonical
      omega
    rw [hc.page_eq hcu (congrArg Prod.snd hp)]
    exact ⟨hlo, hhi⟩
  · rintro ⟨hlo, hhi⟩
    refine ⟨v / 4096 * 4096, (hmem _).mpr ⟨Nat.mul_mod_left _ _, by omega, by omega⟩, ?_⟩
    exact pageAt_congr pageOf_pageAddr.symm

/-- When `unmap_phyaddr_range` is exact: it is a fold of `unmap_phyaddr`, so it ends for all
ranges, and the addresses are those of the pages of the range exactly for `LoopRange`. Then
removing a VMA unmaps its pages and keeps all others. -/
theorem unmapPhyaddrRange_exact (hle : vstart ≤ vend) (hv : vend < 2 ^ 64) :
    (∀ m : Machine, m.unmapPhyaddrRange vstart vend =
      (rangeAddrs vstart vend).foldlM (fun m v => Machine.unmapPhyaddr m v) m) ∧
    (ExactPages (rangeAddrs vstart vend) vstart vend ↔ LoopRange vstart vend) ∧
    (LoopRange vstart vend → ∀ cond s t a start stop n, VmReach cond s → s.active = some a →
      s.removeFromVmaList a start stop = some (1, t) →
      matchFrom s.vma start stop (2 ^ 64) (s.mm a).vmaList = some n →
      (s.vma n).vstart = vstart → (s.vma n).vend = vend →
      ∀ v, UserAddr v → Canonical v →
        (walk t.machine.mem t.machine.cr3 v).map Walk.e4 =
          if vstart / 4096 ≤ v / 4096 ∧ v / 4096 ≤ vend / 4096 then none
          else (walk s.machine.mem s.machine.cr3 v).map Walk.e4) := by
  refine ⟨fun m => unmapPhyaddrRange_eq hv, rangeAddrs_exact hle hv, ?_⟩
  intro h cond s t a start stop n hreach ha hrem hn hlo hhi v hu hc
  obtain ⟨k, hi⟩ := hreach.vmInv
  rcases removeFromVmaList_cases hrem with ⟨h0, -⟩ | ⟨-, n', hn', hr⟩
  · exact absurd h0 (by decide)
  · obtain rfl : n' = n := Option.some.inj (hn'.symm.trans hn)
    have hi' : VmInv k t := (hi.spaceInv.removed hr).vmInv hi
    rw [hi'.walk_user (hr.active.trans ha) hu, hi.walk_user ha hu,
      hi.removed_exact ha hr (by rwa [hlo, hhi]) (by rwa [hlo, hhi]) hc, hlo, hhi]
    by_cases hin : vstart / 4096 ≤ v / 4096 ∧ v / 4096 ≤ vend / 4096
    · rw [if_pos hin, if_pos rfl, if_pos hin]
    · rw [if_neg hin, if_neg hin]

/-- The first page of a program. -/
theorem unmapPhyaddrRange_exact_page :
    ExactPages (rangeAddrs 0x400000 0x400FFF) 0x400000 0x400FFF :=
  (unmapPhyaddrRange_exact (by decide) (by decide)).2.1.mpr ⟨by decide, by decide, by decide⟩

/-- A VMA whose last address starts a page keeps that page; one from `0x180000000` on is not
unmapped at all. -/
theorem rangeAddrs_misses : rangeAddrs 0x400000 0x401000 = [0x400000] ∧
    ¬ ExactPages (rangeAddrs 0x400000 0x401000) 0x400000 0x401000 ∧
    ¬ ExactPages (rangeAddrs 0x180000000 0x180000FFF) 0x180000000 0x180000FFF := by
  refine ⟨by decide, ?_, ?_⟩
  · rw [rangeAddrs_exact (by decide) (by decide)]
    exact fun h => h.1 (by decide)
  · rw [rangeAddrs_exact (by decide) (by decide)]
    rintro ⟨-, -, h⟩
    exact absurd h (by decide)

end Sbunix
