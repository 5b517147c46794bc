import Sbunix.Sys.Proofs.FrameCounts

/-!
# Steps that succeed

What the steps of a process do when there is memory for them: creating a VMA, and a page
fault in it.
-/

namespace Sbunix

variable {k : Nat} {s t : VmState} {a v start stop n p : Nat}

/-! ## Walks over lists -/

theorem inVmaFrom_head {vma : Nat → Vma} (hn : 0 < n) (hp : p ≠ 0) (hlo : (vma p).vstart ≤ v)
    (hhi : v ≤ (vma p).vend) : VmState.inVmaFrom vma v n p = true := by
  obtain ⟨n, rfl⟩ := Nat.exists_eq_succ_of_ne_zero hn.ne'
  rw [VmState.inVmaFrom, if_neg hp, if_pos ⟨hlo, hhi⟩]

/-! ## The first VMA -/

/-- The state after the first VMA of a process has been created in a fresh node. -/
def VmState.withVma (s : VmState) (a start stop heapTop : Nat) : VmState :=
  { s with
    vma := Function.update s.vma (s.kernVA + 1) ⟨start, stop, 0⟩
    mm := Function.update s.mm a { s.mm a with vmaList := s.kernVA + 1, heapTop := heapTop }
    kernVA := s.kernVA + 24 }

theorem allocVma_first (hbin : s.vmaRecycleList = 0) (hva : s.kernVA + 24 < 2 ^ 64) :
    s.allocVma start stop = some (s.kernVA + 1, { s with
      vma := Function.update s.vma (s.kernVA + 1) ⟨start, stop, 0⟩, kernVA := s.kernVA + 24 }) := by
  rw [VmState.allocVma, VmState.getvmaFromRecylebin, if_pos hbin]
  simp only [if_true, VmState.kmalloc, if_neg (show ¬ 2 ^ 64 - 1 < s.kernVA + 24 by omega)]
  rfl

/-- A segment in an empty process. -/
theorem segment_first {vaddr memsz : Nat} (ha : s.active = some a) (hlist : (s.mm a).vmaList = 0)
    (hbin : s.vmaRecycleList = 0) (hva : s.kernVA + 24 < 2 ^ 64)
    (hr : UserRange vaddr (vaddr + memsz)) :
    vmStep (.segment vaddr memsz) s = some (s.withVma a vaddr (vaddr + memsz)
      ((((vaddr + memsz) >>> 12 + 1) <<< 12) % 2 ^ 64)) := by
  show s.active.bind _ = _
  simp only [ha, Option.bind_some, VmState.stepOf, VmState.segment, if_pos hr,
    allocVma_first hbin hva, Option.bind_eq_bind, VmState.appendToVmaList, hlist, if_true]
  simp [VmState.withVma, VmState.setMm, ha]

/-! ## Faults -/

theorem VmInv.pageFault (hi : VmInv k s) {write : Bool} (ha : s.active = some a) (hv : v < 2 ^ 64)
    (hin : s.isPageInVmaList a v = true) (h0 : leaf s.machine.mem k (pageAt a v) = 0)
    (hroom : 8 ≤ s.machine.fl.totalblockcount) :
    ∃ pa m', s.machine.mapPhyaddr (v / 4096 * 4096) = some (pa, m') ∧
      Sbunix.vmStep (.userFault v write) s = some { s with machine := m' } := by
  obtain ⟨halt, hroot⟩ := hi.active_root ha
  have hu := hi.userAddr hin
  have hs := hu.inSpace halt hroot
  have hwalk := walk_none hi.pages.tables hi.rootInv hs h0
  have hperm : permits s.machine v write = false := by
    rw [permits, hwalk]
  obtain ⟨⟨pa, m'⟩, hm⟩ := (Machine.mapPhyaddr_fresh hi.pages hi.rootInv hs.pageAddr
    (by rw [pageOf_pageAddr]; exact hu.userPage.not_window) (Nat.mul_mod_left _ _)
    (by rw [pageOf_pageAddr]; exact h0)).total hroom
  refine ⟨pa, m', hm, ?_⟩
  show s.active.bind _ = _
  rw [ha, Option.bind_some, VmState.stepOf, if_pos ⟨hv, hperm⟩, VmState.pagemama,
    if_neg (by simp), ha]
  simp only [Option.bind_eq_bind, Option.bind_some, hin, if_true, hwalk, Option.isSome_none]
  rw [if_neg (by simp), VmState.onMachine, pageAddr_eq, hm, ← ha]
  rfl

end Sbunix
