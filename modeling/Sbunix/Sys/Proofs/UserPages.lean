import Sbunix.Sys.Proofs.CowOps
import Sbunix.Sys.VmRun

/-!
# Pages that programs may use

The addresses that VMAs cover, and what every operation on them keeps: the invariant of
the page tables, `cr3` and the PML4s of all slots.
-/

namespace Sbunix

variable {k : Nat} {m m' m'' : Machine} {s : VmState} {a b c v lo hi : Nat} {i : Int}

/-- The half in which the process in slot `a` sees the address `v`. -/
def spaceOf (a v : Nat) : Space := if p1Index v = 511 then none else some a

/-- The page of `v` in the address space of slot `a`. -/
def pageAt (a v : Nat) : Page := (spaceOf a v, pageOf v)

/-- VMAs hold user addresses only. -/
theorem UserRange.userAddr (h : UserRange lo hi) (hlo : lo ≤ v) (hhi : v ≤ hi) : UserAddr v := by
  have hw : pml4Page (procSize - 1) = 0xFFFF801FF - 99 := pml4Page_eq (by decide)
  unfold UserAddr
  rw [p1Index_eq, pageOf, hw]
  rcases h with h | ⟨h, h'⟩ | ⟨h, h'⟩
  · exact ⟨by omega, .inl (by omega)⟩
  · exact ⟨by omega, .inl (by omega)⟩
  · rw [show upml4 - 4096 * (procSize - 1) = 0xFFFFFFFF801FF000 - 4096 * 99 from rfl] at h'
    exact ⟨by omega, .inr ⟨by omega, by omega⟩⟩

/-- A canonical address. -/
def Canonical (v : Nat) : Prop := v < 2 ^ 47 ∨ 0xFFFF800000000000 ≤ v ∧ v < 2 ^ 64

theorem Canonical.page_eq (hv : Canonical v) (hb : Canonical b) (h : pageOf v = pageOf b) :
    v / 4096 = b / 4096 := by
  unfold Canonical at hv hb
  unfold pageOf at h
  omega

theorem UserRange.canonical (h : UserRange lo hi) (hlo : lo ≤ v) (hhi : v ≤ hi) : Canonical v := by
  have hlt := (h.userAddr hlo hhi).1
  unfold Canonical
  rcases h with h | ⟨h, -⟩ | ⟨h, -⟩ <;> omega

theorem UserAddr.page (h : UserAddr v) (hv : v / 4096 = b / 4096) : UserAddr b := by
  have hpage : pageOf b = pageOf v := by
    unfold pageOf
    rw [hv]
  have hidx : p1Index b = p1Index v := by rw [pIndex_pageOf.1, pIndex_pageOf.1, hpage]
  obtain ⟨hlt, h⟩ := h
  refine ⟨by omega, ?_⟩
  rw [hidx, hpage]
  exact h

theorem UserAddr.userPage (h : UserAddr v) : UserPage (pageAt a v) := by
  unfold pageAt spaceOf
  rcases h.2 with h | ⟨h, h'⟩
  · rw [if_neg (by omega)]
    exact .inl (by simp)
  · rw [if_pos h]
    exact .inr h'

theorem UserAddr.inSpace (h : UserAddr v) (hc : c < procSize)
    (hr : root m.mem k (some c) = some (m.cr3 / 4096)) : InSpace k m v (spaceOf c v) := by
  unfold spaceOf
  rcases h.2 with h | ⟨h, -⟩
  · rw [if_neg (by omega)]
    exact ⟨hc, h, hr⟩
  · rw [if_pos h]
    exact h

/-- Two addresses with the same page number lie in the same half. -/
theorem spaceOf_congr (h : pageOf v = pageOf b) : spaceOf a v = spaceOf a b := by
  have h1 : p1Index v = p1Index b := by rw [pIndex_pageOf.1, pIndex_pageOf.1, h]
  unfold spaceOf
  rw [h1]

theorem pageAt_congr (h : pageOf v = pageOf b) : pageAt a v = pageAt a b :=
  Prod.ext (spaceOf_congr h) h

/-- What the operations on the pages of processes keep. -/
structure Keeps (k : Nat) (m m' : Machine) : Prop where
  pages : PageInv k m' noRes
  rootInv : RootInv k m'
  cr3 : m'.cr3 = m.cr3
  roots : ∀ c < procSize, root m'.mem k (some c) = root m.mem k (some c)

theorem Keeps.refl (h : PageInv k m noRes) (hr : RootInv k m) : Keeps k m m :=
  ⟨h, hr, rfl, fun _ _ => rfl⟩

theorem Keeps.trans (h : Keeps k m m') (h' : Keeps k m' m'') : Keeps k m m'' :=
  ⟨h'.pages, h'.rootInv, h'.cr3.trans h.cr3, fun c hc => (h'.roots c hc).trans (h.roots c hc)⟩

/-- PML4s stay when the entries of the windows do. -/
theorem roots_of_leaf
    (h : ∀ c < procSize, leaf m'.mem k (none, pml4Page c) = leaf m.mem k (none, pml4Page c))
    (hc : c < procSize) : root m'.mem k (some c) = root m.mem k (some c) := by
  rw [root_eq hc, root_eq hc, h c hc]

/-- Writing the leaf entry of a user page keeps the PML4s. -/
theorem roots_of_update {p : Page} {w : Nat} (hu : UserPage p)
    (h : leaf m'.mem k = Function.update (leaf m.mem k) p w) (hc : c < procSize) :
    root m'.mem k (some c) = root m.mem k (some c) := by
  refine roots_of_leaf (fun d hd => ?_) hc
  rw [h, Function.update_of_ne]
  rintro rfl
  exact hu.not_window (window_mk hd)

/-- The invariant of the memory side; `k` is the frame that holds the kernel half. -/
structure VmInv (k : Nat) (s : VmState) : Prop where
  pages : PageInv k s.machine noRes
  rootInv : RootInv k s.machine
  small : k < 2 ^ 52
  range : ∀ p, UserRange (s.vma p).vstart (s.vma p).vend
  alive : ∀ c, s.alive c = true →
    c < procSize ∧ ∃ g, root s.machine.mem k (some c) = some g ∧ (s.mm c).cr3 = g * 4096
  active : ∀ a, s.active = some a → s.alive a = true ∧ (s.mm a).cr3 = s.machine.cr3
  current : ∃ c < procSize, root s.machine.mem k (some c) = some (s.machine.cr3 / 4096)

namespace VmInv

theorem current_isTable (h : VmInv k s) : IsTable s.machine.mem k (s.machine.cr3 / 4096) := by
  obtain ⟨c, hc, hr⟩ := h.current
  exact ⟨some c, [], ⟨hc, by simp⟩, hr⟩

/-- The process that runs has its PML4 in `cr3`. -/
theorem active_root (h : VmInv k s) (ha : s.active = some a) :
    a < procSize ∧ root s.machine.mem k (some a) = some (s.machine.cr3 / 4096) := by
  obtain ⟨hal, hcr3⟩ := h.active a ha
  obtain ⟨hlt, g, hr, hg⟩ := h.alive a hal
  refine ⟨hlt, ?_⟩
  rw [hr, ← hcr3, hg, Nat.mul_div_cancel _ (by decide)]

/-- A change of the machine that keeps the PML4s. -/
theorem machine (h : VmInv k s) (hk : Keeps k s.machine m) : VmInv k { s with machine := m } := by
  refine ⟨hk.pages, hk.rootInv, h.small, h.range, ?_, ?_, ?_⟩
  · intro c hc
    obtain ⟨hlt, g, hr, hg⟩ := h.alive c hc
    exact ⟨hlt, g, (hk.roots c hlt).trans hr, hg⟩
  · intro a ha
    obtain ⟨hal, hcr3⟩ := h.active a ha
    exact ⟨hal, hcr3.trans hk.cr3.symm⟩
  · obtain ⟨c, hc, hr⟩ := h.current
    exact ⟨c, hc, by rw [hk.roots c hc, hr]; exact congrArg (fun x => some (x / 4096)) hk.cr3.symm⟩

end VmInv

/-! ## Unmapping -/

section

variable (hinv : PageInv k m noRes) (hr : RootInv k m) (hc : c < procSize)
  (hroot : root m.mem k (some c) = some (m.cr3 / 4096))

include hinv hr hc hroot

/-- `unmap_phyaddr` at a user address of the current process. -/
theorem unmapUser_spec (hu : UserAddr v) (hv : v % 4096 = 0) :
    ∃ m', m.unmapPhyaddr v = some m' ∧ Keeps k m m' ∧
      ((leaf m.mem k (pageAt c v) = 0 ∧ m' = m) ∨
        ∃ b < listSize, b ≠ 0 ∧ leaf m.mem k (pageAt c v) ≠ 0 ∧
          leaf m.mem k (pageAt c v) / 4096 = m.fl.frame b ∧ Unmapped k m m' (pageAt c v) b) := by
  have hs := hu.inSpace hc hroot
  have hp : UserPage (pageAt c v) := hu.userPage
  by_cases h0 : leaf m.mem k (pageAt c v) = 0
  · exact ⟨m, Machine.unmapPhyaddr_unmapped hinv.tables hr hs h0, Keeps.refl hinv hr, .inl ⟨h0, rfl⟩⟩
  · obtain ⟨b, hlt, hb0, hb⟩ := hinv.leaves.owned _ hp.managed h0
    have hcur : IsTable m.mem k (m.cr3 / 4096) := ⟨some c, [], ⟨hc, by simp⟩, hroot⟩
    obtain ⟨m', hm', hun, hinv', hr'⟩ :=
      Machine.unmapPhyaddr_spec hinv hr hcur hs hp h0 hlt hb0 hb hv
    exact ⟨m', hm', ⟨hinv', hr', hun.cr3, fun d hd => roots_of_update hp hun.leaf hd⟩,
      .inr ⟨b, hlt, hb0, h0, hb, hun⟩⟩

end

/-- The addresses that the loop of `unmap_phyaddr_range` visits. -/
def unmapAddrs : Nat → Int → Nat → List Nat
  | 0, _, _ => []
  | fuel + 1, i, vend =>
      if toUint64 i < vend then toUint64 i :: unmapAddrs fuel ((i + 4096).bmod (2 ^ 32)) vend
      else []

/-- A list of user pages can be unmapped one by one. -/
theorem unmapList_spec {vs : List Nat} (hinv : PageInv k m noRes) (hr : RootInv k m)
    (hc : c < procSize) (hroot : root m.mem k (some c) = some (m.cr3 / 4096))
    (hvs : ∀ v ∈ vs, UserAddr v ∧ v % 4096 = 0) :
    ∃ m', vs.foldlM (fun m v => Machine.unmapPhyaddr m v) m = some m' ∧ Keeps k m m' ∧
      ∀ p, leaf m'.mem k p = if ∃ v ∈ vs, p = pageAt c v then 0 else leaf m.mem k p := by
  induction vs generalizing m with
  | nil => exact ⟨m, rfl, Keeps.refl hinv hr, fun p => by simp⟩
  | cons v vs ih =>
      obtain ⟨hu, hv⟩ := hvs v List.mem_cons_self
      obtain ⟨m₁, h₁, hk₁, hcase⟩ := unmapUser_spec hinv hr hc hroot hu hv
      obtain ⟨m', h', hk', hleaf'⟩ := ih hk₁.pages hk₁.rootInv
        (by rw [hk₁.roots c hc, hk₁.cr3, hroot]) fun v hv => hvs v (List.mem_cons_of_mem _ hv)
      have hleaf₁ : ∀ p, leaf m₁.mem k p = if p = pageAt c v then 0 else leaf m.mem k p := by
        intro p
        rcases hcase with ⟨h0, rfl⟩ | ⟨b, -, -, -, -, hun⟩
        · by_cases hp : p = pageAt c v
          · rw [if_pos hp, hp, h0]
          · rw [if_neg hp]
        · rw [hun.leaf, Function.update_apply]
      refine ⟨m', ?_, hk₁.trans hk', fun p => ?_⟩
      · rw [List.foldlM_cons, h₁]
        exact h'
      · rw [hleaf', hleaf₁]
        by_cases hp : p = pageAt c v
        · simp [hp]
        · simp [hp]

end Sbunix
