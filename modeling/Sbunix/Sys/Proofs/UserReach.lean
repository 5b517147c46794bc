import Sbunix.Sys.Proofs.FirstProcess

/-!
# What programs reach

`mappageTable` enters a PML4 into its own slot 510 with the user bit. Through that slot a
program reads and writes its page tables.
-/

namespace Sbunix

variable {k : Nat} {s : VmState} {p v : Nat}

/-- All four levels let user mode through. -/
def userTranslated (mem : Nat → Nat → Nat) (cr3 v : Nat) : Prop :=
  ∃ w, walk mem cr3 v = some w ∧ w.e1 / 4 % 2 = 1 ∧ w.e2 / 4 % 2 = 1 ∧ w.e3 / 4 % 2 = 1 ∧
    w.e4 / 4 % 2 = 1

/-- The page of `v` holds an address of a VMA of `p` or lies in the 8 KiB below the top of the
user stack of `p` (`sys/task_manager.c:89`) or on the page of that top. -/
def OwnMemory (s : VmState) (p v : Nat) : Prop :=
  ∃ x, x / 4096 = v / 4096 ∧ (s.isPageInVmaList p x = true ∨
    ustacktop - 4096 * 2 * (p + 1) ≤ x ∧ x < ustacktop - 4096 * 2 * p + 4096)

/-- The address at which a program finds its own PML4. -/
theorem p1Table_slot : p1Table baseInit < 2 ^ 64 ∧ p1Index (p1Table baseInit) = 510 ∧
    p2Index (p1Table baseInit) = 510 ∧ p3Index (p1Table baseInit) = 510 ∧
    p4Index (p1Table baseInit) = 510 := by decide

/-- The PML4 of a live process maps itself for user mode. -/
theorem VmInv.walk_self (hi : VmInv k s) (hp : s.alive p = true) :
    walk s.machine.mem (s.mm p).cr3 (p1Table baseInit) = some
      ⟨(s.mm p).cr3 + 7, (s.mm p).cr3 + 7, (s.mm p).cr3 + 7, (s.mm p).cr3 + 7⟩ := by
  obtain ⟨hlt, g, hroot, hcr3⟩ := hi.alive p hp
  obtain ⟨hself, -⟩ := hi.pages.tables.top p g hlt hroot
  obtain ⟨-, h1, h2, h3, h4⟩ := p1Table_slot
  have hdiv : (g * 4096 + 7) / 4096 = g := entry_div (by decide)
  have hodd : ¬ (g * 4096 + 7) % 2 = 0 := by omega
  rw [walk, h1, h2, h3, h4, hcr3, Nat.mul_div_cancel _ (by decide), hself]
  simp only [hdiv, hself, if_neg hodd]

theorem selfMap_not_own (hi : VmInv k s) (hp : p < procSize) :
    ¬ OwnMemory s p (p1Table baseInit) := by
  rintro ⟨x, hx, hin | ⟨hlo, -⟩⟩
  · have hpage : UserAddr (p1Table baseInit) := (hi.userAddr hin).page hx
    obtain ⟨-, h510, -⟩ := p1Table_slot
    rcases hpage.2 with h | ⟨h, -⟩ <;> omega
  · have hc : p < 100 := hp
    have htop : ustacktop = 0xFFFFFFFF7F1FF000 := by decide
    have haddr : p1Table baseInit = 0xFFFFFF7FBFDFE000 := by decide
    rw [htop] at hlo
    rw [haddr] at hx
    omega

/-- In every reachable state every live process reaches more than its own memory. -/
theorem selfMap_exposed {cond : VmLabel → VmState → Prop} (h : VmReach cond s)
    (hp : s.alive p = true) :
    ¬ ∀ v < 2 ^ 64, userTranslated s.machine.mem (s.mm p).cr3 v → OwnMemory s p v := by
  obtain ⟨k, hi⟩ := h.vmInv
  obtain ⟨hlt, g, -, hcr3⟩ := hi.alive p hp
  intro hown
  have h4 : ((s.mm p).cr3 + 7) / 4 % 2 = 1 := by omega
  exact selfMap_not_own hi hlt (hown _ p1Table_slot.1 ⟨_, hi.walk_self hp, h4, h4, h4, h4⟩)

theorem selfMap_exposed_first : ∃ s, s.alive 0 = true ∧
    ¬ ∀ v < 2 ^ 64, userTranslated s.machine.mem (s.mm 0).cr3 v → OwnMemory s 0 v := by
  obtain ⟨k, s, hreach, hs⟩ := smallBoot_firstProcess fun _ _ => 0
  have hp : s.alive 0 = true := by rw [hs.alive, Function.update_self]
  exact ⟨s, hp, selfMap_exposed (hreach fun _ _ => True) hp⟩

/-- A page that all four levels map with the flags of `e` can be written. -/
theorem permits_write {m : Machine} {e : Nat} (hw : walk m.mem m.cr3 v = some ⟨e, e, e, e⟩)
    (h4 : e / 4 % 2 = 1) (h2 : e / 2 % 2 = 1) : permits m v true = true := by
  unfold permits
  rw [hw]
  simp [h4, h2]

/-- The first process may write its PML4, at `0xFFFFFF7FBFDFE000`. -/
theorem selfMap_first_writes : ∃ s, VmReach (fun _ _ => True) s ∧ s.alive 0 = true ∧
    userTranslated s.machine.mem (s.mm 0).cr3 0xFFFFFF7FBFDFE000 ∧
    permits { s.machine with cr3 := (s.mm 0).cr3 } 0xFFFFFF7FBFDFE000 true = true ∧
    ¬ OwnMemory s 0 0xFFFFFF7FBFDFE000 := by
  obtain ⟨k, s, hreach, hs⟩ := smallBoot_firstProcess fun _ _ => 0
  have hp : s.alive 0 = true := by rw [hs.alive, Function.update_self]
  have hwalk := hs.inv.walk_self hp
  obtain ⟨hlt, g, -, hcr3⟩ := hs.inv.alive 0 hp
  have h4 : ((s.mm 0).cr3 + 7) / 4 % 2 = 1 := by omega
  have h2 : ((s.mm 0).cr3 + 7) / 2 % 2 = 1 := by omega
  have haddr : p1Table baseInit = 0xFFFFFF7FBFDFE000 := by decide
  have hown := selfMap_not_own hs.inv hlt
  rw [haddr] at hwalk hown
  exact ⟨s, hreach _, hp, ⟨_, hwalk, h4, h4, h4, h4⟩, permits_write hwalk h4 h2, hown⟩

end Sbunix
