import Sbunix.Sys.AddressSpace

/-!
# Page tables in isolation

The tables below one PML4, whatever their entries lead to: no process, no kernel half
and no bookkeeping of frames is assumed.  `map_phyaddr` reads and writes them through
slot 510 only, so paths here stay outside that slot.
-/

namespace Sbunix

/-- The frame that the entries of a path lead to from the PML4 in frame `r`, innermost index
first. -/
def tableFrom (mem : Nat → Nat → Nat) (r : Nat) (l : List Nat) : Option Nat :=
  tree (child mem) (fun _ : Unit => some r) () l

/-- At most `n` indices, the first of them not 510. -/
def OutsidePath (n : Nat) (l : List Nat) : Prop :=
  l.length ≤ n ∧ (∀ i ∈ l, i < 512) ∧ l.getLast? ≠ some 510

/-- The paths to the tables and to the page of `v`. -/
def way1 (v : Nat) : List Nat := [p1Index v]
/-- The indices from the root to the second level. -/
def way2 (v : Nat) : List Nat := p2Index v :: way1 v
/-- The indices from the root to the third level. -/
def way3 (v : Nat) : List Nat := p3Index v :: way2 v
/-- The indices from the root to the page. -/
def way4 (v : Nat) : List Nat := p4Index v :: way3 v

section

variable (mem : Nat → Nat → Nat) (r v : Nat)

/-- The frame is a page table or a mapped page. -/
def InUse (f : Nat) : Prop := ∃ l, OutsidePath 4 l ∧ tableFrom mem r l = some f

/-- The non-zero entries of the tables are present. -/
def Present : Prop :=
  ∀ l f i, OutsidePath 3 l → tableFrom mem r l = some f → i < 512 → word mem f i ≠ 0 →
    word mem f i % 2 = 1

/-- No other path leads to the table whose empty entry `map_phyaddr` fills first. -/
def SoleWay : Prop :=
  ∀ i l f l', i :: l <:+ way4 v → tableFrom mem r l = some f → word mem f i = 0 →
    OutsidePath 3 l' → tableFrom mem r l' = some f → l' = l

end

/-- The next `n` pages that `get_page` returns are frames not used so far. -/
def Fresh : (Nat → Prop) → Nat → FreeList → Prop
  | _, 0, _ => True
  | used, n + 1, fl => ∃ p fl', fl.getPage = some (p, fl') ∧ p % 4096 = 0 ∧ p ≠ 0 ∧
      ¬ used (p / 4096) ∧ Fresh (fun f => used f ∨ f = p / 4096) n fl'

end Sbunix
