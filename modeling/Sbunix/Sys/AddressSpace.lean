import Sbunix.Misc.Fibre
import Sbunix.Misc.TableForest
import Sbunix.Sys.Paging
import Sbunix.Sys.Process

/-!
# Address spaces

The page tables of all processes seen as one forest, and the partial map from pages
to leaf entries it stands for.  PML4 slot 511 leads every process to the same tables,
the kernel half; slots 0 to 509 are the user half of one process slot.  The PML4 of
slot `c` is the frame mapped at page `pml4Page c` of the kernel half, where
`mappageTable` puts it.  This is a description for the proofs: `sys/paging.c` only
ever walks the tables of the current process.
-/

namespace Sbunix

/-- The kernel half, or the user half of a process slot. -/
abbrev Space := Option Nat

/-- A half and a page number, bits 12 to 47 of the addresses on the page. -/
abbrev Page := Space × Nat

/-- The page number of an address: the 36 bits above the offset. -/
def pageOf (v : Nat) : Nat := v / 4096 % 2 ^ 36

/-- The page of the kernel half where the PML4 of slot `c` is mapped. -/
def pml4Page (c : Nat) : Nat := pageOf (upml4 - 4096 * c)

/-- The pages of the address spaces: those of slot 511 are shared, the others below the
recursive slot 510 belong to one process. -/
def ValidPage : Page → Prop
  | (none, q) => 511 * 2 ^ 27 ≤ q ∧ q < 2 ^ 36
  | (some c, q) => c < procSize ∧ q < 510 * 2 ^ 27

instance : DecidablePred ValidPage
  | (none, q) => inferInstanceAs (Decidable (511 * 2 ^ 27 ≤ q ∧ q < 2 ^ 36))
  | (some c, q) => inferInstanceAs (Decidable (c < procSize ∧ q < 510 * 2 ^ 27))

/-- The pages at which PML4s are mapped. -/
def Window (p : Page) : Prop := p.1 = none ∧ ∃ c < procSize, p.2 = pml4Page c

/-- The pages that VMAs may lie on: the user halves, and of the kernel half what is below
the PML4s, where the user stacks are. -/
def UserPage (p : Page) : Prop := p.1 ≠ none ∨ p.2 < pml4Page (procSize - 1)

/-- The pages whose frames come from the free list: all but the kernel image and heap. -/
def ManagedPage (p : Page) : Prop := p.1 ≠ none ∨ p.2 ≤ pml4Page 0

/-- The way from the root of a half to the last-level table of a page, innermost index
first. -/
def pagePath : Space → Nat → List Nat
  | none, q => [q / 2 ^ 9 % 512, q / 2 ^ 18 % 512]
  | some _, q => [q / 2 ^ 9 % 512, q / 2 ^ 18 % 512, q / 2 ^ 27 % 512]

/-- The paths that lead to tables. -/
def ValidPath : Space → List Nat → Prop
  | none, l => l.length ≤ 2 ∧ ∀ i ∈ l, i < 512
  | some c, l => c < procSize ∧ l.length ≤ 3 ∧ (∀ i ∈ l, i < 512) ∧ ∀ i ∈ l.getLast?, i < 510

/-- The paths to the three tables of the address `v`, if it lies in the half `s`. -/
def path1 (v : Nat) : Space → List Nat
  | none => []
  | some _ => [p1Index v]

/-- The indices from the root to the table of the second level. -/
def path2 (v : Nat) (s : Space) : List Nat := p2Index v :: path1 v s
/-- The indices from the root to the table of the third level. -/
def path3 (v : Nat) (s : Space) : List Nat := p3Index v :: path2 v s

/-- The table that entry `i` of the table in frame `f` points to. -/
def child (mem : Nat → Nat → Nat) (f i : Nat) : Option Nat :=
  if i < 512 ∧ word mem f i ≠ 0 then some (word mem f i / 4096) else none

section

variable (mem : Nat → Nat → Nat) (k : Nat)

/-- The tables of the kernel half, below the table in frame `k`. -/
def kernelTable (l : List Nat) : Option Nat := tree (child mem) (fun _ : Space => some k) none l

/-- The entry of a kernel page in the shared tables; 0 where a table is missing. -/
def kernelLeaf (q : Nat) : Nat :=
  (kernelTable mem k (pagePath none q)).elim 0 fun t => word mem t (q % 512)

/-- The top table of a half: `k`, or the PML4 of a slot. -/
def root : Space → Option Nat
  | none => some k
  | some c =>
      if kernelLeaf mem k (pml4Page c) = 0 then none
      else some (kernelLeaf mem k (pml4Page c) / 4096)

/-- The frame of the table that a path of indices leads to. -/
def tableAt (s : Space) (l : List Nat) : Option Nat := tree (child mem) (root mem k) s l

/-- The leaf entry of a page, 0 when a table on the way is missing. -/
def leaf (p : Page) : Nat :=
  if ValidPage p then
    (tableAt mem k p.1 (pagePath p.1 p.2)).elim 0 fun t => word mem t (p.2 % 512)
  else 0

/-- How many of the three tables of `v` do not exist. -/
def missing (v : Nat) (s : Space) : Nat :=
  (if tableAt mem k s (path1 v s) = none then 1 else 0) +
    (if tableAt mem k s (path2 v s) = none then 1 else 0) +
    (if tableAt mem k s (path3 v s) = none then 1 else 0)

/-- The frame is a page table of some half. -/
def IsTable (f : Nat) : Prop := ∃ s l, ValidPath s l ∧ tableAt mem k s l = some f

end

/-- The frames that pages use: the mapped one, or one set aside by `res`. -/
def claims (lf : Page → Nat) (res : Page → Option Nat) (p : Page) : Option Nat :=
  if lf p = 0 then res p else some (lf p / 4096)

/-- Nothing set aside. -/
def noRes : Page → Option Nat := fun _ => none

end Sbunix
