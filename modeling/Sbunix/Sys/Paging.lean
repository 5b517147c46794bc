import Sbunix.Misc.Bytes
import Sbunix.Sys.PhyMemManager

/-!
# Page tables

`sys/paging.c` and the page-table parts of `sys/task_manager.c`.  Physical memory is
an array of bytes for each frame.  The kernel reaches the page tables through the
recursive slot 510 of the current PML4, so every access here goes through the
hardware walk from `cr3`, as in the source; a kernel access ignores the write and
user bits.  `none` is an access that would fault, or one that a handler answers with
an endless loop.

The TLB is not modelled: a walk sees the tables as they are.  No entry the kernel
writes has a bit above the frame number.
-/

namespace Sbunix

/-- The physical memory as frames of bytes, the frame of the active root table, and the free
list. -/
structure Machine where
  mem : Nat → Nat → Nat
  cr3 : Nat
  fl : FreeList

/-- The 64-bit entry `i` of the table in frame `f`. -/
def word (mem : Nat → Nat → Nat) (f i : Nat) : Nat := rd64 (mem f) (8 * i)

/-- Bits 39 to 47 of an address, by the shifts of the source. -/
def p1Index (v : Nat) : Nat := (v <<< 16 % 2 ^ 64) >>> (9 + 9 + 9 + 12 + 16)
/-- Bits 30 to 38. -/
def p2Index (v : Nat) : Nat := (v <<< (16 + 9) % 2 ^ 64) >>> (9 + 9 + 12 + 16 + 9)
/-- Bits 21 to 29. -/
def p3Index (v : Nat) : Nat := (v <<< (16 + 9 + 9) % 2 ^ 64) >>> (9 + 12 + 16 + 9 + 9)
/-- Bits 12 to 20. -/
def p4Index (v : Nat) : Nat := (v <<< (16 + 9 + 9 + 9) % 2 ^ 64) >>> (12 + 16 + 9 + 9 + 9)

/-- `(((base >> (k+9)) << 9) | i) << k`: one step of the source's address computation. -/
def setIndex (base k i : Nat) : Nat := (((base >>> (k + 9)) <<< 9 ||| i) <<< k) % 2 ^ 64

/-- The linker's `kernmem` and `physbase` (`sys/linker.script`), and C `upml4`, the address
of the PML4 of slot 0 (`sys/paging.c:203`). -/
def kernmem : Nat := 0xFFFFFFFF80200000
/-- C `physbase`, the physical address of the kernel. -/
def physbase : Nat := 0x200000
/-- Where the kernel maps its root table. -/
def upml4 : Nat := kernmem - 4096

/-- C `ustacktop` (`sys/paging.c:203`). -/
def ustacktop : Nat := upml4 - 4096 * 4096

/-- The address whose index bits `setIndex` fills in. -/
def baseInit : Nat := 0xFFFF000000000000

/-- The addresses at which the tables of address `v` appear below the recursive slot. -/
def p1Table (base : Nat) : Nat :=
  setIndex (setIndex (setIndex (setIndex base 39 0x1FE) 30 0x1FE) 21 0x1FE) 12 0x1FE

/-- The address of a table of the second level in the recursive mapping. -/
def p2Table (base v : Nat) : Nat :=
  setIndex (setIndex (setIndex (setIndex base 39 0x1FE) 30 0x1FE) 21 0x1FE) 12 (p1Index v)

/-- The address of a table of the third level. -/
def p3Table (base v : Nat) : Nat :=
  setIndex (setIndex (setIndex (setIndex base 39 0x1FE) 30 0x1FE) 21 (p1Index v)) 12 (p2Index v)

/-- The address of a table of the fourth level. -/
def p4Table (base v : Nat) : Nat :=
  setIndex (setIndex (setIndex (setIndex base 39 0x1FE) 30 (p1Index v)) 21 (p2Index v)) 12
    (p3Index v)

/-- The four entries of a hardware walk. -/
structure Walk where
  e1 : Nat
  e2 : Nat
  e3 : Nat
  e4 : Nat

/-- The hardware walk; `none` when an entry is not present. -/
def walk (mem : Nat → Nat → Nat) (cr3 v : Nat) : Option Walk :=
  let e1 := word mem (cr3 / 4096) (p1Index v)
  if e1 % 2 = 0 then none
  else
    let e2 := word mem (e1 / 4096) (p2Index v)
    if e2 % 2 = 0 then none
    else
      let e3 := word mem (e2 / 4096) (p3Index v)
      if e3 % 2 = 0 then none
      else
        let e4 := word mem (e3 / 4096) (p4Index v)
        if e4 % 2 = 0 then none else some ⟨e1, e2, e3, e4⟩

namespace Machine

variable (m : Machine)

/-- The frame behind a kernel address. -/
def frameOf (v : Nat) : Option Nat := (walk m.mem m.cr3 v).map fun w => w.e4 / 4096

/-- A kernel read of an `uint64_t`; no access of the kernel's crosses a page. -/
def load64 (v : Nat) : Option Nat :=
  (m.frameOf v).bind fun f =>
    if v % 4096 + 8 ≤ 4096 then some (rd64 (m.mem f) (v % 4096)) else none

/-- A 64-bit word stored through the active tables, inside one page. -/
def store64 (v w : Nat) : Option Machine :=
  (m.frameOf v).bind fun f =>
    if v % 4096 + 8 ≤ 4096 then
      some { m with mem := Function.update m.mem f (wr64 (m.mem f) (v % 4096) w) }
    else none

/-- The byte at an address of the active tables. -/
def load8 (v : Nat) : Option Nat := (m.frameOf v).map fun f => m.mem f (v % 4096)

/-- A byte stored through the active tables. -/
def store8 (v b : Nat) : Option Machine :=
  (m.frameOf v).map fun f =>
    { m with mem := Function.update m.mem f (Function.update (m.mem f) (v % 4096) b) }

/-- `get_free_page` of the free list of the machine. -/
def getPage : Option (Nat × Machine) := m.fl.getPage.map fun r => (r.1, { m with fl := r.2 })

/-- The loops `for (i = 0; i < n; i++) *(uint64_t *)(base + stride * i) = 0`. -/
def zeroWords (base stride n : Nat) : Option Machine :=
  (List.range n).foldlM (fun m i => m.store64 (base + stride * i) 0) m

/-- The step `map_phyaddr` and `set_Cow` make at each of the first three levels: an
empty entry gets a new table, which is then cleared through its own address `child`. -/
def ensureTable (tbl idx child : Nat) : Option Machine := do
  let e ← m.load64 (tbl + 8 * idx)
  if e = 0 then
    let (p, m) ← m.getPage
    let m ← m.store64 (tbl + 8 * idx) ((p &&& 0xFFFFFFFFFFFFF000) ||| 7)
    m.zeroWords child 8 512
  else some m

/-- The part `map_phyaddr` and `set_Cow` share (`sys/paging.c:22-128`, `212-312`). -/
def ensureTables (v : Nat) : Option Machine := do
  let p1 := p1Table baseInit
  let p2 := p2Table p1 v
  let p3 := p3Table p2 v
  let p4 := p4Table p3 v
  let m ← m.ensureTable p1 (p1Index v) p2
  let m ← m.ensureTable p2 (p2Index v) p3
  m.ensureTable p3 (p3Index v) p4

/-- The address of the last-level entry of `v`. -/
def leafAddr (v : Nat) : Nat := p4Table baseInit v + 8 * p4Index v

/-- C `set_Cow` (`sys/paging.c:20-131`). -/
def setCow (v padd : Nat) : Option Machine := do
  let m ← m.ensureTables v
  m.store64 (leafAddr v) ((padd &&& 0xFFFFFFFFFFFFF000) ||| 5)

/-- The last level of `map_phyaddr` (`sys/paging.c:314-339`). The loop at the end writes
eight bytes at each of the byte addresses `v`, …, `v + 511`. -/
def mapLeaf (v : Nat) : Option (Nat × Machine) := do
  let padd ← m.load64 (leafAddr v)
  let (padd, m) ←
    if padd &&& 1 = 0 then do
      let (q, m) ← m.getPage
      let m ← m.store64 (leafAddr v) ((q &&& 0xFFFFFFFFFFFFF000) ||| 7)
      pure (q, m)
    else pure (padd, m)
  let m ← m.zeroWords v 1 512
  pure (padd, m)

/-- C `map_phyaddr` (`sys/paging.c:210-339`). -/
def mapPhyaddr (v : Nat) : Option (Nat × Machine) := do
  let m ← m.ensureTables v
  m.mapLeaf v

/-- The last level of `unmap_phyaddr` (`sys/paging.c:412-448`). -/
def unmapLeaf (v : Nat) : Option Machine := do
  let padd ← m.load64 (leafAddr v)
  if padd &&& 1 = 0 then return m
  let count ← m.fl.getReferenceCount padd
  let m ←
    if count = 1 then do
      let m ← m.zeroWords v 1 512
      let fl ← m.fl.freePage padd
      pure { m with fl := fl }
    else pure m
  let fl ← m.fl.decrementReferenceCount padd
  { m with fl := fl }.store64 (leafAddr v) 0

/-- C `unmap_phyaddr` (`sys/paging.c:342-448`). -/
def unmapPhyaddr (v : Nat) : Option Machine := do
  let p2e ← m.load64 (p1Table baseInit + 8 * p1Index v)
  if p2e = 0 then return m
  let p3e ← m.load64 (p2Table (p1Table baseInit) v + 8 * p2Index v)
  if p3e = 0 then return m
  let p4e ← m.load64 (p3Table (p2Table (p1Table baseInit) v) v + 8 * p3Index v)
  if p4e = 0 then return m
  m.unmapLeaf v

/-- The loop of C `unmap_phyaddr_range`: its counter is an `int`, so it starts at the
low half of the start address and is compared after sign extension. -/
def unmapFrom : Nat → Int → Nat → Machine → Option Machine
  | 0, _, _, _ => none
  | fuel + 1, i, vend, m =>
      if toUint64 i < vend then do
        let m ← m.unmapPhyaddr (toUint64 i)
        unmapFrom fuel ((i + 4096).bmod (2 ^ 32)) vend m
      else some m

/-- C `unmap_phyaddr_range` (`sys/paging.c:450-470`). An `int` takes `2 ^ 20` values at a
distance of 4096. -/
def unmapPhyaddrRange (vstart vend : Nat) : Option Machine :=
  let vend := if vend % 4096 ≠ 0 then ((vend >>> 12 + 1) <<< 12) % 2 ^ 64 else vend
  let vstart := if vstart % 4096 ≠ 0 then (vstart >>> 12) <<< 12 else vstart
  unmapFrom (2 ^ 20 + 1) (toInt32 vstart) vend m

/-- The memory side of C `mappageTable` (`sys/task_manager.c:127-161`): a PML4 for a slot,
which maps itself and shares the kernel half of the current one. -/
def mappageTable (procIndex : Nat) : Option (Nat × Machine) := do
  let vpml4 := upml4 - 4096 * procIndex
  let (p, m) ← m.mapPhyaddr vpml4
  let ppml4 := p &&& 0xFFFFFFFFFFFFF000
  let m ← m.zeroWords vpml4 8 510
  let e ← m.load64 (p1Table baseInit + 8 * 511)
  let m ← m.store64 (vpml4 + 8 * 511) e
  let m ← m.store64 (vpml4 + 8 * 510) ((ppml4 &&& 0xFFFFFFFFFFFFF000) ||| 7)
  some (ppml4, m)

/-- C `check_cow` (`sys/task_manager.c:177-210`). -/
def checkCow (v : Nat) : Option Bool := do
  let e ← m.load64 (leafAddr v)
  pure (e != 0 && e &&& 7 == 5)

/-- C `get_phys_addr` (`sys/task_manager.c:213-287`). -/
def getPhysAddr (v : Nat) : Option Nat := do
  let p2e ← m.load64 (p1Table baseInit + 8 * p1Index v)
  if p2e = 0 then return 0
  let p3e ← m.load64 (p2Table baseInit v + 8 * p2Index v)
  if p3e = 0 then return 0
  let p4e ← m.load64 (p3Table baseInit v + 8 * p3Index v)
  if p4e = 0 then return 0
  m.load64 (leafAddr v)

/-- The byte loops between a page and the buffer `cow_page`. -/
def loadPage (v : Nat) : Option (List Nat) := (List.range 4096).mapM fun i => m.load8 (v + i)

/-- The bytes of a buffer stored one behind the other. -/
def storePage (v : Nat) (buf : List Nat) : Option Machine :=
  buf.zipIdx.foldlM (fun m b => m.store8 (v + b.2) b.1) m

/-- C `cow` (`sys/task_manager.c:349-409`). -/
def cow (v : Nat) : Option Machine := do
  let cowAddr := v &&& 0xFFFFFFFFFFFFF000
  let cowPage ← m.loadPage cowAddr
  let oldPage ← m.load64 (leafAddr v)
  let m ←
    if oldPage ≠ 5 ∧ oldPage ≠ 0 then do
      let fl ← m.fl.decrementReferenceCount oldPage
      pure { m with fl := fl }
    else pure m
  let (padd, m) ← m.getPage
  let m ← m.store64 (leafAddr v) ((padd &&& 0xFFFFFFFFFFFFF000) ||| 7)
  m.storePage cowAddr cowPage

end Machine

end Sbunix
