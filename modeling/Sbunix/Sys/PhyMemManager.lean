import Mathlib.Algebra.Ring.Nat
import Mathlib.Logic.Function.Basic
import Sbunix.Misc.Chain

/-!
# Physical memory manager

The free list and the reference counts of `sys/phy_mem_manager.c`. Blocks are numbered
from `FREEMEMORY`; `p_list` links the free ones. An index outside `p_list` is `none`.
-/

namespace Sbunix

/-- The size of `p_list`. -/
abbrev listSize : Nat := 50000

/-- The static data of `sys/phy_mem_manager.c:17-41`; `next` and `refCount` are the
fields of `p_list`. -/
structure FreeList where
  freeMemory : Nat
  next : Nat → Nat
  refCount : Nat → Nat
  headFreelist : Nat
  totalblockcount : Nat
  lastfreeblock : Nat
  currblock : Nat

namespace FreeList

/-- C `freelist` (`sys/phy_mem_manager.c:43-86`), one page of the region `[base, last)`
at a time. -/
def freelistFrom : Nat → Nat → Nat → Nat → FreeList → FreeList
  | 0, _, _, _, fl => fl
  | fuel + 1, base, last, physfree, fl =>
      if last ≤ base then fl
      else if base % 4096 ≠ 0 then
        freelistFrom fuel (base - base % 4096 + 4096) last physfree fl
      else if base ≤ physfree + 1024 * 1024 then
        freelistFrom fuel (base + 4096) last physfree { fl with freeMemory := base + 4096 }
      else if fl.lastfreeblock = 0 then
        freelistFrom fuel (base + 4096) last physfree
          { fl with lastfreeblock := fl.currblock, headFreelist := fl.currblock,
                    currblock := fl.currblock + 1 }
      else
        freelistFrom fuel (base + 4096) last physfree
          { fl with next := Function.update fl.next fl.lastfreeblock fl.currblock,
                    refCount := Function.update fl.refCount fl.lastfreeblock 0,
                    lastfreeblock := fl.currblock,
                    totalblockcount := fl.totalblockcount + 1,
                    currblock := fl.currblock + 1 }

/-- The pages of one region of the memory map entered into the free list. -/
def freelist (fl : FreeList) (base length physfree : Nat) : FreeList :=
  if base = 0 then fl else freelistFrom (length / 4096 + 2) base (base + length) physfree fl

/-- C `get_page` (`sys/phy_mem_manager.c:88-111`). Running out of memory is an endless
loop (`sys/error.c`). -/
def getPage (fl : FreeList) : Option (Nat × FreeList) :=
  if fl.totalblockcount < 5 then none
  else
    let fl₁ := if fl.headFreelist = 0 then
        { fl with headFreelist := fl.next fl.headFreelist,
                  totalblockcount := fl.totalblockcount - 1 }
      else fl
    let freeblock := fl₁.headFreelist
    some ((fl₁.freeMemory + freeblock * 4096) % 2 ^ 64,
      { fl₁ with headFreelist := fl₁.next freeblock,
                 totalblockcount := fl₁.totalblockcount - 1,
                 refCount := Function.update fl₁.refCount freeblock
                   (fl₁.refCount freeblock + 1) })

/-- The computation of `blockindex`: the block of a physical address. -/
def blockindex (fl : FreeList) (paddr : Nat) : Option Nat :=
  if fl.freeMemory / 4096 ≤ paddr / 4096 ∧ paddr / 4096 - fl.freeMemory / 4096 < listSize then
    some (paddr / 4096 - fl.freeMemory / 4096)
  else none

/-- C `get_reference_count`. -/
def getReferenceCount (fl : FreeList) (paddr : Nat) : Option Nat :=
  (fl.blockindex paddr).map fl.refCount

/-- C `increment_reference_count`. -/
def incrementReferenceCount (fl : FreeList) (paddr : Nat) : Option FreeList :=
  (fl.blockindex paddr).map fun b =>
    { fl with refCount := Function.update fl.refCount b (fl.refCount b + 1) }

/-- C `decrement_reference_count` (`sys/phy_mem_manager.c:125-134`): a count of 0 stays. -/
def decrementReferenceCount (fl : FreeList) (paddr : Nat) : Option FreeList :=
  (fl.blockindex paddr).map fun b =>
    if fl.refCount b < 1 then fl
    else { fl with refCount := Function.update fl.refCount b (fl.refCount b - 1) }

/-- C `free_page`. -/
def freePage (fl : FreeList) (paddr : Nat) : Option FreeList :=
  (fl.blockindex paddr).map fun b =>
    { fl with next := Function.update fl.next b fl.headFreelist,
              headFreelist := b, totalblockcount := fl.totalblockcount + 1 }

end FreeList

end Sbunix
