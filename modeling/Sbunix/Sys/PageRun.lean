import Sbunix.Misc.Reach
import Sbunix.Sys.Boot

/-!
# Runs of the physical memory manager

The free list that `start` builds from any memory map (`sys/main.c:45-57`), and the
sequences of `get_page`, `increment_reference_count` and the release of a page that
`unmap_phyaddr` makes.
-/

namespace Sbunix

/-- An available region of the loader's memory map. -/
structure MemRegion where
  base : Nat
  length : Nat
  fits : base + length ≤ 2 ^ 52

/-- What `start` gets from the loader: the available regions, in the order of the map, and
the end of the kernel. -/
structure BootMap where
  regions : List MemRegion
  physfree : Nat
  physfree_lt : physfree < 2 ^ 52

/-- The calls of `freelist` that C `start` makes. -/
def BootMap.freeList (b : BootMap) : FreeList :=
  b.regions.foldl (fun fl r => fl.freelist r.base r.length b.physfree) emptyFreeList

/-- What C `unmap_phyaddr` does for the frame of the page it unmaps (`sys/paging.c:434-445`). -/
def FreeList.release (fl : FreeList) (padd : Nat) : Option FreeList := do
  let count ← fl.getReferenceCount padd
  let fl ← if count = 1 then fl.freePage padd else some fl
  fl.decrementReferenceCount padd

/-- The free list, the addresses of the pages that are out, and the number of references that
have been added so far. -/
structure PageState where
  fl : FreeList
  out : List Nat
  increments : Nat

/-- The calls on the free list. -/
inductive PageLabel
  | get
  | increment (padd : Nat)
  | release (padd : Nat)
  deriving DecidableEq, Repr

namespace PageState

/-- A page taken, and recorded. -/
def getPage (s : PageState) : Option PageState := do
  let (padd, fl) ← s.fl.getPage
  some { s with fl, out := padd :: s.out }

/-- A reference added, and counted. -/
def increment (s : PageState) (padd : Nat) : Option PageState := do
  let fl ← s.fl.incrementReferenceCount padd
  some { s with fl, increments := s.increments + 1 }

/-- A page whose last reference goes is no longer out. -/
def release (s : PageState) (padd : Nat) : Option PageState := do
  let count ← s.fl.getReferenceCount padd
  let fl ← s.fl.release padd
  some { s with fl, out := if count = 1 then s.out.erase padd else s.out }

end PageState

/-- A step of the memory manager. Only pages that are out get and lose references. -/
def pageStep : PageLabel → PageState → Option PageState
  | .get, s => s.getPage
  | .increment padd, s => if padd ∈ s.out then s.increment padd else none
  | .release padd, s => if padd ∈ s.out then s.release padd else none

/-- The states of the memory manager after start-up with the map `b`. -/
def PageReach (b : BootMap) : PageState → Prop :=
  Reach (fun s => s = ⟨b.freeList, [], 0⟩) fun l s t => pageStep l s = some t

end Sbunix
