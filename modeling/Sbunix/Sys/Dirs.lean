import Sbunix.Misc.Chain
import Sbunix.Sys.Chdir

/-!
# Directory objects

C `k_opendir`, `k_closedir` and `k_readdir` (`sys/syscall.c:1065-1126`) with the recycling of
`dir` objects (`sys/vfs.c:12-68`).  Objects are numbered in the order of `kmalloc`; 0 is `NULL`.
-/

namespace Sbunix

/-- C `dir` (`vfs.h:36-41`). -/
structure Dir where
  path : List UInt8
  currInode : Nat
  currDirent : List UInt8
  nextdir : Nat

/-- `sizeof(path)` and `sizeof(d_name)`. -/
def nameSize : Nat := 256

/-- The value -1 of `currInode`. -/
def noInode : Nat := 2 ^ 64 - 1

/-- The objects, the head of `dir_recycle_list`, and how often `NULL` was followed. -/
structure DirState where
  dir : Nat → Dir
  kmallocs : Nat
  dirRecycleList : Nat
  nulls : Nat

namespace DirState

/-- The state with one object changed. -/
def setDir (s : DirState) (node : Nat) (d : Dir) : DirState :=
  { s with dir := Function.update s.dir node d }

/-- The store `node->nextdir = next`. Page 0 is mapped when the kernel touches it. -/
def setNextdir (s : DirState) (node next : Nat) : DirState :=
  if node = 0 then { s with nulls := s.nulls + 1 }
  else s.setDir node { s.dir node with nextdir := next }

/-- The loop of `recycledirstruct` to the last object of the list. -/
def lastDir (s : DirState) : Nat → Nat → Nat
  | 0, last => last
  | fuel + 1, last =>
      if (s.dir last).nextdir = 0 then last else s.lastDir fuel (s.dir last).nextdir

/-- C `recycledirstruct`. -/
def recycledirstruct (s : DirState) (nodeToRemove : Nat) : DirState :=
  let s := s.setNextdir nodeToRemove 0
  if s.dirRecycleList = 0 then { s with dirRecycleList := nodeToRemove }
  else s.setNextdir (s.lastDir s.kmallocs s.dirRecycleList) nodeToRemove

/-- C `getdir_from_recylebin`. -/
def getdirFromRecyclebin (s : DirState) : DirState × Nat :=
  if s.dirRecycleList = 0 then (s, 0)
  else ({ s with dirRecycleList := (s.dir s.dirRecycleList).nextdir }, s.dirRecycleList)

/-- C `getnewdir`. -/
def getnewdir (s : DirState) : DirState × Nat :=
  let (s, newDir) := s.getdirFromRecyclebin
  let (s, newDir) :=
    if newDir = 0 then ({ s with kmallocs := s.kmallocs + 1 }, s.kmallocs + 1) else (s, newDir)
  (s.setDir newDir ⟨[], noInode, [], 0⟩, newDir)

/-- C `k_opendir`. It is `none` when the path is copied past the end of `path`. -/
def kOpendir (tree : InodeTree) (s : DirState) (path : List UInt8) : Option (DirState × Nat) :=
  let (s, dirobj) := s.getnewdir
  match tree.getInode path with
  | none => some (s, 0)
  | some query =>
      if tree.isDir query then
        if path.length < nameSize then
          some (s.setDir dirobj { s.dir dirobj with path := path, currInode := 1 }, dirobj)
        else none
      else some (s, 0)

/-- C `k_closedir`. It sets `dirobj` to `NULL` before it calls `recycledirstruct`. -/
def kClosedir (s : DirState) (dirobj : Nat) : DirState :=
  let s := s.setDir dirobj { s.dir dirobj with path := [], currInode := noInode, nextdir := 0 }
  s.recycledirstruct 0

/-- C `k_readdir`: the name in `currDirent`, or `NULL`. It is `none` when the name is copied past
the end of `d_name`. -/
def kReaddir (tree : InodeTree) (s : DirState) (dirobj : Nat) :
    Option (DirState × Option (List UInt8)) :=
  let d := s.dir dirobj
  if dirobj = 0 then some (s, none)
  else
    match tree.getInode d.path with
    | none => some (s, none)
    | some query =>
        let family := (tree.inode query).family
        if d.currInode = noInode ∨ family.length ≤ d.currInode then some (s, none)
        else
          let name := (tree.inode (family.getD d.currInode 0)).inodeName
          if name.length < nameSize then
            some (s.setDir dirobj
              { d with currDirent := name, currInode := (d.currInode + 1) % 2 ^ 64 }, some name)
          else none

end DirState

/-- Nothing is allocated yet. -/
def noDirs : DirState := ⟨fun _ => ⟨[], noInode, [], 0⟩, 0, 0, 0⟩

/-- What a process may do with directory objects in one call. -/
inductive DirCall
  | opendir (path : List UInt8)
  | closedir (dirobj : Nat)

/-- The objects of the kernel, those that are open, and those that were closed and have not been
taken again. -/
structure DirPool where
  kernel : DirState
  opened : List Nat
  closed : List Nat

/-- One call, and the objects that are open and closed behind it. -/
def DirPool.step (tree : InodeTree) (p : DirPool) : DirCall → Option DirPool
  | .opendir path => (p.kernel.kOpendir tree path).map fun r =>
      ⟨r.1, if r.2 = 0 then p.opened else r.2 :: p.opened,
        p.closed.erase p.kernel.dirRecycleList⟩
  | .closedir dirobj =>
      some ⟨p.kernel.kClosedir dirobj, p.opened.erase dirobj, dirobj :: p.closed⟩

/-- What recycling should do: an object that is opened was not open, and is a new one only when no
closed one is available; an object that is closed becomes the last of `dir_recycle_list`, and
`NULL` is not followed. -/
def DirPool.Recycles (tree : InodeTree) (p : DirPool) : DirCall → Prop
  | .opendir path => ∃ s dirobj, p.kernel.kOpendir tree path = some (s, dirobj) ∧
      dirobj ∉ p.opened ∧ (p.kernel.kmallocs < s.kmallocs → p.closed = [])
  | .closedir dirobj => (p.kernel.kClosedir dirobj).nulls = p.kernel.nulls ∧
      ∀ ds, Chain (fun d => (p.kernel.dir d).nextdir) 0 p.kernel.dirRecycleList ds →
        Chain (fun d => ((p.kernel.kClosedir dirobj).dir d).nextdir) 0
          (p.kernel.kClosedir dirobj).dirRecycleList (ds ++ [dirobj])

/-- Every call of the sequence recycles as it should. -/
def DirPool.AllRecycle (tree : InodeTree) : DirPool → List DirCall → Prop
  | _, [] => True
  | p, c :: cs => p.Recycles tree c ∧ ∀ p', p.step tree c = some p' → AllRecycle tree p' cs

/-- The objects with the inode that each was opened at and what `k_readdir` has given for it. -/
structure DirLog where
  kernel : DirState
  inode : Nat → Option Nat
  results : Nat → List (Option (List UInt8))

/-- The runs of `k_opendir` and of `k_readdir` on open objects, in any order. -/
inductive DirReach (tree : InodeTree) : DirLog → Prop
  | init : DirReach tree ⟨noDirs, fun _ => none, fun _ => []⟩
  | opendir {r : DirLog} {path : List UInt8} {s : DirState} {dirobj : Nat} :
      DirReach tree r → r.kernel.kOpendir tree path = some (s, dirobj) →
      DirReach tree ⟨s, if dirobj = 0 then r.inode
        else Function.update r.inode dirobj (tree.getInode path), r.results⟩
  | readdir {r : DirLog} {dirobj : Nat} {s : DirState} {name : Option (List UInt8)} :
      DirReach tree r → (r.inode dirobj).isSome →
      r.kernel.kReaddir tree dirobj = some (s, name) →
      DirReach tree ⟨s, r.inode,
        Function.update r.results dirobj (r.results dirobj ++ [name])⟩

end Sbunix
