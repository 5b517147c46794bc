import Sbunix.Sys.Vfs

/-!
# The current directory

C `k_chdir` (`sys/syscall.c:1128-1219`), which edits the string `currentDir` in place.
-/

namespace Sbunix

/-- The bytes that `create_new_process` allocates for `currentDir` (`task_manager.c:594`). -/
def currentDirSize : Nat := 100

/-- The loop of `..` (lines 1188-1195); the argument is `goback + 1`. -/
def gobackLoop (dir : List UInt8) : Nat → List UInt8
  | 0 => dir
  | goback + 1 =>
      if dir[goback]? = some 47 then dir.take (goback + 1) else gobackLoop dir goback

/-- Line 1142: the query found something that is not a file. -/
def InodeTree.isDir (s : InodeTree) (k : Nat) : Bool := decide ((s.inode k).type ≠ some .file)

/-- The path leads to a directory. -/
def InodeTree.findsDir (s : InodeTree) (path : List UInt8) : Bool :=
  match s.getInode path with
  | none => false
  | some k => s.isDir k

/-- C `k_chdir`: the return value and the new `currentDir`. It is `none` when the string and its
NUL are written past the end of the buffer, which is smaller than the limits of 510 and 512 that
the code has. -/
def kChdir (s : InodeTree) (currentDir path : List UInt8) : Option (Nat × List UInt8) :=
  if path.head? = some 47 then
    if s.findsDir path then
      if path.length < currentDirSize then some (1, path) else none
    else some (0, currentDir)
  else if path.head? ≠ some 46 then
    let newPath := currentDir ++ path ++ [47]
    if newPath.length < currentDirSize then
      if s.findsDir newPath then some (1, newPath) else some (0, currentDir)
    else none
  else if path[1]? = some 46 then some (1, gobackLoop currentDir (currentDir.length - 1))
  else some (0, currentDir)

end Sbunix
