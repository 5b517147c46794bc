import Sbunix.Misc.CharBuffer
import Sbunix.Sys.Chdir
import Sbunix.Sys.PathSearch

/-!
# The string `currentDir` and its readers

The stores of C `k_chdir` (`sys/syscall.c:1128-1219`) with the limits of 510 and 512 that it has,
of `create_new_process` and `copy_cur_dir` (`sys/task_manager.c:594-613`), and what `k_getcwd`
(lines 1221-1238) and the shell's `GetCurrentDir` and `GetAbsolutePath`
(`bin/sbush/LibcWrapper.c:49-56`, `bin/sbush/Assignment_One.c:272-297`) make of it.
-/

namespace Sbunix

/-- The last loop of `k_chdir`: the string that it leaves and the indices that it stores to. -/
def copyNewPath (newPath : List UInt8) : List UInt8 × List Nat :=
  (newPath.take 510, List.range (min newPath.length 510 + 1))

/-- C `k_chdir` with its stores: the return value, the new `currentDir`, and the indices of
`currentDir` that are stored to. Nothing bounds these by the size of the buffer. -/
def kChdirStores (s : InodeTree) (currentDir path : List UInt8) : Nat × List UInt8 × List Nat :=
  if path.head? = some 47 then
    if s.findsDir path then (1, copyNewPath path) else (0, currentDir, [])
  else if path.head? ≠ some 46 then
    let lastPos := min currentDir.length 512
    let newPath := currentDir.take lastPos ++ path ++ [47]
    let appended := (List.range (path.length + 2)).map (lastPos + ·)
    if s.findsDir newPath then
      let (dir, stores) := copyNewPath newPath
      (1, dir, appended ++ stores)
    else (0, currentDir.take lastPos, appended ++ [lastPos])
  else if path[1]? = some 46 then
    let lastPos := min currentDir.length 512
    let newPath := gobackLoop currentDir (lastPos - 1)
    let (dir, stores) := copyNewPath newPath
    (1, dir, (if newPath.length < currentDir.length then [newPath.length] else []) ++ stores)
  else (0, currentDir, [])

/-- The stores of `create_new_process` and then of `copy_cur_dir`. -/
def copyCurDirStores (currentDir : List UInt8) : List Nat :=
  [0, 1] ++ List.range (currentDir.length + 1)

/-- What a process may do with the strings `currentDir`. -/
inductive DirEvent
  | chdir (proc : Nat) (path : List UInt8)
  | fork (proc : Nat)
  | execvpe (proc : Nat)

/-- The strings of all processes, in the order of their creation, after a call and the indices that
it stores to. The child of `fork`, and the process that `execvpe` makes, get a buffer of their own
with the caller's string. -/
def DirEvent.step (s : InodeTree) (dirs : List (List UInt8)) :
    DirEvent → List (List UInt8) × List Nat
  | .chdir proc path =>
      match dirs[proc]? with
      | none => (dirs, [])
      | some dir =>
          let (_, dir, stores) := kChdirStores s dir path
          (dirs.set proc dir, stores)
  | .fork proc | .execvpe proc =>
      match dirs[proc]? with
      | none => (dirs, [])
      | some dir => (dirs ++ [dir], copyCurDirStores dir)

/-- Every call stores within the bytes that `create_new_process` allocates, and leaves each string
with its NUL there. -/
def StaysInside (s : InodeTree) : List (List UInt8) → List DirEvent → Prop
  | _, [] => True
  | dirs, e :: es =>
      (∀ i ∈ (e.step s dirs).2, i < currentDirSize) ∧
        (∀ dir ∈ (e.step s dirs).1, dir.length < currentDirSize) ∧
        StaysInside s (e.step s dirs).1 es

/-- What keeps a call of `k_chdir` inside the buffer: an absolute path that names a directory, or
the string with a relative path and a slash, is shorter than the buffer. -/
def ChdirFits (s : InodeTree) (currentDir path : List UInt8) : Prop :=
  if path.head? = some 47 then s.findsDir path → path.length < currentDirSize
  else if path.head? ≠ some 46 then currentDir.length + path.length + 1 < currentDirSize
  else True

/-- A change of directory that stays inside the 100 bytes; fork and exec only copy them. -/
def DirEvent.Fits (s : InodeTree) (dirs : List (List UInt8)) : DirEvent → Prop
  | .chdir proc path => ∀ dir, dirs[proc]? = some dir → ChdirFits s dir path
  | .fork _ | .execvpe _ => True

/-- Every call fits the strings that it finds. -/
def AllFit (s : InodeTree) : List (List UInt8) → List DirEvent → Prop
  | _, [] => True
  | dirs, e :: es => e.Fits s dirs ∧ AllFit s (e.step s dirs).1 es

/-- The strings that successful calls of `k_chdir` lead to from the root, as its stores leave
them. -/
inductive ChdirHistory (s : InodeTree) : List UInt8 → Prop
  | init : ChdirHistory s [47]
  | step {currentDir currentDir' path : List UInt8} {stores : List Nat} :
      ChdirHistory s currentDir → (0 : UInt8) ∉ path →
      kChdirStores s currentDir path = (1, currentDir', stores) → ChdirHistory s currentDir'

/-- C `k_getcwd` on a buffer of `size` bytes. -/
def kGetcwd (currentDir : List UInt8) (buff : Nat → UInt8) (size : Nat) : Option (Nat → UInt8) :=
  putChars size (currentDir.take (size - 1) ++ [0]) 0 buff

/-- C `GetCurrentDir`; `cwd` is what `malloc` gives. -/
def getCurrentDir (currentDir : List UInt8) (cwd : Nat → UInt8) : Option (Nat → UInt8) :=
  kGetcwd currentDir cwd 1024

/-- C `GetAbsolutePath`; `absolutePath` is what `malloc` gives. `none` is a store past its 1024
bytes. -/
def getAbsolutePath (currentDir path : List UInt8) (cwd absolutePath : Nat → UInt8) :
    Option (Nat → UInt8) :=
  if path.head? = some 47 then putChars 1024 path 0 absolutePath
  else
    (getCurrentDir currentDir cwd).bind fun currDir =>
      putChars 1024 (cString currDir 1024 0 ++ path ++ [0]) 0 absolutePath

end Sbunix
