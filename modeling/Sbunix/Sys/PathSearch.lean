import Mathlib.Logic.Function.Basic

/-!
# The file search of `exec`

C `split_path` and `concat_path` and the search of C `syscall_exec` (`sys/syscall.c:466-518`,
`645-700`).  A string is the list of its characters before the NUL; `scan` says whether
`scan_tarfs` finds a name.  `none` is an access outside a local array, or an address read from
behind the end of one.
-/

namespace Sbunix

/-- C `check_abs_path` (`sys/syscall.c:466-478`). -/
def checkAbsPath (file : List UInt8) : Bool := file.contains 47

/-- The pointers that the loop of C `split_path` appends, each with the string it points to. -/
def splitFrom : List UInt8 → List (List UInt8)
  | [] => []
  | c :: path => if c = 58 then (c :: path) :: splitFrom path else splitFrom path

/-- C `split_path` (`sys/syscall.c:480-496`); `Paths` has 200 elements, the `NULL` included. -/
def splitPath (path : List UInt8) : Option (List (List UInt8)) :=
  if (splitFrom path).length + 1 < 200 then some (path :: splitFrom path) else none

/-- The loops of C `concat_path` over one string, from index `ctr` of `abs_path` on. -/
def writeString : List UInt8 → Nat → (Nat → UInt8) → Option (Nat → UInt8)
  | [], _, absPath => some absPath
  | c :: str, ctr, absPath =>
      if ctr < 200 then writeString str (ctr + 1) (Function.update absPath ctr c) else none

/-- C `concat_path` (`sys/syscall.c:497-518`). It tests the byte behind the first string before
it has written it. -/
def concatPath (str1 str2 : List UInt8) (absPath : Nat → UInt8) : Option (Nat → UInt8) := do
  let absPath ← writeString str1 0 absPath
  let ctr := str1.length
  if ctr < 200 then
    if absPath ctr ≠ 47 then writeString (str2 ++ [0]) (ctr + 1) (Function.update absPath ctr 47)
    else writeString (str2 ++ [0]) ctr absPath
  else none

/-- The string of at most `n` characters at index `i`. -/
def cString (absPath : Nat → UInt8) : Nat → Nat → List UInt8
  | 0, _ => []
  | n + 1, i => if absPath i = 0 then [] else absPath i :: cString absPath n (i + 1)

/-- `file_path`, which leaves a leading `/` out. -/
def filePath (absPath : Nat → UInt8) : List UInt8 :=
  cString absPath 200 (if absPath 0 = 47 then 1 else 0)

/-- The local state of the search. `tried` collects the names that `scan_tarfs` is called with. -/
structure PathSearch where
  tried : List (List UInt8)
  absPath : Nat → UInt8
  found : Option (List UInt8)

section

variable (scan : List UInt8 → Bool) (file : List UInt8)

/-- One call of `concat_path` and `scan_tarfs`. -/
def tryDir (dir : List UInt8) (s : PathSearch) : Option PathSearch :=
  (concatPath dir file s.absPath).map fun absPath =>
    ⟨s.tried ++ [filePath absPath], absPath,
      if scan (filePath absPath) then some (filePath absPath) else none⟩

/-- The inner loop, over the elements of `Paths`. -/
def tryDirs : List (List UInt8) → PathSearch → Option PathSearch
  | [], s => some s
  | dir :: dirs, s => do
      let s ← tryDir scan file dir s
      if s.found.isSome then some s else tryDirs dirs s

/-- The outer loop, over the rows of `cpy_path`. Its condition compares an array with `NULL`, so
only a file that is found ends it. -/
def searchPaths : List (List UInt8) → PathSearch → Option PathSearch
  | [], _ => none
  | path :: paths, s => do
      let dirs ← splitPath path
      let s ← tryDirs scan file dirs s
      if s.found.isSome then some s else searchPaths paths s

/-- The file search of C `syscall_exec` (`sys/syscall.c:645-700`). -/
def searchFile (paths : List (List UInt8)) (currentDir : List UInt8) (absPath : Nat → UInt8) :
    Option PathSearch :=
  if checkAbsPath file then
    let name := if file.head? = some 47 then file.tail else file
    some ⟨[name], absPath, if scan name then some name else none⟩
  else do
    let s ← searchPaths scan file paths ⟨[], absPath, none⟩
    if s.found.isNone then tryDir scan file currentDir s else some s

end

/-- A name without its leading `/`. -/
def stripSlash (name : List UInt8) : List UInt8 := if name.head? = some 47 then name.tail else name

/-- The name of a file in a directory, as the archive has it: one `/` between them. -/
def nameInDir (file dir : List UInt8) : List UInt8 :=
  stripSlash (dir ++ (if dir.getLast? = some 47 then [] else [47]) ++ file)

/-- What the search should try: the file in the directories of all path strings and then in the
current one. -/
def searchNames (file : List UInt8) (paths : List (List UInt8)) (currentDir : List UInt8) :
    List (List UInt8) :=
  ((paths.flatMap fun p => p.splitOn 58) ++ [currentDir]).map (nameInDir file)

/-- The elements up to the first one with the property. -/
def upToFirst (scan : List UInt8 → Bool) : List (List UInt8) → List (List UInt8)
  | [] => []
  | n :: ns => if scan n then [n] else n :: upToFirst scan ns

/-- The search ends, has tried the names in order up to the first that exists, and gives that
one. -/
def SearchesInOrder (scan : List UInt8 → Bool) (file : List UInt8) (paths : List (List UInt8))
    (currentDir : List UInt8) (absPath : Nat → UInt8) : Prop :=
  ∃ t, searchFile scan file paths currentDir absPath = some t ∧
    t.tried = upToFirst scan (searchNames file paths currentDir) ∧
    t.found = (searchNames file paths currentDir).find? scan

/-- `abs_path` after `concat_path`, when its byte behind `dir` was `slash`. -/
def joined (dir file : List UInt8) (slash : UInt8) : List UInt8 :=
  dir ++ (if slash = 47 then [] else [47]) ++ file

/-- The array with a string at its beginning. -/
def withString (absPath : Nat → UInt8) (str : List UInt8) : Nat → UInt8 :=
  fun k => if k ≤ str.length then (str ++ [0]).getD k 0 else absPath k

/-- When the search works: some file is found, and each path string up to there is a single
directory, behind which `abs_path` happens to have a `/` exactly if the directory ends with one
already, and the name fits. -/
def PathsWork (scan : List UInt8 → Bool) (file : List UInt8) :
    List (List UInt8) → (Nat → UInt8) → Prop
  | [], _ => False
  | p :: paths, absPath =>
      58 ∉ p ∧ (p = [] ∨ (absPath p.length = 47 ↔ p.getLast? = some 47)) ∧
        (joined p file (absPath p.length)).length < 200 ∧
        (scan (nameInDir file p) = true ∨
          PathsWork scan file paths (withString absPath (joined p file (absPath p.length))))

end Sbunix
