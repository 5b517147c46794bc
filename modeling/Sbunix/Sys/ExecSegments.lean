import Sbunix.Sys.Elf
import Sbunix.Sys.ExecArgs

/-!
# The arguments of `exec` over the segments

What `passArgs` writes into the address space of the new program, write after write, and the
segments that `read_elf` has put there before.
-/

namespace Sbunix

open ByteMem

/-- C `syscall_exec` from the file that the search has found: `read_elf` in the search, then the
arguments. `m` is what the new process sees before. -/
def startProgram (caller m : ByteMem) (vm : VmState) (elfaddr proc fileName args uStackbase
    childStackbase : Nat) (path : List UInt8) : Option (Loading × MainEntry) := do
  let s ← readElf m vm elfaddr proc
  let e ← execArgs caller s.bytes fileName args uStackbase childStackbase path
  some (s, e)

/-- The write of an element of an array of pointers. -/
def wordRun (args i w : Nat) : Nat × List UInt8 := (args + 8 * i, numberBytes w 8)

/-- The writes of `copyPointers`. -/
def pointerRuns (args newargs : Nat) : Nat → Nat → ByteMem → List (Nat × List UInt8)
  | 0, _, _ => []
  | n + 1, i, m =>
      wordRun newargs i (argAt m args i) ::
        pointerRuns args newargs n (i + 1) (setArg m newargs i (argAt m args i))

/-- The writes of `copyStrings`. -/
def copiedRuns (newargs : Nat) : List (List UInt8) → Nat → ByteMem → List (Nat × List UInt8)
  | [], _, _ => []
  | str :: strs, i, m =>
      (argAt m newargs i, str ++ [0]) ::
        copiedRuns newargs strs (i + 1) (strcpy str (argAt m newargs i) m)

/-- The writes of `shiftArgs`. -/
def shiftRuns (args : Nat) : Nat → ByteMem → List (Nat × List UInt8)
  | 0, _ => []
  | i + 1, m =>
      wordRun args (i + 1) (argAt m args i) ::
        shiftRuns args i (setArg m args (i + 1) (argAt m args i))

/-- The writes of `passArgs`: the path over the file name, the pointers, the strings, and the
pointers moved up behind that to the file name. -/
def execRuns (m : ByteMem) (fileName args newargs : Nat) (path : List UInt8)
    (strs : List (List UInt8)) : List (Nat × List UInt8) :=
  let named := strcpy path fileName m
  let pointed := copyPointers args newargs strs.length 0 named
  let copied := copyStrings newargs strs 0 pointed
  (fileName, path ++ [0]) :: pointerRuns args newargs strs.length 0 named ++
    copiedRuns newargs strs 0 pointed ++ shiftRuns newargs (strs.length + 1) copied ++
    [wordRun newargs 0 fileName]

/-- The elements of an array of pointers, from number `i` on. -/
def arrayRuns (args : Nat) : List Nat → Nat → List (Nat × List UInt8)
  | [], _ => []
  | w :: ws, i => wordRun args i w :: arrayRuns args ws (i + 1)

/-- The new array at the end. Its last element is the word that the stack has behind the place
of the pointers. -/
def newWords (m : ByteMem) (fileName args newargs : Nat) (path : List UInt8)
    (strs : List (List UInt8)) : List Nat :=
  fileName :: (List.range strs.length).map (argAt (strcpy path fileName m) args) ++
    [argAt m newargs strs.length]

/-- `x` lies in a segment of a program header that `read_elf` has looked at; `m` has the file. -/
def InSegment (m : ByteMem) (s : Loading) (x : Nat) : Prop :=
  ∃ h ∈ s.read, (segmentRange m h).1 ≤ x ∧ x < (segmentRange m h).2

/-- Every byte of every segment is as `read_elf` has left it. -/
def SegmentsKept (m : ByteMem) (s : Loading) (bytes : ByteMem) : Prop :=
  ∀ x, InSegment m s x → bytes.load x = s.bytes.load x

/-- Wherever the runs go over a segment, the last of them puts the byte that is there. -/
def SegmentsSpared (m : ByteMem) (s : Loading) (ps : List (Nat × List UInt8)) : Prop :=
  ∀ x, InSegment m s x → ∀ c, LastAt ps x c → s.bytes.load x = c

end Sbunix
