import Sbunix.Misc.ByteRuns

/-!
# The arguments of `exec`

How C `syscall_exec` hands the arguments over (`sys/syscall.c:576-600`, `716-790`), once the
search has found the file under the name `path`.  `caller` is the memory that the caller sees and
`m` the one that the new program sees when the search ends; the kernel runs on its page tables
from then on.  Strings in local arrays are lists of their characters.  The counters of type `int`
count the elements of an array on a stack and do not wrap.
-/

namespace Sbunix

open ByteMem

/-- C `args[i]` for an array of pointers. -/
def argAt (m : ByteMem) (args i : Nat) : Nat := m.number (args + 8 * i) 8

/-- Pointer `i` of the argument array changed. -/
def setArg (m : ByteMem) (args i w : Nat) : ByteMem := m.storeNumber (args + 8 * i) w 8

/-- The loop that counts the pointers before the null. -/
def countArgsFrom (m : ByteMem) (args : Nat) : Nat → Nat → Option Nat
  | 0, _ => none
  | fuel + 1, ctr =>
      if argAt m args ctr = 0 then some ctr else countArgsFrom m args fuel (ctr + 1)

/-- C `count_args` (`sys/syscall.c:520-526`). After `2 ^ 61` elements the addresses repeat. -/
def countArgs (m : ByteMem) (args : Nat) : Option Nat := countArgsFrom m args (2 ^ 61) 0

/-- The string at an address, if it ends within `n` bytes. -/
def stringAt (m : ByteMem) : Nat → Nat → Option (List UInt8)
  | 0, _ => none
  | n + 1, a =>
      if m.load a = 0 then some [] else (stringAt m n (a + 1)).map fun str => m.load a :: str

/-- The loop that fills `cpy_args`, whose rows have 1024 bytes, from element `i` on. -/
def copyArgs (m : ByteMem) (args : Nat) : Nat → Nat → Option (List (List UInt8))
  | 0, _ => some []
  | n + 1, i => do
      let str ← stringAt m 1024 (argAt m args i)
      let strs ← copyArgs m args n (i + 1)
      some (str :: strs)

/-- C `strcpy` (`sys/syscall.c:528-535`) of a string in a local array. -/
def strcpy : List UInt8 → Nat → ByteMem → ByteMem
  | [], tgt, m => m.store tgt 0
  | c :: src, tgt, m => strcpy src (tgt + 1) (m.store tgt c)

/-- `newargs[i]=args[i]`, for `n` elements from `i` on. -/
def copyPointers (args newargs : Nat) : Nat → Nat → ByteMem → ByteMem
  | 0, _, m => m
  | n + 1, i, m => copyPointers args newargs n (i + 1) (setArg m newargs i (argAt m args i))

/-- `strcpy(cpy_args[i],newargs[i],strlen(cpy_args[i]))`, for the rows from `i` on. -/
def copyStrings (newargs : Nat) : List (List UInt8) → Nat → ByteMem → ByteMem
  | [], _, m => m
  | str :: strs, i, m => copyStrings newargs strs (i + 1) (strcpy str (argAt m newargs i) m)

/-- The loop of C `cpy_filename2args`. -/
def shiftArgs (args : Nat) : Nat → ByteMem → ByteMem
  | 0, m => m
  | i + 1, m => shiftArgs args i (setArg m args (i + 1) (argAt m args i))

/-- C `cpy_filename2args` (`sys/syscall.c:555-561`). -/
def cpyFilename2args (name args argsCtr : Nat) (m : ByteMem) : ByteMem :=
  setArg (shiftArgs args argsCtr m) args 0 name

/-- What `main` is entered with (`crt/crt1.c`): `rsi`, `rdi` and the memory of the program. -/
structure MainEntry where
  argc : Nat
  argv : Nat
  bytes : ByteMem

/-- `newargs`: the place of `args` in the stack of the child. -/
def newArgs (uStackbase childStackbase args : Nat) : Nat :=
  (childStackbase + (2 ^ 64 - (uStackbase + (2 ^ 64 - args)) % 2 ^ 64)) % 2 ^ 64

/-- The part of C `syscall_exec` behind the search (`sys/syscall.c:716-790`). The new name of the
process and the VMA nodes of the arguments go to the kernel heap and are left out. -/
def passArgs (m : ByteMem) (fileName args newargs : Nat) (path : List UInt8)
    (cpyArgs : List (List UInt8)) : Option MainEntry := do
  let argsCtr := cpyArgs.length + 1
  let m := strcpy path fileName m
  let m := copyPointers args newargs (argsCtr - 1) 0 m
  let m := copyStrings newargs cpyArgs 0 m
  let m := cpyFilename2args fileName newargs argsCtr m
  -- the array of the caller is counted, without the file name
  let i ← countArgs m args
  some ⟨i, newargs, m⟩

/-- The arguments through C `syscall_exec`. -/
def execArgs (caller m : ByteMem) (fileName args uStackbase childStackbase : Nat)
    (path : List UInt8) : Option MainEntry := do
  let argsCtr ← countArgs caller args
  let cpyArgs ← copyArgs caller args argsCtr 0
  passArgs m fileName args (newArgs uStackbase childStackbase args) path cpyArgs

/-- `args` is a `NULL`-terminated array of the strings `strs`, which fit the rows of `cpy_args`. -/
structure ArgArray (m : ByteMem) (args : Nat) (strs : List (List UInt8)) : Prop where
  few : strs.length < 2 ^ 31
  pointers : ∀ i < strs.length, argAt m args i ≠ 0
  null : argAt m args strs.length = 0
  strings : ∀ i str, strs[i]? = some str →
    str.length < 1024 ∧ 0 ∉ str ∧ m.Holds (argAt m args i, str ++ [0])

/-- `main` gets the name under which the file was found and then the arguments. -/
structure ArgsPassed (e : MainEntry) (path : List UInt8) (strs : List (List UInt8)) : Prop where
  argc : e.argc = strs.length + 1
  name : e.bytes.Holds (argAt e.bytes e.argv 0, path ++ [0])
  strings : ∀ i str, strs[i]? = some str →
    e.bytes.Holds (argAt e.bytes e.argv (i + 1), str ++ [0])
  null : argAt e.bytes e.argv (strs.length + 1) = 0

/-- The program starts with all its arguments. -/
def ArgsArrive (caller m : ByteMem) (fileName args uStackbase childStackbase : Nat)
    (path : List UInt8) (strs : List (List UInt8)) : Prop :=
  ∃ e, execArgs caller m fileName args uStackbase childStackbase path = some e ∧
    ArgsPassed e path strs

/-! ## When it works -/

/-- The argument strings from number `i` on, each at its pointer. -/
def stringRuns (m : ByteMem) (args : Nat) : List (List UInt8) → Nat → List (Nat × List UInt8)
  | [], _ => []
  | str :: strs, i => (argAt m args i, str ++ [0]) :: stringRuns m args strs (i + 1)

/-- The strings that are written: the path over the file name, and the arguments at the pointers
of the caller, as the path leaves these. -/
def argRuns (m : ByteMem) (fileName args : Nat) (path : List UInt8) (strs : List (List UInt8)) :
    List (Nat × List UInt8) :=
  (fileName, path ++ [0]) :: stringRuns (strcpy path fileName m) args strs 0

/-- The new array, with the word behind it, lies apart from the one of the caller and from the
strings. -/
structure NewArrayApart (m : ByteMem) (fileName args newargs : Nat) (path : List UInt8)
    (strs : List (List UInt8)) : Prop where
  array : ∀ i < 8 * (strs.length + 2), ∀ j < 8 * (strs.length + 2),
    ¬ SameAddr (args + i) (newargs + j)
  runs : ∀ p ∈ argRuns m fileName args path strs, ∀ k < p.2.length,
    ∀ j < 8 * (strs.length + 2), ¬ SameAddr (p.1 + k) (newargs + j)

/-- When the arguments arrive: the strings agree where they overlap, a string runs over the
`NULL` behind the pointers of the caller and makes it a pointer with a `NULL` behind it, and the
stack of the child has a `NULL` where the new array has its last one. -/
structure ArgsLand (m : ByteMem) (fileName args newargs : Nat) (path : List UInt8)
    (strs : List (List UInt8)) : Prop where
  agree : Agree (argRuns m fileName args path strs)
  pointers : ∀ i ≤ strs.length, ∃ k < 8, ∃ c, c ≠ 0 ∧
    Placed m (argRuns m fileName args path strs) (args + 8 * i + k) c
  behind : ∀ k < 8,
    Placed m (argRuns m fileName args path strs) (args + 8 * (strs.length + 1) + k) 0
  stale : argAt m newargs strs.length = 0

end Sbunix
