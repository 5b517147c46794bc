import Sbunix.Misc.CharBuffer
import Sbunix.Sys.Paper

/-!
# Output of the C library

C `putchar`, `puts` and `printf` (`libc/putchar.c`, `libc/puts.c`, `libc/printf.c:93-175`): a
program writes to the screen with one system call for each character. A string is the list of its
characters before the NUL.
-/

namespace Sbunix

/-- A `char` as an `int`. -/
def charToInt (ch : UInt8) : Int := (ch.toNat : Int).bmod 256

/-- The bytes of an `int` at its address. -/
def intBytes (c : Int) : List UInt8 :=
  let n := (c % 2 ^ 32).toNat
  [UInt8.ofNat n, UInt8.ofNat (n / 2 ^ 8), UInt8.ofNat (n / 2 ^ 16), UInt8.ofNat (n / 2 ^ 24)]

namespace Console

/-- C `putchar`: the kernel gets the address of the argument, behind which `stack` lies. -/
def putchar (c : Console) (ch : Int) (stack : List UInt8) : Option (Console × Int) :=
  (c.kWrite 1 (intBytes ch ++ stack) 1).map fun r => (r.1, if r.2 = 1 then ch else -1)

/-- The loop of C `puts`; `stack n` lies behind the argument of the `n`-th call. -/
def putsLoop (stack : Nat → List UInt8) : List UInt8 → Nat → Console → Option Console
  | [], _, c => some c
  | ch :: s, n, c =>
      (c.putchar (charToInt ch) (stack n)).bind fun r => putsLoop stack s (n + 1) r.1

/-- C `puts`. -/
def puts (c : Console) (s : List UInt8) (stack : Nat → List UInt8) : Option Console :=
  putsLoop stack s 0 c

end Console

/-- `sizeof(args)` in `printf`. -/
def argsSize : Nat := 1024

/-- The string at the address of an argument, if it ends. -/
def textArg (s : List UInt8) : Option (List UInt8) :=
  if 0 ∈ s then some (s.takeWhile (· ≠ 0)) else none

/-- What a conversion leaves in `args`, up to its end. -/
def inArgs (r : Nat × (Nat → UInt8)) : Option (Nat × (Nat → UInt8)) :=
  if r.1 ≤ argsSize then some r else none

/-- The loop of C `printf` over the format: the new index and `args`. It is `none` past the end of
`args`, and where an argument is missing or of another type; `str` is what the local arrays of
`printfflushint` and `printfflushhex` hold before. -/
def printfLoop (str : Nat → UInt8) :
    List UInt8 → List VaArg → Nat → (Nat → UInt8) → Option (Nat × (Nat → UInt8))
  | [], _, i, args => some (i, args)
  | [ch], _, i, args => inArgs (appendLoop [ch] i args)
  | ch :: nextch :: pfmt, pap, i, args =>
      if ch = 37 ∧ nextch = 115 then
        match pap with
        | .text s :: pap => do
            let s ← textArg s
            let (i, args) ← inArgs (appendLoop s i args)
            printfLoop str pfmt pap i args
        | _ => none
      else if ch = 37 ∧ nextch = 99 then
        match pap with
        | .int d :: pap => do
            let (i, args) ← inArgs (appendLoop [UInt8.ofInt d.toInt] i args)
            printfLoop str pfmt pap i args
        | _ => none
      else if ch = 37 ∧ nextch = 100 then
        match pap with
        | .int d :: pap => do
            let (i, args) ← inArgs (printfflushint d.toInt str i args)
            printfLoop str pfmt pap i args
        | _ => none
      else if ch = 37 ∧ nextch = 120 then
        match pap with
        | .int d :: pap => do
            let (i, args) ← inArgs (printfflushhex (UInt64.ofInt d.toInt) str i args)
            printfLoop str pfmt pap i args
        | _ => none
      else if ch = 37 ∧ nextch = 112 then
        match pap with
        | .address n :: pap => do
            let (i, args) ← inArgs (printfflushhex n str i args)
            printfLoop str pfmt pap i args
        | _ => none
      else do
        let (i, args) ← inArgs (appendLoop [ch] i args)
        printfLoop str (nextch :: pfmt) pap i args

/-- What the local arrays and the stack hold before a call. -/
structure Garbage where
  args : Nat → UInt8
  str : Nat → UInt8
  stack : Nat → List UInt8

/-- C `printf`. -/
def Console.printf (c : Console) (pfmt : List UInt8) (pap : List VaArg) (g : Garbage) :
    Option Console := do
  let (i, args) ← printfLoop g.str pfmt pap 0 g.args
  if i < argsSize then c.puts (cString (Function.update args i 0) argsSize 0) g.stack else none

/-! What the functions are for -/

/-- A string as keys on the roll. -/
def typedString (s : List UInt8) : List (RollKey UInt8) :=
  s.map fun ch => if ch = 10 then .newLine else .char ch

/-- The text of an `int`: the decimal numeral of a positive number and nothing for zero. The
characters of a negative number go down from `0`. -/
def intText (d : Int) : List UInt8 :=
  if 0 < d then decimal d
  else ((Nat.digits 10 d.natAbs).map fun digit => UInt8.ofNat (48 - digit)).reverse

/-- The text that a format and its arguments make. -/
def rendered : List UInt8 → List VaArg → Option (List UInt8)
  | [], _ => some []
  | [ch], _ => some [ch]
  | ch :: nextch :: pfmt, pap =>
      if ch = 37 ∧ nextch = 115 then
        match pap with
        | .text s :: pap => do some ((← textArg s) ++ (← rendered pfmt pap))
        | _ => none
      else if ch = 37 ∧ nextch = 99 then
        match pap with
        | .int d :: pap => (rendered pfmt pap).map (UInt8.ofInt d.toInt :: ·)
        | _ => none
      else if ch = 37 ∧ nextch = 100 then
        match pap with
        | .int d :: pap => (rendered pfmt pap).map (intText d.toInt ++ ·)
        | _ => none
      else if ch = 37 ∧ nextch = 120 then
        match pap with
        | .int d :: pap => (rendered pfmt pap).map (numeral 16 (UInt64.ofInt d.toInt).toNat ++ ·)
        | _ => none
      else if ch = 37 ∧ nextch = 112 then
        match pap with
        | .address n :: pap => (rendered pfmt pap).map (numeral 16 n.toNat ++ ·)
        | _ => none
      else (rendered (nextch :: pfmt) pap).map (ch :: ·)

/-- A function that writes to the screen types the text. -/
def Types (f : Console → Option Console) (s : List UInt8) : Prop :=
  ∀ c r, c.Prints r → ∃ c', f c = some c' ∧ c'.Prints (typeKeys r (typedString s))

end Sbunix
