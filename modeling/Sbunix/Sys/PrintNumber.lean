import Sbunix.Misc.Numeral
import Sbunix.Misc.Reversal
import Sbunix.Sys.PathSearch

/-!
# Numbers as text

C `flushint` and `flushhex` (`sys/kprintf.c:184-248`) and `printfflushint` and `printfflushhex`
(`libc/printf.c:7-89`), with what their local array holds before as a parameter.
-/

namespace Sbunix

/-- The first loop of `flushint` and `printfflushint`: the digits of an `int` from index `i` on, the
last one first. The remainder of a negative number is negative. -/
def intDigits (text : Int) (i : Nat) (str : Nat → UInt8) : Nat × (Nat → UInt8) :=
  if text = 0 then (i, str)
  else intDigits (text.tdiv 10) (i + 1)
    (Function.update str i (UInt8.ofInt (text.tmod 10 + 48)))
termination_by text.natAbs
decreasing_by
  rw [Int.natAbs_tdiv]
  exact Nat.div_lt_self (by omega) (by decide)

/-- The first loop of `flushhex` and `printfflushhex`, which runs at least once. -/
def hexDigits (num r : Nat) (ret : Nat → UInt8) : Nat × (Nat → UInt8) :=
  let rem := num % 16
  let ret := Function.update ret r (UInt8.ofNat (if 10 ≤ rem then 97 + rem - 10 else rem + 48))
  if num / 16 = 0 then (r + 1, ret) else hexDigits (num / 16) (r + 1) ret
termination_by num

/-- The string in the local array when its first `i` characters have got their NUL and been turned
around. -/
def turnedAround (i : Nat) (str : Nat → UInt8) : List UInt8 :=
  cString (reverseLoop (Function.update str i 0) 0 (i - 1)) 1024 0

/-- The string that C `flushint` hands to `flush`. -/
def flushint (text : Int) (str : Nat → UInt8) : List UInt8 :=
  if text = 0 then cString (Function.update (Function.update str 0 48) 1 0) 1024 0
  else
    let (i, str) := intDigits text 0 str
    turnedAround i str

/-- The string that C `flushhex` hands to `flush` after `0x`. -/
def flushhex (num : UInt64) (ret : Nat → UInt8) : List UInt8 :=
  let (r, ret) := hexDigits num.toNat 0 ret
  turnedAround r ret

/-- The last loop of `printfflushint` and `printfflushhex`: the new position and the buffer. -/
def appendLoop : List UInt8 → Nat → (Nat → UInt8) → Nat × (Nat → UInt8)
  | [], ctr, args => (ctr, args)
  | c :: str, ctr, args => appendLoop str (ctr + 1) (Function.update args ctr c)

/-- C `printfflushint`. For 0 it puts a numeral into `str` and then overwrites it. -/
def printfflushint (text : Int) (str : Nat → UInt8) (ctr : Nat) (args : Nat → UInt8) :
    Nat × (Nat → UInt8) :=
  let str := if text = 0 then Function.update (Function.update str 0 48) 1 0 else str
  let (i, str) := intDigits text 0 str
  appendLoop (turnedAround i str) ctr args

/-- C `printfflushhex`. -/
def printfflushhex (num : UInt64) (ret : Nat → UInt8) (ctr : Nat) (args : Nat → UInt8) :
    Nat × (Nat → UInt8) :=
  let (r, ret) := hexDigits num.toNat 0 ret
  appendLoop (turnedAround r ret) ctr args

/-- The characters of a buffer from `ctr` up to `ctr'`. -/
def charsFrom (args : Nat → UInt8) (ctr ctr' : Nat) : List UInt8 :=
  (List.range (ctr' - ctr)).map fun k => args (ctr + k)

/-- Kernel and library print an `int` alike, as its decimal numeral. -/
structure PrintsDecimal (n : Int) (str str' : Nat → UInt8) (ctr : Nat) (args : Nat → UInt8) :
    Prop where
  same : charsFrom (printfflushint n str' ctr args).2 ctr (printfflushint n str' ctr args).1 =
    flushint n str
  numeral : flushint n str = decimal n
  parsed : decimalValue (flushint n str) = n

/-- Kernel and library print a number alike, as its hexadecimal numeral, and the library leaves the
earlier part of the buffer alone. -/
structure PrintsHex (num : UInt64) (ret ret' : Nat → UInt8) (ctr : Nat) (args : Nat → UInt8) :
    Prop where
  same : charsFrom (printfflushhex num ret' ctr args).2 ctr (printfflushhex num ret' ctr args).1 =
    flushhex num ret
  digits : ∀ c ∈ flushhex num ret, 48 ≤ c ∧ c ≤ 57 ∨ 97 ≤ c ∧ c ≤ 102
  leading : flushhex num ret ≠ [] ∧ ((flushhex num ret).head? = some 48 → num = 0)
  zero : num = 0 → flushhex num ret = [48]
  value : numeralValue 16 (flushhex num ret) = num.toNat
  kept : ∀ k < ctr, (printfflushhex num ret' ctr args).2 k = args k
  position : (printfflushhex num ret' ctr args).1 = ctr + (flushhex num ret).length

end Sbunix
