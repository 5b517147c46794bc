import Mathlib.Data.Nat.Digits.Defs
import Sbunix.Sys.Vfs

/-!
# The `int` arithmetic of `oct_to_dec`

C `power` and `oct_to_dec` (`sys/tarfs.c:36-83`) with every value of an `int` expression checked,
beside `octToDec`, in which they wrap around.
-/

namespace Sbunix

/-- The value of an `int` expression; `none` is an overflow. -/
def intExpr (x : Int) : Option Int := if -2 ^ 31 ≤ x ∧ x < 2 ^ 31 then some x else none

/-- C `power` (lines 36-51). Both of its calls with `y/2` are the same. -/
def power (x : Int) (y : Nat) : Option Int :=
  if y = 0 then some 1
  else do
    let half ← power x (y / 2)
    if y % 2 = 0 then intExpr (half * half)
    else
      let p ← intExpr (x * half)
      intExpr (p * half)
termination_by y
decreasing_by omega

/-- The first loop (lines 58-71). -/
def readDigits : List UInt8 → Int → Option Int
  | [], oct => some oct
  | c :: num, oct =>
      if c = 48 ∧ oct = 0 then readDigits num oct
      else do
        let shifted ← intExpr (10 * oct)
        let oct ← intExpr (shifted + ((c.toNat : Int).bmod 256 - 48))
        readDigits num oct

/-- The second loop (lines 75-81); an `int` has at most ten decimal digits. -/
def expandDigits : Nat → Int → Nat → Int → Option Int
  | 0, _, _, dec => some dec
  | fuel + 1, oct, i, dec =>
      if oct = 0 then some dec
      else do
        let p ← power 8 i
        let term ← intExpr (oct.tmod 10 * p)
        let dec ← intExpr (dec + term)
        expandDigits fuel (oct.tdiv 10) (i + 1) dec

/-- C `oct_to_dec` (lines 53-84) as long as no `int` overflows. -/
def octToDecInt (num : List UInt8) : Option Int := do
  let oct ← readDigits num 0
  expandDigits 11 oct 0 0

/-- A string of octal digits. -/
def IsOctal (num : List UInt8) : Prop := ∀ c ∈ num, 48 ≤ c.toNat ∧ c.toNat ≤ 55

/-- The digits of a numeral, the last one first. -/
def digitsOf (num : List UInt8) : List Nat := num.reverse.map fun c => c.toNat - 48

/-- The number that the digits of an octal text stand for. -/
def octalValue (num : List UInt8) : Nat := Nat.ofDigits 8 (digitsOf num)

end Sbunix
