import Sbunix.Misc.Runs
import Sbunix.Sys.Vfs

/-!
# Tokens

C `mystrtok` and `SplitString` of the kernel (`sys/Utils/kstring.c:32-109`) and of the shell
(`bin/sbush/Util.c:206-288`).  A string is the list of its characters before the NUL.
-/

namespace Sbunix

/-- A call of the kernel's `mystrtok`: the token, if any, and the new `*pos`. -/
def kMystrtok (str : List UInt8) (delim : UInt8) (pos : Nat) : Option (List UInt8) × Nat :=
  match mystrtok str delim pos with
  | none => (none, pos)
  | some (token, pos) => (some token, pos)

/-- The local variables of the shell's `mystrtok`. -/
structure TokState where
  startFound : Bool
  start : Nat
  endFound : Bool
  stop : Nat
  i : Nat

/-- The first loop of the shell's `mystrtok`, over the characters from index `i` on. -/
def tokLoop (delim : UInt8) : List UInt8 → TokState → TokState
  | [], s => s
  | c :: rest, s =>
      if c ≠ delim ∧ s.startFound = false then
        tokLoop delim rest { s with start := s.i, startFound := true, i := s.i + 1 }
      else if c = delim ∧ s.startFound = true then { s with stop := s.i - 1, endFound := true }
      else tokLoop delim rest { s with i := s.i + 1 }

/-- C `mystrtok` of the shell. -/
def shMystrtok (str : List UInt8) (delim : UInt8) (pos : Nat) : Option (List UInt8) × Nat :=
  let s := tokLoop delim (str.drop pos) ⟨false, 0, false, 0, pos⟩
  let s := if s.startFound then { s with stop := s.i - 1, endFound := true } else s
  if s.endFound then (some ((str.drop s.start).take (s.stop + 1 - s.start)), s.stop + 1)
  else (none, pos)

section

/-! `tok` is one of the two `mystrtok`, on some string from a position on. -/

variable (tok : Nat → Option (List UInt8) × Nat)

/-- `*pos` after some calls. -/
def tokPos : Nat → Nat → Nat
  | 0, pos => pos
  | k + 1, pos => tokPos k (tok pos).2

/-- The calls give the runs one by one and move on at each, and then `NULL` for ever, with `*pos`
where it is. -/
structure Tokenises (str : List UInt8) (delim : UInt8) : Prop where
  token : ∀ k, (tok (tokPos tok k 0)).1 = (runs delim str)[k]?
  moves : ∀ k < (runs delim str).length, tokPos tok k 0 < tokPos tok (k + 1) 0
  stays : ∀ k, (runs delim str).length ≤ k → tokPos tok (k + 1) 0 = tokPos tok k 0

/-- The loop of `SplitString`: the elements that are stored to a vector with room for `room` more.
It is `none` when one is stored behind its end. -/
def splitLoop : Nat → Nat → Option (List (Option (List UInt8)))
  | 0, _ => none
  | room + 1, pos =>
      match tok pos with
      | (none, _) => some [none]
      | (some token, pos) => (splitLoop room pos).map (some token :: ·)

end

/-- C `SplitString` of the kernel: the vector and `vecCount`. The string is copied to 1024 bytes,
and the vector has room for 20 elements. -/
def kSplitString (str : List UInt8) : Option (List (Option (List UInt8)) × Nat) :=
  if str.length < 1024 then
    (splitLoop (kMystrtok str 32) 20 0).map fun vector => (vector, vector.length - 1)
  else none

/-- C `SplitString` of the shell, which checks for a `NULL` string first. The vector is `NULL`
then, and `vecCount` is left alone. -/
def shSplitString (str : Option (List UInt8)) (vecCount : Nat) :
    Option (Option (List (Option (List UInt8))) × Nat) :=
  match str with
  | none => some (none, vecCount)
  | some str =>
      if str.length < 1024 then
        (splitLoop (shMystrtok str 32) 20 0).map fun vector => (some vector, vector.length - 1)
      else none

end Sbunix
