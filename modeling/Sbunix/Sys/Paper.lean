import Sbunix.Misc.Roll
import Sbunix.Sys.ScreenCalls

/-!
# The screen as a window

What the screen is for: the 24 lines of text show a part of an endless roll, on which the calls of
`sys/kprintf.c` type. The roll never scrolls.
-/

namespace Sbunix

/-- What `flush` and `flushcolor` type, up to a NUL or a new line. -/
def typedText : List UInt8 → Option (List (RollKey UInt8))
  | [] => none
  | ch :: text =>
      if ch = 0 then some []
      else if ch = 10 then some [.newLine]
      else (typedText text).map (.char ch :: ·)

/-- The keys that a call of the console types. -/
def FlushCall.typed : FlushCall → Option (List (RollKey UInt8))
  | .flush text | .flushcolor text => typedText text
  | .flushchar ch => some [.char ch]
  | .flushbackspace => some [.back]
  | .flushNewLine => some [.newLine]

/-- What calls type one after another. -/
def typedCalls : List FlushCall → Option (List (RollKey UInt8))
  | [] => some []
  | call :: calls => call.typed.bind fun keys => (typedCalls calls).map (keys ++ ·)

/-- Keys on the roll, in rows of 80 cells with blanks that are spaces. -/
def typeKeys (r : Roll UInt8) (keys : List (RollKey UInt8)) : Roll UInt8 := r.type 32 80 keys

namespace Console

/-- The cells of the roll that have been scrolled away. -/
def scrolledAway (c : Console) : Nat := 80 * 12 * c.scrolls

/-- The characters on the screen. -/
def chars (c : Console) : Nat → UInt8 := fun q => c.screen (2 * q)

/-- The screen shows the roll from `scrolledAway` on, with the cursor at its place. -/
structure Prints (c : Console) (r : Roll UInt8) : Prop where
  window : RollWindow (80 * 24) 32 c.scrolledAway c.chars r
  cursor : r.cursor = c.scrolledAway + c.dataWritten

theorem aligned_zero : 0 = 2 * 0 := rfl

/-- Nothing has been written yet. -/
def fresh (screen : Nat → UInt8) : Console := ⟨screen, 0, 0, 0, aligned_zero⟩

/-- The roll that a screen begins with. -/
def paper (screen : Nat → UInt8) : Roll UInt8 :=
  ⟨fun p => if p < 80 * 24 then screen (2 * p) else 32, 0⟩

end Console

/-- The text fits, and no backspace would go back to what has been scrolled away. -/
def FlushCall.FitsPaper (c : Console) (call : FlushCall) : Prop :=
  call.Fits c ∧ match call with
    | .flushbackspace => c.dataWritten = 0 → c.scrolls = 0
    | .flush _ | .flushcolor _ | .flushchar _ | .flushNewLine => True

/-- Each call of a sequence fits the console it meets. -/
def PaperFits : Console → List FlushCall → Prop
  | _, [] => True
  | c, call :: calls => call.FitsPaper c ∧ ∀ c', call.run c = some c' → PaperFits c' calls

end Sbunix
