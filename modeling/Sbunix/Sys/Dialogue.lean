import Sbunix.Sys.Output
import Sbunix.Sys.Terminal

/-!
# Programs at the terminal

C `gets` (`libc/gets.c`) with descriptor 0 of `k_read` (`sys/syscall.c:998-1002`), from the scan
codes of the keys to the string of a program, and the calls of programs that write in between.
-/

namespace Sbunix

namespace Tty

/-- The interrupts of keys one after another. -/
def keymamas : List UInt8 → Tty → Option Tty
  | [], s => some s
  | inb :: inbs, s => (s.keymama inb).bind (keymamas inbs)

/-- C `gets`, for the keys that come while `read` waits: the memory, the count that it returns, and
the devices. It is `none` as long as the read has not ended. -/
def gets (s : Tty) (inbs : List UInt8) (m : ByteMem) (buff : Nat) :
    Option (ByteMem × Nat × Tty) := do
  let s ← keymamas inbs { s with terminal := { s.terminal with readmodeon := true } }
  if s.terminal.readmodeon then none
  else
    let (m, count, t) ← s.terminal.read m buff
    some (m, count, { s with terminal := t })

end Tty

/-- What programs do at the terminal, with the keys that come while none of them reads. -/
inductive TerminalCall
  | puts (s : List UInt8) (stack : Nat → List UInt8)
  | printf (pfmt : List UInt8) (pap : List VaArg) (g : Garbage)
  | gets (inbs : List UInt8) (m : ByteMem) (buff : Nat)
  | keys (inbs : List UInt8)

/-- A call gives the bytes that it has read, if it reads. -/
def TerminalCall.run (s : Tty) : TerminalCall → Option (List (List UInt8) × Tty)
  | .puts str stack => (s.console.puts str stack).map fun c => ([], { s with console := c })
  | .printf pfmt pap g => (s.console.printf pfmt pap g).map fun c => ([], { s with console := c })
  | .gets inbs m buff => (s.gets inbs m buff).map fun (m, count, s) =>
      ([(List.range count).map fun i => m.load (buff + i)], s)
  | .keys inbs => (s.keymamas inbs).map ([], ·)

/-- The characters that the driver gives for a stream of scan codes, without the `#` of the keys
that give none. -/
def Keyboard.characters (k : Keyboard) : List UInt8 → List UInt8
  | [] => []
  | inb :: inbs =>
      if (k.getchar inb).2 = 35 then (k.getchar inb).1.characters inbs
      else (k.getchar inb).2 :: (k.getchar inb).1.characters inbs

/-! What the terminal is for -/

/-- Whether a Shift is pending behind a scan code: the press of another key uses it up, and a
release does nothing to it. -/
def shiftAfter (shift : Bool) (inb : UInt8) : Bool :=
  match checkIfSpecialKey inb with
  | some .shift => true
  | some .ctrl => shift
  | none => if 128 ≤ inb then shift else false

/-- The character of a press, in the upper row if a Shift is pending. -/
def pressedCharacter (shift : Bool) (inb : UInt8) : UInt8 :=
  if shift then scanCodeMap inb - 32 else scanCodeMap inb

/-- What the presses of a stream type. A release types nothing, nor does the press of Ctrl, Shift
or a key without a character. -/
def pressedCharacters : Bool → List UInt8 → List UInt8
  | _, [] => []
  | shift, inb :: inbs =>
      if 128 ≤ inb ∨ checkIfSpecialKey inb ≠ none ∨ pressedCharacter shift inb = 35 then
        pressedCharacters (shiftAfter shift inb) inbs
      else pressedCharacter shift inb :: pressedCharacters (shiftAfter shift inb) inbs

namespace TerminalCall

variable (shift : Bool)

/-- The scan codes that come during a call. -/
def inbs : TerminalCall → List UInt8
  | .puts _ _ | .printf _ _ _ => []
  | .gets inbs _ _ | .keys inbs => inbs

/-- Whether a Shift is pending behind a call. -/
def after (call : TerminalCall) : Bool := call.inbs.foldl shiftAfter shift

/-- The line of a read, with its deletions made and without its Enter. -/
def line (inbs : List UInt8) : List UInt8 := editLine (pressedCharacters shift inbs).dropLast

/-- What a call should type: a program its text, and a read its line and Enter. -/
def typed : TerminalCall → List (RollKey UInt8)
  | .puts s _ => typedString s
  | .printf pfmt pap _ => typedString (((rendered pfmt pap).getD []).takeWhile (· ≠ 0))
  | .gets inbs _ _ => (line shift inbs ++ [10]).map .char
  | .keys _ => []

/-- What a call should give to a program. -/
def lines : TerminalCall → List (List UInt8)
  | .gets inbs _ _ => [line shift inbs ++ [0]]
  | .puts _ _ | .printf _ _ _ | .keys _ => []

/-- Texts are ASCII, and fit the buffer of `printf`. A read ends with its first Enter, after at
most 12 rows. -/
def Fits : TerminalCall → Prop
  | .puts s _ => ∀ ch ∈ s, ch ≠ 0 ∧ ch < 128
  | .printf pfmt pap _ => ∃ text, rendered pfmt pap = some text ∧ text.length < argsSize ∧
      ∀ ch ∈ text, ch < 128
  | .gets inbs _ _ =>
      ∃ cs, pressedCharacters shift inbs = cs ++ [10] ∧ 10 ∉ cs ∧ cs.length ≤ 80 * 12
  | .keys _ => True

end TerminalCall

end Sbunix
