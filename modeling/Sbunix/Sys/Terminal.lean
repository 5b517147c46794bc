import Sbunix.Misc.ByteMemory
import Sbunix.Sys.KeyboardMap
import Sbunix.Sys.Kprintf

/-!
# The terminal

C `read`, `LocalEcho` and `tunnel` (`sys/terminal.c`), and what a line of input should be.
-/

namespace Sbunix

/-- The fields of C `struct terminal` for input, and `READMODEON`. -/
structure Terminal where
  stdin : Nat → UInt8
  stdinlength : Nat
  readmodeon : Bool

/-- `sizeof(stdin)`. -/
def stdinSize : Nat := 1024

namespace Terminal

/-- A store to `stdin[i]`; `none` past its end. -/
def setStdin (self : Terminal) (i : Nat) (c : UInt8) : Option Terminal :=
  if i < stdinSize then some { self with stdin := Function.update self.stdin i c } else none

/-- What `tunnel` does with a character behind the echo (lines 94-109). -/
def takeChar (self : Terminal) (c : UInt8) : Option Terminal :=
  if c = 10 then
    (setStdin { self with readmodeon := false } self.stdinlength 0).map fun t =>
      { t with stdinlength := t.stdinlength + 1 }
  else if c = 45 then
    (self.setStdin self.stdinlength 32).map fun t => { t with stdinlength := t.stdinlength - 1 }
  else
    (self.setStdin self.stdinlength c).map fun t => { t with stdinlength := t.stdinlength + 1 }

/-- The conversion of a `char` to `uint64_t`. -/
def charToUint64 (c : UInt8) : Nat := if c < 128 then c.toNat else 2 ^ 64 - 256 + c.toNat

/-- The loop of `read` that hands `n` characters over, with a store of eight bytes for each. -/
def handOver (stdin : Nat → UInt8) (addr : Nat) : Nat → ByteMem → ByteMem
  | 0, m => m
  | n + 1, m => (handOver stdin addr n m).storeNumber (addr + n) (charToUint64 (stdin n)) 8

/-- C `read` behind its wait: the memory, the count that it returns, and the terminal. It is `none`
when a character past the end of `stdin` is read. -/
def read (self : Terminal) (m : ByteMem) (addr : Nat) : Option (ByteMem × Nat × Terminal) :=
  if self.stdinlength ≤ stdinSize then
    some (handOver self.stdin addr self.stdinlength m, self.stdinlength,
      { self with
        stdin := fun i => if i < 1024 then 32 else self.stdin i
        stdinlength := 0 })
  else none

end Terminal

/-- The devices that `tunnel` works on. -/
structure Tty where
  console : Console
  keyboard : Keyboard
  terminal : Terminal

namespace Tty

/-- The text `Cant support more than 1024 characters!` and a new line. -/
def cantSupport : List UInt8 :=
  [67, 97, 110, 116, 32, 115, 117, 112, 112, 111, 114, 116, 32, 109, 111, 114, 101, 32, 116, 104,
    97, 110, 32, 49, 48, 50, 52, 32, 99, 104, 97, 114, 97, 99, 116, 101, 114, 115, 33, 10]

/-- C `LocalEcho`. -/
def localEcho (s : Tty) (c : UInt8) : Tty :=
  if s.keyboard.ctrlKey then
    { s with
      keyboard := { s.keyboard with ctrlKey := false }
      console := s.console.flushchar c }
  else if c = 45 then { s with console := s.console.flushbackspace }
  else { s with console := s.console.flushchar c }

/-- Lines 91 to 109 of `tunnel`. -/
def echoAndTake (s : Tty) (c : UInt8) : Option Tty :=
  let s := s.localEcho c
  (s.terminal.takeChar c).map fun t => { s with terminal := t }

/-- C `tunnel` for the character that `getchar` gave. At the limit it ends the read and goes on as
for any other character. -/
def tunnel (s : Tty) (c : UInt8) : Option Tty :=
  let self := s.terminal
  if c ≠ 35 then
    if self.readmodeon = false then some s
    else if 1022 ≤ self.stdinlength then
      (self.setStdin self.stdinlength 0).bind fun t =>
        echoAndTake
          { s with
            console := s.console.kprintf cantSupport
            terminal := { t with readmodeon := false } } c
    else if self.stdinlength = 0 ∧ c = 45 then some s
    else s.echoAndTake c
  else some s

/-- The interrupt of a key, with the byte of port `0x60`. -/
def keymama (s : Tty) (inb : UInt8) : Option Tty :=
  let (keyboard, c) := s.keyboard.getchar inb
  tunnel { s with keyboard := keyboard } c

end Tty

/-- The terminal when `read` begins to wait. -/
def waiting (stdin : Nat → UInt8) : Terminal := ⟨stdin, 0, true⟩

/-- The terminals that characters lead to during one read, whatever the other devices do
meanwhile. -/
inductive Delivered (start : Terminal) : List UInt8 → Terminal → Prop
  | nil : Delivered start [] start
  | concat {cs : List UInt8} {c : UInt8} {t : Terminal} {console : Console} {keyboard : Keyboard}
      {s : Tty} : Delivered start cs t → t.readmodeon = true →
      Tty.tunnel ⟨console, keyboard, t⟩ c = some s → Delivered start (cs ++ [c]) s.terminal

/-- The line that characters make: `-` deletes the last one. -/
def editLine (cs : List UInt8) : List UInt8 :=
  cs.foldl (fun line c => if c = 45 then line.dropLast else line ++ [c]) []

/-- What `read` hands over when it ends: the line of the characters but Enter, and a NUL. -/
def HandsOverLine (t : Terminal) (cs : List UInt8) (m : ByteMem) (addr : Nat) : Prop :=
  ∃ m' count t', t.read m addr = some (m', count, t') ∧
    (List.range count).map (fun i => m'.load (addr + i)) = editLine (cs.filter (· ≠ 10)) ++ [0]

/-- The screen from the position where the read began, `start` cells with those that have been
scrolled away, up to the cursor shows what is in the buffer. -/
def Tty.Shows (start : Nat) (s : Tty) : Prop :=
  ∃ p, p + 80 * 12 * s.console.scrolls = start ∧
    s.console.video = 2 * (p + s.terminal.stdinlength) ∧
    ∀ i < s.terminal.stdinlength, s.console.screen (2 * (p + i)) = s.terminal.stdin i

/-- The screen shows the buffer now, and after each key until the read ends. -/
def Tty.AlwaysShows (start : Nat) : Tty → List UInt8 → Prop
  | s, [] => s.Shows start
  | s, inb :: inbs => s.Shows start ∧
      ∀ s', s.keymama inb = some s' → s'.terminal.readmodeon = true → s'.AlwaysShows start inbs

/-- What keeps echo and buffer in step at a key that does not end the read: a `-` that deletes
comes without Ctrl, and a character that needs a scroll stands right behind the 24th line, with a
line of input that began in the lower 12. -/
def Tty.EchoFits (s : Tty) (inb : UInt8) : Prop :=
  let (keyboard, c) := s.keyboard.getchar inb
  c ≠ 35 → c ≠ 10 → s.terminal.stdinlength < 1022 →
    (c = 45 → s.terminal.stdinlength ≠ 0 → keyboard.ctrlKey = false) ∧
    (c ≠ 45 → 80 * 24 ≤ s.console.dataWritten →
      s.console.dataWritten = 80 * 24 ∧ s.terminal.stdinlength ≤ 80 * 12)

/-- Every key until the read ends fits. -/
def Tty.AllEchoFit : Tty → List UInt8 → Prop
  | _, [] => True
  | s, inb :: inbs => s.EchoFits inb ∧
      ∀ s', s.keymama inb = some s' → s'.terminal.readmodeon = true → s'.AllEchoFit inbs

/-- The states that a stream of scan codes leads to from a keyboard without a Shift press. Between
two keys anything may happen to the screen and the terminal: processes write, reads begin and
end. -/
inductive Keyed : List UInt8 → Tty → Prop
  | start {s : Tty} : s.keyboard.shiftKey = false → Keyed [] s
  | key {inbs : List UInt8} {inb : UInt8} {s s' : Tty} :
      Keyed inbs s → s.keymama inb = some s' → Keyed (inbs ++ [inb]) s'
  | elsewhere {inbs : List UInt8} {s : Tty} (console : Console) (terminal : Terminal) :
      Keyed inbs s → Keyed inbs { s with console := console, terminal := terminal }

/-- What the keys of a stream should do: a release gives `#` and leaves the line alone, and the
press of a Shift key does not change the character of any press behind the next ordinary one. -/
structure ReleasesTypeNothing (inbs : List UInt8) : Prop where
  silent : ∀ before inb after, inbs = before ++ inb :: after → IsRelease inb →
    ∀ s, Keyed before s → (s.keyboard.getchar inb).2 = 35 ∧
      (s.keymama inb).map Tty.terminal = some s.terminal
  shift : ∀ before inb between key after,
    inbs = before ++ inb :: (between ++ key :: after) → checkIfSpecialKey inb = some .shift →
      IsOrdinary key → (∃ next ∈ between, IsOrdinary next) →
        ((Keyboard.after ⟨false, false⟩ (before ++ inb :: between)).getchar key).2 =
          ((Keyboard.after ⟨false, false⟩ (before ++ between)).getchar key).2

end Sbunix
