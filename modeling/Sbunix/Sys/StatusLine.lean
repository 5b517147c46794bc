import Sbunix.Sys.ScreenCalls
import Sbunix.Sys.Sleep
import Sbunix.Sys.Terminal

/-!
# The status line

C `flushtime` (`sys/kprintf.c:43-74`), which puts the seconds into the line behind the text, called
by `timemama` (`sys/yomama.c:51-65`) between whatever else reaches the screen: calls of processes
and of the kernel, keys, and the two ends of a `read`.
-/

namespace Sbunix

/-- The text `BOOT TIME: `, the array `secStr`. -/
def secStr : List UInt8 := [66, 79, 79, 84, 32, 84, 73, 77, 69, 58, 32]

/-- Where `timeArea` points first. -/
def timeAreaStart : Nat := 160 * 24 + 88

/-- Characters with the colour 7 from `timeArea` on: the pointer behind them and the screen. -/
def writeCells : List UInt8 → Nat → (Nat → UInt8) → Nat × (Nat → UInt8)
  | [], timeArea, screen => (timeArea, screen)
  | ch :: str, timeArea, screen =>
      writeCells str (timeArea + 2)
        (Function.update (Function.update screen timeArea ch) (timeArea + 1) 7)

/-- C `flushtime`; `str` is what its local array holds before. -/
def Console.flushtime (c : Console) (seconds : Int32) (str : Nat → UInt8) : Console :=
  let (i, str) := intDigits seconds.toInt 0 str
  let (timeArea, screen) := writeCells secStr timeAreaStart c.screen
  { c with screen := (writeCells (firstLine (turnedAround i str)) timeArea screen).2 }

/-- The terminal and the clock, which write on one screen. -/
structure Display where
  tty : Tty
  clock : Clock

/-- C `timemama` with what it draws. -/
def Display.timemama (d : Display) (str : Nat → UInt8) : Display :=
  let clock := d.clock.timemama
  if d.clock.fracTime + 50 = 1000 then
    { tty := { d.tty with console := d.tty.console.flushtime clock.timeInSec str }, clock }
  else { d with clock }

/-- The steps of a display: those of the terminal, and the interrupt of the timer. -/
inductive DisplayLabel
  | call (call : ScreenCall)
  | key (inb : UInt8)
  /-- `read` begins to wait (`sys/terminal.c:14`). -/
  | readBegins
  | readEnds (m : ByteMem) (addr : Nat)
  | timer (str : Nat → UInt8)

/-- The step is an interrupt of the timer. -/
def DisplayLabel.isTimer : DisplayLabel → Bool
  | .timer _ => true
  | .call _ | .key _ | .readBegins | .readEnds _ _ => false

namespace Tty

/-- What the labels but the timer's do. -/
def step (s : Tty) : DisplayLabel → Option Tty
  | .call call => (call.run s.console).map fun console => { s with console }
  | .key inb => s.keymama inb
  | .readBegins => some { s with terminal := { s.terminal with readmodeon := true } }
  | .readEnds m addr =>
      if s.terminal.readmodeon then none
      else (s.terminal.read m addr).map fun r => { s with terminal := r.2.2 }
  | .timer _ => some s

/-- The texts of a call fit. -/
def Fits (s : Tty) : DisplayLabel → Prop
  | .call call => call.Fits s.console
  | .key _ | .readBegins | .readEnds _ _ | .timer _ => True

/-- Every text on the way fits. -/
def AllFit : Tty → List DisplayLabel → Prop
  | _, [] => True
  | s, l :: ls => s.Fits l ∧ ∀ s', s.step l = some s' → AllFit s' ls

end Tty

/-- One step of a display. -/
def Display.step (l : DisplayLabel) (d : Display) : Option Display :=
  match l with
  | .timer str => some (d.timemama str)
  | .call _ | .key _ | .readBegins | .readEnds _ _ => (d.tty.step l).map fun tty => { d with tty }

/-- What the status line should say after a number of timer interrupts. -/
def clockText (ticks : Nat) : List UInt8 :=
  if ticks < 20 then [] else secStr ++ numeral 10 (ticks / 20)

/-- The screen with a text in the cells from an address on, in the colour 7. -/
def withCells (screen : Nat → UInt8) (p : Nat) (text : List UInt8) : Nat → UInt8 :=
  fun i =>
    if p ≤ i ∧ i < p + 2 * text.length then if (i - p) % 2 = 0 then text.getD ((i - p) / 2) 0 else 7
    else screen i

/-- A text in the status line. -/
def Console.showing (c : Console) (text : List UInt8) : Console :=
  { c with screen := withCells c.screen timeAreaStart text }

/-- The terminal with another status line. -/
def Tty.showing (s : Tty) (text : List UInt8) : Tty :=
  { s with console := s.console.showing text }

end Sbunix
