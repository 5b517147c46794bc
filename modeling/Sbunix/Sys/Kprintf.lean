import Mathlib.Logic.Function.Basic
import Sbunix.Sys.PrintNumber

/-!
# The screen

C `checkForScroll`, `flushbackspace`, `flush`, `flushchar`, `flushcolor`, `flushNewLine` and
`kprintf` (`sys/kprintf.c:76-312`).  The last of the 25 lines of 80 cells is for the clock and the
last key.
-/

namespace Sbunix

/-- Video memory from `videostart` on, with two bytes a cell. `video` is relative to `videostart`,
and the functions move it along with `data_written`. `scrolls` counts how often the text has moved
up by 12 lines. -/
structure Console where
  screen : Nat → UInt8
  video : Nat
  dataWritten : Nat
  scrolls : Nat
  aligned : video = 2 * dataWritten

namespace Console

/-- C `checkForScroll`. -/
def checkForScroll (c : Console) : Console :=
  if 80 * 24 ≤ c.dataWritten then
    { screen := fun i =>
        if i < 160 * 12 then c.screen (i + 160 * 12)
        else if i < 160 * 24 then (if i % 2 = 0 then 32 else 7)
        else c.screen i
      video := 160 * 12
      dataWritten := 80 * 12
      scrolls := c.scrolls + 1
      aligned := rfl }
  else c

/-- C `flushbackspace`. -/
def flushbackspace (c : Console) : Console :=
  if c.dataWritten = 0 then c
  else
    { screen := Function.update (Function.update c.screen (c.video - 2) 32) (c.video - 1) 7
      video := c.video - 2
      dataWritten := c.dataWritten - 1
      scrolls := c.scrolls
      aligned := by rw [c.aligned, Nat.mul_sub] }

/-- C `flushchar`. -/
def flushchar (c : Console) (ch : UInt8) : Console :=
  let c := c.checkForScroll
  { screen := Function.update (Function.update c.screen c.video ch) (c.video + 1) 7
    video := c.video + 2
    dataWritten := c.dataWritten + 1
    scrolls := c.scrolls
    aligned := by rw [c.aligned, Nat.mul_succ] }

/-- The loop of `flushNewLine` to the next line, at most 79 cells away. -/
def newLineLoop : Nat → Console → Console
  | 0, c => c
  | n + 1, c =>
      if c.dataWritten % 80 ≠ 0 then
        newLineLoop n
          { screen := Function.update c.screen (c.video + 1) 7
            video := c.video + 2
            dataWritten := c.dataWritten + 1
            scrolls := c.scrolls
            aligned := by rw [c.aligned, Nat.mul_succ] }
      else c

/-- C `flushNewLine`. -/
def flushNewLine (c : Console) : Console := newLineLoop 79 c.checkForScroll

/-- C `kprintf` on a text without `%`. -/
def kprintf (c : Console) (fmt : List UInt8) : Console :=
  fmt.foldl (fun c ch => if ch = 10 then c.flushNewLine else c.flushchar ch) c

/-- The two bytes of a cell at the cursor. -/
def putCell (c : Console) (ch colour : UInt8) : Console :=
  { screen := Function.update (Function.update c.screen c.video ch) (c.video + 1) colour
    video := c.video + 2
    dataWritten := c.dataWritten + 1
    scrolls := c.scrolls
    aligned := by rw [c.aligned, Nat.mul_succ] }

/-- The loop of `flush` to the next line, which leaves the cells alone. -/
def skipLoop : Nat → Console → Console
  | 0, c => c
  | n + 1, c =>
      if c.dataWritten % 80 ≠ 0 then
        skipLoop n
          { screen := c.screen
            video := c.video + 2
            dataWritten := c.dataWritten + 1
            scrolls := c.scrolls
            aligned := by rw [c.aligned, Nat.mul_succ] }
      else c

/-- The loops of `flush` and `flushcolor` over the bytes that `text` points to. It is `none` when a
byte behind these is read. -/
def flushLoop (colour : UInt8) : List UInt8 → Console → Option Console
  | [], _ => none
  | ch :: text, c =>
      if ch = 0 then some c
      else if ch = 10 then some (skipLoop 79 c)
      else flushLoop colour text (c.putCell ch colour)

/-- C `flush`. -/
def flush (c : Console) (text : List UInt8) : Option Console := flushLoop 7 text c.checkForScroll

/-- C `flushcolor`. -/
def flushcolor (c : Console) (text : List UInt8) : Option Console :=
  flushLoop 3 text c.checkForScroll

end Console

/-- An argument of `kprintf`. A text is the bytes from its address on. -/
inductive VaArg
  | text (s : List UInt8)
  | int (d : Int32)
  | address (n : UInt64)

/-- The calls that put something on the screen, `kprintf` apart. -/
inductive FlushCall
  | flush (text : List UInt8)
  | flushcolor (text : List UInt8)
  | flushchar (ch : UInt8)
  | flushbackspace
  | flushNewLine

/-- One call of the console. -/
def FlushCall.run (c : Console) : FlushCall → Option Console
  | .flush text => c.flush text
  | .flushcolor text => c.flushcolor text
  | .flushchar ch => some (c.flushchar ch)
  | .flushbackspace => some c.flushbackspace
  | .flushNewLine => some c.flushNewLine

/-- The calls one after another. -/
def runFlushCalls : Console → List FlushCall → Option Console
  | c, [] => some c
  | c, call :: calls => (call.run c).bind (runFlushCalls · calls)

/-- The call of C `flushint`; the local array does not matter. -/
def flushintCalls (text : Int) : List FlushCall := [.flush (flushint text (fun _ => 0) ++ [0])]

/-- The calls of C `flushhex`. -/
def flushhexCalls (num : UInt64) : List FlushCall :=
  [.flush [48, 120, 0], .flush (flushhex num (fun _ => 0) ++ [0])]

/-- The calls that the loop of C `kprintf` makes. An argument that is missing or of another type
leaves it undefined. -/
def kprintfCalls : List UInt8 → List VaArg → Option (List FlushCall)
  | [], _ => some []
  | [ch], _ => some (if ch = 0 then [] else if ch = 10 then [.flushNewLine] else [.flushchar ch])
  | ch :: nextch :: fmt, args =>
      if ch = 0 then some []
      else if ch = 10 then (kprintfCalls (nextch :: fmt) args).map (.flushNewLine :: ·)
      else if ch = 37 ∧ nextch = 115 then
        match args with
        | .text s :: args => (kprintfCalls fmt args).map (.flush s :: ·)
        | _ => none
      else if ch = 37 ∧ nextch = 99 then
        match args with
        | .int d :: args => (kprintfCalls fmt args).map (.flushchar (UInt8.ofInt d.toInt) :: ·)
        | _ => none
      else if ch = 37 ∧ nextch = 100 then
        match args with
        | .int d :: args => (kprintfCalls fmt args).map (flushintCalls d.toInt ++ ·)
        | _ => none
      else if ch = 37 ∧ nextch = 120 then
        match args with
        | .int d :: args => (kprintfCalls fmt args).map (flushhexCalls (UInt64.ofInt d.toInt) ++ ·)
        | _ => none
      else if ch = 37 ∧ nextch = 112 then
        match args with
        | .address n :: args => (kprintfCalls fmt args).map (flushhexCalls n ++ ·)
        | _ => none
      else (kprintfCalls (nextch :: fmt) args).map (.flushchar ch :: ·)

/-- C `kprintf`. -/
def Console.kprintfArgs (c : Console) (fmt : List UInt8) (args : List VaArg) : Option Console :=
  (kprintfCalls fmt args).bind (runFlushCalls c)

end Sbunix
