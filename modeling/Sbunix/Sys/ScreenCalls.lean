import Sbunix.Sys.Kprintf

/-!
# Writing to the screen

Sequences of calls that put something on the screen, and C `k_write` (`sys/syscall.c:1033-1045`)
with the terminal's `write` (`sys/terminal.c:44-49`).
-/

namespace Sbunix

/-- What writes on the screen: a call of the console or of `kprintf`. -/
inductive ScreenCall
  | flushCall (call : FlushCall)
  | kprintf (fmt : List UInt8) (args : List VaArg)

/-- The calls of the `flush` family that a call consists of. -/
def ScreenCall.flushCalls : ScreenCall → Option (List FlushCall)
  | .flushCall call => some [call]
  | .kprintf fmt args => kprintfCalls fmt args

/-- A call, undefined where its arguments or the end of a text are missing. -/
def ScreenCall.run (c : Console) (call : ScreenCall) : Option Console :=
  call.flushCalls.bind (runFlushCalls c)

/-- Other contents of one byte. -/
def Console.withByte (c : Console) (i : Nat) (v : UInt8) : Console :=
  { c with screen := Function.update c.screen i v }

/-- The call stores to a byte: some former contents of it do not survive. -/
def ScreenCall.Stores (call : ScreenCall) (c : Console) (i : Nat) : Prop :=
  ∃ v c', call.run (c.withByte i v) = some c' ∧ c'.screen i ≠ v

/-- Every call stores within the 24 lines of text and leaves `video` at the cell that `data_written`
counts. -/
def StaysInText : Console → List ScreenCall → Prop
  | _, [] => True
  | c, call :: calls => ∀ c', call.run c = some c' →
      (∀ i, call.Stores c i → i < 160 * 24) ∧ c'.video = 2 * c'.dataWritten ∧ StaysInText c' calls

/-- The bytes of a text that `flush` shows. -/
def firstLine (text : List UInt8) : List UInt8 := text.takeWhile fun ch => ch ≠ 0 ∧ ch ≠ 10

/-- The first line of a text does not reach behind the 24 lines from the cursor on, which moves up
first when these are full. -/
def FlushCall.Fits (c : Console) : FlushCall → Prop
  | .flush text | .flushcolor text =>
      c.checkForScroll.dataWritten + (firstLine text).length ≤ 80 * 24
  | _ => True

/-- Every call that is made fits. -/
def FlushCallsFit : Console → List FlushCall → Prop
  | _, [] => True
  | c, call :: calls => call.Fits c ∧ ∀ c', call.run c = some c' → FlushCallsFit c' calls

/-- Every text that the call flushes fits. -/
def ScreenCall.Fits (c : Console) (call : ScreenCall) : Prop :=
  ∀ flushCalls, call.flushCalls = some flushCalls → FlushCallsFit c flushCalls

/-- Each call of a sequence fits the console it meets. -/
def TextsFit : Console → List ScreenCall → Prop
  | _, [] => True
  | c, call :: calls => ∀ c', call.run c = some c' → call.Fits c ∧ TextsFit c' calls

/-- C `write` of the terminal. -/
def Console.write (c : Console) (text : List UInt8) (count : Nat) : Option (Console × Nat) :=
  (c.kprintfArgs [37, 115] [.text text]).map fun c => (c, count)

/-- The text `We dont support file pointers other than stdin stdout!!` and a new line. -/
def dontSupport : List UInt8 :=
  ("We dont support file pointers other than stdin stdout!!\n".toList).map Char.toUInt8

/-- C `k_write`; `text` is the bytes from the address of the buffer on. -/
def Console.kWrite (c : Console) (fd : Nat) (text : List UInt8) (count : Nat) :
    Option (Console × Nat) :=
  if fd = 1 then c.write text count else (c.kprintfArgs dontSupport []).map fun c => (c, 0)

/-- A move to the next row. -/
def Console.nextRow (c : Console) : Console :=
  { c with
    video := 2 * ((c.dataWritten / 80 + 1) * 80)
    dataWritten := (c.dataWritten / 80 + 1) * 80
    aligned := rfl }

/-- How a byte should be shown: with a scroll first when the 24 lines are full, a new line by a move
to the next row, and anything else as a character at the cursor. -/
def Console.showByte (c : Console) (b : UInt8) : Console :=
  if b = 10 then c.checkForScroll.nextRow else c.flushchar b

/-- The same text stands on the screen, with the cursor at the same place. -/
structure Console.SameText (c c' : Console) : Prop where
  cursor : c.dataWritten = c'.dataWritten
  scrolls : c.scrolls = c'.scrolls
  chars : ∀ q < 80 * 24, c.screen (2 * q) = c'.screen (2 * q)

/-- `k_write` of a buffer to descriptor 1 shows its bytes, returns their number, and depends on no
byte behind them. -/
def Console.WriteShows (c : Console) (bytes : List UInt8) : Prop :=
  ∃ c', (∀ rest, c.kWrite 1 (bytes ++ rest) bytes.length = some (c', bytes.length)) ∧
    c'.SameText (bytes.foldl showByte c)

/-- What `k_write` can show: one line with its new line, which ends neither at the start of a row
nor behind the 24 lines. -/
def Console.WriteFits (c : Console) (bytes : List UInt8) : Prop :=
  ∃ line, bytes = line ++ [10] ∧ 0 ∉ line ∧ 10 ∉ line ∧
    (c.checkForScroll.dataWritten + line.length) % 80 ≠ 0 ∧
    c.checkForScroll.dataWritten + line.length < 80 * 24

end Sbunix
