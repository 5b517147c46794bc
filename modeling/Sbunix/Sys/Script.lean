import Sbunix.Misc.Lines
import Sbunix.Sys.Files
import Sbunix.Sys.PathSearch

/-!
# Scripts

The shell's `ExecuteAbsBinary` (`bin/sbush/ExecuteShell.c:165-275`) and `fgetc`
(`libc/unistd.c:121-149`).  `getargs` gives its argument back, so `Execute` gets the text in `cmd`.
-/

namespace Sbunix

/-- C `fgetc`, through an open descriptor. -/
def fgetc (mem : Nat → UInt8) (tree : InodeTree) (p : Pcb) (fd buff : Nat) : UInt8 × Pcb :=
  match kRead mem tree p fd buff 1 with
  | .done readCount p stores =>
      let ch := (stores.map Prod.snd).headD 0
      (if readCount ≠ 0 then ch else 0, p)
  | _ => (0, p)

/-- C `fopen` with the mode `"r"`. -/
def fopen (tree : InodeTree) (p : Pcb) (path : List UInt8) : Option (Nat × Pcb) :=
  let (fd, p) := kOpen tree p path
  if fd = fileError then none else some (fd, p)

/-- C `fclose`. -/
def fclose (p : Pcb) (fd : Nat) : Pcb :=
  match kClose p fd with
  | .done _ p _ => p
  | _ => p

/-- `#!rootfs/bin/sbush`. -/
def shebang : List UInt8 :=
  [35, 33, 114, 111, 111, 116, 102, 115, 47, 98, 105, 110, 47, 115, 98, 117, 115, 104]

/-- The first loop of `ExecuteAbsBinary`: the string `compare`. -/
def compareLoop (mem : Nat → UInt8) (tree : InodeTree) (fd buff : Nat) :
    Nat → Pcb → List UInt8 × Pcb
  | 0, p => ([], p)
  | n + 1, p =>
      let (c, p) := fgetc mem tree p fd buff
      if c = 10 ∨ c = 0 then ([], p)
      else
        let (rest, p) := compareLoop mem tree fd buff n p
        (c :: rest, p)

/-- The local variables of `ExecuteAbsBinary`, with the memory around `cmd`, what `Execute` was
called with, and the indices of `cmd` that were stored to. -/
structure Script where
  cmd : Int → UInt8
  k : Nat
  t : Bool
  calls : List (List UInt8)
  stores : List Int

namespace Script

/-- A store to `cmd`, and the index it went to. -/
def store (s : Script) (i : Int) (c : UInt8) : Script :=
  { s with cmd := Function.update s.cmd i c, stores := s.stores ++ [i] }

/-- The `'\n'` branch of the loop. -/
def endLine (s : Script) : Script :=
  let s := s.store (s.k - 1) 0
  let s := if s.t = false ∧ 0 < s.k then
      { s with calls := s.calls ++ [cString (fun i => s.cmd i) s.k 0] }
    else s
  { s with k := 0, t := false }

/-- One turn of the loop. -/
def turn (s : Script) (c : UInt8) : Script :=
  let s := if c = 35 then { s with t := true } else s
  if c = 10 then s.endLine
  else if s.t = false then { s.store s.k c with k := s.k + 1 }
  else s

end Script

/-- The second loop, with `turns` left: it ends when `fgetc` gives 0. `Execute` leaves the file
alone. -/
def scriptLoop (mem : Nat → UInt8) (tree : InodeTree) (fd buff : Nat) :
    Nat → Pcb → Script → Option (Script × Pcb)
  | 0, _, _ => none
  | turns + 1, p, s =>
      let (c, p) := fgetc mem tree p fd buff
      if c = 0 then some (s, p) else scriptLoop mem tree fd buff turns p (s.turn c)

/-- C `ExecuteAbsBinary`; `buff` is what `malloc` gives to `fgetc`. `none` is a second loop that
has not ended after `turns` characters, or a second `fopen` that fails, which nothing tests. -/
def executeAbsBinary (mem : Nat → UInt8) (tree : InodeTree) (p : Pcb) (buff turns : Nat)
    (currentDir path : List UInt8) (cmd : Int → UInt8) : Option (Int × Script × Pcb) :=
  let s : Script := ⟨cmd, 0, false, [], []⟩
  let dir := currentDir ++ path.drop 2
  match fopen tree p dir with
  | none => some (-1, s, p)
  | some (script, p) =>
      let (compare, p) := compareLoop mem tree script buff 18 p
      let p := fclose p script
      if strncmp compare shebang 18 = 0 then
        match fopen tree p dir with
        | none => none
        | some (fp, p) =>
            (scriptLoop mem tree fp buff turns p s).map fun (s, p) => (1, s, fclose p fp)
      else some (-1, s, p)

/-- The text of a line that `'\n'` ends. -/
def lineText (line : List UInt8) : List UInt8 :=
  if line.getLast? = some 13 then line.dropLast else line

/-- The lines of a file, without their ends. -/
def scriptLines (file : List UInt8) : List (List UInt8) :=
  (endedLines 10 file).map lineText ++ [lastLine 10 file]

/-- The line is not empty and does not begin with `#`. -/
def IsCommand (line : List UInt8) : Prop := line ≠ [] ∧ line.head? ≠ some 35

instance (line : List UInt8) : Decidable (IsCommand line) :=
  inferInstanceAs (Decidable (_ ∧ _))

/-- The lines of a script that are commands. -/
def scriptCommands (file : List UInt8) : List (List UInt8) :=
  (scriptLines file).filter fun line => decide (IsCommand line)

/-- A file that the shell takes for a script: the right first line, and no line too long. -/
structure IsScript (file : List UInt8) : Prop where
  noNul : 0 ∉ file
  first : (scriptLines file).head? = some shebang
  short : ∀ line ∈ scriptLines file, line.length < 100

/-- `Execute` is called for the commands, and no store is outside `cmd[0..99]`. -/
def Script.RunsLines (s : Script) (file : List UInt8) : Prop :=
  s.calls = scriptCommands file ∧ ∀ i ∈ s.stores, 0 ≤ i ∧ i < 100

/-- The lines for which the loop calls `Execute` as it should: empty ones, comments, and commands
without a `#` that end with `"\r\n"`. -/
def RunsAsWritten (line : List UInt8) : Prop :=
  line = [] ∨ line.head? = some 35 ∨
    ∃ text, line = text ++ [13] ∧ text ≠ [] ∧ 35 ∉ text

end Sbunix
