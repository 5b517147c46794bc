import Sbunix.Sys.Archive
import Sbunix.Sys.Dirs
import Sbunix.Sys.Files
import Sbunix.Sys.Output

/-!
# The programs `cat` and `ls`

C `main` of `bin/cat/cat.c` and `bin/ls/ls.c`, for a path in `argv[1]`, with the system calls that
they make and what the kernel itself writes to the screen.
-/

namespace Sbunix

/-- The text `No Such File!`, between two new lines (`sys/syscall.c:954`). -/
def noSuchFile : List UInt8 :=
  [10, 78, 111, 32, 83, 117, 99, 104, 32, 70, 105, 108, 101, 33, 10]

/-- The text `We dont support opening more than 20 files!`, between two new lines
(`sys/syscall.c:971`). -/
def tooManyFiles : List UInt8 :=
  [10, 87, 101, 32, 100, 111, 110, 116, 32, 115, 117, 112, 112, 111, 114, 116, 32, 111, 112, 101,
    110, 105, 110, 103, 32, 109, 111, 114, 101, 32, 116, 104, 97, 110, 32, 50, 48, 32, 102, 105,
    108, 101, 115, 33, 10]

/-- The text `file doesn't exist`. -/
def fileDoesntExist : List UInt8 :=
  [102, 105, 108, 101, 32, 100, 111, 101, 115, 110, 39, 116, 32, 101, 120, 105, 115, 116]

/-- The text `Cannot open directory ` and a new line. -/
def cannotOpenDirectory : List UInt8 :=
  [67, 97, 110, 110, 111, 116, 32, 111, 112, 101, 110, 32, 100, 105, 114, 101, 99, 116, 111, 114,
    121, 32, 10]

/-- What C `k_open` writes when it gives no descriptor. -/
def openError (s : InodeTree) (filePath : List UInt8) : List UInt8 :=
  match s.getInode filePath with
  | none => noSuchFile
  | some query => if s.isDir query then noSuchFile else tooManyFiles

/-- C `open` (`libc/unistd.c:80-98`), as `fopen` calls it. -/
def Console.openFile (c : Console) (s : InodeTree) (p : Pcb) (path : List UInt8) :
    Option (Console × Pcb × Int) :=
  let (f, p') := kOpen s p path
  if f = fileError then (c.kprintfArgs (openError s path) []).map fun c => (c, p', toInt32 f)
  else some (c, p', toInt32 f)

/-- Memory of a program after stores. -/
def applyStores (m : Nat → UInt8) (stores : List (Nat × UInt8)) : Nat → UInt8 :=
  stores.foldl (fun m s => Function.update m s.1 s.2) m

/-- The loop of `cat`: one `printf` for each character. -/
def printChars (g : Nat → Garbage) : List UInt8 → Nat → Console → Option Console
  | [], _, c => some c
  | ch :: chs, i, c =>
      (c.printf [37, 99] [.int (Int32.ofInt (charToInt ch))] (g i)).bind (printChars g chs (i + 1))

/-- What a program finds: memory, the address that `malloc` gives, what the stack and the local
arrays hold in each call, and the upper half of the register with the descriptor, which `read` loads
from eight bytes of an `int`. -/
structure ProgramState where
  user : Nat → UInt8
  buff : Nat
  stack : Nat → List UInt8
  garbage : Nat → Garbage
  upper : Nat

/-- C `main` of `cat`: the screen, the PCB and what it returns. -/
def catMain (mem : Nat → UInt8) (s : InodeTree) (u : ProgramState) (p : Pcb) (path : List UInt8)
    (c : Console) : Option (Console × Pcb × Int) := do
  let (c, p, fd) ← c.openFile s p path
  if fd < 0 then
    let c ← c.puts fileDoesntExist u.stack
    some (c, p, -1)
  else
    match kRead mem s p (fd.toNat + 2 ^ 32 * u.upper) u.buff 4096 with
    | .done readCount p stores =>
        let user := applyStores u.user stores
        let c ← c.puts [10] u.stack
        let c ← printChars u.garbage
          ((List.range readCount).map fun i => user ((u.buff + i) % 2 ^ 64)) 0 c
        some (c, p, 0)
    | .wild _ | .null _ => none

/-- The loop of `ls`; `none` where `fuel` runs out. -/
def lsLoop (tree : InodeTree) (stack : Nat → List UInt8) (pDir : Nat) :
    Nat → DirState → Console → Option (DirState × Console)
  | 0, _, _ => none
  | fuel + 1, s, c =>
      match s.kReaddir tree pDir with
      | none => none
      | some (s, none) => some (s, c)
      | some (s, some name) => do
          let c ← c.puts name stack
          let c ← c.puts [10] stack
          lsLoop tree stack pDir fuel s c

/-- C `main` of `ls`. -/
def lsMain (tree : InodeTree) (stack : Nat → List UInt8) (fuel : Nat) (queryPath : List UInt8)
    (s : DirState) (c : Console) : Option (DirState × Console × Int) := do
  let (s, pDir) ← s.kOpendir tree queryPath
  if pDir = 0 then
    let c ← c.puts cannotOpenDirectory stack
    some (s, c, 1)
  else
    let c ← c.puts [10] stack
    let (s, c) ← lsLoop tree stack pDir fuel s c
    some (s.kClosedir pDir, c, 1)

/-! What the programs are for -/

/-- The file that a path names. -/
def fileAt (ms : List Member) (path : List UInt8) : Option Member :=
  ms.find? fun m => decide (m.path = components 47 path ∧ m.type = .file)

/-- The path names a directory of the archive or its root. -/
def NamesDir (ms : List Member) (path : List UInt8) : Prop :=
  components 47 path = [] ∨ ∃ m ∈ ms, m.path = components 47 path ∧ m.type = .dir

/-- Bytes that the screen can show as they are. -/
def Ascii (s : List UInt8) : Prop := ∀ ch ∈ s, ch < 128

/-- The bytes of a member. -/
def Member.bytes (m : Member) (mem : Nat → UInt8) : List UInt8 :=
  (List.range (m.stop - m.start)).map fun k => mem (m.start + k)

/-- What `cat` reads of the file is ASCII, and not at the very end of the address space. -/
structure Member.Readable (m : Member) (mem : Nat → UInt8) : Prop where
  ascii : Ascii ((m.bytes mem).take 4096)
  below : m.start + 4096 < 2 ^ 64

/-- What `cat` should show: on a new row the beginning of the file, without any NULs in it. -/
def catText (mem : Nat → UInt8) : Option Member → List UInt8
  | some m => 10 :: ((m.bytes mem).take 4096).filter (· ≠ 0)
  | none => noSuchFile ++ fileDoesntExist

/-- What `main` of `cat` returns. -/
def catStatus : Option Member → Int
  | some _ => 0
  | none => -1

instance (ms : List Member) (path : List UInt8) : Decidable (NamesDir ms path) :=
  inferInstanceAs (Decidable (_ ∨ _))

/-- What `ls` should show: the entries of the directory, each on a row of its own. -/
def lsText (ms : List Member) (path : List UInt8) : List UInt8 :=
  if NamesDir ms path then 10 :: (namesIn ms (components 47 path)).flatMap (· ++ [10])
  else cannotOpenDirectory

end Sbunix
