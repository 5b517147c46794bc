import Sbunix.Misc.Bytes

/-!
# The inode tree of the archive

C `sys/vfs.c` (`findFamily`, `appendToFamily`, `InsertIntoRoot`, `init_tarfs`, `GetInode`)
with `strncmp` and `mystrtok` of `sys/Utils/kstring.c` and `oct_to_dec` of `sys/tarfs.c`.  A
string is the list of its characters before the NUL.
-/

namespace Sbunix

/-- C `strncmp` (`kstring.c:4-18`): 0 or -1, and a string that ends within `n` differs. -/
def strncmp : List UInt8 → List UInt8 → Nat → Int
  | _, _, 0 => 0
  | c :: s1, d :: s2, n + 1 => if c ≠ d then -1 else strncmp s1 s2 n
  | _, _, _ + 1 => -1

/-- The loop of `mystrtok` from index `i` on, with `start` once it has found it: gives `start`
and the index it stops at. -/
def mystrtokLoop (delim : UInt8) : List UInt8 → Nat → Option Nat → Option Nat × Nat
  | [], i, start => (start, i)
  | c :: cs, i, none => mystrtokLoop delim cs (i + 1) (if c ≠ delim then some i else none)
  | c :: cs, i, some start =>
      if c = delim then (some start, i) else mystrtokLoop delim cs (i + 1) (some start)

/-- C `mystrtok` (`kstring.c:32-69`): the next token and the new `*pos`. -/
def mystrtok (str : List UInt8) (delim : UInt8) (pos : Nat) : Option (List UInt8 × Nat) :=
  match mystrtokLoop delim (str.drop pos) pos none with
  | (none, _) => none
  | (some start, i) => some ((str.drop start).take (i - start), i)

/-- C `DIRECTORY` and `FILE`. -/
inductive InodeType
  | dir
  | file
  deriving DecidableEq, Repr

/-- C `inode` (`vfs.h:14-21`). `family` is the filled part of the array, the parent first. -/
structure Inode where
  start : Nat
  stop : Nat
  family : List Nat
  type : Option InodeType
  inodeName : List UInt8

/-- The length of `family`. -/
def maxFamily : Nat := 10

/-- The inodes that `kmalloc` has given so far; `root_inode` is the first. -/
structure InodeTree where
  inode : Nat → Inode
  count : Nat

/-- The loop of `findFamily` over the children, the first at index `i`. -/
def InodeTree.findFrom (s : InodeTree) (token : List UInt8) : List Nat → Nat → Nat
  | [], _ => 0
  | k :: ks, i =>
      if strncmp (s.inode k).inodeName token token.length = 0 then i
      else s.findFrom token ks (i + 1)

/-- C `findFamily` (`vfs.c:71-80`), called with the token's length. -/
def InodeTree.findFamily (s : InodeTree) (node : Nat) (token : List UInt8) : Nat :=
  s.findFrom token ((s.inode node).family.drop 1) 1

/-- C `appendToFamily` (`vfs.c:82-108`). The index comes back as an `int`. -/
def InodeTree.appendToFamily (s : InodeTree) (parentInode : Nat) (token : List UInt8)
    (start stop : Nat) (type : InodeType) : InodeTree × Int :=
  let parent := s.inode parentInode
  if maxFamily ≤ parent.family.length then (s, -1)
  else
    let newNode : Inode := ⟨start, stop, [parentInode], some type, token⟩
    let inode := Function.update s.inode s.count newNode
    ({ inode := Function.update inode parentInode
          { parent with family := parent.family ++ [s.count] }
       count := s.count + 1 }, parent.family.length)

/-- One turn of the loop of `InsertIntoRoot`: the tree and the node to go on from. -/
def InodeTree.insertToken (s : InodeTree) (start stop : Nat) (type : InodeType)
    (token : List UInt8) (node : Nat) : InodeTree × Nat :=
  let found := s.findFamily node token
  let (s', familymember) :=
    if found = 0 then s.appendToFamily node token start stop type else (s, (found : Int))
  (s', if 0 < familymember ∧ familymember < maxFamily then
      ((s'.inode node).family.getD familymember.toNat 0) else node)

/-- The loop of `InsertIntoRoot`; every turn moves `pos` on, so `fuel` bounds the turns. -/
def InodeTree.insertLoop (start stop : Nat) (type : InodeType) (path : List UInt8) :
    Nat → Nat → Nat → InodeTree → InodeTree
  | 0, _, _, s => s
  | fuel + 1, pos, node, s =>
      match mystrtok path 47 pos with
      | none => s
      | some (token, pos) =>
          let (s, node) := s.insertToken start stop type token node
          insertLoop start stop type path fuel pos node s

/-- C `InsertIntoRoot` (`vfs.c:110-141`). -/
def InodeTree.insertIntoRoot (s : InodeTree) (path : List UInt8) (start stop : Nat)
    (type : InodeType) : InodeTree :=
  insertLoop start stop type path (path.length + 1) 0 0 s

/-- The loop of `GetInode`. -/
def InodeTree.getInodeLoop (s : InodeTree) (path : List UInt8) : Nat → Nat → Nat → Option Nat
  | 0, _, node => some node
  | fuel + 1, pos, node =>
      match mystrtok path 47 pos with
      | none => some node
      | some (token, pos) =>
          let familymember := s.findFamily node token
          if familymember = 0 then none
          else
            s.getInodeLoop path fuel pos
              (if 0 < familymember ∧ familymember < maxFamily then
                (s.inode node).family.getD familymember 0 else node)

/-- C `GetInode` (`vfs.c:194-225`). -/
def InodeTree.getInode (s : InodeTree) (path : List UInt8) : Option Nat :=
  s.getInodeLoop path (path.length + 1) 0 0

/-- The first loop of `oct_to_dec` (`tarfs.c:58-71`): reads the digits as a decimal `int`. -/
def octDigits : List UInt8 → Int → Int
  | [], oct => oct
  | c :: cs, oct =>
      if c = 48 ∧ oct = 0 then octDigits cs oct
      else octDigits cs ((10 * oct + ((c.toNat : Int).bmod 256 - 48)).bmod (2 ^ 32))

/-- The second loop of `oct_to_dec` (`tarfs.c:75-81`): an `int` has at most ten decimal
digits. -/
def octLoop : Nat → Int → Nat → Int → Int
  | 0, _, _, dec => dec
  | fuel + 1, oct, i, dec =>
      if oct = 0 then dec
      else octLoop fuel (oct.tdiv 10) (i + 1) ((dec + oct.tmod 10 * 8 ^ i).bmod (2 ^ 32))

/-- C `oct_to_dec` (`tarfs.c:53-84`). -/
def octToDec (num : List UInt8) : Int := octLoop 11 (octDigits num 0) 0 0

/-- The fields of `struct posix_header_ustar` that `init_tarfs` reads. -/
structure PosixHeader where
  name : List UInt8
  size : List UInt8
  typeflag : UInt8

/-- Memory from `_binary_tarfs_start` on, in records of 512 bytes read as headers;
`_binary_tarfs_end` is `count` records further. -/
structure Tarfs where
  start : Nat
  count : Nat
  header : Int → PosixHeader

/-- The address of record `h`. -/
def Tarfs.addr (t : Tarfs) (h : Int) : Nat := toUint64 (t.start + 512 * h)

/-- The tree with the root alone (`vfs.c:146-151`). The root's type is never set. -/
def rootTree : InodeTree where
  inode := fun _ => ⟨0, 1, [0], none, [47]⟩
  count := 1

/-- The body of the loop of `init_tarfs` for record `h`, whose size field reads `size`. -/
def Tarfs.insertHeader (t : Tarfs) (h : Int) (size : Nat) (s : InodeTree) : InodeTree :=
  let header := t.header h
  let dataStart := t.addr (h + 1)
  let datEnd := (dataStart + size) % 2 ^ 64
  if header.name ≠ [] ∧ header.size ≠ [] then
    if header.typeflag = 48 then s.insertIntoRoot header.name dataStart datEnd .file
    else if header.typeflag = 53 then s.insertIntoRoot header.name dataStart datEnd .dir
    else s
  else s

/-- The loop of `init_tarfs` (`vfs.c:156-190`); `none` when `fuel` runs out. -/
def Tarfs.initLoop (t : Tarfs) : Nat → Int → InodeTree → Option InodeTree
  | 0, _, _ => none
  | fuel + 1, h, s =>
      if h < t.count then
        let size := toUint64 (octToDec (t.header h).size)
        t.initLoop fuel (h + (if size % 512 = 0 then 1 else 2) + toInt32 (size / 512))
          (t.insertHeader h size s)
      else some s

/-- C `init_tarfs` (`vfs.c:143-192`). -/
def Tarfs.initTarfs (t : Tarfs) (fuel : Nat) : Option InodeTree := t.initLoop fuel 0 rootTree

/-- C `strcmp2` (`tarfs.c:8-34`). -/
def strcmp2 : List UInt8 → List UInt8 → Int
  | [], [] => 0
  | [], _ :: _ => -1
  | _ :: _, [] => 1
  | c :: str1, d :: str2 =>
      if c = d then strcmp2 str1 str2
      else if (c.toNat : Int).bmod 256 < (d.toNat : Int).bmod 256 then -1 else 1

/-- The loop of `scan_tarfs`; `none` when `fuel` runs out. The result is the address that
`read_elf` gets, if a header has the name. -/
def Tarfs.scanLoop (t : Tarfs) (fname : List UInt8) : Nat → Int → Option (Option Nat)
  | 0, _ => none
  | fuel + 1, h =>
      if h < t.count then
        let header := t.header h
        if strcmp2 header.name fname = 0 ∧ header.size ≠ [] then some (some (t.addr (h + 1)))
        else
          let size := toUint64 (octToDec header.size)
          t.scanLoop fname fuel (h + (if size % 512 = 0 then 1 else 2) + toInt32 (size / 512))
      else some none

/-- C `scan_tarfs` (`tarfs.c:159-185`). -/
def Tarfs.scanTarfs (t : Tarfs) (fuel : Nat) (fname : List UInt8) : Option (Option Nat) :=
  t.scanLoop fname fuel 0

end Sbunix
