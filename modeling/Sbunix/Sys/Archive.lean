import Sbunix.Misc.PrefixFirst
import Sbunix.Sys.Vfs

/-!
# Archives

What an archive is, independently of the tree that `init_tarfs` builds: the records that `tar`
writes, the files and directories they list, and what a lookup should find among them.
-/

namespace Sbunix

/-- The non-empty pieces of `p` between the delimiters. -/
def components (d : UInt8) (p : List UInt8) : List (List UInt8) :=
  (p.splitOn d).filter (· ≠ [])

/-- The last `w` octal digits of `n`. -/
def octal : Nat → Nat → List UInt8
  | 0, _ => []
  | w + 1, n => octal w (n / 8) ++ [UInt8.ofNat (48 + n % 8)]

/-- An entry as `tar` writes it: a header and the records of its data, read as headers. -/
structure ArchiveEntry where
  name : List UInt8
  size : Nat
  typeflag : UInt8
  data : List PosixHeader
  name_ne_nil : name ≠ []
  name_le : name.length ≤ 99
  nul_notMem : 0 ∉ name
  length_data : data.length = (size + 511) / 512

/-- The header of an entry, with its size in octal. -/
def ArchiveEntry.header (e : ArchiveEntry) : PosixHeader := ⟨e.name, octal 11 e.size, e.typeflag⟩

/-- Type `'0'` is a file and `'5'` a directory. -/
def ArchiveEntry.type (e : ArchiveEntry) : Option InodeType :=
  if e.typeflag = 48 then some .file else if e.typeflag = 53 then some .dir else none

/-- The entries of an archive and the number of zero records at its end. -/
structure Archive where
  entries : List ArchiveEntry
  padding : Nat

/-- The blocks of an archive: each header with its data behind it, then the padding. -/
def Archive.image (a : Archive) : List PosixHeader :=
  (a.entries.flatMap fun e => e.header :: e.data) ++ List.replicate a.padding ⟨[], [], 0⟩

/-- The archive is what lies in memory. It is part of the kernel, which `map_kernpt` maps with a
single page table, so it is far smaller than the bound here. -/
structure Tarfs.Holds (t : Tarfs) (a : Archive) : Prop where
  count : t.count = a.image.length
  header : ∀ (i : Nat) r, a.image[i]? = some r → t.header i = r
  small : 512 * t.count ≤ 2 ^ 27
  below : t.start + 512 * t.count < 2 ^ 64

/-- A file or directory that an archive lists. -/
structure Member where
  path : List (List UInt8)
  start : Nat
  stop : Nat
  type : InodeType

/-- The members among the entries from record `h` on, in memory from `start` on. -/
def membersFrom (start : Nat) : Nat → List ArchiveEntry → List Member
  | _, [] => []
  | h, e :: es =>
      let dataStart := start + 512 * (h + 1)
      (e.type.map fun type =>
          ⟨components 47 e.name, dataStart, dataStart + e.size, type⟩).toList ++
        membersFrom start (h + 1 + e.data.length) es

/-- The members of an archive whose first block is at `start`. -/
def Archive.members (a : Archive) (start : Nat) : List Member := membersFrom start 0 a.entries

/-- The name that a path has in directory `d`. -/
def nameIn (d : List (List UInt8)) (path : List (List UInt8)) : Option (List UInt8) :=
  if path.dropLast = d then path.getLast? else none

/-- The entries of directory `d`, in the order of the archive. -/
def namesIn (ms : List Member) (d : List (List UInt8)) : List (List UInt8) :=
  ms.filterMap fun m => nameIn d m.path

/-- Each directory is listed before its contents. -/
def DirsFirst (ms : List Member) : Prop :=
  InOrder (fun pre m => ∀ d c, m.path = d ++ [c] → d ≠ [] →
    ∃ m' ∈ pre, m'.path = d ∧ m'.type = .dir) ms

/-- Directories come before their contents, no two members have one name, and a directory has at
most nine entries. -/
structure Archive.WellFormed (a : Archive) (start : Nat) : Prop where
  dirsFirst : DirsFirst (a.members start)
  nodup : (a.entries.map ArchiveEntry.name).Nodup
  entries : ∀ d, (namesIn (a.members start) d).length ≤ 9

/-- The inode says what the archive says of the member. -/
def Member.Describes (m : Member) (n : Inode) : Prop :=
  m.path.getLast? = some n.inodeName ∧ n.start = m.start ∧ n.stop = m.stop ∧ n.type = some m.type

/-- `GetInode` finds the root and the members, each under its own path, and nothing else. -/
def LookupFaithful (s : InodeTree) (ms : List Member) : Prop :=
  ∀ p, (0 : UInt8) ∉ p →
    ((s.getInode p).isSome ↔ components 47 p = [] ∨ ∃ m ∈ ms, m.path = components 47 p) ∧
    (components 47 p = [] → s.getInode p = some 0) ∧
    ∀ m ∈ ms, m.path = components 47 p → ∃ k, s.getInode p = some k ∧ m.Describes (s.inode k)

/-- Member `m` can be told apart from those before it: its path has a name and is new, and every
shorter beginning of that name is already an entry of the same directory. -/
def TellsApart (pre : List Member) (m : Member) : Prop :=
  ∃ d c, m.path = d ++ [c] ∧ (∀ m' ∈ pre, m'.path ≠ m.path) ∧
    ∀ t, t <+: c → t ≠ [] → t ≠ c → ∃ m' ∈ pre, m'.path = d ++ [t]

/-- A call of `InsertIntoRoot`, as `init_tarfs` makes it for a member it meets. -/
structure InsertCall where
  name : List UInt8
  start : Nat
  stop : Nat
  type : InodeType

/-- The member that a call inserts. -/
def InsertCall.member (c : InsertCall) : Member := ⟨components 47 c.name, c.start, c.stop, c.type⟩

/-- The tree that a sequence of insertions leaves. -/
def insertAll (cs : List InsertCall) : InodeTree :=
  cs.foldl (fun s c => s.insertIntoRoot c.name c.start c.stop c.type) rootTree

/-- Some path goes through the entry `c` of directory `q`. -/
def Mentioned (ms : List Member) (q : List (List UInt8)) (c : List UInt8) : Prop :=
  ∃ m ∈ ms, q ++ [c] <+: m.path

/-- No component is the beginning of a different one in the same directory, and a directory has
at most nine, counting the directories that are only mentioned. -/
structure SeparateNames (ms : List Member) : Prop where
  apart : ∀ q c c', Mentioned ms q c → Mentioned ms q c' → c <+: c' → c = c'
  entries : ∀ q (cs : List (List UInt8)), cs.Nodup → (∀ c ∈ cs, Mentioned ms q c) →
    cs.length ≤ 9

/-- Where a member starts and stops, and its type. -/
def Member.attributes (m : Member) : Nat × Nat × InodeType := (m.start, m.stop, m.type)

/-- Where the data of an inode starts and stops, and its type. -/
def Inode.attributes (n : Inode) : Nat × Nat × Option InodeType := (n.start, n.stop, n.type)

/-- Both trees give an inode with the same attributes for the path of every member. -/
def SameLookups (s s' : InodeTree) (ms : List Member) : Prop :=
  ∀ m ∈ ms, ∀ p, components 47 p = m.path → ∃ k k', s.getInode p = some k ∧
    s'.getInode p = some k' ∧ (s.inode k).attributes = (s'.inode k').attributes

/-- The first member whose path is `q` or lies below it. -/
def firstMention (ms : List Member) (q : List (List UInt8)) : Option Member :=
  ms.find? fun m => decide (q <+: m.path)

/-- The entries from record `h` on, each with the address of its data. -/
def entriesFrom (start : Nat) : Nat → List ArchiveEntry → List (ArchiveEntry × Nat)
  | _, [] => []
  | h, e :: es =>
      (e, start + 512 * (h + 1)) :: entriesFrom start (h + 1 + e.data.length) es

/-- `scan_tarfs` finds the name exactly when `GetInode` gives a file, and hands on that file's
start. -/
def LookupsAgree (t : Tarfs) (fuel : Nat) (s : InodeTree) (f : List UInt8) : Prop :=
  ∃ found, t.scanTarfs fuel f = some found ∧
    (found.isSome ↔ ∃ k, s.getInode f = some k ∧ (s.inode k).type = some .file) ∧
    ∀ addr k, found = some addr → s.getInode f = some k → (s.inode k).start = addr

/-- `f` is the name of a file, or neither the name of an entry nor another spelling of a file. -/
def NamesFileExactly (a : Archive) (f : List UInt8) : Prop :=
  (∃ e ∈ a.entries, e.name = f ∧ e.type = some .file) ∨
    (∀ e ∈ a.entries, e.name ≠ f) ∧
      ∀ e ∈ a.entries, e.type = some .file → components 47 e.name ≠ components 47 f

end Sbunix
