import Sbunix.Sys.Archive

/-!
# The walk over the headers

`init_tarfs` and `scan_tarfs` go from header to header in the same way.  `next` is their step
and `walk` the records that they look at.
-/

namespace Sbunix

/-- Where the loops go on from record `h` (`vfs.c:181-188`, `tarfs.c:174-182`). -/
def Tarfs.next (t : Tarfs) (h : Int) : Int :=
  let size := toUint64 (octToDec (t.header h).size)
  h + (if size % 512 = 0 then 1 else 2) + toInt32 (size / 512)

/-- The headers that a loop looks at from record `h` on, up to one that it returns at; `none` when
`fuel` runs out. -/
def Tarfs.walk (t : Tarfs) (found : PosixHeader → Bool) : Nat → Int → Option (List Int)
  | 0, _ => none
  | fuel + 1, h =>
      if h < t.count then
        if found (t.header h) then some [h] else (t.walk found fuel (t.next h)).map (h :: ·)
      else some []

/-- The test of `scan_tarfs`. -/
def matchesName (fname : List UInt8) (header : PosixHeader) : Bool :=
  decide (strcmp2 header.name fname = 0 ∧ header.size ≠ [])

/-- The records that the header loops reach. -/
inductive Tarfs.Reaches (t : Tarfs) : Int → Prop
  | start : Reaches t 0
  | next {h : Int} : Reaches t h → h < t.count → Reaches t (t.next h)

/-- The loops move forward at each header that they reach, and end. -/
def Tarfs.WalkEnds (t : Tarfs) : Prop :=
  (∀ h, t.Reaches h → h < t.count → h < t.next h) ∧
    (∃ fuel, (t.initTarfs fuel).isSome) ∧ ∀ fname, ∃ fuel, (t.scanTarfs fuel fname).isSome

/-- An archive as memory holds it, of any size that the size fields can tell. -/
structure Tarfs.Contains (t : Tarfs) (a : Archive) : Prop where
  count : t.count = a.image.length
  header : ∀ (i : Nat) r, a.image[i]? = some r → t.header i = r
  sizes : ∀ e ∈ a.entries, e.size < 8 ^ 11

/-- The records of the headers of the entries from record `h` on. -/
def headerRecords : Nat → List ArchiveEntry → List Nat
  | _, [] => []
  | h, e :: es => h :: headerRecords (h + 1 + e.data.length) es

/-- The headers and behind them the zero blocks. -/
def Archive.records (a : Archive) : List Nat :=
  headerRecords 0 a.entries ++ List.range' (a.image.length - a.padding) a.padding

/-- The elements up to the first one with the property. -/
def upTo {α : Type} (p : α → Bool) : List α → List α
  | [] => []
  | x :: xs => if p x then [x] else x :: upTo p xs

/-- Both loops look at the headers of the entries in order, and then at the zero blocks, until
they return. -/
def Tarfs.VisitsEntries (t : Tarfs) (a : Archive) : Prop :=
  ∃ fuel, ∀ found, t.walk found fuel 0 =
    some (upTo (fun h => found (t.header h)) (a.records.map Int.ofNat))

end Sbunix
