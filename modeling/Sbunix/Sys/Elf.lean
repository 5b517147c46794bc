import Sbunix.Misc.ByteMemory
import Sbunix.Sys.VmaRun

/-!
# ELF loading

C `file_map` of `sys/virt_mem.c` and C `read_elf` of `sys/tarfs.c` with the header layouts of
`include/sys/tarfs.h`, over the bytes that the new process sees.  The kernel runs on its page
tables by then; the archive and the segments are ordinary addresses.
-/

namespace Sbunix

open ByteMem

/-- The loop of C `file_map`. The `int` counter is compared after sign extension. -/
def fileMapLoop (fsize msize : Nat) : Nat → Int → Nat → Nat → ByteMem → Option ByteMem
  | 0, _, _, _, _ => none
  | fuel + 1, i, start, source, m =>
      if toUint64 i < msize then
        if fsize < toUint64 i then
          fileMapLoop fsize msize fuel ((i + 1).bmod (2 ^ 32)) (start + 1) source (m.store start 0)
        else
          fileMapLoop fsize msize fuel ((i + 1).bmod (2 ^ 32)) (start + 1) (source + 1)
            (m.store start (m.load source))
      else some m

/-- C `file_map` (`sys/virt_mem.c:51-81`): the result and the memory. An `int` takes `2 ^ 32`
values, so a longer loop does not end. -/
def fileMap (m : ByteMem) (vadd sourceAdd fsize msize : Nat) : Option (Nat × ByteMem) :=
  if fsize < 1 then some (2 ^ 32 - 1, m)
  else (fileMapLoop fsize msize (2 ^ 32 + 1) 0 vadd sourceAdd m).map fun m' => (0, m')

/-- The segment at `vadd` holds `fsize` bytes of the file and zeros behind them, and nothing
else is different. -/
structure SegmentFilled (m m' : ByteMem) (vadd sourceAdd fsize msize : Nat) : Prop where
  copied : ∀ i < fsize, m'.load (vadd + i) = m.load (sourceAdd + i)
  zeroed : ∀ i, fsize ≤ i → i < msize → m'.load (vadd + i) = 0
  others : ∀ a, ¬ Range vadd msize a → m'.load a = m.load a

/-- The byte that lies behind the file part while it is copied; the segment itself may follow
directly. -/
def byteBehind (m : ByteMem) (vadd sourceAdd fsize : Nat) : UInt8 :=
  if SameAddr (sourceAdd + fsize) vadd then m.load sourceAdd else m.load (sourceAdd + fsize)

/-- An empty file part finds zeros in memory already; behind another one there is no `.bss`, or
a zero follows it in the file. -/
def FillsRight (m : ByteMem) (vadd sourceAdd fsize msize : Nat) : Prop :=
  if fsize = 0 then ∀ i < msize, m.load (vadd + i) = 0
  else fsize = msize ∨ byteBehind m vadd sourceAdd fsize = 0

/-- A `char` in a `uint64_t` computation; it is signed. -/
def signedChar (b : UInt8) : Nat := if b < 128 then b.toNat else 2 ^ 64 - 256 + b.toNat

/-- What `read_elf` works on. `read` collects the addresses of the program headers it has looked
at; the code does not keep them. -/
structure Loading where
  bytes : ByteMem
  vm : VmState
  entryPoint : Nat
  read : List Nat

/-- The decoding of `e_phoff`: digits to the base 8. -/
def phoffFrom (m : ByteMem) : Nat → Nat → Nat → Nat → Nat
  | 0, _, off, _ => off
  | n + 1, a, off, base =>
      phoffFrom m n (a + 1) ((off + base * signedChar (m.load a)) % 2 ^ 64) (base * 8 % 2 ^ 64)

/-- One turn of the loop over the program headers. -/
def Loading.readHeader (s : Loading) (elfaddr proc phead : Nat) : Option Loading := do
  let filesz := s.bytes.number (phead + 32) 8
  let memsz := s.bytes.number (phead + 40) 8
  let vaddr := s.bytes.number (phead + 16) 8
  let offset := s.bytes.number (phead + 8) 8
  let location := (elfaddr + offset) % 2 ^ 64
  let (segVma, vm) ← s.vm.allocVma vaddr ((vaddr + memsz) % 2 ^ 64)
  let vm ← vm.appendToVmaList proc segVma
  let vm := vm.setMm proc fun t =>
    { t with heapTop := (((vm.vma segVma).vend >>> 12 + 1) <<< 12) % 2 ^ 64 }
  let (_, bytes) ← fileMap s.bytes vaddr location filesz memsz
  some { s with bytes := bytes, vm := vm, read := s.read ++ [phead % 2 ^ 64] }

/-- The loop over the program headers, up to `count` of them. -/
def readHeaders (elfaddr proc headSize count : Nat) :
    Nat → Int → Nat → Loading → Option Loading
  | 0, _, _, _ => none
  | fuel + 1, i, phead, s =>
      if toUint64 i < count then do
        let s ← s.readHeader elfaddr proc phead
        readHeaders elfaddr proc headSize count fuel ((i + 1).bmod (2 ^ 32)) (phead + headSize) s
      else some s

/-- C `read_elf` (`sys/tarfs.c:87-156`). -/
def readElf (m : ByteMem) (vm : VmState) (elfaddr proc : Nat) : Option Loading :=
  let off := phoffFrom m 8 (elfaddr + 32) 0 1
  let phead := elfaddr + off
  let headCount :=
    (signedChar (m.load (elfaddr + 56)) + 10 * signedChar (m.load (elfaddr + 57))) % 2 ^ 64
  let headSize :=
    (signedChar (m.load (elfaddr + 54)) + 256 * signedChar (m.load (elfaddr + 55))) % 2 ^ 64
  readHeaders elfaddr proc headSize ((headCount + (2 ^ 64 - 1)) % 2 ^ 64) (2 ^ 32 + 1) 0 phead
    ⟨m, vm, m.number (elfaddr + 24) 8, []⟩

/-- The fields that the ELF format puts at these places of a file header. -/
def elfPhoff (m : ByteMem) (elfaddr : Nat) : Nat := m.number (elfaddr + 32) 8
/-- Field `e_phentsize` of the file header. -/
def elfPhentsize (m : ByteMem) (elfaddr : Nat) : Nat := m.number (elfaddr + 54) 2
/-- Field `e_phnum` of the file header. -/
def elfPhnum (m : ByteMem) (elfaddr : Nat) : Nat := m.number (elfaddr + 56) 2

/-- The addresses of the program headers of a file. -/
def programHeaders (m : ByteMem) (elfaddr : Nat) : List Nat :=
  (List.range (elfPhnum m elfaddr)).map fun j =>
    (elfaddr + elfPhoff m elfaddr + j * elfPhentsize m elfaddr) % 2 ^ 64

/-- The headers of type `PT_LOAD`. -/
def loadHeaders (m : ByteMem) (elfaddr : Nat) : List Nat :=
  (programHeaders m elfaddr).filter fun h => m.number h 4 = 1

/-- The range of the segment of a header. -/
def segmentRange (m : ByteMem) (phead : Nat) : Nat × Nat :=
  (m.number (phead + 16) 8, m.number (phead + 16) 8 + m.number (phead + 40) 8)

/-- A little-endian ELF64 executable with a program header, whose segments end in memory, hold
their file parts and do not overlap. -/
structure ElfFile (m : ByteMem) (elfaddr : Nat) : Prop where
  magic : m.number elfaddr 4 = 0x464C457F
  class64 : m.load (elfaddr + 4) = 2
  littleEndian : m.load (elfaddr + 5) = 1
  executable : m.number (elfaddr + 16) 2 = 2
  phnum : 1 ≤ elfPhnum m elfaddr
  phentsize : 56 ≤ elfPhentsize m elfaddr
  fits : ∀ h ∈ loadHeaders m elfaddr, (segmentRange m h).2 < 2 ^ 64 ∧
    m.number (h + 32) 8 ≤ m.number (h + 40) 8
  apart : (loadHeaders m elfaddr).Pairwise fun h h' =>
    (segmentRange m h).2 ≤ (segmentRange m h').1 ∨ (segmentRange m h').2 ≤ (segmentRange m h).1

/-- Loading follows the program header table. -/
structure FollowsTable (m : ByteMem) (vm : VmState) (elfaddr proc : Nat) (t : Loading) : Prop where
  entry : t.entryPoint = m.number (elfaddr + 24) 8
  headers : t.read = programHeaders m elfaddr
  vmas : t.vm.areas (t.vm.vmaNodes proc) =
    vm.areas (vm.vmaNodes proc) ++ (loadHeaders m elfaddr).map (segmentRange m)
  heapTop : (t.vm.mm proc).heapTop % 4096 = 0 ∧
    ∀ h ∈ loadHeaders m elfaddr, (segmentRange m h).2 < (t.vm.mm proc).heapTop

end Sbunix
