import Sbunix.Sys.Chdir
import Sbunix.Sys.Process

/-!
# Open files

C `k_open`, `k_close` and `k_read` (`sys/syscall.c:945-1031`) on the descriptors of the active
process, and the copies that `syscall_fork` makes.  An inode's data lies in kernel memory, and
`currentoffset` is an address there.
-/

namespace Sbunix

/-- What a call does with `active->fd`: it comes to an end, with the bytes it has stored in user
memory, or it uses an index outside the array, or it goes through a `NULL` entry. -/
inductive FileOutcome
  | done (ret : Nat) (pcb : Pcb) (stores : List (Nat × UInt8))
  | wild (index : Int)
  | null (index : Int)

/-- The value -1 of a call, as a `uint64_t`. -/
def fileError : Nat := 2 ^ 64 - 1

/-- The first free descriptor from 2 on (line 958). -/
def freeFd (p : Pcb) : Option Nat :=
  (List.range' 2 (maxFd - 2)).find? fun i => decide (p.fd[i]? = some none)

/-- C `k_open`. The type of the root, which `init_tarfs` never sets, counts as `DIR`. -/
def kOpen (s : InodeTree) (p : Pcb) (filePath : List UInt8) : Nat × Pcb :=
  match s.getInode filePath with
  | none => (fileError, p)
  | some query =>
      if s.isDir query then (fileError, p)
      else
        match freeFd p with
        | none => (fileError, p)
        | some i => (i, { p with fd := p.fd.set i (some ⟨(s.inode query).start, query⟩) })

/-- C `k_close`. The index is the register as an `int`. -/
def kClose (p : Pcb) (fdIndex : Nat) : FileOutcome :=
  if 1 < fdIndex then
    let i := toInt32 fdIndex
    if 0 ≤ i ∧ i < maxFd then .done 1 { p with fd := p.fd.set i.toNat none } [] else .wild i
  else .done 1 p []

/-- The loop of `k_read`: the bytes from address `i` on, with `turns` left until `end`. -/
def readLoop (mem : Nat → UInt8) (nodeEnd : Nat) : Nat → Nat → List UInt8
  | 0, _ => []
  | turns + 1, i => if nodeEnd ≤ i then [] else mem i :: readLoop mem nodeEnd turns (i + 1)

/-- The bytes stored from `buf` on. -/
def storesFrom : Nat → List UInt8 → List (Nat × UInt8)
  | _, [] => []
  | buf, b :: bs => (buf, b) :: storesFrom ((buf + 1) % 2 ^ 64) bs

/-- C `k_read`, for descriptors from 1 on: 0 is the keyboard. -/
def kRead (mem : Nat → UInt8) (s : InodeTree) (p : Pcb) (fdIndex buf count : Nat) :
    FileOutcome :=
  if 1 < fdIndex then
    let i := toInt32 fdIndex
    if 0 ≤ i ∧ i < maxFd then
      match p.fd[i.toNat]? with
      | some (some file) =>
          let start := file.currentoffset
          let bytes := readLoop mem (s.inode file.node).stop
            ((start + count) % 2 ^ 64 - start) start
          .done bytes.length
            { p with fd := p.fd.set i.toNat (some { file with
                currentoffset := start + bytes.length }) }
            (storesFrom buf (bytes ++ [0]))
      | _ => .null i
    else .wild i
  else .done 0 p []

/-- The descriptors of the child (`syscall_fork`, lines 855-868): each open one gets a
`file_object` of its own with the same offset and node. -/
def copyFds (parent child : Pcb) : Pcb := { child with fd := parent.fd }

end Sbunix
