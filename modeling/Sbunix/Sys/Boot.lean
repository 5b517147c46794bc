import Sbunix.Sys.VmRun

/-!
# The state after start-up

`map_kernpt` (`sys/paging.c:134-206`), which builds the first page tables, and the part
of `init_proc` that creates process 0.  The loader maps the kernel so that physical and
virtual addresses differ by a constant; these stores are made to the frames themselves.
-/

namespace Sbunix

/-- The memory with word `i` of frame `f` changed. -/
def putWord (mem : Nat → Nat → Nat) (f i w : Nat) : Nat → Nat → Nat :=
  Function.update mem f (wr64 (mem f) (8 * i) w)

/-- The frames of `page_directory1`, `page_directory2`, `page_directory3` and `kernelpage`;
adding 4096 to a `uint64_t *` moves it by eight pages. -/
def pageDirectory1 (physfree : Nat) : Nat := (physfree + 4096) / 4096
/-- The table of the second level, in the frame behind it. -/
def pageDirectory2 (physfree : Nat) : Nat := pageDirectory1 physfree + 8
/-- The table of the third level. -/
def pageDirectory3 (physfree : Nat) : Nat := pageDirectory2 physfree + 8
/-- The table of the fourth level. -/
def kernelpage (physfree : Nat) : Nat := pageDirectory3 physfree + 8

/-- The loop that clears the four tables. -/
def clearTables (mem : Nat → Nat → Nat) (physfree n : Nat) : Nat → Nat → Nat :=
  (List.range n).foldl (fun mem i =>
    putWord (putWord (putWord (putWord mem (pageDirectory1 physfree) i 0)
      (pageDirectory2 physfree) i 0) (pageDirectory3 physfree) i 0) (kernelpage physfree) i 0) mem

/-- The loop that maps the kernel image; it returns the number of pages, `j`. -/
def mapImage (kp p4 kernend : Nat) : Nat → Nat → Nat → (Nat → Nat → Nat) →
    Option (Nat × (Nat → Nat → Nat))
  | 0, _, _, _ => none
  | fuel + 1, j, kernstart, mem =>
      if kernstart ≤ kernend then
        mapImage kp p4 kernend fuel (j + 1) (kernstart + 4096) (putWord mem kp (p4 + j) (kernstart ||| 3))
      else some (j, mem)

/-- C `map_kernpt`: memory and `kern_VA`. `curDisp` is the address of the screen. -/
def mapKernpt (mem : Nat → Nat → Nat) (physfree kernend curDisp : Nat) :
    Option ((Nat → Nat → Nat) × Nat) := do
  let p1 := p1Index kernmem
  let p2 := p2Index kernmem
  let p3 := p3Index kernmem
  let p4 := p4Index kernmem
  let mem := clearTables mem physfree 512
  let mem := putWord mem (pageDirectory1 physfree) p1 (pageDirectory2 physfree * 4096 ||| 7)
  let mem := putWord mem (pageDirectory2 physfree) p2 (pageDirectory3 physfree * 4096 ||| 7)
  let mem := putWord mem (pageDirectory3 physfree) p3 (kernelpage physfree * 4096 ||| 7)
  let (j, mem) ← mapImage (kernelpage physfree) p4 kernend 512 0 physbase mem
  let mem := putWord mem (pageDirectory1 physfree) 510 (pageDirectory1 physfree * 4096 ||| 3)
  let mem := putWord mem (kernelpage physfree) (p4 + j) (curDisp &&& 0xFFFFFFFFFF000 ||| 7)
  some (mem, kernmem + 4096 * (j + 2))

/-- What start-up finds: memory, the end of the kernel and its data, and the region of
memory above 1 MiB. -/
structure BootInfo where
  mem : Nat → Nat → Nat
  physfree : Nat
  base : Nat
  length : Nat

/-- The static data of `sys/phy_mem_manager.c` before start-up. -/
def emptyFreeList : FreeList :=
  { freeMemory := 0, next := fun _ => 0, refCount := fun _ => 0, headFreelist := 0,
    totalblockcount := 0, lastfreeblock := 0, currblock := 0 }

/-- The machine as C `start` leaves it to `init_proc` (`sys/main.c:35-68`). -/
def BootInfo.start (i : BootInfo) : Option VmState := do
  let fl := emptyFreeList.freelist i.base i.length i.physfree
  let (mem, kernVA) ← mapKernpt i.mem i.physfree (i.physfree + 4096 * 10) 0xB8000
  some { machine := ⟨mem, i.physfree + 4096, fl⟩, vma := fun _ => ⟨0, 0, 0⟩,
         mm := fun _ => ⟨0, 0, 0⟩, alive := fun _ => false, active := none,
         vmaRecycleList := 0, kernVA := kernVA }

/-- What C `init_proc` does before it loads the shell into slot 0. -/
def VmState.initProc (s : VmState) : Option VmState := s.syscallExec 0

/-- The machines `start` is made for: the kernel with its data fits the one table
`kernelpage`, the region reaches from below `physfree` + 1 MiB over at least seven and
fewer than 50000 further pages. -/
structure BootInfo.Fits (i : BootInfo) : Prop where
  physfree_aligned : i.physfree % 4096 = 0
  physfree_low : physbase ≤ i.physfree
  physfree_high : i.physfree + 4096 * 10 < physbase + 4096 * 510
  base_pos : 0 < i.base
  base_aligned : i.base % 4096 = 0
  base_low : i.base ≤ i.physfree + 1024 * 1024
  few : i.base + i.length ≤ i.physfree + 1024 * 1024 + 4096 * listSize
  enough : i.physfree + 1024 * 1024 + 4096 * 8 ≤ i.base + i.length

/-- The states of a run whose steps all meet a condition; page faults of start-up in kernel
mode come before process 0. -/
inductive VmStart : VmState → Prop
  | start {i : BootInfo} {s : VmState} : i.Fits → i.start = some s → VmStart s
  | fault {s t : VmState} (v : Nat) : VmStart s → vmStep (.kernelFault v) s = some t → VmStart t

/-- The states of the memory side that are reached from a start through steps with `cond`. -/
def VmReach (cond : VmLabel → VmState → Prop) : VmState → Prop :=
  Reach (fun s => ∃ s₀, VmStart s₀ ∧ s₀.initProc = some s) fun l s t => cond l s ∧ vmStep l s = some t

end Sbunix
