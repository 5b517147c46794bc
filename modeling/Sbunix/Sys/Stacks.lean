import Sbunix.Misc.ByteMemory
import Sbunix.Sys.Paging
import Sbunix.Sys.Process

/-!
# Stacks

The kernel and user stacks of the process slots (`sys/task_manager.c`), over the bytes of the
kernel half, where all of them lie.
-/

namespace Sbunix

open ByteMem

/-- C `kstackbase` after `init_kstack` (`sys/task_manager.c:516-523`). -/
def kstackbase : Nat := 0xFFFFFFFFFFFFF000 - 4096 * 3 * (procSize + 1)

/-- The loop of C `create_kstack`, which moves on both `i` and `top`: the new `top` and the
memory. -/
def createKstackLoop : Nat → Nat → Nat → ByteMem → Nat × ByteMem
  | 0, _, top, m => (top, m)
  | n + 1, i, top, m => createKstackLoop n (i + 1) (top + 1) (m.store (top + i) 0)

/-- C `create_kstack` (`sys/task_manager.c:525-540`): the new `k_stackbase`, which is `k_stack`
as well, and the memory. -/
def createKstack (m : ByteMem) (sno : Nat) : Nat × ByteMem :=
  createKstackLoop (4096 * 2) 0 (kstackbase + 4096 * 2 * sno) m

/-- The loop of C `copy_kstack`, down to the stack pointer `kernelStack`. -/
def copyKstackLoop (kernelStack : Nat) : Nat → Nat → Nat → ByteMem → Option (Nat × ByteMem)
  | 0, _, _, _ => none
  | fuel + 1, kBase, kStack, m =>
      if kernelStack ≤ kBase then
        copyKstackLoop kernelStack fuel ((kBase + (2 ^ 64 - 1)) % 2 ^ 64)
          ((kStack + (2 ^ 64 - 1)) % 2 ^ 64) (m.store kStack (m.load kBase))
      else some (kStack, m)

/-- C `copy_kstack` (`sys/task_manager.c:542-574`) of a process other than the first: the new
`k_stack` and the memory. -/
def copyKstack (m : ByteMem) (kernelStack kBase kStack : Nat) : Option (Nat × ByteMem) :=
  (copyKstackLoop kernelStack (2 ^ 64) kBase kStack m).map fun r => ((r.1 + 1) % 2 ^ 64, r.2)

/-- The kernel stack of a new process (`sys/syscall.c:875-876`), while the stack pointer of the
creating one is `kernelStack`. -/
def newKstack (m : ByteMem) (sno kBase kernelStack : Nat) : Option (Nat × ByteMem) :=
  let (top, m) := createKstack m sno
  copyKstack m kernelStack kBase top

/-- `k_stackbase` of the process in slot `s`. -/
def kstackTop (s : Nat) : Nat := kstackbase + 8192 * (s + 1)

/-- The bytes of the kernel stack of slot `s`. -/
def KstackSlot (s a : Nat) : Prop := kstackbase + 8192 * s ≤ a ∧ a < kstackTop s

/-- The slot's own bytes are zero, and no other byte is different. -/
structure KstackCleared (m m' : ByteMem) (s top : Nat) : Prop where
  frame : ∀ a < 2 ^ 64, ¬ KstackSlot s a → m'.load a = m.load a
  zero : ∀ a, KstackSlot s a → m'.load a = 0
  top : top = kstackTop s

/-- The kernel stacks of the other live processes are as before. -/
def OtherKstacksKept (live : Nat → Bool) (s : Nat) (m m' : ByteMem) : Prop :=
  ∀ l < procSize, live l = true → l ≠ s → ∀ a, KstackSlot l a → m'.load a = m.load a

/-- The bytes of `create_kstack`'s loop in the slot behind are zero already, and so is every
second byte of the slot's own that it leaves out. -/
def ClearedBefore (m : ByteMem) (s : Nat) : Prop :=
  (∀ k < 4096, m.load (kstackbase + 8192 * s + (2 * k + 1)) = 0) ∧
    ∀ k < 4096, m.load (kstackTop s + 2 * k) = 0

/-- The slot behind is not in use, or what is written there is there already: a byte of the
parent's at `kstackTop`, and zeros. -/
def NextSlotSpared (live : Nat → Bool) (m : ByteMem) (s parent : Nat) : Prop :=
  s + 1 < procSize → live (s + 1) = true →
    (∀ k, 1 ≤ k → k < 4096 → m.load (kstackTop s + 2 * k) = 0) ∧
      m.load (kstackTop s) = if parent + 1 = s then 0 else m.load (kstackTop parent)

/-- The user stack base that `init_stack` computes for a slot. -/
def stackTop (sno : Nat) : Nat := (ustacktop - 4096 * 2 * sno) &&& 0xFFFFFFFFFFFFF000

/-- C `copy_parent_stack` (`sys/task_manager.c:52-59`): the static buffer. -/
def copyParentStack (m : ByteMem) (uStackbase : Nat) : List UInt8 :=
  (List.range 4096).map fun i => m.load (uStackbase + (2 ^ 64 - i))

/-- The loop of `init_stack` for a child, over the buffer: the child's `u_stack` and the
memory. -/
def initStackLoop (parentUStack : Nat) :
    List UInt8 → Nat → Nat → Nat → ByteMem → Nat × ByteMem
  | [], _, _, uStack, m => (uStack, m)
  | b :: buf, top, parentStackbase, uStack, m =>
      initStackLoop parentUStack buf ((top + (2 ^ 64 - 1)) % 2 ^ 64)
        ((parentStackbase + (2 ^ 64 - 1)) % 2 ^ 64)
        (if parentUStack ≤ parentStackbase then top else uStack) (m.store top b)

/-- `u_stack` and `u_stackbase` of a process. -/
structure UserStack where
  uStack : Nat
  uStackbase : Nat

/-- C `init_stack` (`sys/task_manager.c:86-124`) for a process `sno` with another `pid` than 1;
`uStack` is the value that the field has before. -/
def initStack (m : ByteMem) (sno : Nat) (parent : UserStack) (parentStack : List UInt8)
    (uStack : Nat) : UserStack × ByteMem :=
  let r := initStackLoop parent.uStack parentStack (stackTop sno) parent.uStackbase uStack m
  (⟨r.1, stackTop sno⟩, r.2)

/-- The user stack in `syscall_fork` (`sys/syscall.c:829`, `883-886`). `m` is the memory at the
call and `m'` the memory when `init_stack` is called. -/
def forkStack (m m' : ByteMem) (sno uStackbase usersp uStack : Nat) : UserStack × ByteMem :=
  initStack m' sno ⟨usersp, uStackbase⟩ (copyParentStack m uStackbase) uStack

/-- The child's user stack is as deep as that of the parent and has the same bytes. -/
structure StackReproduced (m : ByteMem) (uStackbase d : Nat) (child : UserStack) (t : ByteMem) :
    Prop where
  depth : child.uStackbase = child.uStack + d
  bytes : ∀ k ≤ d, t.load (child.uStackbase - k) = m.load (uStackbase - k)

end Sbunix
