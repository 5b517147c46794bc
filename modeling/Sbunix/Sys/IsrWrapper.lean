import Sbunix.Misc.RegisterStack

/-!
# Interrupt wrappers

The assembly of `sys/isr_wrapper.s` with the table that `sys/idt.c` makes of it, and the frames
`gpr_t` and `registers_t` of `include/sys/idt.h` that the wrappers build on the kernel stack.

A C function is a parameter: what it does to the registers and to memory until it comes back to
the wrapper. The kernel's own `rip`, `cs` and flags are left out.
-/

namespace Sbunix

open StackMachine

/-- The fields of C `gpr_t` (`include/sys/idt.h:44-48`). -/
inductive Gpr
  | r15 | r14 | r13 | r12 | r11 | r10 | r9 | r8 | rbp | rdi | rsi | rdx | rcx | rbx | rax
  | rip | cs | eflags | usersp | ss
  deriving DecidableEq, Repr

/-- The fields that the wrappers push, in the order of the struct. -/
def gprPushed : List Gpr :=
  [.r15, .r14, .r13, .r12, .r11, .r10, .r9, .r8, .rbp, .rdi, .rsi, .rdx, .rcx, .rbx, .rax]

/-- The fields that the processor pushes. -/
def gprProcessor : List Gpr := [.rip, .cs, .eflags, .usersp, .ss]

/-- C `gpr_t`. -/
def gprT : List Gpr := gprPushed ++ gprProcessor

/-- The C functions that the wrappers call. -/
inductive Handler
  | sysCall | divideByZero | timemama | keymama | pagemama | protectionFault
  deriving DecidableEq, Repr

/-- The instructions of `sys/isr_wrapper.s`. -/
inductive Instr
  | pushq (r : Gpr)
  | popq (r : Gpr)
  | movqRsp (r : Gpr)
  | call (h : Handler)
  | movAl (v : UInt8)
  | outb (port : UInt8)
  | addRsp (n : Nat)
  | iretq
  deriving DecidableEq, Repr

/-- The processor, and what has been written to ports. -/
structure IsrState where
  cpu : StackMachine Gpr
  out : List (UInt8 × UInt8)

/-- What each C function does to the processor. -/
abbrev HandlerBody := Handler → StackMachine Gpr → StackMachine Gpr

/-- The state with one register changed. -/
def IsrState.setReg (s : IsrState) (r : Gpr) (v : UInt64) : IsrState :=
  { s with cpu := { s.cpu with regs := Function.update s.cpu.regs r v } }

/-- One instruction of a wrapper. -/
def Instr.exec (body : HandlerBody) : Instr → IsrState → IsrState
  | .pushq r, s => { s with cpu := s.cpu.push r }
  | .popq r, s => { s with cpu := s.cpu.pop r }
  | .movqRsp r, s => s.setReg r (UInt64.ofNat s.cpu.sp)
  | .call h, s => { s with cpu := body h s.cpu }
  | .movAl v, s => s.setReg .rax ((s.cpu.regs .rax &&& ~~~0xFF) ||| v.toUInt64)
  | .outb port, s => { s with out := s.out ++ [(port, (s.cpu.regs .rax).toUInt8)] }
  | .addRsp n, s => { s with cpu := { s.cpu with sp := (n + s.cpu.sp) % 2 ^ 64 } }
  | .iretq, s => { s with cpu := s.cpu.popAll gprProcessor }

/-- The instructions in order. -/
def execAll (body : HandlerBody) : List Instr → IsrState → IsrState
  | [], s => s
  | i :: is, s => execAll body is (i.exec body s)

/-- The fifteen `pushq` that every wrapper starts with. -/
def pushGprs : List Instr :=
  [.pushq .rax, .pushq .rbx, .pushq .rcx, .pushq .rdx, .pushq .rsi, .pushq .rdi, .pushq .rbp,
    .pushq .r8, .pushq .r9, .pushq .r10, .pushq .r11, .pushq .r12, .pushq .r13, .pushq .r14,
    .pushq .r15]

/-- The fifteen `popq` that every wrapper ends with. -/
def popGprs : List Instr :=
  [.popq .r15, .popq .r14, .popq .r13, .popq .r12, .popq .r11, .popq .r10, .popq .r9, .popq .r8,
    .popq .rbp, .popq .rdi, .popq .rsi, .popq .rdx, .popq .rcx, .popq .rbx, .popq .rax]

/-- A wrapper around the instructions `inner`; `after` stands between the pops and `iretq`. -/
def isrWrapper (inner after : List Instr) : List Instr :=
  pushGprs ++ inner ++ popGprs ++ after ++ [.iretq]

/-- A call with the end-of-interrupt command `0x20` to port `0x20` behind it. -/
def callEoi (h : Handler) : List Instr := [.call h, .movAl 0x20, .outb 0x20]

/-- `_syscall` (`sys/isr_wrapper.s:10-43`): the stack pointer is the argument of `sys_call`. -/
def syscallWrapper : List Instr := isrWrapper [.movqRsp .rdi, .call .sysCall] []

/-- `zero_excep` (`sys/isr_wrapper.s:46-80`). -/
def zeroExcep : List Instr := isrWrapper (callEoi .divideByZero) []

/-- `timer_fptr` (`sys/isr_wrapper.s:83-117`). -/
def timerFptr : List Instr := isrWrapper (callEoi .timemama) []

/-- `key_fptr` (`sys/isr_wrapper.s:120-154`). -/
def keyFptr : List Instr := isrWrapper (callEoi .keymama) []

/-- `page_fault` (`sys/isr_wrapper.s:156-193`): the pushed registers and the error code are the
argument of `pagemama`, a `registers_t` by value. -/
def pageFault : List Instr := isrWrapper (callEoi .pagemama) [.addRsp 8]

/-- `page_fault2` (`sys/isr_wrapper.s:195-231`). -/
def pageFault2 : List Instr := isrWrapper (callEoi .protectionFault) [.addRsp 8]

/-- The gates that `init_idt` sets (`sys/idt.c:22-87`). -/
def idtWrapper : Nat → Option (List Instr)
  | 0 => some zeroExcep
  | 13 => some pageFault2
  | 14 => some pageFault
  | 32 => some timerFptr
  | 33 => some keyFptr
  | 0x80 => some syscallWrapper
  | _ => none

/-- The vectors for which the processor pushes an error code. -/
def hasErrorCode (v : Nat) : Bool := v == 8 || 10 ≤ v && v ≤ 14 || v == 17

/-- The stack pointer that the processor starts from: it aligns the kernel's to 16 bytes. -/
def alignedTop (top : Nat) : Nat := top / 16 * 16

/-- What the processor does at an interrupt: it pushes on the kernel stack below `top`. -/
def deliver (top v : Nat) (err : UInt64) (c : StackMachine Gpr) : StackMachine Gpr :=
  let d := pushAll gprProcessor.reverse { c with sp := alignedTop top }
  if hasErrorCode v then d.pushWord err else d

/-- The processor at the `call` of `_syscall`: the whole `gpr_t` is on the stack and `rdi` points
to it. -/
def trap (top : Nat) (c : StackMachine Gpr) : StackMachine Gpr :=
  let d := pushAll gprT.reverse { c with sp := alignedTop top }
  { d with regs := Function.update d.regs .rdi (UInt64.ofNat d.sp) }

/-- The pops and the `iretq` that the wrapper of system calls ends with, and each inline assembly
that starts a process. -/
def resume (c : StackMachine Gpr) : StackMachine Gpr := popAll gprT c

/-- C functions that come back with the stack pointer they got and leave the bytes between it and
`top` alone, when these are the frame of an interrupt. -/
def KeepsFrame (top : Nat) (body : HandlerBody) : Prop :=
  ∀ h c, alignedTop top ≤ c.sp + 168 → (body h c).sp = c.sp ∧
    ∀ x, c.sp ≤ x → x < alignedTop top → (body h c).mem.load x = c.mem.load x

/-- What an interrupted program finds changed when it goes on: nothing. -/
structure Undisturbed (top : Nat) (c d : StackMachine Gpr) : Prop where
  regs : d.regs = c.regs
  sp : d.sp = alignedTop top

end Sbunix
