import Sbunix.Sys.IsrWrapper

/-!
# Interrupts do not disturb

Whatever interrupts a program, the wrapper brings all its registers back.
-/

namespace Sbunix

open StackMachine ByteMem

variable {body : HandlerBody} {c d e : StackMachine Gpr} {inner after : List Instr} {top v : Nat}
  {err : UInt64} {s : IsrState} {out : List (UInt8 × UInt8)} {m m' : ByteMem} {a : Nat}

/-! ## Frames -/

theorem gprT_nodup : gprT.Nodup := by decide

theorem mem_gprT (f : Gpr) : f ∈ gprT := by cases f <;> decide

theorem mem_gprPushed_or (f : Gpr) : f ∈ gprPushed ∨ f ∈ gprProcessor :=
  List.mem_append.mp (mem_gprT f)

/-- A process starts with the registers of the frame. -/
theorem resume_regs (h : c.sp + 160 < 2 ^ 64) : (resume c).regs = frame c.mem c.sp gprT := by
  funext f
  rw [resume, popAll_regs gprT_nodup h, if_pos (mem_gprT f)]

theorem gprFrame_congr {b : Nat} (h : ∀ k < 160, m'.load (a + k) = m.load (b + k)) :
    frame m' a gprT = frame m b gprT := by
  funext f
  exact frame_congr (mem_gprT f) h

/-- Storing one field of a `gpr_t`. -/
theorem gprFrame_storeWord {f : Gpr} {w : UInt64} (h : a + 160 ≤ 2 ^ 64) :
    frame (m.storeWord (a + 8 * gprT.idxOf f) w) a gprT = Function.update (frame m a gprT) f w := by
  funext f'
  exact frame_storeWord (mem_gprT f) h (mem_gprT f')

theorem alignedTop_le (top : Nat) : alignedTop top ≤ top := Nat.div_mul_le_self top 16

theorem trap_sp (h : 160 ≤ alignedTop top) (hlt : top < 2 ^ 64) :
    (trap top c).sp = alignedTop top - 160 := by
  have hle := alignedTop_le top
  exact pushAll_sp (l := gprT.reverse) (c := { c with sp := alignedTop top }) h
    (Nat.lt_of_le_of_lt hle hlt)

/-- `sys_call` finds the registers of the program in its argument. -/
theorem trap_frame (h : 160 ≤ alignedTop top) (hlt : top < 2 ^ 64) :
    frame (trap top c).mem (trap top c).sp gprT = c.regs := by
  have hle := alignedTop_le top
  funext f
  have hf := pushAll_frame (l := gprT.reverse) (c := { c with sp := alignedTop top }) (r := f)
    (List.nodup_reverse.mpr gprT_nodup) h (Nat.lt_of_le_of_lt hle hlt)
    (List.mem_reverse.mpr (mem_gprT f))
  rw [List.reverse_reverse] at hf
  exact hf

theorem trap_load {x : Nat} (h : 160 ≤ alignedTop top) (hlt : top < 2 ^ 64) (hx : x < 2 ^ 64)
    (hout : x + 160 < alignedTop top ∨ alignedTop top ≤ x) :
    (trap top c).mem.load x = c.mem.load x := by
  have hle := alignedTop_le top
  exact pushAll_load (l := gprT.reverse) (c := { c with sp := alignedTop top }) h
    (Nat.lt_of_le_of_lt hle hlt) hx hout

/-! ## The wrappers -/

theorem execAll_append (is is' : List Instr) (s : IsrState) :
    execAll body (is ++ is') s = execAll body is' (execAll body is s) := by
  induction is generalizing s with
  | nil => rfl
  | cons i is ih => exact ih (i.exec body s)

theorem execAll_pushq (l : List Gpr) (s : IsrState) :
    execAll body (l.map .pushq) s = { s with cpu := pushAll l s.cpu } := by
  induction l generalizing s with
  | nil => rfl
  | cons r l ih => exact ih { s with cpu := s.cpu.push r }

theorem execAll_popq (l : List Gpr) (s : IsrState) :
    execAll body (l.map .popq) s = { s with cpu := popAll l s.cpu } := by
  induction l generalizing s with
  | nil => rfl
  | cons r l ih => exact ih { s with cpu := s.cpu.pop r }

theorem execAll_pushGprs :
    execAll body pushGprs s = { s with cpu := pushAll gprPushed.reverse s.cpu } :=
  execAll_pushq gprPushed.reverse s

theorem execAll_popGprs :
    execAll body popGprs s = { s with cpu := popAll gprPushed s.cpu } :=
  execAll_popq gprPushed s

/-- Instructions that come back with the stack pointer they got and leave the bytes between it and
`top` alone. -/
def KeepsStack (top : Nat) (body : HandlerBody) (inner : List Instr) : Prop :=
  ∀ s, alignedTop top ≤ s.cpu.sp + 168 → (execAll body inner s).cpu.sp = s.cpu.sp ∧
    ∀ x, s.cpu.sp ≤ x → x < alignedTop top →
      (execAll body inner s).cpu.mem.load x = s.cpu.mem.load x

theorem callEoi_keepsStack {h : Handler} (hb : KeepsFrame top body) :
    KeepsStack top body (callEoi h) :=
  fun s => hb h s.cpu

theorem syscallInner_keepsStack (hb : KeepsFrame top body) :
    KeepsStack top body [.movqRsp .rdi, .call .sysCall] :=
  fun s => hb .sysCall (s.setReg .rdi (UInt64.ofNat s.cpu.sp)).cpu

theorem callEoi_out {h : Handler} :
    (execAll body (callEoi h) s).out = s.out ++ [(0x20, 0x20)] := by
  have hbyte : ∀ x : UInt64, ((x &&& ~~~0xFF) ||| (0x20 : UInt8).toUInt64).toUInt8 = 0x20 := by
    intro x
    rw [UInt64.toUInt8_or, UInt64.toUInt8_and]
    show x.toUInt8 &&& 0 ||| 0x20 = 0x20
    simp
  show s.out ++ [(0x20, (((body h s.cpu).regs .rax &&& ~~~0xFF) |||
    (0x20 : UInt8).toUInt64).toUInt8)] = _
  rw [hbyte]

/-- What the wrapper does with the stack `e` that the processor has prepared: the frame of the
processor lies `n` bytes above its stack pointer. -/
theorem isrWrapper_returns {n : Nat} (hinner : KeepsStack top body inner)
    (hn : n ≤ 8) (htop : 160 + n ≤ alignedTop top) (hlt : top < 2 ^ 64) (hregs : e.regs = c.regs)
    (hsp : e.sp = alignedTop top - 40 - n)
    (hmem : ∀ x, alignedTop top - 40 ≤ x → x < alignedTop top → e.mem.load x =
      (pushAll gprProcessor.reverse { c with sp := alignedTop top }).mem.load x)
    (hafter : ∀ s : IsrState, s.cpu.sp = e.sp →
      (execAll body after s).cpu = { s.cpu with sp := alignedTop top - 40 }) :
    Undisturbed top c (execAll body (isrWrapper inner after) ⟨e, out⟩).cpu := by
  have hle := alignedTop_le top
  unfold isrWrapper
  rw [execAll_append, execAll_append, execAll_append, execAll_append, execAll_pushGprs,
    execAll_popGprs]
  generalize hp : pushAll gprPushed.reverse e = p
  have hplen : p.sp = e.sp - 120 := by
    rw [← hp]
    exact pushAll_sp (by show 120 ≤ e.sp; omega) (by omega)
  have hin := hinner ⟨p, out⟩ (by dsimp only; omega)
  generalize execAll body inner ⟨p, out⟩ = s₁ at hin
  -- the general registers
  have hpop := popAll_pushAll (l := gprPushed.reverse) (c := e) (d := s₁.cpu) (by decide)
    (by show 120 ≤ e.sp; omega) (by omega) (by rw [hp]; exact hin.1)
    (by
      intro k hk
      have hk' : k < 120 := hk
      rw [hp]
      exact hin.2 _ (by rw [hin.1]; omega) (by rw [hin.1]; dsimp only; omega))
  rw [List.reverse_reverse] at hpop
  have hpm : (popAll gprPushed s₁.cpu).mem = s₁.cpu.mem := popAll_mem _ _
  generalize popAll gprPushed s₁.cpu = q at hpop hpm
  have haft := hafter { s₁ with cpu := q } hpop.1
  generalize execAll body after { s₁ with cpu := q } = s₂ at haft
  show Undisturbed top c (popAll gprProcessor s₂.cpu)
  rw [haft]
  -- bytes from the processor's frame on
  have hkept : ∀ x, alignedTop top - 40 ≤ x → x < alignedTop top → s₁.cpu.mem.load x =
      (pushAll gprProcessor.reverse { c with sp := alignedTop top }).mem.load x := by
    intro x hx hx'
    have hpush : p.mem.load x = e.mem.load x := by
      rw [← hp]
      exact pushAll_load (by show 120 ≤ e.sp; omega) (by omega) (by omega) (.inr (by omega))
    rw [hin.2 x (by dsimp only; omega) hx', hpush, hmem x hx hx']
  have hproc : (pushAll gprProcessor.reverse { c with sp := alignedTop top }).sp =
      alignedTop top - 40 := by
    apply pushAll_sp (c := { c with sp := alignedTop top })
    · show 40 ≤ alignedTop top
      omega
    · show alignedTop top < 2 ^ 64
      omega
  have hlast := popAll_pushAll (l := gprProcessor.reverse) (c := { c with sp := alignedTop top })
    (d := { q with sp := alignedTop top - 40 }) (by decide)
    (by show 40 ≤ alignedTop top; omega) (by show alignedTop top < 2 ^ 64; omega) hproc.symm
    (by
      intro k hk
      have hk' : k < 40 := hk
      dsimp only
      rw [hpm]
      exact hkept _ (by omega) (by omega))
  rw [List.reverse_reverse] at hlast
  refine ⟨?_, hlast.1⟩
  · funext f
    rw [hlast.2 f]
    by_cases hf : f ∈ gprProcessor.reverse
    · rw [if_pos hf]
    · have hf' : f ∈ gprPushed.reverse := List.mem_reverse.mpr
        ((mem_gprPushed_or f).resolve_right fun hm => hf (List.mem_reverse.mpr hm))
      rw [if_neg hf]
      show q.regs f = c.regs f
      rw [hpop.2 f, if_pos hf', hregs]

theorem processor_sp (htop : 40 ≤ alignedTop top) (hlt : top < 2 ^ 64) :
    (pushAll gprProcessor.reverse { c with sp := alignedTop top }).sp = alignedTop top - 40 := by
  have hle := alignedTop_le top
  exact pushAll_sp (l := gprProcessor.reverse) (c := { c with sp := alignedTop top }) htop
    (Nat.lt_of_le_of_lt hle hlt)

theorem deliver_plain (hv : hasErrorCode v = false) :
    deliver top v err c = pushAll gprProcessor.reverse { c with sp := alignedTop top } := by
  simp [deliver, hv]

theorem deliver_error (hv : hasErrorCode v = true) :
    deliver top v err c =
      (pushAll gprProcessor.reverse { c with sp := alignedTop top }).pushWord err := by
  simp [deliver, hv]

theorem deliver_error_sp (hv : hasErrorCode v = true) (htop : 168 ≤ alignedTop top)
    (hlt : top < 2 ^ 64) : (deliver top v err c).sp = alignedTop top - 48 := by
  have hle := alignedTop_le top
  have hsp := processor_sp (c := c) (by omega) hlt
  rw [deliver_error hv]
  show wordBelow (pushAll gprProcessor.reverse { c with sp := alignedTop top }).sp = _
  rw [hsp, wordBelow_eq (by omega) (by omega)]
  omega

/-- The error code lies below the frame of the processor. -/
theorem deliver_error_load (hv : hasErrorCode v = true) (htop : 168 ≤ alignedTop top)
    (hlt : top < 2 ^ 64) {x : Nat} (hx : x < 2 ^ 64)
    (hout : x + 48 < alignedTop top ∨ alignedTop top ≤ x + 40) :
    (deliver top v err c).mem.load x =
      (pushAll gprProcessor.reverse { c with sp := alignedTop top }).mem.load x := by
  have hle := alignedTop_le top
  have hsp := processor_sp (c := c) (by omega) hlt
  rw [deliver_error hv]
  show (storeWord _ (wordBelow (pushAll _ _).sp) err).load x = _
  rw [hsp, wordBelow_eq (by omega) (by omega)]
  exact load_storeWord_other (by omega) hx (by omega)

theorem deliver_regs : (deliver top v err c).regs = c.regs := by
  cases hv : hasErrorCode v with
  | false => rw [deliver_plain hv]; exact pushAll_regs _ _
  | true => rw [deliver_error hv]; exact pushAll_regs _ _

/-- Without an error code the frame of the processor is complete. -/
theorem plain_returns (hv : hasErrorCode v = false) (hinner : KeepsStack top body inner)
    (htop : 168 ≤ alignedTop top) (hlt : top < 2 ^ 64) :
    Undisturbed top c (execAll body (isrWrapper inner []) ⟨deliver top v err c, out⟩).cpu := by
  have hsp := processor_sp (c := c) (by omega) hlt
  have hd : (deliver top v err c).sp = alignedTop top - 40 := by rw [deliver_plain hv, hsp]
  apply isrWrapper_returns (n := 0) hinner (by decide) (by omega) hlt deliver_regs hd
  · intro x _ _
    rw [deliver_plain hv]
  · intro s hs
    rw [hd] at hs
    rw [← hs]
    rfl

/-- With an error code the wrapper skips one word. -/
theorem errorCode_returns (hv : hasErrorCode v = true) (hinner : KeepsStack top body inner)
    (htop : 168 ≤ alignedTop top) (hlt : top < 2 ^ 64) :
    Undisturbed top c
      (execAll body (isrWrapper inner [.addRsp 8]) ⟨deliver top v err c, out⟩).cpu := by
  have hle := alignedTop_le top
  have hd : (deliver top v err c).sp = alignedTop top - 48 := deliver_error_sp hv htop hlt
  apply isrWrapper_returns (n := 8) hinner (by decide) (by omega) hlt deliver_regs hd
  · intro x hx hx'
    exact deliver_error_load hv htop hlt (by omega) (.inr (by omega))
  · intro s hs
    rw [hd] at hs
    show ({ s.cpu with sp := (8 + s.cpu.sp) % 2 ^ 64 } : StackMachine Gpr) = _
    rw [hs, show (8 + (alignedTop top - 48)) % 2 ^ 64 = alignedTop top - 40 by omega]

/-- Pushes, pops, the skipped error code and `iretq` write to no port. -/
theorem isrWrapper_out {l : List (UInt8 × UInt8)} (hafter : after = [] ∨ after = [.addRsp 8])
    (hinner : ∀ s, (execAll body inner s).out = s.out ++ l) :
    (execAll body (isrWrapper inner after) ⟨e, out⟩).out = out ++ l := by
  unfold isrWrapper
  rw [execAll_append, execAll_append, execAll_append, execAll_append, execAll_pushGprs,
    execAll_popGprs, ← hinner ⟨pushAll gprPushed.reverse e, out⟩]
  cases hafter with
  | inl h => rw [h]; rfl
  | inr h => rw [h]; rfl

/-- An interrupted program goes on with all its registers, for every gate of the table and every
C function behind it that keeps to its own part of the stack. Each gate but that of system calls
sends one end-of-interrupt command. -/
theorem interrupt_undisturbed {code : List Instr} (hv : idtWrapper v = some code)
    (hb : KeepsFrame top body) (htop : 168 ≤ alignedTop top) (hlt : top < 2 ^ 64) :
    Undisturbed top c (execAll body code ⟨deliver top v err c, out⟩).cpu ∧
      (execAll body code ⟨deliver top v err c, out⟩).out =
        out ++ if v = 0x80 then [] else [(0x20, 0x20)] := by
  have hplain : ∀ {h : Handler} {v : Nat}, hasErrorCode v = false → v ≠ 0x80 →
      Undisturbed top c (execAll body (isrWrapper (callEoi h) []) ⟨deliver top v err c, out⟩).cpu ∧
      (execAll body (isrWrapper (callEoi h) []) ⟨deliver top v err c, out⟩).out =
        out ++ if v = 0x80 then [] else [(0x20, 0x20)] := by
    intro h v hcode hne
    rw [if_neg hne]
    exact ⟨plain_returns hcode (callEoi_keepsStack hb) htop hlt,
      isrWrapper_out (.inl rfl) fun s => callEoi_out⟩
  have herror : ∀ {h : Handler} {v : Nat}, hasErrorCode v = true → v ≠ 0x80 →
      Undisturbed top c
        (execAll body (isrWrapper (callEoi h) [.addRsp 8]) ⟨deliver top v err c, out⟩).cpu ∧
      (execAll body (isrWrapper (callEoi h) [.addRsp 8]) ⟨deliver top v err c, out⟩).out =
        out ++ if v = 0x80 then [] else [(0x20, 0x20)] := by
    intro h v hcode hne
    rw [if_neg hne]
    exact ⟨errorCode_returns hcode (callEoi_keepsStack hb) htop hlt,
      isrWrapper_out (.inr rfl) fun s => callEoi_out⟩
  unfold idtWrapper at hv
  split at hv <;> cases hv
  · exact hplain rfl (by decide)
  · exact herror rfl (by decide)
  · exact herror rfl (by decide)
  · exact hplain rfl (by decide)
  · exact hplain rfl (by decide)
  · rw [if_pos rfl]
    exact ⟨plain_returns rfl (syscallInner_keepsStack hb) htop hlt,
      isrWrapper_out (.inl rfl) fun s => (List.append_nil s.out).symm⟩

/-- A C function that changes every register and clears the bytes below its stack pointer. -/
def wreck : HandlerBody := fun _ c =>
  { c with regs := fun _ => 7, mem := fun x => if x < c.sp then 0 else c.mem x }

theorem wreck_keepsFrame : KeepsFrame 4096 wreck := by
  intro h c _
  refine ⟨rfl, ?_⟩
  intro x hx hx'
  have hlt : x < 2 ^ 64 := Nat.lt_trans hx' (by decide)
  simp only [wreck, ByteMem.load, Nat.mod_eq_of_lt hlt, if_neg (Nat.not_lt.mpr hx)]

/-- A timer interrupt. -/
theorem interrupt_undisturbed_timer :
    Undisturbed 4096 ⟨fun _ => 1, 0, fun _ => 0⟩
      (execAll wreck timerFptr ⟨deliver 4096 32 0 ⟨fun _ => 1, 0, fun _ => 0⟩, []⟩).cpu :=
  (interrupt_undisturbed (v := 32) rfl wreck_keepsFrame (by decide) (by decide)).1

/-- Memory after an interrupt is as the C function left it. -/
theorem isrWrapper_mem (hafter : after = [] ∨ after = [.addRsp 8]) :
    (execAll body (isrWrapper inner after) ⟨e, out⟩).cpu.mem =
      (execAll body inner ⟨pushAll gprPushed.reverse e, out⟩).cpu.mem := by
  unfold isrWrapper
  rw [execAll_append, execAll_append, execAll_append, execAll_append, execAll_pushGprs,
    execAll_popGprs]
  generalize execAll body inner ⟨pushAll gprPushed.reverse e, out⟩ = s₁
  have hpop : (popAll gprPushed s₁.cpu).mem = s₁.cpu.mem := popAll_mem _ _
  cases hafter with
  | inl h => rw [h]; exact (popAll_mem gprProcessor _).trans hpop
  | inr h => rw [h]; exact (popAll_mem gprProcessor _).trans hpop

theorem interrupt_mem {code : List Instr} (hv : idtWrapper v = some code) (hne : v ≠ 0x80) :
    ∃ h, (execAll body code ⟨deliver top v err c, out⟩).cpu.mem =
      (body h (pushAll gprPushed.reverse (deliver top v err c))).mem := by
  unfold idtWrapper at hv
  split at hv <;> cases hv
  · exact ⟨_, isrWrapper_mem (.inl rfl)⟩
  · exact ⟨_, isrWrapper_mem (.inr rfl)⟩
  · exact ⟨_, isrWrapper_mem (.inr rfl)⟩
  · exact ⟨_, isrWrapper_mem (.inl rfl)⟩
  · exact ⟨_, isrWrapper_mem (.inl rfl)⟩
  · exact absurd rfl hne

/-- The processor uses at most 48 bytes. -/
theorem deliver_spec (htop : 168 ≤ alignedTop top) (hlt : top < 2 ^ 64) :
    alignedTop top ≤ (deliver top v err c).sp + 48 ∧
      (deliver top v err c).sp + 40 ≤ alignedTop top ∧
      ∀ x < 2 ^ 64, x + 48 < alignedTop top ∨ alignedTop top ≤ x →
        (deliver top v err c).mem.load x = c.mem.load x := by
  have hle := alignedTop_le top
  have hsp := processor_sp (c := c) (by omega) hlt
  have hload : ∀ x < 2 ^ 64, x + 48 < alignedTop top ∨ alignedTop top ≤ x →
      (pushAll gprProcessor.reverse { c with sp := alignedTop top }).mem.load x = c.mem.load x := by
    intro x hx hout
    apply pushAll_load (c := { c with sp := alignedTop top })
    · show 40 ≤ alignedTop top
      omega
    · show alignedTop top < 2 ^ 64
      omega
    · exact hx
    · show x + 40 < alignedTop top ∨ alignedTop top ≤ x
      omega
  cases hv : hasErrorCode v with
  | false =>
    rw [deliver_plain hv, hsp]
    exact ⟨by omega, by omega, hload⟩
  | true =>
    rw [deliver_error_sp hv htop hlt]
    refine ⟨by omega, by omega, ?_⟩
    intro x hx hout
    rw [deliver_error_load hv htop hlt hx (by omega)]
    exact hload x hx hout

/-- Delivery and the pushes of the wrapper take at most 168 bytes. -/
theorem delivered_spec (htop : 168 ≤ alignedTop top) (hlt : top < 2 ^ 64) :
    alignedTop top ≤ (pushAll gprPushed.reverse (deliver top v err c)).sp + 168 ∧
      (pushAll gprPushed.reverse (deliver top v err c)).sp + 160 ≤ alignedTop top ∧
      ∀ x < 2 ^ 64, x + 168 < alignedTop top ∨ alignedTop top ≤ x →
        (pushAll gprPushed.reverse (deliver top v err c)).mem.load x = c.mem.load x := by
  have hle := alignedTop_le top
  obtain ⟨hlow, hhigh, hload⟩ := deliver_spec (v := v) (c := c) htop hlt
  generalize deliver top v err c = e at hlow hhigh hload
  have hsp : (pushAll gprPushed.reverse e).sp = e.sp - 120 :=
    pushAll_sp (by show 120 ≤ e.sp; omega) (by omega)
  rw [hsp]
  refine ⟨by omega, by omega, ?_⟩
  intro x hx hout
  rw [← hload x hx (by omega)]
  exact pushAll_load (by show 120 ≤ e.sp; omega) (by omega) hx
    (by show x + 120 < e.sp ∨ e.sp ≤ x; omega)

/-! ## What the C functions find -/

/-- A system call is `sys_call` on the frame of the program, and the program goes on with what
the frame holds then. -/
theorem syscallWrapper_run :
    execAll body syscallWrapper ⟨deliver top 0x80 err c, out⟩ =
      ⟨resume (body .sysCall (trap top c)), out⟩ := by
  have hd : deliver top 0x80 err c =
      pushAll gprProcessor.reverse { c with sp := alignedTop top } := rfl
  have hpush : pushAll gprPushed.reverse (deliver top 0x80 err c) =
      pushAll gprT.reverse { c with sp := alignedTop top } := by
    rw [hd, ← pushAll_append]
    rfl
  unfold syscallWrapper isrWrapper
  rw [execAll_append, execAll_append, execAll_append, execAll_append, execAll_pushGprs,
    execAll_popGprs, hpush]
  show IsrState.mk (popAll gprProcessor (popAll gprPushed (body .sysCall (trap top c)))) out = _
  rw [← popAll_append]
  rfl

end Sbunix
