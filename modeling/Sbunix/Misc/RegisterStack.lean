import Mathlib.Data.List.Nodup
import Sbunix.Misc.ByteRuns

/-!
# Registers on a stack

64-bit words in a byte memory, and a processor that pushes its registers on a stack and pops
them again. The stack grows downwards. A frame is a row of words with one for each register.
-/

namespace Sbunix

namespace ByteMem

variable {m m' : ByteMem} {a b x : Nat} {w : UInt64}

/-- The little-endian word at `a`. -/
def loadWord (m : ByteMem) (a : Nat) : UInt64 := UInt64.ofNat (m.number a 8)

/-- The eight bytes of a word stored at `a`, the lowest first. -/
def storeWord (m : ByteMem) (a : Nat) (w : UInt64) : ByteMem := m.storeNumber a w.toNat 8

theorem loadWord_congr (h : ∀ k < 8, m'.load (a + k) = m.load (b + k)) :
    m'.loadWord a = m.loadWord b := by
  unfold loadWord
  rw [number_congr h]

@[simp] theorem loadWord_storeWord : (m.storeWord a w).loadWord a = w := by
  have hlt : w.toNat < 256 ^ 8 := UInt64.toNat_lt w
  unfold loadWord storeWord
  rw [number_storeNumber (by decide), Nat.mod_eq_of_lt hlt, UInt64.ofNat_toNat]

theorem load_storeWord_other (ha : a + 8 ≤ 2 ^ 64) (hx : x < 2 ^ 64) (h : x < a ∨ a + 8 ≤ x) :
    (m.storeWord a w).load x = m.load x := by
  apply storeNumber_other
  intro k hk hs
  unfold SameAddr at hs
  omega

theorem loadWord_storeWord_other (ha : a + 8 ≤ 2 ^ 64) (hb : b + 8 ≤ 2 ^ 64)
    (h : b + 8 ≤ a ∨ a + 8 ≤ b) : (m.storeWord a w).loadWord b = m.loadWord b := by
  apply loadWord_congr
  intro k hk
  exact load_storeWord_other ha (by omega) (by omega)

end ByteMem

/-- The next word below, modulo `2 ^ 64`. The variable stands on the right of the sum, where the
kernel does not count with it. -/
def wordBelow (a : Nat) : Nat := (2 ^ 64 - 8 + a) % 2 ^ 64

/-- The next word above. -/
def wordAbove (a : Nat) : Nat := (8 + a) % 2 ^ 64

theorem wordBelow_eq {a : Nat} (h : 8 ≤ a) (hlt : a < 2 ^ 64) : wordBelow a = a - 8 := by
  unfold wordBelow
  omega

theorem wordAbove_eq {a : Nat} (h : a + 8 < 2 ^ 64) : wordAbove a = a + 8 := by
  unfold wordAbove
  omega

/-- A processor with the registers `ρ`. -/
structure StackMachine (ρ : Type) where
  regs : ρ → UInt64
  sp : Nat
  mem : ByteMem

namespace StackMachine

open ByteMem

variable {ρ : Type} {c : StackMachine ρ} {r : ρ} {l : List ρ} {m m' : ByteMem} {a x : Nat}
  {w : UInt64}

/-- A word stored below the stack pointer, which moves to it. -/
def pushWord (c : StackMachine ρ) (w : UInt64) : StackMachine ρ :=
  { c with sp := wordBelow c.sp, mem := c.mem.storeWord (wordBelow c.sp) w }

/-- The value of a register pushed. -/
def push (c : StackMachine ρ) (r : ρ) : StackMachine ρ := c.pushWord (c.regs r)

/-- Pushes the registers in the order of the list. -/
def pushAll : List ρ → StackMachine ρ → StackMachine ρ
  | [], c => c
  | r :: l, c => pushAll l (c.push r)

@[simp] theorem push_regs : (c.push r).regs = c.regs := rfl

theorem push_sp (h : 8 ≤ c.sp) (hlt : c.sp < 2 ^ 64) : (c.push r).sp = c.sp - 8 :=
  wordBelow_eq h hlt

theorem push_mem (h : 8 ≤ c.sp) (hlt : c.sp < 2 ^ 64) :
    (c.push r).mem = c.mem.storeWord (c.sp - 8) (c.regs r) := by
  rw [← wordBelow_eq h hlt]
  rfl

theorem pushAll_append (l l' : List ρ) (c : StackMachine ρ) :
    pushAll (l ++ l') c = pushAll l' (pushAll l c) := by
  induction l generalizing c with
  | nil => rfl
  | cons r l ih => exact ih (c.push r)

@[simp] theorem pushAll_regs (l : List ρ) (c : StackMachine ρ) : (pushAll l c).regs = c.regs := by
  induction l generalizing c with
  | nil => rfl
  | cons r l ih => exact ih (c.push r)

theorem pushAll_sp (h : 8 * l.length ≤ c.sp) (hlt : c.sp < 2 ^ 64) :
    (pushAll l c).sp = c.sp - 8 * l.length := by
  induction l generalizing c with
  | nil => rfl
  | cons r l ih =>
    rw [List.length_cons] at h ⊢
    have hsp := push_sp (r := r) (c := c) (by omega) hlt
    rw [pushAll, ih (by omega) (by omega)]
    omega

/-- A push changes the bytes between the new and the old stack pointer. -/
theorem pushAll_load (h : 8 * l.length ≤ c.sp) (hlt : c.sp < 2 ^ 64) (hx : x < 2 ^ 64)
    (hout : x + 8 * l.length < c.sp ∨ c.sp ≤ x) : (pushAll l c).mem.load x = c.mem.load x := by
  induction l generalizing c with
  | nil => rfl
  | cons r l ih =>
    rw [List.length_cons] at h hout
    have hsp := push_sp (r := r) (c := c) (by omega) hlt
    rw [pushAll, ih (by omega) (by omega) (by omega), push_mem (by omega) hlt]
    exact load_storeWord_other (by omega) hx (by omega)

variable [DecidableEq ρ]

/-- The word at the stack pointer taken into a register. -/
def pop (c : StackMachine ρ) (r : ρ) : StackMachine ρ :=
  { c with regs := Function.update c.regs r (c.mem.loadWord c.sp), sp := wordAbove c.sp }

/-- Pops the registers in the order of the list. -/
def popAll : List ρ → StackMachine ρ → StackMachine ρ
  | [], c => c
  | r :: l, c => popAll l (c.pop r)

/-- The words from `a` on, one for each register of the list. -/
def frame (m : ByteMem) (a : Nat) (l : List ρ) : ρ → UInt64 :=
  fun r => m.loadWord (a + 8 * l.idxOf r)

@[simp] theorem pop_mem : (c.pop r).mem = c.mem := rfl

theorem pop_sp (h : c.sp + 8 < 2 ^ 64) : (c.pop r).sp = c.sp + 8 := wordAbove_eq h

theorem popAll_append (l l' : List ρ) (c : StackMachine ρ) :
    popAll (l ++ l') c = popAll l' (popAll l c) := by
  induction l generalizing c with
  | nil => rfl
  | cons r l ih => exact ih (c.pop r)

@[simp] theorem popAll_mem (l : List ρ) (c : StackMachine ρ) : (popAll l c).mem = c.mem := by
  induction l generalizing c with
  | nil => rfl
  | cons r l ih => exact ih (c.pop r)

theorem popAll_sp (h : c.sp + 8 * l.length < 2 ^ 64) :
    (popAll l c).sp = c.sp + 8 * l.length := by
  induction l generalizing c with
  | nil => rfl
  | cons r l ih =>
    rw [List.length_cons] at h ⊢
    have hsp := pop_sp (r := r) (c := c) (by omega)
    rw [popAll, ih (by omega)]
    omega

/-- Above the new stack pointer lie the pushed registers, the last one first. -/
theorem pushAll_frame (hnd : l.Nodup) (h : 8 * l.length ≤ c.sp) (hlt : c.sp < 2 ^ 64)
    (hr : r ∈ l) : frame (pushAll l c).mem (pushAll l c).sp l.reverse r = c.regs r := by
  have hlen := pushAll_sp h hlt
  unfold frame
  rw [hlen]
  clear hlen
  induction l generalizing c with
  | nil => cases hr
  | cons r' l ih =>
    rw [List.length_cons] at h ⊢
    rw [List.nodup_cons] at hnd
    have hsp := push_sp (r := r') (c := c) (by omega) hlt
    have hmem := push_mem (r := r') (c := c) (by omega) hlt
    rw [pushAll, List.reverse_cons]
    by_cases hin : r ∈ l
    · have hidx : List.idxOf r (l.reverse ++ [r']) = List.idxOf r l.reverse :=
        List.idxOf_append_of_mem (List.mem_reverse.mpr hin)
      have hstep := ih (c := c.push r') hnd.2 (by omega) (by omega) hin
      rw [hsp, show c.sp - 8 - 8 * l.length = c.sp - 8 * (l.length + 1) by omega] at hstep
      rw [hidx, hstep, push_regs]
    · have heq : r = r' := (List.mem_cons.mp hr).resolve_right hin
      have hidx : List.idxOf r (l.reverse ++ [r']) = l.length := by
        rw [List.idxOf_append_of_notMem (fun hm => hin (List.mem_reverse.mp hm)), heq]
        simp
      -- the first word of all stays where the first push left it
      have hword : (pushAll l (c.push r')).mem.loadWord (c.sp - 8) =
          (c.push r').mem.loadWord (c.sp - 8) := by
        apply loadWord_congr
        intro k hk
        exact pushAll_load (by omega) (by omega) (by omega) (by omega)
      rw [hidx, show c.sp - 8 * (l.length + 1) + 8 * l.length = c.sp - 8 by omega, hword, hmem,
        loadWord_storeWord, heq]

/-- A pop takes the registers from the frame at the stack pointer. -/
theorem popAll_regs (hnd : l.Nodup) (h : c.sp + 8 * l.length < 2 ^ 64) :
    (popAll l c).regs r = if r ∈ l then frame c.mem c.sp l r else c.regs r := by
  induction l generalizing c with
  | nil => simp [popAll]
  | cons r' l ih =>
    rw [List.length_cons] at h
    rw [List.nodup_cons] at hnd
    have hsp := pop_sp (r := r') (c := c) (by omega)
    rw [popAll, ih hnd.2 (by omega), hsp, pop_mem]
    unfold frame
    by_cases hin : r ∈ l
    · have hne : r' ≠ r := fun he => hnd.1 (he ▸ hin)
      rw [if_pos hin, if_pos (List.mem_cons_of_mem _ hin), List.idxOf_cons_ne _ hne,
        show c.sp + 8 + 8 * List.idxOf r l = c.sp + 8 * (List.idxOf r l + 1) by omega]
    · by_cases heq : r = r'
      · rw [if_neg hin, heq, if_pos List.mem_cons_self, List.idxOf_cons_self]
        simp [pop]
      · have hout : r ∉ r' :: l := by
          rw [List.mem_cons, not_or]
          exact ⟨heq, hin⟩
        rw [if_neg hin, if_neg hout]
        exact Function.update_of_ne heq _ _

/-- A frame is what its bytes say. -/
theorem frame_congr {b : Nat} (hr : r ∈ l)
    (h : ∀ k < 8 * l.length, m'.load (a + k) = m.load (b + k)) :
    frame m' a l r = frame m b l r := by
  have hidx := List.idxOf_lt_length_iff.mpr hr
  apply loadWord_congr
  intro k hk
  rw [Nat.add_assoc, Nat.add_assoc]
  exact h _ (by omega)

/-- Storing the word of one register. -/
theorem frame_storeWord (hr : r ∈ l) (h : a + 8 * l.length ≤ 2 ^ 64) {r' : ρ} (hr' : r' ∈ l) :
    frame (m.storeWord (a + 8 * l.idxOf r) w) a l r' =
      Function.update (frame m a l) r w r' := by
  have hidx := List.idxOf_lt_length_iff.mpr hr
  have hidx' := List.idxOf_lt_length_iff.mpr hr'
  unfold frame
  by_cases heq : r' = r
  · rw [heq, Function.update_self, loadWord_storeWord]
  · have hne : l.idxOf r' ≠ l.idxOf r := fun he => heq ((List.idxOf_inj hr').mp he)
    rw [Function.update_of_ne heq]
    exact loadWord_storeWord_other (by omega) (by omega) (by omega)

/-- Registers pushed and popped again, with anything in between that brings the stack pointer
back and keeps the bytes from it on. -/
theorem popAll_pushAll {d : StackMachine ρ} (hnd : l.Nodup) (h : 8 * l.length ≤ c.sp)
    (hlt : c.sp < 2 ^ 64) (hsp : d.sp = (pushAll l c).sp)
    (hmem : ∀ k < 8 * l.length,
      d.mem.load (d.sp + k) = (pushAll l c).mem.load (d.sp + k)) :
    (popAll l.reverse d).sp = c.sp ∧
      ∀ r, (popAll l.reverse d).regs r = if r ∈ l then c.regs r else d.regs r := by
  have hlen := pushAll_sp h hlt
  have hback : d.sp + 8 * l.length = c.sp := by omega
  constructor
  · rw [popAll_sp] <;> rw [List.length_reverse]
    · exact hback
    · omega
  · intro r
    rw [popAll_regs (List.nodup_reverse.mpr hnd) (by rw [List.length_reverse]; omega)]
    by_cases hr : r ∈ l
    · have hr' := List.mem_reverse.mpr hr
      rw [if_pos hr', if_pos hr, ← pushAll_frame hnd h hlt hr, ← hsp]
      exact frame_congr hr' (by rw [List.length_reverse]; exact hmem)
    · rw [if_neg fun hm => hr (List.mem_reverse.mp hm), if_neg hr]

end StackMachine

end Sbunix
