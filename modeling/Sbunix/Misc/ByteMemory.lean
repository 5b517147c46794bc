import Mathlib.Algebra.Ring.Nat
import Mathlib.Logic.Function.Basic

/-!
# Byte memory

A byte for each 64-bit address. Address arithmetic wraps around, so an address is any number
and counts modulo `2 ^ 64`.
-/

namespace Sbunix

/-- A memory as a function from addresses to bytes. -/
abbrev ByteMem := Nat → UInt8

/-- Two numbers that are one address. -/
def SameAddr (a b : Nat) : Prop := a % 2 ^ 64 = b % 2 ^ 64

instance (a b : Nat) : Decidable (SameAddr a b) := inferInstanceAs (Decidable (_ = _))

namespace ByteMem

variable {m m' : ByteMem} {a b v : Nat} {w : UInt8}

/-- The byte at an address, which wraps at `2 ^ 64`. -/
def load (m : ByteMem) (a : Nat) : UInt8 := m (a % 2 ^ 64)

/-- The memory with one byte changed. -/
def store (m : ByteMem) (a : Nat) (w : UInt8) : ByteMem := Function.update m (a % 2 ^ 64) w

theorem load_congr (h : SameAddr a b) : m.load a = m.load b := congrArg m h

@[simp] theorem load_store_same : (m.store a w).load a = w := by
  simp [load, store]

theorem load_store (h : SameAddr b a) : (m.store a w).load b = w := by
  rw [load_congr h, load_store_same]

@[simp] theorem load_store_other (h : ¬ SameAddr b a) : (m.store a w).load b = m.load b := by
  apply Function.update_of_ne
  exact h

/-- The `n` addresses from `v` on. -/
def Range (v n a : Nat) : Prop := ∃ i < n, SameAddr a (v + i)

/-- Offsets below `2 ^ 64` lead to different addresses. -/
theorem sameAddr_add {i j : Nat} (hi : i < 2 ^ 64) (hj : j < 2 ^ 64)
    (h : SameAddr (v + i) (v + j)) : i = j := by
  unfold SameAddr at h
  omega

/-- The little-endian number in the `n` bytes from `a` on. -/
def number (m : ByteMem) (a : Nat) : Nat → Nat
  | 0 => 0
  | n + 1 => (m.load a).toNat + 256 * m.number (a + 1) n

theorem number_lt (n : Nat) : m.number a n < 256 ^ n := by
  induction n generalizing a with
  | zero => simp [number]
  | succ n ih =>
    have h : (m.load a).toNat < 256 := UInt8.toNat_lt (m.load a)
    have ih' := @ih (a + 1)
    rw [Nat.pow_succ]
    simp only [number]
    omega

/-- The little-endian bytes of `w`, `n` of them, from `a` on. -/
def storeNumber (m : ByteMem) (a w : Nat) : Nat → ByteMem
  | 0 => m
  | n + 1 => (m.store a (UInt8.ofNat w)).storeNumber (a + 1) (w / 256) n

end ByteMem

end Sbunix
