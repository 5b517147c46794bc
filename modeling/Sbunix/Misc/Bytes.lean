import Mathlib.Algebra.Ring.Int.Defs
import Mathlib.Algebra.Ring.Nat
import Mathlib.Data.Int.DivMod
import Mathlib.Logic.Function.Basic
import Mathlib.Tactic.SplitIfs

/-!
# Words and registers

Little-endian 64-bit words at any offset of a byte array, and the masks, shifts and
C conversions of 64-bit registers, over natural numbers and integers.
-/

namespace Sbunix

variable {b b' : Nat → Nat} {o o' w x : Nat}

/-- C conversion of a register value to `int`. -/
def toInt32 (n : Nat) : Int := (n : Int).bmod (2 ^ 32)

/-- C conversion of an `int` to `uint64_t` (sign extension). -/
def toUint64 (i : Int) : Nat := (i % 2 ^ 64).toNat

theorem bmod32 (x : Int) :
    x.bmod (2 ^ 32) = if x % 2 ^ 32 < 2 ^ 31 then x % 2 ^ 32 else x % 2 ^ 32 - 2 ^ 32 :=
  Int.bmod_def x (2 ^ 32)

theorem toInt32_low (h : w < 2 ^ 31) : toInt32 w = w := by
  unfold toInt32
  rw [bmod32, if_pos] <;> omega

theorem toInt32_high (h : 0xFFFFFFFF80000000 ≤ w) (h' : w < 2 ^ 64) :
    toInt32 w = (w : Int) - 2 ^ 64 := by
  unfold toInt32
  rw [bmod32, if_neg] <;> omega

/-- Sign extension gives back the addresses of the low and of the high 2 GiB. -/
theorem toUint64_toInt32 (h : w < 2 ^ 31 ∨ 0xFFFFFFFF80000000 ≤ w ∧ w < 2 ^ 64) :
    toUint64 (toInt32 w) = w := by
  rcases h with h | ⟨h, h'⟩
  · rw [toInt32_low h]
    unfold toUint64
    omega
  · rw [toInt32_high h h']
    unfold toUint64
    omega

/-- The 64-bit word at byte offset `o`. -/
def rd64 (b : Nat → Nat) (o : Nat) : Nat :=
  b o + 256 * (b (o + 1) + 256 * (b (o + 2) + 256 * (b (o + 3) + 256 * (b (o + 4) +
    256 * (b (o + 5) + 256 * (b (o + 6) + 256 * b (o + 7)))))))

/-- Stores a 64-bit word at byte offset `o`. -/
def wr64 (b : Nat → Nat) (o w : Nat) : Nat → Nat :=
  fun x => if o ≤ x ∧ x < o + 8 then w / 256 ^ (x - o) % 256 else b x

theorem wr64_other (h : x < o ∨ o + 8 ≤ x) : wr64 b o w x = b x := by
  unfold wr64
  rw [if_neg (by omega)]

theorem rd64_congr (h : ∀ k < 8, b' (o + k) = b (o + k)) : rd64 b' o = rd64 b o := by
  have h0 := h 0 (by omega)
  rw [Nat.add_zero] at h0
  unfold rd64
  rw [h0, h 1 (by omega), h 2 (by omega), h 3 (by omega), h 4 (by omega), h 5 (by omega),
    h 6 (by omega), h 7 (by omega)]

theorem rd64_wr64_other (h : o' + 8 ≤ o ∨ o + 8 ≤ o') : rd64 (wr64 b o w) o' = rd64 b o' :=
  rd64_congr fun _ _ => wr64_other (by omega)

theorem rd64_wr64_same (h : w < 2 ^ 64) : rd64 (wr64 b o w) o = w := by
  have hk : ∀ k < 8, wr64 b o w (o + k) = w / 256 ^ k % 256 := by
    intro k hk
    unfold wr64
    rw [if_pos (by omega), Nat.add_sub_cancel_left]
  have h0 := hk 0 (by omega)
  rw [Nat.add_zero] at h0
  unfold rd64
  rw [h0, hk 1 (by omega), hk 2 (by omega), hk 3 (by omega), hk 4 (by omega), hk 5 (by omega),
    hk 6 (by omega), hk 7 (by omega)]
  omega

theorem rd64_zero (h : ∀ k < 8, b (o + k) = 0) : rd64 b o = 0 := by
  have h0 := h 0 (by omega)
  rw [Nat.add_zero] at h0
  unfold rd64
  rw [h0, h 1 (by omega), h 2 (by omega), h 3 (by omega), h 4 (by omega), h 5 (by omega),
    h 6 (by omega), h 7 (by omega)]

/-- The array with the bytes below `n` cleared. -/
def clearTo (b : Nat → Nat) (n : Nat) : Nat → Nat := fun x => if x < n then 0 else b x

theorem clearTo_zero (b : Nat → Nat) : clearTo b 0 = b := by
  funext x
  simp [clearTo]

/-- A further zero word that starts inside the cleared part. -/
theorem wr64_clearTo {n : Nat} (ho : o ≤ n) (hn : n ≤ o + 8) :
    wr64 (clearTo b n) o 0 = clearTo b (o + 8) := by
  funext x
  unfold wr64 clearTo
  by_cases hx : o ≤ x ∧ x < o + 8
  · rw [if_pos hx, if_pos hx.2]
    simp
  · rw [if_neg hx]
    by_cases hlt : x < n
    · rw [if_pos hlt, if_pos (by omega)]
    · rw [if_neg hlt, if_neg (by omega)]

/-- Clearing the low twelve bits of a 64-bit register. -/
theorem and_pageMask (h : x < 2 ^ 64) : x &&& 0xFFFFFFFFFFFFF000 = x / 4096 * 4096 := by
  rw [show (0xFFFFFFFFFFFFF000 : Nat) = (2 ^ 52 - 1) * 2 ^ 12 by decide,
    show x / 4096 * 4096 = x / 2 ^ 12 * 2 ^ 12 by rfl]
  apply Nat.eq_of_testBit_eq
  intro i
  rw [Nat.testBit_and, Nat.testBit_mul_two_pow, Nat.testBit_mul_two_pow,
    Nat.testBit_two_pow_sub_one, Nat.testBit_div_two_pow]
  by_cases hi : 12 ≤ i
  · rw [show i - 12 + 12 = i by omega]
    by_cases hlt : i - 12 < 52
    · simp [hi, hlt]
    · have hz : x.testBit i = false := by
        apply Nat.testBit_lt_two_pow
        exact Nat.lt_of_lt_of_le h (Nat.pow_le_pow_right (by decide) (by omega))
      simp [hz]
  · simp [hi]

/-- Or-ing flags into the low bits of a shifted number adds them. -/
theorem shift_or {n k i : Nat} (h : i < 2 ^ k) : n * 2 ^ k ||| i = n * 2 ^ k + i := by
  rw [Nat.mul_comm, ← Nat.two_pow_add_eq_or_of_lt h]

theorem entry_lt {n e : Nat} (hn : n < 2 ^ 52) (he : e < 4096) : n * 4096 + e < 2 ^ 64 := by omega

theorem entry_div {n e : Nat} (he : e < 4096) : (n * 4096 + e) / 4096 = n := by omega

theorem entry_mod {n e : Nat} (he : e < 4096) : (n * 4096 + e) % 4096 = e := by omega

theorem entry_odd {n e : Nat} (he : e % 2 = 1) : (n * 4096 + e) % 2 = 1 := by omega

/-- A page-table entry keeps the frame number and gets new flags. -/
theorem and_or_flags {n e : Nat} (hx : x < 2 ^ 64) (hn : x / 4096 = n) (he : e < 4096) :
    (x &&& 0xFFFFFFFFFFFFF000) ||| e = n * 4096 + e := by
  rw [and_pageMask hx, hn]
  exact shift_or (k := 12) he

end Sbunix
