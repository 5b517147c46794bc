import Mathlib.Data.List.GetD
import Mathlib.Logic.Function.Basic
import Sbunix.Misc.CharBuffer

/-!
# Reversal in place

The loop that swaps the two ends of a part of an array and goes on inside, for parts of odd and of
even length.
-/

namespace Sbunix

variable {α : Type*} {buf : Nat → α} {i j k : Nat}

/-- The array with two elements swapped. -/
def swapAt (buf : Nat → α) (j i : Nat) : Nat → α :=
  Function.update (Function.update buf i (buf j)) j (buf i)

theorem swapAt_left : swapAt buf j i j = buf i := Function.update_self ..

theorem swapAt_right : swapAt buf j i i = buf j := by
  unfold swapAt
  by_cases h : i = j
  · rw [h, Function.update_self]
  · rw [Function.update_of_ne h, Function.update_self]

theorem swapAt_of_ne (hj : k ≠ j) (hi : k ≠ i) : swapAt buf j i k = buf k := by
  unfold swapAt
  rw [Function.update_of_ne hj, Function.update_of_ne hi]

/-- The loop: `j` goes up and `i` comes down until they meet. -/
def reverseLoop (buf : Nat → α) (j i : Nat) : Nat → α :=
  if j < i then reverseLoop (swapAt buf j i) (j + 1) (i - 1) else buf
termination_by i - j

/-- An element from `j` to `i` comes from the place as far from the other end. -/
theorem reverseLoop_apply :
    reverseLoop buf j i k = if j ≤ k ∧ k ≤ i then buf (j + i - k) else buf k := by
  induction buf, j, i using reverseLoop.induct with
  | case1 buf j i hlt ih =>
    rw [reverseLoop, if_pos hlt, ih]
    by_cases hinner : j + 1 ≤ k ∧ k ≤ i - 1
    · rw [if_pos hinner, if_pos (by omega), show j + 1 + (i - 1) - k = j + i - k by omega,
        swapAt_of_ne (by omega) (by omega)]
    · rw [if_neg hinner]
      by_cases hj : k = j
      · rw [hj, if_pos (by omega), Nat.add_sub_cancel_left, swapAt_left]
      · by_cases hi : k = i
        · rw [hi, if_pos (by omega), Nat.add_sub_cancel, swapAt_right]
        · rw [if_neg (by omega), swapAt_of_ne hj hi]
  | case2 buf j i hge =>
    rw [reverseLoop, if_neg hge]
    split
    · congr 1
      omega
    · rfl

/-- A string at the start of a buffer, read backwards. What lies behind it stays. -/
theorem reverseLoop_withChars {buf : Nat → UInt8} {str : List UInt8} :
    reverseLoop (withChars buf 0 str) 0 (str.length - 1) = withChars buf 0 str.reverse := by
  funext k
  rw [reverseLoop_apply]
  by_cases hk : k < str.length
  · rw [if_pos (by omega), withChars_of_lt (by omega), withChars_of_lt (by simpa using hk),
      List.getD_eq_getElem _ _ (by omega), List.getD_eq_getElem _ _ (by simpa using hk),
      List.getElem_reverse]
    congr 1
    omega
  · have hlen : str.reverse.length ≤ k := by simpa using hk
    rw [withChars_of_le hlen]
    split
    · rw [withChars_of_le (by omega)]
      congr 1
      omega
    · rw [withChars_of_le (by omega)]

end Sbunix
