import Mathlib.Data.List.GetD
import Mathlib.Logic.Function.Basic

/-!
# Character buffers

Characters stored one after another to a buffer of a fixed size, and strings that a buffer holds
with their NUL.
-/

namespace Sbunix

variable {buf : Nat → UInt8} {str str' : List UInt8} {i size : Nat}

/-- The buffer with characters from index `i` on. -/
def withChars (buf : Nat → UInt8) (i : Nat) (str : List UInt8) : Nat → UInt8 :=
  fun k => if i ≤ k ∧ k < i + str.length then str.getD (k - i) 0 else buf k

theorem withChars_nil : withChars buf i [] = buf := by
  funext k
  unfold withChars
  rw [if_neg (by simp)]

theorem withChars_cons {c : UInt8} :
    withChars (Function.update buf i c) (i + 1) str = withChars buf i (c :: str) := by
  funext k
  unfold withChars
  simp only [List.length_cons]
  by_cases hk : k = i
  · rw [hk, if_neg (by omega), if_pos (by omega), Function.update_self, Nat.sub_self]
    rfl
  · rw [Function.update_of_ne hk]
    by_cases hin : i + 1 ≤ k ∧ k < i + 1 + str.length
    · rw [if_pos hin, if_pos (by omega), show k - i = (k - (i + 1)) + 1 by omega]
      rfl
    · rw [if_neg hin, if_neg (by omega)]

/-- A string written behind another one. -/
theorem withChars_append {a b : List UInt8} :
    withChars (withChars buf 0 a) a.length b = withChars buf 0 (a ++ b) := by
  funext k
  unfold withChars
  simp only [List.length_append, Nat.zero_add, Nat.sub_zero, Nat.zero_le, true_and]
  by_cases hb : a.length ≤ k ∧ k < a.length + b.length
  · rw [if_pos hb, if_pos hb.2, List.getD_append_right _ _ _ _ hb.1]
  · rw [if_neg hb]
    by_cases ha : k < a.length
    · rw [if_pos ha, if_pos (by omega), List.getD_append _ _ _ _ ha]
    · rw [if_neg ha, if_neg (by omega)]

theorem withChars_of_lt {k : Nat} (h : k < str.length) : withChars buf 0 str k = str.getD k 0 := by
  unfold withChars
  rw [if_pos (by omega), Nat.sub_zero]

theorem withChars_of_le {k : Nat} (h : str.length ≤ k) : withChars buf 0 str k = buf k := by
  unfold withChars
  rw [if_neg (by omega)]

/-- The loop that stores a string from index `i` on; `none` when a character is stored past the
end. -/
def putChars (size : Nat) : List UInt8 → Nat → (Nat → UInt8) → Option (Nat → UInt8)
  | [], _, buf => some buf
  | c :: str, i, buf =>
      if i < size then putChars size str (i + 1) (Function.update buf i c) else none

theorem putChars_eq (h : i + str.length ≤ size) :
    putChars size str i buf = some (withChars buf i str) := by
  induction str generalizing i buf with
  | nil => rw [withChars_nil, putChars]
  | cons c str ih =>
    rw [List.length_cons] at h
    rw [putChars, if_pos (by omega), ih (by omega), withChars_cons]

theorem putChars_none (h : size < i + str.length) (hne : str ≠ []) :
    putChars size str i buf = none := by
  induction str generalizing i buf with
  | nil => exact absurd rfl hne
  | cons c str ih =>
    rw [List.length_cons] at h
    rw [putChars]
    by_cases hlt : i < size
    · rw [if_pos hlt]
      cases str with
      | nil =>
        rw [List.length_nil] at h
        omega
      | cons d str => exact ih (by omega) (List.cons_ne_nil _ _)
    · rw [if_neg hlt]

/-- The buffer holds the string and its NUL. -/
structure HoldsString (size : Nat) (buf : Nat → UInt8) (str : List UInt8) : Prop where
  fits : str.length < size
  chars : ∀ k < str.length, buf k = str.getD k 0
  nul : buf str.length = 0
  noNul : (0 : UInt8) ∉ str

theorem HoldsString.char_ne (h : HoldsString size buf str) {k : Nat} (hk : k < str.length) :
    buf k ≠ 0 := by
  intro hz
  rw [h.chars k hk, List.getD_eq_getElem _ _ hk] at hz
  exact h.noNul (hz ▸ List.getElem_mem hk)

/-- A buffer holds one string. -/
theorem HoldsString.unique (h : HoldsString size buf str) (h' : HoldsString size buf str') :
    str = str' := by
  have hlen : str.length = str'.length := by
    rcases Nat.lt_trichotomy str.length str'.length with hlt | heq | hgt
    · exact absurd h.nul (h'.char_ne hlt)
    · exact heq
    · exact absurd h'.nul (h.char_ne hgt)
  refine List.ext_getElem hlen fun k hk hk' => ?_
  rw [← List.getD_eq_getElem _ 0 hk, ← List.getD_eq_getElem _ 0 hk', ← h.chars k hk,
    h'.chars k hk']

theorem holdsString_withChars (hfits : str.length < size) (h0 : (0 : UInt8) ∉ str) :
    HoldsString size (withChars buf 0 (str ++ [0])) str where
  fits := hfits
  chars k hk := by
    rw [withChars_of_lt (by rw [List.length_append]; omega), List.getD_append _ _ _ _ hk]
  nul := by
    rw [withChars_of_lt (by simp), List.getD_append_right _ _ _ _ (Nat.le_refl _), Nat.sub_self]
    rfl
  noNul := h0

/-- Without a NUL of its own, a string ends where the buffer happens to hold one. -/
theorem holdsString_withChars_iff (h0 : (0 : UInt8) ∉ str) :
    HoldsString size (withChars buf 0 str) str ↔ str.length < size ∧ buf str.length = 0 := by
  have hnul : withChars buf 0 str str.length = buf str.length := withChars_of_le (Nat.le_refl _)
  constructor
  · intro h
    exact ⟨h.fits, hnul.symm.trans h.nul⟩
  · intro h
    exact ⟨h.1, fun k hk => withChars_of_lt hk, hnul.trans h.2, h0⟩

end Sbunix
