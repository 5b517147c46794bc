import Mathlib.Data.Nat.Digits.Lemmas

/-!
# Numerals as strings

The numeral of a number in a base up to 36, with the characters `0` to `9` and `a` to `z`, and the
number that a string of such characters stands for.
-/

namespace Sbunix

variable {b d n : Nat} {c : UInt8} {str : List UInt8}

/-- The character of a digit: `0` to `9`, then letters from `a`. -/
def digitChar (d : Nat) : UInt8 := UInt8.ofNat (if d < 10 then 48 + d else 97 + (d - 10))

/-- The digit that a character stands for. -/
def digitValue (c : UInt8) : Nat := if c.toNat < 97 then c.toNat - 48 else c.toNat - 97 + 10

theorem digitChar_toNat (h : d < 36) :
    (digitChar d).toNat = if d < 10 then 48 + d else 97 + (d - 10) := by
  unfold digitChar
  rw [UInt8.toNat_ofNat']
  split
  · omega
  · omega

theorem digitValue_digitChar (h : d < 36) : digitValue (digitChar d) = d := by
  unfold digitValue
  rw [digitChar_toNat h]
  by_cases hd : d < 10
  · rw [if_pos hd, if_pos (by omega)]
    omega
  · rw [if_neg hd, if_neg (by omega)]
    omega

theorem digitChar_ne (h : d < 36) {c : UInt8} (hc : c < 48) : digitChar d ≠ c := by
  rintro rfl
  have hnat := UInt8.lt_iff_toNat_lt.mp hc
  rw [digitChar_toNat h, show (48 : UInt8).toNat = 48 from rfl] at hnat
  split at hnat
  · omega
  · omega

theorem digitChar_eq_zero_iff (h : d < 36) : digitChar d = 48 ↔ d = 0 := by
  constructor
  · intro hc
    rw [← digitValue_digitChar h, hc]
    rfl
  · rintro rfl
    rfl

/-- The base `b` numeral of `n`, with the first digit first. -/
def numeral (b n : Nat) : List UInt8 :=
  if n = 0 then [48] else ((Nat.digits b n).map digitChar).reverse

/-- The number that a string of digits stands for. -/
def numeralValue (b : Nat) (str : List UInt8) : Nat :=
  str.foldl (fun v c => b * v + digitValue c) 0

theorem numeral_ne_nil : numeral b n ≠ [] := by
  unfold numeral
  split
  · exact List.cons_ne_nil _ _
  · rename_i h
    simpa [Nat.digits_ne_nil_iff_ne_zero] using h

theorem mem_numeral (hb : 1 < b) (h : c ∈ numeral b n) : ∃ d < b, c = digitChar d := by
  unfold numeral at h
  split at h
  · exact ⟨0, by omega, List.mem_singleton.mp h⟩
  · rw [List.mem_reverse, List.mem_map] at h
    obtain ⟨d, hd, rfl⟩ := h
    exact ⟨d, Nat.digits_lt_base hb hd, rfl⟩

theorem numeralValue_reverse {L : List Nat} (h : ∀ d ∈ L, d < 36) :
    numeralValue b (L.map digitChar).reverse = Nat.ofDigits b L := by
  induction L with
  | nil => rfl
  | cons d L ih =>
    have hd := digitValue_digitChar (h d List.mem_cons_self)
    have hrest := ih fun e he => h e (List.mem_cons_of_mem d he)
    unfold numeralValue at hrest ⊢
    rw [List.map_cons, List.reverse_cons, List.foldl_append, hrest, Nat.ofDigits_cons]
    simp only [List.foldl_cons, List.foldl_nil, hd]
    omega

/-- The last digit comes off the end. -/
theorem numeral_rec (hb : 1 < b) :
    numeral b n = (if n / b = 0 then [] else numeral b (n / b)) ++ [digitChar (n % b)] := by
  rcases Nat.eq_zero_or_pos n with rfl | hn
  · rw [Nat.zero_div, if_pos rfl, Nat.zero_mod]
    rfl
  · unfold numeral
    rw [if_neg (Nat.ne_of_gt hn), Nat.digits_def' hb hn, List.map_cons, List.reverse_cons]
    congr 1
    split
    · rename_i hzero
      rw [hzero, Nat.digits_zero]
      rfl
    · rfl

/-- The numeral stands for its number. -/
theorem numeralValue_numeral (hb : 1 < b) (hle : b ≤ 36) : numeralValue b (numeral b n) = n := by
  unfold numeral
  split
  · rename_i h
    rw [h]
    rfl
  · have hdigit : ∀ d ∈ Nat.digits b n, d < 36 := fun d hd =>
      Nat.lt_of_lt_of_le (Nat.digits_lt_base hb hd) hle
    rw [numeralValue_reverse hdigit, Nat.ofDigits_digits]

/-- Only the numeral of zero begins with `0`. -/
theorem eq_zero_of_head_numeral (hb : 1 < b) (hle : b ≤ 36) (h : (numeral b n).head? = some 48) :
    n = 0 := by
  by_contra hn
  have hne : Nat.digits b n ≠ [] := Nat.digits_ne_nil_iff_ne_zero.mpr hn
  unfold numeral at h
  rw [if_neg hn, List.head?_reverse, List.getLast?_map, List.getLast?_eq_some_getLast hne,
    Option.map_some] at h
  have hlt := Nat.lt_of_lt_of_le (Nat.digits_lt_base hb (List.getLast_mem hne)) hle
  have hzero := (digitChar_eq_zero_iff hlt).mp (Option.some.inj h)
  exact Nat.getLast_digit_ne_zero b hn hzero

/-- The decimal numeral of an integer. -/
def decimal (n : Int) : List UInt8 :=
  if n < 0 then 45 :: numeral 10 n.natAbs else numeral 10 n.natAbs

/-- The integer that a decimal numeral stands for. -/
def decimalValue (str : List UInt8) : Int :=
  if str.head? = some 45 then -numeralValue 10 str.tail else numeralValue 10 str

theorem decimalValue_decimal (n : Int) : decimalValue (decimal n) = n := by
  have hvalue : numeralValue 10 (numeral 10 n.natAbs) = n.natAbs :=
    numeralValue_numeral (by decide) (by decide)
  unfold decimal decimalValue
  by_cases hn : n < 0
  · rw [if_pos hn, List.head?_cons, if_pos rfl, List.tail_cons, hvalue]
    omega
  · have hhead : (numeral 10 n.natAbs).head? ≠ some 45 := by
      intro h
      obtain ⟨d, hd, hc⟩ := mem_numeral (by decide) (List.mem_of_mem_head? h)
      exact digitChar_ne (d := d) (by omega) (by decide) hc.symm
    rw [if_neg hn, if_neg hhead, hvalue]
    omega

end Sbunix
