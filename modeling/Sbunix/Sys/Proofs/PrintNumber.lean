import Sbunix.Sys.PrintNumber
import Sbunix.Sys.Proofs.PathSearch

/-!
# Numbers as text

The digit loops put the digits of a number behind one another, and the reversal makes its numeral
of them.  A negative number gets neither its sign nor its digits, and `printfflushint` loses the 0.
-/

namespace Sbunix

variable {n : Nat} {i r ctr : Nat} {num : UInt64} {text : Int} {L str' : List UInt8}
  {str ret args : Nat → UInt8}

/-! The local array -/

theorem turnedAround_withChars (hlen : L.length < 1024) (h0 : 0 ∉ L) :
    turnedAround L.length (withChars str 0 L) = L.reverse := by
  have hnul : Function.update (withChars str 0 L) L.length 0 =
      withChars (Function.update str L.length 0) 0 L := by
    funext k
    by_cases hk : k = L.length
    · rw [hk, Function.update_self, withChars_of_le (Nat.le_refl _), Function.update_self]
    · rw [Function.update_of_ne hk]
      unfold withChars
      rw [Function.update_of_ne hk]
  unfold turnedAround
  rw [hnul, reverseLoop_withChars]
  apply cString_of_holds
  apply (holdsString_withChars_iff (by simpa using h0)).mpr
  rw [List.length_reverse]
  exact ⟨hlen, Function.update_self ..⟩

theorem appendLoop_eq : appendLoop str' ctr args = (ctr + str'.length, withChars args ctr str') := by
  induction str' generalizing ctr args with
  | nil => rw [withChars_nil, appendLoop, List.length_nil, Nat.add_zero]
  | cons c str' ih =>
    rw [appendLoop, ih, withChars_cons, List.length_cons]
    congr 1
    omega

theorem charsFrom_withChars :
    charsFrom (withChars args ctr str') ctr (ctr + str'.length) = str' := by
  unfold charsFrom
  rw [Nat.add_sub_cancel_left]
  apply List.ext_getElem
  · simp
  · intro k hk hk'
    rw [List.getElem_map, List.getElem_range]
    unfold withChars
    rw [if_pos (by omega), Nat.add_sub_cancel_left, List.getD_eq_getElem _ _ hk']

/-! Decimal -/

/-- The characters of the digits of `s * n`, for a sign `s`, the last one first. -/
def signedDigits (s : Int) (n : Nat) : List UInt8 :=
  (Nat.digits 10 n).map fun d : Nat => UInt8.ofInt (s * (d : Int) + 48)

theorem intDigits_eq {s : Int} (hs : s = 1 ∨ s = -1) :
    intDigits (s * n) i str =
      (i + (signedDigits s n).length, withChars str i (signedDigits s n)) := by
  induction n using Nat.strong_induction_on generalizing i str with
  | _ n ih =>
    rcases Nat.eq_zero_or_pos n with rfl | hn
    · rw [intDigits, if_pos (by simp)]
      unfold signedDigits
      rw [Nat.digits_zero, List.map_nil, withChars_nil]
      rfl
    · have hne : s * n ≠ 0 := by
        rcases hs with rfl | rfl
        · omega
        · omega
      have hdiv : (s * n).tdiv 10 = s * (n / 10 : Nat) := by
        rcases hs with rfl | rfl
        · rw [Int.one_mul, Int.one_mul]
          rfl
        · rw [Int.neg_one_mul, Int.neg_tdiv, Int.neg_one_mul]
          rfl
      have hmod : (s * n).tmod 10 = s * (n % 10 : Nat) := by
        rcases hs with rfl | rfl
        · rw [Int.one_mul, Int.one_mul]
          rfl
        · rw [Int.neg_one_mul, Int.neg_tmod, Int.neg_one_mul]
          rfl
      have hdigits : signedDigits s n =
          UInt8.ofInt (s * (n % 10 : Nat) + 48) :: signedDigits s (n / 10) := by
        unfold signedDigits
        rw [Nat.digits_def' (by decide) hn, List.map_cons]
      rw [intDigits, if_neg hne, hdiv, hmod, ih (n / 10) (by omega), withChars_cons, hdigits,
        List.length_cons]
      congr 1
      omega

theorem length_signedDigits {s : Int} (h : n ≤ 2 ^ 31) : (signedDigits s n).length ≤ 10 := by
  unfold signedDigits
  rw [List.length_map, Nat.digits_length_le_iff (by decide)]
  omega

theorem zero_notMem_signedDigits {s : Int} (hs : s = 1 ∨ s = -1) : 0 ∉ signedDigits s n := by
  unfold signedDigits
  rw [List.mem_map]
  rintro ⟨d, hd, hc⟩
  have hlt := Nat.digits_lt_base (by decide) hd
  have hnat := congrArg UInt8.toNat hc
  rw [UInt8.ofInt, UInt8.toNat_ofNat'] at hnat
  rcases hs with rfl | rfl
  · simp only [UInt8.toNat_zero] at hnat
    omega
  · simp only [UInt8.toNat_zero] at hnat
    omega

/-- What the loops make of an `int` that is not 0. -/
theorem turnedAround_intDigits {s : Int} (hs : s = 1 ∨ s = -1) (h : n ≤ 2 ^ 31) :
    turnedAround (intDigits (s * n) 0 str).1 (intDigits (s * n) 0 str).2 =
      (signedDigits s n).reverse := by
  have hlen := length_signedDigits (s := s) h
  rw [intDigits_eq hs, Nat.zero_add]
  exact turnedAround_withChars (by omega) (zero_notMem_signedDigits hs)

theorem signedDigits_pos (hn : n ≠ 0) : (signedDigits 1 n).reverse = numeral 10 n := by
  unfold signedDigits numeral
  rw [if_neg hn]
  congr 1
  apply List.map_congr_left
  intro d hd
  have hlt := Nat.digits_lt_base (by decide) hd
  apply UInt8.toNat_inj.mp
  rw [digitChar_toNat (by omega), if_pos hlt, UInt8.ofInt, UInt8.toNat_ofNat']
  omega

theorem flushint_zero : flushint 0 str = [48] := by
  unfold flushint
  rw [if_pos rfl]
  apply cString_of_holds
  exact ⟨by decide, fun k hk => by
    obtain rfl : k = 0 := by simpa using hk
    rfl, rfl, by decide⟩

theorem flushint_of_ne {s : Int} (hs : s = 1 ∨ s = -1) (hn : n ≠ 0) (h : n ≤ 2 ^ 31) :
    flushint (s * n) str = (signedDigits s n).reverse := by
  have hne : s * n ≠ 0 := by
    rcases hs with rfl | rfl
    · omega
    · omega
  unfold flushint
  rw [if_neg hne]
  exact turnedAround_intDigits hs h

/-- What `printfflushint` appends. -/
theorem charsFrom_printfflushint :
    charsFrom (printfflushint text str ctr args).2 ctr (printfflushint text str ctr args).1 =
      if text = 0 then [] else flushint text str := by
  unfold printfflushint flushint
  by_cases h : text = 0
  · simp only [h, if_true]
    rw [appendLoop_eq, charsFrom_withChars, intDigits, if_pos rfl]
    exact turnedAround_withChars (L := []) (by decide) (by simp)
  · simp only [h, if_false]
    rw [appendLoop_eq, charsFrom_withChars]

/-- Every `int` is a sign and a number. -/
theorem exists_sign (n : Int32) :
    ∃ s : Int, ∃ k : Nat, (s = 1 ∨ s = -1) ∧ k ≤ 2 ^ 31 ∧ n.toInt = s * k ∧
      (s = -1 ↔ n.toInt < 0) := by
  have hlow := n.le_toInt
  have hhigh := n.toInt_lt
  by_cases h : n.toInt < 0
  · exact ⟨-1, n.toInt.natAbs, Or.inr rfl, by omega, by omega, by simp [h]⟩
  · exact ⟨1, n.toInt.natAbs, Or.inl rfl, by omega, by omega, by simp [h]⟩

/-- For every `int`, every position in every buffer and whatever the local arrays hold: kernel and
library print its decimal numeral exactly if it is positive. -/
theorem printsDecimal_iff (n : Int32) (str str' : Nat → UInt8) (ctr : Nat)
    (args : Nat → UInt8) : PrintsDecimal n.toInt str str' ctr args ↔ 0 < n.toInt := by
  obtain ⟨s, k, hs, hk, heq, hsign⟩ := exists_sign n
  rcases Nat.eq_zero_or_pos k with rfl | hpos
  · -- the library appends nothing for 0
    have hzero : n.toInt = 0 := by rw [heq, Int.natCast_zero, Int.mul_zero]
    rw [hzero]
    refine iff_of_false (fun h => ?_) (Int.lt_irrefl 0)
    have hsame := h.same
    rw [charsFrom_printfflushint, if_pos rfl, flushint_zero] at hsame
    exact List.cons_ne_nil _ _ hsame.symm
  · have htext : ∀ str, flushint n.toInt str = (signedDigits s k).reverse := fun str => by
      rw [heq]
      exact flushint_of_ne hs (Nat.ne_of_gt hpos) hk
    rcases hs with rfl | rfl
    · have hnumeral : flushint n.toInt str = decimal n.toInt := by
        rw [htext, signedDigits_pos (Nat.ne_of_gt hpos)]
        unfold decimal
        rw [if_neg (by omega), show n.toInt.natAbs = k by omega]
      refine iff_of_true ⟨?_, hnumeral, ?_⟩ (by omega)
      · rw [charsFrom_printfflushint, if_neg (by omega), htext, htext]
      · rw [hnumeral, decimalValue_decimal]
    · -- a negative number lacks its sign
      refine iff_of_false (fun h => ?_) (by omega)
      have hlen := congrArg List.length h.numeral
      unfold decimal numeral at hlen
      rw [htext, if_pos (by omega), if_neg (by omega), show n.toInt.natAbs = k by omega] at hlen
      unfold signedDigits at hlen
      simp at hlen

/-- -7 comes out as one character, which is no digit, and `printf` shows nothing for 0. -/
theorem printsDecimal_negative :
    flushint (-7) (fun _ => 0) = [41] ∧
      charsFrom (printfflushint 0 (fun _ => 0) 0 fun _ => 0).2 0
        (printfflushint 0 (fun _ => 0) 0 fun _ => 0).1 = [] ∧
      ¬ ∀ (n : Int32) (str str' : Nat → UInt8) (ctr : Nat) (args : Nat → UInt8),
        PrintsDecimal n.toInt str str' ctr args := by
  refine ⟨?_, ?_, fun h => ?_⟩
  · have hseven : flushint (-1 * (7 : Nat)) (fun _ => 0) = (signedDigits (-1) 7).reverse :=
      flushint_of_ne (Or.inr rfl) (by decide) (by decide)
    rw [show (-7 : Int) = -1 * (7 : Nat) from rfl, hseven]
    unfold signedDigits
    rw [Nat.digits_of_lt 10 7 (by decide) (by decide)]
    rfl
  · rw [charsFrom_printfflushint, if_pos rfl]
  · have hneg := (h 0 (fun _ => 0) (fun _ => 0) 0 fun _ => 0).same
    rw [Int32.toInt_zero, charsFrom_printfflushint, if_pos rfl, flushint_zero] at hneg
    exact List.cons_ne_nil _ _ hneg.symm

/-! Hexadecimal -/

theorem hexDigits_eq : hexDigits n r ret =
    (r + (numeral 16 n).length, withChars ret r (numeral 16 n).reverse) := by
  induction n using Nat.strong_induction_on generalizing r ret with
  | _ n ih =>
    have hchar : UInt8.ofNat (if 10 ≤ n % 16 then 97 + n % 16 - 10 else n % 16 + 48) =
        digitChar (n % 16) := by
      unfold digitChar
      congr 1
      split
      · rw [if_neg (by omega)]
        omega
      · rw [if_pos (by omega), Nat.add_comm]
    rw [hexDigits, numeral_rec (by decide), hchar]
    by_cases hq : n / 16 = 0
    · rw [if_pos hq, if_pos hq]
      simp only [List.nil_append, List.reverse_singleton, List.length_singleton]
      rw [← withChars_cons, withChars_nil]
    · rw [if_neg hq, if_neg hq, ih (n / 16) (by omega), withChars_cons, List.reverse_append,
        List.length_append]
      congr 1
      rw [List.length_singleton]
      omega

theorem turnedAround_hexDigits (h : n < 2 ^ 64) :
    turnedAround (hexDigits n 0 ret).1 (hexDigits n 0 ret).2 = numeral 16 n := by
  have hlen : (numeral 16 n).reverse.length < 1024 := by
    rw [List.length_reverse]
    unfold numeral
    split
    · decide
    · have hle : (Nat.digits 16 n).length ≤ 16 := by
        rw [Nat.digits_length_le_iff (by decide)]
        omega
      rw [List.length_reverse, List.length_map]
      omega
  have h0 : 0 ∉ (numeral 16 n).reverse := by
    intro hmem
    obtain ⟨d, hd, hc⟩ := mem_numeral (by decide) (List.mem_reverse.mp hmem)
    exact digitChar_ne (d := d) (by omega) (by decide) hc.symm
  rw [hexDigits_eq, Nat.zero_add, ← List.length_reverse, turnedAround_withChars hlen h0,
    List.reverse_reverse]

theorem flushhex_eq : flushhex num ret = numeral 16 num.toNat :=
  turnedAround_hexDigits num.toNat_lt

theorem printfflushhex_eq : printfflushhex num ret ctr args =
    (ctr + (numeral 16 num.toNat).length, withChars args ctr (numeral 16 num.toNat)) := by
  unfold printfflushhex
  dsimp only
  rw [turnedAround_hexDigits num.toNat_lt, appendLoop_eq]

/-- Hexadecimal output is right for every 64-bit number, every position in every buffer, and
whatever the local arrays hold. -/
theorem printsHex (num : UInt64) (ret ret' : Nat → UInt8) (ctr : Nat) (args : Nat → UInt8) :
    PrintsHex num ret ret' ctr args where
  same := by rw [printfflushhex_eq, flushhex_eq, charsFrom_withChars]
  digits c hc := by
    rw [flushhex_eq] at hc
    obtain ⟨d, hd, rfl⟩ := mem_numeral (by decide) hc
    simp only [UInt8.le_iff_toNat_le, digitChar_toNat (show d < 36 by omega)]
    split
    · exact Or.inl ⟨Nat.le_add_right _ _, show 48 + d ≤ 57 by omega⟩
    · exact Or.inr ⟨Nat.le_add_right _ _, show 97 + (d - 10) ≤ 102 by omega⟩
  leading := by
    rw [flushhex_eq]
    refine ⟨numeral_ne_nil, fun h => ?_⟩
    have hzero := eq_zero_of_head_numeral (by decide) (by decide) h
    exact UInt64.toNat_inj.mp hzero
  zero h := by
    rw [flushhex_eq, h]
    rfl
  value := by
    rw [flushhex_eq]
    exact numeralValue_numeral (by decide) (by decide)
  kept k hk := by
    rw [printfflushhex_eq]
    dsimp only
    unfold withChars
    rw [if_neg (by omega)]
  position := by rw [printfflushhex_eq, flushhex_eq]

end Sbunix
