import Sbunix.Misc.Digits
import Sbunix.Sys.Archive
import Sbunix.Sys.OctToDec

/-!
# Octal size fields

`oct_to_dec` first reads the octal digits as a decimal number, which fits an `int` only for
values below `0o2147500000`, and then expands that number in base 8.
-/

namespace Sbunix

variable {num : List UInt8} {L : List Nat} {c : UInt8} {x oct v dec : Int} {y i n fuel : Nat}

theorem intExpr_of (h : -2 ^ 31 ≤ x ∧ x < 2 ^ 31) : intExpr x = some x := if_pos h

theorem intExpr_nat {a : Nat} (h : a < 2 ^ 31) : intExpr a = some (a : Int) :=
  intExpr_of (by omega)

theorem eq_of_intExpr (h : intExpr x = some v) : v = x ∧ x.bmod (2 ^ 32) = x := by
  unfold intExpr at h
  split at h
  · rw [bmod32]
    split <;> simp_all <;> omega
  · cases h

theorem power_eq {a : Nat} (ha : 0 < a) (h : a ^ y < 2 ^ 31) :
    power a y = some ((a ^ y : Nat) : Int) := by
  induction y using Nat.strong_induction_on with
  | _ y ih =>
    rw [power]
    split
    · rename_i hy
      simp [hy]
    · rename_i hy
      have hle : a ^ (y / 2) ≤ a ^ y := Nat.pow_le_pow_right ha (Nat.div_le_self y 2)
      have hhalf := ih (y / 2) (by omega) (Nat.lt_of_le_of_lt hle h)
      rw [hhalf, Option.bind_eq_bind, Option.bind_some]
      split
      · rename_i heven
        have hsq : a ^ (y / 2) * a ^ (y / 2) = a ^ y := by
          rw [← Nat.pow_add]
          congr 1
          omega
        rw [← Nat.cast_mul, hsq, intExpr_nat h]
      · rename_i hodd
        have hsq : a * a ^ (y / 2) * a ^ (y / 2) = a ^ y := by
          rw [← Nat.pow_succ', ← Nat.pow_add]
          congr 1
          omega
        have hle' : a * a ^ (y / 2) ≤ a ^ y := by
          rw [← hsq]
          exact Nat.le_mul_of_pos_right _ (Nat.pow_pos ha)
        rw [← Nat.cast_mul, intExpr_nat (Nat.lt_of_le_of_lt hle' h), Option.bind_some,
          ← Nat.cast_mul, hsq, intExpr_nat h]

/-- A result without overflow is the result of the arithmetic that wraps around. -/
theorem octDigits_of_readDigits (h : readDigits num oct = some v) : octDigits num oct = v := by
  induction num generalizing oct with
  | nil => exact Option.some.inj h
  | cons c num ih =>
    unfold readDigits at h
    unfold octDigits
    split at h
    · rename_i hz
      rw [if_pos hz]
      exact ih h
    · rename_i hz
      obtain ⟨shifted, hs, h⟩ := Option.bind_eq_some_iff.mp h
      obtain ⟨next, hn, h⟩ := Option.bind_eq_some_iff.mp h
      rw [(eq_of_intExpr hs).1] at hn
      rw [if_neg hz, (eq_of_intExpr hn).2]
      rw [(eq_of_intExpr hn).1] at h
      exact ih h

theorem eq_of_power {p : Int} (h : power x y = some p) : p = x ^ y := by
  induction y using Nat.strong_induction_on generalizing p with
  | _ y ih =>
    rw [power] at h
    split at h
    · rename_i hy
      rw [← Option.some.inj h, hy, pow_zero]
    · rename_i hy
      obtain ⟨half, hhalf, h⟩ := Option.bind_eq_some_iff.mp h
      have hhalf := ih (y / 2) (by omega) hhalf
      split at h
      · rename_i heven
        rw [(eq_of_intExpr h).1, hhalf, ← pow_add]
        congr 1
        omega
      · obtain ⟨q, hq, h⟩ := Option.bind_eq_some_iff.mp h
        rw [(eq_of_intExpr h).1, (eq_of_intExpr hq).1, hhalf, ← pow_succ', ← pow_add]
        congr 1
        omega

theorem octLoop_of_expandDigits (h : expandDigits fuel oct i dec = some v) :
    octLoop fuel oct i dec = v := by
  induction fuel generalizing oct i dec with
  | zero => exact Option.some.inj h
  | succ fuel ih =>
    unfold expandDigits at h
    unfold octLoop
    split at h
    · rename_i hz
      rw [if_pos hz]
      exact Option.some.inj h
    · rename_i hz
      obtain ⟨p, hp, h⟩ := Option.bind_eq_some_iff.mp h
      obtain ⟨term, ht, h⟩ := Option.bind_eq_some_iff.mp h
      obtain ⟨next, hn, h⟩ := Option.bind_eq_some_iff.mp h
      rw [(eq_of_intExpr ht).1, eq_of_power hp] at hn
      rw [if_neg hz, (eq_of_intExpr hn).2]
      rw [(eq_of_intExpr hn).1] at h
      exact ih h

theorem octToDec_of_octToDecInt (h : octToDecInt num = some v) : octToDec num = v := by
  obtain ⟨oct, hoct, h⟩ := Option.bind_eq_some_iff.mp h
  unfold octToDec
  rw [octDigits_of_readDigits hoct]
  exact octLoop_of_expandDigits h

@[simp] theorem digitsOf_nil : digitsOf [] = [] := rfl

theorem digitsOf_cons : digitsOf (c :: num) = digitsOf num ++ [c.toNat - 48] := by
  simp [digitsOf]

theorem digitsOf_append_singleton : digitsOf (num ++ [c]) = (c.toNat - 48) :: digitsOf num := by
  simp [digitsOf]

theorem IsOctal.digit_lt (h : IsOctal num) : ∀ d ∈ digitsOf num, d < 8 := by
  intro d hd
  simp only [digitsOf, List.mem_map, List.mem_reverse] at hd
  obtain ⟨c, hc, rfl⟩ := hd
  have := h c hc
  omega

/-- The decimal reading of `num` behind the digits of `a`. -/
def decimalBehind (a : Nat) (num : List UInt8) : Nat :=
  Nat.ofDigits 10 (digitsOf num) + 10 ^ num.length * a

theorem decimalBehind_cons {a : Nat} :
    decimalBehind a (c :: num) = decimalBehind (10 * a + (c.toNat - 48)) num := by
  unfold decimalBehind
  rw [digitsOf_cons, Nat.ofDigits_append, Nat.ofDigits_singleton]
  simp only [digitsOf, List.length_map, List.length_reverse, List.length_cons, pow_succ]
  ring

theorem le_decimalBehind (a : Nat) (num : List UInt8) : a ≤ decimalBehind a num := by
  unfold decimalBehind
  have : a ≤ 10 ^ num.length * a := Nat.le_mul_of_pos_left a (Nat.pow_pos (by decide))
  omega

/-- The first loop gives the decimal reading, unless that is too large for an `int`. -/
theorem readDigits_octal (hnum : IsOctal num) (a : Nat) (ha : a < 2 ^ 31) :
    readDigits num a =
      if decimalBehind a num < 2 ^ 31 then some (decimalBehind a num : Int) else none := by
  induction num generalizing a with
  | nil =>
    have htotal : decimalBehind a [] = a := by simp [decimalBehind]
    rw [htotal, if_pos ha]
    rfl
  | cons c num ih =>
    have hc := hnum c (by simp)
    have hrest : IsOctal num := fun d hd => hnum d (by simp [hd])
    have hchar : (c.toNat : Int).bmod 256 - 48 = (c.toNat - 48 : Nat) := by
      rw [Int.bmod_def]
      split <;> omega
    have hle := le_decimalBehind (10 * a + (c.toNat - 48)) num
    rw [decimalBehind_cons]
    unfold readDigits
    split
    · rename_i hz
      have hzero : a = 0 := by exact_mod_cast hz.2
      have hdigit : 10 * a + (c.toNat - 48) = 0 := by simp [hzero, hz.1]
      rw [hdigit, hzero]
      exact ih hrest 0 (by decide)
    · rename_i hz
      rw [hchar]
      by_cases hshift : 10 * a < 2 ^ 31
      · have hcast : (10 * (a : Int)) = (10 * a : Nat) := by push_cast; rfl
        rw [hcast, intExpr_nat hshift, Option.bind_eq_bind, Option.bind_some, ← Nat.cast_add]
        by_cases hnext : 10 * a + (c.toNat - 48) < 2 ^ 31
        · rw [intExpr_nat hnext, Option.bind_some]
          exact ih hrest _ hnext
        · rw [if_neg (by omega), intExpr, if_neg (by omega)]
          rfl
      · rw [if_neg (by omega), intExpr, if_neg (by omega)]
        rfl

/-- The second loop reads the decimal digits of `oct` in base 8. -/
theorem expandDigits_eq {n dec : Nat} (hn : n < 10 ^ fuel)
    (hdec : dec + 8 ^ i * reread 10 8 n < 2 ^ 31) :
    expandDigits fuel n i dec = some ((dec + 8 ^ i * reread 10 8 n : Nat) : Int) := by
  induction fuel generalizing n i dec with
  | zero =>
    have hz : n = 0 := by omega
    simp [expandDigits, hz]
  | succ fuel ih =>
    unfold expandDigits
    split
    · rename_i hz
      have hz : n = 0 := by exact_mod_cast hz
      simp [hz]
    · rename_i hz
      have hz : n ≠ 0 := by exact_mod_cast hz
      have hsum : dec + 8 ^ i * reread 10 8 n =
          dec + n % 10 * 8 ^ i + 8 ^ (i + 1) * reread 10 8 (n / 10) := by
        rw [reread_rec (by decide), pow_succ]
        ring
      have hpow : 8 ^ i ≤ 8 ^ i * reread 10 8 n :=
        Nat.le_mul_of_pos_right _ (reread_pos (by decide) (by decide) (Nat.pos_of_ne_zero hz))
      have hsmall : 8 ^ i < 2 ^ 31 :=
        Nat.lt_of_le_of_lt (Nat.le_trans hpow (Nat.le_add_left _ dec)) hdec
      have hp : power 8 i = some ((8 ^ i : Nat) : Int) := power_eq (by decide) hsmall
      have hmod : (n : Int).tmod 10 * ((8 ^ i : Nat) : Int) = (n % 10 * 8 ^ i : Nat) := by
        rw [Int.tmod_eq_emod_of_nonneg (by omega)]
        push_cast
        rfl
      have hdiv : (n : Int).tdiv 10 = (n / 10 : Nat) := by
        rw [Int.tdiv_eq_ediv_of_nonneg (by omega)]
        push_cast
        rfl
      have hterm : intExpr ((n % 10 * 8 ^ i : Nat) : Int) = some ((n % 10 * 8 ^ i : Nat) : Int) :=
        intExpr_nat (by omega)
      have hnext : intExpr ((dec : Int) + (n % 10 * 8 ^ i : Nat)) =
          some ((dec + n % 10 * 8 ^ i : Nat) : Int) := by
        rw [← Nat.cast_add]
        exact intExpr_nat (by omega)
      have hshort : n / 10 < 10 ^ fuel := by
        rw [pow_succ] at hn
        omega
      have hrest := @ih (i + 1) (n / 10) (dec + n % 10 * 8 ^ i) hshort (by omega)
      rw [hp, Option.bind_eq_bind, Option.bind_some, hmod, hterm, Option.bind_some, hnext,
        Option.bind_some, hdiv, hrest, hsum]

/-- The decimal reading of an octal number is an `int` for values below `0o2147500000`. -/
theorem decimal_lt_iff (hnum : IsOctal num) :
    Nat.ofDigits 10 (digitsOf num) < 2 ^ 31 ↔ octalValue num < 0o2147500000 := by
  have hmono : StrictMono (reread 8 10) := reread_strictMono (by decide) (by decide)
  have hlast : reread 8 10 0o2147477777 = 2147477777 := by norm_num [reread, Nat.ofDigits_cons]
  have hnext : reread 8 10 0o2147500000 = 2147500000 := by norm_num [reread, Nat.ofDigits_cons]
  rw [ofDigits_eq_reread (by decide) hnum.digit_lt]
  unfold octalValue
  constructor
  · intro h
    rw [← hmono.lt_iff_lt, hnext]
    omega
  · intro h
    have hle := hmono.monotone (show Nat.ofDigits 8 (digitsOf num) ≤ 0o2147477777 by omega)
    rw [hlast] at hle
    omega

theorem decimalBehind_zero : decimalBehind 0 num = Nat.ofDigits 10 (digitsOf num) := by
  simp [decimalBehind]

theorem octToDecInt_of_lt (hnum : IsOctal num) (h : octalValue num < 0o2147500000) :
    octToDecInt num = some (octalValue num : Int) := by
  have hdec := (decimal_lt_iff hnum).mpr h
  have hread : reread 10 8 (Nat.ofDigits 10 (digitsOf num)) = octalValue num :=
    (ofDigits_eq_reread (by decide) fun d hd => by have := hnum.digit_lt d hd; omega).symm
  have hfirst := readDigits_octal hnum 0 (by decide)
  rw [decimalBehind_zero, if_pos hdec] at hfirst
  have hsecond : expandDigits 11 (Nat.ofDigits 10 (digitsOf num) : Nat) 0 (0 : Nat) =
      some ((0 + 8 ^ 0 * reread 10 8 (Nat.ofDigits 10 (digitsOf num)) : Nat) : Int) :=
    expandDigits_eq (by omega) (by omega)
  rw [hread] at hsecond
  unfold octToDecInt
  rw [← Nat.cast_zero, hfirst, Option.bind_eq_bind, Option.bind_some, hsecond]
  simp

theorem octToDecInt_of_ge (hnum : IsOctal num) (h : 0o2147500000 ≤ octalValue num) :
    octToDecInt num = none := by
  have hfirst := readDigits_octal hnum 0 (by decide)
  rw [decimalBehind_zero, if_neg (by rw [decimal_lt_iff hnum]; omega)] at hfirst
  unfold octToDecInt
  rw [← Nat.cast_zero, hfirst]
  rfl

/-- `oct_to_dec` gives the value of an octal string, with no `int` overflow on the way, exactly
for the values below `0o2147500000`. -/
theorem octToDec_exact (hnum : IsOctal num) :
    octToDecInt num = some (octalValue num : Int) ↔ octalValue num < 0o2147500000 := by
  constructor
  · intro h
    by_contra hge
    rw [octToDecInt_of_ge hnum (by omega)] at h
    cases h
  · exact octToDecInt_of_lt hnum

/-- The size field of a file of 17 bytes. -/
theorem octToDec_exact_small :
    octToDecInt [48, 48, 48, 48, 48, 48, 48, 48, 48, 50, 49] = some 17 :=
  have hnum : IsOctal [48, 48, 48, 48, 48, 48, 48, 48, 48, 50, 49] := by simp [IsOctal]
  (octToDec_exact hnum).mpr (by decide)

/-- A size field of 282 MiB is read as a negative number. -/
theorem octToDec_overflow :
    IsOctal [48, 50, 49, 52, 55, 53, 48, 48, 48, 48, 48] ∧
      octalValue [48, 50, 49, 52, 55, 53, 48, 48, 48, 48, 48] = 295600128 ∧
      octToDecInt [48, 50, 49, 52, 55, 53, 48, 48, 48, 48, 48] = none ∧
      octToDec [48, 50, 49, 52, 55, 53, 48, 48, 48, 48, 48] = -295595726 := by
  have hnum : IsOctal [48, 50, 49, 52, 55, 53, 48, 48, 48, 48, 48] := by simp [IsOctal]
  have hvalue : octalValue [48, 50, 49, 52, 55, 53, 48, 48, 48, 48, 48] = 295600128 := by decide
  exact ⟨hnum, hvalue, octToDecInt_of_ge hnum (by rw [hvalue]), by decide⟩

/-! The size field that `tar` writes. -/

theorem toNat_octalDigit {n : Nat} : (UInt8.ofNat (48 + n % 8)).toNat = 48 + n % 8 := by
  rw [UInt8.toNat_ofNat']
  omega

theorem isOctal_octal (w n : Nat) : IsOctal (octal w n) := by
  induction w generalizing n with
  | zero => simp [octal, IsOctal]
  | succ w ih =>
    intro c hc
    rw [octal, List.mem_append, List.mem_singleton] at hc
    rcases hc with hc | rfl
    · exact ih (n / 8) c hc
    · rw [toNat_octalDigit]
      omega

theorem octalValue_octal {w n : Nat} (h : n < 8 ^ w) : octalValue (octal w n) = n := by
  induction w generalizing n with
  | zero =>
    have hn : n = 0 := by omega
    simp [octal, octalValue, hn]
  | succ w ih =>
    have hrest := ih (n := n / 8) (by rw [pow_succ] at h; omega)
    unfold octalValue at hrest ⊢
    rw [octal, digitsOf_append_singleton, Nat.ofDigits_cons, hrest, toNat_octalDigit]
    omega

theorem octToDec_octal {n : Nat} (h : n < 0o2147500000) : octToDec (octal 11 n) = n := by
  have hvalue : octalValue (octal 11 n) = n := octalValue_octal (by omega)
  have hint := octToDecInt_of_lt (isOctal_octal 11 n) (by rw [hvalue]; exact h)
  rw [hvalue] at hint
  exact octToDec_of_octToDecInt hint

/-! With overflows the result stays within the eleven octal digits `0o3222222221`. -/

theorem reread_int_le {n : Nat} (h : n ≤ 2 ^ 31) : reread 10 8 n ≤ 441001105 := by
  have hle := reread_le (b := 10) (c := 8) (n := n) (a := 3) (k := 9) (by decide) (by decide)
    (by decide) (by omega)
  omega

/-- The second loop on `n` and on `-n`. -/
theorem octLoop_eq {n dec : Nat} {e : Int} (he : e = 1 ∨ e = -1) (hn : n < 10 ^ fuel)
    (hdec : dec + 8 ^ i * reread 10 8 n < 2 ^ 31) :
    octLoop fuel (e * n) i (e * dec) = e * (dec + 8 ^ i * reread 10 8 n : Nat) := by
  induction fuel generalizing n i dec with
  | zero =>
    have hz : n = 0 := by omega
    simp [octLoop, hz]
  | succ fuel ih =>
    unfold octLoop
    split
    · rename_i hz
      have hz : n = 0 := by
        rcases he with rfl | rfl <;> omega
      simp [hz]
    · have hsum : dec + 8 ^ i * reread 10 8 n =
          dec + n % 10 * 8 ^ i + 8 ^ (i + 1) * reread 10 8 (n / 10) := by
        rw [reread_rec (by decide), pow_succ]
        ring
      have hdiv : (e * n).tdiv 10 = e * (n / 10 : Nat) := by
        rcases he with rfl | rfl
        · rw [one_mul, one_mul, Int.tdiv_eq_ediv_of_nonneg (by omega)]
          omega
        · rw [Int.neg_one_mul, Int.neg_one_mul, Int.neg_tdiv,
            Int.tdiv_eq_ediv_of_nonneg (by omega)]
          omega
      have hmod : (e * n).tmod 10 = e * (n % 10 : Nat) := by
        rcases he with rfl | rfl
        · rw [one_mul, one_mul, Int.tmod_eq_emod_of_nonneg (by omega)]
          omega
        · rw [Int.neg_one_mul, Int.neg_one_mul, Int.neg_tmod,
            Int.tmod_eq_emod_of_nonneg (by omega)]
          omega
      have hnext : e * (dec : Int) + e * (n % 10 : Nat) * 8 ^ i =
          e * (dec + n % 10 * 8 ^ i : Nat) := by
        push_cast
        ring
      have hwrap : (e * ((dec + n % 10 * 8 ^ i : Nat) : Int)).bmod (2 ^ 32) =
          e * (dec + n % 10 * 8 ^ i : Nat) := by
        rw [bmod32]
        rcases he with rfl | rfl <;> split <;> omega
      rw [hdiv, hmod, hnext, hwrap, hsum]
      exact ih (by rw [pow_succ] at hn; omega) (by omega)

theorem octLoop_int {n : Nat} {e : Int} (he : e = 1 ∨ e = -1) (hn : n ≤ 2 ^ 31) :
    octLoop 11 (e * n) 0 0 = e * (reread 10 8 n : Nat) := by
  have hle := reread_int_le hn
  have hdec : 0 + 8 ^ 0 * reread 10 8 n < 2 ^ 31 := by omega
  have hshort : n < 10 ^ 11 := by omega
  simpa using octLoop_eq he hshort hdec

theorem octDigits_range (h : -2 ^ 31 ≤ oct ∧ oct < 2 ^ 31) :
    -2 ^ 31 ≤ octDigits num oct ∧ octDigits num oct < 2 ^ 31 := by
  induction num generalizing oct with
  | nil => exact h
  | cons c num ih =>
    unfold octDigits
    split
    · exact ih h
    · apply ih
      rw [bmod32]
      split <;> omega

/-- A decoded size stays below 512 MiB in both directions. -/
theorem octToDec_bounds (num : List UInt8) :
    -441001105 ≤ octToDec num ∧ octToDec num ≤ 441001105 := by
  have hrange : -2 ^ 31 ≤ octDigits num 0 ∧ octDigits num 0 < 2 ^ 31 :=
    octDigits_range (by decide)
  have hle := reread_int_le (n := (octDigits num 0).natAbs) (by omega)
  unfold octToDec
  rcases Int.natAbs_eq (octDigits num 0) with hsign | hsign
  · have hloop := octLoop_int (e := 1) (Or.inl rfl)
      (show (octDigits num 0).natAbs ≤ 2 ^ 31 by omega)
    rw [one_mul, one_mul, ← hsign] at hloop
    omega
  · have hloop := octLoop_int (e := -1) (Or.inr rfl)
      (show (octDigits num 0).natAbs ≤ 2 ^ 31 by omega)
    rw [Int.neg_one_mul, Int.neg_one_mul, ← hsign] at hloop
    omega

/-- On octal digits the first loop gives the decimal reading modulo `2 ^ 32`. -/
theorem octDigits_octal (hnum : IsOctal num) (a : Nat) :
    octDigits num ((a : Int).bmod (2 ^ 32)) = (decimalBehind a num : Int).bmod (2 ^ 32) := by
  induction num generalizing a with
  | nil => simp [octDigits, decimalBehind]
  | cons c num ih =>
    have hc := hnum c (by simp)
    have hrest := ih (fun d hd => hnum d (by simp [hd])) (10 * a + (c.toNat - 48))
    rw [decimalBehind_cons, ← hrest]
    have hchar : (c.toNat : Int).bmod 256 - 48 = (c.toNat - 48 : Nat) := by
      rw [Int.bmod_def]
      split <;> omega
    simp only [octDigits]
    split
    · rename_i hz
      have hdigit : c.toNat - 48 = 0 := by simp [hz.1]
      have hsame : ((10 * a + (c.toNat - 48) : Nat) : Int).bmod (2 ^ 32) =
          (a : Int).bmod (2 ^ 32) := by
        have hzero := hz.2
        rw [bmod32] at hzero
        rw [bmod32, bmod32, hdigit]
        split at hzero <;> split <;> omega
      rw [hsame]
    · have hnext : (10 * (a : Int).bmod (2 ^ 32) + (c.toNat - 48 : Nat)).bmod (2 ^ 32) =
          ((10 * a + (c.toNat - 48) : Nat) : Int).bmod (2 ^ 32) := by
        rw [bmod32 (a : Int), bmod32, bmod32]
        split <;> split <;> split <;> omega
      rw [hchar, hnext]

/-- A size of `0o2147500000` or more is decoded far too small. -/
theorem octToDec_octal_ge {n : Nat} (hge : 0o2147500000 ≤ n) (hn : n < 8 ^ 11) :
    octToDec (octal 11 n) + 512 ≤ n := by
  have hvalue : octalValue (octal 11 n) = n := octalValue_octal hn
  have hdigits := octDigits_octal (isOctal_octal 11 n) 0
  have hreread : Nat.ofDigits 10 (digitsOf (octal 11 n)) = reread 8 10 n := by
    rw [ofDigits_eq_reread (by decide) (isOctal_octal 11 n).digit_lt]
    exact congrArg (reread 8 10) hvalue
  rw [decimalBehind_zero, hreread] at hdigits
  have hbounds := octToDec_bounds (octal 11 n)
  rcases Nat.lt_or_ge n (4 * 8 ^ 9) with hlt | hbig
  · -- the decimal reading is an `int` with its sign bit set
    have hmono : StrictMono (reread 8 10) := reread_strictMono (by decide) (by decide)
    have hlow := hmono.monotone hge
    have hhigh := hmono hlt
    have h1 : reread 8 10 0o2147500000 = 2147500000 := by norm_num [reread, Nat.ofDigits_cons]
    have h2 : reread 8 10 (4 * 8 ^ 9) = 4000000000 := by norm_num [reread, Nat.ofDigits_cons]
    rw [h1] at hlow
    rw [h2] at hhigh
    have hneg : octDigits (octal 11 n) 0 = -1 * ((2 ^ 32 - reread 8 10 n : Nat) : Int) := by
      have hzero : (0 : Int).bmod (2 ^ 32) = 0 := by decide
      rw [Nat.cast_zero, hzero, bmod32] at hdigits
      rw [hdigits, if_neg] <;> omega
    unfold octToDec
    rw [hneg, octLoop_int (Or.inr rfl) (by omega)]
    omega
  · omega

end Sbunix
