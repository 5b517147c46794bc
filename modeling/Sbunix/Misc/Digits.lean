import Mathlib.Data.Nat.Digits.Defs
import Mathlib.Order.Monotone.Basic
import Mathlib.Tactic.Ring

/-!
# Numerals read in another base

`reread b c n` is the number that the base `b` numeral of `n` gives when it is read in base `c`.
A larger base keeps the order of numbers; any base is bounded by the first digit.
-/

namespace Sbunix

variable {b c n m : Nat} {L : List Nat}

/-- The base `b` digits of `n`, read in base `c`. -/
def reread (b c n : Nat) : Nat := Nat.ofDigits c (Nat.digits b n)

@[simp] theorem reread_zero : reread b c 0 = 0 := by simp [reread]

theorem reread_rec (hb : 1 < b) : reread b c n = n % b + c * reread b c (n / b) := by
  rcases Nat.eq_zero_or_pos n with rfl | hn
  · simp
  · unfold reread
    rw [Nat.digits_def' hb hn, Nat.ofDigits_cons]

theorem reread_of_lt (hb : 1 < b) (hn : n < b) : reread b c n = n := by
  rw [reread_rec hb, Nat.div_eq_of_lt hn, Nat.mod_eq_of_lt hn]
  simp

theorem reread_pos (hb : 1 < b) (hc : 0 < c) (hn : 0 < n) : 0 < reread b c n := by
  induction n using Nat.strong_induction_on with
  | _ n ih =>
    rw [reread_rec hb]
    rcases Nat.eq_zero_or_pos (n / b) with hq | hq
    · have hmod := Nat.div_add_mod n b
      rw [hq, Nat.mul_zero] at hmod
      omega
    · exact Nat.add_pos_right _ (Nat.mul_pos hc (ih _ (Nat.div_lt_self hn hb) hq))

/-- Digits below `b` form one numeral for every base. -/
theorem ofDigits_eq_reread (hb : 1 < b) (hL : ∀ d ∈ L, d < b) :
    Nat.ofDigits c L = reread b c (Nat.ofDigits b L) := by
  induction L with
  | nil => simp
  | cons d L ih =>
    have hd : d < b := hL d (by simp)
    have hrest := ih fun e he => hL e (by simp [he])
    rw [Nat.ofDigits_cons, Nat.ofDigits_cons, reread_rec hb, Nat.add_mul_mod_self_left,
      Nat.mod_eq_of_lt hd, Nat.add_mul_div_left _ _ (by omega), Nat.div_eq_of_lt hd, hrest]
    simp

theorem reread_strictMono (hb : 1 < b) (hbc : b ≤ c) : StrictMono (reread b c) := by
  intro n m h
  induction m using Nat.strong_induction_on generalizing n with
  | _ m ih =>
    have hpos : 0 < m := by omega
    have hmod : n % b < b := Nat.mod_lt _ (by omega)
    have hn := Nat.div_add_mod n b
    have hm := Nat.div_add_mod m b
    rw [reread_rec hb (n := n), reread_rec hb (n := m)]
    rcases Nat.lt_or_ge (n / b) (m / b) with hlt | hge
    · -- the leading digits decide
      have hstep := ih (m / b) (Nat.div_lt_self hpos hb) hlt
      calc n % b + c * reread b c (n / b) < c + c * reread b c (n / b) := by omega
        _ = c * (reread b c (n / b) + 1) := by ring
        _ ≤ c * reread b c (m / b) := Nat.mul_le_mul_left c hstep
        _ ≤ m % b + c * reread b c (m / b) := Nat.le_add_left _ _
    · have heq : n / b = m / b := Nat.le_antisymm (Nat.div_le_div_right h.le) hge
      rw [heq] at hn ⊢
      omega

/-- A numeral of `k` digits after its first, which is below `a`. -/
theorem reread_le {a k : Nat} (hb : 1 < b) (hc : 0 < c) (hab : a ≤ b) (hn : n < a * b ^ k) :
    (c - 1) * reread b c n + (b - 1) ≤ ((c - 1) * (a - 1) + (b - 1)) * c ^ k := by
  induction k generalizing n with
  | zero =>
    rw [pow_zero, mul_one] at hn ⊢
    rw [reread_of_lt hb (by omega)]
    exact Nat.add_le_add_right (Nat.mul_le_mul_left _ (by omega)) _
  | succ k ih =>
    have hdiv : n / b < a * b ^ k := by
      apply Nat.div_lt_of_lt_mul
      calc n < a * b ^ (k + 1) := hn
        _ = b * (a * b ^ k) := by ring
    have hmod : n % b ≤ b - 1 := by
      have := Nat.mod_lt n (show 0 < b by omega)
      omega
    have h1 : (c - 1) + 1 = c := by omega
    rw [reread_rec hb]
    calc (c - 1) * (n % b + c * reread b c (n / b)) + (b - 1)
        ≤ (c - 1) * ((b - 1) + c * reread b c (n / b)) + (b - 1) := by gcongr
      _ = c * ((c - 1) * reread b c (n / b)) + ((c - 1) + 1) * (b - 1) := by ring
      _ = c * ((c - 1) * reread b c (n / b) + (b - 1)) := by rw [h1]; ring
      _ ≤ c * (((c - 1) * (a - 1) + (b - 1)) * c ^ k) := Nat.mul_le_mul_left _ (ih hdiv)
      _ = ((c - 1) * (a - 1) + (b - 1)) * c ^ (k + 1) := by ring

end Sbunix
