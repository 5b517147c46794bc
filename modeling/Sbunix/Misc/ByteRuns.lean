import Mathlib.Data.List.Basic
import Sbunix.Misc.ByteMemory

/-!
# Runs of bytes

Several runs of bytes written to a byte memory one after the other. They can all be read back
exactly if they agree where they overlap. The second part is about numbers of several bytes.
-/

namespace Sbunix

namespace ByteMem

variable {m m' : ByteMem} {a b v w x n : Nat} {c d : UInt8} {bs : List UInt8}
  {p : Nat × List UInt8} {ps : List (Nat × List UInt8)}

/-- A list of bytes stored one behind the other, the first at `a`. -/
def storeBytes (m : ByteMem) (a : Nat) : List UInt8 → ByteMem
  | [] => m
  | b :: bs => (m.store a b).storeBytes (a + 1) bs

/-- The run `p` puts the byte `c` at the address `x`. -/
def Covers (p : Nat × List UInt8) (x : Nat) (c : UInt8) : Prop :=
  ∃ k, p.2[k]? = some c ∧ SameAddr x (p.1 + k)

/-- The run can be read from memory. -/
def Holds (m : ByteMem) (p : Nat × List UInt8) : Prop :=
  ∀ k c, p.2[k]? = some c → m.load (p.1 + k) = c

theorem holds_iff : m.Holds p ↔ ∀ x c, Covers p x c → m.load x = c := by
  constructor
  · intro h x c hc
    cases hc with
    | intro k hk =>
      rw [load_congr hk.2]
      exact h k c hk.1
  · intro h k c hk
    exact h (p.1 + k) c ⟨k, hk, rfl⟩

theorem not_covers_nil : ¬ Covers (a, []) x c := by
  simp [Covers]

theorem covers_cons : Covers (a, d :: bs) x c ↔
    d = c ∧ SameAddr x a ∨ Covers (a + 1, bs) x c := by
  constructor
  · intro h
    cases h with
    | intro k hk =>
      cases k with
      | zero => exact .inl ⟨Option.some.inj hk.1, hk.2⟩
      | succ k =>
        refine .inr ⟨k, hk.1, ?_⟩
        rw [Nat.add_right_comm]
        exact hk.2
  · intro h
    cases h with
    | inl hd => exact ⟨0, congrArg some hd.1, hd.2⟩
    | inr hbs =>
      cases hbs with
      | intro k hk =>
        refine ⟨k + 1, hk.1, ?_⟩
        have hs := hk.2
        rw [Nat.add_right_comm] at hs
        exact hs

theorem storeBytes_other (h : ∀ c, ¬ Covers (a, bs) x c) :
    (m.storeBytes a bs).load x = m.load x := by
  induction bs generalizing a m with
  | nil => rfl
  | cons d bs ih =>
    rw [storeBytes, ih]
    · apply load_store_other
      intro hx
      exact h d (covers_cons.mpr (.inl ⟨rfl, hx⟩))
    · intro c hc
      exact h c (covers_cons.mpr (.inr hc))

theorem storeBytes_congr (h : m'.load x = m.load x) :
    (m'.storeBytes a bs).load x = (m.storeBytes a bs).load x := by
  induction bs generalizing a m m' with
  | nil => exact h
  | cons d bs ih =>
    apply ih
    by_cases hx : SameAddr x a
    · rw [load_store hx, load_store hx]
    · rw [load_store_other hx, load_store_other hx]
      exact h

theorem storeBytes_covered (hlen : bs.length ≤ 2 ^ 64) (h : Covers (a, bs) x c) :
    (m.storeBytes a bs).load x = c := by
  induction bs generalizing a m with
  | nil => exact absurd h not_covers_nil
  | cons d bs ih =>
    rw [storeBytes]
    rw [List.length_cons] at hlen
    cases covers_cons.mp h with
    | inl hd =>
      rw [storeBytes_other]
      · rw [load_store hd.2]
        exact hd.1
      · intro c' hc
        cases hc with
        | intro k hk =>
          have hlt : k < bs.length := (List.getElem?_eq_some_iff.mp hk.1).1
          have hx : x % 2 ^ 64 = a % 2 ^ 64 := hd.2
          have hs : x % 2 ^ 64 = (a + 1 + k) % 2 ^ 64 := hk.2
          omega
    | inr hbs => exact ih (Nat.le_of_succ_le hlen) hbs

/-! ## Several runs -/

/-- Several lists of bytes stored in order, each at its own address. -/
def storeAll (m : ByteMem) : List (Nat × List UInt8) → ByteMem
  | [] => m
  | p :: ps => (m.storeBytes p.1 p.2).storeAll ps

/-- Runs that put the same byte wherever they overlap. -/
def Agree (ps : List (Nat × List UInt8)) : Prop :=
  ∀ p ∈ ps, ∀ q ∈ ps, ∀ x c d, Covers p x c → Covers q x d → c = d

/-- The byte at `x` with the runs `ps` laid over `m`. -/
def Placed (m : ByteMem) (ps : List (Nat × List UInt8)) (x : Nat) (c : UInt8) : Prop :=
  (∃ p ∈ ps, Covers p x c) ∨ (∀ p ∈ ps, ∀ d, ¬ Covers p x d) ∧ m.load x = c

theorem storeAll_other (h : ∀ p ∈ ps, ∀ c, ¬ Covers p x c) :
    (m.storeAll ps).load x = m.load x := by
  induction ps generalizing m with
  | nil => rfl
  | cons p ps ih =>
    rw [storeAll, ih]
    · exact storeBytes_other (h p List.mem_cons_self)
    · intro q hq
      exact h q (List.mem_cons_of_mem p hq)

/-- The last run that covers an address decides. -/
theorem storeAll_covered (hlen : ∀ p ∈ ps, p.2.length ≤ 2 ^ 64)
    (h : ∃ p ∈ ps, ∃ c, Covers p x c) : ∃ p ∈ ps, Covers p x ((m.storeAll ps).load x) := by
  induction ps generalizing m with
  | nil =>
    obtain ⟨p, hp, -⟩ := h
    cases hp
  | cons p ps ih =>
    rw [storeAll]
    by_cases hrest : ∃ q ∈ ps, ∃ c, Covers q x c
    · obtain ⟨q, hq, hc⟩ := ih (fun q hq => hlen q (List.mem_cons_of_mem p hq)) hrest
      exact ⟨q, List.mem_cons_of_mem p hq, hc⟩
    · have hother : ∀ q ∈ ps, ∀ c, ¬ Covers q x c := fun q hq c hc => hrest ⟨q, hq, c, hc⟩
      obtain ⟨q, hq, c, hc⟩ := h
      refine ⟨p, List.mem_cons_self, ?_⟩
      cases List.mem_cons.mp hq with
      | inl heq =>
        rw [heq] at hc
        rw [storeAll_other hother, storeBytes_covered (hlen p List.mem_cons_self) hc]
        exact hc
      | inr hmem => exact absurd hc (hother q hmem c)

theorem storeAll_append {qs : List (Nat × List UInt8)} :
    m.storeAll (ps ++ qs) = (m.storeAll ps).storeAll qs := by
  induction ps generalizing m with
  | nil => rfl
  | cons p ps ih => exact ih

/-- Of the runs over the address `x` the last puts `c` there. -/
def LastAt : List (Nat × List UInt8) → Nat → UInt8 → Prop
  | [], _, _ => False
  | p :: ps, x, c => LastAt ps x c ∨ (∀ q ∈ ps, ∀ d, ¬ Covers q x d) ∧ Covers p x c

theorem LastAt.covers (h : LastAt ps x c) : ∃ p ∈ ps, Covers p x c := by
  induction ps with
  | nil => cases h
  | cons p ps ih =>
    cases h with
    | inl hlast =>
      obtain ⟨q, hq, hc⟩ := ih hlast
      exact ⟨q, List.mem_cons_of_mem p hq, hc⟩
    | inr hfirst => exact ⟨p, List.mem_cons_self, hfirst.2⟩

theorem storeAll_lastAt (hlen : ∀ p ∈ ps, p.2.length ≤ 2 ^ 64) (h : LastAt ps x c) :
    (m.storeAll ps).load x = c := by
  induction ps generalizing m with
  | nil => cases h
  | cons p ps ih =>
    rw [storeAll]
    cases h with
    | inl hlast => exact ih (fun q hq => hlen q (List.mem_cons_of_mem p hq)) hlast
    | inr hfirst =>
      rw [storeAll_other hfirst.1]
      exact storeBytes_covered (hlen p List.mem_cons_self) hfirst.2

theorem exists_lastAt (h : ∃ p ∈ ps, ∃ c, Covers p x c) : ∃ c, LastAt ps x c := by
  induction ps with
  | nil =>
    obtain ⟨p, hp, -⟩ := h
    cases hp
  | cons p ps ih =>
    by_cases hrest : ∃ q ∈ ps, ∃ c, Covers q x c
    · cases ih hrest with
      | intro c hc => exact ⟨c, .inl hc⟩
    · obtain ⟨q, hq, c, hc⟩ := h
      cases List.mem_cons.mp hq with
      | inl heq =>
        rw [heq] at hc
        exact ⟨c, .inr ⟨fun q hq d hd => hrest ⟨q, hq, d, hd⟩, hc⟩⟩
      | inr hmem => exact absurd ⟨q, hmem, c, hc⟩ hrest

/-- A byte is kept exactly if the last run over it puts it there again. -/
theorem storeAll_kept_iff (hlen : ∀ p ∈ ps, p.2.length ≤ 2 ^ 64) :
    (m.storeAll ps).load x = m.load x ↔ ∀ c, LastAt ps x c → m.load x = c := by
  constructor
  · intro hkept c hc
    rw [← hkept]
    exact storeAll_lastAt hlen hc
  · intro hlast
    by_cases hcov : ∃ p ∈ ps, ∃ c, Covers p x c
    · cases exists_lastAt hcov with
      | intro c hc => rw [storeAll_lastAt hlen hc, hlast c hc]
    · apply storeAll_other
      intro p hp c hc
      exact hcov ⟨p, hp, c, hc⟩

/-- What is written at an address does not depend on the rest of memory. -/
theorem storeAll_congr (h : m'.load x = m.load x) :
    (m'.storeAll ps).load x = (m.storeAll ps).load x := by
  induction ps generalizing m m' with
  | nil => exact h
  | cons p ps ih => exact ih (storeBytes_congr h)

/-- All runs can be read back exactly if they agree. -/
theorem storeAll_holds_iff (hlen : ∀ p ∈ ps, p.2.length ≤ 2 ^ 64) :
    (∀ p ∈ ps, (m.storeAll ps).Holds p) ↔ Agree ps := by
  constructor
  · intro h p hp q hq x c d hc hd
    rw [← holds_iff.mp (h p hp) x c hc]
    exact holds_iff.mp (h q hq) x d hd
  · intro h p hp
    apply holds_iff.mpr
    intro x c hc
    obtain ⟨q, hq, hd⟩ := storeAll_covered (m := m) hlen ⟨p, hp, c, hc⟩
    exact h q hq p hp x _ c hd hc

theorem placed_iff (hlen : ∀ p ∈ ps, p.2.length ≤ 2 ^ 64) (h : Agree ps) :
    (m.storeAll ps).load x = c ↔ Placed m ps x c := by
  by_cases hcov : ∃ p ∈ ps, ∃ d, Covers p x d
  · obtain ⟨p, hp, hd⟩ := storeAll_covered (m := m) hlen hcov
    constructor
    · intro hc
      rw [hc] at hd
      exact .inl ⟨p, hp, hd⟩
    · intro hc
      cases hc with
      | inl hq =>
        obtain ⟨q, hq, hc⟩ := hq
        exact h p hp q hq x _ c hd hc
      | inr hnone => exact absurd hd (hnone.1 p hp _)
  · have hnone : ∀ p ∈ ps, ∀ d, ¬ Covers p x d := fun p hp d hd => hcov ⟨p, hp, d, hd⟩
    rw [storeAll_other hnone]
    constructor
    · intro hc
      exact .inr ⟨hnone, hc⟩
    · intro hc
      cases hc with
      | inl hq =>
        obtain ⟨q, hq, hd⟩ := hq
        exact absurd hd (hnone q hq c)
      | inr hload => exact hload.2

/-! ## Numbers -/

theorem number_congr (h : ∀ k < n, m'.load (a + k) = m.load (b + k)) :
    m'.number a n = m.number b n := by
  induction n generalizing a b with
  | zero => rfl
  | succ n ih =>
    have hfirst := h 0 (Nat.succ_pos n)
    have hrest : m'.number (a + 1) n = m.number (b + 1) n := by
      apply ih
      intro k hk
      rw [Nat.add_right_comm a 1, Nat.add_right_comm b 1]
      exact h (k + 1) (Nat.succ_lt_succ hk)
    rw [Nat.add_zero, Nat.add_zero] at hfirst
    rw [number, number, hfirst, hrest]

theorem storeNumber_other (h : ∀ k < n, ¬ SameAddr x (a + k)) :
    (m.storeNumber a w n).load x = m.load x := by
  induction n generalizing a m w with
  | zero => rfl
  | succ n ih =>
    rw [storeNumber, ih]
    · exact load_store_other (h 0 (Nat.succ_pos n))
    · intro k hk
      rw [Nat.add_right_comm]
      exact h (k + 1) (Nat.succ_lt_succ hk)

/-- The little-endian bytes of `w`, `n` of them. -/
def numberBytes (w : Nat) : Nat → List UInt8
  | 0 => []
  | n + 1 => UInt8.ofNat w :: numberBytes (w / 256) n

theorem length_numberBytes : (numberBytes w n).length = n := by
  induction n generalizing w with
  | zero => rfl
  | succ n ih => rw [numberBytes, List.length_cons, ih]

theorem storeNumber_eq : m.storeNumber a w n = m.storeBytes a (numberBytes w n) := by
  induction n generalizing a m w with
  | zero => rfl
  | succ n ih => exact ih

theorem number_inj (h : m'.number a n = m.number a n) :
    ∀ k < n, m'.load (a + k) = m.load (a + k) := by
  induction n generalizing a with
  | zero =>
    intro k hk
    cases hk
  | succ n ih =>
    rw [number, number] at h
    have hbyte : (m'.load a).toNat < 256 := UInt8.toNat_lt (m'.load a)
    have hbyte' : (m.load a).toNat < 256 := UInt8.toNat_lt (m.load a)
    intro k hk
    cases k with
    | zero =>
      apply UInt8.toNat_inj.mp
      rw [Nat.add_zero]
      omega
    | succ k =>
      have hrest : m'.number (a + 1) n = m.number (a + 1) n := by omega
      have hload := ih hrest k (Nat.lt_of_succ_lt_succ hk)
      rw [Nat.add_right_comm] at hload
      exact hload

theorem number_storeNumber (hn : n ≤ 2 ^ 64) : (m.storeNumber a w n).number a n = w % 256 ^ n := by
  induction n generalizing a m w with
  | zero => simp [number, Nat.mod_one]
  | succ n ih =>
    have hfirst : ((m.store a (UInt8.ofNat w)).storeNumber (a + 1) (w / 256) n).load a =
        UInt8.ofNat w := by
      rw [storeNumber_other]
      · exact load_store_same
      · intro k hk hs
        have hs' : a % 2 ^ 64 = (a + 1 + k) % 2 ^ 64 := hs
        omega
    have hbyte : (UInt8.ofNat w).toNat = w % 256 := UInt8.toNat_ofNat'
    have hpow : 256 ^ (n + 1) = 256 * 256 ^ n := Nat.pow_succ'
    rw [storeNumber, number, hfirst, ih (Nat.le_of_succ_le hn), hbyte, hpow, Nat.mod_mul]

theorem number_zero : ByteMem.number (fun _ => 0) a n = 0 := by
  induction n generalizing a with
  | zero => rfl
  | succ n ih =>
    rw [number, ih]
    rfl

theorem number_eq_zero : m.number a n = 0 ↔ ∀ k < n, m.load (a + k) = 0 := by
  rw [← number_zero (a := a) (n := n)]
  constructor
  · intro h
    exact number_inj h
  · intro h
    apply number_congr
    exact h

end ByteMem

end Sbunix
