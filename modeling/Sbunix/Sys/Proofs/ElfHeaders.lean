import Sbunix.Sys.Elf
import Sbunix.Sys.Proofs.ElfSegments

/-!
# Program headers

Which headers of a file `read_elf` looks at.
-/

namespace Sbunix

open ByteMem

variable {m : ByteMem} {vm : VmState} {elfaddr proc headSize count phead fuel : Nat}
variable {s t : Loading}

theorem Loading.readHeader_read (h : s.readHeader elfaddr proc phead = some t) :
    t.read = s.read ++ [phead % 2 ^ 64] := by
  unfold Loading.readHeader at h
  simp only [Option.bind_eq_bind, Option.bind_eq_some_iff] at h
  obtain ⟨_, _, _, _, _, _, h⟩ := h
  cases h
  rfl

theorem readHeaders_length_le {i : Int}
    (h : readHeaders elfaddr proc headSize count fuel i phead s = some t) :
    s.read.length ≤ t.read.length := by
  induction fuel generalizing i phead s with
  | zero => cases h
  | succ fuel ih =>
    rw [readHeaders] at h
    by_cases hc : toUint64 i < count
    · rw [if_pos hc] at h
      simp only [Option.bind_eq_bind, Option.bind_eq_some_iff] at h
      cases h with
      | intro u hu =>
        have hlen := ih hu.2
        rw [Loading.readHeader_read hu.1] at hlen
        simp only [List.length_append, List.length_cons, List.length_nil] at hlen
        omega
    · rw [if_neg hc] at h
      cases h
      exact Nat.le_refl _

theorem int_succ {k : Nat} (h : k + 1 < 2 ^ 31) :
    ((k : Int) + 1).bmod (2 ^ 32) = ((k + 1 : Nat) : Int) := by
  rw [bmod32, if_pos (by omega)]
  omega

/-- The loop looks at `count` headers, or the counter overflows first. -/
theorem readHeaders_length {k : Nat} (hk : k < 2 ^ 31) (hc : k ≤ count)
    (hs : s.read.length = k)
    (h : readHeaders elfaddr proc headSize count fuel k phead s = some t) :
    t.read.length = count ∨ 2 ^ 31 ≤ t.read.length := by
  induction fuel generalizing k phead s with
  | zero => cases h
  | succ fuel ih =>
    rw [readHeaders, toUint64_natCast hk] at h
    by_cases hlt : k < count
    · rw [if_pos hlt] at h
      simp only [Option.bind_eq_bind, Option.bind_eq_some_iff] at h
      cases h with
      | intro u hu =>
        have hlen : u.read.length = k + 1 := by
          rw [Loading.readHeader_read hu.1]
          simp [hs]
        by_cases hend : k + 1 < 2 ^ 31
        · have hrun := hu.2
          rw [int_succ hend] at hrun
          exact ih hend hlt hlen hrun
        · apply Or.inr
          have hle := readHeaders_length_le hu.2
          omega
    · rw [if_neg hlt] at h
      cases h
      apply Or.inl
      omega

/-- The count that `read_elf` computes is never that of the file. -/
theorem headCount_ne :
    ((signedChar (m.load (elfaddr + 56)) + 10 * signedChar (m.load (elfaddr + 57))) % 2 ^ 64 +
      (2 ^ 64 - 1)) % 2 ^ 64 ≠ elfPhnum m elfaddr := by
  have h0 : (m.load (elfaddr + 56)).toNat < 256 := UInt8.toNat_lt _
  have h1 : (m.load (elfaddr + 57)).toNat < 256 := UInt8.toNat_lt _
  have hn : elfPhnum m elfaddr =
      (m.load (elfaddr + 56)).toNat + 256 * (m.load (elfaddr + 57)).toNat := by
    simp [elfPhnum, number]
  rw [hn]
  unfold signedChar
  split <;> split <;> omega

theorem elfPhnum_lt : elfPhnum m elfaddr < 2 ^ 16 := number_lt 2

/-- The addresses that the loop goes through. -/
theorem readHeaders_read {p k : Nat} (hk : k ≤ count) (hc : count < 2 ^ 31)
    (hs : s.read = (List.range k).map fun j => (p + j * headSize) % 2 ^ 64)
    (h : readHeaders elfaddr proc headSize count fuel k (p + k * headSize) s = some t) :
    t.read = (List.range count).map fun j => (p + j * headSize) % 2 ^ 64 := by
  induction fuel generalizing k s with
  | zero => cases h
  | succ fuel ih =>
    rw [readHeaders, toUint64_natCast (by omega)] at h
    by_cases hlt : k < count
    · rw [if_pos hlt] at h
      simp only [Option.bind_eq_bind, Option.bind_eq_some_iff] at h
      cases h with
      | intro u hu =>
        have hread : u.read = (List.range (k + 1)).map fun j => (p + j * headSize) % 2 ^ 64 := by
          rw [Loading.readHeader_read hu.1, hs]
          simp [List.range_succ]
        have hrun := hu.2
        rw [int_succ (by omega), show p + k * headSize + headSize = p + (k + 1) * headSize by
          rw [Nat.add_mul]; omega] at hrun
        exact ih hlt hread hrun
    · rw [if_neg hlt] at h
      cases h
      rw [hs, show k = count by omega]

/-- A file header as linkers write it: the numbers that `read_elf` decodes are below 128. -/
structure PlainHeader (m : ByteMem) (elfaddr : Nat) : Prop where
  phoff : elfPhoff m elfaddr < 128
  phentsize : elfPhentsize m elfaddr < 128
  phnum : elfPhnum m elfaddr < 128

theorem signedChar_low {b : UInt8} (h : b.toNat < 128) : signedChar b = b.toNat := by
  unfold signedChar
  rw [if_pos]
  exact UInt8.lt_iff_toNat_lt.2 h

theorem number_two {a : Nat} (h : m.number a 2 < 128) :
    (m.load a).toNat = m.number a 2 ∧ (m.load (a + 1)).toNat = 0 := by
  have h0 : (m.load a).toNat < 256 := UInt8.toNat_lt _
  simp only [number, Nat.mul_zero, Nat.add_zero] at h ⊢
  omega

theorem number_small {a n : Nat} (h : m.number a (n + 1) < 128) :
    (m.load a).toNat = m.number a (n + 1) ∧ m.number (a + 1) n = 0 := by
  simp only [number] at h ⊢
  omega

theorem phoffFrom_zero {a off base : Nat} (n : Nat) (h : m.number a n = 0) (ho : off < 2 ^ 64) :
    phoffFrom m n a off base = off := by
  induction n generalizing a base with
  | zero => rfl
  | succ n ih =>
    simp only [number] at h
    have hz : signedChar (m.load a) = 0 := by
      rw [signedChar_low] <;> omega
    simp only [phoffFrom, hz, Nat.mul_zero, Nat.add_zero, Nat.mod_eq_of_lt ho]
    apply ih
    omega

theorem PlainHeader.off (h : PlainHeader m elfaddr) :
    phoffFrom m 8 (elfaddr + 32) 0 1 = elfPhoff m elfaddr := by
  have hlt := h.phoff
  unfold elfPhoff at hlt ⊢
  have hn : (m.load (elfaddr + 32)).toNat = m.number (elfaddr + 32) 8 ∧
      m.number (elfaddr + 32 + 1) 7 = 0 := number_small hlt
  rw [phoffFrom, signedChar_low (by omega), hn.1]
  rw [show (0 + 1 * m.number (elfaddr + 32) 8) % 2 ^ 64 = m.number (elfaddr + 32) 8 by omega]
  exact phoffFrom_zero 7 hn.2 (by omega)

/-- Whatever the file, `read_elf` does not look at exactly its program headers: the loop ends
one header early, and the count is decoded to the base 10 from signed digits. With a file as
linkers write it, all headers but the last are looked at. -/
theorem readElf_headers (m : ByteMem) (vm : VmState) (elfaddr proc : Nat) :
    (¬ ∃ t, readElf m vm elfaddr proc = some t ∧ FollowsTable m vm elfaddr proc t) ∧
      ∀ t, 1 ≤ elfPhnum m elfaddr → PlainHeader m elfaddr →
        readElf m vm elfaddr proc = some t → t.read = (programHeaders m elfaddr).dropLast := by
  constructor
  · intro h
    cases h with
    | intro t h =>
      have hlen := congrArg List.length h.2.headers
      unfold programHeaders at hlen
      rw [List.length_map, List.length_range] at hlen
      have hrun := h.1
      unfold readElf at hrun
      have hend := readHeaders_length (k := 0) (by decide) (Nat.zero_le _) rfl hrun
      have hne := @headCount_ne m elfaddr
      have hlt := @elfPhnum_lt m elfaddr
      rw [hlen] at hend
      cases hend with
      | inl hend => exact hne hend.symm
      | inr hend => omega
  · intro t hpos hp h
    have hnum : (m.load (elfaddr + 56)).toNat = m.number (elfaddr + 56) 2 ∧
        (m.load (elfaddr + 57)).toNat = 0 := number_two hp.phnum
    have hsize : (m.load (elfaddr + 54)).toNat = m.number (elfaddr + 54) 2 ∧
        (m.load (elfaddr + 55)).toNat = 0 := number_two hp.phentsize
    have hn := hp.phnum
    have hz := hp.phentsize
    unfold elfPhnum at hpos hn
    unfold elfPhentsize at hz
    unfold readElf at h
    rw [hp.off, signedChar_low (by omega), signedChar_low (by omega), signedChar_low (by omega),
      signedChar_low (by omega), hnum.1, hnum.2, hsize.1, hsize.2] at h
    have hcount : ((m.number (elfaddr + 56) 2 + 10 * 0) % 2 ^ 64 + (2 ^ 64 - 1)) % 2 ^ 64 =
        m.number (elfaddr + 56) 2 - 1 := by omega
    have hhead : (m.number (elfaddr + 54) 2 + 256 * 0) % 2 ^ 64 = elfPhentsize m elfaddr := by
      unfold elfPhentsize
      omega
    dsimp only at h
    rw [hcount, hhead] at h
    have hlt : m.number (elfaddr + 56) 2 - 1 < 2 ^ 31 := by omega
    rw [← Nat.add_zero (elfaddr + elfPhoff m elfaddr),
      ← Nat.zero_mul (elfPhentsize m elfaddr)] at h
    rw [readHeaders_read (Nat.zero_le _) hlt rfl h]
    unfold programHeaders elfPhnum
    rw [← List.map_dropLast]
    apply congrArg
    cases hk : m.number (elfaddr + 56) 2 with
    | zero => omega
    | succ k => simp [List.range_succ]

/-- An executable with one program header. -/
def oneHeader : ByteMem := fun a =>
  [0x7F, 0x45, 0x4C, 0x46, 2, 1, 1, 0, 0, 0, 0, 0, 0, 0, 0, 0, 2, 0, 0x3E, 0, 1, 0, 0, 0,
    0, 0, 0x40, 0, 0, 0, 0, 0, 64, 0, 0, 0, 0, 0, 0, 0, 0, 0, 0, 0, 0, 0, 0, 0,
    0, 0, 0, 0, 64, 0, 56, 0, 1, 0, 64, 0, 0, 0, 0, 0,
    1, 0, 0, 0, 5, 0, 0, 0, 0, 0, 0, 0, 0, 0, 0, 0, 0, 0, 0x40, 0, 0, 0, 0, 0,
    0, 0, 0x40, 0, 0, 0, 0, 0, 16, 0, 0, 0, 0, 0, 0, 0, 16, 0, 0, 0, 0, 0, 0, 0,
    0, 16, 0, 0, 0, 0, 0, 0].getD (a - 0x1000) 0

theorem oneHeader_file : ElfFile oneHeader 0x1000 := by
  constructor <;> decide +kernel

/-- Its only segment is not loaded: no header is looked at and no VMA is created. -/
theorem oneHeader_skipped :
    ElfFile oneHeader 0x1000 ∧ ∀ vm proc,
      (readElf oneHeader vm 0x1000 proc = some ⟨oneHeader, vm, 0x400000, []⟩) ∧
      ¬ ∃ t, readElf oneHeader vm 0x1000 proc = some t ∧
        FollowsTable oneHeader vm 0x1000 proc t := by
  refine ⟨oneHeader_file, ?_⟩
  intro vm proc
  have hrun : readElf oneHeader vm 0x1000 proc = some ⟨oneHeader, vm, 0x400000, []⟩ := by
    have hc : ((signedChar (oneHeader.load (0x1000 + 56)) +
        10 * signedChar (oneHeader.load (0x1000 + 57))) % 2 ^ 64 + (2 ^ 64 - 1)) % 2 ^ 64 = 0 := by
      decide +kernel
    have he : oneHeader.number (0x1000 + 24) 8 = 0x400000 := by decide +kernel
    unfold readElf
    dsimp only
    rw [hc, he, readHeaders, if_neg (Nat.not_lt_zero _)]
  refine ⟨hrun, ?_⟩
  intro h
  cases h with
  | intro t h =>
    have ht := Option.some.inj (hrun.symm.trans h.1)
    have hlen := congrArg List.length h.2.headers
    have hone : (programHeaders oneHeader 0x1000).length = 1 := by decide +kernel
    rw [hone, ← ht] at hlen
    cases hlen

end Sbunix
