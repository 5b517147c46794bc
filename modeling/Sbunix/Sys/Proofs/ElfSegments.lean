import Sbunix.Sys.Elf

/-!
# Segment contents

What `file_map` leaves in memory.
-/

namespace Sbunix

open ByteMem

variable {m m' : ByteMem} {vadd sourceAdd fsize msize : Nat}

/-- The file part and the segment share no byte. -/
def Apart (vadd sourceAdd fsize msize : Nat) : Prop :=
  ∀ i < fsize, ∀ j < msize, ¬ SameAddr (sourceAdd + i) (vadd + j)

/-- The byte that the loop puts at offset `i`. -/
def mapped (m : ByteMem) (vadd sourceAdd fsize i : Nat) : UInt8 :=
  if i < fsize then m.load (sourceAdd + i)
  else if i = fsize then byteBehind m vadd sourceAdd fsize
  else 0

/-- The memory after `k` turns of the loop. -/
structure MappedTo (m : ByteMem) (vadd sourceAdd fsize k : Nat) (m' : ByteMem) : Prop where
  inside : ∀ i < k, m'.load (vadd + i) = mapped m vadd sourceAdd fsize i
  outside : ∀ a, ¬ Range vadd k a → m'.load a = m.load a

theorem toUint64_natCast {i : Nat} (h : i < 2 ^ 31) : toUint64 i = i := by
  unfold toUint64
  omega

theorem range_succ {a k : Nat} (h : ¬ Range vadd (k + 1) a) :
    ¬ SameAddr a (vadd + k) ∧ ¬ Range vadd k a := by
  constructor
  · intro hs
    exact h ⟨k, by omega, hs⟩
  · intro hr
    apply h
    cases hr with
    | intro i hi => exact ⟨i, by omega, hi.2⟩

/-- One more byte in place. -/
theorem MappedTo.store {k : Nat} (h : MappedTo m vadd sourceAdd fsize k m') (hk : k < 2 ^ 31)
    {w : UInt8} (hw : w = mapped m vadd sourceAdd fsize k) :
    MappedTo m vadd sourceAdd fsize (k + 1) (m'.store (vadd + k) w) := by
  constructor
  · intro i hi
    by_cases hik : i = k
    · rw [hik, hw]
      simp
    · have hne : ¬ SameAddr (vadd + i) (vadd + k) := by
        intro hs
        exact hik (sameAddr_add (by omega) (by omega) hs)
      rw [load_store_other hne]
      apply h.inside
      omega
  · intro a ha
    rw [load_store_other (range_succ ha).1]
    exact h.outside a (range_succ ha).2

/-- What the loop reads while it copies: the file part is not written, and of the segment only
its first byte can lie right behind the file part. -/
theorem MappedTo.source {k : Nat} (h : MappedTo m vadd sourceAdd fsize k m')
    (hs : Apart vadd sourceAdd fsize msize) (hk : k ≤ fsize) (hkm : k < msize) (hf : 1 ≤ fsize) :
    m'.load (sourceAdd + k) = mapped m vadd sourceAdd fsize k := by
  unfold mapped
  by_cases hlt : k < fsize
  · rw [if_pos hlt]
    apply h.outside
    intro hr
    cases hr with
    | intro j hj => exact hs k hlt j (by omega) hj.2
  · have he : k = fsize := by omega
    rw [if_neg hlt, if_pos he, he]
    unfold byteBehind
    by_cases hb : SameAddr (sourceAdd + fsize) vadd
    · rw [if_pos hb, load_congr hb]
      have h0 := h.inside 0 (by omega)
      rw [Nat.add_zero] at h0
      rw [h0]
      unfold mapped
      rw [if_pos (by omega), Nat.add_zero]
    · rw [if_neg hb]
      apply h.outside
      intro hr
      cases hr with
      | intro j hj =>
        -- the byte before it belongs to the file part and to the segment
        have hj0 : j ≠ 0 := by
          intro h0
          apply hb
          have := hj.2
          rwa [h0, Nat.add_zero] at this
        apply hs (fsize - 1) (by omega) (j - 1) (by omega)
        have h2 : (sourceAdd + fsize) % 2 ^ 64 = (vadd + j) % 2 ^ 64 := hj.2
        unfold SameAddr
        omega

theorem fileMapLoop_mapped (hs : Apart vadd sourceAdd fsize msize) (hf : 1 ≤ fsize)
    (hm : msize < 2 ^ 31) (n : Nat) : ∀ {k fuel : Nat} {m' : ByteMem}, k + n = msize → n < fuel →
      MappedTo m vadd sourceAdd fsize k m' →
      ∃ t, fileMapLoop fsize msize fuel k (vadd + k) (sourceAdd + min k (fsize + 1)) m' = some t ∧
        MappedTo m vadd sourceAdd fsize msize t := by
  induction n with
  | zero =>
    intro k fuel m' hk hfuel h
    cases fuel with
    | zero => omega
    | succ fuel =>
      have hkm : k = msize := by omega
      rw [fileMapLoop, toUint64_natCast (by omega), if_neg (by omega)]
      rw [hkm] at h
      exact ⟨m', rfl, h⟩
  | succ n ih =>
    intro k fuel m' hk hfuel h
    cases fuel with
    | zero => omega
    | succ fuel =>
      have hnext : (((k : Int) + 1).bmod (2 ^ 32)) = ((k + 1 : Nat) : Int) := by
        rw [bmod32, if_pos (by omega)]
        omega
      rw [fileMapLoop, toUint64_natCast (by omega), if_pos (by omega), hnext]
      by_cases hlt : fsize < k
      · rw [if_pos hlt]
        have hw : (0 : UInt8) = mapped m vadd sourceAdd fsize k := by
          unfold mapped
          rw [if_neg (by omega), if_neg (by omega)]
        rw [show sourceAdd + min k (fsize + 1) = sourceAdd + min (k + 1) (fsize + 1) by omega]
        exact ih (by omega) (by omega) (h.store (by omega) hw)
      · rw [if_neg hlt, show sourceAdd + min k (fsize + 1) = sourceAdd + k by omega]
        rw [show sourceAdd + k + 1 = sourceAdd + min (k + 1) (fsize + 1) by omega]
        have hw := h.source hs (by omega) (by omega) hf
        exact ih (by omega) (by omega) (h.store (by omega) hw)

/-- What a call with a file part leaves. -/
theorem fileMap_mapped (hs : Apart vadd sourceAdd fsize msize) (hf : 1 ≤ fsize)
    (hm : msize < 2 ^ 31) : ∃ t, fileMap m vadd sourceAdd fsize msize = some (0, t) ∧
      MappedTo m vadd sourceAdd fsize msize t := by
  have h0 : MappedTo m vadd sourceAdd fsize 0 m := by
    constructor
    · intro i hi
      omega
    · intro a _
      rfl
  have hrun : ∃ t, fileMapLoop fsize msize (2 ^ 32 + 1) ((0 : Nat) : Int) (vadd + 0)
      (sourceAdd + min 0 (fsize + 1)) m = some t ∧ MappedTo m vadd sourceAdd fsize msize t :=
    fileMapLoop_mapped hs hf hm msize (by omega) (by omega) h0
  cases hrun with
  | intro t ht =>
    have h1 := ht.1
    simp only [Nat.zero_min, Nat.add_zero] at h1
    refine ⟨t, ?_, ht.2⟩
    unfold fileMap
    rw [if_neg (by omega)]
    exact congrArg (Option.map fun m' => (0, m')) h1

theorem MappedTo.filled_iff (h : MappedTo m vadd sourceAdd fsize msize m') (hle : fsize ≤ msize) :
    SegmentFilled m m' vadd sourceAdd fsize msize ↔
      fsize = msize ∨ byteBehind m vadd sourceAdd fsize = 0 := by
  constructor
  · intro hfill
    by_cases he : fsize = msize
    · exact Or.inl he
    · have hz := hfill.zeroed fsize (by omega) (by omega)
      rw [h.inside fsize (by omega)] at hz
      simp only [mapped, Nat.lt_irrefl, if_false, if_true] at hz
      exact Or.inr hz
  · intro hr
    constructor
    · intro i hi
      rw [h.inside i (by omega)]
      simp [mapped, hi]
    · intro i hi him
      rw [h.inside i him]
      unfold mapped
      rw [if_neg (by omega)]
      by_cases he : i = fsize
      · rw [if_pos he]
        cases hr with
        | inl hr => omega
        | inr hr => exact hr
      · rw [if_neg he]
    · exact h.outside

theorem unwritten_filled_iff :
    SegmentFilled m m vadd sourceAdd 0 msize ↔ ∀ i < msize, m.load (vadd + i) = 0 := by
  constructor
  · intro h i hi
    exact h.zeroed i (by omega) hi
  · intro h
    constructor
    · intro i hi
      omega
    · intro i _ hi
      exact h i hi
    · intro a _
      rfl

/-- `file_map` fills a segment exactly when the byte it copies behind the file part is a zero:
its comparison is `i > fsize`, and an empty file part makes it return at once. -/
theorem fileMap_filled (hle : fsize ≤ msize) (hm : msize < 2 ^ 31)
    (hs : Apart vadd sourceAdd fsize msize) :
    (∃ r t, fileMap m vadd sourceAdd fsize msize = some (r, t) ∧
      SegmentFilled m t vadd sourceAdd fsize msize) ↔
    FillsRight m vadd sourceAdd fsize msize := by
  unfold FillsRight
  by_cases h0 : fsize = 0
  · rw [if_pos h0]
    have hcall : fileMap m vadd sourceAdd fsize msize = some (2 ^ 32 - 1, m) := by
      unfold fileMap
      rw [if_pos (by omega)]
    rw [hcall]
    rw [h0]
    constructor
    · intro h
      cases h with
      | intro r h =>
        cases h with
        | intro t h =>
          cases h.1
          exact unwritten_filled_iff.1 h.2
    · intro h
      exact ⟨_, m, rfl, unwritten_filled_iff.2 h⟩
  · rw [if_neg h0]
    cases fileMap_mapped (m := m) hs (by omega) hm with
    | intro t ht =>
      rw [ht.1, ← ht.2.filled_iff hle]
      constructor
      · intro h
        cases h with
        | intro r h =>
          cases h with
          | intro u h =>
            cases h.1
            exact h.2
      · intro h
        exact ⟨0, t, rfl, h⟩

/-- Two bytes of a file, the second of them behind the file part. -/
def twoBytes : ByteMem := fun a => if a = 0x1000 then 65 else if a = 0x1001 then 66 else 0

/-- One byte of file and one of `.bss`, with another byte behind it in the file. -/
theorem fileMap_bss :
    ¬ ∃ r t, fileMap twoBytes 0x400000 0x1000 1 2 = some (r, t) ∧
      SegmentFilled twoBytes t 0x400000 0x1000 1 2 := by
  intro h
  cases h with
  | intro r h =>
    cases h with
    | intro t h =>
      have hz := h.2.zeroed 1 (by omega) (by omega)
      have hw : (fileMap twoBytes 0x400000 0x1000 1 2).map (fun c => c.2.load (0x400000 + 1)) =
          some 66 := by decide +kernel
      rw [h.1] at hw
      simp only [Option.map_some, hz] at hw
      cases hw

theorem fileMap_filled_whole :
    (∃ r t, fileMap twoBytes 0x400000 0x1000 1 1 = some (r, t) ∧
      SegmentFilled twoBytes t 0x400000 0x1000 1 1) ↔
    FillsRight twoBytes 0x400000 0x1000 1 1 := by
  apply fileMap_filled (by decide) (by decide)
  intro i hi j hj hs
  have h : (0x1000 + i) % 2 ^ 64 = (0x400000 + j) % 2 ^ 64 := hs
  omega

end Sbunix
