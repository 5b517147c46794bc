import Sbunix.Sys.Stacks

/-!
# Kernel stacks

Which bytes of the kernel stack area change when a process is created.
-/

namespace Sbunix

open ByteMem

variable {m : ByteMem} {live : Nat → Bool} {s parent kernelStack : Nat}

theorem kstackbase_pos : 1 ≤ kstackbase := by decide

theorem kstackbase_end : kstackbase + 8192 * (procSize + 1) < 2 ^ 64 := by decide

theorem kstackTop_lt {l : Nat} (hl : l < procSize) : kstackTop l < 2 ^ 64 := by
  apply Nat.lt_of_le_of_lt _ kstackbase_end
  apply Nat.add_le_add_left
  apply Nat.mul_le_mul_left
  omega

theorem sameAddr_iff {a b : Nat} (ha : a < 2 ^ 64) (hb : b < 2 ^ 64) : SameAddr a b ↔ a = b := by
  unfold SameAddr
  rw [Nat.mod_eq_of_lt ha, Nat.mod_eq_of_lt hb]

/-- The loop clears every second byte of `2 * n`. -/
theorem createKstackLoop_spec (n : Nat) : ∀ {i top : Nat} {m : ByteMem}, top + i + 2 * n ≤ 2 ^ 64 →
    (createKstackLoop n i top m).1 = top + n ∧ ∀ a < 2 ^ 64,
      (createKstackLoop n i top m).2.load a =
        if top + i ≤ a ∧ a < top + i + 2 * n ∧ (a - (top + i)) % 2 = 0 then 0 else m.load a := by
  induction n with
  | zero =>
    intro i top m _
    refine ⟨rfl, ?_⟩
    intro a _
    rw [if_neg (by omega)]
    rfl
  | succ n ih =>
    intro i top m hle
    have h := @ih (i + 1) (top + 1) (m.store (top + i) 0) (by omega)
    refine ⟨h.1.trans (by omega), ?_⟩
    intro a ha
    have hload := h.2 a ha
    rw [createKstackLoop, hload]
    by_cases hfirst : a = top + i
    · rw [if_neg (by omega), if_pos (by omega), hfirst, load_store_same]
    · have hother : (m.store (top + i) 0).load a = m.load a := by
        apply load_store_other
        rw [sameAddr_iff ha (by omega)]
        exact hfirst
      rw [hother]
      by_cases hc : top + i ≤ a ∧ a < top + i + 2 * (n + 1) ∧ (a - (top + i)) % 2 = 0
      · rw [if_pos (by omega), if_pos hc]
      · rw [if_neg (by omega), if_neg hc]

theorem createKstack_top (hs : s < procSize) : (createKstack m s).1 = kstackTop s := by
  have h := kstackbase_end
  have hloop := @createKstackLoop_spec (4096 * 2) 0 (kstackbase + 4096 * 2 * s) m (by omega)
  apply hloop.1.trans
  unfold kstackTop
  omega

/-- What `create_kstack` clears: the even offsets of the slot and of the next one. -/
theorem createKstack_load (hs : s < procSize) {a : Nat} (ha : a < 2 ^ 64) :
    (createKstack m s).2.load a =
      if kstackbase + 8192 * s ≤ a ∧ a < kstackbase + 8192 * s + 16384 ∧
        (a - (kstackbase + 8192 * s)) % 2 = 0 then 0 else m.load a := by
  have h := kstackbase_end
  have hloop := @createKstackLoop_spec (4096 * 2) 0 (kstackbase + 8192 * s) m (by omega)
  exact hloop.2 a ha

/-- `create_kstack` clears its slot and nothing else exactly when the other bytes that its loop
goes over are zero already. -/
theorem createKstack_cleared_iff (hs : s < procSize) :
    KstackCleared m (createKstack m s).2 s (createKstack m s).1 ↔ ClearedBefore m s := by
  have hend := kstackbase_end
  constructor
  · intro h
    constructor
    · intro k hk
      have hz := h.zero (kstackbase + 8192 * s + (2 * k + 1)) (by unfold KstackSlot kstackTop; omega)
      rw [createKstack_load hs (by omega), if_neg (by omega)] at hz
      exact hz
    · intro k hk
      unfold kstackTop
      have hf := h.frame (kstackbase + 8192 * (s + 1) + 2 * k) (by omega)
        (by unfold KstackSlot kstackTop; omega)
      rw [createKstack_load hs (by omega), if_pos (by omega)] at hf
      exact hf.symm
  · intro h
    constructor
    · intro a ha hout
      rw [createKstack_load hs ha]
      by_cases hc : kstackbase + 8192 * s ≤ a ∧ a < kstackbase + 8192 * s + 16384 ∧
          (a - (kstackbase + 8192 * s)) % 2 = 0
      · unfold KstackSlot kstackTop at hout
        have hz := h.2 ((a - kstackTop s) / 2) (by unfold kstackTop; omega)
        rw [show kstackTop s + 2 * ((a - kstackTop s) / 2) = a by unfold kstackTop; omega] at hz
        rw [if_pos hc, hz]
      · rw [if_neg hc]
    · intro a hin
      unfold KstackSlot kstackTop at hin
      rw [createKstack_load hs (by omega)]
      by_cases hc : (a - (kstackbase + 8192 * s)) % 2 = 0
      · rw [if_pos (by omega)]
      · have hz := h.1 ((a - (kstackbase + 8192 * s)) / 2) (by omega)
        rw [show kstackbase + 8192 * s + (2 * ((a - (kstackbase + 8192 * s)) / 2) + 1) = a by
          omega] at hz
        rw [if_neg (by omega), hz]
    · exact createKstack_top hs

/-- The loop of `copy_kstack` over `n` bytes writes those below `kStack` and the one there. -/
theorem copyKstackLoop_frame (hk : 1 ≤ kernelStack) (n : Nat) :
    ∀ {fuel kBase kStack : Nat} {m : ByteMem}, kBase + 1 = kernelStack + n → n < fuel →
      n ≤ kStack → kStack < 2 ^ 64 → kBase < 2 ^ 64 →
      ∃ r, copyKstackLoop kernelStack fuel kBase kStack m = some r ∧
        ∀ a < 2 ^ 64, kStack < a ∨ a + n ≤ kStack → r.2.load a = m.load a := by
  induction n with
  | zero =>
    intro fuel kBase kStack m hb hfuel _ _ _
    cases fuel with
    | zero => omega
    | succ fuel =>
      rw [copyKstackLoop, if_neg (by omega)]
      exact ⟨(kStack, m), rfl, fun _ _ _ => rfl⟩
  | succ n ih =>
    intro fuel kBase kStack m hb hfuel hn hlt hblt
    cases fuel with
    | zero => omega
    | succ fuel =>
      rw [copyKstackLoop, if_pos (by omega)]
      have hbase : (kBase + (2 ^ 64 - 1)) % 2 ^ 64 = kBase - 1 := by omega
      have hstack : (kStack + (2 ^ 64 - 1)) % 2 ^ 64 = kStack - 1 := by omega
      rw [hbase, hstack]
      cases @ih fuel (kBase - 1) (kStack - 1) (m.store kStack (m.load kBase)) (by omega) (by omega)
        (by omega) (by omega) (by omega) with
      | intro r hr =>
        refine ⟨r, hr.1, ?_⟩
        intro a ha hout
        rw [hr.2 a ha (by omega)]
        apply load_store_other
        rw [sameAddr_iff ha hlt]
        omega

/-- What `copy_kstack` writes of a stack of at most 8192 bytes: bytes of the slot, and the byte
behind it, which comes from behind the parent's slot. -/
theorem copyKstack_spec (hs : s < procSize) (hp : parent < procSize)
    (hlow : kstackTop parent ≤ kernelStack + 8192) (hhigh : kernelStack ≤ kstackTop parent) :
    ∃ r, copyKstack m kernelStack (kstackTop parent) (kstackTop s) = some r ∧
      r.2.load (kstackTop s) = m.load (kstackTop parent) ∧
      ∀ a < 2 ^ 64, ¬ KstackSlot s a → a ≠ kstackTop s → r.2.load a = m.load a := by
  have hend := kstackbase_end
  have hpos := kstackbase_pos
  have htop : kstackTop parent < 2 ^ 64 ∧ kstackTop s < 2 ^ 64 ∧
      kstackbase + 8192 ≤ kstackTop parent ∧ kstackTop s = kstackbase + 8192 * s + 8192 := by
    unfold kstackTop
    omega
  have hbase : (kstackTop parent + (2 ^ 64 - 1)) % 2 ^ 64 = kstackTop parent - 1 := by omega
  have hstack : (kstackTop s + (2 ^ 64 - 1)) % 2 ^ 64 = kstackTop s - 1 := by omega
  have hloop := @copyKstackLoop_frame kernelStack (by omega) (kstackTop parent - kernelStack)
    (2 ^ 64 - 1) (kstackTop parent - 1) (kstackTop s - 1)
    (m.store (kstackTop s) (m.load (kstackTop parent))) (by omega) (by omega) (by omega) (by omega)
    (by omega)
  cases hloop with
  | intro r hr =>
    have hfirst : copyKstackLoop kernelStack (2 ^ 64) (kstackTop parent) (kstackTop s) m = some r := by
      rw [show (2 ^ 64 : Nat) = (2 ^ 64 - 1) + 1 by decide, copyKstackLoop, if_pos hhigh, hbase,
        hstack]
      exact hr.1
    refine ⟨((r.1 + 1) % 2 ^ 64, r.2), congrArg (Option.map _) hfirst, ?_, ?_⟩
    · rw [hr.2 _ htop.2.1 (by omega), load_store_same]
    · intro a ha hout hne
      unfold KstackSlot at hout
      rw [hr.2 a ha (by omega)]
      apply load_store_other
      rw [sameAddr_iff ha htop.2.1]
      exact hne

theorem slot_of_ne {l a : Nat} (hl : l ≠ s) (ha : KstackSlot l a) : ¬ KstackSlot s a := by
  unfold KstackSlot kstackTop at ha ⊢
  omega

/-- Outside its slot and the next one, `create_kstack` changes nothing. -/
theorem createKstack_far (hs : s < procSize) {l a : Nat} (hl : l < procSize) (hne : l ≠ s)
    (hnext : l ≠ s + 1) (ha : KstackSlot l a) : (createKstack m s).2.load a = m.load a := by
  have hend := kstackbase_end
  unfold KstackSlot kstackTop at ha
  rw [createKstack_load hs (by omega)]
  apply if_neg
  omega

/-- The even offsets of the next slot. -/
theorem clearedBehind {k : Nat} (hk : k < 4096) :
    kstackbase + 8192 * s ≤ kstackTop s + 2 * k ∧
      kstackTop s + 2 * k < kstackbase + 8192 * s + 16384 ∧
      (kstackTop s + 2 * k - (kstackbase + 8192 * s)) % 2 = 0 := by
  have he : kstackTop s + 2 * k - (kstackbase + 8192 * s) = 2 * (4096 + k) := by
    unfold kstackTop
    omega
  unfold kstackTop at he ⊢
  refine ⟨by omega, by omega, ?_⟩
  rw [he, Nat.mul_mod_right]

theorem createKstack_parent (hs : s < procSize) (hp : parent < procSize) (hne : parent ≠ s) :
    (createKstack m s).2.load (kstackTop parent) =
      if parent + 1 = s then 0 else m.load (kstackTop parent) := by
  rw [createKstack_load hs (kstackTop_lt hp)]
  unfold kstackTop
  by_cases he : parent + 1 = s
  · rw [if_pos he, he, if_pos ⟨by omega, by omega, by rw [Nat.sub_self]⟩]
  · have hout : ¬ (kstackbase + 8192 * s ≤ kstackbase + 8192 * (parent + 1) ∧
        kstackbase + 8192 * (parent + 1) < kstackbase + 8192 * s + 16384) := by omega
    rw [if_neg he, if_neg fun h => hout ⟨h.1, h.2.1⟩]

/-- Creating a process spares the stacks of the others exactly when the slot behind its own is
not in use or holds the bytes already. -/
theorem newKstack_kept_iff (hs : s < procSize) (hp : parent < procSize) (hne : parent ≠ s)
    (hlow : kstackTop parent ≤ kernelStack + 8192) (hhigh : kernelStack ≤ kstackTop parent) :
    (∃ r, newKstack m s (kstackTop parent) kernelStack = some r ∧ OtherKstacksKept live s m r.2) ↔
      NextSlotSpared live m s parent := by
  have hend := kstackbase_end
  have hnew : newKstack m s (kstackTop parent) kernelStack =
      copyKstack (createKstack m s).2 kernelStack (kstackTop parent) (kstackTop s) := by
    have htop := createKstack_top (m := m) hs
    unfold newKstack
    generalize createKstack m s = r at htop ⊢
    rw [← htop]
  rw [hnew]
  cases copyKstack_spec (m := (createKstack m s).2) hs hp hlow hhigh with
  | intro r hr =>
    have hbehind : r.2.load (kstackTop s) = if parent + 1 = s then 0 else m.load (kstackTop parent) :=
      hr.2.1.trans (createKstack_parent hs hp hne)
    have hother : ∀ {a : Nat}, a < 2 ^ 64 → ¬ KstackSlot s a → a ≠ kstackTop s →
        r.2.load a = (createKstack m s).2.load a := fun ha hout hne => hr.2.2 _ ha hout hne
    rw [hr.1]
    constructor
    · intro h hlt hlive
      cases h with
      | intro u hu =>
        cases hu.1
        have hkept := hu.2 (s + 1) hlt hlive (by omega)
        constructor
        · intro k hk hk'
          have hin : KstackSlot (s + 1) (kstackTop s + 2 * k) := by
            unfold KstackSlot kstackTop
            omega
          have h0 := hkept _ hin
          rw [hother (by unfold kstackTop; omega) (slot_of_ne (by omega) hin) (by omega),
            createKstack_load hs (by unfold kstackTop; omega)] at h0
          rw [if_pos (clearedBehind (by omega))] at h0
          exact h0.symm
        · rw [← hkept (kstackTop s) (by unfold KstackSlot kstackTop; omega), hbehind]
    · intro h
      refine ⟨r, rfl, ?_⟩
      intro l hl hlive hls a ha
      have halt : a < 2 ^ 64 := by
        unfold KstackSlot kstackTop at ha
        omega
      by_cases hnext : l = s + 1
      · rw [hnext] at hl hlive ha
        have hspared := h hl hlive
        by_cases htop : a = kstackTop s
        · rw [htop, hbehind, hspared.2]
        · rw [hother halt (slot_of_ne (by omega) ha) htop, createKstack_load hs halt]
          unfold KstackSlot kstackTop at ha
          by_cases hc : (a - (kstackbase + 8192 * s)) % 2 = 0
          · have hz := hspared.1 ((a - kstackTop s) / 2) (by unfold kstackTop at htop ⊢; omega)
              (by unfold kstackTop; omega)
            rw [show kstackTop s + 2 * ((a - kstackTop s) / 2) = a by unfold kstackTop; omega] at hz
            rw [if_pos ⟨by omega, by omega, hc⟩, hz]
          · rw [if_neg fun h => hc h.2.2]
      · have htop : a ≠ kstackTop s := by
          unfold KstackSlot kstackTop at ha
          unfold kstackTop
          omega
        rw [hother halt (slot_of_ne hls ha) htop]
        exact createKstack_far hs hl hls hnext ha

/-- `create_kstack` advances its index and its base, so it writes the even offsets of 16384
bytes: its own slot is left clear and the others untouched exactly when the bytes it leaves out
and those it should leave out are zero already. -/
theorem createKstack_framed (hs : s < procSize) :
    (KstackCleared m (createKstack m s).2 s (createKstack m s).1 ↔ ClearedBefore m s) ∧
      ∀ live parent kernelStack, parent < procSize → parent ≠ s →
        kstackTop parent ≤ kernelStack + 8192 → kernelStack ≤ kstackTop parent →
        ((∃ r, newKstack m s (kstackTop parent) kernelStack = some r ∧
          OtherKstacksKept live s m r.2) ↔ NextSlotSpared live m s parent) := by
  refine ⟨createKstack_cleared_iff hs, ?_⟩
  intro live parent kernelStack hp hne hlow hhigh
  exact newKstack_kept_iff hs hp hne hlow hhigh

/-- A memory in which the kernel stack of slot 0 is full of ones and those behind are clear. -/
def firstKstack : ByteMem := fun a => if a < kstackTop 0 then 1 else 0

/-- The process in slot 0 creates one in slot 1, whose stack is left clear; its own is kept. -/
theorem createKstack_framed_first :
    KstackCleared firstKstack (createKstack firstKstack 1).2 1 (createKstack firstKstack 1).1 ∧
      ∃ r, newKstack firstKstack 1 (kstackTop 0) (kstackTop 0) = some r ∧
        OtherKstacksKept (fun l => l == 0) 1 firstKstack r.2 := by
  obtain ⟨hclear, hkept⟩ := createKstack_framed (m := firstKstack) (s := 1) (by decide)
  have hbase : kstackbase + 2 ^ 20 < 2 ^ 64 := by decide
  have hzero : ∀ k, k < 2 ^ 20 → kstackTop 0 ≤ kstackbase + k →
      firstKstack.load (kstackbase + k) = 0 := by
    intro k hk htop
    unfold ByteMem.load firstKstack
    rw [Nat.mod_eq_of_lt (by omega), if_neg (by omega)]
  have hclear' : ClearedBefore firstKstack 1 := by
    refine ⟨fun k _ => ?_, fun k _ => ?_⟩
    · rw [Nat.add_assoc]
      exact hzero _ (by omega) (by unfold kstackTop; omega)
    · unfold kstackTop
      rw [Nat.add_assoc]
      exact hzero _ (by omega) (by unfold kstackTop; omega)
  refine ⟨hclear.mpr hclear',
    (hkept _ 0 _ (by decide) (by decide) (Nat.le_add_right _ _) (Nat.le_refl _)).mpr ?_⟩
  intro _ hlive
  cases hlive

/-- Where every byte of the area is 1, the stack of a new process in slot 1 damages that of the
process in slot 2, and keeps ones itself. -/
theorem createKstack_ones :
    ¬ KstackCleared (fun _ => 1) (createKstack (fun _ => 1) 1).2 1 (createKstack (fun _ => 1) 1).1 ∧
      ¬ ∃ r, newKstack (fun _ => 1) 1 (kstackTop 0) (kstackTop 0) = some r ∧
        OtherKstacksKept (fun _ => true) 1 (fun _ => 1) r.2 := by
  constructor
  · rw [createKstack_cleared_iff (by decide)]
    intro h
    have hz := h.1 0 (by decide)
    cases hz
  · rw [newKstack_kept_iff (by decide) (by decide) (by decide) (by omega) (by omega)]
    intro h
    have hz := (h (by decide) rfl).1 1 (by decide) (by decide)
    cases hz

end Sbunix
