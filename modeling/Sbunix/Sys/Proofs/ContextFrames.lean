import Sbunix.Sys.VirtualCpu
import Sbunix.Sys.Proofs.IsrWrapper
import Sbunix.Sys.Proofs.KernelStacks

/-!
# Frames on the kernel stacks

What the work on one kernel stack leaves of the frames on the others.
-/

namespace Sbunix

open ByteMem StackMachine

variable {m m' : ByteMem} {tr : Traces} {r : Gpr → UInt64} {rg sp i j b a parent kernelStack : Nat}
  {f : Gpr} {w : UInt64}

/-- A stack pointer of the slot: its stack is not full. -/
def InSlot (b sp : Nat) : Prop := kstackTop b < sp + 8192 ∧ sp ≤ kstackTop b

theorem stackFloor_eq (h : InSlot b sp) : stackFloor sp + 8192 = kstackTop b := by
  have hpos := kstackbase_pos
  unfold InSlot kstackTop at h
  unfold stackFloor kstackTop
  have hdiv : (sp - 1 - kstackbase) / 8192 = b := by omega
  rw [hdiv]
  omega

/-- The registers `r` of a program lie in a `gpr_t` at `rg` on the kernel stack of slot `i`. -/
structure Parked (m : ByteMem) (rg i : Nat) (r : Gpr → UInt64) : Prop where
  lower : kstackTop i < rg + 8192
  upper : rg + 160 ≤ kstackTop i
  fields : frame m rg gprT = r

theorem Parked.inSlot (h : Parked m rg i r) : InSlot i rg :=
  ⟨h.lower, Nat.le_trans (Nat.le_add_right rg 160) h.upper⟩

theorem Parked.slot (h : Parked m rg i r) {x : Nat} (hx : rg ≤ x) (hx' : x < rg + 160) :
    KstackSlot i x := by
  have hl := h.lower
  have hu := h.upper
  unfold KstackSlot kstackTop at *
  omega

theorem kstackSlot_lt (hi : i < procSize) {x : Nat} (hx : KstackSlot i x) : x < 2 ^ 64 :=
  Nat.lt_trans hx.2 (kstackTop_lt hi)

theorem kstackSlot_area (hi : i < procSize) {x : Nat} (hx : KstackSlot i x) : InKstacks x := by
  have hi' : i < 100 := hi
  unfold KstackSlot kstackTop at hx
  unfold InKstacks procSize
  omega

/-- A frame stays as long as its bytes do. -/
theorem Parked.congr (h : Parked m rg i r) (hm : ∀ x, rg ≤ x → x < rg + 160 → KstackSlot i x →
    m'.load x = m.load x) : Parked m' rg i r := by
  refine ⟨h.lower, h.upper, ?_⟩
  rw [← h.fields]
  apply gprFrame_congr
  intro k hk
  exact hm _ (by omega) (by omega) (h.slot (by omega) (by omega))

theorem Traces.over_load (hi : i < procSize) {x : Nat} (hx : KstackSlot i x)
    (h : x < tr.low ∨ sp ≤ x) : (tr.over sp m).load x = m.load x := by
  have hlt := kstackSlot_lt hi hx
  have hc : InKstacks x ∧ ¬ (tr.low ≤ x ∧ x < sp) := ⟨kstackSlot_area hi hx, by omega⟩
  unfold load Traces.over
  rw [Nat.mod_eq_of_lt hlt, if_pos hc]

/-- C functions on one stack leave the frames alone that lie above their stack pointer or on
another stack. -/
theorem Parked.over (h : Parked m rg i r) (hi : i < procSize) (hb : InSlot b sp)
    (hlow : stackFloor sp ≤ tr.low) (hsp : i = b → sp ≤ rg) : Parked (tr.over sp m) rg i r := by
  have hfloor := stackFloor_eq hb
  apply h.congr
  intro x hx hx' hslot
  apply Traces.over_load hi hslot
  by_cases he : i = b
  · exact .inr (Nat.le_trans (hsp he) hx)
  · unfold InSlot at hb
    unfold KstackSlot kstackTop at *
    omega

theorem gprField_le (f : Gpr) : 8 * gprT.idxOf f + 8 ≤ 160 := by
  have h : gprT.idxOf f < 20 := List.idxOf_lt_length_iff.mpr (mem_gprT f)
  omega

theorem Parked.le (h : Parked m rg i r) (hi : i < procSize) : rg + 160 ≤ 2 ^ 64 :=
  Nat.le_trans h.upper (Nat.le_of_lt (kstackTop_lt hi))

theorem Parked.setField (h : Parked m rg i r) (hi : i < procSize) :
    Parked (setField m rg f w) rg i (Function.update r f w) := by
  refine ⟨h.lower, h.upper, ?_⟩
  rw [← h.fields]
  exact gprFrame_storeWord (h.le hi)

/-- A word stored outside of the frame. -/
theorem Parked.storeWord (h : Parked m rg i r) (hi : i < procSize) {x : Nat} (hx : x + 8 ≤ 2 ^ 64)
    (hout : x + 8 ≤ rg ∨ rg + 160 ≤ x) : Parked (m.storeWord x w) rg i r := by
  apply h.congr
  intro y hy hy' hslot
  exact load_storeWord_other hx (kstackSlot_lt hi hslot) (by omega)

/-- A frame of another slot. -/
theorem Parked.setField_other {q : Gpr → UInt64} {rg' : Nat} (h : Parked m rg i r)
    (h' : Parked m' rg' j q) (hi : i < procSize) (hj : j < procSize) (hne : i ≠ j) :
    Parked (Sbunix.setField m rg' f w) rg i r := by
  have hf := gprField_le f
  have hle := h'.le hj
  have hl := h.lower
  have hu := h.upper
  have hl' := h'.lower
  have hu' := h'.upper
  unfold kstackTop at hl hu hl' hu'
  exact h.storeWord hi (by omega) (by omega)

/-- A word that a program lets the kernel store into its own memory. -/
theorem Parked.storeUser (h : Parked m rg i r) (hi : i < procSize) {x : Nat}
    (hx : x + 8 ≤ kstackbase) : Parked (m.storeWord x w) rg i r := by
  have hl := h.lower
  have hend := kstackbase_end
  unfold kstackTop at hl
  exact h.storeWord hi (by omega) (by omega)

/-- A process starts from its frame with its registers. -/
theorem Parked.resume (h : Parked m rg i r) (hi : i < procSize) {c : StackMachine Gpr}
    (hsp : c.sp = rg) (hmem : c.mem = m) : (Sbunix.resume c).regs = r := by
  have hu := h.upper
  have hlt := kstackTop_lt hi
  rw [resume_regs (by omega), hsp, hmem]
  exact h.fields

/-! ## The stack of a new process -/

/-- The loop of `copy_kstack` copies `n` bytes, when none of them is written before it is read. -/
theorem copyKstackLoop_bytes (hk : 1 ≤ kernelStack) (n : Nat) :
    ∀ {fuel kBase kStack : Nat} {m : ByteMem}, kBase + 1 = kernelStack + n → n < fuel →
      n ≤ kStack → kStack < 2 ^ 64 → kBase < 2 ^ 64 → kStack + n ≤ kBase ∨ kBase + n ≤ kStack →
      ∃ r, copyKstackLoop kernelStack fuel kBase kStack m = some r ∧
        ∀ k < n, r.2.load (kStack - k) = m.load (kBase - k) := by
  induction n with
  | zero =>
    intro fuel kBase kStack m hb hfuel _ _ _ _
    cases fuel with
    | zero => omega
    | succ fuel =>
      rw [copyKstackLoop, if_neg (by omega)]
      exact ⟨(kStack, m), rfl, fun k hk => absurd hk (Nat.not_lt_zero k)⟩
  | succ n ih =>
    intro fuel kBase kStack m hb hfuel hn hlt hblt hapart
    cases fuel with
    | zero => omega
    | succ fuel =>
      rw [copyKstackLoop, if_pos (by omega)]
      have hbase : (kBase + (2 ^ 64 - 1)) % 2 ^ 64 = kBase - 1 := by omega
      have hstack : (kStack + (2 ^ 64 - 1)) % 2 ^ 64 = kStack - 1 := by omega
      rw [hbase, hstack]
      have hstep := @ih fuel (kBase - 1) (kStack - 1) (m.store kStack (m.load kBase)) (by omega)
        (by omega) (by omega) (by omega) (by omega) (by omega)
      have hframe := @copyKstackLoop_frame kernelStack hk n fuel (kBase - 1) (kStack - 1)
        (m.store kStack (m.load kBase)) (by omega) (by omega) (by omega) (by omega) (by omega)
      obtain ⟨r, hr, hbytes⟩ := hstep
      obtain ⟨r', hr', hother⟩ := hframe
      obtain rfl : r = r' := Option.some.inj (hr.symm.trans hr')
      refine ⟨r, hr, ?_⟩
      intro k hk
      cases k with
      | zero =>
        rw [Nat.sub_zero, Nat.sub_zero, hother kStack hlt (.inl (by omega)), load_store_same]
      | succ k =>
        have hb := hbytes k (by omega)
        rw [show kStack - (k + 1) = kStack - 1 - k by omega,
          show kBase - (k + 1) = kBase - 1 - k by omega, hb]
        apply load_store_other
        rw [sameAddr_iff (by omega) hlt]
        omega

/-- What a new kernel stack is: as deep as that of its parent, with the same bytes, while the
stacks of the others but the slot behind are as before. -/
theorem newKstack_copied (hi : i < procSize) (hp : parent < procSize) (hne : parent ≠ i)
    (hbehind : parent ≠ i + 1) (hk : InSlot parent kernelStack) :
    ∃ r, copyKstack (createKstack m i).2 kernelStack (kstackTop parent) (createKstack m i).1 =
        some r ∧
      (∀ k, 1 ≤ k → k + kernelStack ≤ kstackTop parent →
        r.2.load (kstackTop i - k) = m.load (kstackTop parent - k)) ∧
      ∀ l < procSize, l ≠ i → l ≠ i + 1 → ∀ x, KstackSlot l x → r.2.load x = m.load x := by
  have hend := kstackbase_end
  have hpos := kstackbase_pos
  have hltp := kstackTop_lt hp
  have hlti := kstackTop_lt hi
  have htop := createKstack_top (m := m) hi
  rw [htop]
  unfold InSlot at hk
  have hapart : kstackTop i + (kstackTop parent + 1 - kernelStack) ≤ kstackTop parent ∨
      kstackTop parent + (kstackTop parent + 1 - kernelStack) ≤ kstackTop i := by
    unfold kstackTop at *
    omega
  have hroom : kstackTop parent + 1 - kernelStack ≤ kstackTop i := by
    unfold kstackTop at *
    omega
  have hloop := @copyKstackLoop_bytes kernelStack (by unfold kstackTop at *; omega)
    (kstackTop parent + 1 - kernelStack) (2 ^ 64) (kstackTop parent) (kstackTop i)
    (createKstack m i).2 (by omega) (by unfold kstackTop at *; omega) hroom hlti hltp hapart
  have hspec := copyKstack_spec (m := (createKstack m i).2) hi hp (by omega) hk.2
  obtain ⟨r, hr, hbytes⟩ := hloop
  obtain ⟨r', hr', -, hother⟩ := hspec
  have hres : copyKstack (createKstack m i).2 kernelStack (kstackTop parent) (kstackTop i) =
      some ((r.1 + 1) % 2 ^ 64, r.2) := congrArg (Option.map _) hr
  have hmem : r'.2 = r.2 := by
    rw [hres] at hr'
    rw [← Option.some.inj hr']
  refine ⟨r', hr', ?_, ?_⟩
  · intro k hk1 hk2
    rw [hmem, hbytes k (by omega)]
    have hslot : KstackSlot parent (kstackTop parent - k) := by
      unfold KstackSlot kstackTop at *
      omega
    exact createKstack_far hi hp hne hbehind hslot
  · intro l hl hli hlb x hx
    have hnot := slot_of_ne hli hx
    have hxt : x ≠ kstackTop i := by
      unfold KstackSlot kstackTop at *
      omega
    rw [hother x (kstackSlot_lt hl hx) hnot hxt]
    exact createKstack_far hi hl hli hlb hx

end Sbunix
