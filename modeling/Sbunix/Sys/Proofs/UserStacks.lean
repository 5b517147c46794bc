import Sbunix.Sys.Proofs.KernelStacks

/-!
# User stacks

What `fork` copies of the parent's user stack, through the static buffer `parent_stack`.
-/

namespace Sbunix

open ByteMem

variable {m m' : ByteMem} {buf : List UInt8} {top base uStack parentUStack : Nat}

/-- The last index at which the loop is not yet past the parent's stack pointer gives the
child's stack pointer. -/
theorem initStackLoop_uStack (hb : base < 2 ^ 64) (ht : top < 2 ^ 64) (hbase : buf.length ≤ base)
    (htop : buf.length ≤ top) :
    (initStackLoop parentUStack buf top base uStack m).1 =
      if buf.length = 0 ∨ base < parentUStack then uStack
      else top - min (base - parentUStack) (buf.length - 1) := by
  induction buf generalizing top base uStack m with
  | nil => rfl
  | cons b buf ih =>
    simp only [List.length_cons] at hbase htop ⊢
    have hbase' : (base + (2 ^ 64 - 1)) % 2 ^ 64 = base - 1 := by omega
    have htop' : (top + (2 ^ 64 - 1)) % 2 ^ 64 = top - 1 := by omega
    rw [initStackLoop, hbase', htop', ih (by omega) (by omega) (by omega) (by omega)]
    by_cases hlt : base < parentUStack
    · rw [if_pos (show buf.length = 0 ∨ base - 1 < parentUStack by omega),
        if_neg (show ¬ parentUStack ≤ base by omega),
        if_pos (show buf.length + 1 = 0 ∨ base < parentUStack by omega)]
    · rw [if_pos (show parentUStack ≤ base by omega),
        if_neg (show ¬ (buf.length + 1 = 0 ∨ base < parentUStack) by omega)]
      by_cases hlast : buf.length = 0 ∨ base - 1 < parentUStack
      · rw [if_pos hlast]
        omega
      · rw [if_neg hlast]
        omega

/-- The loop writes nothing above its first address. -/
theorem initStackLoop_above {a : Nat} (ht : top < 2 ^ 64) (htop : buf.length ≤ top) (ha : top < a)
    (ha' : a < 2 ^ 64) : (initStackLoop parentUStack buf top base uStack m).2.load a = m.load a := by
  induction buf generalizing top base uStack m with
  | nil => rfl
  | cons b buf ih =>
    simp only [List.length_cons] at htop
    have htop' : (top + (2 ^ 64 - 1)) % 2 ^ 64 = top - 1 := by omega
    rw [initStackLoop, htop', ih (by omega) (by omega) (by omega)]
    apply load_store_other
    rw [sameAddr_iff ha' ht]
    omega

theorem initStackLoop_bytes (ht : top < 2 ^ 64) (htop : buf.length ≤ top) {j : Nat}
    (hj : j < buf.length) :
    (initStackLoop parentUStack buf top base uStack m).2.load (top - j) = buf.get ⟨j, hj⟩ := by
  induction buf generalizing top base uStack m j with
  | nil => cases hj
  | cons b buf ih =>
    simp only [List.length_cons] at htop
    have htop' : (top + (2 ^ 64 - 1)) % 2 ^ 64 = top - 1 := by omega
    rw [initStackLoop, htop']
    cases j with
    | zero =>
      rw [Nat.sub_zero, initStackLoop_above (by omega) (by omega) (by omega) ht, load_store_same]
      rfl
    | succ j =>
      have h := @ih (m.store top b) (top - 1) ((base + (2 ^ 64 - 1)) % 2 ^ 64)
        (if parentUStack ≤ base then top else uStack) (by omega) (by omega) j
        (Nat.lt_of_succ_lt_succ hj)
      rw [show top - (j + 1) = top - 1 - j by omega, h]
      rfl

theorem stackTop_eq (s : Nat) : stackTop s = ustacktop - 8192 * s := by
  have hu : ustacktop = (ustacktop / 4096) * 4096 ∧ 8192 * 100 ≤ ustacktop ∧
      ustacktop < 2 ^ 64 := by decide
  unfold stackTop
  rw [and_pageMask (by omega)]
  omega

theorem stackTop_bounds {s : Nat} (hs : s < procSize) : 8192 ≤ stackTop s ∧ stackTop s < 2 ^ 64 := by
  have hu : 8192 * 101 ≤ ustacktop ∧ ustacktop < 2 ^ 64 := by decide
  have hlt : s < 100 := hs
  rw [stackTop_eq s]
  omega

theorem copyParentStack_get {j : Nat} (hj : j < (copyParentStack m base).length)
    (hb : j ≤ base) : (copyParentStack m base).get ⟨j, hj⟩ = m.load (base - j) := by
  have hlen : j < 4096 := by
    simpa [copyParentStack] using hj
  have hget : (copyParentStack m base).get ⟨j, hj⟩ = m.load (base + (2 ^ 64 - j)) := by
    simp [copyParentStack]
  rw [hget]
  apply load_congr
  unfold SameAddr
  omega

theorem copyParentStack_length : (copyParentStack m base).length = 4096 := by
  simp [copyParentStack]

/-- The child's stack pointer, for a parent's that is `d` below its base. -/
theorem forkStack_uStack {parent child d : Nat} (hp : parent < procSize) (hc : child < procSize)
    (hd : d ≤ 8191) :
    (forkStack m m' child (stackTop parent) (stackTop parent - d) uStack).1.uStack =
      stackTop child - min d 4095 := by
  have hbp := stackTop_bounds hp
  have hbc := stackTop_bounds hc
  have hlen : (copyParentStack m (stackTop parent)).length = 4096 := copyParentStack_length
  have hloop := @initStackLoop_uStack m' (copyParentStack m (stackTop parent)) (stackTop child)
    (stackTop parent) uStack (stackTop parent - d) hbp.2 hbc.2 (by omega) (by omega)
  rw [if_neg (by omega), hlen] at hloop
  simp only [forkStack, initStack, hloop]
  omega

theorem forkStack_uStackbase {child base usersp : Nat} :
    (forkStack m m' child base usersp uStack).1.uStackbase = stackTop child := rfl

/-- The bytes of the buffer are those of the parent's stack. -/
theorem forkStack_load {parent child usersp k : Nat} (hp : parent < procSize)
    (hc : child < procSize) (hk : k < 4096) :
    (forkStack m m' child (stackTop parent) usersp uStack).2.load (stackTop child - k) =
      m.load (stackTop parent - k) := by
  have hbp := stackTop_bounds hp
  have hbc := stackTop_bounds hc
  have hlen : (copyParentStack m (stackTop parent)).length = 4096 := copyParentStack_length
  have hbuf : k < (copyParentStack m (stackTop parent)).length := by omega
  unfold forkStack initStack
  rw [initStackLoop_bytes hbc.2 (by omega) hbuf]
  exact copyParentStack_get hbuf (by omega)

/-- `fork` reproduces the user stack exactly when its depth is below the 4096 bytes of the
buffer: the child's stack pointer is never further from the base than 4095. -/
theorem forkStack_reproduced {parent child d : Nat} (hp : parent < procSize) (hc : child < procSize)
    (hd : d ≤ 8191) (m m' : ByteMem) (uStack : Nat) :
    StackReproduced m (stackTop parent) d
        (forkStack m m' child (stackTop parent) (stackTop parent - d) uStack).1
        (forkStack m m' child (stackTop parent) (stackTop parent - d) uStack).2 ↔
      d < 4096 := by
  have hbp := stackTop_bounds hp
  have hbc := stackTop_bounds hc
  have hstack := @forkStack_uStack m m' uStack parent child d hp hc hd
  constructor
  · intro h
    have hdepth := h.depth
    rw [hstack, forkStack_uStackbase] at hdepth
    omega
  · intro hlt
    constructor
    · rw [hstack, forkStack_uStackbase]
      omega
    · intro k hk
      rw [forkStack_uStackbase]
      exact forkStack_load hp hc (by omega)

theorem forkStack_reproduced_shallow :
    StackReproduced (fun _ => 1) (stackTop 0) 16
        (forkStack (fun _ => 1) (fun _ => 0) 1 (stackTop 0) (stackTop 0 - 16) 0).1
        (forkStack (fun _ => 1) (fun _ => 0) 1 (stackTop 0) (stackTop 0 - 16) 0).2 ↔ 16 < 4096 :=
  forkStack_reproduced (by decide) (by decide) (by decide) _ _ _

/-- With 5000 bytes on the parent's stack the child's pointer is 4095 below its base. -/
theorem forkStack_deep :
    ¬ StackReproduced (fun _ => 1) (stackTop 0) 5000
        (forkStack (fun _ => 1) (fun _ => 0) 1 (stackTop 0) (stackTop 0 - 5000) 0).1
        (forkStack (fun _ => 1) (fun _ => 0) 1 (stackTop 0) (stackTop 0 - 5000) 0).2 := by
  intro h
  have hc := stackTop_bounds (s := 1) (by decide)
  have hstack := @forkStack_uStack (fun _ => 1) (fun _ => 0) 0 0 1 5000 (by decide) (by decide)
    (by decide)
  have hdepth : stackTop 1 = _ := h.depth
  rw [hstack] at hdepth
  omega

end Sbunix
