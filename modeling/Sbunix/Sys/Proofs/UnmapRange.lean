import Sbunix.Sys.Proofs.UserPages

/-!
# The loop of unmap_phyaddr_range

The loop counter is an `int`: it runs through the low 2 GiB and, from there, on through the
high 2 GiB of the address space. It never takes more than `2 ^ 20` turns.
-/

namespace Sbunix

variable {k : Nat} {m : Machine} {i : Int} {fuel u v c vstart vend : Nat}

/-- A value of the loop counter. -/
structure Counter (i : Int) : Prop where
  aligned : i % 4096 = 0
  low : -2 ^ 31 ≤ i
  high : i < 2 ^ 31

theorem toUint64_nonneg (h : Counter i) (h0 : 0 ≤ i) : toUint64 i = i.toNat := by
  have := h.high
  unfold toUint64
  omega

theorem toUint64_neg (h : Counter i) (h0 : i < 0) : (toUint64 i : Int) = i + 2 ^ 64 := by
  have := h.low
  unfold toUint64
  omega

theorem Counter.start (hv : v % 4096 = 0) : Counter (toInt32 v) := by
  unfold toInt32
  rw [bmod32]
  constructor <;> split_ifs <;> omega

/-- One turn, without wrap-around or with it. -/
theorem Counter.next (h : Counter i) : Counter ((i + 4096).bmod (2 ^ 32)) ∧
    (i + 4096).bmod (2 ^ 32) = if i + 4096 < 2 ^ 31 then i + 4096 else -2 ^ 31 := by
  obtain ⟨ha, hl, hh⟩ := h
  have heq : (i + 4096).bmod (2 ^ 32) = if i + 4096 < 2 ^ 31 then i + 4096 else -2 ^ 31 := by
    rw [bmod32]
    split_ifs <;> omega
  refine ⟨?_, heq⟩
  rw [heq]
  constructor <;> split_ifs <;> omega

theorem toUint64_next (h : Counter i) (hi : i + 4096 < 2 ^ 31) (h0 : 0 ≤ i ∨ i + 4096 < 0) :
    toUint64 ((i + 4096).bmod (2 ^ 32)) = toUint64 i + 4096 := by
  obtain ⟨ha, hl, hh⟩ := h
  rw [Counter.next ⟨ha, hl, hh⟩ |>.2, if_pos hi]
  unfold toUint64
  omega

/-- How many turns the loop can still take. -/
def turns (i : Int) : Nat := if 0 ≤ i then ((2 ^ 32 - i) / 4096).toNat else (-i / 4096).toNat

theorem turns_le (h : Counter i) : turns i ≤ 2 ^ 20 := by
  obtain ⟨ha, hl, hh⟩ := h
  unfold turns
  split_ifs <;> omega

/-- The loop always ends. -/
theorem unmapFrom_eq (h : Counter i) (hv : vend % 4096 = 0) (hlt : vend < 2 ^ 64)
    (hfuel : turns i ≤ fuel) :
    Machine.unmapFrom fuel i vend m =
      (unmapAddrs fuel i vend).foldlM (fun m v => Machine.unmapPhyaddr m v) m := by
  induction fuel generalizing i m with
  | zero =>
      obtain ⟨ha, hl, hh⟩ := h
      unfold turns at hfuel
      split_ifs at hfuel <;> omega
  | succ fuel ih =>
      rw [Machine.unmapFrom, unmapAddrs]
      by_cases hu : toUint64 i < vend
      · rw [if_pos hu, if_pos hu, List.foldlM_cons]
        congr 1
        funext m'
        refine ih h.next.1 ?_
        rw [h.next.2]
        by_cases h0 : 0 ≤ i
        · obtain ⟨ha, hl, hh⟩ := h
          unfold turns at *
          split_ifs at * <;> omega
        · have hneg := toUint64_neg h (by omega)
          obtain ⟨ha, hl, hh⟩ := h
          unfold turns at *
          split_ifs at * <;> omega
      · rw [if_neg hu, if_neg hu]
        rfl

theorem unmapAddrs_done (h : vend ≤ toUint64 i) : unmapAddrs fuel i vend = [] := by
  cases fuel with
  | zero => rfl
  | succ fuel => rw [unmapAddrs, if_neg (by omega)]

theorem toUint64_top : toUint64 (-2 ^ 31) = 0xFFFFFFFF80000000 := by decide

/-- Without a wrap-around before the end the loop visits the pages up to it, in order. -/
theorem unmapAddrs_eq (h : Counter i) (hv : vend % 4096 = 0) (hlt : vend < 2 ^ 64)
    (hw : i < 0 ∨ vend ≤ 2 ^ 31) (hfuel : turns i ≤ fuel) :
    unmapAddrs fuel i vend = List.range' (toUint64 i) ((vend - toUint64 i) / 4096) 4096 := by
  induction fuel generalizing i with
  | zero =>
      obtain ⟨ha, hl, hh⟩ := h
      unfold turns at hfuel
      split_ifs at hfuel <;> omega
  | succ fuel ih =>
      by_cases hu : toUint64 i < vend
      · have hal : toUint64 i % 4096 = 0 := by
          have := h.aligned
          unfold toUint64
          omega
        have hcount : (vend - toUint64 i) / 4096 = (vend - (toUint64 i + 4096)) / 4096 + 1 := by
          omega
        rw [unmapAddrs, if_pos hu, hcount, List.range'_succ]
        congr 1
        by_cases hi : i + 4096 < 2 ^ 31 ∧ (0 ≤ i ∨ i + 4096 < 0)
        · have hnext := toUint64_next h hi.1 hi.2
          rw [ih h.next.1, hnext]
          · rw [h.next.2, if_pos hi.1]
            omega
          · obtain ⟨ha, hl, hh⟩ := h
            rw [Counter.next ⟨ha, hl, hh⟩ |>.2, if_pos hi.1]
            unfold turns at *
            split_ifs at * <;> omega
        · -- the last page below 2 GiB; the top page of memory lies behind every end
          by_cases h0 : 0 ≤ i
          · have hnat := toUint64_nonneg h h0
            have hend : vend = toUint64 i + 4096 := by
              have := h.aligned
              have := h.high
              omega
            rw [unmapAddrs_done]
            · rw [hend, Nat.sub_self]
              rfl
            · rw [h.next.2, if_neg (by omega), toUint64_top]
              omega
          · have hneg := toUint64_neg h (by omega)
            have := h.aligned
            omega
      · rw [unmapAddrs_done (by omega), show (vend - toUint64 i) / 4096 = 0 by omega]
        rfl

/-- Every page the loop visits is below 2 GiB or in the highest 2 GiB, and below the end. -/
theorem mem_unmapAddrs (h : Counter i) (hv : v ∈ unmapAddrs fuel i vend) :
    v % 4096 = 0 ∧ v < vend ∧ (v < 2 ^ 31 ∨ 0xFFFFFFFF80000000 ≤ v) := by
  induction fuel generalizing i with
  | zero => simp [unmapAddrs] at hv
  | succ fuel ih =>
      rw [unmapAddrs] at hv
      split_ifs at hv with hu
      · rcases List.mem_cons.mp hv with rfl | hv
        · obtain ⟨ha, hl, hh⟩ := h
          refine ⟨?_, hu, ?_⟩ <;> unfold toUint64 <;> omega
        · exact ih h.next.1 hv
      · simp at hv

/-- The start and the end of the loop. -/
def unmapStart (vstart : Nat) : Nat :=
  if vstart % 4096 ≠ 0 then (vstart >>> 12) <<< 12 else vstart

/-- The end of the loop: the end of the range, rounded up to a page. -/
def unmapEnd (vend : Nat) : Nat :=
  if vend % 4096 ≠ 0 then ((vend >>> 12 + 1) <<< 12) % 2 ^ 64 else vend

theorem unmapStart_eq (v : Nat) : unmapStart v = v / 4096 * 4096 := by
  unfold unmapStart
  rw [Nat.shiftRight_eq_div_pow, Nat.shiftLeft_eq]
  split_ifs <;> omega

theorem unmapEnd_eq (v : Nat) : unmapEnd v =
    if v % 4096 ≠ 0 then (v / 4096 + 1) * 4096 % 2 ^ 64 else v := by
  unfold unmapEnd
  rw [Nat.shiftRight_eq_div_pow, Nat.shiftLeft_eq]

theorem unmapEnd_aligned (hv : v < 2 ^ 64) : unmapEnd v % 4096 = 0 ∧ unmapEnd v < 2 ^ 64 := by
  rw [unmapEnd_eq]
  split_ifs <;> omega

/-- The addresses `unmap_phyaddr_range` calls `unmap_phyaddr` on. -/
def rangeAddrs (vstart vend : Nat) : List Nat :=
  unmapAddrs (2 ^ 20 + 1) (toInt32 (unmapStart vstart)) (unmapEnd vend)

theorem unmapStart_counter : Counter (toInt32 (unmapStart vstart)) := by
  rw [unmapStart_eq]
  exact Counter.start (Nat.mul_mod_left _ _)

theorem unmapPhyaddrRange_eq (hv : vend < 2 ^ 64) : m.unmapPhyaddrRange vstart vend =
    (rangeAddrs vstart vend).foldlM (fun m v => Machine.unmapPhyaddr m v) m := by
  obtain ⟨hal, hlt⟩ := unmapEnd_aligned hv
  exact unmapFrom_eq unmapStart_counter hal hlt ((turns_le unmapStart_counter).trans (Nat.le_succ _))

theorem mem_rangeAddrs (hv : v ∈ rangeAddrs vstart vend) :
    v % 4096 = 0 ∧ v < unmapEnd vend ∧ (v < 2 ^ 31 ∨ 0xFFFFFFFF80000000 ≤ v) :=
  mem_unmapAddrs unmapStart_counter hv

/-- The loop over a VMA never leaves the user pages. -/
theorem UserRange.rangeAddrs (h : UserRange vstart vend) (hv : v ∈ rangeAddrs vstart vend) :
    UserAddr v ∧ v % 4096 = 0 := by
  obtain ⟨hal, hlt, hcase⟩ := mem_rangeAddrs hv
  have hw : pml4Page (procSize - 1) = 0xFFFF801FF - 99 := pml4Page_eq (by decide)
  have hup : upml4 - 4096 * (procSize - 1) = 0xFFFFFFFF801FF000 - 4096 * 99 := rfl
  refine ⟨?_, hal⟩
  rw [unmapEnd_eq] at hlt
  unfold UserAddr
  rw [p1Index_eq, pageOf, hw]
  rcases hcase with hcase | hcase
  · exact ⟨by omega, .inl (by omega)⟩
  · rcases h with h | ⟨-, h⟩ | ⟨-, h⟩
    · split_ifs at hlt <;> omega
    · split_ifs at hlt <;> omega
    · rw [hup] at h
      have hend : v < 0xFFFFFFFF801FF000 - 4096 * 99 := by
        split_ifs at hlt <;> omega
      exact ⟨by omega, .inr ⟨by omega, by omega⟩⟩

theorem UserRange.vend_lt (h : UserRange vstart vend) : vend < 2 ^ 64 := by
  have hup : upml4 - 4096 * (procSize - 1) = 0xFFFFFFFF801FF000 - 4096 * 99 := rfl
  rcases h with h | ⟨-, h⟩ | ⟨-, h⟩
  · omega
  · omega
  · rw [hup] at h
    omega

/-- `unmap_phyaddr_range` over a VMA, in any address space: the pages the loop visits are
unmapped, the others stay. -/
theorem unmapRange_spec (hinv : PageInv k m noRes) (hr : RootInv k m) (hc : c < procSize)
    (hroot : root m.mem k (some c) = some (m.cr3 / 4096)) (hu : UserRange vstart vend) :
    ∃ m', m.unmapPhyaddrRange vstart vend = some m' ∧ Keeps k m m' ∧
      ∀ p, leaf m'.mem k p =
        if ∃ v ∈ rangeAddrs vstart vend, p = pageAt c v then 0 else leaf m.mem k p := by
  rw [unmapPhyaddrRange_eq hu.vend_lt]
  exact unmapList_spec hinv hr hc hroot fun v hv => hu.rangeAddrs hv

end Sbunix
