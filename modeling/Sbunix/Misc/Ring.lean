import Mathlib.Logic.Function.Basic
import Mathlib.Data.List.Nodup
import Mathlib.Data.List.Range
import Mathlib.Data.Nat.ModEq

/-!
# Circular buffers

A buffer of `n` cells read from `start` up to, and not including, `stop`, with
both ends taken modulo `n`.  One cell always stays unused, so that `start = stop`
means the empty queue.  `ringList` is the queue the two ends describe; the lemmas
say what a push, a pop and a write do to it.
-/

namespace Sbunix

variable {α : Type*} {n start stop : Nat} {buf : Nat → α} {x : α}

/-- The number of cells between the two ends. -/
def ringLen (n start stop : Nat) : Nat := (stop + n - start) % n

/-- The queue the two ends delimit, front first. -/
def ringList (n : Nat) (buf : Nat → α) (start stop : Nat) : List α :=
  (List.range (ringLen n start stop)).map fun k => buf ((start + k) % n)

@[simp] theorem length_ringList : (ringList n buf start stop).length = ringLen n start stop := by
  simp [ringList]

theorem ringLen_lt (hn : 0 < n) : ringLen n start stop < n := Nat.mod_lt _ hn

@[simp] theorem ringLen_self : ringLen n start start = 0 := by simp [ringLen]

theorem ringLen_of_le (h : start ≤ stop) (hs : stop < n) : ringLen n start stop = stop - start := by
  unfold ringLen
  rw [show stop + n - start = (stop - start) + n by omega, Nat.add_mod_right]
  exact Nat.mod_eq_of_lt (by omega)

theorem ringLen_of_gt (h : stop < start) (hs : start < n) :
    ringLen n start stop = stop + n - start := by
  unfold ringLen
  exact Nat.mod_eq_of_lt (by omega)

theorem ringLen_eq_zero (hs : start < n) (ht : stop < n) :
    ringLen n start stop = 0 ↔ start = stop := by
  rcases Nat.lt_or_ge stop start with h | h
  · rw [ringLen_of_gt h hs]; omega
  · rw [ringLen_of_le h ht]; omega

/-- The end is the start advanced by the length. -/
theorem start_add_ringLen (hs : start < n) (ht : stop < n) :
    (start + ringLen n start stop) % n = stop := by
  rcases Nat.lt_or_ge stop start with h | h
  · rw [ringLen_of_gt h hs, show start + (stop + n - start) = stop + n by omega,
      Nat.add_mod_right]
    exact Nat.mod_eq_of_lt ht
  · rw [ringLen_of_le h ht, show start + (stop - start) = stop by omega]
    exact Nat.mod_eq_of_lt ht

theorem succ_mod_eq (ht : stop < n) : (stop + 1) % n = if stop + 1 = n then 0 else stop + 1 := by
  split_ifs with h
  · rw [h, Nat.mod_self]
  · exact Nat.mod_eq_of_lt (by omega)

/-- A push makes the ends meet exactly when `n - 1` cells are in use. -/
theorem ringLen_push (hs : start < n) (ht : stop < n) (h : ringLen n start stop + 1 < n) :
    ringLen n start ((stop + 1) % n) = ringLen n start stop + 1 := by
  rw [succ_mod_eq ht]
  rcases Nat.lt_or_ge stop start with hlt | hge
  · rw [ringLen_of_gt hlt hs] at h ⊢
    split_ifs with hw
    · rw [ringLen_of_gt (by omega) hs]; omega
    · rcases Nat.lt_or_ge (stop + 1) start with h' | h'
      · rw [ringLen_of_gt h' hs]; omega
      · omega
  · rw [ringLen_of_le hge ht] at h ⊢
    split_ifs with hw
    · rw [ringLen_of_gt (by omega) hs]; omega
    · rw [ringLen_of_le (by omega) (by omega)]; omega

theorem ringLen_pop (hs : start < n) (ht : stop < n) (h : start ≠ stop) :
    ringLen n ((start + 1) % n) stop + 1 = ringLen n start stop := by
  rw [succ_mod_eq hs]
  rcases Nat.lt_or_ge stop start with hlt | hge
  · rw [ringLen_of_gt hlt hs]
    split_ifs with hw
    · rw [ringLen_of_le (by omega) ht]; omega
    · rw [ringLen_of_gt (by omega) (by omega)]; omega
  · rw [ringLen_of_le hge ht]
    split_ifs with hw
    · omega
    · rw [ringLen_of_le (by omega) ht]; omega

/-- Distinct offsets below `n` are distinct cells. -/
theorem ring_cell_inj {i j : Nat} (hi : i < n) (hj : j < n)
    (h : (start + i) % n = (start + j) % n) : i = j := by
  have h' : i % n = j % n := Nat.ModEq.add_left_cancel' start h
  rwa [Nat.mod_eq_of_lt hi, Nat.mod_eq_of_lt hj] at h'

/-- A push at a queue that is not full appends the pushed value. -/
theorem ringList_push (hs : start < n) (ht : stop < n) (h : ringLen n start stop + 1 < n) :
    ringList n (Function.update buf stop x) start ((stop + 1) % n) =
      ringList n buf start stop ++ [x] := by
  unfold ringList
  rw [ringLen_push hs ht h, List.range_succ, List.map_append, List.map_singleton,
    start_add_ringLen hs ht, Function.update_self]
  congr 1
  apply List.map_congr_left
  intro k hk
  rw [List.mem_range] at hk
  apply Function.update_of_ne
  intro he
  rw [← start_add_ringLen hs ht] at he
  have := ring_cell_inj (by omega) (by omega) he
  omega

/-- A queue whose ends differ has its first cell in front. -/
theorem ringList_pop (hs : start < n) (ht : stop < n) (h : start ≠ stop) :
    ringList n buf start stop = buf start :: ringList n buf ((start + 1) % n) stop := by
  unfold ringList
  rw [← ringLen_pop hs ht h, List.range_succ_eq_map, List.map_cons, List.map_map, Nat.add_zero,
    Nat.mod_eq_of_lt hs]
  congr 1
  apply List.map_congr_left
  intro k _
  simp only [Function.comp_apply, Nat.mod_add_mod]
  congr 2
  omega

@[simp] theorem ringList_self : ringList n buf start start = [] := by simp [ringList]

theorem ringList_eq_nil (hs : start < n) (ht : stop < n) :
    ringList n buf start stop = [] ↔ start = stop := by
  rw [← List.length_eq_zero_iff, length_ringList, ringLen_eq_zero hs ht]

/-- Overwriting the cell just before the queue leaves the queue as it is. -/
theorem ringList_update_popped (hs : start < n) (ht : stop < n) (h : start ≠ stop) :
    ringList n (Function.update buf start x) ((start + 1) % n) stop =
      ringList n buf ((start + 1) % n) stop := by
  unfold ringList
  apply List.map_congr_left
  intro k hk
  rw [List.mem_range] at hk
  have hlen := ringLen_pop hs ht h
  have hlt : ringLen n start stop < n := ringLen_lt (by omega)
  apply Function.update_of_ne
  rw [Nat.mod_add_mod, show start + 1 + k = start + (k + 1) by omega]
  intro he
  have hz : (start + (k + 1)) % n = (start + 0) % n := by
    rw [he, Nat.add_zero, Nat.mod_eq_of_lt hs]
  have := ring_cell_inj (by omega) (by omega) hz
  omega

/-- Moving the cells in front of offset `d` up by one and the start with them drops
the entry at offset `d`. -/
theorem ringList_shift {buf' : Nat → α} {d : Nat} (hs : start < n) (ht : stop < n)
    (hd : d < ringLen n start stop)
    (hlow : ∀ k < d, buf' ((start + k + 1) % n) = buf ((start + k) % n))
    (hhigh : ∀ k, d < k → k < ringLen n start stop → buf' ((start + k) % n) = buf ((start + k) % n)) :
    ringList n buf' ((start + 1) % n) stop = (ringList n buf start stop).eraseIdx d := by
  have hne : start ≠ stop := by
    rintro rfl
    rw [ringLen_self] at hd
    omega
  have hlen := ringLen_pop hs ht hne
  apply List.ext_getElem
  · rw [List.length_eraseIdx_of_lt (by simpa using hd), length_ringList, length_ringList]
    omega
  · intro k hk hk'
    rw [length_ringList] at hk
    rw [List.getElem_eraseIdx]
    simp only [ringList, List.getElem_map, List.getElem_range, Nat.mod_add_mod]
    split_ifs with hkd
    · rw [show start + 1 + k = start + k + 1 by omega]
      exact hlow k hkd
    · rw [show start + 1 + k = start + (k + 1) by omega]
      exact hhigh (k + 1) (by omega) (by omega)

/-- Dropping one entry of a duplicate-free list drops `x` when the entry is `x`, and
only then. -/
theorem eraseIdx_eq_filter [DecidableEq α] {l : List α} {d : Nat} (h : l.Nodup)
    (hd : d < l.length) : l.eraseIdx d = l.filter (· ≠ x) ↔ l[d] = x := by
  constructor
  · intro he
    by_contra hx
    have hmem : l[d] ∈ l.eraseIdx d := by
      rw [he, List.mem_filter]
      exact ⟨List.getElem_mem hd, by simpa using hx⟩
    rw [← h.erase_getElem d hd, h.mem_erase_iff] at hmem
    exact hmem.1 rfl
  · rintro rfl
    rw [← h.erase_getElem d hd, h.erase_eq_filter]
    apply List.filter_congr
    intro y _
    by_cases hy : y = l[d] <;> simp [hy]

end Sbunix
