import Mathlib.Data.List.Induction
import Mathlib.Logic.Function.Basic

/-!
# Windows over an endless roll

What a printer with rows of `w` cells puts on paper that never ends, and a window of `h` cells over
it, behind which the paper is blank.
-/

namespace Sbunix

/-- Cells in rows, and the next one to print in. -/
structure Roll (α : Type*) where
  cell : Nat → α
  cursor : Nat

/-- What is typed on a roll: a character, a new line, or one step back. -/
inductive RollKey (α : Type*)
  | char (x : α)
  | newLine
  | back
  deriving DecidableEq

variable {α : Type*} {r : Roll α} {w h k base : Nat} {blank x : α} {view : Nat → α}

namespace Roll

/-- A character in the cell of the cursor, which moves on. -/
def put (r : Roll α) (x : α) : Roll α := ⟨Function.update r.cell r.cursor x, r.cursor + 1⟩

/-- The start of the next row, unless a row has not begun. -/
def newLine (w : Nat) (r : Roll α) : Roll α := { r with cursor := (r.cursor + (w - 1)) / w * w }

/-- The cell before the cursor made blank, and the cursor on it; nothing at the beginning. -/
def back (blank : α) (r : Roll α) : Roll α :=
  if r.cursor = 0 then r else ⟨Function.update r.cell (r.cursor - 1) blank, r.cursor - 1⟩

/-- One key on a roll with lines of `w` cells. -/
def press (blank : α) (w : Nat) (r : Roll α) : RollKey α → Roll α
  | .char x => r.put x
  | .newLine => r.newLine w
  | .back => r.back blank

/-- Keys one after another. -/
def type (blank : α) (w : Nat) (r : Roll α) (keys : List (RollKey α)) : Roll α :=
  keys.foldl (press blank w) r

@[simp] theorem type_nil : r.type blank w [] = r := rfl

theorem type_append {keys keys' : List (RollKey α)} :
    r.type blank w (keys ++ keys') = (r.type blank w keys).type blank w keys' := List.foldl_append

/-- Nothing has been printed from the cursor on. -/
def Clear (blank : α) (r : Roll α) : Prop := ∀ p, r.cursor ≤ p → r.cell p = blank

theorem Clear.put (hr : r.Clear blank) : (r.put x).Clear blank := by
  intro p hp
  have hlt : r.cursor < p := hp
  unfold Roll.put
  dsimp only
  rw [Function.update_of_ne (Nat.ne_of_gt hlt)]
  exact hr p (Nat.le_of_lt hlt)

theorem Clear.newLine (hr : r.Clear blank) (hpos : 0 < w) : (r.newLine w).Clear blank := by
  intro p hp
  have hcursor : (r.cursor + (w - 1)) / w * w ≤ p := hp
  have hmod := Nat.mod_lt (r.cursor + (w - 1)) hpos
  have hdiv := Nat.div_add_mod' (r.cursor + (w - 1)) w
  exact hr p (by omega)

theorem Clear.back (hr : r.Clear blank) : (r.back blank).Clear blank := by
  unfold Roll.back
  split
  · exact hr
  · intro p hp
    dsimp only at hp ⊢
    by_cases hcell : p = r.cursor - 1
    · rw [hcell, Function.update_self]
    · rw [Function.update_of_ne hcell]
      exact hr p (by omega)

theorem Clear.type (hr : r.Clear blank) (hpos : 0 < w) (keys : List (RollKey α)) :
    (r.type blank w keys).Clear blank := by
  induction keys using List.reverseRecOn with
  | nil => exact hr
  | append_singleton keys key ih =>
    rw [type_append]
    cases key with
    | char x => exact ih.put
    | newLine => exact ih.newLine hpos
    | back => exact ih.back

/-- What is taken back from a clear roll leaves nothing behind. -/
theorem Clear.back_put (hr : r.Clear blank) : (r.put x).back blank = r := by
  have hback : (r.put x).back blank =
      ⟨Function.update (r.put x).cell (r.cursor + 1 - 1) blank, r.cursor + 1 - 1⟩ :=
    if_neg (Nat.succ_ne_zero _)
  rw [hback, Nat.add_sub_cancel]
  unfold Roll.put
  dsimp only
  rw [Function.update_idem, Function.update_eq_self_iff.mpr (hr r.cursor (Nat.le_refl _)).symm]

theorem type_char_append_singleton {xs : List α} : r.type blank w ((xs ++ [x]).map .char) =
    (r.type blank w (xs.map .char)).put x := by
  rw [List.map_append, type_append]
  rfl

theorem cursor_type_char (xs : List α) :
    (r.type blank w (xs.map .char)).cursor = r.cursor + xs.length := by
  induction xs using List.reverseRecOn with
  | nil => rfl
  | append_singleton xs x ih =>
    rw [type_char_append_singleton, List.length_append]
    exact congrArg (· + 1) ih

end Roll

/-- `view` is the `h` cells of the roll from `base` on, up to which nothing has been printed behind
them, with the cursor among them. -/
structure RollWindow (h : Nat) (blank : α) (base : Nat) (view : Nat → α) (r : Roll α) : Prop where
  low : base ≤ r.cursor
  high : r.cursor ≤ base + h
  view : ∀ q < h, view q = r.cell (base + q)
  blank : ∀ p, base + h ≤ p → r.cell p = blank

namespace RollWindow

theorem put (hw : RollWindow h blank base view r) (hroom : r.cursor < base + h) :
    RollWindow h blank base (Function.update view (r.cursor - base) x) (r.put x) where
  low := Nat.le_succ_of_le hw.low
  high := hroom
  view q hq := by
    have hlow := hw.low
    unfold Roll.put
    dsimp only
    by_cases hcell : q = r.cursor - base
    · rw [hcell, Function.update_self, show base + (r.cursor - base) = r.cursor by omega,
        Function.update_self]
    · rw [Function.update_of_ne hcell, Function.update_of_ne (by omega)]
      exact hw.view q hq
  blank p hp := by
    unfold Roll.put
    dsimp only
    rw [Function.update_of_ne (by omega)]
    exact hw.blank p hp

theorem back (hw : RollWindow h blank base view r) (hcursor : base < r.cursor) :
    RollWindow h blank base (Function.update view (r.cursor - base - 1) blank) (r.back blank) := by
  have hback : r.back blank = ⟨Function.update r.cell (r.cursor - 1) blank, r.cursor - 1⟩ :=
    if_neg (by omega)
  have hhigh := hw.high
  rw [hback]
  refine ⟨by dsimp only; omega, by dsimp only; omega, fun q hq => ?_, fun p hp => ?_⟩
  · dsimp only
    by_cases hcell : q = r.cursor - base - 1
    · rw [hcell, Function.update_self, show base + (r.cursor - base - 1) = r.cursor - 1 by omega,
        Function.update_self]
    · rw [Function.update_of_ne hcell, Function.update_of_ne (by omega)]
      exact hw.view q hq
  · dsimp only
    rw [Function.update_of_ne (by omega)]
    exact hw.blank p hp

/-- A new line in a window of whole rows. -/
theorem newLine (hw : RollWindow h blank base view r) (hpos : 0 < w) (hbase : w ∣ base)
    (hh : w ∣ h) :
    RollWindow h blank base view (r.newLine w) := by
  have hlow := hw.low
  have hhigh := hw.high
  obtain ⟨k, rfl⟩ := hbase
  obtain ⟨m, rfl⟩ := hh
  have hup : w * k ≤ (r.cursor + (w - 1)) / w * w := by
    rw [Nat.mul_comm w k]
    exact Nat.mul_le_mul_right w ((Nat.le_div_iff_mul_le hpos).mpr
      (by rw [Nat.mul_comm k w]; omega))
  have hdown : (r.cursor + (w - 1)) / w * w ≤ w * k + w * m := by
    rw [← Nat.mul_add, Nat.mul_comm w (k + m)]
    refine Nat.mul_le_mul_right w (Nat.lt_succ_iff.mp ((Nat.div_lt_iff_lt_mul hpos).mpr ?_))
    rw [Nat.succ_mul, Nat.mul_comm (k + m) w, Nat.mul_add]
    omega
  exact ⟨hup, hdown, hw.view, hw.blank⟩

/-- The window moves on over the roll: what comes in is blank. -/
theorem scroll (hw : RollWindow h blank base view r) (hcursor : base + k ≤ r.cursor) :
    RollWindow h blank (base + k) (fun q => if q + k < h then view (q + k) else blank) r where
  low := hcursor
  high := Nat.le_trans hw.high (by omega)
  view q hq := by
    by_cases hin : q + k < h
    · rw [if_pos hin, hw.view (q + k) hin]
      congr 1
      omega
    · rw [if_neg hin]
      exact (hw.blank _ (by omega)).symm
  blank p hp := hw.blank p (by omega)

end RollWindow

end Sbunix
