import Mathlib.Data.List.TakeWhile

/-!
# Lines

A list as the lines that a separator ends and an unended last line.
-/

namespace Sbunix

variable {α : Type*} [BEq α] [LawfulBEq α] {sep : α} {l t rest : List α}

/-- The lines that are ended, without their end. -/
def endedLines (sep : α) (l : List α) : List (List α) := (l.splitOn sep).dropLast

/-- What comes behind the last end. -/
def lastLine (sep : α) (l : List α) : List α := (l.splitOn sep).getLastD []

theorem endedLines_last (h : sep ∉ l) : endedLines sep l = [] := by
  unfold endedLines
  rw [List.splitOn_eq_singleton h]
  rfl

theorem lastLine_last (h : sep ∉ l) : lastLine sep l = l := by
  unfold lastLine
  rw [List.splitOn_eq_singleton h]
  rfl

theorem endedLines_line (h : sep ∉ t) :
    endedLines sep (t ++ sep :: rest) = t :: endedLines sep rest := by
  unfold endedLines
  rw [List.splitOn_append_cons_self_of_not_mem h]
  exact List.dropLast_cons_of_ne_nil (List.splitOn_ne_nil sep rest)

/-- Every list is an unended line, or a line in front of a list. -/
theorem lines_induction (sep : α) {P : List α → Prop} (last : ∀ l, sep ∉ l → P l)
    (line : ∀ t rest, sep ∉ t → P rest → P (t ++ sep :: rest)) (l : List α) : P l := by
  induction hlen : l.length using Nat.strong_induction_on generalizing l with
  | _ n ih =>
    by_cases hmem : sep ∈ l
    · obtain ⟨t, rest, rfl, ht⟩ := List.eq_append_cons_of_mem hmem
      refine line t rest ht (ih rest.length ?_ rest rfl)
      rw [← hlen, List.length_append, List.length_cons]
      omega
    · exact last l hmem

omit [BEq α] [LawfulBEq α] in
/-- Lists made of blocks of equal lengths are equal only if the blocks are. -/
theorem blocks_eq {ι : Type*} {ls : List ι} {f g : ι → List α} {x y : List α}
    (hlen : ∀ i ∈ ls, (f i).length = (g i).length)
    (h : ls.flatMap f ++ x = ls.flatMap g ++ y) : (∀ i ∈ ls, f i = g i) ∧ x = y := by
  induction ls with
  | nil => exact ⟨fun i hi => absurd hi List.not_mem_nil, h⟩
  | cons i ls ih =>
    rw [List.flatMap_cons, List.flatMap_cons, List.append_assoc, List.append_assoc] at h
    obtain ⟨hhead, htail⟩ := List.append_inj h (hlen i List.mem_cons_self)
    obtain ⟨hrest, hxy⟩ := ih (fun j hj => hlen j (List.mem_cons_of_mem i hj)) htail
    refine ⟨fun j hj => ?_, hxy⟩
    rcases List.mem_cons.mp hj with rfl | hj
    · exact hhead
    · exact hrest j hj

end Sbunix
