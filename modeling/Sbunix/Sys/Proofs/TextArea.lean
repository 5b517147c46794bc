import Mathlib.Data.List.TakeWhile
import Sbunix.Sys.ScreenCalls
import Sbunix.Sys.Proofs.Screen

/-!
# The text area

Only `flush` and `flushcolor` can store behind the 24 lines of text, when the first line of their
text is longer than the room from the cursor on.
-/

namespace Sbunix

variable {c c' : Console} {i n : Nat} {v ch colour : UInt8} {text line : List UInt8}
  {call : FlushCall} {calls : List FlushCall}

namespace Console

/-! One byte of the screen -/

@[simp] theorem withByte_dataWritten : (c.withByte i v).dataWritten = c.dataWritten := rfl

@[simp] theorem withByte_screen : (c.withByte i v).screen i = v := Function.update_self ..

theorem checkForScroll_withByte (hi : 160 * 24 ≤ i) :
    (c.withByte i v).checkForScroll = c.checkForScroll.withByte i v := by
  unfold checkForScroll withByte
  dsimp only
  by_cases hfull : 80 * 24 ≤ c.dataWritten
  · rw [if_pos hfull, if_pos hfull, mk.injEq]
    refine ⟨funext fun x => ?_, rfl, rfl, rfl⟩
    by_cases hx : x = i
    · rw [hx, Function.update_self, if_neg (by omega), if_neg (by omega), Function.update_self]
    · rw [Function.update_of_ne hx]
      dsimp only
      rw [Function.update_of_ne hx]
      by_cases hlow : x < 160 * 12
      · rw [if_pos hlow, if_pos hlow, Function.update_of_ne (by omega)]
      · rw [if_neg hlow, if_neg hlow]
  · rw [if_neg hfull, if_neg hfull]

theorem putCell_withByte_of_ne (h : i ≠ c.video) (h' : i ≠ c.video + 1) :
    (c.withByte i v).putCell ch colour = (c.putCell ch colour).withByte i v := by
  unfold putCell withByte
  rw [mk.injEq]
  refine ⟨?_, rfl, rfl, rfl⟩
  rw [Function.update_comm h, Function.update_comm h']

theorem putCell_withByte_self (h : i = c.video ∨ i = c.video + 1) :
    (c.withByte i v).putCell ch colour = c.putCell ch colour := by
  unfold putCell withByte
  rw [mk.injEq]
  refine ⟨?_, rfl, rfl, rfl⟩
  rcases h with rfl | rfl
  · rw [Function.update_idem]
  · funext x
    by_cases hx : x = c.video + 1
    · rw [hx, Function.update_self, Function.update_self]
    · rw [Function.update_of_ne hx, Function.update_of_ne hx]
      by_cases hx' : x = c.video
      · rw [hx', Function.update_self, Function.update_self]
      · rw [Function.update_of_ne hx', Function.update_of_ne hx']
        exact Function.update_of_ne hx _ _

/-! The characters of a line -/

/-- Characters put into the cells from the cursor on. -/
def putCells (c : Console) (colour : UInt8) (line : List UInt8) : Console :=
  line.foldl (fun c ch => c.putCell ch colour) c

@[simp] theorem putCells_dataWritten :
    (c.putCells colour line).dataWritten = c.dataWritten + line.length := by
  induction line generalizing c with
  | nil => rfl
  | cons ch line ih =>
    exact (ih (c := c.putCell ch colour)).trans (by
      rw [List.length_cons]
      exact Nat.succ_add_eq_add_succ _ _)

@[simp] theorem putCells_scrolls : (c.putCells colour line).scrolls = c.scrolls := by
  induction line generalizing c with
  | nil => rfl
  | cons ch line ih => exact ih (c := c.putCell ch colour)

theorem putCells_withByte_of_ne (h : 2 * (c.dataWritten + line.length) ≤ i) :
    (c.withByte i v).putCells colour line = (c.putCells colour line).withByte i v := by
  induction line generalizing c with
  | nil => rfl
  | cons ch line ih =>
    have halign := c.aligned
    rw [List.length_cons] at h
    have hrest : 2 * ((c.putCell ch colour).dataWritten + line.length) ≤ i := by
      rw [show (c.putCell ch colour).dataWritten = c.dataWritten + 1 from rfl]
      omega
    have hstep : (c.withByte i v).putCell ch colour = (c.putCell ch colour).withByte i v :=
      putCell_withByte_of_ne (by omega) (by omega)
    exact (congrArg (putCells · colour line) hstep).trans (ih hrest)

theorem putCells_withByte_self (h : 2 * c.dataWritten ≤ i)
    (h' : i < 2 * (c.dataWritten + line.length)) :
    (c.withByte i v).putCells colour line = c.putCells colour line := by
  induction line generalizing c with
  | nil =>
    rw [List.length_nil] at h'
    omega
  | cons ch line ih =>
    have halign := c.aligned
    rw [List.length_cons] at h'
    by_cases hcell : i < 2 * c.dataWritten + 2
    · exact congrArg (putCells · colour line) (putCell_withByte_self (by omega))
    · have hnext : (c.putCell ch colour).dataWritten = c.dataWritten + 1 := rfl
      have hstep : (c.withByte i v).putCell ch colour = (c.putCell ch colour).withByte i v :=
        putCell_withByte_of_ne (by omega) (by omega)
      exact (congrArg (putCells · colour line) hstep).trans (ih (by omega) (by omega))

/-! New lines -/

theorem skipLoop_withByte : skipLoop n (c.withByte i v) = (skipLoop n c).withByte i v := by
  induction n generalizing c with
  | zero => rfl
  | succ n ih =>
    rw [skipLoop, skipLoop]
    by_cases h : c.dataWritten % 80 ≠ 0
    · have h' : (c.withByte i v).dataWritten % 80 ≠ 0 := h
      rw [if_pos h, if_pos h']
      exact ih (c := ⟨c.screen, c.video + 2, c.dataWritten + 1, c.scrolls,
        by rw [c.aligned, Nat.mul_succ]⟩)
    · have h' : ¬ (c.withByte i v).dataWritten % 80 ≠ 0 := h
      rw [if_neg h, if_neg h']

/-- With enough turns `skipLoop` moves on to the start of a row. -/
theorem skipLoop_dataWritten (h : (80 - c.dataWritten % 80) % 80 ≤ n) :
    (skipLoop n c).dataWritten = (c.dataWritten + 79) / 80 * 80 ∧
      (skipLoop n c).scrolls = c.scrolls ∧ (skipLoop n c).screen = c.screen := by
  induction n generalizing c with
  | zero =>
    rw [skipLoop]
    exact ⟨by omega, rfl, rfl⟩
  | succ n ih =>
    rw [skipLoop]
    by_cases hne : c.dataWritten % 80 ≠ 0
    · rw [if_pos hne]
      have hstep := ih (c := ⟨c.screen, c.video + 2, c.dataWritten + 1, c.scrolls,
        by rw [c.aligned, Nat.mul_succ]⟩) (by dsimp only; omega)
      dsimp only at hstep
      exact ⟨hstep.1.trans (by omega), hstep.2⟩
    · rw [if_neg hne]
      exact ⟨by omega, rfl, rfl⟩

theorem newLineLoop_withByte (hi : 160 * 24 ≤ i) (h : c.dataWritten ≤ 80 * 24) :
    newLineLoop n (c.withByte i v) = (newLineLoop n c).withByte i v ∧
      (newLineLoop n c).dataWritten ≤ 80 * 24 := by
  induction n generalizing c with
  | zero => exact ⟨rfl, h⟩
  | succ n ih =>
    rw [newLineLoop, newLineLoop]
    by_cases hne : c.dataWritten % 80 ≠ 0
    · -- the row is not the last one of the text, so its cells lie before the byte
      have hne' : (c.withByte i v).dataWritten % 80 ≠ 0 := hne
      have halign := c.aligned
      rw [if_pos hne, if_pos hne']
      have hstep := ih (c := ⟨Function.update c.screen (c.video + 1) 7, c.video + 2,
        c.dataWritten + 1, c.scrolls, by rw [c.aligned, Nat.mul_succ]⟩) (by dsimp only; omega)
      refine ⟨Eq.trans ?_ hstep.1, hstep.2⟩
      unfold withByte
      dsimp only
      congr 2
      rw [Function.update_comm]
      omega
    · have hne' : ¬ (c.withByte i v).dataWritten % 80 ≠ 0 := hne
      rw [if_neg hne, if_neg hne']
      exact ⟨rfl, h⟩

/-! `flush` -/

/-- The loop shows a line and goes on with what ends it. -/
theorem flushLoop_append {rest : List UInt8} (h0 : 0 ∉ line) (h10 : 10 ∉ line) :
    flushLoop colour (line ++ rest) c = flushLoop colour rest (c.putCells colour line) := by
  induction line generalizing c with
  | nil => rfl
  | cons ch line ih =>
    rw [List.mem_cons, not_or] at h0 h10
    rw [List.cons_append, flushLoop, if_neg (Ne.symm h0.1), if_neg (Ne.symm h10.1),
      ih h0.2 h10.2]
    rfl

theorem notMem_firstLine : (0 : UInt8) ∉ firstLine text ∧ (10 : UInt8) ∉ firstLine text := by
  constructor
  · intro h
    have hp := List.mem_takeWhile_imp h
    simp at hp
  · intro h
    have hp := List.mem_takeWhile_imp h
    simp at hp

theorem firstLine_append {rest : List UInt8} (h0 : 0 ∉ line) (h10 : 10 ∉ line)
    (hch : ch = 0 ∨ ch = 10) : firstLine (line ++ ch :: rest) = line := by
  have hline : ∀ x ∈ line, decide (x ≠ 0 ∧ x ≠ 10) = true := by
    intro x hx
    exact decide_eq_true ⟨ne_of_mem_of_not_mem hx h0, ne_of_mem_of_not_mem hx h10⟩
  have hstop : ¬ (ch ≠ 0 ∧ ch ≠ 10) := by
    rintro ⟨hne0, hne10⟩
    exact hch.elim hne0 hne10
  unfold firstLine
  rw [List.takeWhile_append_of_pos hline, List.takeWhile_cons_of_neg (by simpa using hstop),
    List.append_nil]

/-- What is left of a text behind its first line. -/
theorem exists_rest (text : List UInt8) : ∃ rest, text = firstLine text ++ rest ∧
    (rest = [] ∨ ∃ ch more, rest = ch :: more ∧ (ch = 0 ∨ ch = 10)) := by
  refine ⟨text.dropWhile fun ch => ch ≠ 0 ∧ ch ≠ 10, List.takeWhile_append_dropWhile.symm, ?_⟩
  cases hrest : text.dropWhile fun ch => ch ≠ 0 ∧ ch ≠ 10 with
  | nil => exact Or.inl rfl
  | cons ch more =>
    have hstop := List.head?_dropWhile_not (fun ch : UInt8 => decide (ch ≠ 0 ∧ ch ≠ 10)) text
    rw [hrest] at hstop
    refine Or.inr ⟨ch, more, rfl, ?_⟩
    simpa [or_iff_not_imp_left] using hstop

/-- `flush` in three parts: a scroll, the first line, and what ends it. -/
inductive Ends (colour : UInt8) (rest : List UInt8) : Prop
  | none (h : ∀ c, flushLoop colour rest c = none)
  | nul (h : ∀ c, flushLoop colour rest c = some c)
  | newLine (h : ∀ c, flushLoop colour rest c = some (skipLoop 79 c))

theorem flushLoop_cases (colour : UInt8) (text : List UInt8) : ∃ rest,
    (∀ c, flushLoop colour text c = flushLoop colour rest (c.putCells colour (firstLine text))) ∧
      Ends colour rest := by
  obtain ⟨rest, heq, hrest⟩ := exists_rest text
  refine ⟨rest, fun c => ?_, ?_⟩
  · conv_lhs => rw [heq]
    exact flushLoop_append notMem_firstLine.1 notMem_firstLine.2
  · rcases hrest with rfl | ⟨ch, more, rfl, rfl | rfl⟩
    · exact .none fun _ => rfl
    · exact .nul fun _ => rfl
    · exact .newLine fun _ => rfl

theorem Ends.withByte {rest : List UInt8} (h : Ends colour rest) :
    flushLoop colour rest (c.withByte i v) =
      (flushLoop colour rest c).map (Console.withByte · i v) := by
  cases h with
  | none h => rw [h, h, Option.map_none]
  | nul h => rw [h, h, Option.map_some]
  | newLine h => rw [h, h, Option.map_some, skipLoop_withByte]

theorem flushLoop_withByte_of_ne (h : 2 * (c.dataWritten + (firstLine text).length) ≤ i) :
    flushLoop colour text (c.withByte i v) =
      (flushLoop colour text c).map (Console.withByte · i v) := by
  obtain ⟨rest, heq, hends⟩ := flushLoop_cases colour text
  rw [heq, heq, putCells_withByte_of_ne h, hends.withByte]

theorem flushLoop_withByte_self (h : 2 * c.dataWritten ≤ i)
    (h' : i < 2 * (c.dataWritten + (firstLine text).length)) :
    flushLoop colour text (c.withByte i v) = flushLoop colour text c := by
  obtain ⟨rest, heq, -⟩ := flushLoop_cases colour text
  rw [heq, heq, putCells_withByte_self h h']

theorem flushLoop_le (h : c.dataWritten + (firstLine text).length ≤ 80 * 24)
    (hs : flushLoop colour text c = some c') : c'.dataWritten ≤ 80 * 24 := by
  obtain ⟨rest, heq, hends⟩ := flushLoop_cases colour text
  rw [heq] at hs
  cases hends with
  | none hend =>
    rw [hend] at hs
    cases hs
  | nul hend =>
    rw [hend] at hs
    rw [← Option.some.inj hs, putCells_dataWritten]
    exact h
  | newLine hend =>
    rw [hend] at hs
    rw [← Option.some.inj hs, (skipLoop_dataWritten (by omega)).1, putCells_dataWritten]
    omega

end Console

/-! One call -/

/-- A call does not touch a byte. -/
def KeepsByte (f : Console → Option Console) (c : Console) (i : Nat) : Prop :=
  ∀ v, f (c.withByte i v) = (f c).map (Console.withByte · i v)

/-- A call overwrites a byte. -/
def SetsByte (f : Console → Option Console) (c : Console) (i : Nat) : Prop :=
  ∀ v, f (c.withByte i v) = f c

/-- `flush` and `flushcolor` with a text that fits. -/
theorem keepsByte_flushLoop (hi : 160 * 24 ≤ i)
    (h : c.checkForScroll.dataWritten + (firstLine text).length ≤ 80 * 24) :
    KeepsByte (fun c => Console.flushLoop colour text c.checkForScroll) c i := by
  intro v
  dsimp only
  rw [Console.checkForScroll_withByte hi, Console.flushLoop_withByte_of_ne (by omega)]

/-- `flush` and `flushcolor` with a text that does not fit: the last cell of its first line. -/
theorem setsByte_flushLoop (h : ¬ c.checkForScroll.dataWritten + (firstLine text).length ≤ 80 * 24) :
    ∃ i, 160 * 24 ≤ i ∧ SetsByte (fun c => Console.flushLoop colour text c.checkForScroll) c i := by
  have hlt := Console.checkForScroll_lt (k := c)
  refine ⟨2 * (c.checkForScroll.dataWritten + (firstLine text).length) - 1, by omega, fun v => ?_⟩
  dsimp only
  rw [Console.checkForScroll_withByte (by omega), Console.flushLoop_withByte_self (by omega)
    (by omega)]

namespace FlushCall

theorem keepsByte (hc : c.dataWritten ≤ 80 * 24) (h : call.Fits c) (hi : 160 * 24 ≤ i) :
    KeepsByte (run · call) c i := by
  cases call with
  | flush text => exact keepsByte_flushLoop hi h
  | flushcolor text => exact keepsByte_flushLoop hi h
  | flushchar ch =>
    intro v
    have halign := c.checkForScroll.aligned
    have hlt := Console.checkForScroll_lt (k := c)
    have hput : (c.checkForScroll.withByte i v).putCell ch 7 =
        (c.checkForScroll.putCell ch 7).withByte i v :=
      Console.putCell_withByte_of_ne (by omega) (by omega)
    rw [← Console.checkForScroll_withByte hi] at hput
    exact congrArg some hput
  | flushbackspace =>
    intro v
    refine congrArg some ?_
    have halign := c.aligned
    unfold Console.flushbackspace
    by_cases hz : c.dataWritten = 0
    · have hz' : (c.withByte i v).dataWritten = 0 := hz
      rw [if_pos hz, if_pos hz']
    · have hz' : ¬ (c.withByte i v).dataWritten = 0 := hz
      rw [if_neg hz, if_neg hz']
      have hchar : i ≠ c.video - 2 := by omega
      have hcolour : i ≠ c.video - 1 := by omega
      unfold Console.withByte
      dsimp only
      congr 1
      rw [Function.update_comm hchar, Function.update_comm hcolour]
  | flushNewLine =>
    intro v
    refine congrArg some ?_
    unfold Console.flushNewLine
    rw [Console.checkForScroll_withByte hi]
    exact (Console.newLineLoop_withByte hi (Nat.le_of_lt Console.checkForScroll_lt)).1

theorem setsByte (h : ¬ call.Fits c) : ∃ i, 160 * 24 ≤ i ∧ SetsByte (run · call) c i := by
  cases call with
  | flush text => exact setsByte_flushLoop h
  | flushcolor text => exact setsByte_flushLoop h
  | _ => exact absurd trivial h

theorem run_le (hc : c.dataWritten ≤ 80 * 24) (h : call.Fits c) (hs : call.run c = some c') :
    c'.dataWritten ≤ 80 * 24 := by
  cases call with
  | flush text => exact Console.flushLoop_le h hs
  | flushcolor text => exact Console.flushLoop_le h hs
  | flushchar ch =>
    rw [← Option.some.inj hs]
    exact Console.checkForScroll_lt
  | flushbackspace =>
    rw [← Option.some.inj hs]
    unfold Console.flushbackspace
    split
    · exact hc
    · exact Nat.le_trans (Nat.sub_le _ _) hc
  | flushNewLine =>
    rw [← Option.some.inj hs]
    exact (Console.newLineLoop_withByte (v := 0) (Nat.le_refl _)
      (Nat.le_of_lt Console.checkForScroll_lt)).2

end FlushCall

/-! Several calls -/

/-- Calls that fit touch nothing behind the 24 lines. -/
theorem FlushCallsFit.keepsByte (hc : c.dataWritten ≤ 80 * 24) (h : FlushCallsFit c calls)
    (hi : 160 * 24 ≤ i) : KeepsByte (runFlushCalls · calls) c i ∧
      ∀ c', runFlushCalls c calls = some c' → c'.dataWritten ≤ 80 * 24 := by
  induction calls generalizing c with
  | nil =>
    refine ⟨fun v => rfl, fun c' hs => ?_⟩
    rw [← Option.some.inj hs]
    exact hc
  | cons call calls ih =>
    obtain ⟨hfits, hrest⟩ := h
    have hkeeps := FlushCall.keepsByte hc hfits hi
    constructor
    · intro v
      have hhead : call.run (c.withByte i v) = (call.run c).map (Console.withByte · i v) :=
        hkeeps v
      dsimp only [runFlushCalls]
      rw [hhead]
      cases hs : call.run c with
      | none => rfl
      | some c₁ => exact (ih (FlushCall.run_le hc hfits hs) (hrest c₁ hs)).1 v
    · intro c' hs
      obtain ⟨c₁, hs₁, hs'⟩ := Option.bind_eq_some_iff.mp hs
      exact (ih (FlushCall.run_le hc hfits hs₁) (hrest c₁ hs₁)).2 c' hs'

/-- The first call that does not fit overwrites a byte behind the 24 lines, whatever follows. -/
theorem setsByte_of_not_fit (hc : c.dataWritten ≤ 80 * 24) (h : ¬ FlushCallsFit c calls) :
    ∃ i, 160 * 24 ≤ i ∧ SetsByte (runFlushCalls · calls) c i := by
  induction calls generalizing c with
  | nil => exact absurd trivial h
  | cons call calls ih =>
    by_cases hfits : call.Fits c
    · have hrest : ∃ c₁, call.run c = some c₁ ∧ ¬ FlushCallsFit c₁ calls := by
        by_contra hall
        push Not at hall
        exact h ⟨hfits, hall⟩
      obtain ⟨c₁, hs, hnot⟩ := hrest
      obtain ⟨i, hi, hsets⟩ := ih (FlushCall.run_le hc hfits hs) hnot
      refine ⟨i, hi, fun v => ?_⟩
      have hhead : call.run (c.withByte i v) = (call.run c).map (Console.withByte · i v) :=
        FlushCall.keepsByte hc hfits hi v
      dsimp only [runFlushCalls]
      rw [hhead, hs]
      exact hsets v
    · obtain ⟨i, hi, hsets⟩ := FlushCall.setsByte hfits
      refine ⟨i, hi, fun v => ?_⟩
      exact congrArg (Option.bind · (runFlushCalls · calls)) (hsets v)

/-! Any call -/

theorem ScreenCall.run_eq {call : ScreenCall} (h : call.flushCalls = some calls) :
    call.run c = runFlushCalls c calls := by
  unfold run
  rw [h, Option.bind_some]

theorem ScreenCall.exists_flushCalls {call : ScreenCall} (hs : call.run c = some c') :
    ∃ calls, call.flushCalls = some calls := by
  obtain ⟨calls, hcalls, -⟩ := Option.bind_eq_some_iff.mp hs
  exact ⟨calls, hcalls⟩

/-- A call stores within the 24 lines exactly if every text that it flushes fits. -/
theorem ScreenCall.stores_iff {call : ScreenCall} (hc : c.dataWritten ≤ 80 * 24)
    (hs : call.run c = some c') : (∀ i, call.Stores c i → i < 160 * 24) ↔ call.Fits c := by
  obtain ⟨calls, hcalls⟩ := exists_flushCalls hs
  have hrun := run_eq (c := c) hcalls
  constructor
  · intro h flushCalls heq
    obtain rfl : calls = flushCalls := Option.some.inj (hcalls.symm.trans heq)
    by_contra hnot
    obtain ⟨i, hi, hsets⟩ := setsByte_of_not_fit hc hnot
    have hstored := h i ⟨c'.screen i + 1, c', ?_, ?_⟩
    · omega
    · rw [run_eq hcalls]
      exact (hsets _).trans (hrun.symm.trans hs)
    · intro heq
      have hnat := congrArg UInt8.toNat heq
      rw [UInt8.toNat_add, UInt8.toNat_one] at hnat
      omega
  · rintro h i ⟨v, c₁, hs₁, hne⟩
    by_contra hi
    have hkeeps : runFlushCalls (c.withByte i v) calls =
        (runFlushCalls c calls).map (Console.withByte · i v) :=
      ((h calls hcalls).keepsByte hc (Nat.not_lt.mp hi)).1 v
    rw [run_eq hcalls, hkeeps, ← hrun, hs, Option.map_some] at hs₁
    rw [← Option.some.inj hs₁, Console.withByte_screen] at hne
    exact hne rfl

theorem ScreenCall.run_le {call : ScreenCall} (hc : c.dataWritten ≤ 80 * 24) (h : call.Fits c)
    (hs : call.run c = some c') : c'.dataWritten ≤ 80 * 24 := by
  obtain ⟨calls, hcalls⟩ := exists_flushCalls hs
  rw [run_eq hcalls] at hs
  exact ((h calls hcalls).keepsByte hc (Nat.le_refl _)).2 c' hs

theorem staysInText_iff_of_le {calls : List ScreenCall} (hc : c.dataWritten ≤ 80 * 24) :
    StaysInText c calls ↔ TextsFit c calls := by
  induction calls generalizing c with
  | nil => exact Iff.rfl
  | cons call calls ih =>
    constructor
    · intro h c' hs
      obtain ⟨hstores, -, hrest⟩ := h c' hs
      have hfits := (ScreenCall.stores_iff hc hs).mp hstores
      exact ⟨hfits, (ih (ScreenCall.run_le hc hfits hs)).mp hrest⟩
    · intro h c' hs
      obtain ⟨hfits, hrest⟩ := h c' hs
      exact ⟨(ScreenCall.stores_iff hc hs).mpr hfits, c'.aligned,
        (ih (ScreenCall.run_le hc hfits hs)).mpr hrest⟩

/-- From a fresh screen, and for every sequence of calls with any texts: `video` and `data_written`
agree and nothing behind the 24 lines is stored to, exactly if every flushed text fits. -/
theorem staysInText_iff (screen : Nat → UInt8) (calls : List ScreenCall) :
    StaysInText ⟨screen, 0, 0, 0, rfl⟩ calls ↔ TextsFit ⟨screen, 0, 0, 0, rfl⟩ calls :=
  staysInText_iff_of_le (Nat.zero_le _)

/-- One text of 1921 characters on a fresh screen. -/
theorem flush_overruns :
    ¬ StaysInText ⟨fun _ => 32, 0, 0, 0, rfl⟩
      [.flushCall (.flush (List.replicate 1921 97 ++ [0]))] := by
  have hchar : ∀ ch ∈ List.replicate 1921 (97 : UInt8), ch = 97 := fun _ =>
    List.eq_of_mem_replicate
  have hlen : (List.replicate 1921 (97 : UInt8)).length = 1921 := List.length_replicate
  generalize List.replicate 1921 (97 : UInt8) = line at hchar hlen ⊢
  have h0 : (0 : UInt8) ∉ line := fun h => absurd (hchar 0 h) (by decide)
  have h10 : (10 : UInt8) ∉ line := fun h => absurd (hchar 10 h) (by decide)
  have hrun : Console.flush ⟨fun _ => 32, 0, 0, 0, rfl⟩ (line ++ [0]) =
      some (Console.putCells ⟨fun _ => 32, 0, 0, 0, rfl⟩ 7 line) :=
    Console.flushLoop_append h0 h10
  rw [staysInText_iff_of_le (Nat.zero_le _)]
  intro h
  have hs : (ScreenCall.flushCall (.flush (line ++ [0]))).run ⟨fun _ => 32, 0, 0, 0, rfl⟩ =
      some (Console.putCells ⟨fun _ => 32, 0, 0, 0, rfl⟩ 7 line) :=
    congrArg (Option.bind · some) hrun
  have hfits : 0 + (firstLine (line ++ [0])).length ≤ 80 * 24 := ((h _ hs).1 _ rfl).1
  rw [Console.firstLine_append h0 h10 (Or.inl rfl), hlen] at hfits
  omega

end Sbunix
