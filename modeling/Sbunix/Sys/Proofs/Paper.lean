import Sbunix.Sys.Paper
import Sbunix.Sys.Proofs.TextArea

/-!
# The screen as a window

Each call of the `flush` family moves the window along and types on the roll below it.
-/

namespace Sbunix

variable {c c' : Console} {r : Roll UInt8} {n : Nat} {ch colour : UInt8} {text line : List UInt8}
  {call : FlushCall} {calls : List FlushCall} {keys : List (RollKey UInt8)}

namespace Console

/-! ## What the calls are made of -/

theorem fresh_prints (screen : Nat → UInt8) : (fresh screen).Prints (paper screen) where
  window :=
    { low := Nat.zero_le _
      high := Nat.zero_le _
      view := fun q hq => by
        show screen (2 * q) = if 0 + q < 80 * 24 then screen (2 * (0 + q)) else 32
        rw [Nat.zero_add, if_pos hq]
      blank := fun p hp => if_neg (by
        have hp' : 0 + 80 * 24 ≤ p := hp
        omega) }
  cursor := rfl

theorem Prints.dataWritten_le (h : c.Prints r) : c.dataWritten ≤ 80 * 24 := by
  have hhigh := h.window.high
  have hcursor := h.cursor
  omega

/-- A scroll moves the window on by 12 rows. -/
theorem Prints.checkForScroll (h : c.Prints r) : c.checkForScroll.Prints r := by
  have hle := h.dataWritten_le
  have hcursor := h.cursor
  unfold Console.checkForScroll
  by_cases hfull : 80 * 24 ≤ c.dataWritten
  · rw [if_pos hfull]
    have hbase : 80 * 12 * (c.scrolls + 1) = c.scrolledAway + 80 * 12 := Nat.mul_succ _ _
    refine ⟨?_, by show r.cursor = 80 * 12 * (c.scrolls + 1) + 80 * 12; omega⟩
    show RollWindow (80 * 24) 32 (80 * 12 * (c.scrolls + 1)) _ r
    rw [hbase]
    have hmoved := h.window.scroll (k := 80 * 12) (by omega)
    refine ⟨hmoved.low, hmoved.high, fun q hq => Eq.trans ?_ (hmoved.view q hq), hmoved.blank⟩
    unfold chars
    dsimp only
    have heven : 2 * q % 2 = 0 := Nat.mul_mod_right 2 q
    have htext : 2 * q < 160 * 24 := by omega
    by_cases hlow : q < 80 * 12
    · have hlow' : 2 * q < 160 * 12 := by omega
      have hin : q + 80 * 12 < 80 * 24 := by omega
      rw [if_pos hlow', if_pos hin, Nat.mul_add]
    · have hlow' : ¬ 2 * q < 160 * 12 := by omega
      have hin : ¬ q + 80 * 12 < 80 * 24 := by omega
      rw [if_neg hlow', if_pos htext, if_pos heven, if_neg hin]
  · rw [if_neg hfull]
    exact h

theorem Prints.putCell (h : c.Prints r) (hroom : c.dataWritten < 80 * 24) :
    (c.putCell ch colour).Prints (r.put ch) := by
  have hcursor := h.cursor
  have halign := c.aligned
  have hput := h.window.put (x := ch) (by omega)
  refine ⟨⟨hput.low, hput.high, fun q hq => Eq.trans ?_ (hput.view q hq), hput.blank⟩, ?_⟩
  · have hcell : r.cursor - c.scrolledAway = c.dataWritten := by omega
    rw [hcell]
    unfold chars Console.putCell
    dsimp only
    rw [Function.update_of_ne (by omega)]
    by_cases hq' : q = c.dataWritten
    · rw [hq', Function.update_self, halign, Function.update_self]
    · rw [Function.update_of_ne hq', Function.update_of_ne (by omega)]
  · show r.cursor + 1 = c.scrolledAway + (c.dataWritten + 1)
    omega

/-- The cursor moves to the next row, and the characters stay. -/
theorem Prints.newLine (h : c.Prints r) (hwritten : c'.dataWritten = (c.dataWritten + 79) / 80 * 80)
    (hscrolls : c'.scrolls = c.scrolls) (hchars : c'.chars = c.chars) :
    c'.Prints (r.newLine 80) := by
  have hcursor := h.cursor
  have hbase : c'.scrolledAway = c.scrolledAway := by
    unfold scrolledAway
    rw [hscrolls]
  refine ⟨?_, ?_⟩
  · rw [hbase, hchars]
    exact h.window.newLine (by decide) ⟨12 * c.scrolls, by unfold scrolledAway; omega⟩
      ⟨24, rfl⟩
  · show (r.cursor + 79) / 80 * 80 = c'.scrolledAway + c'.dataWritten
    rw [hbase, hwritten, hcursor]
    unfold scrolledAway
    omega

/-- With enough turns `newLineLoop` moves on to the start of a row, and changes colours only. -/
theorem newLineLoop_dataWritten (h : (80 - c.dataWritten % 80) % 80 ≤ n) :
    (newLineLoop n c).dataWritten = (c.dataWritten + 79) / 80 * 80 ∧
      (newLineLoop n c).scrolls = c.scrolls ∧ (newLineLoop n c).chars = c.chars := by
  induction n generalizing c with
  | zero =>
    rw [newLineLoop]
    exact ⟨by omega, rfl, rfl⟩
  | succ n ih =>
    rw [newLineLoop]
    by_cases hne : c.dataWritten % 80 ≠ 0
    · rw [if_pos hne]
      obtain ⟨hwritten, hscrolls, hchars⟩ := ih (c := ⟨Function.update c.screen (c.video + 1) 7,
        c.video + 2, c.dataWritten + 1, c.scrolls, by rw [c.aligned, Nat.mul_succ]⟩)
        (by dsimp only; omega)
      dsimp only at hwritten hscrolls
      refine ⟨hwritten.trans (by omega), hscrolls, hchars.trans (funext fun q => ?_)⟩
      have halign := c.aligned
      exact Function.update_of_ne (by omega) _ _
    · rw [if_neg hne]
      exact ⟨by omega, rfl, rfl⟩

/-! ## The calls -/

/-- The loop of `flush` types its text. -/
theorem Prints.flushLoop (h : c.Prints r)
    (hroom : c.dataWritten + (firstLine text).length ≤ 80 * 24)
    (hs : flushLoop colour text c = some c') :
    ∃ keys, typedText text = some keys ∧ c'.Prints (typeKeys r keys) := by
  induction text generalizing c r with
  | nil => cases hs
  | cons ch text ih =>
    rw [Console.flushLoop] at hs
    rw [typedText]
    by_cases hnul : ch = 0
    · rw [if_pos hnul] at hs ⊢
      obtain rfl := Option.some.inj hs
      exact ⟨[], rfl, h⟩
    · rw [if_neg hnul] at hs ⊢
      by_cases hline : ch = 10
      · rw [if_pos hline] at hs ⊢
        obtain rfl := Option.some.inj hs
        obtain ⟨hwritten, hscrolls, hscreen⟩ := skipLoop_dataWritten (c := c) (n := 79) (by omega)
        refine ⟨_, rfl, h.newLine hwritten hscrolls ?_⟩
        unfold chars
        rw [hscreen]
      · rw [if_neg hline] at hs ⊢
        have hfirst : firstLine (ch :: text) = ch :: firstLine text :=
          List.takeWhile_cons_of_pos (decide_eq_true ⟨hnul, hline⟩)
        rw [hfirst, List.length_cons] at hroom
        have hnext : (c.putCell ch colour).dataWritten = c.dataWritten + 1 := rfl
        obtain ⟨keys, hkeys, hprints⟩ := ih (h.putCell (by omega)) (by omega) hs
        exact ⟨.char ch :: keys, by rw [hkeys]; rfl, hprints⟩

end Console

namespace FlushCall

/-- One call types on the roll. -/
theorem prints (h : c.Prints r) (hfit : call.FitsPaper c) (hs : call.run c = some c') :
    ∃ keys, call.typed = some keys ∧ c'.Prints (typeKeys r keys) := by
  cases call with
  | flush text | flushcolor text => exact h.checkForScroll.flushLoop hfit.1 hs
  | flushchar ch =>
    obtain rfl := Option.some.inj hs
    exact ⟨_, rfl, h.checkForScroll.putCell Console.checkForScroll_lt⟩
  | flushNewLine =>
    obtain rfl := Option.some.inj hs
    obtain ⟨hwritten, hscrolls, hchars⟩ :=
      Console.newLineLoop_dataWritten (c := c.checkForScroll) (n := 79) (by omega)
    exact ⟨_, rfl, h.checkForScroll.newLine hwritten hscrolls hchars⟩
  | flushbackspace =>
    obtain rfl := Option.some.inj hs
    refine ⟨_, rfl, ?_⟩
    show c.flushbackspace.Prints (r.back 32)
    have hcursor := h.cursor
    have halign := c.aligned
    unfold Console.flushbackspace
    by_cases hzero : c.dataWritten = 0
    · have hscrolls := hfit.2 hzero
      have hstart : r.cursor = 0 := by
        unfold Console.scrolledAway at hcursor
        rw [hcursor, hscrolls, hzero]
      rw [if_pos hzero]
      unfold Roll.back
      rw [if_pos hstart]
      exact h
    · rw [if_neg hzero]
      have hback := h.window.back (by omega)
      have hroll : r.back 32 = ⟨Function.update r.cell (r.cursor - 1) 32, r.cursor - 1⟩ :=
        if_neg (by omega)
      refine ⟨⟨hback.low, hback.high, fun q hq => Eq.trans ?_ (hback.view q hq), hback.blank⟩, ?_⟩
      · have hcell : r.cursor - c.scrolledAway - 1 = c.dataWritten - 1 := by omega
        rw [hcell]
        unfold Console.chars
        dsimp only
        rw [Function.update_of_ne (by omega)]
        by_cases hq' : q = c.dataWritten - 1
        · rw [hq', Function.update_self, show 2 * (c.dataWritten - 1) = c.video - 2 by omega,
            Function.update_self]
        · rw [Function.update_of_ne hq', Function.update_of_ne (by omega)]
      · rw [hroll]
        show r.cursor - 1 = c.scrolledAway + (c.dataWritten - 1)
        omega

end FlushCall

/-- After any calls that fit, the screen shows the last part of what they have typed. -/
theorem runFlushCalls_prints (h : c.Prints r) (hfit : PaperFits c calls)
    (hs : runFlushCalls c calls = some c') :
    ∃ keys, typedCalls calls = some keys ∧ c'.Prints (typeKeys r keys) := by
  induction calls generalizing c r with
  | nil =>
    obtain rfl := Option.some.inj hs
    exact ⟨[], rfl, h⟩
  | cons call calls ih =>
    obtain ⟨c₁, hs₁, hrest⟩ := Option.bind_eq_some_iff.mp hs
    obtain ⟨keys, hkeys, hprints⟩ := call.prints h hfit.1 hs₁
    obtain ⟨keys', hkeys', hprints'⟩ := ih hprints (hfit.2 c₁ hs₁) hrest
    refine ⟨keys ++ keys', ?_, ?_⟩
    · rw [typedCalls, hkeys, Option.bind_some, hkeys', Option.map_some]
    · unfold typeKeys at hprints' ⊢
      rwa [Roll.type_append]

/-- Calls that fit everywhere. -/
theorem paperFits_plain (h : ∀ call ∈ calls, ∀ c : Console, call.FitsPaper c) :
    PaperFits c calls := by
  induction calls generalizing c with
  | nil => trivial
  | cons call calls ih =>
    exact ⟨h call List.mem_cons_self c, fun c' _ => ih fun call' hcall =>
      h call' (List.mem_cons_of_mem call hcall)⟩

/-- From a fresh screen on: the 24 lines of text are a window over the roll that everything written
so far has been typed on. -/
theorem screen_shows_roll {screen : Nat → UInt8} (hfit : PaperFits (Console.fresh screen) calls)
    (hs : runFlushCalls (Console.fresh screen) calls = some c') :
    ∃ keys, typedCalls calls = some keys ∧
      (typeKeys (Console.paper screen) keys).cursor = 80 * 12 * c'.scrolls + c'.dataWritten ∧
      ∀ q < 80 * 24, c'.screen (2 * q) =
        (typeKeys (Console.paper screen) keys).cell (80 * 12 * c'.scrolls + q) := by
  obtain ⟨keys, hkeys, hprints⟩ := runFlushCalls_prints (Console.fresh_prints screen) hfit hs
  exact ⟨keys, hkeys, hprints.cursor, hprints.window.view⟩

/-- A screen of rows with one character each, and a character behind them. -/
def fullScreen : List FlushCall :=
  (List.replicate 24 [.flushchar 33, .flushNewLine]).flatten ++ [.flushchar 63]

/-- What they type. -/
def fullScreenKeys : List (RollKey UInt8) :=
  (List.replicate 24 [.char 33, .newLine]).flatten ++ [.char 63]

/-- The last character scrolls the screen, so that it shows the roll from row 12 on. -/
theorem screen_shows_roll_fullScreen : ∃ c',
    runFlushCalls (Console.fresh fun _ => 32) fullScreen = some c' ∧ c'.scrolls = 1 ∧
      ∀ q < 80 * 24, c'.screen (2 * q) =
        (typeKeys (Console.paper fun _ => 32) fullScreenKeys).cell (80 * 12 + q) := by
  have hplain : PaperFits (Console.fresh fun _ => 32) fullScreen := by
    refine paperFits_plain fun call hcall c => ?_
    rcases List.mem_append.mp hcall with hrow | hlast
    · obtain ⟨row, hrow, hmem⟩ := List.mem_flatten.mp hrow
      obtain rfl := List.eq_of_mem_replicate hrow
      rcases List.mem_cons.mp hmem with rfl | hmem
      · exact ⟨trivial, trivial⟩
      · obtain rfl := List.mem_singleton.mp hmem
        exact ⟨trivial, trivial⟩
    · obtain rfl := List.mem_singleton.mp hlast
      exact ⟨trivial, trivial⟩
  have hscrolls : (runFlushCalls (Console.fresh fun _ => 32) fullScreen).map (·.scrolls) =
      some 1 := by decide +kernel
  obtain ⟨c', hs, hone⟩ := Option.map_eq_some_iff.mp hscrolls
  obtain ⟨keys, hkeys, -, hview⟩ := screen_shows_roll hplain hs
  have htyped : typedCalls fullScreen = some fullScreenKeys := by decide
  obtain rfl := Option.some.inj (htyped.symm.trans hkeys)
  rw [hone] at hview
  exact ⟨c', hs, hone, hview⟩

end Sbunix
