import Sbunix.Sys.Proofs.TextArea

/-!
# What `write` shows

`k_write` hands its buffer to `kprintf`, and `flush` shows the first line of it.  The number of
cells that the text has taken since the start says how far a screen is behind the one that shows
every byte.
-/

namespace Sbunix

namespace Console

variable {c c' : Console} {b : UInt8} {bytes line text : List UInt8} {count : Nat}

/-! The calls of `kprintf` -/

/-- A text without `%` is shown character by character. -/
theorem kprintfCalls_plain {fmt : List UInt8} {args : List VaArg} (h0 : 0 ∉ fmt) (h37 : 37 ∉ fmt) :
    kprintfCalls fmt args =
      some (fmt.map fun ch => if ch = 10 then .flushNewLine else .flushchar ch) := by
  induction fmt with
  | nil => rw [kprintfCalls, List.map_nil]
  | cons ch fmt ih =>
    rw [List.mem_cons, not_or] at h0 h37
    have hrest := ih h0.2 h37.2
    cases fmt with
    | nil =>
      rw [kprintfCalls, if_neg (Ne.symm h0.1)]
      simp only [List.map_cons, List.map_nil]
      split
      · rfl
      · rfl
    | cons nextch fmt =>
      have hplain : ∀ x : UInt8, ¬ (ch = 37 ∧ nextch = x) := fun x h => h37.1 h.1.symm
      rw [kprintfCalls.eq_def]
      dsimp only
      rw [if_neg (Ne.symm h0.1), if_neg (hplain 115), if_neg (hplain 99), if_neg (hplain 100),
        if_neg (hplain 120), if_neg (hplain 112), hrest, List.map_cons (a := ch)]
      split
      · rw [Option.map_some]
      · rw [Option.map_some]

theorem kprintfArgs_plain {fmt : List UInt8} {args : List VaArg} (h0 : 0 ∉ fmt) (h37 : 37 ∉ fmt) :
    c.kprintfArgs fmt args = some (c.kprintf fmt) := by
  unfold kprintfArgs kprintf
  rw [kprintfCalls_plain h0 h37, Option.bind_some]
  clear h0 h37
  induction fmt generalizing c with
  | nil => rfl
  | cons ch fmt ih =>
    rw [List.map_cons, runFlushCalls, List.foldl_cons]
    split
    · exact ih
    · exact ih

theorem kWrite_one : c.kWrite 1 text count = (c.flush text).map fun c => (c, count) := by
  unfold kWrite write kprintfArgs
  rw [if_pos rfl, show kprintfCalls [37, 115] [.text text] = some [.flush text] from rfl,
    Option.bind_some]
  have hcalls : runFlushCalls c [.flush text] = c.flush text := Option.bind_fun_some _
  rw [hcalls]

/-! Where the cursor is -/

/-- The cells that the text has taken, with those that have been scrolled away. -/
def position (c : Console) : Nat := c.dataWritten + 80 * 12 * c.scrolls

theorem checkForScroll_position (h : c.dataWritten ≤ 80 * 24) :
    c.checkForScroll.position = c.position := by
  unfold checkForScroll position
  split
  · dsimp only
    omega
  · rfl

theorem showByte_checkForScroll : c.checkForScroll.showByte b = c.showByte b := by
  have hidem := checkForScroll_of_lt (checkForScroll_lt (k := c))
  have hchar : c.checkForScroll.flushchar b = c.flushchar b := congrArg (putCell · b 7) hidem
  unfold showByte
  rw [hidem, hchar]

theorem foldl_showByte_checkForScroll (hne : bytes ≠ []) :
    bytes.foldl showByte c.checkForScroll = bytes.foldl showByte c := by
  cases bytes with
  | nil => exact absurd rfl hne
  | cons b bytes => rw [List.foldl_cons, List.foldl_cons, showByte_checkForScroll]

/-- A new line moves to the next row, and any other byte by one cell. -/
theorem showByte_position (h : c.dataWritten ≤ 80 * 24) :
    (c.showByte b).position = (if b = 10 then (c.position / 80 + 1) * 80 else c.position + 1) ∧
      (c.showByte b).dataWritten ≤ 80 * 24 := by
  have hpos := checkForScroll_position h
  have hlt := checkForScroll_lt (k := c)
  have hscrolled : c.checkForScroll.position =
      c.checkForScroll.dataWritten + 80 * 12 * c.checkForScroll.scrolls := rfl
  unfold showByte
  split
  · have hrow : c.checkForScroll.nextRow.dataWritten =
        (c.checkForScroll.dataWritten / 80 + 1) * 80 := rfl
    have hnew : c.checkForScroll.nextRow.position = c.checkForScroll.nextRow.dataWritten +
        80 * 12 * c.checkForScroll.scrolls := rfl
    exact ⟨by omega, by omega⟩
  · refine ⟨?_, hlt⟩
    have hnew : (c.flushchar b).position = c.checkForScroll.dataWritten + 1 +
        80 * 12 * c.checkForScroll.scrolls := rfl
    omega

theorem foldl_showByte_position (bytes : List UInt8) (h : c.dataWritten ≤ 80 * 24) :
    c.position + bytes.length ≤ (bytes.foldl showByte c).position ∧
      (bytes.foldl showByte c).dataWritten ≤ 80 * 24 := by
  induction bytes generalizing c with
  | nil => exact ⟨Nat.le_refl _, h⟩
  | cons b bytes ih =>
    obtain ⟨hpos, hle⟩ := showByte_position (b := b) h
    obtain ⟨hrest, hdone⟩ := ih hle
    rw [List.foldl_cons, List.length_cons]
    refine ⟨?_, hdone⟩
    split at hpos
    · omega
    · omega

/-- A line takes one cell for each character. -/
theorem foldl_showByte_line (h : c.dataWritten ≤ 80 * 24) (h10 : 10 ∉ line) :
    (line.foldl showByte c).position = c.position + line.length := by
  induction line generalizing c with
  | nil => rfl
  | cons b line ih =>
    rw [List.mem_cons, not_or] at h10
    obtain ⟨hpos, hle⟩ := showByte_position (b := b) h
    rw [if_neg (Ne.symm h10.1)] at hpos
    rw [List.foldl_cons, ih hle h10.2, hpos, List.length_cons]
    omega

/-- A line for which there is room is put into the cells from the cursor on. -/
theorem foldl_showByte_room (h : c.dataWritten + line.length ≤ 80 * 24) (h10 : 10 ∉ line) :
    line.foldl showByte c = c.putCells 7 line := by
  induction line generalizing c with
  | nil => rfl
  | cons b line ih =>
    rw [List.mem_cons, not_or] at h10
    rw [List.length_cons] at h
    have hput : c.showByte b = c.putCell b 7 := by
      unfold showByte
      rw [if_neg (Ne.symm h10.1)]
      exact congrArg (putCell · b 7) (checkForScroll_of_lt (by omega))
    have hnext : (c.putCell b 7).dataWritten = c.dataWritten + 1 := rfl
    rw [List.foldl_cons, hput, ih (by omega) h10.2]
    rfl

theorem SameText.position (h : c.SameText c') : c.position = c'.position := by
  unfold Console.position
  rw [h.cursor, h.scrolls]

/-! `k_write` -/

theorem WriteFits.shows (h : c.WriteFits bytes) : c.WriteShows bytes := by
  obtain ⟨line, rfl, h0, h10, hcolumn, hroom⟩ := h
  have hwritten : (c.checkForScroll.putCells 7 line).dataWritten =
      c.checkForScroll.dataWritten + line.length := putCells_dataWritten
  obtain ⟨hcursor, hscrolls, hscreen⟩ := skipLoop_dataWritten (n := 79)
    (c := c.checkForScroll.putCells 7 line) (by omega)
  refine ⟨skipLoop 79 (c.checkForScroll.putCells 7 line), fun rest => ?_, ?_⟩
  · rw [kWrite_one, List.append_assoc]
    exact congrArg (Option.map _) (flushLoop_append h0 h10)
  · have hideal : (line ++ [10]).foldl showByte c =
        (c.checkForScroll.putCells 7 line).showByte 10 := by
      rw [← foldl_showByte_checkForScroll (by simp), List.foldl_append,
        foldl_showByte_room (by omega) h10]
      rfl
    have hstay := checkForScroll_of_lt (k := c.checkForScroll.putCells 7 line) (by omega)
    rw [hideal]
    unfold showByte
    rw [if_pos rfl, hstay]
    unfold nextRow
    refine ⟨?_, hscrolls, fun q _ => ?_⟩
    · dsimp only
      rw [hcursor]
      omega
    · dsimp only
      rw [hscreen]

theorem WriteShows.fits (h : c.WriteShows bytes) : c.WriteFits bytes := by
  obtain ⟨c', hwrite, hsame⟩ := h
  have hflush : c.flush bytes = some c' := by
    have hwrite := hwrite []
    rw [List.append_nil, kWrite_one] at hwrite
    obtain ⟨c₁, hs, heq⟩ := Option.map_eq_some_iff.mp hwrite
    rw [hs, (Prod.mk.inj heq).1]
  have hlt := checkForScroll_lt (k := c)
  have hle := Nat.le_of_lt hlt
  have hpos := hsame.position
  have hscrolls := hsame.scrolls
  have hstart : c.checkForScroll.position =
      c.checkForScroll.dataWritten + 80 * 12 * c.checkForScroll.scrolls := rfl
  obtain ⟨rest, hbytes, hrest⟩ := exists_rest bytes
  obtain ⟨h0, h10⟩ : (0 : UInt8) ∉ firstLine bytes ∧ (10 : UInt8) ∉ firstLine bytes :=
    notMem_firstLine
  generalize firstLine bytes = line at hbytes h0 h10
  have hwritten : (c.checkForScroll.putCells 7 line).dataWritten =
      c.checkForScroll.dataWritten + line.length := putCells_dataWritten
  have hkept : (c.checkForScroll.putCells 7 line).scrolls = c.checkForScroll.scrolls :=
    putCells_scrolls
  have hline := foldl_showByte_line hle h10
  rw [hbytes] at hflush
  have hflush := (flushLoop_append h0 h10).symm.trans hflush
  rcases hrest with rfl | ⟨ch, more, rfl, rfl | rfl⟩
  · -- the text does not end within the buffer
    cases hflush
  · -- a NUL is not shown
    rw [← Option.some.inj hflush, hbytes, ← foldl_showByte_checkForScroll (by simp)] at hpos
    have hideal := (foldl_showByte_position (line ++ 0 :: more) hle).1
    rw [List.length_append, List.length_cons] at hideal
    unfold position at hpos hideal
    omega
  · obtain ⟨hcursor, hstay, -⟩ := skipLoop_dataWritten (n := 79)
      (c := c.checkForScroll.putCells 7 line) (by omega)
    have hideal : bytes.foldl showByte c =
        more.foldl showByte ((line.foldl showByte c.checkForScroll).showByte 10) := by
      rw [hbytes, ← foldl_showByte_checkForScroll (by simp), List.foldl_append, List.foldl_cons]
    have hdone := (foldl_showByte_position line hle).2
    obtain ⟨hnew, hbound⟩ := showByte_position (b := 10) hdone
    have hmore := (foldl_showByte_position more hbound).1
    rw [if_pos rfl, hline] at hnew
    rw [← Option.some.inj hflush, hideal] at hpos hscrolls
    have hcode : (skipLoop 79 (c.checkForScroll.putCells 7 line)).position =
        (skipLoop 79 (c.checkForScroll.putCells 7 line)).dataWritten +
          80 * 12 * (skipLoop 79 (c.checkForScroll.putCells 7 line)).scrolls := rfl
    rw [hcode, hcursor, hstay, hwritten, hkept] at hpos
    have hend : more = [] := List.eq_nil_of_length_eq_zero (by omega)
    refine ⟨line, by rw [hbytes, hend], h0, h10, by omega, ?_⟩
    -- the text that is shown byte by byte has not scrolled
    rw [hend, List.foldl_nil, hstay, hkept] at hscrolls
    have hrow : ((line.foldl showByte c.checkForScroll).showByte 10).position =
        ((line.foldl showByte c.checkForScroll).showByte 10).dataWritten +
          80 * 12 * ((line.foldl showByte c.checkForScroll).showByte 10).scrolls := rfl
    rw [← hscrolls] at hrow
    omega

/-- For every screen and every buffer: `k_write` shows it, and reads no further, exactly if it is
one line that fits. -/
theorem writeShows_iff (c : Console) (bytes : List UInt8) :
    c.WriteShows bytes ↔ c.WriteFits bytes := ⟨WriteShows.fits, WriteFits.shows⟩

/-- `a`, a new line and `b` on a blank screen: `b` is not shown. -/
theorem write_stops_at_newLine :
    ((Console.mk (fun _ => 32) 0 0 0 rfl).kWrite 1 [97, 10, 98] 3).map
        (fun r => (r.1.screen 0, r.1.screen 160, r.1.dataWritten, r.2)) = some (97, 32, 80, 3) ∧
      ¬ (Console.mk (fun _ => 32) 0 0 0 rfl).WriteShows [97, 10, 98] := by
  refine ⟨rfl, fun h => ?_⟩
  obtain ⟨line, heq, -, h10, -⟩ := h.fits
  have hlast := congrArg List.getLast? heq
  rw [List.getLast?_append] at hlast
  exact absurd (Option.some.inj hlast) (by decide)

end Console

end Sbunix
