import Sbunix.Sys.Kprintf

/-!
# The screen

Where the operations on single characters leave the cursor, and which cells they change.
-/

namespace Sbunix

namespace Console

variable {k : Console} {c : UInt8}

theorem checkForScroll_lt : k.checkForScroll.dataWritten < 80 * 24 := by
  unfold checkForScroll
  split
  · exact (by decide : 80 * 12 < 80 * 24)
  · omega

theorem checkForScroll_of_lt (h : k.dataWritten < 80 * 24) : k.checkForScroll = k :=
  if_neg (Nat.not_le.mpr h)

theorem flushchar_scrolls : (k.flushchar c).scrolls = k.checkForScroll.scrolls := rfl

theorem flushchar_dataWritten :
    (k.flushchar c).dataWritten = k.checkForScroll.dataWritten + 1 := rfl

/-- The cell at the cursor changes, and none before it. -/
theorem flushchar_screen : (k.flushchar c).screen (2 * k.checkForScroll.dataWritten) = c ∧
    ∀ q < k.checkForScroll.dataWritten,
      (k.flushchar c).screen (2 * q) = k.checkForScroll.screen (2 * q) := by
  have hscreen : (k.flushchar c).screen = Function.update (Function.update k.checkForScroll.screen
      k.checkForScroll.video c) (k.checkForScroll.video + 1) 7 := rfl
  rw [hscreen, k.checkForScroll.aligned]
  constructor
  · rw [Function.update_of_ne (by omega), Function.update_self]
  · intro q hq
    rw [Function.update_of_ne (by omega), Function.update_of_ne (by omega)]

theorem flushchar_room (h : k.dataWritten < 80 * 24) :
    (k.flushchar c).scrolls = k.scrolls ∧ (k.flushchar c).dataWritten = k.dataWritten + 1 ∧
      (k.flushchar c).screen (2 * k.dataWritten) = c ∧
      ∀ q < k.dataWritten, (k.flushchar c).screen (2 * q) = k.screen (2 * q) := by
  have hno := checkForScroll_of_lt h
  have hscreen := flushchar_screen (k := k) (c := c)
  rw [flushchar_scrolls, flushchar_dataWritten]
  rw [hno] at hscreen ⊢
  exact ⟨rfl, rfl, hscreen⟩

/-- With 24 full lines the text moves up by 12 lines first. -/
theorem flushchar_scroll (h : 80 * 24 ≤ k.dataWritten) :
    (k.flushchar c).scrolls = k.scrolls + 1 ∧ (k.flushchar c).dataWritten = 80 * 12 + 1 ∧
      (k.flushchar c).screen (2 * (80 * 12)) = c ∧
      ∀ q < 80 * 12, (k.flushchar c).screen (2 * q) = k.screen (2 * (q + 80 * 12)) := by
  have hscroll : k.checkForScroll.scrolls = k.scrolls + 1 ∧
      k.checkForScroll.dataWritten = 80 * 12 ∧
      ∀ q < 80 * 12, k.checkForScroll.screen (2 * q) = k.screen (2 * (q + 80 * 12)) := by
    unfold checkForScroll
    rw [if_pos h]
    refine ⟨rfl, rfl, fun q hq => ?_⟩
    dsimp only
    rw [if_pos (by omega), show 2 * q + 160 * 12 = 2 * (q + 80 * 12) by omega]
  obtain ⟨hscrolls, hwritten, hmoved⟩ := hscroll
  obtain ⟨hnew, hkept⟩ := flushchar_screen (k := k) (c := c)
  rw [flushchar_scrolls, flushchar_dataWritten, hscrolls, hwritten]
  rw [hwritten] at hnew hkept
  exact ⟨rfl, rfl, hnew, fun q hq => (hkept q hq).trans (hmoved q hq)⟩

theorem flushchar_dataWritten_le : (k.flushchar c).dataWritten ≤ 80 * 24 :=
  flushchar_dataWritten.trans_le (Nat.succ_le_of_lt checkForScroll_lt)

theorem flushbackspace_room (h : 0 < k.dataWritten) :
    k.flushbackspace.scrolls = k.scrolls ∧ k.flushbackspace.dataWritten = k.dataWritten - 1 ∧
      ∀ q < k.dataWritten - 1, k.flushbackspace.screen (2 * q) = k.screen (2 * q) := by
  have halign := k.aligned
  unfold flushbackspace
  rw [if_neg (Nat.ne_of_gt h)]
  refine ⟨rfl, rfl, fun q hq => ?_⟩
  dsimp only
  rw [Function.update_of_ne (by omega), Function.update_of_ne (by omega)]

end Console

end Sbunix
