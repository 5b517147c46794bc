import Sbunix.Sys.Proofs.LineInput
import Sbunix.Sys.Proofs.Screen

/-!
# The echo of a read

The screen shows the buffer as long as a deletion comes without Ctrl and a scroll finds the line
on the lower half of the screen.
-/

namespace Sbunix

variable {c : UInt8} {inb : UInt8} {inbs : List UInt8} {s s' : Tty} {t t' : Terminal} {start p q : Nat}

/-- What a character but Enter does to the buffer. -/
theorem Terminal.takeChar_eq (hlen : t.stdinlength < stdinSize) (hc : c ≠ 10) :
    t.takeChar c = some (if c = 45 then
        ⟨Function.update t.stdin t.stdinlength 32, t.stdinlength - 1, t.readmodeon⟩
      else ⟨Function.update t.stdin t.stdinlength c, t.stdinlength + 1, t.readmodeon⟩) := by
  unfold takeChar setStdin
  rw [if_neg hc]
  by_cases hdel : c = 45
  · rw [if_pos hdel, if_pos hdel, if_pos hlen]
    rfl
  · rw [if_neg hdel, if_neg hdel, if_pos hlen]
    rfl

namespace Tty

/-! One key -/

/-- The position of the cursor, from the one where the read began. -/
theorem shows_iff : s.Shows start ↔ ∃ p, p + 80 * 12 * s.console.scrolls = start ∧
    s.console.dataWritten = p + s.terminal.stdinlength ∧
    ∀ i < s.terminal.stdinlength, s.console.screen (2 * (p + i)) = s.terminal.stdin i := by
  unfold Shows
  rw [s.console.aligned]
  simp only [Nat.mul_left_cancel_iff (show 0 < 2 by decide)]

/-- A character that is echoed and stored is shown exactly if the screen has room, or scrolls with
the line on its lower half. -/
theorem shows_insert_iff (h : s.Shows start) {s' : Tty}
    (hconsole : s'.console = s.console.flushchar c)
    (hlength : s'.terminal.stdinlength = s.terminal.stdinlength + 1)
    (hstdin : s'.terminal.stdin =
      Function.update s.terminal.stdin s.terminal.stdinlength c) :
    s'.Shows start ↔ (80 * 24 ≤ s.console.dataWritten →
      s.console.dataWritten = 80 * 24 ∧ s.terminal.stdinlength ≤ 80 * 12) := by
  obtain ⟨p, hp, hcursor, hchars⟩ := shows_iff.mp h
  rw [shows_iff, hconsole, hlength, hstdin]
  have hold : ∀ i < s.terminal.stdinlength,
      Function.update s.terminal.stdin s.terminal.stdinlength c i = s.terminal.stdin i :=
    fun i hi => Function.update_of_ne (Nat.ne_of_lt hi) _ _
  rcases Nat.lt_or_ge s.console.dataWritten (80 * 24) with hroom | hfull
  · obtain ⟨hscrolls, hwritten, hnew, hkept⟩ := Console.flushchar_room (c := c) hroom
    refine iff_of_true ⟨p, by rw [hscrolls, hp], by omega, fun i hi => ?_⟩ fun hge => by omega
    rcases Nat.lt_succ_iff_lt_or_eq.mp hi with hlt | rfl
    · rw [hkept _ (by omega), hchars i hlt, hold i hlt]
    · rw [← hcursor, hnew, Function.update_self]
  · obtain ⟨hscrolls, hwritten, hnew, hkept⟩ := Console.flushchar_scroll (c := c) hfull
    rw [hscrolls, hwritten]
    constructor
    · rintro ⟨q, hq, hcursor', -⟩ -
      omega
    · intro hfits
      obtain ⟨hedge, hshort⟩ := hfits hfull
      refine ⟨p - 80 * 12, by omega, by omega, fun i hi => ?_⟩
      rcases Nat.lt_succ_iff_lt_or_eq.mp hi with hlt | rfl
      · rw [hkept _ (by omega), show p - 80 * 12 + i + 80 * 12 = p + i by omega, hchars i hlt,
          hold i hlt]
      · rw [show p - 80 * 12 + s.terminal.stdinlength = 80 * 12 by omega, hnew,
          Function.update_self]

/-- A deletion that the screen follows. -/
theorem shows_delete (h : s.Shows start) {s' : Tty} (hne : s.terminal.stdinlength ≠ 0)
    (hconsole : s'.console = s.console.flushbackspace)
    (hlength : s'.terminal.stdinlength = s.terminal.stdinlength - 1)
    (hstdin : s'.terminal.stdin =
      Function.update s.terminal.stdin s.terminal.stdinlength 32) : s'.Shows start := by
  obtain ⟨p, hp, hcursor, hchars⟩ := shows_iff.mp h
  obtain ⟨hscrolls, hwritten, hkept⟩ :=
    Console.flushbackspace_room (k := s.console) (by omega)
  rw [shows_iff, hconsole, hlength, hstdin, hscrolls, hwritten]
  refine ⟨p, hp, by omega, fun i hi => ?_⟩
  rw [hkept _ (by omega), hchars i (by omega), Function.update_of_ne (by omega)]

/-- A deletion that the screen shows as a character. -/
theorem not_shows_delete (h : s.Shows start) {s' : Tty}
    (hedge : s.console.dataWritten ≤ 80 * 24) (hconsole : s'.console = s.console.flushchar c)
    (hlength : s'.terminal.stdinlength = s.terminal.stdinlength - 1) : ¬ s'.Shows start := by
  obtain ⟨p, hp, hcursor, -⟩ := shows_iff.mp h
  rw [shows_iff, hconsole, hlength]
  rintro ⟨q, hq, hcursor', -⟩
  rcases Nat.lt_or_ge s.console.dataWritten (80 * 24) with hroom | hfull
  · obtain ⟨hscrolls, hwritten, -⟩ := Console.flushchar_room (c := c) hroom
    rw [hscrolls] at hq
    omega
  · obtain ⟨hscrolls, hwritten, -⟩ := Console.flushchar_scroll (c := c) hfull
    rw [hscrolls] at hq
    omega

/-- What a run keeps while the read waits and the screen shows the buffer. -/
structure Echoes (start : Nat) (s : Tty) : Prop where
  on : s.terminal.readmodeon = true
  short : s.terminal.stdinlength ≤ 1022
  shows : s.Shows start
  edge : s.terminal.stdinlength = 0 ∨ s.console.dataWritten ≤ 80 * 24

theorem localEcho_inserts (h : s.keyboard.ctrlKey = true ∨ c ≠ 45) :
    (s.localEcho c).console = s.console.flushchar c := by
  unfold localEcho
  rcases h with hctrl | hne
  · rw [if_pos hctrl]
  · rw [if_neg hne]
    split
    · rfl
    · rfl

theorem localEcho_deletes (hctrl : s.keyboard.ctrlKey = false) (hc : c = 45) :
    (s.localEcho c).console = s.console.flushbackspace := by
  unfold localEcho
  rw [if_neg (by simp [hctrl]), if_pos hc]

/-- What echo and buffer do with a character that neither ends the read nor is passed over. -/
theorem echoAndTake_shows_iff (h : s.Echoes start) (hlen : s.terminal.stdinlength < 1022)
    (hc : c ≠ 10) (hdel : ¬ (s.terminal.stdinlength = 0 ∧ c = 45))
    (hs : s.echoAndTake c = some s') :
    (s'.Shows start ↔
      (c = 45 → s.terminal.stdinlength ≠ 0 → s.keyboard.ctrlKey = false) ∧
      (c ≠ 45 → 80 * 24 ≤ s.console.dataWritten →
        s.console.dataWritten = 80 * 24 ∧ s.terminal.stdinlength ≤ 80 * 12)) ∧
      (s'.terminal.stdinlength = 0 ∨ s'.console.dataWritten ≤ 80 * 24) := by
  unfold echoAndTake at hs
  dsimp only at hs
  rw [localEcho_terminal, Terminal.takeChar_eq (Nat.lt_trans hlen (by decide)) hc,
    Option.map_some] at hs
  obtain rfl := Option.some.inj hs
  by_cases hminus : c = 45
  · have hne : s.terminal.stdinlength ≠ 0 := fun hz => hdel ⟨hz, hminus⟩
    have hedge := h.edge.resolve_left hne
    rw [if_pos hminus]
    cases hctrl : s.keyboard.ctrlKey with
    | true =>
      have hecho := localEcho_inserts (c := c) (Or.inl hctrl)
      refine ⟨iff_of_false ?_ fun hfits => ?_, Or.inr ?_⟩
      · exact not_shows_delete h.shows hedge hecho rfl
      · simpa using hfits.1 hminus hne
      · rw [hecho]
        exact Console.flushchar_dataWritten_le
    | false =>
      have hecho := localEcho_deletes hctrl hminus
      refine ⟨iff_of_true ?_ ⟨fun _ _ => rfl, fun hplus => absurd hminus hplus⟩, Or.inr ?_⟩
      · exact shows_delete h.shows hne hecho rfl rfl
      · rw [hecho]
        obtain ⟨p, hp, hcursor, -⟩ := shows_iff.mp h.shows
        rw [(Console.flushbackspace_room (by omega)).2.1]
        omega
  · have hecho := localEcho_inserts (s := s) (Or.inr hminus)
    rw [if_neg hminus]
    refine ⟨Iff.trans (shows_insert_iff h.shows hecho rfl rfl) ?_, Or.inr ?_⟩
    · simp [hminus]
    · rw [hecho]
      exact Console.flushchar_dataWritten_le

/-- A key that does not end the read keeps screen and buffer in step exactly if it fits. -/
theorem keymama_shows_iff (h : s.Echoes start) (hs : s.keymama inb = some s')
    (hon : s'.terminal.readmodeon = true) :
    (s'.Shows start ↔ s.EchoFits inb) ∧ (s'.Shows start → s'.Echoes start) := by
  unfold keymama at hs
  unfold EchoFits
  generalize s.keyboard.getchar inb = got at hs ⊢
  obtain ⟨keyboard, c⟩ := got
  dsimp only at hs ⊢
  -- only the character and the Ctrl flag matter from here on
  have hstart : Echoes start { s with keyboard := keyboard } := ⟨h.on, h.short, h.shows, h.edge⟩
  by_cases hhash : c = 35
  · rw [hhash] at hs ⊢
    obtain rfl := Option.some.inj hs
    exact ⟨iff_of_true h.shows fun hne => absurd rfl hne, fun _ => hstart⟩
  · rcases tunnel_on hhash hstart.on hstart.short hs hon with ⟨hzero, hminus, rfl⟩ | htaken
    · exact ⟨iff_of_true h.shows fun _ _ _ => ⟨fun _ hne => absurd hzero hne,
        fun hne => absurd hminus hne⟩, fun _ => hstart⟩
    · obtain ⟨hc, hroom, hdel, hecho, hshort⟩ := htaken
      obtain ⟨hiff, hedge⟩ := echoAndTake_shows_iff hstart hroom hc hdel hecho
      exact ⟨hiff.trans ⟨fun hfits _ _ _ => hfits, fun hfits => hfits hhash hc hroom⟩,
        fun hshows => ⟨hon, hshort, hshows, hedge⟩⟩

/-- A key that ends the read has nothing to fit. -/
theorem echoFits_of_ends (h : s.Echoes start)
    (hends : ∀ s', s.keymama inb = some s' → s'.terminal.readmodeon = false) : s.EchoFits inb := by
  unfold keymama at hends
  unfold EchoFits
  generalize s.keyboard.getchar inb = got at hends ⊢
  obtain ⟨keyboard, c⟩ := got
  dsimp only at hends ⊢
  intro hhash hc hroom
  obtain ⟨s', hs', hkey⟩ := tunnel_key s.console keyboard hhash h.on h.short
  have hoff := hends s' hs'
  cases hkey with
  | limit hlen => omega
  | empty _ _ heq =>
    rw [heq, h.on] at hoff
    cases hoff
  | take _ htakes =>
    rw [(htakes.edit hc).1, h.on] at hoff
    cases hoff

theorem AlwaysShows.shows (h : s.AlwaysShows start inbs) : s.Shows start := by
  cases inbs with
  | nil => exact h
  | cons inb inbs => exact h.1

theorem Echoes.alwaysShows_iff (h : s.Echoes start) :
    s.AlwaysShows start inbs ↔ s.AllEchoFit inbs := by
  induction inbs generalizing s with
  | nil => exact iff_of_true h.shows trivial
  | cons inb inbs ih =>
    unfold AlwaysShows AllEchoFit
    constructor
    · rintro ⟨-, hrest⟩
      constructor
      · by_cases hends : ∀ s', s.keymama inb = some s' → s'.terminal.readmodeon = false
        · exact echoFits_of_ends h hends
        · push Not at hends
          obtain ⟨s', hs', hon⟩ := hends
          have hon : s'.terminal.readmodeon = true := by simpa using hon
          exact (keymama_shows_iff h hs' hon).1.mp (hrest s' hs' hon).shows
      · intro s' hs' hon
        have hstep := (keymama_shows_iff h hs' hon).2 (hrest s' hs' hon).shows
        exact (ih hstep).mp (hrest s' hs' hon)
    · rintro ⟨hfits, hrest⟩
      refine ⟨h.shows, fun s' hs' hon => ?_⟩
      obtain ⟨hiff, hkeeps⟩ := keymama_shows_iff h hs' hon
      exact (ih (hkeeps (hiff.mpr hfits))).mpr (hrest s' hs' hon)

theorem echoes_waiting (console : Console) (keyboard : Keyboard) (stdin : Nat → UInt8) :
    Echoes (console.dataWritten + 80 * 12 * console.scrolls)
      ⟨console, keyboard, waiting stdin⟩ where
  on := rfl
  short := Nat.zero_le _
  shows := ⟨console.dataWritten, rfl, console.aligned, fun i hi => absurd hi (Nat.not_lt_zero i)⟩
  edge := Or.inl rfl

end Tty

/-- From any screen, keyboard and former contents of `stdin`, and for any scan codes: the screen
shows the buffer after each key of a read exactly if every key fits. -/
theorem echo_shows_iff (console : Console) (keyboard : Keyboard) (stdin : Nat → UInt8)
    (inbs : List UInt8) :
    Tty.AlwaysShows (console.dataWritten + 80 * 12 * console.scrolls)
        ⟨console, keyboard, waiting stdin⟩ inbs ↔
      Tty.AllEchoFit ⟨console, keyboard, waiting stdin⟩ inbs :=
  (Tty.echoes_waiting console keyboard stdin).alwaysShows_iff

/-- The keys `a`, Ctrl and `-`: the screen shows `a-` and the buffer is empty. -/
theorem echo_ctrl_minus :
    ((((Tty.mk blankConsole ⟨false, false⟩ (waiting fun _ => 32)).keymama 0x1E).bind
      (Tty.keymama · 0x1D)).bind (Tty.keymama · 0x0C)).map
        (fun s => (s.console.screen 0, s.console.screen 2, s.console.video,
          s.terminal.stdinlength)) = some (97, 45, 4, 0) ∧
    ¬ Tty.AlwaysShows 0 ⟨blankConsole, ⟨false, false⟩, waiting fun _ => 32⟩ [0x1E, 0x1D, 0x0C] := by
  refine ⟨rfl, fun h => ?_⟩
  have hfits := (Tty.echoes_waiting blankConsole ⟨false, false⟩ fun _ => 32).alwaysShows_iff.mp h
  have hlast := ((hfits.2 _ rfl rfl).2 _ rfl rfl).1
  exact absurd ((hlast (by decide) (by decide) (by decide)).1 rfl (by decide)) (by decide)

end Sbunix
