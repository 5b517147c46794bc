import Mathlib.Data.Bool.AllAny
import Sbunix.Sys.Dialogue
import Sbunix.Sys.Proofs.KeyRelease
import Sbunix.Sys.Proofs.LineInput
import Sbunix.Sys.Proofs.Output

/-!
# Programs at the terminal

What `gets` gives to a program and what the echo leaves on the roll behind the screen are the same
line, with its deletions made.  So the screen shows what programs wrote and read, in its order.
-/

namespace Sbunix

variable {s : Tty} {r : Roll UInt8} {c inb : UInt8} {cs inbs inbs' : List UInt8} {k : Keyboard}
  {con : Console}

/-! ## The keyboard -/

theorem Keyboard.getchar_ctrlKey (h : checkIfSpecialKey inb ≠ some .ctrl) :
    (k.getchar inb).1.ctrlKey = k.ctrlKey := by
  rw [Keyboard.getchar_eq]
  match hspecial : checkIfSpecialKey inb with
  | some .shift => rfl
  | some .ctrl => exact absurd hspecial h
  | none =>
    unfold Keyboard.getKeyBoardKey
    dsimp only
    split
    · rfl
    · rfl

/-- No release comes while a Shift is pending, from the beginning of a stream on. -/
def ReleasesFitFrom : Bool → List UInt8 → Prop
  | _, [] => True
  | shift, inb :: inbs =>
      (IsRelease inb → shift = false) ∧ ReleasesFitFrom (shiftAfter shift inb) inbs

instance (inb : UInt8) : Decidable (IsRelease inb) := inferInstanceAs (Decidable (128 ≤ inb))

/-- Structural, so that streams can be checked. -/
def decideReleasesFitFrom : ∀ shift inbs, Decidable (ReleasesFitFrom shift inbs)
  | _, [] => isTrue trivial
  | shift, inb :: inbs =>
      have := decideReleasesFitFrom (shiftAfter shift inb) inbs
      inferInstanceAs (Decidable ((IsRelease inb → shift = false) ∧ _))

instance {shift : Bool} : Decidable (ReleasesFitFrom shift inbs) := decideReleasesFitFrom shift inbs

namespace Keyboard

end Keyboard

theorem length_editLine_le (cs : List UInt8) : (editLine cs).length ≤ cs.length := by
  induction cs using List.reverseRecOn with
  | nil => exact Nat.le_refl _
  | append_singleton cs c ih =>
    rw [editLine_append_singleton, List.length_append, List.length_singleton]
    split
    · rw [List.length_dropLast]
      omega
    · rw [List.length_append, List.length_singleton]
      omega

/-! ## The echo on the roll -/

theorem cursor_typeKeys {line : List UInt8} :
    (typeKeys r (line.map .char)).cursor = r.cursor + line.length := Roll.cursor_type_char _

theorem Console.Prints.flushchar (h : con.Prints r) : (con.flushchar c).Prints (r.put c) :=
  h.checkForScroll.putCell Console.checkForScroll_lt

theorem Console.Prints.flushbackspace (h : con.Prints r) (hstart : con.scrolledAway < r.cursor) :
    con.flushbackspace.Prints (r.back 32) := by
  have hcursor := h.cursor
  have hfit : FlushCall.flushbackspace.FitsPaper con := ⟨trivial, fun hzero => by omega⟩
  obtain ⟨keys, hkeys, hprints⟩ := FlushCall.prints h hfit rfl
  obtain rfl := Option.some.inj hkeys
  exact hprints

/-- A scroll does not go beyond the last 12 rows. -/
theorem Console.Prints.scrolledAway_flushchar (h : con.Prints r) :
    (con.flushchar c).scrolledAway = con.scrolledAway ∨
      (con.flushchar c).scrolledAway + 80 * 12 = r.cursor := by
  have hle := h.dataWritten_le
  have hcursor := h.cursor
  unfold Console.flushchar Console.checkForScroll Console.scrolledAway at *
  dsimp only
  split
  · dsimp only
    omega
  · exact .inl rfl

theorem Console.scrolledAway_flushbackspace :
    con.flushbackspace.scrolledAway = con.scrolledAway := by
  unfold Console.flushbackspace Console.scrolledAway
  split
  · rfl
  · rfl

namespace Tty

/-- While `read` waits: behind the roll `r` of its beginning stands the line of the characters so
far, which has not been scrolled away, and the buffer holds it. -/
structure Lines (s : Tty) (r : Roll UInt8) (cs : List UInt8) : Prop where
  on : s.terminal.readmodeon = true
  ctrl : s.keyboard.ctrlKey = false
  contents : s.terminal.contents = editLine cs
  prints : s.console.Prints (typeKeys r ((editLine cs).map .char))
  kept : s.console.scrolledAway ≤ r.cursor

/-- The line has been ended. -/
structure Ended (s : Tty) (r : Roll UInt8) (cs : List UInt8) : Prop where
  off : s.terminal.readmodeon = false
  ctrl : s.keyboard.ctrlKey = false
  contents : s.terminal.contents = editLine cs ++ [0]
  prints : s.console.Prints (typeKeys r ((editLine cs ++ [10]).map .char))

theorem Lines.stdinlength (h : s.Lines r cs) : s.terminal.stdinlength = (editLine cs).length := by
  rw [← h.contents, Terminal.length_contents]

/-- The echo without Ctrl. -/
theorem localEcho_eq (h : s.keyboard.ctrlKey = false) : s.localEcho c = { s with
    console := if c = 45 then s.console.flushbackspace else s.console.flushchar c } := by
  unfold localEcho
  rw [h, if_neg Bool.false_ne_true]
  split
  · rfl
  · rfl

/-- A character that goes through to `takeChar`. -/
theorem Lines.tunnel_eq (h : s.Lines r cs) (hc : c ≠ 35) (hlen : cs.length ≤ 80 * 12)
    (hline : ¬ (editLine cs = [] ∧ c = 45)) :
    ∃ t, s.terminal.Takes c t ∧ s.tunnel c = some { s with
      console := if c = 45 then s.console.flushbackspace else s.console.flushchar c
      terminal := t } := by
  have hstdin := h.stdinlength
  have hle := length_editLine_le cs
  have hempty : ¬ (s.terminal.stdinlength = 0 ∧ c = 45) := fun hboth =>
    hline ⟨List.length_eq_zero_iff.mp (hstdin ▸ hboth.1), hboth.2⟩
  obtain ⟨t, ht, htakes⟩ := Terminal.takeChar_takes (t := s.terminal) (c := c) (by
    unfold stdinSize
    omega)
  refine ⟨t, htakes, ?_⟩
  unfold tunnel echoAndTake
  rw [localEcho_eq h.ctrl]
  dsimp only
  rw [if_pos hc, if_neg (by simp [h.on]), if_neg (by omega), if_neg hempty, ht, Option.map_some]

/-- Enter ends the line. -/
theorem Lines.enter (h : s.Lines r cs) (hlen : cs.length ≤ 80 * 12) :
    ∃ s', s.tunnel 10 = some s' ∧ s'.keyboard = s.keyboard ∧ s'.Ended r cs := by
  obtain ⟨t, htakes, htunnel⟩ := h.tunnel_eq (c := 10) (by decide) hlen
    (fun hboth => absurd hboth.2 (by decide))
  obtain ⟨hoff, hcontents⟩ := htakes.enter rfl
  refine ⟨_, htunnel, rfl, hoff, h.ctrl, by rw [hcontents, h.contents], ?_⟩
  dsimp only
  unfold typeKeys
  rw [if_neg (by decide), Roll.type_char_append_singleton]
  exact h.prints.flushchar

/-- The echo leaves the new line on the roll: with a deletion the last character goes, and a space
comes back in its place. -/
theorem Lines.echo_prints (h : s.Lines r cs) (hr : r.Clear 32)
    (hline : ¬ (editLine cs = [] ∧ c = 45)) :
    (if c = 45 then s.console.flushbackspace else s.console.flushchar c).Prints
      (typeKeys r ((editLine (cs ++ [c])).map .char)) := by
  have hcursor := @cursor_typeKeys r (editLine cs)
  rw [editLine_append_singleton]
  by_cases hminus : c = 45
  · have hne : editLine cs ≠ [] := fun hnil => hline ⟨hnil, hminus⟩
    have hpos := List.length_pos_iff.mpr hne
    have hkept := h.kept
    rw [if_pos hminus, if_pos hminus]
    have hback := h.prints.flushbackspace (by omega)
    have hsplit := List.dropLast_append_getLast hne
    unfold typeKeys at hback ⊢
    rwa [← hsplit, Roll.type_char_append_singleton, (hr.type (by decide) _).back_put] at hback
  · rw [if_neg hminus, if_neg hminus]
    unfold typeKeys
    rw [Roll.type_char_append_singleton]
    exact h.prints.flushchar

theorem Lines.echo_kept (h : s.Lines r cs) (hlen : cs.length < 80 * 12) :
    (if c = 45 then s.console.flushbackspace else s.console.flushchar c).scrolledAway ≤
      r.cursor := by
  have hkept := h.kept
  have hle := length_editLine_le cs
  have hcursor := @cursor_typeKeys r (editLine cs)
  split
  · rwa [Console.scrolledAway_flushbackspace]
  · rcases h.prints.scrolledAway_flushchar (c := c) with hsame | hmoved
    · omega
    · omega

/-- A character of the line; `tunnel` passes a deletion over when there is nothing to delete. -/
theorem Lines.char (h : s.Lines r cs) (hr : r.Clear 32) (hc : c ≠ 35) (hnl : c ≠ 10)
    (hlen : cs.length < 80 * 12) :
    ∃ s', s.tunnel c = some s' ∧ s'.keyboard = s.keyboard ∧ s'.Lines r (cs ++ [c]) := by
  by_cases hline : editLine cs = [] ∧ c = 45
  · obtain ⟨hnil, rfl⟩ := hline
    have hsame : editLine (cs ++ [45]) = editLine cs := by
      rw [editLine_append_singleton, if_pos rfl, hnil]
      rfl
    have hstdin : s.terminal.stdinlength = 0 := by rw [h.stdinlength, hnil, List.length_nil]
    refine ⟨s, ?_, rfl, h.on, h.ctrl, by rw [hsame, h.contents], by rw [hsame]; exact h.prints,
      h.kept⟩
    unfold tunnel
    dsimp only
    rw [if_pos hc, if_neg (by simp [h.on]), if_neg (by omega), if_pos ⟨hstdin, rfl⟩]
  · obtain ⟨t, htakes, htunnel⟩ := h.tunnel_eq hc (Nat.le_of_lt hlen) hline
    obtain ⟨hon, hcontents⟩ := htakes.edit hnl
    rw [h.contents, ← editLine_append_singleton] at hcontents
    exact ⟨_, htunnel, rfl, hon.trans h.on, h.ctrl, hcontents, h.echo_prints hr hline,
      h.echo_kept hlen⟩

/-! ## The keys of a line -/

/-- A key that gives no character. -/
theorem keymama_silent (h : (s.keyboard.getchar inb).2 = 35) :
    s.keymama inb = some { s with keyboard := (s.keyboard.getchar inb).1 } := by
  unfold keymama tunnel
  dsimp only
  rw [if_neg (not_not.mpr h)]

theorem keymamas_silent (hctrl : ∀ inb ∈ inbs, checkIfSpecialKey inb ≠ some .ctrl)
    (hkeys : s.keyboard.characters inbs = []) (h : s.Ended r cs) :
    ∃ s', keymamas inbs s = some s' ∧ s'.keyboard = s.keyboard.after inbs ∧ s'.Ended r cs := by
  induction inbs generalizing s with
  | nil => exact ⟨s, rfl, rfl, h⟩
  | cons inb inbs ih =>
    unfold Keyboard.characters at hkeys
    by_cases hsilent : (s.keyboard.getchar inb).2 = 35
    · rw [if_pos hsilent] at hkeys
      rw [keymamas, keymama_silent hsilent, Option.bind_some]
      refine ih (fun inb' hmem => hctrl inb' (List.mem_cons_of_mem _ hmem)) hkeys
        ⟨h.off, ?_, h.contents, h.prints⟩
      exact (Keyboard.getchar_ctrlKey (hctrl inb List.mem_cons_self)).trans h.ctrl
    · rw [if_neg hsilent] at hkeys
      cases hkeys

/-- The keys of a line and its Enter, behind those of the characters `cs`. -/
theorem Lines.keymamas {rest : List UInt8} (h : s.Lines r cs) (hr : r.Clear 32)
    (hctrl : ∀ inb ∈ inbs, checkIfSpecialKey inb ≠ some .ctrl)
    (hkeys : s.keyboard.characters inbs = rest ++ [10]) (hnl : 10 ∉ rest)
    (hlen : (cs ++ rest).length ≤ 80 * 12) :
    ∃ s', Tty.keymamas inbs s = some s' ∧ s'.keyboard = s.keyboard.after inbs ∧
      s'.Ended r (cs ++ rest) := by
  induction inbs generalizing s cs rest with
  | nil => exact absurd hkeys.symm (List.append_ne_nil_of_right_ne_nil _ (List.cons_ne_nil _ _))
  | cons inb inbs ih =>
    have hrestCtrl : ∀ inb' ∈ inbs, checkIfSpecialKey inb' ≠ some .ctrl :=
      fun inb' hmem => hctrl inb' (List.mem_cons_of_mem _ hmem)
    have hkey : { s with keyboard := (s.keyboard.getchar inb).1 }.Lines r cs :=
      ⟨h.on, (Keyboard.getchar_ctrlKey (hctrl inb List.mem_cons_self)).trans h.ctrl, h.contents,
        h.prints, h.kept⟩
    unfold Keyboard.characters at hkeys
    by_cases hsilent : (s.keyboard.getchar inb).2 = 35
    · rw [if_pos hsilent] at hkeys
      rw [keymamas, keymama_silent hsilent, Option.bind_some]
      exact ih hkey hrestCtrl hkeys hnl hlen
    · rw [if_neg hsilent] at hkeys
      rw [List.length_append] at hlen
      have hkeymama : s.keymama inb =
          tunnel { s with keyboard := (s.keyboard.getchar inb).1 } (s.keyboard.getchar inb).2 := rfl
      rw [Tty.keymamas, hkeymama]
      cases rest with
      | nil =>
        obtain ⟨hchar, hnone⟩ := List.cons.inj hkeys
        rw [List.length_nil, Nat.add_zero] at hlen
        obtain ⟨s₁, hs₁, hkeyboard, hended⟩ := hkey.enter hlen
        rw [hchar, hs₁, Option.bind_some, List.append_nil]
        obtain ⟨s', hs', hafter, hended'⟩ := keymamas_silent hrestCtrl (by rwa [hkeyboard]) hended
        exact ⟨s', hs', by rw [hafter, hkeyboard]; rfl, hended'⟩
      | cons c rest =>
        obtain ⟨hchar, hmore⟩ := List.cons.inj hkeys
        rw [List.length_cons] at hlen
        rw [List.mem_cons, not_or] at hnl
        obtain ⟨s₁, hs₁, hkeyboard, hlines⟩ := hkey.char hr hsilent (hchar ▸ Ne.symm hnl.1)
          (show cs.length < 80 * 12 by omega)
        rw [hs₁, Option.bind_some]
        rw [hchar] at hlines
        obtain ⟨s', hs', hafter, hended⟩ := ih hlines hrestCtrl (by rwa [hkeyboard]) hnl.2
          (by simp only [List.length_append, List.length_singleton]; omega)
        refine ⟨s', hs', by rw [hafter, hkeyboard]; rfl, ?_⟩
        rwa [List.append_assoc] at hended

/-- Between the reads: the roll behind the screen is clear from the cursor on. -/
structure AtRest (s : Tty) (r : Roll UInt8) : Prop where
  off : s.terminal.readmodeon = false
  empty : s.terminal.stdinlength = 0
  ctrl : s.keyboard.ctrlKey = false
  prints : s.console.Prints r
  clear : r.Clear 32

/-- Keys are lost while no program reads. -/
theorem AtRest.keymamas (h : s.AtRest r)
    (hctrl : ∀ inb ∈ inbs, checkIfSpecialKey inb ≠ some .ctrl) :
    ∃ s', Tty.keymamas inbs s = some s' ∧ s'.keyboard = s.keyboard.after inbs ∧ s'.AtRest r := by
  induction inbs generalizing s with
  | nil => exact ⟨s, rfl, rfl, h⟩
  | cons inb inbs ih =>
    have hkey : s.keymama inb = some { s with keyboard := (s.keyboard.getchar inb).1 } := by
      unfold keymama tunnel
      dsimp only
      rw [if_pos h.off, ite_self]
    rw [Tty.keymamas, hkey, Option.bind_some]
    refine ih ⟨h.off, h.empty, ?_, h.prints, h.clear⟩
      fun inb' hmem => hctrl inb' (List.mem_cons_of_mem _ hmem)
    exact (Keyboard.getchar_ctrlKey (hctrl inb List.mem_cons_self)).trans h.ctrl

/-- A program writes a string. -/
theorem AtRest.write {f : Console → Option Console} {str : List UInt8} (h : s.AtRest r)
    (hf : Types f str) :
    ∃ con, f s.console = some con ∧
      { s with console := con }.AtRest (typeKeys r (typedString str)) := by
  obtain ⟨con, hcon, hprints⟩ := hf s.console r h.prints
  exact ⟨con, hcon, h.off, h.empty, h.ctrl, hprints, h.clear.type (by decide) _⟩

/-- `gets` gives a program the line of the keys with its deletions made, and the same line stands
on the screen as if it had been typed without them. -/
theorem AtRest.gets (h : s.AtRest r) (hctrl : ∀ inb ∈ inbs, checkIfSpecialKey inb ≠ some .ctrl)
    (hkeys : s.keyboard.characters inbs = cs ++ [10]) (hnl : 10 ∉ cs) (hlen : cs.length ≤ 80 * 12)
    (m : ByteMem) (buff : Nat) :
    ∃ m' s', s.gets inbs m buff = some (m', (editLine cs).length + 1, s') ∧
      ((List.range ((editLine cs).length + 1)).map fun i => m'.load (buff + i)) =
        editLine cs ++ [0] ∧
      s'.keyboard = s.keyboard.after inbs ∧
      s'.AtRest (typeKeys r ((editLine cs ++ [10]).map .char)) := by
  have hstart : { s with terminal := { s.terminal with readmodeon := true } }.Lines r [] :=
    { on := rfl
      ctrl := h.ctrl
      contents := by
        unfold Terminal.contents
        dsimp only
        rw [h.empty]
        rfl
      prints := h.prints
      kept := h.prints.window.low }
  obtain ⟨s₁, hs₁, hafter, hended⟩ := hstart.keymamas h.clear hctrl hkeys hnl hlen
  rw [List.nil_append] at hended
  have hlength : s₁.terminal.stdinlength = (editLine cs).length + 1 := by
    rw [← Terminal.length_contents, hended.contents, List.length_append, List.length_singleton]
  have hfits : s₁.terminal.stdinlength ≤ stdinSize := by
    have hle := length_editLine_le cs
    unfold stdinSize
    omega
  refine ⟨Terminal.handOver s₁.terminal.stdin buff s₁.terminal.stdinlength m, { s₁ with
    terminal := ⟨fun i => if i < 1024 then 32 else s₁.terminal.stdin i, 0, false⟩ }, ?_, ?_,
    hafter, rfl, rfl, hended.ctrl, hended.prints, h.clear.type (by decide) _⟩
  · unfold Tty.gets Terminal.read
    rw [hs₁, Option.bind_eq_bind, Option.bind_some, hended.off, if_neg Bool.false_ne_true,
      if_pos hfits, hlength]
    rfl
  · rw [← hended.contents, ← hlength]
    exact List.map_congr_left fun i hi => load_handOver hfits (List.mem_range.mp hi)

end Tty

/-! ## Dialogues -/

end Sbunix
