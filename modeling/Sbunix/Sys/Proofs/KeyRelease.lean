import Mathlib.Data.List.Induction
import Sbunix.Sys.Proofs.LineInput

/-!
# Releases

A release counts as the left Alt key, and a pending Shift changes the `#` of that key as it changes
the character of any other.
-/

namespace Sbunix

variable {k k' : Keyboard} {inb key : UInt8} {inbs before : List UInt8} {s s' : Tty}

/-! One key -/

theorem checkIfSpecialKey_getScancode :
    checkIfSpecialKey (getScancode inb) = checkIfSpecialKey inb := by
  unfold getScancode
  by_cases h : inb < 128
  · rw [if_pos h]
  · rw [if_neg h]
    have hne : ∀ code : UInt8, code < 128 → inb ≠ code := by
      rintro code hcode rfl
      exact h hcode
    have hplain : checkIfSpecialKey inb = none := by
      unfold checkIfSpecialKey
      rw [if_neg (hne 0x1D (by decide)), if_neg]
      rintro (heq | heq)
      · exact hne 0x2A (by decide) heq
      · exact hne 0x36 (by decide) heq
    rw [hplain]
    rfl

namespace Keyboard

theorem getchar_eq : k.getchar inb = match checkIfSpecialKey inb with
    | some .shift => ({ k with shiftKey := true }, 35)
    | some .ctrl => ({ k with ctrlKey := true }, 35)
    | none => k.getKeyBoardKey (getScancode inb) := by
  unfold getchar
  dsimp only
  rw [checkIfSpecialKey_getScancode]
  rfl

theorem getKeyBoardKey_shiftKey : (k.getKeyBoardKey key).1.shiftKey = false := by
  unfold getKeyBoardKey
  cases h : k.shiftKey with
  | false => simpa using h
  | true => rfl

/-- Only Shift sets the flag, and every key but Ctrl takes it back. -/
theorem getchar_shiftKey : (k.getchar inb).1.shiftKey = match checkIfSpecialKey inb with
    | some .shift => true
    | some .ctrl => k.shiftKey
    | none => false := by
  rw [getchar_eq]
  match checkIfSpecialKey inb with
  | some .shift => rfl
  | some .ctrl => rfl
  | none => exact getKeyBoardKey_shiftKey

theorem getchar_shiftKey_congr (h : k.shiftKey = k'.shiftKey) :
    (k.getchar inb).1.shiftKey = (k'.getchar inb).1.shiftKey := by
  rw [getchar_shiftKey, getchar_shiftKey, h]

/-- The character depends on the pending Shift alone. -/
theorem getchar_char_congr (h : k.shiftKey = k'.shiftKey) :
    (k.getchar inb).2 = (k'.getchar inb).2 := by
  rw [getchar_eq, getchar_eq]
  match checkIfSpecialKey inb with
  | some .shift => rfl
  | some .ctrl => rfl
  | none =>
    dsimp only
    unfold getKeyBoardKey
    rw [h]
    split
    · rfl
    · rfl

theorem checkIfSpecialKey_release (h : IsRelease inb) : checkIfSpecialKey inb = none := by
  rw [← checkIfSpecialKey_getScancode]
  unfold getScancode
  rw [if_neg (UInt8.not_lt.mpr h)]
  rfl

/-- A release gives `#`, or with a pending Shift the character 32 places below it. -/
theorem getchar_release (h : IsRelease inb) :
    (k.getchar inb).2 = if k.shiftKey then 3 else 35 := by
  rw [getchar_eq, checkIfSpecialKey_release h]
  dsimp only
  unfold getScancode getKeyBoardKey
  rw [if_neg (UInt8.not_lt.mpr h)]
  split
  · rfl
  · rfl

/-! Streams -/

theorem after_append_singleton :
    k.after (inbs ++ [inb]) = ((k.after inbs).getchar inb).1 := by
  unfold after
  rw [List.foldl_append]
  rfl

theorem after_append {inbs' : List UInt8} : k.after (inbs ++ inbs') = (k.after inbs).after inbs' :=
  List.foldl_append

theorem after_shiftKey_congr (inbs : List UInt8) (h : k.shiftKey = k'.shiftKey) :
    (k.after inbs).shiftKey = (k'.after inbs).shiftKey := by
  induction inbs generalizing k k' with
  | nil => exact h
  | cons inb inbs ih => exact ih (getchar_shiftKey_congr h)

/-- An ordinary key takes the Shift back, so that what was before it does not matter. -/
theorem after_ordinary (h : ∃ next ∈ inbs, IsOrdinary next) :
    (k.after inbs).shiftKey = (k'.after inbs).shiftKey := by
  obtain ⟨next, hmem, hnext⟩ := h
  obtain ⟨front, rest, rfl⟩ := List.append_of_mem hmem
  rw [after_append, after_append]
  apply after_shiftKey_congr rest
  rw [getchar_shiftKey, getchar_shiftKey, hnext.2]

end Keyboard

theorem shiftPending_append_singleton : ShiftPending (inbs ++ [inb]) ↔
    match checkIfSpecialKey inb with
    | some .shift => True
    | some .ctrl => ShiftPending inbs
    | none => False := by
  unfold ShiftPending
  rw [List.filter_append]
  cases h : checkIfSpecialKey inb with
  | none => simp [h]
  | some special =>
    cases special with
    | ctrl => simp [h]
    | shift => simp [h]

/-- The flag is set exactly while a Shift is pending. -/
theorem Keyboard.after_shiftKey (h : k.shiftKey = false) :
    (k.after inbs).shiftKey = true ↔ ShiftPending inbs := by
  induction inbs using List.reverseRecOn with
  | nil =>
    unfold ShiftPending
    simp [after, h]
  | append_singleton inbs inb ih =>
    rw [after_append_singleton, getchar_shiftKey, shiftPending_append_singleton]
    match checkIfSpecialKey inb with
    | some .shift => simp
    | some .ctrl => exact ih
    | none => simp

/-! The terminal -/

namespace Tty

variable {c : UInt8}

theorem localEcho_shiftKey : (s.localEcho c).keyboard.shiftKey = s.keyboard.shiftKey := by
  unfold localEcho
  split
  · rfl
  · split
    · rfl
    · rfl

theorem echoAndTake_shiftKey (h : s.echoAndTake c = some s') :
    s'.keyboard.shiftKey = s.keyboard.shiftKey := by
  unfold echoAndTake at h
  obtain ⟨t, -, rfl⟩ := Option.map_eq_some_iff.mp h
  exact localEcho_shiftKey

theorem tunnel_shiftKey (h : s.tunnel c = some s') :
    s'.keyboard.shiftKey = s.keyboard.shiftKey := by
  unfold tunnel at h
  dsimp only at h
  split at h
  · split at h
    · rw [← Option.some.inj h]
    · split at h
      · obtain ⟨t, -, hecho⟩ := Option.bind_eq_some_iff.mp h
        exact (echoAndTake_shiftKey hecho).trans rfl
      · split at h
        · rw [← Option.some.inj h]
        · exact echoAndTake_shiftKey h
  · rw [← Option.some.inj h]

theorem keymama_shiftKey (h : s.keymama inb = some s') :
    s'.keyboard.shiftKey = (s.keyboard.getchar inb).1.shiftKey := tunnel_shiftKey h

theorem keymama_hash (h : (s.keyboard.getchar inb).2 = 35) :
    (s.keymama inb).map Tty.terminal = some s.terminal := by
  unfold keymama tunnel
  dsimp only
  rw [if_neg (not_not.mpr h)]
  rfl

end Tty

/-- Echo and line do not touch the flag of Shift. -/
theorem Keyed.shiftKey (h : Keyed inbs s) :
    s.keyboard.shiftKey = (Keyboard.after ⟨false, false⟩ inbs).shiftKey := by
  induction h with
  | start hs => exact hs
  | key _ hs ih =>
    rw [Tty.keymama_shiftKey hs, Keyboard.after_append_singleton]
    exact Keyboard.getchar_shiftKey_congr ih
  | elsewhere _ _ _ ih => exact ih

/-- Every stream can be typed: without a read the keys do nothing. -/
theorem exists_keyed (inbs : List UInt8) (console : Console) (stdin : Nat → UInt8) :
    ∃ keyboard, Keyed inbs ⟨console, keyboard, stdin, 0, false⟩ := by
  induction inbs using List.reverseRecOn with
  | nil => exact ⟨⟨false, false⟩, .start rfl⟩
  | append_singleton inbs inb ih =>
    obtain ⟨keyboard, h⟩ := ih
    refine ⟨(keyboard.getchar inb).1, h.key ?_⟩
    unfold Tty.keymama Tty.tunnel
    dsimp only
    split
    · rfl
    · rfl

theorem ReleasesTypeNothing.fit (h : ReleasesTypeNothing inbs) : ReleasesFit inbs := by
  intro before inb after heq hrelease hpending
  obtain ⟨keyboard, hs⟩ := exists_keyed before ⟨fun _ => 0, 0, 0, 0, rfl⟩ fun _ => 0
  have hchar := (h.silent before inb after heq hrelease _ hs).1
  have hshift := hs.shiftKey.trans ((Keyboard.after_shiftKey rfl).mpr hpending)
  rw [Keyboard.getchar_release hrelease, if_pos hshift] at hchar
  exact absurd hchar (by decide)

theorem ReleasesFit.typeNothing (h : ReleasesFit inbs) : ReleasesTypeNothing inbs := by
  constructor
  · intro before inb after heq hrelease s hs
    have hshift : ¬ s.keyboard.shiftKey = true := by
      rw [hs.shiftKey, Keyboard.after_shiftKey rfl]
      exact h before inb after heq hrelease
    have hchar : (s.keyboard.getchar inb).2 = 35 := by
      rw [Keyboard.getchar_release hrelease, if_neg hshift]
    exact ⟨hchar, Tty.keymama_hash hchar⟩
  · intro before inb between key after _ _ _ hnext
    apply Keyboard.getchar_char_congr
    rw [Keyboard.after_append, Keyboard.after_append]
    exact Keyboard.after_ordinary (k := ((Keyboard.after _ before).getchar inb).1) hnext

/-- For every stream of scan codes: a release types nothing, and a Shift counts for one press at
most, exactly if no release comes while a Shift is pending. -/
theorem releasesTypeNothing_iff (inbs : List UInt8) :
    ReleasesTypeNothing inbs ↔ ReleasesFit inbs := ⟨fun h => h.fit, fun h => h.typeNothing⟩

/-- Left Shift is pressed and released during a read: the release puts the character 3 on the
line. -/
theorem release_types_char :
    (((Tty.mk ⟨fun _ => 32, 0, 0, 0, rfl⟩ ⟨false, false⟩ (waiting fun _ => 32)).keymama 0x2A).bind
      (Tty.keymama · 0xAA)).map (fun s => (s.terminal.stdinlength, s.terminal.stdin 0)) =
        some (1, 3) ∧
    ¬ ReleasesTypeNothing [0x2A, 0xAA] := by
  refine ⟨rfl, fun h => ?_⟩
  have hfit := h.fit [0x2A] 0xAA [] rfl (by unfold IsRelease; decide)
  exact hfit ⟨0x2A, rfl, rfl⟩

end Sbunix
