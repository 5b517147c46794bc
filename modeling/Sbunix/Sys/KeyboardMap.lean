import Mathlib.Logic.Function.Basic

/-!
# Scan codes

C `sys/keyboardMap.c`.
-/

namespace Sbunix

/-- C `shiftKey` and `ctrlKey`. -/
structure Keyboard where
  shiftKey : Bool
  ctrlKey : Bool

/-- What `getScancode` returns for the byte of port `0x60`: a release counts as the left Alt key. -/
def getScancode (inb : UInt8) : UInt8 := if inb < 128 then inb else 0x38

/-- What `CheckIfSpecialKey` tells apart. -/
inductive SpecialKey
  | ctrl
  | shift
  deriving DecidableEq

/-- C `CheckIfSpecialKey`. -/
def checkIfSpecialKey (key : UInt8) : Option SpecialKey :=
  if key = 0x1D then some .ctrl
  else if key = 0x2A ∨ key = 0x36 then some .shift
  else none

/-- The assignments of `MakeKeyboardMapping`, in order. Some codes are assigned twice. -/
def keyboardMapping : List (UInt8 × Char) :=
  [(0x04, '3'), (0x08, '7'), (0x0C, '-'), (0x10, 'q'), (0x14, 't'), (0x18, 'o'), (0x1C, '\n'),
    (0x20, 'd'), (0x24, 'j'), (0x28, '\x27'), (0x2C, 'z'), (0x30, 'b'), (0x34, '.'), (0x38, '#'),
    (0x3C, '#'), (0x40, '#'), (0x44, '#'), (0x48, '8'), (0x4C, '5'), (0x50, '2'), (0x58, '#'),
    (0x01, '#'), (0x05, '4'), (0x09, '8'), (0x0D, '='), (0x11, 'w'), (0x15, 'y'), (0x19, 'p'),
    (0x1D, '#'), (0x21, 'f'), (0x25, 'k'), (0x29, '\x60'), (0x2D, 'x'), (0x31, 'n'), (0x35, '/'),
    (0x39, ' '), (0x3D, '#'), (0x41, '#'), (0x45, '#'), (0x49, '9'), (0x4D, '6'), (0x51, '3'),
    (0x02, '1'), (0x06, '5'), (0x0A, '9'), (0x0E, '-'), (0x12, 'e'), (0x16, 'u'), (0x1A, '['),
    (0x1E, 'a'), (0x22, 'g'), (0x26, 'l'), (0x2E, 'c'), (0x32, 'm'), (0x3E, '_'), (0x42, '_'),
    (0x4A, '#'), (0x4E, '+'), (0x52, '0'), (0x03, '2'), (0x07, '6'), (0x0B, '0'), (0x0F, '\t'),
    (0x13, 'r'), (0x17, 'i'), (0x1B, ']'), (0x1F, 's'), (0x23, 'h'), (0x27, ';'), (0x2B, '\x5c'),
    (0x2F, 'v'), (0x33, ','), (0x37, '*'), (0x3B, '#'), (0x3F, '#'), (0x43, '#'), (0x47, '7'),
    (0x4B, '4'), (0x4F, '1'), (0x53, '.'), (0x57, '#'), (0x1D, '#'), (0x35, '/'), (0x38, '#'),
    (0x53, '#'), (0x4F, '#'), (0x47, '#'), (0x2A, '#'), (0x36, '#'), (0x3A, '#')]

/-- C `ScanCodeMap` after `MakeKeyboardMapping`; the last assignment to a code counts. -/
def scanCodeMap (key : UInt8) : UInt8 :=
  match keyboardMapping.reverse.find? fun assignment => assignment.1 = key with
  | none => 0
  | some assignment => assignment.2.toUInt8

/-- C `getKeyBoardKey`. -/
def Keyboard.getKeyBoardKey (k : Keyboard) (key : UInt8) : Keyboard × UInt8 :=
  if k.shiftKey then ({ k with shiftKey := false }, scanCodeMap key - 32) else (k, scanCodeMap key)

/-- C `getchar` for the byte of port `0x60`. -/
def Keyboard.getchar (k : Keyboard) (inb : UInt8) : Keyboard × UInt8 :=
  let key := getScancode inb
  match checkIfSpecialKey key with
  | some .shift => ({ k with shiftKey := true }, '#'.toUInt8)
  | some .ctrl => ({ k with ctrlKey := true }, '#'.toUInt8)
  | none => k.getKeyBoardKey key

/-- The keyboard after a stream of scan codes. -/
def Keyboard.after (k : Keyboard) (inbs : List UInt8) : Keyboard :=
  inbs.foldl (fun k inb => (k.getchar inb).1) k

/-- A release has bit 7 set. -/
def IsRelease (inb : UInt8) : Prop := 128 ≤ inb

/-- The press of a key other than Ctrl and Shift. -/
def IsOrdinary (inb : UInt8) : Prop := inb < 128 ∧ checkIfSpecialKey inb = none

/-- The last scan code, presses of Ctrl apart, is the press of a Shift key. -/
def ShiftPending (inbs : List UInt8) : Prop :=
  ∃ inb, (inbs.filter fun inb => checkIfSpecialKey inb ≠ some .ctrl).getLast? = some inb ∧
    checkIfSpecialKey inb = some .shift

/-- No release comes while a Shift is pending. -/
def ReleasesFit (inbs : List UInt8) : Prop :=
  ∀ before inb after, inbs = before ++ inb :: after → IsRelease inb → ¬ ShiftPending before

end Sbunix
