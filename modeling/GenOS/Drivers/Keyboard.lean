import GenOS.Drivers.Input

/-!
# The keyboard

`drivers/keyboard.c`. `keyboard_handler` gets the bytes of the controller one by one; the event that
it passes to `input_push` is returned. `keyboard_get_char` takes characters out of the ring, between
any two bytes.
-/

namespace GenOS

/-- `BUFFER_SIZE`. -/
abbrev keyBufferSize : Nat := 256

/-- `scancode_to_ascii_base`. -/
def scancodeToAsciiBase : List UInt8 :=
  [0, 27, 49, 50, 51, 52, 53, 54, 55, 56, 57, 48, 45, 61, 8,
    9, 113, 119, 101, 114, 116, 121, 117, 105, 111, 112, 91, 93, 10,
    0, 97, 115, 100, 102, 103, 104, 106, 107, 108, 59, 39, 96,
    0, 92, 122, 120, 99, 118, 98, 110, 109, 44, 46, 47, 0,
    42, 0, 32]

/-- `scancode_to_ascii_shift`. -/
def scancodeToAsciiShift : List UInt8 :=
  [0, 27, 33, 64, 35, 36, 37, 94, 38, 42, 40, 41, 95, 43, 8,
    9, 81, 87, 69, 82, 84, 89, 85, 73, 79, 80, 123, 125, 10,
    0, 65, 83, 68, 70, 71, 72, 74, 75, 76, 58, 34, 126,
    0, 124, 90, 88, 67, 86, 66, 78, 77, 60, 62, 63, 0,
    42, 0, 32]

/-- The static variables of the handler. -/
structure Modifiers where
  shiftPressed : Bool := false
  capsLockActive : Bool := false
  extendedKey : Bool := false
  pauseBytes : Nat := 0
  deriving DecidableEq

/-- The static variables of `keyboard.c`. -/
structure Keyboard where
  mods : Modifiers := {}
  keyBuffer : Nat → UInt8 := fun _ => 0
  bufferHead : Nat := 0
  bufferTail : Nat := 0

namespace Keyboard

/-- `buffer_push`. -/
def bufferPush (s : Keyboard) (c : UInt8) : Keyboard :=
  let nextHead := (s.bufferHead + 1) % keyBufferSize
  if nextHead ≠ s.bufferTail then
    { s with keyBuffer := Function.update s.keyBuffer s.bufferHead c, bufferHead := nextHead }
  else s

/-- `keyboard_get_char`. -/
def keyboardGetChar (s : Keyboard) : Keyboard × UInt8 :=
  if s.bufferHead = s.bufferTail then (s, 0)
  else ({ s with bufferTail := (s.bufferTail + 1) % keyBufferSize }, s.keyBuffer s.bufferTail)

/-- The special key code of an extended scancode. -/
def specialKey (scancode : UInt8) : Option UInt8 :=
  if scancode = 0x48 then some 0x80 -- KEY_UP
  else if scancode = 0x50 then some 0x81 -- KEY_DOWN
  else if scancode = 0x4B then some 0x82 -- KEY_LEFT
  else if scancode = 0x4D then some 0x83 -- KEY_RIGHT
  else if scancode = 0x49 then some 0x84 -- KEY_PGUP
  else if scancode = 0x51 then some 0x85 -- KEY_PGDN
  else none

/-- The event of a byte. -/
def keyEvent (scancode : UInt8) (extendedKey : Bool) : InputEvent where
  type := 1
  code := BitVec.ofNat 32 (scancode &&& 0x7F).toNat ||| if extendedKey then 0x100 else 0
  value := if scancode &&& 0x80 = 0 then 1 else 0
  dx := 0
  dy := 0
  reserved := 0

/-- `final_c`. -/
def translate (f : Modifiers) (scancode : UInt8) : UInt8 :=
  let baseC := scancodeToAsciiBase.getD scancode.toNat 0
  let shiftC := scancodeToAsciiShift.getD scancode.toNat 0
  if 97 ≤ baseC ∧ baseC ≤ 122 then
    let uppercase := f.shiftPressed != f.capsLockActive
    if uppercase then shiftC else baseC
  else if f.shiftPressed then shiftC else baseC

/-- `keyboard_handler`. -/
def keyboardHandler (s : Keyboard) (scancode : UInt8) : Keyboard × Option InputEvent :=
  let f := s.mods
  if f.pauseBytes ≠ 0 then ({ s with mods := { f with pauseBytes := f.pauseBytes - 1 } }, none)
  else if scancode = 0xE1 then
    ({ s with mods := { f with pauseBytes := 5, extendedKey := false } }, none)
  else if scancode = 0xE0 then ({ s with mods := { f with extendedKey := true } }, none)
  else
    let event := keyEvent scancode f.extendedKey
    if f.extendedKey then
      let s := { s with mods := { f with extendedKey := false } }
      if scancode &&& 0x80 ≠ 0 then (s, some event)
      else
        match specialKey scancode with
        | some c => (s.bufferPush c, some event)
        | none => (s, some event)
    else if scancode &&& 0x80 ≠ 0 then
      let baseScancode := scancode &&& 0x7F
      if baseScancode = 0x2A ∨ baseScancode = 0x36 then
        ({ s with mods := { f with shiftPressed := false } }, some event)
      else (s, some event)
    else if scancode = 0x2A ∨ scancode = 0x36 then
      ({ s with mods := { f with shiftPressed := true } }, some event)
    else if scancode = 0x3A then
      ({ s with mods := { f with capsLockActive := !f.capsLockActive } }, some event)
    else if scancode.toNat < scancodeToAsciiBase.length then
      let finalC := translate f scancode
      if finalC ≠ 0 then (s.bufferPush finalC, some event) else (s, some event)
    else (s, some event)

/-- The ring has room for a character. -/
def HasRoom (s : Keyboard) : Prop := (s.bufferHead + 1) % keyBufferSize ≠ s.bufferTail

/-- The character that a byte enters into the ring. -/
def queued (s : Keyboard) (scancode : UInt8) : Option UInt8 :=
  let t := (s.keyboardHandler scancode).1
  if t.bufferHead = s.bufferHead then none else some (t.keyBuffer s.bufferHead)

end Keyboard

end GenOS
