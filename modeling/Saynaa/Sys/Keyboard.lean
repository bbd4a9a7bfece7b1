import Saynaa.Libc.Cstring

/-!
# The keyboard (`kernel/src/drivers/keyboard.c`, `libraries/libc/src/ctype`)

The interrupt handler is given what the data port reads, and returns what it delivers: the calls of `ttyq_push` and
`dev_kbd_push_event`. `g_tty_input_enabled` is an argument too, as `keyboard_set_tty_input` may set
it between two interrupts.
-/

namespace Saynaa

/-! ### `ctype.h` -/

def isalpha (c : UInt8) : Bool := (0x41 ≤ c ∧ c ≤ 0x5A) ∨ (0x61 ≤ c ∧ c ≤ 0x7A)

def toupper (c : UInt8) : UInt8 := if 0x61 ≤ c ∧ c ≤ 0x7A then c - 32 else c

def tolower (c : UInt8) : UInt8 := if 0x41 ≤ c ∧ c ≤ 0x5A then c + 32 else c

/-! ### The driver -/

def leftShift : UInt8 := 0x2A
def rightShift : UInt8 := 0x36
def capsLock : UInt8 := 0x3A

/-- What a key delivers. -/
inductive KeyPush where
  | tty (ch : UInt8)
  | event (keycode : UInt8) (pressed : Bool) (repr : UInt8)
  deriving DecidableEq

/-- The globals of `keyboard.c`. -/
structure Keyboard where
  shift : Bool
  caps : Bool
  e0 : Bool

/-- `g_scancode_map`; the entries that are left out are 0. -/
def scancodeMap : List UInt8 :=
  [0, 27, 0x31, 0x32, 0x33, 0x34, 0x35, 0x36, 0x37, 0x38, 0x39, 0x30, 0x2D, 0x3D, 0x08, 0x09, 0x71, 0x77, 0x65,
    0x72, 0x74, 0x79,
    0x75, 0x69, 0x6F, 0x70, 0x5B, 0x5D, 0x0A, 0, 0x61, 0x73, 0x64, 0x66, 0x67, 0x68, 0x6A, 0x6B, 0x6C, 0x3B, 0x27,
      0x60, 0, 0x5C, 0x7A, 0x78, 0x63, 0x76, 0x62, 0x6E, 0x6D, 0x2C, 0x2E, 0x2F, 0, 0x2A, 0, 0x20, 0]

/-- `shift_char`. -/
def shiftChar (c : UInt8) : UInt8 :=
  if c = 0x31 then 0x21 else if c = 0x32 then 0x40 else if c = 0x33 then 0x23 else if c = 0x34 then 0x24
  else if c = 0x35 then 0x25 else if c = 0x36 then 0x5E else if c = 0x37 then 0x26 else if c = 0x38 then 0x2A
  else if c = 0x39 then 0x28 else if c = 0x30 then 0x29 else if c = 0x2D then 0x5F else if c = 0x3D then 0x2B
  else if c = 0x5B then 0x7B else if c = 0x5D then 0x7D else if c = 0x5C then 0x7C else if c = 0x3B then 0x3A
  else if c = 0x27 then 0x22 else if c = 0x2C then 0x3C else if c = 0x2E then 0x3E else if c = 0x2F then 0x3F
  else if c = 0x60 then 0x7E else c

namespace Keyboard

variable (s : Keyboard)

/-- `translate_key`. -/
def translateKey (sc : UInt8) : UInt8 :=
  if sc ≥ 128 then 0
  else
    let c := scancodeMap.getD sc.toNat 0
    if c = 0 then 0
    else if isalpha c then
      let upper := s.caps ^^ s.shift
      if upper then toupper c else tolower c
    else if s.shift then shiftChar c else c

/-- `keyboard_handler`. -/
def keyboardHandler (ttyInput : Bool) (sc : UInt8) : Keyboard × List KeyPush :=
  if sc = 0xE0 then ({ s with e0 := true }, [])
  else
    let released := sc &&& 0x80 ≠ 0
    let code := sc &&& 0x7F
    if s.e0 then ({ s with e0 := false }, [])
    else if code = leftShift ∨ code = rightShift then ({ s with shift := !released }, [])
    else if released then (s, [])
    else if code = capsLock then ({ s with caps := !s.caps }, [])
    else
      let ch := s.translateKey code
      if ch ≠ 0 then (s, (if ttyInput then [.tty ch] else []) ++ [.event code true ch]) else (s, [])

/-- The handler at each interrupt. -/
def interrupts : Keyboard → List (Bool × UInt8) → Keyboard × List KeyPush
  | s, [] => (s, [])
  | s, (ttyInput, sc) :: irqs =>
    let (s, pushes) := s.keyboardHandler ttyInput sc
    let (s, pushes') := interrupts s irqs
    (s, pushes ++ pushes')

end Keyboard

end Saynaa
