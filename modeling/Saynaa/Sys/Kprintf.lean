import Saynaa.Libc.Cstring

/-!
# Output to the kernel console (`kernel/src/lib/kprintf.c`, `kernel/src/lib/fb.c`)

Printing is the list of the pixels that are written, each with the arguments of `draw_pixel` and its index in the
frame buffer, and of the glyphs that are looked up. The serial line is left out. `font` is the memory at
`font8x8_basic`, by the index of a glyph, which may be negative, and the row.
-/

namespace Saynaa

def glyphWidth : ℤ := 8
def glyphHeight : ℤ := 8

/-- `fb_t`: each row has room for its pixels, and the address space for all rows. -/
structure KernelFb where
  pitch : ℕ
  width : ℕ
  height : ℕ
  row : 4 * width ≤ pitch
  size : pitch * height < 2 ^ 32

/-- What printing does. -/
inductive ConsoleOp where
  | glyph (index : ℤ)
  | pixel (x y index : ℤ) (color : ℕ)

/-- The globals of `kprintf.c`. -/
structure Console where
  fontScale : ℤ
  posX : ℤ
  posY : ℤ
  posX2 : ℤ
  foreColor : ℕ
  backColor : ℕ

/-- `draw_pixel`. -/
def kernelDrawPixel (fb : KernelFb) (x y : ℤ) (c : ℕ) : ConsoleOp :=
  .pixel x y (toInt32 ((ofInt x + ofInt y * fb.pitch % 2 ^ 32 / 4) % 2 ^ 32)) c

namespace Console

variable (fb : KernelFb) (font : ℤ → ℕ → UInt8) (s : Console)

def setPosText (x y : ℤ) : Console := { s with posX := x, posX2 := x, posY := y }

/-- `clear_screen_internal`. -/
def clearScreenInternal : List ConsoleOp × Console :=
  ((List.range fb.height).flatMap fun (y : ℕ) => (List.range fb.width).map fun (x : ℕ) =>
    .pixel x y ((y * (fb.pitch / 4) + x) % 2 ^ 32 : ℕ) s.backColor, s.setPosText 0 0)

/-- A pixel of a glyph, which is a block of `font_scale` rows and columns. -/
def block (lx ly color : ℕ) : List ConsoleOp :=
  (List.range s.fontScale.toNat).flatMap fun (sy : ℕ) => (List.range s.fontScale.toNat).map fun (sx : ℕ) =>
    kernelDrawPixel fb (i32 (s.posX + lx * s.fontScale + sx)) (i32 (s.posY + ly * s.fontScale + sy)) color

/-- The blocks of a glyph with the colours of its pixels. -/
def blocks (color : ℕ → ℕ → ℕ) : List ConsoleOp :=
  (List.range glyphHeight.toNat).flatMap fun (ly : ℕ) => (List.range glyphWidth.toNat).flatMap fun (lx : ℕ) =>
    s.block fb lx ly (color lx ly)

/-- `print_ch`; `%` is that of signed numbers. -/
def printCh (c : UInt8) : List ConsoleOp :=
  let index := (charInt c).tmod 128
  .glyph index :: s.blocks fb fun lx ly => if (font index ly).toNat >>> lx &&& 1 ≠ 0 then s.foreColor else s.backColor

/-- `vbe_print_char`. The sums are compared with the size of the screen as `uint32_t`. -/
def vbePrintChar (c : UInt8) : List ConsoleOp × Console :=
  if c = 0x0C then s.clearScreenInternal fb
  else if c = 0x0A then ([], { s with posY := i32 (s.posY + glyphHeight * s.fontScale), posX := s.posX2 })
  else if c = 0x0D then ([], { s with posX := s.posX2 })
  else if c = 0x08 then
    if s.posX ≥ glyphWidth * s.fontScale then
      let s := { s with posX := i32 (s.posX - glyphWidth * s.fontScale) }
      (s.blocks fb fun _ _ => s.backColor, s)
    else ([], s)
  else
    let ops := s.printCh fb font c
    let s := { s with posX := i32 (s.posX + glyphWidth * s.fontScale) }
    if ofInt (s.posX + glyphWidth * s.fontScale) ≥ fb.width then
      let s := { s with posX := s.posX2, posY := i32 (s.posY + glyphHeight * s.fontScale) }
      (ops, if ofInt (s.posY + glyphHeight * s.fontScale) > fb.height then { s with posY := 0 } else s)
    else (ops, s)

/-- Bytes that are printed one after the other, as in `put_string` and `ttydev_write_line`. -/
def printAll : Console → List UInt8 → List ConsoleOp × Console
  | s, [] => ([], s)
  | s, c :: bytes =>
    let (ops, s) := s.vbePrintChar fb font c
    let (ops', s) := printAll s bytes
    (ops ++ ops', s)

end Console

end Saynaa
