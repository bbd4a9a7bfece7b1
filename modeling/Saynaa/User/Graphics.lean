import Saynaa.Libc.Math

/-!
# Drawing into a window (`libraries/libgui/src/graphics.c`)

A result is the list of the words that are stored, each with its address. Sums of `int`s are checked: a function
has no result if one of them is not representable.
-/

namespace Saynaa

/-- `fb_t` of 32 bits per pixel: each row has room for its pixels, and the address space for all rows. -/
structure GuiFb where
  address : ℕ
  pitch : ℕ
  width : ℕ
  height : ℕ
  bpp : ℕ
  depth : bpp = 32
  words : pitch < 2 ^ 32 ∧ height < 2 ^ 32
  row : 4 * width ≤ pitch
  size : address + pitch * height ≤ 2 ^ 32

/-- The value of an expression of type `int`. -/
def int32 (x : ℤ) : Option ℤ := if -2 ^ 31 ≤ x ∧ x < 2 ^ 31 then some x else none

/-- `abs`. -/
def intAbs (num : ℤ) : Option ℤ := if num < 0 then int32 (-num) else some num

namespace GuiFb

variable (fb : GuiFb)

/-- `pixel_offset`. -/
def pixelOffset (x y : ℕ) : ℕ := (fb.address + y * fb.pitch + x * (fb.bpp / 8)) % 2 ^ 32

/-- `draw_pixel`. -/
def drawPixel (x y : ℤ) (col : ℕ) : List (ℕ × ℕ) :=
  if x < 0 ∨ y < 0 ∨ x ≥ toInt32 fb.width ∨ y ≥ toInt32 fb.height then []
  else [(fb.pixelOffset (ofInt x) (ofInt y), col)]

/-- `n` words from `offset` on. -/
def storeRow (col offset n : ℕ) : List (ℕ × ℕ) := (List.range n).map fun i => ((offset + 4 * i) % 2 ^ 32, col)

/-- One row for each offset, which moves on by the pitch. -/
def storeRows (col w : ℕ) : ℕ → ℕ → List (ℕ × ℕ)
  | _, 0 => []
  | offset, n + 1 => storeRow col offset w ++ storeRows col w ((offset + fb.pitch) % 2 ^ 32) n

/-- One word for each offset. -/
def storeColumn (col : ℕ) : ℕ → ℕ → List (ℕ × ℕ)
  | _, 0 => []
  | offset, n + 1 => (offset, col) :: storeColumn col ((offset + fb.pitch) % 2 ^ 32) n

/-- The part of a span within a limit, which is what `draw_line_horizontal` and `draw_line_vertical` store. -/
def drawSpan (limit : ℤ) (store : ℤ → ℕ → List (ℕ × ℕ)) (a0 a1 : ℤ) : Option (List (ℕ × ℕ)) :=
  let (a0, a1) := if a0 > a1 then (a1, a0) else (a0, a1)
  if a1 < 0 ∨ a0 ≥ limit then some []
  else do
    let a0 := if a0 < 0 then 0 else a0
    let a1 ← (if a1 ≥ limit then int32 (limit - 1) else some a1)
    let last ← int32 (a1 - a0)
    -- the loop runs from 0 to `last`
    return store a0 (last + 1).toNat

/-- `draw_line_horizontal`. -/
def drawLineHorizontal (x0 x1 y : ℤ) (col : ℕ) : Option (List (ℕ × ℕ)) :=
  if y < 0 ∨ y ≥ toInt32 fb.height then some []
  else drawSpan (toInt32 fb.width) (fun x n => storeRow col (fb.pixelOffset (ofInt x) (ofInt y)) n) x0 x1

/-- `draw_line_vertical`. -/
def drawLineVertical (x y0 y1 : ℤ) (col : ℕ) : Option (List (ℕ × ℕ)) :=
  if x < 0 ∨ x ≥ toInt32 fb.width then some []
  else drawSpan (toInt32 fb.height) (fun y n => fb.storeColumn col (fb.pixelOffset (ofInt x) (ofInt y)) n) y0 y1

/-- `draw_rect`. -/
def drawRect (x y w h : ℤ) (col : ℕ) : Option (List (ℕ × ℕ)) :=
  if w ≤ 0 ∨ h ≤ 0 then some []
  else do
    let x1 ← int32 (x + w)
    let y1 ← int32 (y + h)
    if x1 ≤ 0 ∨ y1 ≤ 0 ∨ x ≥ toInt32 fb.width ∨ y ≥ toInt32 fb.height then return []
    let x0 := if x < 0 then 0 else x
    let y0 := if y < 0 then 0 else y
    let x1 := if x1 > toInt32 fb.width then toInt32 fb.width else x1
    let y1 := if y1 > toInt32 fb.height then toInt32 fb.height else y1
    let offset := fb.pixelOffset (ofInt x0) (ofInt y0)
    let drawW ← int32 (x1 - x0)
    let drawH ← int32 (y1 - y0)
    return fb.storeRows col drawW.toNat offset drawH.toNat

/-- `draw_border`. -/
def drawBorder (x y w h : ℤ) (col : ℕ) : Option (List (ℕ × ℕ)) :=
  if w ≤ 0 ∨ h ≤ 0 then some []
  else do
    let right ← (int32 (x + w)).bind fun e => int32 (e - 1)
    let bottom ← (int32 (y + h)).bind fun e => int32 (e - 1)
    let top ← fb.drawLineHorizontal x right y col
    let base ← fb.drawLineHorizontal x right bottom col
    let side ← fb.drawLineVertical x y bottom col
    let side' ← fb.drawLineVertical right y bottom col
    return top ++ base ++ side ++ side'

end GuiFb

/-! ### Sloped lines -/

/-- The points of a line from the loop on, for `n` more steps along `a`; `b` moves where the error is positive. -/
def slopeLoop (point : ℤ → ℤ → ℤ × ℤ) (da db bi : ℤ) : ℕ → ℤ → ℤ → ℤ → Option (List (ℤ × ℤ))
  | 0, _, _, _ => some []
  | n + 1, a, b, D => do
    let (b', D) ← (if D > 0 then do
        let b ← int32 (b + bi)
        let d ← int32 (2 * da)
        let D ← int32 (D - d)
        return (b, D)
      else some (b, D))
    let d ← int32 (2 * db)
    let D ← int32 (D + d)
    let a' ← int32 (a + 1)
    let points ← slopeLoop point da db bi n a' b' D
    return point a b :: points

/-- A line that is drawn along `a`: the calls of `draw_pixel`. -/
def drawLineAlong (point : ℤ → ℤ → ℤ × ℤ) (a0 b0 a1 b1 : ℤ) : Option (List (ℤ × ℤ)) := do
  let da ← int32 (a1 - a0)
  let db ← int32 (b1 - b0)
  let (bi, db) ← (if db < 0 then (int32 (-db)).map fun db => (-1, db) else some (1, db))
  let d ← int32 (2 * db)
  let D ← int32 (d - da)
  slopeLoop point da db bi (a1 - a0).toNat a0 b0 D

/-- `draw_line_low`. -/
def drawLineLow (x0 y0 x1 y1 : ℤ) : Option (List (ℤ × ℤ)) := drawLineAlong (fun x y => (x, y)) x0 y0 x1 y1

/-- `draw_line_high`. -/
def drawLineHigh (x0 y0 x1 y1 : ℤ) : Option (List (ℤ × ℤ)) := drawLineAlong (fun y x => (x, y)) y0 x0 y1 x1

/-- The calls of `draw_pixel` in `draw_line`, for a sloped line. -/
def slopedPoints (x0 y0 x1 y1 : ℤ) : Option (List (ℤ × ℤ)) := do
  let dy ← (int32 (y1 - y0)).bind intAbs
  let dx ← (int32 (x1 - x0)).bind intAbs
  if dy < dx then if x0 > x1 then drawLineLow x1 y1 x0 y0 else drawLineLow x0 y0 x1 y1
  else if y0 > y1 then drawLineHigh x1 y1 x0 y0 else drawLineHigh x0 y0 x1 y1

/-- `draw_line`. -/
def GuiFb.drawLine (fb : GuiFb) (x0 y0 x1 y1 : ℤ) (col : ℕ) : Option (List (ℕ × ℕ)) :=
  if y0 = y1 then fb.drawLineHorizontal x0 x1 y0 col
  else if x0 = x1 then fb.drawLineVertical x0 y0 y1 col
  else (slopedPoints x0 y0 x1 y1).map fun points => points.flatMap fun p => fb.drawPixel p.1 p.2 col

end Saynaa
