import Saynaa.Lib.Writes
import Saynaa.Libc.Math

/-!
# Composition of the screen (`userspace/src/wm.c`)

The window manager draws the background, the windows from the first slot to the last, and the
cursor into a back buffer. `compositeFull` and `compositeRect` are the pixel writes that the C
functions make, in their order.

`int32_t` expressions are integers wrapped by `i32`. An address is counted in pixels: it is
`buf + y * pitch + x` in 32 bits of bytes, so 30 bits of pixels.
-/

namespace Saynaa

/-- The frame buffer: `g_screen_w`, `g_screen_h` and `g_pitch_px`, the pixels in memory of a row. -/
structure Screen where
  w : ℕ
  h : ℕ
  pitch : ℕ
  pitch_pos : 0 < pitch
  w_le : w ≤ pitch
  pitch_lt : pitch < 2 ^ 30
  size : h * pitch ≤ 2 ^ 30

/-- The mapped pages of a shared memory object, as pixels. -/
structure Buffer where
  pages : ℕ
  pixel : ℕ → ℕ

/-- The pixels in the pages. -/
def Buffer.size (b : Buffer) : ℕ := 1024 * b.pages

def maxWins : ℕ := 32

theorem maxWins_pos : 0 < maxWins := by decide

/-- `wm_win_t`. -/
structure WmWin where
  inUse : Bool
  winId : ℕ
  ownerPid : ℕ
  flags : ℕ
  w : ℕ
  h : ℕ
  pitchPx : ℕ
  shmId : ℕ
  buf : Option Buffer
  x : ℤ
  y : ℤ

/-- What drawing reads. -/
structure Scene where
  screen : Screen
  wins : Fin maxWins → WmWin
  mx : ℤ
  my : ℤ

/-- A write of one pixel: a colour, or a pixel of a window's buffer. -/
inductive PixelOp where
  | put (dst col : ℕ)
  | copy (dst : ℕ) (buf : Buffer) (src : ℕ)

def PixelOp.dst : PixelOp → ℕ
  | .put dst _ => dst
  | .copy dst _ _ => dst

def PixelOp.color : PixelOp → ℕ
  | .put _ col => col
  | .copy _ buf src => buf.pixel src

/-- The back buffer after the writes. -/
def paint (ops : List PixelOp) (back : ℕ → ℕ) : ℕ → ℕ := Lib.writes (ops.map fun o => (o.dst, o.color)) back

/-- Pixel `x + k` of row `y`, where `k` steps through memory. -/
def pixelAt (pitch : ℕ) (y x : ℤ) (k : ℕ) : ℕ := (ofInt y * pitch % 2 ^ 32 + ofInt x + k) % 2 ^ 30

def background : ℕ := 0xff0b1020
def cursorColor : ℕ := 0xffffffff

def fbFill (pitch w h col : ℕ) : List PixelOp :=
  (List.range h).flatMap fun (y : ℕ) => (List.range w).map fun (x : ℕ) => .put (pixelAt pitch y 0 x) col

/-- The pixels of the cursor that `visible` lets through. -/
def cursorOps (visible : ℤ → ℤ → Bool) (pitch w h : ℕ) (x0 y0 : ℤ) : List PixelOp :=
  (List.range 12).flatMap fun (y : ℕ) =>
    let sy := i32 (y0 + y)
    if sy < 0 ∨ sy ≥ toInt32 h then []
    else
      let span := if y + 1 > 10 then 10 else y + 1
      (List.range span).flatMap fun (x : ℕ) =>
        let sx := i32 (x0 + x)
        if sx < 0 ∨ sx ≥ toInt32 w then []
        else if visible sx sy then [.put (pixelAt pitch sy sx 0) cursorColor] else []

def fbDrawCursor (pitch w h : ℕ) (x0 y0 : ℤ) : List PixelOp := cursorOps (fun _ _ => true) pitch w h x0 y0

def fbDrawCursorClipped (pitch w h : ℕ) (x0 y0 clipX clipY clipW clipH : ℤ) : List PixelOp :=
  let clipX1 := i32 (clipX + clipW)
  let clipY1 := i32 (clipY + clipH)
  cursorOps (fun sx sy => ¬ (sy < clipY ∨ sy ≥ clipY1) ∧ ¬ (sx < clipX ∨ sx ≥ clipX1)) pitch w h x0 y0

/-- The rows of `memcpy`s from a window's buffer; the length of each is cut to 32 bits of bytes. -/
def copyRows (pitch : ℕ) (win : WmWin) (buf : Buffer) (dx dy copyW copyH srcX srcY : ℤ) : List PixelOp :=
  (List.range copyH.toNat).flatMap fun (yy : ℕ) =>
    (List.range (ofInt copyW % 2 ^ 30)).map fun (k : ℕ) =>
      .copy (pixelAt pitch (dy + yy) dx k) buf (pixelAt win.pitchPx (srcY + yy) srcX k)

/-- One window in `composite_full`. -/
def drawWin (sc : Screen) (win : WmWin) : List PixelOp :=
  match win.inUse, win.buf with
  | true, some buf =>
    let sx0 := win.x
    let sy0 := win.y
    let sx1 := i32 (sx0 + toInt32 win.w)
    let sy1 := i32 (sy0 + toInt32 win.h)
    let dx0 := if sx0 < 0 then 0 else sx0
    let dy0 := if sy0 < 0 then 0 else sy0
    let dx1 := if sx1 > toInt32 sc.w then toInt32 sc.w else sx1
    let dy1 := if sy1 > toInt32 sc.h then toInt32 sc.h else sy1
    if dx1 ≤ dx0 ∨ dy1 ≤ dy0 then []
    else copyRows sc.pitch win buf dx0 dy0 (i32 (dx1 - dx0)) (i32 (dy1 - dy0)) (dx0 - sx0) (dy0 - sy0)
  | _, _ => []

def compositeFull (s : Scene) : List PixelOp :=
  fbFill s.screen.pitch s.screen.w s.screen.h background ++
    ((List.finRange maxWins).flatMap fun i => drawWin s.screen (s.wins i)) ++
    fbDrawCursor s.screen.pitch s.screen.w s.screen.h s.mx s.my

structure Rect where
  x : ℤ
  y : ℤ
  w : ℤ
  h : ℤ

/-- The rectangle after the four clipping `if`s. -/
def clipRect (sc : Screen) (r : Rect) : Rect :=
  let r : Rect := if r.x < 0 then { r with w := i32 (r.w + r.x), x := 0 } else r
  let r : Rect := if r.y < 0 then { r with h := i32 (r.h + r.y), y := 0 } else r
  let r : Rect := if i32 (r.x + r.w) > toInt32 sc.w then { r with w := i32 (toInt32 sc.w - r.x) } else r
  if i32 (r.y + r.h) > toInt32 sc.h then { r with h := i32 (toInt32 sc.h - r.y) } else r

/-- The background of a rectangle. -/
def fillRect (pitch : ℕ) (r : Rect) : List PixelOp :=
  (List.range r.h.toNat).flatMap fun (yy : ℕ) =>
    (List.range r.w.toNat).map fun (xx : ℕ) => .put (pixelAt pitch (r.y + yy) r.x xx) background

/-- One window in `composite_rect`. -/
def drawWinIn (sc : Screen) (r : Rect) (win : WmWin) : List PixelOp :=
  match win.inUse, win.buf with
  | true, some buf =>
    let rx1 := i32 (r.x + r.w)
    let ry1 := i32 (r.y + r.h)
    let wx0 := win.x
    let wy0 := win.y
    let wx1 := i32 (wx0 + toInt32 win.w)
    let wy1 := i32 (wy0 + toInt32 win.h)
    let ox0 := if r.x > wx0 then r.x else wx0
    let oy0 := if r.y > wy0 then r.y else wy0
    let ox1 := if rx1 < wx1 then rx1 else wx1
    let oy1 := if ry1 < wy1 then ry1 else wy1
    if ox1 ≤ ox0 ∨ oy1 ≤ oy0 then []
    else copyRows sc.pitch win buf ox0 oy0 (i32 (ox1 - ox0)) (i32 (oy1 - oy0)) (ox0 - wx0) (oy0 - wy0)
  | _, _ => []

def compositeRect (s : Scene) (r : Rect) : List PixelOp :=
  if r.w ≤ 0 ∨ r.h ≤ 0 then []
  else
    let r := clipRect s.screen r
    if r.w ≤ 0 ∨ r.h ≤ 0 then []
    else
      fillRect s.screen.pitch r ++ ((List.finRange maxWins).flatMap fun i => drawWinIn s.screen r (s.wins i)) ++
        fbDrawCursorClipped s.screen.pitch s.screen.w s.screen.h s.mx s.my r.x r.y r.w r.h

end Saynaa
