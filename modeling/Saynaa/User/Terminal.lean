import Saynaa.Dev.Pty
import Saynaa.Libc.Cstring

/-!
# The terminal (`userspace/src/terminal.c`)

The text of the terminal is a string in a block of memory, whose addresses begin at 0. `realloc` is a
parameter: it gives the block of the new size, or `none` for `NULL`. Drawing is the list of the lines that
`redraw` passes to `draw_string`; the rest of the window is left out.
-/

namespace Saynaa

open Lib

def twidth : ℕ := 550
def theight : ℕ := 342
def charWidth : ℕ := 8
def charHeight : ℕ := 16
def margin : ℕ := 8

def byteFf : UInt8 := 0x0C
def byteTab : UInt8 := 0x09

/-- `str_t`. -/
structure TextBuf where
  buf : ℕ → UInt8
  bufLen : ℕ
  len : ℕ

namespace TextBuf

def strPopLast (s : TextBuf) : TextBuf :=
  if s.len = 0 then s else { s with len := s.len - 1, buf := Function.update s.buf (s.len - 1) 0 }

/-- The loop that doubles the capacity. After 32 doublings it is 0 and stays so, and the loop does not end. -/
def growCap (needed : ℕ) : ℕ → ℕ → Option ℕ
  | 0, _ => none
  | passes + 1, cap => if cap < needed then growCap needed passes (cap * 2 % 2 ^ 32) else some cap

variable (realloc : TextBuf → ℕ → Option (ℕ → UInt8))

/-- `strcpy` behind the text. -/
def put (s : TextBuf) (text : List UInt8) (needed : ℕ) : TextBuf :=
  { s with buf := copyIn s.buf s.len (text ++ [0]), len := sub32 needed 1 }

/-- `str_append`; `none` is a loop that does not end. -/
def strAppend (s : TextBuf) (text : List UInt8) : Option (Bool × TextBuf) :=
  let needed := add32 (add32 text.length s.len) 1
  if needed > s.bufLen then
    (growCap needed 33 (if s.bufLen ≠ 0 then s.bufLen else 128)).map fun newCap =>
      match realloc s newCap with
      | none => (false, s)
      | some buf => (true, { s with buf := buf, bufLen := newCap }.put text needed)
  else some (true, s.put text needed)

/-- A number of blanks. -/
def appendBlanks : ℕ → Bool × TextBuf → Option (Bool × TextBuf)
  | 0, r => some r
  | n + 1, (changed, s) => do
    let (ok, s) ← s.strAppend realloc [byteSpace]
    appendBlanks n (changed || ok, s)

/-- A pass of the loop of `append_output`, with the byte that follows in the same call. -/
def appendByte (c : UInt8) (next : Option UInt8) (changed : Bool) (s : TextBuf) : Option (Bool × TextBuf) :=
  if c = byteFf then
    some (true, { s with len := 0, buf := if s.bufLen > 0 then Function.update s.buf 0 0 else s.buf })
  else if c = byteCr ∧ next = some byteNl then some (changed, s)
  else
    let c := if c = byteCr then byteNl else c
    if c = byteBs then some (true, s.strPopLast)
    else if c = byteTab then appendBlanks realloc 4 (changed, s)
    else if charInt c < charInt byteSpace ∧ c ≠ byteNl then some (changed, s)
    else (s.strAppend realloc [c]).map fun (ok, s) => (changed || ok, s)

/-- `append_output`. -/
def appendOutput : List UInt8 → Bool × TextBuf → Option (Bool × TextBuf)
  | [], r => some r
  | c :: data, (changed, s) => do appendOutput data (← appendByte realloc c data.head? changed s)

/-! ### Lines -/

/-- `strchrnul_local`. -/
def strchrnulLocal (q : ℕ → UInt8) (c : UInt8) : ℕ → ℕ → Option ℕ
  | 0, _ => none
  | fuel + 1, p => if q p ≠ 0 ∧ q p ≠ c then strchrnulLocal q c fuel (p + 1) else some p

variable (s : TextBuf) (maxCol : ℕ)

/-- The loop of `count_lines`. -/
def countFrom : ℕ → ℕ → ℕ → Option ℕ
  | 0, _, _ => none
  | fuel + 1, view, n =>
    if view < s.len then do
      let lf ← strchrnulLocal s.buf byteNl fuel view
      let lineLen := sub32 lf view
      countFrom fuel (if lineLen ≤ maxCol then (if s.buf lf = byteNl then lf + 1 else lf) else view + maxCol)
        (add32 n 1)
    else some n

/-- `count_lines`. -/
def countLines (fuel : ℕ) : Option ℕ := s.countFrom maxCol fuel 0 0

/-- `scroll_view`. -/
def scrollView (fuel view : ℕ) : Option ℕ := do
  let lf ← strchrnulLocal s.buf byteNl fuel view
  let lineLen := sub32 lf view
  return if lineLen ≤ maxCol then (if s.buf lf = byteNl then lf + 1 else lf) else view + maxCol

/-- A number of `scroll_view` steps. -/
def scrollViews (fuel : ℕ) : ℕ → ℕ → Option ℕ
  | 0, view => some view
  | k + 1, view => do scrollViews fuel k (← s.scrollView maxCol fuel view)

/-- A call of `draw_string`. -/
structure DrawnLine where
  text : ℕ → UInt8
  x : ℕ
  y : ℕ

def lineBufSize : ℕ := 128

/-- The loop of `redraw`; `lineBuf` is what the buffer holds before. -/
def redrawFrom : ℕ → ℕ → ℕ → (ℕ → UInt8) → Option (List DrawnLine)
  | 0, _, _, _ => none
  | fuel + 1, view, y, lineBuf =>
    if view < s.len then do
      let lf ← strchrnulLocal s.buf byteNl fuel view
      let lineLen := sub32 lf view
      let copy := if lineLen ≤ maxCol then lineLen else maxCol
      let copy := if copy ≥ lineBufSize then lineBufSize - 1 else copy
      let lineBuf := Function.update (strncpy lineBuf 0 s.buf view copy) copy 0
      let line : DrawnLine := ⟨lineBuf, margin, y⟩
      let view := if lineLen ≤ maxCol then (if s.buf lf = byteNl then lf + 1 else lf) else view + maxCol
      let y := add32 y charHeight
      if y ≥ theight then some [line] else (redrawFrom fuel view y lineBuf).map (line :: ·)
    else some []

/-- `WM_TB_HEIGHT` of `libgui`. -/
def tbHeight : ℕ := 30

/-- Where `redraw` begins to draw. -/
def redrawStart (fuel nLines maxLine : ℕ) : Option ℕ :=
  if nLines > maxLine then s.scrollViews maxCol fuel (nLines - maxLine) 0 else some 0

/-- `redraw`. -/
def redraw (fuel : ℕ) (lineBuf : ℕ → UInt8) : Option (List DrawnLine) := do
  let maxCol := twidth / charWidth - 1
  let maxLine := theight / charHeight - 2
  let nLines ← s.countLines maxCol fuel
  let view ← s.redrawStart maxCol fuel nLines maxLine
  s.redrawFrom maxCol fuel view (tbHeight + 4) lineBuf

end TextBuf

end Saynaa
