import Saynaa.Lib.Loop
import Saynaa.Lib.Wrap
import Saynaa.Proof.Terminal

/-!
# The lines of the terminal

* `ViewIs`: a view into the text, by the text behind it. `next_ok`: a line is passed.
* `countLines_ok`, `scrollViews_ok`, `redrawFrom_ok`: the three loops go from piece to piece of `wrapLines`.
* `last_lines`: the last pieces are left after scrolling; `redraw_lines`: and are drawn.
-/

namespace Saynaa

open Lib TextBuf

variable {s : TextBuf} {T l : List UInt8} {q : ℕ → UInt8} {view fuel n maxCol k y : ℕ}

/-- `text_view` points to the part `l` of the text. -/
structure ViewIs (s : TextBuf) (view : ℕ) (l : List UInt8) : Prop where
  str : CStr s.buf view l
  len : view + l.length = s.len

theorem TextIs.whole (h : TextIs s T) : ViewIs s 0 T := ⟨h.str, by rw [zero_add, h.len]⟩

/-- The part of a text up to the next newline. -/
def lineOf (l : List UInt8) : List UInt8 := l.takeWhile (· ≠ byteNl)

theorem strchrnul_ok (h : CStr q view l) (hf : l.length < fuel) :
    strchrnulLocal q byteNl fuel view = some (view + (lineOf l).length) := by
  induction l generalizing view fuel with
  | nil =>
    obtain ⟨k, rfl⟩ : ∃ k, fuel = k + 1 := ⟨fuel - 1, by omega⟩
    exact if_neg fun hc => hc.1 h
  | cons c l ih =>
    rw [List.length_cons] at hf
    obtain ⟨k, rfl⟩ : ∃ k, fuel = k + 1 := ⟨fuel - 1, by omega⟩
    have h0 : q view ≠ 0 := h.1 ▸ h.2.1
    unfold strchrnulLocal lineOf
    by_cases hc : c = byteNl
    · rw [if_neg fun hn => hn.2 (h.1.trans hc), List.takeWhile_cons_of_neg (by simpa using hc)]
      rfl
    · rw [if_pos ⟨h0, fun hq => hc (h.1.symm.trans hq)⟩, List.takeWhile_cons_of_pos (by simpa using hc),
        ih h.tail (by omega), List.length_cons]
      exact congrArg some (by unfold lineOf; omega)

/-- The three copies of the step: the length of the line, and the view behind its first piece. -/
theorem next_ok (maxCol : ℕ) (h : ViewIs s view l) (hlen : s.len < 2 ^ 32) :
    sub32 (view + (lineOf l).length) view = (lineOf l).length ∧
      ViewIs s (if (lineOf l).length ≤ maxCol then
          (if s.buf (view + (lineOf l).length) = byteNl then view + (lineOf l).length + 1
            else view + (lineOf l).length)
        else view + maxCol) (advance byteNl maxCol l) := by
  have hle : (lineOf l).length ≤ l.length := (List.takeWhile_prefix _).length_le
  have hl := h.len
  refine ⟨?_, ?_⟩
  · rw [sub32_of_le (by omega) (by omega)]
    omega
  obtain ⟨-, hcases⟩ := span_cases byteNl l
  have happ : lineOf l ++ l.dropWhile (· ≠ byteNl) = l := List.takeWhile_append_dropWhile
  have hadv : advance byteNl maxCol l =
      if (lineOf l).length ≤ maxCol then (l.dropWhile (· ≠ byteNl)).tail else l.drop maxCol := rfl
  rw [hadv]
  by_cases hshort : (lineOf l).length ≤ maxCol
  · rw [if_pos hshort, if_pos hshort]
    have hrest : CStr s.buf (view + (lineOf l).length) (l.dropWhile (· ≠ byteNl)) := by
      have h1 : CStr s.buf view (lineOf l ++ l.dropWhile (· ≠ byteNl)) := by rw [happ]; exact h.str
      exact h1.drop
    rcases hcases with ⟨heq, hnil⟩ | heq
    · -- the end of the text
      have hlast : lineOf l = l := heq.symm
      rw [hnil] at hrest ⊢
      have hz : s.buf (view + (lineOf l).length) = 0 := hrest
      rw [hz, if_neg (by decide), List.tail_nil]
      exact ⟨hrest, by rw [hlast, List.length_nil]; omega⟩
    · have hcons : l.dropWhile (· ≠ byteNl) = byteNl :: (l.dropWhile (· ≠ byteNl)).tail := by
        have h1 : lineOf l ++ l.dropWhile (· ≠ byteNl) = lineOf l ++ byteNl :: (l.dropWhile (· ≠ byteNl)).tail :=
          happ.trans heq
        exact List.append_cancel_left h1
      rw [hcons] at hrest
      rw [if_pos hrest.1]
      refine ⟨hrest.tail, ?_⟩
      have hsum := congrArg List.length happ
      rw [hcons, List.length_append, List.length_cons] at hsum
      omega
  · rw [if_neg hshort, if_neg hshort]
    have h1 : CStr s.buf view (l.take maxCol ++ l.drop maxCol) := by rw [List.take_append_drop]; exact h.str
    have h2 := h1.drop
    rw [List.length_take, min_eq_left (by omega)] at h2
    exact ⟨h2, by rw [List.length_drop]; omega⟩

theorem ViewIs.lt_iff (h : ViewIs s view l) : view < s.len ↔ l ≠ [] := by
  have hl := h.len
  rw [← List.length_pos_iff]
  omega

/-! ### Counting and scrolling -/

theorem countFrom_ok (hn : 0 < maxCol) (h : ViewIs s view l) (hlen : s.len < 2 ^ 32) (hf : l.length + 1 < fuel)
    (hk : k + l.length < 2 ^ 32) :
    s.countFrom maxCol fuel view k = some (k + (wrapLines byteNl maxCol l).length) := by
  induction l using wrapLines_induction (a := byteNl) hn generalizing view fuel k with
  | hnil =>
    obtain ⟨fuel, rfl⟩ : ∃ m, fuel = m + 1 := ⟨fuel - 1, by omega⟩
    unfold countFrom
    rw [if_neg fun hlt => h.lt_iff.1 hlt rfl, wrapLines_nil]
    rfl
  | hstep l hl ih =>
    obtain ⟨fuel, rfl⟩ : ∃ m, fuel = m + 1 := ⟨fuel - 1, by omega⟩
    obtain ⟨hsub, hnext⟩ := next_ok maxCol h hlen
    have hadv := advance_lt (a := byteNl) hn hl
    unfold countFrom
    rw [if_pos (h.lt_iff.2 hl), strchrnul_ok h.str (by omega)]
    simp only [Option.bind_eq_bind, Option.bind_some]
    rw [hsub, add32_of_lt (by omega), ih hnext (by omega) (by omega), wrapLines_step hn hl, List.length_cons]
    exact congrArg some (by omega)

theorem scrollViews_ok (hn : 0 < maxCol) (h : ViewIs s view l) (hlen : s.len < 2 ^ 32)
    (hk : k ≤ (wrapLines byteNl maxCol l).length) :
    ∃ view' l', (∀ fuel, l.length < fuel → s.scrollViews maxCol fuel k view = some view') ∧
      ViewIs s view' l' ∧ wrapLines byteNl maxCol l' = (wrapLines byteNl maxCol l).drop k := by
  induction k generalizing view l with
  | zero => exact ⟨view, l, fun _ _ => rfl, h, rfl⟩
  | succ k ih =>
    have hl : l ≠ [] := by
      rintro rfl
      rw [wrapLines_nil] at hk
      exact absurd hk (by simp)
    obtain ⟨hsub, hnext⟩ := next_ok maxCol h hlen
    have hadv := advance_lt (a := byteNl) hn hl
    rw [wrapLines_step hn hl, List.length_cons] at hk
    obtain ⟨view', l', h1, h2, h3⟩ := ih hnext (by omega)
    refine ⟨view', l', fun fuel hf => ?_, h2, ?_⟩
    · unfold scrollViews scrollView
      rw [strchrnul_ok h.str hf]
      simp only [Option.bind_eq_bind, Option.bind_some, Option.pure_def]
      rw [hsub]
      exact h1 fuel (by omega)
    · rw [h3, wrapLines_step hn hl, List.drop_succ_cons]

/-! ### Drawing -/

/-- What is copied of a line is its first piece. -/
theorem copied_eq (hlt : maxCol < lineBufSize) (l : List UInt8) :
    let copy := if (lineOf l).length ≤ maxCol then (lineOf l).length else maxCol
    l.take (if copy ≥ lineBufSize then lineBufSize - 1 else copy) = (lineOf l).take maxCol := by
  have hline : lineOf l = l.take (lineOf l).length := List.prefix_iff_eq_take.1 (List.takeWhile_prefix _)
  have hcopy : (if (lineOf l).length ≤ maxCol then (lineOf l).length else maxCol) = min maxCol (lineOf l).length := by
    split_ifs <;> omega
  simp only
  rw [hcopy, if_neg (by omega)]
  conv_rhs => rw [hline]
  rw [List.take_take]

theorem redrawFrom_ok (hn : 0 < maxCol) (hlt : maxCol < lineBufSize) (h : ViewIs s view l) (hlen : s.len < 2 ^ 32)
    (hy : y + charHeight * (wrapLines byteNl maxCol l).length < theight + charHeight) (lineBuf : ℕ → UInt8) :
    ∃ lines, (∀ fuel, l.length + 1 < fuel → s.redrawFrom maxCol fuel view y lineBuf = some lines) ∧
      List.Forall₂ (fun (line : DrawnLine) piece => CStr line.text 0 piece ∧ line.x = margin) lines
        (wrapLines byteNl maxCol l) ∧
      lines.map DrawnLine.y = (List.range lines.length).map fun i => y + charHeight * i := by
  have htall : theight = 342 := rfl
  have hchar : charHeight = 16 := rfl
  induction l using wrapLines_induction (a := byteNl) hn generalizing view y lineBuf with
  | hnil =>
    refine ⟨[], fun fuel hf => ?_, by rw [wrapLines_nil]; exact .nil, rfl⟩
    obtain ⟨fuel, rfl⟩ : ∃ m, fuel = m + 1 := ⟨fuel - 1, by omega⟩
    unfold redrawFrom
    rw [if_neg fun hlt => h.lt_iff.1 hlt rfl]
  | hstep l hl ih =>
    obtain ⟨hsub, hnext⟩ := next_ok maxCol h hlen
    have hadv := advance_lt (a := byteNl) hn hl
    rw [wrapLines_step hn hl, List.length_cons] at hy
    rw [hchar] at hy ih ⊢
    have hy' : add32 y 16 = y + 16 := add32_of_lt (by omega)
    -- the piece that is copied
    set copy :=
      if (if (lineOf l).length ≤ maxCol then (lineOf l).length else maxCol) ≥ lineBufSize then lineBufSize - 1
      else if (lineOf l).length ≤ maxCol then (lineOf l).length else maxCol with hcopy
    have hpiece : CStr (Function.update (strncpy lineBuf 0 s.buf view copy) copy 0) 0 ((lineOf l).take maxCol) := by
      rw [← copied_eq hlt l]
      exact strncpy_cstr h.str lineBuf copy
    obtain ⟨lines, h1, h2, h3⟩ : ∃ lines, (∀ fuel, l.length < fuel → ¬ y + 16 ≥ theight →
          s.redrawFrom maxCol fuel (if (lineOf l).length ≤ maxCol then
              (if s.buf (view + (lineOf l).length) = byteNl then view + (lineOf l).length + 1
                else view + (lineOf l).length)
            else view + maxCol) (y + 16) (Function.update (strncpy lineBuf 0 s.buf view copy) copy 0) = some lines) ∧
        List.Forall₂ (fun (line : DrawnLine) piece => CStr line.text 0 piece ∧ line.x = margin) lines
          (wrapLines byteNl maxCol (advance byteNl maxCol l)) ∧
        lines.map DrawnLine.y = (List.range lines.length).map fun i => y + 16 + 16 * i := by
      by_cases hlast : y + 16 ≥ theight
      · have hzero : (wrapLines byteNl maxCol (advance byteNl maxCol l)).length = 0 := by omega
        rw [List.eq_nil_of_length_eq_zero hzero]
        exact ⟨[], fun _ _ h => absurd hlast h, .nil, rfl⟩
      · obtain ⟨lines, h1, h2, h3⟩ := ih hnext (show y + 16 + 16 * _ < _ by omega)
          (Function.update (strncpy lineBuf 0 s.buf view copy) copy 0)
        exact ⟨lines, fun fuel hf _ => h1 fuel (by omega), h2, h3⟩
    refine ⟨⟨Function.update (strncpy lineBuf 0 s.buf view copy) copy 0, margin, y⟩ :: lines, fun fuel hf => ?_,
      ?_, ?_⟩
    · obtain ⟨fuel, rfl⟩ : ∃ m, fuel = m + 1 := ⟨fuel - 1, by omega⟩
      unfold redrawFrom
      rw [if_pos (h.lt_iff.2 hl), strchrnul_ok h.str (by omega)]
      simp only [Option.bind_eq_bind, Option.bind_some]
      rw [hsub, hchar, hy', ← hcopy]
      by_cases hlast : y + 16 ≥ theight
      · -- the screen is full, and so is the text
        have hzero : lines = [] := by
          rw [List.eq_nil_of_length_eq_zero
            (show (wrapLines byteNl maxCol (advance byteNl maxCol l)).length = 0 by omega)] at h2
          exact List.forall₂_nil_right_iff.1 h2
        rw [if_pos hlast, hzero]
      · rw [if_neg hlast, h1 fuel (by omega) hlast]
        rfl
    · rw [wrapLines_step hn hl]
      exact .cons ⟨hpiece, rfl⟩ h2
    · rw [List.map_cons, h3, List.length_cons, List.range_succ_eq_map, List.map_cons, List.map_map, mul_zero,
        add_zero]
      exact congrArg (y :: ·) (List.map_congr_left fun i _ => by simp only [Function.comp]; omega)

/-! ### The last lines -/

/-- **The terminal shows the last lines** of the text `T`.
* `counted`: `count_lines` counts the pieces.
* `scrolled`: each `scroll_view` passes one of them.
* `last`: the view after the scrolling of `redraw` is the last pieces.
* `piece`, `whole`: what the pieces are. -/
structure ShowsLast (s : TextBuf) (T : List UInt8) (maxCol maxLine : ℕ) : Prop where
  counted : Returns (s.countLines maxCol) (wrapLines byteNl maxCol T).length
  scrolled : ∀ k ≤ (wrapLines byteNl maxCol T).length, ∃ view l,
    Returns (fun fuel => s.scrollViews maxCol fuel k 0) view ∧
    ViewIs s view l ∧ wrapLines byteNl maxCol l = (wrapLines byteNl maxCol T).drop k
  last : maxLine < (wrapLines byteNl maxCol T).length → ∃ view l,
    Returns (fun fuel => s.scrollViews maxCol fuel ((wrapLines byteNl maxCol T).length - maxLine) 0) view ∧
      ViewIs s view l ∧
    wrapLines byteNl maxCol l = (wrapLines byteNl maxCol T).drop ((wrapLines byteNl maxCol T).length - maxLine) ∧
      (wrapLines byteNl maxCol l).length = maxLine
  piece : ∀ w ∈ wrapLines byteNl maxCol T, w.length ≤ maxCol ∧ byteNl ∉ w
  whole : ∃ seps : List (List UInt8), seps.length = (wrapLines byteNl maxCol T).length ∧
    (∀ x ∈ seps, x = [] ∨ x = [byteNl]) ∧ (List.zipWith (· ++ ·) (wrapLines byteNl maxCol T) seps).flatten = T

/-- The lines that `redraw` draws, with its own numbers of columns and lines. -/
def DrawsLast (s : TextBuf) (T : List UInt8) : Prop :=
  ∀ lineBuf, ∃ lines, Returns (fun fuel => s.redraw fuel lineBuf) lines ∧
    List.Forall₂ (fun (line : DrawnLine) piece => CStr line.text 0 piece ∧ line.x = margin) lines
      ((wrapLines byteNl 67 T).drop ((wrapLines byteNl 67 T).length - 19)) ∧
    lines.map DrawnLine.y = (List.range lines.length).map fun i => tbHeight + 4 + charHeight * i

theorem countLines_ok (h : TextIs s T) (hn : 0 < maxCol) (hf : T.length + 1 < fuel) :
    s.countLines maxCol fuel = some (wrapLines byteNl maxCol T).length := by
  have hroom := h.room
  have hsize := h.size
  unfold countLines
  rw [countFrom_ok hn h.whole (by rw [h.len]; omega) hf (by omega), zero_add]

theorem TextIs.lt (h : TextIs s T) : s.len < 2 ^ 32 := by
  have hroom := h.room
  have hsize := h.size
  rw [h.len]
  omega

/-- **`redraw`** draws the last pieces. -/
theorem redraw_lines (h : TextIs s T) : DrawsLast s T := by
  have hscroll : ∃ view l,
    (∀ fuel, T.length + 1 < fuel → s.redrawStart 67 fuel (wrapLines byteNl 67 T).length 19 = some view) ∧
      ViewIs s view l ∧ wrapLines byteNl 67 l = (wrapLines byteNl 67 T).drop
        ((wrapLines byteNl 67 T).length - 19) := by
    by_cases hmany : (wrapLines byteNl 67 T).length > 19
    · obtain ⟨view, l, h1, h2, h3⟩ := scrollViews_ok (by norm_num : 0 < 67) h.whole h.lt (Nat.sub_le _ 19)
      exact ⟨view, l, fun fuel hf => (if_pos hmany).trans (h1 fuel (by omega)), h2, h3⟩
    · exact ⟨0, T, fun _ _ => if_neg hmany, h.whole, by rw [Nat.sub_eq_zero_of_le (not_lt.1 hmany)]; rfl⟩
  obtain ⟨view, l, hview, hl, hpieces⟩ := hscroll
  have hfew : (wrapLines byteNl 67 l).length ≤ 19 := by
    rw [hpieces, List.length_drop]
    omega
  intro lineBuf
  have hfits : tbHeight + 4 + charHeight * (wrapLines byteNl 67 l).length < theight + charHeight := by
    show 34 + 16 * (wrapLines byteNl 67 l).length < 342 + 16
    omega
  obtain ⟨lines, h1, h2, h3⟩ := redrawFrom_ok (by norm_num) (show 67 < lineBufSize by decide) hl h.lt hfits lineBuf
  rw [hpieces] at h2
  refine ⟨lines, ⟨s.len + 1, fun fuel hf => ?_⟩, h2, h3⟩
  have hlen := hl.len
  have hT := h.len
  unfold redraw
  show (s.countLines 67 fuel).bind _ = _
  rw [countLines_ok h (by norm_num) (by omega), Option.bind_some]
  show (s.redrawStart 67 fuel (wrapLines byteNl 67 T).length 19).bind _ = _
  rw [hview fuel (by omega), Option.bind_some]
  exact h1 fuel (by omega)

/-- **The terminal shows the last lines** of every text, for every number of columns and lines. -/
theorem last_lines (h : TextIs s T) (hn : 1 ≤ maxCol) (maxLine : ℕ) :
    ShowsLast s T maxCol maxLine ∧ DrawsLast s T := by
  have hscrolled : ∀ k ≤ (wrapLines byteNl maxCol T).length, ∃ view l,
    Returns (fun fuel => s.scrollViews maxCol fuel k 0) view ∧
      ViewIs s view l ∧ wrapLines byteNl maxCol l = (wrapLines byteNl maxCol T).drop k := by
    intro k hk
    obtain ⟨view, l, h1, h2, h3⟩ := scrollViews_ok hn h.whole h.lt hk
    exact ⟨view, l, ⟨T.length, h1⟩, h2, h3⟩
  refine ⟨⟨⟨T.length + 1, fun fuel hf => countLines_ok h hn hf⟩, hscrolled, fun hlt => ?_, fun w hw =>
    mem_wrapLines hn hw, wrapLines_rejoin hn T⟩, redraw_lines h⟩
  obtain ⟨view, l, h1, h2, h3⟩ := hscrolled _ (Nat.sub_le _ maxLine)
  refine ⟨view, l, h1, h2, h3, ?_⟩
  rw [h3, List.length_drop]
  omega

/-- A text of two lines, and `T` in a buffer with room for one byte more. -/
def twoLines : List UInt8 := [97, 98, byteNl, 99, 100, 101, byteNl]

def bufferOf (T : List UInt8) : TextBuf := ⟨fun i => T.getD i 0, T.length + 1, T.length⟩

/-- In two columns the text has three pieces, of which there is room for two. -/
theorem last_lines_two : ShowsLast (bufferOf twoLines) twoLines 2 2 ∧ DrawsLast (bufferOf twoLines) twoLines := by
  have htext : TextIs (bufferOf twoLines) twoLines := by
    refine ⟨?_, rfl, by decide, by decide⟩
    simp [twoLines, bufferOf, byteNl]
  exact last_lines htext (by norm_num) 2

end Saynaa
