import Saynaa.Lib.Loop
import Saynaa.Sys.Kprintf

/-!
# The kernel console stays on the screen

* `ConsoleOK`: the cursor leaves room for a glyph in its row.
* `PrintFits`: the bytes that may be printed in a state.
* `print_inside`: exactly these write no pixel off the screen and look up no glyph outside of the font.
* `console_stays`: so for every sequence of bytes.
-/

namespace Saynaa

open Console
open Lib (forall_splits_nil forall_splits_cons)

variable {fb : KernelFb} {font : ℤ → ℕ → UInt8} {s : Console} {c : UInt8} {bytes : List UInt8}

/-- Pixels on the screen, glyphs in the font. -/
def ConsoleOp.Inside (fb : KernelFb) : ConsoleOp → Prop
  | .glyph i => 0 ≤ i ∧ i ≤ 127
  | .pixel x y _ _ => 0 ≤ x ∧ x < fb.width ∧ 0 ≤ y ∧ y < fb.height

/-- **The invariant of the cursor**: there is room for a glyph in its row. -/
structure ConsoleOK (fb : KernelFb) (s : Console) : Prop where
  scale : 1 ≤ s.fontScale
  width : 8 * s.fontScale ≤ fb.width
  height : 8 * s.fontScale ≤ fb.height
  start : s.posX2 = 0
  left : 0 ≤ s.posX
  right : s.posX + 8 * s.fontScale ≤ fb.width
  y : -2 ^ 31 ≤ s.posY ∧ s.posY < 2 ^ 31

/-- The cursor is not below the last row of glyphs. -/
def RowFits (fb : KernelFb) (s : Console) : Prop := 0 ≤ s.posY ∧ s.posY + 8 * s.fontScale ≤ fb.height

/-- **What may be printed**: control characters, but a backspace that erases a glyph and a printed character only
in a row of the screen, and of the characters only those of the font, and 128. -/
def PrintFits (fb : KernelFb) (s : Console) (c : UInt8) : Prop :=
  if c = 0x0C ∨ c = 0x0A ∨ c = 0x0D then True
  else if c = 0x08 then 8 * s.fontScale ≤ s.posX → RowFits fb s
  else c.toNat ≤ 128 ∧ RowFits fb s

theorem fb_lt (fb : KernelFb) (hw : 0 < fb.width) (hh : 0 < fb.height) : fb.width < 2 ^ 30 ∧ fb.height < 2 ^ 30 := by
  have h1 := fb.row
  have h2 := fb.size
  have h3 : fb.pitch * 1 ≤ fb.pitch * fb.height := Nat.mul_le_mul_left fb.pitch hh
  have h4 : 4 * fb.height ≤ fb.pitch * fb.height := Nat.mul_le_mul_right fb.height (by omega)
  omega

/-- **The blocks of a glyph** lie on the screen just if the row does. -/
theorem blocks_inside (h : ConsoleOK fb s) (color : ℕ → ℕ → ℕ) :
    (∀ op ∈ s.blocks fb color, op.Inside fb) ↔ RowFits fb s := by
  obtain ⟨h1, h2, h3, -, h5, h6, h7, h8⟩ := h
  have hlt := fb_lt fb (by omega) (by omega)
  have hmem : ∀ op, op ∈ s.blocks fb color ↔ ∃ ly < 8, ∃ lx < 8, ∃ sy < s.fontScale.toNat, ∃ sx < s.fontScale.toNat,
      kernelDrawPixel fb (i32 (s.posX + (lx : ℕ) * s.fontScale + (sx : ℕ)))
        (i32 (s.posY + (ly : ℕ) * s.fontScale + (sy : ℕ)))
        (color lx ly) = op := by
    intro op
    have hw : glyphWidth.toNat = 8 := rfl
    have hh : glyphHeight.toNat = 8 := rfl
    unfold blocks block
    simp only [List.mem_flatMap, List.mem_map, List.mem_range, hw, hh]
  have hcell : ∀ (l k : ℕ), l < 8 → k < s.fontScale.toNat →
      0 ≤ l * s.fontScale + k ∧ l * s.fontScale + k < 8 * s.fontScale := by
    intro l k hl hk
    have h7 : (l : ℤ) * s.fontScale ≤ 7 * s.fontScale := mul_le_mul_of_nonneg_right (by omega) (by omega)
    have h0 : 0 ≤ (l : ℤ) * s.fontScale := mul_nonneg (by omega) (by omega)
    omega
  constructor
  · -- the first and the last block of the glyph are enough
    intro hin
    have hfirst := hin _ ((hmem _).2 ⟨0, by omega, 0, by omega, 0, by omega, 0, by omega, rfl⟩)
    have hlast := hin _ ((hmem _).2 ⟨7, by omega, 0, by omega, (s.fontScale - 1).toNat, by omega, 0, by omega, rfl⟩)
    obtain ⟨-, -, hy, -⟩ := hfirst
    obtain ⟨-, -, hy', hy''⟩ := hlast
    unfold i32 toInt32 ofInt at hy hy' hy''
    unfold RowFits
    push_cast at hy hy' hy''
    split_ifs at hy hy' hy'' <;> omega
  · rintro ⟨hy, hy'⟩ op hop
    obtain ⟨ly, hly, lx, hlx, sy, hsy, sx, hsx, rfl⟩ := (hmem op).1 hop
    obtain ⟨hx1, hx2⟩ := hcell lx sx hlx hsx
    obtain ⟨hy1, hy2⟩ := hcell ly sy hly hsy
    have hX : i32 (s.posX + lx * s.fontScale + sx) = s.posX + lx * s.fontScale + sx :=
      i32_of_mem (by omega) (by omega)
    have hY : i32 (s.posY + ly * s.fontScale + sy) = s.posY + ly * s.fontScale + sy :=
      i32_of_mem (by omega) (by omega)
    rw [hX, hY]
    exact ⟨by omega, by omega, by omega, by omega⟩

theorem glyph_inside (c : UInt8) : (0 ≤ (charInt c).tmod 128 ∧ (charInt c).tmod 128 ≤ 127) ↔ c.toNat ≤ 128 := by
  have hlt := c.toNat_lt
  unfold charInt
  split_ifs with h
  · rw [Int.tmod_eq_of_lt (by omega) (by omega)]
    omega
  · by_cases h128 : c.toNat = 128
    · rw [h128]
      decide
    · have hneg : ((c.toNat : ℤ) - 256).tmod 128 = -((256 - c.toNat : ℤ)) := by
        rw [show (c.toNat : ℤ) - 256 =
          -(256 - c.toNat) by ring, Int.neg_tmod, Int.tmod_eq_of_lt (by omega) (by omega)]
      rw [hneg]
      omega

theorem clear_inside (fb : KernelFb) (s : Console) : ∀ op ∈ (s.clearScreenInternal fb).1, op.Inside fb := by
  intro op hop
  obtain ⟨y, hy, hop⟩ := List.mem_flatMap.1 hop
  obtain ⟨x, hx, rfl⟩ := List.mem_map.1 hop
  rw [List.mem_range] at hx hy
  exact ⟨Nat.cast_nonneg x, by exact_mod_cast hx, Nat.cast_nonneg y, by exact_mod_cast hy⟩

theorem ConsoleOK.moved (h : ConsoleOK fb s) {x y : ℤ} (hx : 0 ≤ x) (hx' : x + 8 * s.fontScale ≤ fb.width)
    (hy : -2 ^ 31 ≤ y ∧ y < 2 ^ 31) : ConsoleOK fb { s with posX := x, posY := y } :=
  ⟨h.scale, h.width, h.height, h.start, hx, hx', hy⟩

/-- Behind a printed glyph there is room for another one, in this row or in the next. -/
theorem wrap_ok (h : ConsoleOK fb s) : ConsoleOK fb (
    let s := { s with posX := i32 (s.posX + glyphWidth * s.fontScale) }
    if ofInt (s.posX + glyphWidth * s.fontScale) ≥ fb.width then
      let s := { s with posX := s.posX2, posY := i32 (s.posY + glyphHeight * s.fontScale) }
      if ofInt (s.posY + glyphHeight * s.fontScale) > fb.height then { s with posY := 0 } else s
    else s) := by
  have h1 := h.scale
  have h2 := h.width
  have h3 := h.height
  have h5 := h.left
  have h6 := h.right
  have hstart := h.start
  have hlt := fb_lt fb (by omega) (by omega)
  have hx : i32 (s.posX + glyphWidth * s.fontScale) = s.posX + 8 * s.fontScale :=
    i32_of_mem (by show _ ≤ s.posX + 8 * s.fontScale; omega) (by show s.posX + 8 * s.fontScale < _; omega)
  have hsum : ofInt (s.posX + 8 * s.fontScale + glyphWidth * s.fontScale) =
    (s.posX + 8 * s.fontScale + 8 * s.fontScale).toNat := by
    show ofInt (s.posX + 8 * s.fontScale + 8 * s.fontScale) = _
    unfold ofInt
    omega
  simp only
  rw [hx, hsum]
  split_ifs with hend hbottom
  · exact h.moved (by omega) (by omega) ⟨by omega, by omega⟩
  · exact h.moved (by omega) (by omega) ⟨i32_ge _, i32_lt _⟩
  · exact h.moved (by omega) (by omega) h.y

/-- **A step**: what is written, and where the cursor gets. -/
theorem print_inside (h : ConsoleOK fb s) (font : ℤ → ℕ → UInt8) (c : UInt8) :
    ((∀ op ∈ (s.vbePrintChar fb font c).1, op.Inside fb) ↔ PrintFits fb s c) ∧
      ConsoleOK fb (s.vbePrintChar fb font c).2 := by
  have h1 := h.scale
  have h2 := h.width
  have h3 := h.height
  have hstart := h.start
  have hlt := fb_lt fb (by omega) (by omega)
  have hnone : (∀ op ∈ ([] : List ConsoleOp), op.Inside fb) ↔ True :=
    iff_true_intro fun _ hop => absurd hop List.not_mem_nil
  unfold vbePrintChar PrintFits
  by_cases hff : c = 0x0C
  · rw [if_pos hff, if_pos (.inl hff)]
    exact ⟨iff_true_intro (clear_inside fb s), h.scale, h.width, h.height, rfl, le_rfl,
      by show 0 + 8 * s.fontScale ≤ _; omega, by show -2 ^ 31 ≤ 0; norm_num, by show 0 < _; norm_num⟩
  rw [if_neg hff]
  by_cases hnl : c = 0x0A
  · rw [if_pos hnl, if_pos (.inr (.inl hnl))]
    exact ⟨hnone, h.moved (by omega) (by omega) ⟨i32_ge _, i32_lt _⟩⟩
  rw [if_neg hnl]
  by_cases hcr : c = 0x0D
  · rw [if_pos hcr, if_pos (.inr (.inr hcr))]
    exact ⟨hnone, h.moved (by omega) (by omega) h.y⟩
  have hother : ¬ (c = 0x0C ∨ c = 0x0A ∨ c = 0x0D) := by
    rintro (hc | hc | hc)
    · exact hff hc
    · exact hnl hc
    · exact hcr hc
  rw [if_neg hcr, if_neg hother]
  by_cases hbs : c = 0x08
  · rw [if_pos hbs, if_pos hbs]
    by_cases hroom : s.posX ≥ glyphWidth * s.fontScale
    · have hroom' : 8 * s.fontScale ≤ s.posX := hroom
      have h6 := h.right
      have hx : i32 (s.posX - glyphWidth * s.fontScale) = s.posX - 8 * s.fontScale :=
        i32_of_mem (by show _ ≤ s.posX - 8 * s.fontScale; omega) (by show s.posX - 8 * s.fontScale < _; omega)
      rw [if_pos hroom]
      simp only
      rw [hx]
      have hback : ConsoleOK fb { s with posX := s.posX - 8 * s.fontScale } := h.moved (by omega) (by omega) h.y
      refine ⟨(blocks_inside hback _).trans ?_, hback⟩
      exact ⟨fun hrow _ => hrow, fun hrow => hrow hroom'⟩
    · rw [if_neg hroom]
      exact ⟨iff_of_true (hnone.2 trivial) fun hle => absurd hle hroom, h⟩
  rw [if_neg hbs, if_neg hbs]
  -- a printed character
  have hops : (∀ op ∈ s.printCh fb font c, op.Inside fb) ↔ c.toNat ≤ 128 ∧ RowFits fb s := by
    unfold printCh
    simp only
    rw [List.forall_mem_cons, blocks_inside h]
    exact and_congr_left fun _ => glyph_inside c
  have hwrap := wrap_ok h
  simp only at hwrap ⊢
  split_ifs at hwrap ⊢
  · exact ⟨hops, hwrap⟩
  · exact ⟨hops, hwrap⟩
  · exact ⟨hops, hwrap⟩

/-- A console behind `vbe_clear_screen`. -/
def Console.cleared (fb : KernelFb) (s : Console) : Console := (s.clearScreenInternal fb).2

/-- **Printing**, from a good cursor. -/
theorem printAll_inside (font : ℤ → ℕ → UInt8) (bytes : List UInt8) (h : ConsoleOK fb s) :
    (∀ op ∈ (printAll fb font s bytes).1, op.Inside fb) ↔
      ∀ before c after, bytes = before ++ c :: after → PrintFits fb (printAll fb font s before).2 c := by
  induction bytes generalizing s with
  | nil => exact iff_of_true (fun _ hop => absurd hop List.not_mem_nil) (forall_splits_nil (P := fun before c => _))
  | cons c bytes ih =>
    obtain ⟨hstep, hnext⟩ := print_inside h font c
    have hsplit : (printAll fb font s (c :: bytes)).1 =
        (s.vbePrintChar fb font c).1 ++ (printAll fb font (s.vbePrintChar fb font c).2 bytes).1 := rfl
    rw [hsplit, List.forall_mem_append, hstep, ih hnext]
    exact (forall_splits_cons (P := fun before d => PrintFits fb (printAll fb font s before).2 d)).symm

/-- **The console stays on the screen**: from a cleared screen, a sequence of bytes writes no pixel off the screen
and looks up no glyph outside of the font, exactly if each byte may be printed where it is. -/
theorem console_stays (fb : KernelFb) (font : ℤ → ℕ → UInt8) (s : Console) (bytes : List UInt8)
    (hscale : 1 ≤ s.fontScale) (hw : 8 * s.fontScale ≤ fb.width) (hh : 8 * s.fontScale ≤ fb.height) :
    (∀ op ∈ (printAll fb font (s.cleared fb) bytes).1, op.Inside fb) ↔
      ∀ before c after, bytes = before ++ c :: after → PrintFits fb (printAll fb font (s.cleared fb) before).2 c :=
  printAll_inside font bytes ⟨hscale, hw, hh, rfl, le_rfl, by show 0 + 8 * s.fontScale ≤ _; omega,
    by show -2 ^ 31 ≤ 0; norm_num, by show 0 < _; norm_num⟩

/-- A screen of one glyph. -/
def oneGlyph : KernelFb := ⟨32, 8, 8, by norm_num, by norm_num⟩

/-- A console with the small font. -/
def smallFont : Console := ⟨1, 0, 0, 0, 0xffffffff, 0xff000000⟩

/-- The bytes on a cleared screen of one glyph, in a font of blanks. -/
def smallPrint (bytes : List UInt8) : List ConsoleOp × Console :=
  printAll oneGlyph (fun _ _ => 0) (smallFont.cleared oneGlyph) bytes

/-- A screen of two glyphs by two. -/
def fourGlyphs : KernelFb := ⟨64, 16, 16, by norm_num, by norm_num⟩

/-- Two letters in the first row, a newline, and one in the second. -/
def rowsPrint : List ConsoleOp × Console :=
  printAll fourGlyphs (fun _ _ => 0) (smallFont.cleared fourGlyphs) [0x41, 0x42, 0x0A, 0x43]

/-- A letter reads its glyph and draws 64 blocks. -/
theorem console_stays_rows : rowsPrint.1.length = 3 * 65 ∧ ∀ op ∈ rowsPrint.1, op.Inside fourGlyphs := by
  refine ⟨by decide +kernel, (console_stays fourGlyphs (fun _ _ => 0) smallFont [0x41, 0x42, 0x0A, 0x43] (by decide)
    (by decide) (by decide)).2 ?_⟩
  have hletter : ∀ (k : Console) (c : UInt8), c ≠ 0x0C ∧ c ≠ 0x0A ∧ c ≠ 0x0D ∧ c ≠ 0x08 → c.toNat ≤ 128 →
      0 ≤ k.posY ∧ k.posY + 8 * k.fontScale ≤ fourGlyphs.height → PrintFits fourGlyphs k c := by
    intro k c hc hlt hrow
    unfold PrintFits
    rw [if_neg (by tauto), if_neg hc.2.2.2]
    exact ⟨hlt, hrow⟩
  refine forall_splits_cons.2
    ⟨?_, forall_splits_cons.2 ⟨?_, forall_splits_cons.2 ⟨?_, forall_splits_cons.2 ⟨?_, forall_splits_nil⟩⟩⟩⟩
  · exact hletter _ _ (by decide) (by decide) (by decide +kernel)
  · exact hletter _ _ (by decide) (by decide) (by decide +kernel)
  · -- the newline may be printed anywhere
    unfold PrintFits
    rw [if_pos (by decide)]
    trivial
  · exact hletter _ _ (by decide) (by decide) (by decide +kernel)

/-- **Two bytes that leave the screen**: behind a newline the letter `A` is drawn below the screen; and the glyph
of the byte 255 is looked up at -1. -/
theorem console_leaves : (∃ op ∈ (smallPrint [0x0A, 0x41]).1, ¬ op.Inside oneGlyph) ∧
    ∃ op ∈ (smallPrint [0xFF]).1, ¬ op.Inside oneGlyph := by
  refine ⟨⟨.pixel 0 8 64 0xff000000, ?_, ?_⟩, ⟨.glyph (-1), ?_, ?_⟩⟩
  · exact List.mem_of_getElem? (i := 1) rfl
  · rintro ⟨-, -, -, hy⟩
    exact absurd hy (by decide)
  · exact List.mem_cons_self
  · rintro ⟨hi, -⟩
    exact absurd hi (by decide)

end Saynaa
