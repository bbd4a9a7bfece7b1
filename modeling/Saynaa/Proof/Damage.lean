import Saynaa.Proof.Compose
import Saynaa.User.Gui

/-!
# What `render_window` shows

The client sends the last row and column as the edges of the damaged rectangle; the window manager
takes the edges to be behind it.

* `Visible`: a pixel of the screen where a window is on top, and no cursor.
* `Repainted`: the pixels of the window that the message reaches.
* `render_back`: what the message leaves in the back buffer.
* `render_window_shown`: the whole window is shown exactly when the other visible pixels were right before.
-/

namespace Saynaa

open Lib WinMan WinTable

variable {s : WinMan} {i : Fin maxWins} {win : WmWin} {X Y : ℕ}

/-- **A visible pixel of a window**: on the screen, in the window, under no window of a higher slot and not
under the cursor. -/
structure Visible (s : Scene) (i : Fin maxWins) (X Y : ℕ) : Prop where
  shown : s.screen.Shows X Y
  covers : (s.wins i).Covers (X, Y)
  top : ∀ j, i < j → (s.wins j).inUse = true → ¬ (s.wins j).Covers (X, Y)
  cursor : ¬ CursorAt s.mx s.my X Y

/-- The back buffer shows the window where it is visible and `R` holds. -/
def ShowsIn (s : WinMan) (i : Fin maxWins) (R : ℕ → ℕ → Prop) : Prop :=
  ∀ X Y, Visible s.toScene i X Y → R X Y → ∀ buf, (s.wins i).buf = some buf →
    s.back (s.screen.index X Y) = (s.wins i).pixel buf (X, Y)

/-- **The pixels that the message reaches**: those before the last row and column, in a window whose sizes
are not above `2^31`. -/
def Repainted (win : WmWin) (X Y : ℕ) : Prop :=
  X + 1 < win.x + win.w ∧ Y + 1 < win.y + win.h ∧ win.w ≤ 2 ^ 31 ∧ win.h ≤ 2 ^ 31

/-- The fields of a window are 32-bit numbers. -/
structure WinTyped (win : WmWin) : Prop where
  x : -2 ^ 31 ≤ win.x ∧ win.x < 2 ^ 31
  y : -2 ^ 31 ≤ win.y ∧ win.y < 2 ^ 31
  w : win.w < 2 ^ 32
  h : win.h < 2 ^ 32

/-- What the client has of the window. -/
def WmWin.client (win : WmWin) : GuiWindow := ⟨win.winId, win.w, win.h⟩

/-- `render_window` of the client, and the message that the window manager receives. -/
def renderAndDamage (s : WinMan) (src : ℕ) (win : GuiWindow) : WinMan :=
  match win.renderWindow with
  | none => s
  | some msg => s.onMsg src msg

/-- **The picture of a visible pixel** is the window's. -/
theorem Visible.fullLayer {c : Scene} {buf : Buffer} (hv : Visible c i X Y) (huse : (c.wins i).inUse = true)
    (hbuf : (c.wins i).buf = some buf) : fullLayer c (X, Y) = some ((c.wins i).pixel buf (X, Y)) := by
  have hstack := stack_topmost huse hbuf hv.covers hv.top
  have hcursor : cursorLayer (fun _ _ => true) c.mx c.my (X, Y) = none := if_neg fun h => hv.cursor h.1
  unfold Saynaa.fullLayer Layer.above
  rw [hcursor, hstack]
  rfl

/-- **The edges of a window** that covers a pixel of the screen are not wrapped around. -/
theorem WinTyped.edges (ht : WinTyped win) (hc : win.Covers (X, Y)) :
    (X : ℤ) < win.x + win.w ∧ (Y : ℤ) < win.y + win.h ∧ win.x + win.w < 2 ^ 31 ∧ win.y + win.h < 2 ^ 31 := by
  have hedge : ∀ {x : ℤ} {w : ℕ} {Z : ℕ}, -2 ^ 31 ≤ x → w < 2 ^ 32 → x ≤ Z → (Z : ℤ) < i32 (x + toInt32 w) →
      (Z : ℤ) < x + w ∧ x + w < 2 ^ 31 := by
    intro x w Z hx hw hle hlt
    unfold i32 toInt32 ofInt at hlt
    split_ifs at hlt <;> omega
  obtain ⟨h1, h2, h3, h4⟩ := hc
  obtain ⟨hX, hX'⟩ := hedge ht.x.1 ht.w h1 h2
  obtain ⟨hY, hY'⟩ := hedge ht.y.1 ht.h h3 h4
  exact ⟨hX, hY, hX', hY'⟩

/-- One coordinate of the damaged rectangle: where it begins, and its size. -/
theorem damage_edge {x : ℤ} {w : ℕ} (hx : -2 ^ 31 ≤ x ∧ x < 2 ^ 31) (hw : w < 2 ^ 32) (hpos : 0 < x + w)
    (hlt : x + w < 2 ^ 31) : i32 (x + 0) = x ∧
      i32 (i32 (x + i32 (toInt32 w - 1)) - i32 (x + 0)) = if w ≤ 2 ^ 31 then (w : ℤ) - 1 else w - 1 - 2 ^ 32 := by
  have hbegin : i32 (x + 0) = x := by
    rw [add_zero]
    exact i32_of_mem hx.1 hx.2
  have hend : i32 (x + i32 (toInt32 w - 1)) = x + w - 1 := by
    unfold i32 toInt32 ofInt
    split_ifs <;> omega
  refine ⟨hbegin, ?_⟩
  rw [hbegin, hend]
  unfold i32 toInt32 ofInt
  split_ifs <;> omega

/-- Only the back buffer changes. -/
theorem render_scene (s : WinMan) (src : ℕ) (win : GuiWindow) : (renderAndDamage s src win).toScene = s.toScene := by
  by_cases h0 : win.id = 0
  · have hmsg : win.renderWindow = none := if_pos h0
    unfold renderAndDamage
    rw [hmsg]
  · have hmsg : win.renderWindow =
      some (.damage win.id 0 0 (i32 (toInt32 win.height - 1)) (i32 (toInt32 win.width - 1))) :=
      if_neg h0
    unfold renderAndDamage
    rw [hmsg]
    show (s.onDamage _ _ _ _ _).toScene = s.toScene
    unfold onDamage
    cases winById s.wins win.id with
    | none => rfl
    | some j => rfl

/-- **What the message leaves** at a visible pixel. -/
theorem render_back (hid : winById s.wins win.winId = some i) (hwin : s.wins i = win) (h0 : win.winId ≠ 0)
    (ht : WinTyped win) (hv : Visible s.toScene i X Y) (src : ℕ) {buf : Buffer} (hbuf : win.buf = some buf) :
    (Repainted win X Y → (renderAndDamage s src win.client).back (s.screen.index X Y) = win.pixel buf (X, Y)) ∧
      (¬ Repainted win X Y → (renderAndDamage s src win.client).back (s.screen.index X Y) =
        s.back (s.screen.index X Y)) := by
  have hc : win.Covers (X, Y) := hwin ▸ hv.covers
  obtain ⟨hX, hY, hright, hbottom⟩ := ht.edges hc
  obtain ⟨hx, hw⟩ := damage_edge ht.x ht.w (by omega) hright
  obtain ⟨hy, hh⟩ := damage_edge ht.y ht.h (by omega) hbottom
  set r : Rect := ⟨win.x, win.y, if win.w ≤ 2 ^ 31 then (win.w : ℤ) - 1 else win.w - 1 - 2 ^ 32,
    if win.h ≤ 2 ^ 31 then (win.h : ℤ) - 1 else win.h - 1 - 2 ^ 32⟩ with hr
  have hstep : renderAndDamage s src win.client = s.redrawRect r := by
    have hmsg : win.client.renderWindow =
        some (.damage win.winId 0 0 (i32 (toInt32 win.h - 1)) (i32 (toInt32 win.w - 1))) := if_neg h0
    have hrect : damageRect win 0 0 (i32 (toInt32 win.h - 1)) (i32 (toInt32 win.w - 1)) = r := by
      unfold damageRect
      simp only [hx, hy] at hw hh ⊢
      rw [hw, hh]
    have hon : s.onDamage win.winId 0 0 (i32 (toInt32 win.h - 1)) (i32 (toInt32 win.w - 1)) = s.redrawRect r := by
      unfold onDamage
      rw [hid]
      simp only [hwin, hrect]
    unfold renderAndDamage
    rw [hmsg]
    exact hon
  rw [hstep]
  obtain ⟨h1, h2, h3, h4⟩ := hc
  simp only at h1 h3
  by_cases hbig : win.w ≤ 2 ^ 31 ∧ win.h ≤ 2 ^ 31
  · obtain ⟨hbw, hbh⟩ := hbig
    have hrw : r.w = win.w - 1 := if_pos hbw
    have hrh : r.h = win.h - 1 := if_pos hbh
    have hrx : r.x = win.x := rfl
    have hry : r.y = win.y := rfl
    have hrep : r.Representable := by
      have hx' := ht.x
      have hy' := ht.y
      constructor <;> omega
    have hback : (s.redrawRect r).back (s.screen.index X Y) =
        (((fullLayer s.toScene).restrict r.Has) (X, Y)).getD (s.back (s.screen.index X Y)) :=
      (compositeRect_draws s.toScene hrep).paints s.back X Y hv.shown
    have hhas : r.Has (X, Y) ↔ Repainted win X Y := by
      unfold Rect.Has Repainted
      simp only
      omega
    constructor
    · -- a repainted pixel is that of the scene
      intro hin
      have huse : (s.wins i).inUse = true := (by simpa using List.find?_some hid : _ ∧ _).1
      rw [hback, Layer.restrict_of (hhas.2 hin), hv.fullLayer huse (hwin ▸ hbuf), hwin]
      rfl
    · -- the others stay
      intro hout
      rw [hback, Layer.restrict_of_not fun hin => hout (hhas.1 hin)]
      rfl
  · -- a size above `2^31` has become negative, and nothing is drawn
    have hempty : r.w ≤ 0 ∨ r.h ≤ 0 := by
      have hlw := ht.w
      have hlh := ht.h
      rw [hr]
      simp only
      split_ifs <;> omega
    have hnothing : compositeRect s.toScene r = [] := by
      unfold compositeRect
      rw [if_pos hempty]
    have hback : (s.redrawRect r).back = s.back := by
      show paint (compositeRect s.toScene r) s.back = s.back
      rw [hnothing]
      rfl
    refine ⟨fun hin => absurd ⟨hin.2.2.1, hin.2.2.2⟩ hbig, fun _ => ?_⟩
    rw [hback]

/-- **`render_window` shows the whole window** exactly when the visible pixels of the last row and column
(in a window of more than `2^31` rows or columns: all of them) were right before. -/
theorem render_window_shown (hid : winById s.wins (s.wins i).winId = some i) (h0 : (s.wins i).winId ≠ 0)
    (ht : WinTyped (s.wins i)) (src : ℕ) :
    ShowsIn (renderAndDamage s src (s.wins i).client) i (fun _ _ => True) ↔
      ShowsIn s i fun X Y => ¬ Repainted (s.wins i) X Y := by
  have hscene := render_scene s src (s.wins i).client
  constructor
  · intro h X Y hv hout buf hbuf
    obtain ⟨-, hkept⟩ := render_back hid rfl h0 ht hv src hbuf
    have hshown := h X Y (by rw [hscene]; exact hv) trivial buf (by rw [hscene]; exact hbuf)
    rw [hscene, hkept hout] at hshown
    exact hshown
  · intro h X Y hv _ buf hbuf
    rw [hscene] at hv hbuf ⊢
    obtain ⟨hdrawn, hkept⟩ := render_back hid rfl h0 ht hv src hbuf
    by_cases hin : Repainted (s.wins i) X Y
    · exact hdrawn hin
    · rw [hkept hin]
      exact h X Y hv hin buf hbuf

/-! ### A window of two rows and two columns -/

/-- A window that fills the screen and whose pixels are 7, before the first `render_window`. -/
def smallWindow : WinMan :=
  { screen := ⟨2, 2, 2, by decide, by decide, by decide, by decide⟩
    wins := fun j => if j.val = 0 then ⟨true, 1, 2, 0, 2, 2, 2, 3, some ⟨1, fun _ => 7⟩, 0, 0⟩ else .zero
    mx := 5, my := 5, nextWinId := 2, left := false, right := false, middle := false, dragDx := 0, dragDy := 0
    dragWin := 0, dragging := false, hoverWin := 0, focusWin := 1, back := fun _ => 0, drawn := [], calls := [] }

def firstSlot : Fin maxWins := ⟨0, maxWins_pos⟩

theorem smallWindow_typed : WinTyped (smallWindow.wins firstSlot) := by constructor <;> decide

theorem smallWindow_visible : Visible smallWindow.toScene firstSlot 1 1 := by
  refine ⟨⟨by decide, by decide⟩, by decide, fun j hj huse => ?_, ?_⟩
  · have hzero : smallWindow.wins j = .zero := if_neg (by have := Fin.lt_def.1 hj; omega)
    rw [hzero] at huse
    exact absurd huse (by decide)
  · rintro ⟨y, hy, x, hx, hX, -⟩
    have hx10 : x < 10 := by split_ifs at hx <;> omega
    have hmx : smallWindow.mx = 5 := rfl
    rw [hmx, i32_of_mem (by omega) (by omega)] at hX
    omega

theorem render_window_shown_small :
    ShowsIn (renderAndDamage smallWindow 2 (smallWindow.wins firstSlot).client) firstSlot (fun _ _ => True) ↔
      ShowsIn smallWindow firstSlot fun X Y => ¬ Repainted (smallWindow.wins firstSlot) X Y :=
  render_window_shown (by decide) (by decide) smallWindow_typed 2

/-- **The last row and column are not drawn**: the pixel at `(1, 1)` stays as it was. -/
theorem render_window_misses :
    ¬ ShowsIn (renderAndDamage smallWindow 2 (smallWindow.wins firstSlot).client) firstSlot (fun _ _ => True) := by
  intro h
  have hscene := render_scene smallWindow 2 (smallWindow.wins firstSlot).client
  have hshown := h 1 1 (hscene ▸ smallWindow_visible) trivial ⟨1, fun _ => 7⟩ (hscene ▸ rfl)
  have hbuf : (smallWindow.wins firstSlot).buf = some ⟨1, fun _ => 7⟩ := rfl
  have hkept := (render_back (by decide) rfl (by decide) smallWindow_typed smallWindow_visible 2 hbuf).2
    (by unfold Repainted; decide)
  rw [hscene, hkept] at hshown
  exact absurd hshown (by decide)

end Saynaa
