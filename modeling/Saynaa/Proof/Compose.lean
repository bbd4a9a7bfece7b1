import Saynaa.User.Compose

/-!
# Partial and full composition agree

* `Draws sc ops l`: the writes `ops` stay on the screen and leave the picture `l` there.
* `WinPart.draws`, `cursorOps_draws`: the layers of a window and of the cursor.
* `compositeFull_draws`: full composition draws `fullLayer`.
* `compositeRect_draws`: composition of a rectangle draws the part of `fullLayer` inside.
* `composite_rect_full`: so the back buffer agrees there, and nothing else changes.
-/

namespace Saynaa

open Lib

variable {sc : Screen} {ops ops' : List PixelOp} {l l' : Layer (ℕ × ℕ) ℕ} {win : WmWin} {buf : Buffer} {r : Rect}
  {s : Scene}

/-- The place of a pixel in the frame buffer. -/
def Screen.index (sc : Screen) (X Y : ℕ) : ℕ := Y * sc.pitch + X

/-- The pixel is on the screen. -/
def Screen.Shows (sc : Screen) (X Y : ℕ) : Prop := X < sc.w ∧ Y < sc.h

theorem index_inj {X Y X' Y' : ℕ} (h : sc.Shows X Y) (h' : sc.Shows X' Y') (he : sc.index X Y = sc.index X' Y') :
    X = X' ∧ Y = Y' := by
  have hX : X < sc.pitch := lt_of_lt_of_le h.1 sc.w_le
  have hX' : X' < sc.pitch := lt_of_lt_of_le h'.1 sc.w_le
  unfold Screen.index at he
  have hY : Y = Y' := by
    have h1 : (Y * sc.pitch + X) / sc.pitch = Y := by
      rw [mul_comm, Nat.mul_add_div sc.pitch_pos, Nat.div_eq_of_lt hX, add_zero]
    have h2 : (Y' * sc.pitch + X') / sc.pitch = Y' := by
      rw [mul_comm, Nat.mul_add_div sc.pitch_pos, Nat.div_eq_of_lt hX', add_zero]
    rw [← h1, he, h2]
  subst hY
  exact ⟨by omega, rfl⟩

theorem index_lt {X Y : ℕ} (h : sc.Shows X Y) : sc.index X Y < 2 ^ 30 := by
  have h1 : (Y + 1) * sc.pitch ≤ sc.h * sc.pitch := Nat.mul_le_mul_right _ h.2
  have h2 := sc.size
  have h3 := lt_of_lt_of_le h.1 sc.w_le
  unfold Screen.index
  rw [add_mul] at h1
  omega

theorem screen_lt (sc : Screen) : sc.w < 2 ^ 30 ∧ sc.h ≤ 2 ^ 30 := by
  have h1 := sc.w_le
  have h2 := sc.pitch_lt
  exact ⟨by omega, (Nat.le_mul_of_pos_right _ sc.pitch_pos).trans sc.size⟩

@[simp] theorem toInt32_w (sc : Screen) : toInt32 sc.w = sc.w := toInt32_of_lt (by have := screen_lt sc; omega)

@[simp] theorem toInt32_h (sc : Screen) : toInt32 sc.h = sc.h := toInt32_of_lt (by have := screen_lt sc; omega)

/-- Pixel `k` behind `(x, y)` is the pixel `(x + k, y)`. -/
theorem pixelAt_step (pitch : ℕ) (y x : ℤ) (k : ℕ) : pixelAt pitch y x k = pixelAt pitch y (x + k) 0 := by
  unfold pixelAt
  generalize ofInt y * pitch % 2 ^ 32 = row
  unfold ofInt
  omega

theorem pixelAt_screen {X Y : ℕ} (h : sc.Shows X Y) : pixelAt sc.pitch Y X 0 = sc.index X Y := by
  have h1 := index_lt h
  have h2 := screen_lt sc
  have hX := h.1
  have hY := h.2
  have hx : ofInt (X : ℤ) = X := by
    unfold ofInt
    omega
  have hy : ofInt (Y : ℤ) = Y := by
    unfold ofInt
    omega
  unfold pixelAt
  unfold Screen.index at h1 ⊢
  rw [hx, hy]
  omega

/-! ### Drawing -/

/-- **The writes draw the layer** and touch no pixel off the screen. -/
structure Draws (sc : Screen) (ops : List PixelOp) (l : Layer (ℕ × ℕ) ℕ) : Prop where
  onScreen : ∀ o ∈ ops, ∃ X Y, sc.Shows X Y ∧ o.dst = sc.index X Y
  paints : ∀ back X Y, sc.Shows X Y → paint ops back (sc.index X Y) = (l (X, Y)).getD (back (sc.index X Y))

/-- Writes that agree with the layer and leave out none of its pixels. -/
theorem draws_of (hsound : ∀ o ∈ ops, ∃ X Y, sc.Shows X Y ∧ o.dst = sc.index X Y ∧ l (X, Y) = some o.color)
    (hcomplete : ∀ X Y c, sc.Shows X Y → l (X, Y) = some c → ∃ o ∈ ops, o.dst = sc.index X Y) : Draws sc ops l := by
  refine ⟨fun _ ho => ?_, fun back X Y h => ?_⟩
  · obtain ⟨X, Y, h, hd, -⟩ := hsound _ ho
    exact ⟨X, Y, h, hd⟩
  -- every write to the pixel is of the layer's colour
  have hval : ∀ o ∈ ops, o.dst = sc.index X Y → l (X, Y) = some o.color := by
    intro o ho hd
    obtain ⟨X', Y', h', hd', hl⟩ := hsound o ho
    obtain ⟨rfl, rfl⟩ := index_inj h h' (hd.symm.trans hd')
    exact hl
  unfold paint
  cases hl : l (X, Y) with
  | none =>
    rw [writes_of_notMem]
    · rfl
    · intro w hw hd
      obtain ⟨o, ho, rfl⟩ := List.mem_map.1 hw
      rw [hl] at hval
      exact absurd (hval o ho hd) (by simp)
  | some c =>
    apply writes_of_mem
    · obtain ⟨o, ho, hd⟩ := hcomplete X Y c h hl
      exact ⟨_, List.mem_map_of_mem ho, hd⟩
    · intro w hw hd
      obtain ⟨o, ho, rfl⟩ := List.mem_map.1 hw
      exact (Option.some.inj (hl.symm.trans (hval o ho hd))).symm

theorem Draws.congr (h : Draws sc ops l) (heq : ∀ X Y, sc.Shows X Y → l (X, Y) = l' (X, Y)) : Draws sc ops l' :=
  ⟨h.onScreen, fun back X Y hs => by rw [h.paints back X Y hs, heq X Y hs]⟩

theorem draws_nil : Draws sc [] fun _ => none := ⟨fun _ ho => absurd ho List.not_mem_nil, fun _ _ _ _ => rfl⟩

/-- What is drawn later lies on top. -/
theorem Draws.above (h : Draws sc ops l) (h' : Draws sc ops' l') : Draws sc (ops ++ ops') (l'.above l) := by
  refine ⟨fun o ho => ?_, fun back X Y hs => ?_⟩
  · rcases List.mem_append.1 ho with ho | ho
    · exact h.onScreen o ho
    · exact h'.onScreen o ho
  · unfold paint
    rw [List.map_append, writes_append]
    show paint ops' (paint ops back) _ = _
    rw [h'.paints _ X Y hs, h.paints back X Y hs]
    unfold Layer.above
    cases l' (X, Y) <;> rfl

theorem draws_stack {α : Type*} {f : α → List PixelOp} {g : α → Layer (ℕ × ℕ) ℕ} :
    ∀ as : List α, (∀ a ∈ as, Draws sc (f a) (g a)) → Draws sc (as.flatMap f) (Layer.stack (as.map g)) := by
  intro as
  induction as with
  | nil => exact fun _ => draws_nil
  | cons a as ih =>
    intro h
    exact (h a List.mem_cons_self).above (ih fun b hb => h b (List.mem_cons_of_mem _ hb))

/-- Pixels off the screen keep their contents. -/
theorem Draws.rest (h : Draws sc ops l) {i : ℕ} (hi : ∀ X Y, sc.Shows X Y → i ≠ sc.index X Y) (back : ℕ → ℕ) :
    paint ops back i = back i := by
  unfold paint
  apply writes_of_notMem
  intro w hw hd
  obtain ⟨o, ho, rfl⟩ := List.mem_map.1 hw
  obtain ⟨X, Y, hs, hd'⟩ := h.onScreen o ho
  exact hi X Y hs (hd.symm.trans hd')

/-! ### The layers -/

/-- A rectangle inside the screen. -/
structure Rect.Inside (r : Rect) (sc : Screen) : Prop where
  x : 0 ≤ r.x
  y : 0 ≤ r.y
  w : r.x + r.w ≤ sc.w
  h : r.y + r.h ≤ sc.h

/-- The pixel lies in the rectangle. -/
def Rect.Has (r : Rect) (p : ℕ × ℕ) : Prop := r.x ≤ p.1 ∧ p.1 < r.x + r.w ∧ r.y ≤ p.2 ∧ p.2 < r.y + r.h

instance (r : Rect) (p : ℕ × ℕ) : Decidable (r.Has p) := inferInstanceAs (Decidable (_ ∧ _))

/-- Rows of pixels that fill a rectangle. -/
theorem rows_draws (hr : r.Inside sc) {f : ℕ → ℕ → PixelOp}
    (hdst : ∀ yy xx, (f yy xx).dst = pixelAt sc.pitch (r.y + yy) r.x xx)
    (hcol : ∀ X Y, sc.Shows X Y → r.Has (X, Y) → ∀ yy xx : ℕ, r.y + yy = Y → r.x + xx = X →
      l (X, Y) = some (f yy xx).color)
    (hout : ∀ X Y, sc.Shows X Y → ¬ r.Has (X, Y) → l (X, Y) = none) :
    Draws sc ((List.range r.h.toNat).flatMap fun yy => (List.range r.w.toNat).map (f yy)) l := by
  obtain ⟨hx, hy, hw, hh⟩ := hr
  apply draws_of
  · intro o ho
    obtain ⟨yy, hyy, ho⟩ := List.mem_flatMap.1 ho
    obtain ⟨xx, hxx, rfl⟩ := List.mem_map.1 ho
    rw [List.mem_range] at hyy hxx
    obtain ⟨X, hX⟩ : ∃ X : ℕ, r.x + xx = X := ⟨(r.x + xx).toNat, by omega⟩
    obtain ⟨Y, hY⟩ : ∃ Y : ℕ, r.y + yy = Y := ⟨(r.y + yy).toNat, by omega⟩
    have hs : sc.Shows X Y := ⟨by omega, by omega⟩
    refine ⟨X, Y, hs, ?_, hcol X Y hs ?_ yy xx hY hX⟩
    · rw [hdst, hY, pixelAt_step, hX, pixelAt_screen hs]
    · unfold Rect.Has
      simp only
      omega
  · intro X Y c hs hl
    by_cases hin : r.Has (X, Y)
    · -- inside the rectangle
      obtain ⟨h1, h2, h3, h4⟩ := hin
      simp only at h1 h2 h3 h4
      obtain ⟨xx, hxx⟩ : ∃ xx : ℕ, r.x + xx = X := ⟨(X - r.x).toNat, by omega⟩
      obtain ⟨yy, hyy⟩ : ∃ yy : ℕ, r.y + yy = Y := ⟨(Y - r.y).toNat, by omega⟩
      refine ⟨f yy xx, List.mem_flatMap.2 ⟨yy, List.mem_range.2 (by omega),
        List.mem_map.2 ⟨xx, List.mem_range.2 (by omega), rfl⟩⟩, ?_⟩
      rw [hdst, hyy, pixelAt_step, hxx, pixelAt_screen hs]
    · rw [hout X Y hs hin] at hl
      cases hl

/-- The pixel of the window's buffer that belongs at a place of the screen. -/
def WmWin.pixel (win : WmWin) (buf : Buffer) (p : ℕ × ℕ) : ℕ :=
  buf.pixel (pixelAt win.pitchPx (p.2 - win.y) (p.1 - win.x) 0)

/-- The window's rectangle, whose right and lower edges are 32-bit sums. -/
def WmWin.Covers (win : WmWin) (p : ℕ × ℕ) : Prop :=
  win.x ≤ p.1 ∧ p.1 < i32 (win.x + toInt32 win.w) ∧ win.y ≤ p.2 ∧ p.2 < i32 (win.y + toInt32 win.h)

instance (win : WmWin) (p : ℕ × ℕ) : Decidable (win.Covers p) := inferInstanceAs (Decidable (_ ∧ _))

/-- What a window shows. -/
def winLayer (win : WmWin) : Layer (ℕ × ℕ) ℕ := fun p =>
  match win.inUse, win.buf with
  | true, some buf => if win.Covers p then some (win.pixel buf p) else none
  | _, _ => none

/-- A pixel of the cursor at `(mx, my)`. -/
def CursorAt (mx my X Y : ℤ) : Prop :=
  ∃ y < 12, ∃ x < (if y + 1 > 10 then 10 else y + 1), i32 (mx + (x : ℕ)) = X ∧ i32 (my + (y : ℕ)) = Y

open Classical in
/-- The part of the cursor that is let through. -/
noncomputable def cursorLayer (visible : ℤ → ℤ → Bool) (mx my : ℤ) : Layer (ℕ × ℕ) ℕ := fun p =>
  if CursorAt mx my p.1 p.2 ∧ visible p.1 p.2 then some cursorColor else none

/-- **The whole picture.** -/
noncomputable def fullLayer (s : Scene) : Layer (ℕ × ℕ) ℕ :=
  (cursorLayer (fun _ _ => true) s.mx s.my).above
    ((Layer.stack ((List.finRange maxWins).map fun i => winLayer (s.wins i))).above fun _ => some background)

theorem winLayer_hidden {p : ℕ × ℕ} (h : win.inUse = true → ¬ win.Covers p) : winLayer win p = none := by
  unfold winLayer
  cases huse : win.inUse with
  | false => rfl
  | true =>
    cases win.buf with
    | none => rfl
    | some buf => exact if_neg (h huse)

/-- **The topmost window** at a place is what is seen of the windows. -/
theorem stack_topmost {t : Fin maxWins → WmWin} {i : Fin maxWins} {p : ℕ × ℕ} (huse : (t i).inUse = true)
    (hbuf : (t i).buf = some buf) (hc : (t i).Covers p) (htop : ∀ j, i < j → (t j).inUse = true → ¬ (t j).Covers p) :
    Layer.stack ((List.finRange maxWins).map fun j => winLayer (t j)) p = some ((t i).pixel buf p) := by
  have hwin : winLayer (t i) p = some ((t i).pixel buf p) := by
    unfold winLayer
    rw [huse, hbuf]
    exact if_pos hc
  obtain ⟨l, l', hl⟩ := List.append_of_mem (List.mem_finRange i)
  have hsorted := List.pairwise_lt_finRange maxWins
  rw [hl] at hsorted ⊢
  rw [List.map_append, List.map_cons]
  apply Layer.stack_top hwin
  intro layer hlayer
  obtain ⟨j, hj, rfl⟩ := List.mem_map.1 hlayer
  have hij : i < j := (List.pairwise_cons.1 (List.pairwise_append.1 hsorted).2.1).1 j hj
  exact winLayer_hidden (htop j hij)

/-! ### The parts -/

theorem fbFill_draws (sc : Screen) (col : ℕ) : Draws sc (fbFill sc.pitch sc.w sc.h col) fun _ => some col := by
  have hr : Rect.Inside ⟨0, 0, sc.w, sc.h⟩ sc := ⟨le_rfl, le_rfl, by simp, by simp⟩
  have hall : ∀ X Y, sc.Shows X Y → ¬ Rect.Has ⟨0, 0, sc.w, sc.h⟩ (X, Y) → (some col : Option ℕ) = none := by
    intro X Y hs hout
    obtain ⟨h1, h2⟩ := hs
    unfold Rect.Has at hout
    simp only at hout
    omega
  have h := rows_draws (l := fun _ => some col) (f := fun y x => .put (pixelAt sc.pitch y 0 x) col) hr
    (fun yy xx => by rw [zero_add]; rfl) (fun X Y _ _ yy xx _ _ => rfl) hall
  unfold fbFill
  simpa using h

theorem fillRect_draws (hr : r.Inside sc) :
    Draws sc (fillRect sc.pitch r) (Layer.restrict (fun _ => some background) r.Has) := by
  refine rows_draws (f := fun yy xx => .put (pixelAt sc.pitch (r.y + yy) r.x xx) background) hr (fun _ _ => rfl)
    (fun X Y _ hin yy xx _ _ => ?_) fun X Y _ hout => ?_
  · exact Layer.restrict_of hin
  · exact Layer.restrict_of_not hout

/-- Copying a part of the window to where it belongs, with 32-bit widths. -/
theorem copyRows_draws {x0 y0 x1 y1 : ℤ} (hx0 : 0 ≤ x0) (hy0 : 0 ≤ y0) (hx : x0 < x1) (hy : y0 < y1)
    (hx1 : x1 ≤ sc.w) (hy1 : y1 ≤ sc.h) :
    Draws sc (copyRows sc.pitch win buf x0 y0 (i32 (x1 - x0)) (i32 (y1 - y0)) (x0 - win.x) (y0 - win.y)) fun p =>
      if x0 ≤ p.1 ∧ p.1 < x1 ∧ y0 ≤ p.2 ∧ p.2 < y1 then some (win.pixel buf p) else none := by
  have hscreen := screen_lt sc
  have hw : i32 (x1 - x0) = x1 - x0 := i32_of_mem (by omega) (by omega)
  have hh : i32 (y1 - y0) = y1 - y0 := i32_of_mem (by omega) (by omega)
  have hcount : ofInt (x1 - x0) % 2 ^ 30 = (x1 - x0).toNat := by
    unfold ofInt
    omega
  have hhas : ∀ p, (⟨x0, y0, x1 - x0, y1 - y0⟩ : Rect).Has p ↔ x0 ≤ p.1 ∧ p.1 < x1 ∧ y0 ≤ p.2 ∧ p.2 < y1 := by
    intro p
    unfold Rect.Has
    simp only
    omega
  have hr : Rect.Inside ⟨x0, y0, x1 - x0, y1 - y0⟩ sc := ⟨hx0, hy0, by simp only; omega, by simp only; omega⟩
  unfold copyRows
  rw [hw, hh, hcount]
  refine rows_draws (f := fun yy k => .copy (pixelAt sc.pitch (y0 + yy) x0 k) buf
      (pixelAt win.pitchPx (y0 - win.y + yy) (x0 - win.x) k)) hr (fun _ _ => rfl)
        (fun X Y _ hin yy xx hyy hxx => ?_) fun X Y _ hout => ?_
  · rw [if_pos ((hhas _).1 hin)]
    simp only at hyy hxx
    have hcol : (PixelOp.copy (pixelAt sc.pitch (y0 + yy) x0 xx) buf
        (pixelAt win.pitchPx (y0 - win.y + yy) (x0 - win.x) xx)).color = win.pixel buf (X, Y) := by
      show buf.pixel (pixelAt win.pitchPx (y0 - win.y + yy) (x0 - win.x) xx) = _
      unfold WmWin.pixel
      rw [pixelAt_step, show y0 - win.y + yy = Y - win.y by omega, show x0 - win.x + xx = X - win.x by omega]
    rw [hcol]
  · exact if_neg fun h => hout ((hhas _).2 h)

/-- **The part of a window inside `R`**: nothing, or a rectangle of rows. -/
def WinPart (sc : Screen) (win : WmWin) (R : ℕ × ℕ → Prop) (ops : List PixelOp) : Prop :=
  ops = [] ∧ (∀ X Y, sc.Shows X Y → R (X, Y) → winLayer win (X, Y) = none) ∨
  ∃ (buf : Buffer) (x0 y0 x1 y1 : ℤ), win.inUse = true ∧ win.buf = some buf ∧
    (0 ≤ x0 ∧ 0 ≤ y0 ∧ x0 < x1 ∧ y0 < y1 ∧ x1 ≤ sc.w ∧ y1 ≤ sc.h) ∧
    ops = copyRows sc.pitch win buf x0 y0 (i32 (x1 - x0)) (i32 (y1 - y0)) (x0 - win.x) (y0 - win.y) ∧
    ∀ X Y : ℕ, sc.Shows X Y → (x0 ≤ X ∧ X < x1 ∧ y0 ≤ Y ∧ Y < y1 ↔ win.Covers (X, Y) ∧ R (X, Y))

theorem WinPart.draws {R : ℕ × ℕ → Prop} (h : WinPart sc win R ops) : Draws sc ops ((winLayer win).restrict R) := by
  rcases h with ⟨rfl, hnone⟩ | ⟨buf, x0, y0, x1, y1, huse, hbuf, ⟨h1, h2, h3, h4, h5, h6⟩, rfl, hpart⟩
  · refine draws_nil.congr fun X Y hs => ?_
    by_cases hR : R (X, Y)
    · rw [Layer.restrict_of hR, hnone X Y hs hR]
    · rw [Layer.restrict_of_not hR]
  · refine (copyRows_draws h1 h2 h3 h4 h5 h6).congr fun X Y hs => ?_
    have hlayer : winLayer win (X, Y) = if win.Covers (X, Y) then some (win.pixel buf (X, Y)) else none := by
      unfold winLayer
      rw [huse, hbuf]
    have hp := hpart X Y hs
    by_cases hR : R (X, Y)
    · rw [Layer.restrict_of hR, hlayer]
      exact if_congr (hp.trans (and_iff_left hR)) rfl rfl
    · rw [Layer.restrict_of_not hR]
      exact if_neg fun h => hR (hp.1 h).2

theorem winPart_of_none {R : ℕ × ℕ → Prop} (h : ∀ X Y, sc.Shows X Y → R (X, Y) → winLayer win (X, Y) = none) :
    WinPart sc win R [] := .inl ⟨rfl, h⟩

theorem drawWin_part (sc : Screen) (win : WmWin) : WinPart sc win (fun _ => True) (drawWin sc win) := by
  unfold drawWin
  cases huse : win.inUse with
  | false => exact winPart_of_none fun X Y _ _ => by simp [winLayer, huse]
  | true =>
    cases hbuf : win.buf with
    | none => exact winPart_of_none fun X Y _ _ => by simp [winLayer, hbuf]
    | some buf =>
      simp only [toInt32_w, toInt32_h]
      generalize hsx1 : i32 (win.x + toInt32 win.w) = sx1
      generalize hsy1 : i32 (win.y + toInt32 win.h) = sy1
      have hdx0 : (if win.x < 0 then 0 else win.x) = max win.x 0 := by split_ifs <;> omega
      have hdy0 : (if win.y < 0 then 0 else win.y) = max win.y 0 := by split_ifs <;> omega
      have hdx1 : (if sx1 > sc.w then (sc.w : ℤ) else sx1) = min sx1 sc.w := by split_ifs <;> omega
      have hdy1 : (if sy1 > sc.h then (sc.h : ℤ) else sy1) = min sy1 sc.h := by split_ifs <;> omega
      have hcovers : ∀ X Y : ℕ, win.Covers (X, Y) ↔ win.x ≤ X ∧ X < sx1 ∧ win.y ≤ Y ∧ Y < sy1 := by
        intro X Y
        rw [← hsx1, ← hsy1]
        rfl
      rw [hdx0, hdy0, hdx1, hdy1]
      have hpart : ∀ X Y : ℕ, sc.Shows X Y →
        (max win.x 0 ≤ X ∧ X < min sx1 sc.w ∧ max win.y 0 ≤ Y ∧ Y < min sy1 sc.h ↔
          win.Covers (X, Y) ∧ True) := by
        intro X Y hs
        have h1 : (X : ℤ) < sc.w := Int.ofNat_lt.2 hs.1
        have h2 : (Y : ℤ) < sc.h := Int.ofNat_lt.2 hs.2
        have h3 := Int.natCast_nonneg X
        have h4 := Int.natCast_nonneg Y
        rw [hcovers, max_le_iff, max_le_iff, lt_min_iff, lt_min_iff]
        tauto
      by_cases hempty : min sx1 sc.w ≤ max win.x 0 ∨ min sy1 sc.h ≤ max win.y 0
      · -- nothing of the window is on the screen
        rw [if_pos hempty]
        refine winPart_of_none fun X Y hs _ => ?_
        unfold winLayer
        rw [huse, hbuf]
        refine if_neg fun hc => ?_
        have h := (hpart X Y hs).2 ⟨hc, trivial⟩
        omega
      · rw [if_neg hempty]
        have hbounds := not_or.1 hempty
        exact .inr ⟨buf, _, _, _, _, huse, hbuf, ⟨by omega, by omega, by omega, by omega, by omega, by omega⟩,
          rfl, hpart⟩

theorem drawWinIn_part (hr : r.Inside sc) (hw0 : 0 < r.w) (hh0 : 0 < r.h) (win : WmWin) :
    WinPart sc win r.Has (drawWinIn sc r win) := by
  have hscreen := screen_lt sc
  obtain ⟨hx, hy, hw, hh⟩ := hr
  have hx1 : i32 (r.x + r.w) = r.x + r.w := i32_of_mem (by omega) (by omega)
  have hy1 : i32 (r.y + r.h) = r.y + r.h := i32_of_mem (by omega) (by omega)
  unfold drawWinIn
  cases huse : win.inUse with
  | false => exact winPart_of_none fun X Y _ _ => by simp [winLayer, huse]
  | true =>
    cases hbuf : win.buf with
    | none => exact winPart_of_none fun X Y _ _ => by simp [winLayer, hbuf]
    | some buf =>
      simp only [hx1, hy1]
      generalize hsx1 : i32 (win.x + toInt32 win.w) = sx1
      generalize hsy1 : i32 (win.y + toInt32 win.h) = sy1
      have hox0 : (if r.x > win.x then r.x else win.x) = max r.x win.x := by split_ifs <;> omega
      have hoy0 : (if r.y > win.y then r.y else win.y) = max r.y win.y := by split_ifs <;> omega
      have hox1 : (if r.x + r.w < sx1 then r.x + r.w else sx1) = min (r.x + r.w) sx1 := by split_ifs <;> omega
      have hoy1 : (if r.y + r.h < sy1 then r.y + r.h else sy1) = min (r.y + r.h) sy1 := by split_ifs <;> omega
      have hcovers : ∀ X Y : ℕ, win.Covers (X, Y) ↔ win.x ≤ X ∧ X < sx1 ∧ win.y ≤ Y ∧ Y < sy1 := by
        intro X Y
        rw [← hsx1, ← hsy1]
        rfl
      rw [hox0, hoy0, hox1, hoy1]
      have hpart : ∀ X Y : ℕ, sc.Shows X Y → (max r.x win.x ≤ X ∧ X < min (r.x + r.w) sx1 ∧ max r.y win.y ≤ Y ∧
          Y < min (r.y + r.h) sy1 ↔ win.Covers (X, Y) ∧ r.Has (X, Y)) := by
        intro X Y _
        have hhas : r.Has (X, Y) ↔ r.x ≤ X ∧ X < r.x + r.w ∧ r.y ≤ Y ∧ Y < r.y + r.h := Iff.rfl
        rw [hcovers, hhas, max_le_iff, max_le_iff, lt_min_iff, lt_min_iff]
        tauto
      by_cases hempty : min (r.x + r.w) sx1 ≤ max r.x win.x ∨ min (r.y + r.h) sy1 ≤ max r.y win.y
      · -- nothing of it is in the rectangle
        rw [if_pos hempty]
        refine winPart_of_none fun X Y hs hin => ?_
        unfold winLayer
        rw [huse, hbuf]
        refine if_neg fun hc => ?_
        have h := (hpart X Y hs).2 ⟨hc, hin⟩
        omega
      · rw [if_neg hempty]
        have hbounds := not_or.1 hempty
        exact .inr ⟨buf, _, _, _, _, huse, hbuf, ⟨by omega, by omega, by omega, by omega, by omega, by omega⟩,
          rfl, hpart⟩

theorem mem_cursorOps {visible : ℤ → ℤ → Bool} {pitch w h : ℕ} {mx my : ℤ} {o : PixelOp} :
    o ∈ cursorOps visible pitch w h mx my ↔ ∃ y < 12, ∃ x < (if y + 1 > 10 then 10 else y + 1),
      ¬ (i32 (my + (y : ℕ)) < 0 ∨ i32 (my + (y : ℕ)) ≥ toInt32 h) ∧
      ¬ (i32 (mx + (x : ℕ)) < 0 ∨ i32 (mx + (x : ℕ)) ≥ toInt32 w) ∧
      visible (i32 (mx + (x : ℕ))) (i32 (my + (y : ℕ))) ∧
      o = .put (pixelAt pitch (i32 (my + (y : ℕ))) (i32 (mx + (x : ℕ))) 0) cursorColor := by
  unfold cursorOps
  rw [List.mem_flatMap]
  constructor
  · rintro ⟨y, hy, ho⟩
    rw [List.mem_range] at hy
    refine ⟨y, hy, ?_⟩
    by_cases hsy : i32 (my + (y : ℕ)) < 0 ∨ i32 (my + (y : ℕ)) ≥ toInt32 h
    · -- above or below the screen
      simp [hsy] at ho
    simp only [if_neg hsy] at ho
    obtain ⟨x, hx, ho⟩ := List.mem_flatMap.1 ho
    rw [List.mem_range] at hx
    by_cases hsx : i32 (mx + (x : ℕ)) < 0 ∨ i32 (mx + (x : ℕ)) ≥ toInt32 w
    · -- left or right of it
      simp [hsx] at ho
    simp only [if_neg hsx] at ho
    by_cases hv : visible (i32 (mx + (x : ℕ))) (i32 (my + (y : ℕ))) = true
    · rw [if_pos hv, List.mem_singleton] at ho
      exact ⟨x, hx, hsy, hsx, hv, ho⟩
    · rw [if_neg hv] at ho
      exact absurd ho List.not_mem_nil
  · rintro ⟨y, hy, x, hx, hsy, hsx, hv, rfl⟩
    refine ⟨y, List.mem_range.2 hy, ?_⟩
    simp only [if_neg hsy]
    refine List.mem_flatMap.2 ⟨x, List.mem_range.2 hx, ?_⟩
    simp only [if_neg hsx, if_pos hv, List.mem_singleton]

/-- The cursor loop draws the cursor's pixels that are on the screen and let through. -/
theorem cursorOps_draws (sc : Screen) (visible : ℤ → ℤ → Bool) (mx my : ℤ) :
    Draws sc (cursorOps visible sc.pitch sc.w sc.h mx my) (cursorLayer visible mx my) := by
  apply draws_of
  · intro o ho
    obtain ⟨y, hy, x, hx, hsy, hsx, hv, rfl⟩ := mem_cursorOps.1 ho
    rw [toInt32_h] at hsy
    rw [toInt32_w] at hsx
    obtain ⟨X, hX⟩ : ∃ X : ℕ, i32 (mx + (x : ℕ)) = X := ⟨(i32 (mx + (x : ℕ))).toNat, by omega⟩
    obtain ⟨Y, hY⟩ : ∃ Y : ℕ, i32 (my + (y : ℕ)) = Y := ⟨(i32 (my + (y : ℕ))).toNat, by omega⟩
    have hs : sc.Shows X Y := ⟨by omega, by omega⟩
    refine ⟨X, Y, hs, ?_, if_pos ⟨⟨y, hy, x, hx, hX, hY⟩, ?_⟩⟩
    · show pixelAt sc.pitch _ _ 0 = _
      rw [hX, hY, pixelAt_screen hs]
    · rwa [hX, hY] at hv
  · intro X Y c hs hl
    unfold cursorLayer at hl
    split_ifs at hl with hc
    obtain ⟨⟨y, hy, x, hx, hX, hY⟩, hv⟩ := hc
    obtain ⟨h1, h2⟩ := hs
    refine ⟨.put (pixelAt sc.pitch Y X 0) cursorColor, mem_cursorOps.2 ⟨y, hy, x, hx, ?_, ?_, ?_, ?_⟩,
      pixelAt_screen ⟨h1, h2⟩⟩
    · simp only at hY
      rw [hY, toInt32_h]
      omega
    · simp only at hX
      rw [hX, toInt32_w]
      omega
    · rw [hX, hY]
      exact hv
    · rw [hX, hY]

theorem cursorLayer_restrict (visible : ℤ → ℤ → Bool) (mx my : ℤ) :
    cursorLayer visible mx my = (cursorLayer (fun _ _ => true) mx my).restrict fun p => visible p.1 p.2 := by
  funext p
  unfold cursorLayer Layer.restrict
  by_cases hv : visible p.1 p.2 = true
  · rw [if_pos hv]
    by_cases hc : CursorAt mx my p.1 p.2
    · rw [if_pos ⟨hc, hv⟩]
      exact (if_pos ⟨hc, rfl⟩).symm
    · rw [if_neg fun h => hc h.1]
      exact (if_neg fun h => hc h.1).symm
  · rw [if_neg hv, if_neg fun h => hv h.2]

/-! ### Full and partial composition -/

/-- **Full composition** draws the whole picture. -/
theorem compositeFull_draws (s : Scene) : Draws s.screen (compositeFull s) (fullLayer s) :=
  ((fbFill_draws s.screen background).above
    (draws_stack _ fun i _ => (drawWin_part s.screen (s.wins i)).draws.congr fun _ _ _ =>
      Layer.restrict_of trivial)).above
      (cursorOps_draws s.screen _ s.mx s.my)

theorem cursor_clipped_draws (hr : r.Inside sc) (hw0 : 0 < r.w) (hh0 : 0 < r.h) (mx my : ℤ) :
    Draws sc (fbDrawCursorClipped sc.pitch sc.w sc.h mx my r.x r.y r.w r.h)
      ((cursorLayer (fun _ _ => true) mx my).restrict r.Has) := by
  have hscreen := screen_lt sc
  obtain ⟨hx, hy, hw, hh⟩ := hr
  have hx1 : i32 (r.x + r.w) = r.x + r.w := i32_of_mem (by omega) (by omega)
  have hy1 : i32 (r.y + r.h) = r.y + r.h := i32_of_mem (by omega) (by omega)
  unfold fbDrawCursorClipped
  simp only [hx1, hy1]
  refine (cursorOps_draws sc _ mx my).congr fun X Y _ => ?_
  rw [cursorLayer_restrict]
  refine Layer.restrict_congr ?_
  rw [decide_eq_true_iff]
  unfold Rect.Has
  simp only
  omega

/-- The clipping of one coordinate and the size that belongs to it. -/
def clip (size x w : ℤ) : ℤ × ℤ :=
  let x' := if x < 0 then 0 else x
  let w' := if x < 0 then i32 (w + x) else w
  (x', if i32 (x' + w') > size then i32 (size - x') else w')

theorem clipRect_eq (sc : Screen) (r : Rect) : clipRect sc r =
    ⟨(clip sc.w r.x r.w).1, (clip sc.h r.y r.h).1, (clip sc.w r.x r.w).2, (clip sc.h r.y r.h).2⟩ := by
  obtain ⟨x, y, w, h⟩ := r
  unfold clipRect clip
  simp only [toInt32_w, toInt32_h]
  by_cases hx : x < 0 <;> by_cases hy : y < 0 <;> simp only [hx, hy, if_true, if_false]
  all_goals
    split_ifs
    all_goals rfl

/-- Clipping keeps what is visible, if the edge `x + w` is representable. -/
theorem clip_ok {size x w : ℤ} (hsize : 0 ≤ size) (hlt : size < 2 ^ 31) (hx : -2 ^ 31 ≤ x) (hw : 0 < w)
    (hedge : x + w < 2 ^ 31) :
    0 ≤ (clip size x w).1 ∧ (clip size x w).1 + (clip size x w).2 ≤ max size (clip size x w).1 ∧
      ∀ X, 0 ≤ X → X < size →
        ((clip size x w).1 ≤ X ∧ X < (clip size x w).1 + (clip size x w).2 ↔ x ≤ X ∧ X < x + w) := by
  unfold clip
  simp only
  by_cases hneg : x < 0
  · have hw' : i32 (w + x) = w + x := i32_of_mem (by omega) (by omega)
    simp only [if_pos hneg, hw', zero_add, sub_zero]
    split_ifs with hbig
    · rw [i32_of_mem (by omega) hlt]
      refine ⟨le_rfl, by omega, fun X h1 h2 => by omega⟩
    · refine ⟨le_rfl, by omega, fun X h1 h2 => by omega⟩
  · rw [if_neg hneg, if_neg hneg, i32_of_mem (by omega) (by omega)]
    split_ifs with hbig
    · rw [i32_of_mem (by omega) (by omega)]
      refine ⟨by omega, by omega, fun X h1 h2 => by omega⟩
    · refine ⟨by omega, by omega, fun X h1 h2 => by omega⟩

/-- A rectangle whose edges are `int32_t`s. -/
structure Rect.Representable (r : Rect) : Prop where
  x : -2 ^ 31 ≤ r.x
  y : -2 ^ 31 ≤ r.y
  right : r.x + r.w < 2 ^ 31
  bottom : r.y + r.h < 2 ^ 31

/-- What is left of a rectangle after clipping lies on the screen and shows the same. -/
theorem clipRect_ok (hr : r.Representable) (hw : 0 < r.w) (hh : 0 < r.h) :
    (0 < (clipRect sc r).w → 0 < (clipRect sc r).h → (clipRect sc r).Inside sc) ∧
      ∀ X Y, sc.Shows X Y → ((clipRect sc r).Has (X, Y) ↔ r.Has (X, Y)) := by
  have hscreen := screen_lt sc
  obtain ⟨hx1, hx2, hx3⟩ := clip_ok (Nat.cast_nonneg sc.w) (by omega) hr.x hw hr.right
  obtain ⟨hy1, hy2, hy3⟩ := clip_ok (Nat.cast_nonneg sc.h) (by omega) hr.y hh hr.bottom
  rw [clipRect_eq]
  constructor
  · intro hw' hh'
    simp only at hw' hh'
    exact ⟨hx1, hy1, by simp only; omega, by simp only; omega⟩
  · intro X Y hs
    obtain ⟨h1, h2⟩ := hs
    have h3 := hx3 X (by omega) (by omega)
    have h4 := hy3 Y (by omega) (by omega)
    unfold Rect.Has
    simp only at h3 h4 ⊢
    tauto

/-- **Partial composition** draws the part of the picture inside the rectangle. -/
theorem compositeRect_draws (s : Scene) (hr : r.Representable) :
    Draws s.screen (compositeRect s r) ((fullLayer s).restrict r.Has) := by
  have hnothing : (∀ X Y, s.screen.Shows X Y → ¬ r.Has (X, Y)) →
      Draws s.screen [] ((fullLayer s).restrict r.Has) :=
    fun h => draws_nil.congr fun X Y hs => (Layer.restrict_of_not (h X Y hs)).symm
  unfold compositeRect
  by_cases hempty : r.w ≤ 0 ∨ r.h ≤ 0
  · -- an empty rectangle
    rw [if_pos hempty]
    refine hnothing fun X Y _ hin => ?_
    unfold Rect.Has at hin
    omega
  rw [if_neg hempty]
  rw [not_or, not_le, not_le] at hempty
  obtain ⟨hinside, hhas⟩ := @clipRect_ok s.screen r hr hempty.1 hempty.2
  simp only
  set c := clipRect s.screen r with hc
  by_cases hout : c.w ≤ 0 ∨ c.h ≤ 0
  · -- a rectangle outside the screen
    rw [if_pos hout]
    refine hnothing fun X Y hs hin => ?_
    have h := (hhas X Y hs).2 hin
    unfold Rect.Has at h
    omega
  rw [if_neg hout]
  rw [not_or, not_le, not_le] at hout
  have hinside := hinside hout.1 hout.2
  have hfull : (fullLayer s).restrict c.Has = ((cursorLayer (fun _ _ => true) s.mx s.my).restrict c.Has).above
      ((Layer.stack ((List.finRange maxWins).map fun i => (winLayer (s.wins i)).restrict c.Has)).above
        (Layer.restrict (fun _ => some background) c.Has)) := by
    unfold fullLayer
    rw [Layer.restrict_above, Layer.restrict_above, Layer.restrict_stack, List.map_map]
    rfl
  have hdraw := ((fillRect_draws hinside).above (draws_stack (List.finRange maxWins) fun i _ =>
    (drawWinIn_part hinside hout.1 hout.2 (s.wins i)).draws)).above
    (cursor_clipped_draws hinside hout.1 hout.2 s.mx s.my)
  rw [← hfull] at hdraw
  refine hdraw.congr fun X Y hs => ?_
  exact Layer.restrict_congr (hhas X Y hs)

/-- The background is everywhere. -/
theorem fullLayer_isSome (s : Scene) (p : ℕ × ℕ) : ∃ c, fullLayer s p = some c := by
  unfold fullLayer Layer.above
  cases cursorLayer (fun _ _ => true) s.mx s.my p with
  | some c => exact ⟨c, rfl⟩
  | none =>
    cases Layer.stack ((List.finRange maxWins).map fun i => winLayer (s.wins i)) p with
    | some c => exact ⟨c, rfl⟩
    | none => exact ⟨background, rfl⟩

/-- **Partial recomposition agrees with full recomposition.** After `composite_rect` the pixels of the
screen inside the rectangle are those that `composite_full` produces, over any back buffer, and the
others have not changed. -/
theorem composite_rect_full (s : Scene) (hr : r.Representable) (back back' : ℕ → ℕ) :
    (∀ X Y, s.screen.Shows X Y → r.Has (X, Y) →
      paint (compositeRect s r) back (s.screen.index X Y) = paint (compositeFull s) back' (s.screen.index X Y)) ∧
    ∀ i, (∀ X Y, s.screen.Shows X Y → r.Has (X, Y) → i ≠ s.screen.index X Y) →
      paint (compositeRect s r) back i = back i := by
  have hrect := compositeRect_draws s hr
  have hfull := compositeFull_draws s
  constructor
  · intro X Y hs hin
    obtain ⟨c, hc⟩ := fullLayer_isSome s (X, Y)
    have hc' : (fullLayer s).restrict r.Has (X, Y) = some c := (Layer.restrict_of hin).trans hc
    rw [hrect.paints back X Y hs, hfull.paints back' X Y hs, hc, hc']
    rfl
  · intro i hi
    by_cases hshown : ∃ X Y, s.screen.Shows X Y ∧ i = s.screen.index X Y
    · obtain ⟨X, Y, hs, rfl⟩ := hshown
      have hnone : (fullLayer s).restrict r.Has (X, Y) = none := Layer.restrict_of_not fun hin => hi X Y hs hin rfl
      rw [hrect.paints back X Y hs, hnone]
      rfl
    · exact hrect.rest (fun X Y hs he => hshown ⟨X, Y, hs, he⟩) back

/-- A screen of one pixel. -/
def dotScreen : Screen := ⟨1, 1, 1, by norm_num, by norm_num, by norm_num, by norm_num⟩

/-- Two by two pixels, a window that shows 9 in the first of them, the cursor in the second column. -/
def cornerWindow : Scene :=
  ⟨⟨2, 2, 2, by norm_num, by norm_num, by norm_num, by norm_num⟩,
    fun j => if j.val = 0 then ⟨true, 1, 2, 0, 1, 1, 1, 3, some ⟨1, fun _ => 9⟩, 0, 0⟩
      else ⟨false, 0, 0, 0, 0, 0, 0, 0, none, 0, 0⟩,
    1, 0⟩

/-- A rectangle that covers the window only: it is drawn, and the other pixels stay. -/
theorem composite_rect_full_corner :
    paint (compositeRect cornerWindow ⟨-1, -1, 2, 2⟩) (fun _ => 7) 0 = paint (compositeFull cornerWindow)
      (fun _ => 0) 0 ∧ paint (compositeRect cornerWindow ⟨-1, -1, 2, 2⟩) (fun _ => 7) 1 = 7 ∧
      paint (compositeFull cornerWindow) (fun _ => 0) 0 = 9 := by
  have hr : (⟨-1, -1, 2, 2⟩ : Rect).Representable := by
    constructor <;> decide
  obtain ⟨hin, hout⟩ := composite_rect_full cornerWindow hr (fun _ => 7) fun _ => 0
  refine ⟨hin 0 0 ⟨by decide, by decide⟩ (by decide), hout 1 fun X Y _ hhas he => ?_, by decide +kernel⟩
  obtain ⟨h1, h2, h3, h4⟩ : (-1 : ℤ) ≤ X ∧ (X : ℤ) < -1 + 2 ∧ (-1 : ℤ) ≤ Y ∧ (Y : ℤ) < -1 + 2 := hhas
  have he' : 1 = Y * 2 + X := he
  omega

end Saynaa
