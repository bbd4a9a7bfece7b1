import Saynaa.Proof.Compose
import Saynaa.User.WinMan

/-!
# A mouse event leaves no stale pixels

* `FreshOutside R s`: the back buffer shows the picture of `s` outside the region `R`.
* `redraw_fresh`, `redrawRect_fresh`: full composition leaves nothing stale, and composition of a
  rectangle that contains the stale region neither.
* `rectUnion_edges`: the edges of a union, for boxes anywhere.
* `fullLayer_cursor`, `fullLayer_window`: what moving the cursor or a window makes stale.
* `press_ok`, `drag_fresh`: the parts of the handler.
* `mouse_redraw`: the whole handler, when what is redrawn is not too large (`SpanOK`).
-/

namespace Saynaa

open Lib WinMan WinTable

variable {s s' : WinMan} {r a b : Rect} {R R' : ℕ × ℕ → Prop} {p : ℕ × ℕ} {t : WinTable} {ev : MouseEvent}

/-! ### Stale regions -/

/-- The back buffer equals the full composition of the state. -/
def Fresh (s : WinMan) : Prop := ∀ X Y, s.screen.Shows X Y →
  s.back (s.screen.index X Y) = paint (compositeFull s.toScene) s.back (s.screen.index X Y)

/-- The back buffer shows the picture outside `R`. -/
def FreshOutside (R : ℕ × ℕ → Prop) (s : WinMan) : Prop := ∀ X Y, s.screen.Shows X Y → ¬ R (X, Y) →
  fullLayer s.toScene (X, Y) = some (s.back (s.screen.index X Y))

/-- Nothing is stale. -/
def nowhere : ℕ × ℕ → Prop := fun _ => False

theorem fresh_iff : Fresh s ↔ FreshOutside nowhere s := by
  have hfull : ∀ X Y, s.screen.Shows X Y → paint (compositeFull s.toScene) s.back (s.screen.index X Y) =
      (fullLayer s.toScene (X, Y)).getD (s.back (s.screen.index X Y)) :=
    (compositeFull_draws s.toScene).paints s.back
  constructor
  · intro h X Y hs _
    obtain ⟨c, hc⟩ := fullLayer_isSome s.toScene (X, Y)
    rw [h X Y hs, hfull X Y hs, hc]
    rfl
  · intro h X Y hs
    rw [hfull X Y hs, h X Y hs id]
    rfl

theorem FreshOutside.mono (h : FreshOutside R s) (hR : ∀ p, R p → R' p) : FreshOutside R' s :=
  fun X Y hs hn => h X Y hs fun hp => hn (hR _ hp)

theorem redraw_fresh (s : WinMan) (R : ℕ × ℕ → Prop) : FreshOutside R s.redraw := by
  intro X Y hs _
  obtain ⟨c, hc⟩ := fullLayer_isSome s.toScene (X, Y)
  show fullLayer s.toScene (X, Y) = some (paint (compositeFull s.toScene) s.back (s.screen.index X Y))
  rw [(compositeFull_draws s.toScene).paints s.back X Y hs, hc]
  rfl

theorem redrawRect_fresh (h : FreshOutside R s) (hr : r.Representable) (hR : ∀ p, R p → r.Has p) :
    FreshOutside nowhere (s.redrawRect r) := by
  intro X Y hs _
  show fullLayer s.toScene (X, Y) = some (paint (compositeRect s.toScene r) s.back (s.screen.index X Y))
  rw [(compositeRect_draws s.toScene hr).paints s.back X Y hs]
  by_cases hin : r.Has (X, Y)
  · obtain ⟨c, hc⟩ := fullLayer_isSome s.toScene (X, Y)
    rw [Layer.restrict_of hin, hc]
    rfl
  · rw [Layer.restrict_of_not hin]
    exact h X Y hs fun hp => hin (hR _ hp)

/-- A change of the scene makes stale what it changes in the picture. -/
theorem FreshOutside.change (h : FreshOutside R s) (hback : s'.back = s.back) (hscreen : s'.screen = s.screen)
    (hp : ∀ X Y, s.screen.Shows X Y → ¬ R' (X, Y) → fullLayer s'.toScene (X, Y) = fullLayer s.toScene (X, Y)) :
    FreshOutside (fun p => R p ∨ R' p) s' := by
  intro X Y hs hn
  rw [hscreen] at hs ⊢
  rw [hback, hp X Y hs fun h' => hn (.inr h')]
  exact h X Y hs fun h' => hn (.inl h')

/-! ### Rectangles -/

/-- The edges of a box. -/
structure Edges where
  x0 : ℤ
  y0 : ℤ
  x1 : ℤ
  y1 : ℤ

namespace Edges

/-- The pixel lies between the edges. -/
def Has (e : Edges) (p : ℕ × ℕ) : Prop := e.x0 ≤ p.1 ∧ p.1 < e.x1 ∧ e.y0 ≤ p.2 ∧ p.2 < e.y1

/-- The smallest box around two. -/
def join (a b : Edges) : Edges := ⟨min a.x0 b.x0, min a.y0 b.y0, max a.x1 b.x1, max a.y1 b.y1⟩

/-- Width and height are `int32_t`s, and not negative. -/
structure Fits (e : Edges) : Prop where
  width : 0 ≤ e.x1 - e.x0
  width_lt : e.x1 - e.x0 < 2 ^ 31
  height : 0 ≤ e.y1 - e.y0
  height_lt : e.y1 - e.y0 < 2 ^ 31

theorem join_has {a b : Edges} (h : a.Has p ∨ b.Has p) : (a.join b).Has p := by
  unfold Has at h ⊢
  unfold join
  simp only
  omega

end Edges

/-- The edges of a rectangle; the right and the lower one are 32-bit sums. -/
def Rect.edges (r : Rect) : Edges := ⟨r.x, r.y, i32 (r.x + r.w), i32 (r.y + r.h)⟩

/-- The position is a pair of `int32_t`s. -/
def Rect.Placed (r : Rect) : Prop := -2 ^ 31 ≤ r.x ∧ r.x < 2 ^ 31 ∧ -2 ^ 31 ≤ r.y ∧ r.y < 2 ^ 31

theorem i32_add_sub (x y : ℤ) (h : -2 ^ 31 ≤ y) (h' : y < 2 ^ 31) : i32 (x + i32 (y - x)) = y := by
  unfold i32 toInt32 ofInt
  omega

/-- **The union** has the edges of the smallest box around both, wherever they are, and even if its
width wraps around. -/
theorem rectUnion_edges (ha : a.Placed) (hb : b.Placed) :
    (rectUnion a b).Placed ∧ (rectUnion a b).edges = a.edges.join b.edges ∧
      (rectUnion a b).w = i32 ((a.edges.join b.edges).x1 - (a.edges.join b.edges).x0) ∧
      (rectUnion a b).h = i32 ((a.edges.join b.edges).y1 - (a.edges.join b.edges).y0) := by
  obtain ⟨a1, a2, a3, a4⟩ := ha
  obtain ⟨b1, b2, b3, b4⟩ := hb
  have hu : rectUnion a b = ⟨min a.x b.x, min a.y b.y, i32 (max (i32 (a.x + a.w)) (i32 (b.x + b.w)) - min a.x b.x),
      i32 (max (i32 (a.y + a.h)) (i32 (b.y + b.h)) - min a.y b.y)⟩ := by
    unfold rectUnion
    have hx0 : (if a.x < b.x then a.x else b.x) = min a.x b.x := by split_ifs <;> omega
    have hy0 : (if a.y < b.y then a.y else b.y) = min a.y b.y := by split_ifs <;> omega
    have hx1 : (if i32 (a.x + a.w) > i32 (b.x + b.w) then i32 (a.x + a.w) else i32 (b.x + b.w)) =
        max (i32 (a.x + a.w)) (i32 (b.x + b.w)) := by
      split_ifs <;> omega
    have hy1 : (if i32 (a.y + a.h) > i32 (b.y + b.h) then i32 (a.y + a.h) else i32 (b.y + b.h)) =
        max (i32 (a.y + a.h)) (i32 (b.y + b.h)) := by
      split_ifs <;> omega
    simp only [hx0, hy0, hx1, hy1]
  have hright := i32_add_sub (min a.x b.x) (max (i32 (a.x + a.w)) (i32 (b.x + b.w)))
    (le_max_of_le_left (i32_ge _)) (max_lt (i32_lt _) (i32_lt _))
  have hbottom := i32_add_sub (min a.y b.y) (max (i32 (a.y + a.h)) (i32 (b.y + b.h)))
    (le_max_of_le_left (i32_ge _)) (max_lt (i32_lt _) (i32_lt _))
  rw [hu]
  refine ⟨⟨by simp only; omega, by simp only; omega, by simp only; omega, by simp only; omega⟩, ?_, rfl, rfl⟩
  unfold Rect.edges Edges.join
  simp only [hright, hbottom]

/-- **A union that is not too large** contains everything between its edges. -/
theorem rectUnion_ok (ha : a.Placed) (hb : b.Placed) (hf : (a.edges.join b.edges).Fits) :
    (rectUnion a b).Representable ∧ ∀ p, (a.edges.join b.edges).Has p → (rectUnion a b).Has p := by
  obtain ⟨⟨h1, -, h3, -⟩, hedges, hw, hh⟩ := rectUnion_edges ha hb
  obtain ⟨f1, f2, f3, f4⟩ := hf
  rw [i32_of_mem (by omega) f2] at hw
  rw [i32_of_mem (by omega) f4] at hh
  have hx0 : (rectUnion a b).x = (a.edges.join b.edges).x0 := congrArg Edges.x0 hedges
  have hy0 : (rectUnion a b).y = (a.edges.join b.edges).y0 := congrArg Edges.y0 hedges
  have hx1 : (a.edges.join b.edges).x1 < 2 ^ 31 := max_lt (i32_lt _) (i32_lt _)
  have hy1 : (a.edges.join b.edges).y1 < 2 ^ 31 := max_lt (i32_lt _) (i32_lt _)
  refine ⟨⟨h1, h3, by omega, by omega⟩, fun p hp => ?_⟩
  unfold Edges.Has at hp
  unfold Rect.Has
  omega

/-! ### What changes the picture -/

/-- The box of the cursor. -/
def cursorBox (x y : ℤ) : Rect := ⟨x, y, mouseSize, mouseSize⟩

/-- The edges around both boxes of a cursor that moves. -/
def cursorEdges (ox oy x y : ℤ) : Edges := (cursorBox ox oy).edges.join (cursorBox x y).edges

/-- On the screen, the cursor is in its box. -/
theorem cursorAt_box {sc : Screen} {mx my : ℤ} {X Y : ℕ} (h : (cursorBox mx my).Placed) (hs : sc.Shows X Y)
    (hc : CursorAt mx my X Y) : (cursorBox mx my).edges.Has (X, Y) := by
  obtain ⟨h1, h2, h3, h4⟩ := h
  obtain ⟨y, hy, x, hx, hX, hY⟩ := hc
  obtain ⟨hsx, hsy⟩ := hs
  have hscreen := screen_lt sc
  unfold cursorBox at h1 h2 h3 h4
  simp only at h1 h2 h3 h4
  have hx' : x < 10 := by
    split_ifs at hx <;> omega
  -- a sum that wraps around is negative
  have hX' : mx + x = X := by
    unfold i32 toInt32 ofInt at hX
    split_ifs at hX <;> omega
  have hY' : my + y = Y := by
    unfold i32 toInt32 ofInt at hY
    split_ifs at hY <;> omega
  unfold Rect.edges Edges.Has cursorBox mouseSize
  simp only
  rw [i32_of_mem (by omega) (by omega), i32_of_mem (by omega) (by omega)]
  omega

theorem cursorLayer_none {sc : Screen} {mx my : ℤ} {X Y : ℕ} (h : (cursorBox mx my).Placed) (hs : sc.Shows X Y)
    (hp : ¬ (cursorBox mx my).edges.Has (X, Y)) : cursorLayer (fun _ _ => true) mx my (X, Y) = none :=
  if_neg fun hc => hp (cursorAt_box h hs hc.1)

/-- Moving the cursor. -/
theorem fullLayer_cursor {sc : Screen} {c : Scene} {x y : ℤ} {X Y : ℕ} (h : (cursorBox c.mx c.my).Placed)
    (h' : (cursorBox x y).Placed) (hs : sc.Shows X Y) (hp : ¬ (cursorEdges c.mx c.my x y).Has (X, Y)) :
    fullLayer { c with mx := x, my := y } (X, Y) = fullLayer c (X, Y) := by
  unfold fullLayer Layer.above
  simp only
  rw [cursorLayer_none h hs fun hc => hp (Edges.join_has (.inl hc)),
    cursorLayer_none h' hs fun hc => hp (Edges.join_has (.inr hc))]

/-- The box of a window, if it is at `(x, y)`. -/
def WmWin.boxAt (w : WmWin) (x y : ℤ) : Rect := ⟨x, y, toInt32 w.w, toInt32 w.h⟩

/-- So is that of a window that is in use. -/
def WinOK (w : WmWin) : Prop := w.inUse = true → (w.boxAt w.x w.y).Placed

theorem winLayer_none {w : WmWin} (hp : ¬ (w.boxAt w.x w.y).edges.Has p) : winLayer w p = none :=
  winLayer_hidden fun _ hc => hp hc

theorem stack_congr {α : Type*} {f g : α → Layer (ℕ × ℕ) ℕ} (as : List α) (h : ∀ a ∈ as, f a p = g a p) :
    Layer.stack (as.map f) p = Layer.stack (as.map g) p := by
  induction as with
  | nil => rfl
  | cons a as ih =>
    show ((Layer.stack (as.map f)) p).or (f a p) = ((Layer.stack (as.map g)) p).or (g a p)
    rw [ih fun b hb => h b (List.mem_cons_of_mem _ hb), h a List.mem_cons_self]

/-- Changing a window. -/
theorem fullLayer_window {c : Scene} {i : Fin maxWins} {w : WmWin} (h : winLayer (c.wins i) p = winLayer w p) :
    fullLayer { c with wins := Function.update c.wins i w } p = fullLayer c p := by
  unfold fullLayer Layer.above
  simp only
  rw [stack_congr (List.finRange maxWins) fun j _ => ?_]
  by_cases hj : j = i
  · subst hj
    rw [Function.update_self, h]
  · rw [Function.update_of_ne hj]

/-! ### Steps that draw nothing -/

/-- The scene and the back buffer are the same, and nothing was drawn. -/
structure Quiet (s s' : WinMan) : Prop where
  scene : s'.toScene = s.toScene
  back : s'.back = s.back
  drawn : s'.drawn = s.drawn

theorem Quiet.refl (s : WinMan) : Quiet s s := ⟨rfl, rfl, rfl⟩

theorem Quiet.trans {s'' : WinMan} (h : Quiet s s') (h' : Quiet s' s'') : Quiet s s'' :=
  ⟨h'.scene.trans h.scene, h'.back.trans h.back, h'.drawn.trans h.drawn⟩

theorem FreshOutside.quiet (h : FreshOutside R s) (hq : Quiet s s') : FreshOutside R s' := by
  intro X Y hs hn
  rw [hq.scene] at hs ⊢
  rw [hq.back]
  exact h X Y hs hn

theorem call_quiet (s : WinMan) (c : WmCall) : Quiet s (s.call c) := ⟨rfl, rfl, rfl⟩

theorem sendEventTo_quiet (s : WinMan) (pid : ℕ) (e : IpcEvent) : Quiet s (s.sendEventTo pid e) := by
  unfold sendEventTo
  split_ifs
  · exact .refl s
  · exact call_quiet s _

theorem Quiet.ite {c : Prop} [Decidable c] {a b : WinMan} (ha : Quiet s a) (hb : Quiet s b) :
    Quiet s (if c then a else b) := by
  split_ifs
  · exact ha
  · exact hb

theorem tell_quiet (s : WinMan) (id : ℕ) (e : WmWin → IpcEvent) : Quiet s (s.tell id e) := by
  unfold WinMan.tell
  cases winById s.wins id with
  | none => exact .refl s
  | some i => exact sendEventTo_quiet s _ _

theorem notify_quiet (s : WinMan) (id type : ℕ) : Quiet s (s.notify id type) := tell_quiet s id _

theorem updateFocus_quiet (s : WinMan) (id : ℕ) : Quiet s (s.updateFocus id) := by
  unfold updateFocus
  split_ifs
  · exact .refl s
  · have h1 := notify_quiet s s.focusWin evLostFocus
    have h2 : Quiet (s.notify s.focusWin evLostFocus) { s.notify s.focusWin evLostFocus with focusWin := id } :=
      ⟨rfl, rfl, rfl⟩
    exact (h1.trans h2).trans (notify_quiet _ _ _)

theorem handleMouseEvent_quiet (s : WinMan) : Quiet s s.handleMouseEvent := by
  unfold handleMouseEvent
  simp only
  set under := winAt s.wins s.mx s.my
  set s1 := if s.hoverWin ≠ 0 then s.notify s.hoverWin evMouseExit else s with hs1
  have h1 : Quiet s s1 := .ite (notify_quiet s _ _) (.refl s)
  set s2 := if under ≠ 0 then s1.tell under fun w =>
      { winId := w.winId, type := evMouseEnter, x := i32 (s1.mx - w.x), y := i32 (s1.my - w.y) } else s1 with hs2
  have h2 : Quiet s1 s2 := .ite (tell_quiet s1 _ _) (.refl s1)
  set s3 : WinMan := if under ≠ s.hoverWin then { s2 with hoverWin := under } else s with hs3
  have h3 : Quiet s s3 := .ite ((h1.trans h2).trans ⟨rfl, rfl, rfl⟩) (.refl s)
  exact h3.trans (.ite (tell_quiet s3 _ _) (.refl s3))

/-! ### The table -/

theorem winById_some {id : ℕ} {i : Fin maxWins} (h : winById t id = some i) :
    (t i).inUse = true ∧ (t i).winId = id := by
  have h1 := List.find?_some h
  simpa using h1

theorem move_all {P : WmWin → Prop} (h : ∀ i, P (t i)) (h0 : P .zero) (i j : Fin maxWins) :
    ∀ l, P (t.move i j l) := by
  intro l
  unfold move
  by_cases hl : l = i
  · subst hl
    rwa [Function.update_self]
  · rw [Function.update_of_ne hl]
    by_cases hl' : l = j
    · subst hl'
      rw [Function.update_self]
      exact h i
    · rw [Function.update_of_ne hl']
      exact h l

theorem update_all {P : WmWin → Prop} (h : ∀ i, P (t i)) {w : WmWin} (hw : P w) (i : Fin maxWins) :
    ∀ l, P (Function.update t i w l) := by
  intro l
  by_cases hl : l = i
  · subst hl
    rwa [Function.update_self]
  · rw [Function.update_of_ne hl]
    exact h l

/-- Raising moves windows and empties slots. -/
theorem raiseWindow_all {P : WmWin → Prop} (h : ∀ i, P (t i)) (h0 : P .zero) (id : ℕ) :
    ∀ i, P (raiseWindow t id i) := by
  intro l
  unfold raiseWindow
  split_ifs
  · exact h l
  cases winById t id with
  | none => exact h l
  | some k =>
    simp only
    split_ifs
    · exact h l
    · exact h l
    cases bubble t id with
    | none => exact h l
    | some ij =>
      obtain ⟨i, j⟩ := ij
      simp only
      by_cases hj : (t j).inUse = true
      swap
      · rw [if_pos hj]
        exact move_all h h0 i j l
      · rw [if_neg (not_not.2 hj)]
        exact update_all (update_all h (h i) _) (h _) i l

/-! ### Press, drag and release -/

/-- A press raises a window, perhaps, and draws everything anew. -/
theorem press_ok (s : WinMan) : ∃ (s1 : WinMan) (t' : WinTable), s.press = s1.redraw ∧
    s1.toScene = { s.toScene with wins := t' } ∧ (t' = s.wins ∨ ∃ id, t' = raiseWindow s.wins id) := by
  unfold press
  simp only
  set under := winAt s.wins s.mx s.my
  by_cases hu : under = 0
  · rw [if_neg (not_not.2 hu)]
    exact ⟨s, s.wins, rfl, rfl, .inl rfl⟩
  rw [if_pos hu]
  set t' := raiseWindow s.wins under with ht
  set s1 : WinMan := { s with wins := t' } with hs1
  have hscene : s1.toScene = { s.toScene with wins := t' } := rfl
  cases winById t' under with
  | none => exact ⟨s1, t', rfl, hscene, .inr ⟨under, rfl⟩⟩
  | some i =>
    simp only
    set s2 := if (t' i).isFocusable = true then s1.updateFocus under else s1 with hs2
    have h2 : Quiet s1 s2 := .ite (updateFocus_quiet s1 under) (.refl s1)
    set s3 : WinMan := if ¬ (t' i).isForeground = true ∧ i32 (s2.my - (t' i).y) ≥ 0 ∧
        i32 (s2.my - (t' i).y) < wmTbHeight then
      { s2 with dragging := true, dragWin := under, dragDx := i32 (s2.mx - (t' i).x),
                dragDy := i32 (s2.my - (t' i).y) } else s2 with hs3
    have h3 : Quiet s2 s3 := .ite ⟨rfl, rfl, rfl⟩ (.refl s2)
    exact ⟨_, t', rfl, ((h2.trans h3).trans (sendEventTo_quiet s3 _ _)).scene.trans hscene, .inr ⟨under, rfl⟩⟩

theorem release_fresh (s : WinMan) (R : ℕ × ℕ → Prop) : FreshOutside R s.release := redraw_fresh _ R

theorem clampTo_range (n size w : ℤ) (hn : n < 2 ^ 31) : 0 ≤ clampTo n size w ∧ clampTo n size w < 2 ^ 31 := by
  have htop := i32_lt (size - w)
  unfold clampTo
  simp only
  split_ifs <;> omega

/-- Where a drag puts a window. -/
def dragPlace (s : WinMan) (w : WmWin) : ℤ × ℤ :=
  (clampTo (i32 (s.mx - s.dragDx)) (toInt32 s.screen.w) (toInt32 w.w), clampTo (i32 (s.my - s.dragDy))
    (toInt32 s.screen.h) (toInt32 w.h))

/-- The window in slot `i` is the one that is dragged, and it has another place to go to. -/
def DragMoves (s : WinMan) (i : Fin maxWins) : Prop :=
  winById s.wins s.dragWin = some i ∧
    ((dragPlace s (s.wins i)).1 ≠ (s.wins i).x ∨ (dragPlace s (s.wins i)).2 ≠ (s.wins i).y)

/-- The edges around a window, before and after it is dragged. -/
def windowEdges (s : WinMan) (w : WmWin) : Edges :=
  (w.boxAt w.x w.y).edges.join (w.boxAt (dragPlace s w).1 (dragPlace s w).2).edges

/-- What is composed anew: the window and the cursor, before and after. -/
def dragRect (s : WinMan) (ox oy : ℤ) (w : WmWin) : Rect :=
  rectUnion (rectUnion (w.boxAt w.x w.y) (w.boxAt (dragPlace s w).1 (dragPlace s w).2))
    (rectUnion (cursorBox ox oy) (cursorBox s.mx s.my))

/-- The state in which the window in slot `i` is at its new place. -/
def dragged (s : WinMan) (i : Fin maxWins) : WinMan :=
  { s with
    wins := Function.update s.wins i
      { s.wins i with x := (dragPlace s (s.wins i)).1, y := (dragPlace s (s.wins i)).2 } }

theorem drag_eq {ox oy : ℤ} {i : Fin maxWins} (hid : winById s.wins s.dragWin = some i) : s.drag ox oy =
    if (dragPlace s (s.wins i)).1 ≠ (s.wins i).x ∨ (dragPlace s (s.wins i)).2 ≠ (s.wins i).y then
      ((dragged s i).redrawRect (dragRect s ox oy (s.wins i)), true) else (s, false) := by
  unfold drag
  rw [hid]
  rfl

/-- Moving a window makes stale what it covers at both places. -/
theorem dragged_layer {i : Fin maxWins} (hp : ¬ (windowEdges s (s.wins i)).Has p) :
    fullLayer (dragged s i).toScene p = fullLayer s.toScene p := by
  refine fullLayer_window ?_
  rw [winLayer_none fun hc => hp (Edges.join_has (.inl hc))]
  exact (winLayer_none fun hc => hp (Edges.join_has (.inr hc))).symm

/-- **A drag** redraws the window at both places and the cursor at both places, or does nothing. -/
theorem drag_fresh {ox oy : ℤ} (hwins : ∀ i, WinOK (s.wins i)) (hold : (cursorBox ox oy).Placed)
    (hnew : (cursorBox s.mx s.my).Placed) (hfresh : FreshOutside (cursorEdges ox oy s.mx s.my).Has s)
    (hfits : ∀ i, DragMoves s i → ((windowEdges s (s.wins i)).join (cursorEdges ox oy s.mx s.my)).Fits) :
    (s.drag ox oy).2 = true ∧ FreshOutside nowhere (s.drag ox oy).1 ∨ s.drag ox oy = (s, false) ∧
      ∀ i, ¬ DragMoves s i := by
  cases hid : winById s.wins s.dragWin with
  | none =>
    refine .inr ⟨?_, fun i hi => ?_⟩
    · -- no window is dragged
      unfold drag
      rw [hid]
    · have hfind := hi.1
      rw [hid] at hfind
      cases hfind
  | some i =>
    rw [drag_eq hid]
    by_cases hmove : (dragPlace s (s.wins i)).1 ≠ (s.wins i).x ∨ (dragPlace s (s.wins i)).2 ≠ (s.wins i).y
    swap
    · -- the window is there already
      rw [if_neg hmove]
      refine .inr ⟨rfl, fun j hj => ?_⟩
      obtain rfl := Option.some.inj (hid.symm.trans hj.1)
      exact hmove hj.2
    rw [if_pos hmove]
    refine .inl ⟨rfl, ?_⟩
    have hx := clampTo_range (i32 (s.mx - s.dragDx)) (toInt32 s.screen.w) (toInt32 (s.wins i).w) (i32_lt _)
    have hy := clampTo_range (i32 (s.my - s.dragDy)) (toInt32 s.screen.h) (toInt32 (s.wins i).h) (i32_lt _)
    have hplaced : ((s.wins i).boxAt (s.wins i).x (s.wins i).y).Placed := hwins i (winById_some hid).1
    have hplaced' : ((s.wins i).boxAt (dragPlace s (s.wins i)).1 (dragPlace s (s.wins i)).2).Placed :=
      ⟨(show (-2 : ℤ) ^ 31 ≤ 0 by norm_num).trans hx.1, hx.2, (show (-2 : ℤ) ^ 31 ≤ 0 by norm_num).trans hy.1, hy.2⟩
    obtain ⟨hpw, hew, -⟩ := rectUnion_edges hplaced hplaced'
    obtain ⟨hpc, hec, -⟩ := rectUnion_edges hold hnew
    have hfit : (Edges.join (rectUnion ((s.wins i).boxAt (s.wins i).x (s.wins i).y)
        ((s.wins i).boxAt (dragPlace s (s.wins i)).1 (dragPlace s (s.wins i)).2)).edges
          (rectUnion (cursorBox ox oy) (cursorBox s.mx s.my)).edges).Fits := by
      rw [hew, hec]
      exact hfits i ⟨hid, hmove⟩
    obtain ⟨hrep, hall⟩ := rectUnion_ok hpw hpc hfit
    rw [hew, hec] at hall
    have hstale : FreshOutside (fun p => (cursorEdges ox oy s.mx s.my).Has p ∨ (windowEdges s (s.wins i)).Has p)
      (dragged s i) :=
      hfresh.change rfl rfl fun X Y _ hp => dragged_layer hp
    exact redrawRect_fresh hstale hrep fun p hp => hall p (Edges.join_has hp.symm)

/-! ### The handler -/

/-- Between the parts of the handler: only the cursor's boxes can be stale, and not even they after a
redraw or if the mouse has not moved. -/
structure HandlerOK (ox oy x y : ℤ) (moved : Bool) (s : WinMan) (didRedraw : Bool) : Prop where
  fresh : FreshOutside (cursorEdges ox oy x y).Has s
  redrawn : didRedraw = true ∨ moved = false → FreshOutside nowhere s

theorem HandlerOK.of_fresh {ox oy x y : ℤ} {moved didRedraw : Bool} (h : FreshOutside nowhere s) :
    HandlerOK ox oy x y moved s didRedraw := ⟨h.mono fun _ => False.elim, fun _ => h⟩

/-- The left button goes down, or up; the mouse moves. -/
def leftDown (s : WinMan) (ev : MouseEvent) : Bool := !s.left && decide (ev.buttons &&& 1 ≠ 0)

def leftUp (s : WinMan) (ev : MouseEvent) : Bool := s.left && !decide (ev.buttons &&& 1 ≠ 0)

def moves (s : WinMan) (ev : MouseEvent) : Bool := decide (s.mx ≠ ev.x ∨ s.my ≠ ev.y)

/-- The state when the event has been read. -/
def pointed (s : WinMan) (ev : MouseEvent) : WinMan :=
  { s with
    mx := ev.x, my := ev.y, left := decide (ev.buttons &&& 1 ≠ 0), right := decide (ev.buttons &&& 2 ≠ 0)
    middle := decide (ev.buttons &&& 4 ≠ 0) }

/-- The state after the press, if there is one. -/
def pressed (s : WinMan) (ev : MouseEvent) : WinMan := if leftDown s ev then (pointed s ev).press else pointed s ev

/-- The event drags the window in slot `i` to another place. -/
structure Drags (s : WinMan) (ev : MouseEvent) (i : Fin maxWins) : Prop where
  dragging : (pressed s ev).dragging = true ∧ (pressed s ev).dragWin ≠ 0 ∧ (pressed s ev).left = true
  moved : moves s ev = true
  window : DragMoves (pressed s ev) i

/-- **The condition**: the boxes that are redrawn without full composition span less than `2^31` pixels each way.
They are the boxes of the cursor before and after, and in a drag that moves a window also those of the window. -/
structure SpanOK (s : WinMan) (ev : MouseEvent) : Prop where
  drag : ∀ i, Drags s ev i →
    ((windowEdges (pressed s ev) ((pressed s ev).wins i)).join (cursorEdges s.mx s.my ev.x ev.y)).Fits
  cursor : moves s ev = true → leftDown s ev = false → leftUp s ev = false → (∀ i, ¬ Drags s ev i) →
    (cursorEdges s.mx s.my ev.x ev.y).Fits

/-- **Incremental mouse redraw leaves no stale pixels**, for any buttons, any move and any windows, when what is
redrawn incrementally is not so large that its width or height wraps around. -/
theorem mouse_redraw (hfresh : Fresh s) (hwins : ∀ i, WinOK (s.wins i)) (hold : (cursorBox s.mx s.my).Placed)
    (hnew : (cursorBox ev.x ev.y).Placed) (hspan : SpanOK s ev) : Fresh (s.onMouse ev) := by
  rw [fresh_iff] at hfresh ⊢
  have hcursor : ∀ X Y, s.screen.Shows X Y → ¬ (cursorEdges s.mx s.my ev.x ev.y).Has (X, Y) →
      fullLayer (pointed s ev).toScene (X, Y) = fullLayer s.toScene (X, Y) :=
    fun X Y hs hp => fullLayer_cursor hold hnew hs hp
  have h0 : HandlerOK s.mx s.my ev.x ev.y (moves s ev) (pointed s ev) false := by
    have hstale : FreshOutside (fun p => nowhere p ∨ (cursorEdges s.mx s.my ev.x ev.y).Has p) (pointed s ev) :=
      hfresh.change rfl rfl hcursor
    refine ⟨hstale.mono fun p hp => hp.resolve_left id, fun hm => ?_⟩
    have hstay : s.mx = ev.x ∧ s.my = ev.y := by
      unfold moves at hm
      simpa [not_or] using hm
    have hscene : (pointed s ev).toScene = s.toScene := by
      show { s.toScene with mx := ev.x, my := ev.y } = s.toScene
      rw [← hstay.1, ← hstay.2]
    intro X Y hs hn
    rw [hscene] at hs ⊢
    exact hfresh X Y hs hn
  -- the press
  have h1 : HandlerOK s.mx s.my ev.x ev.y (moves s ev) (pressed s ev) (leftDown s ev) ∧ (pressed s ev).mx = ev.x ∧
      (pressed s ev).my = ev.y ∧ ∀ i, WinOK ((pressed s ev).wins i) := by
    unfold pressed
    cases hd : leftDown s ev with
    | false => exact ⟨h0, rfl, rfl, hwins⟩
    | true =>
      rw [if_pos rfl]
      obtain ⟨s1, t', hp, hscene, ht⟩ := press_ok (pointed s ev)
      have hsc : (pointed s ev).press.toScene = { (pointed s ev).toScene with wins := t' } := by rw [hp]; exact hscene
      refine ⟨.of_fresh (by rw [hp]; exact redraw_fresh s1 nowhere), by rw [hsc]; rfl, by rw [hsc]; rfl, ?_⟩
      rw [hsc]
      rcases ht with rfl | ⟨id, rfl⟩
      · exact hwins
      · exact raiseWindow_all (P := WinOK) hwins (fun h => by cases h) id
  obtain ⟨h1, hx1, hy1, hw1⟩ := h1
  -- the drag
  obtain ⟨s2, d2, he2, h2, hpos2⟩ : ∃ (s2 : WinMan) (d2 : Bool),
      (if (pressed s ev).dragging = true ∧ (pressed s ev).dragWin ≠ 0 ∧ (pressed s ev).left = true ∧
        moves s ev = true then
        (((pressed s ev).drag s.mx s.my).1, leftDown s ev || ((pressed s ev).drag s.mx s.my).2)
        else (pressed s ev, leftDown s ev)) = (s2, d2) ∧
      HandlerOK s.mx s.my ev.x ev.y (moves s ev) s2 d2 ∧
        (d2 = false → s2.mx = ev.x ∧ s2.my = ev.y ∧ leftDown s ev = false ∧ ∀ i, ¬ Drags s ev i) := by
    by_cases hdrag : (pressed s ev).dragging = true ∧ (pressed s ev).dragWin ≠ 0 ∧ (pressed s ev).left = true ∧
      moves s ev = true
    · rw [if_pos hdrag]
      obtain ⟨hg, hwin, hleft, hm⟩ := hdrag
      have hfits : ∀ i, DragMoves (pressed s ev) i → ((windowEdges (pressed s ev) ((pressed s ev).wins i)).join
          (cursorEdges s.mx s.my (pressed s ev).mx (pressed s ev).my)).Fits := by
        intro i hi
        rw [hx1, hy1]
        exact hspan.drag i ⟨⟨hg, hwin, hleft⟩, hm, hi⟩
      rcases drag_fresh hw1 hold (by rw [hx1, hy1]; exact hnew) (by rw [hx1, hy1]; exact h1.fresh) hfits with
        ⟨hd, hf⟩ | ⟨hd, hnone⟩
      · refine ⟨_, _, rfl, .of_fresh hf, fun h => ?_⟩
        rw [hd, Bool.or_true] at h
        cases h
      · rw [hd]
        refine ⟨_, _, rfl, by rwa [Bool.or_false], fun h => ⟨hx1, hy1, by rwa [Bool.or_false] at h, fun i hi => ?_⟩⟩
        exact hnone i hi.window
    · rw [if_neg hdrag]
      refine ⟨_, _, rfl, h1, fun h => ⟨hx1, hy1, h, fun i hi => hdrag ?_⟩⟩
      exact ⟨hi.dragging.1, hi.dragging.2.1, hi.dragging.2.2, hi.moved⟩
  -- the release
  obtain ⟨s3, d3, he3, h3, hpos3⟩ : ∃ (s3 : WinMan) (d3 : Bool),
      (if leftUp s ev = true then (s2.release, true) else (s2, d2)) = (s3, d3) ∧
      HandlerOK s.mx s.my ev.x ev.y (moves s ev) s3 d3 ∧
        (d3 = false → s3.mx = ev.x ∧ s3.my = ev.y ∧ leftDown s ev = false ∧
        leftUp s ev = false ∧ ∀ i, ¬ Drags s ev i) := by
    cases hup : leftUp s ev with
    | true => exact ⟨_, _, rfl, .of_fresh (release_fresh s2 nowhere), fun h => by cases h⟩
    | false =>
      refine ⟨s2, d2, rfl, h2, fun h => ?_⟩
      obtain ⟨hx, hy, hdown, hnone⟩ := hpos2 h
      exact ⟨hx, hy, hdown, rfl, hnone⟩
  have hrun : s.onMouse ev = if moves s ev then
      if d3 then s3.handleMouseEvent else s3.handleMouseEvent.redrawRect
        (rectUnion (cursorBox s.mx s.my) (cursorBox s3.handleMouseEvent.mx s3.handleMouseEvent.my))
      else s3 := by
    have hpress : (if leftDown s ev then ((pointed s ev).press, true) else (pointed s ev, false)) =
      (pressed s ev, leftDown s ev) := by
      unfold pressed
      cases leftDown s ev <;> rfl
    have hbody : s.onMouse ev = (fun y : WinMan × Bool => (fun z : WinMan × Bool => (fun u : WinMan × Bool =>
        if moves s ev then
          if u.2 then u.1.handleMouseEvent else u.1.handleMouseEvent.redrawRect
            (rectUnion (cursorBox s.mx s.my) (cursorBox u.1.handleMouseEvent.mx u.1.handleMouseEvent.my))
        else u.1)
          (if leftUp s ev = true then (z.1.release, true) else z))
          (if y.1.dragging = true ∧ y.1.dragWin ≠ 0 ∧ y.1.left = true ∧ moves s ev = true then
            ((y.1.drag s.mx s.my).1, y.2 || (y.1.drag s.mx s.my).2) else y))
          (if leftDown s ev then ((pointed s ev).press, true) else (pointed s ev, false)) := rfl
    rw [hbody, hpress]
    simp only [he2, he3]
  rw [hrun]
  cases hm : moves s ev with
  | false =>
    rw [if_neg Bool.false_ne_true]
    exact h3.redrawn (.inr hm)
  | true =>
    rw [if_pos rfl]
    have hq := handleMouseEvent_quiet s3
    cases hd : d3 with
    | true => exact (h3.redrawn (.inl hd)).quiet hq
    | false =>
      obtain ⟨hx, hy, hdown, hup, hnone⟩ := hpos3 hd
      have hx' : s3.handleMouseEvent.mx = ev.x := by rw [hq.scene, hx]
      have hy' : s3.handleMouseEvent.my = ev.y := by rw [hq.scene, hy]
      rw [if_neg Bool.false_ne_true, hx', hy']
      obtain ⟨hrep, hall⟩ := rectUnion_ok hold hnew (hspan.cursor hm hdown hup hnone)
      exact redrawRect_fresh (h3.fresh.quiet hq) hrep hall

/-- A screen of one pixel that shows the cursor. -/
def onePixel : WinMan :=
  { screen := dotScreen, wins := fun _ => .zero, mx := 0, my := 0
    nextWinId := 1, left := false, right := false, middle := false, dragDx := 0, dragDy := 0, dragWin := 0
    dragging := false, hoverWin := 0, focusWin := 0, back := fun _ => cursorColor, drawn := [], calls := [] }

theorem onePixel_shows {X Y : ℕ} (h : onePixel.screen.Shows X Y) : X = 0 ∧ Y = 0 := by
  obtain ⟨h1, h2⟩ := h
  have hw : onePixel.screen.w = 1 := rfl
  have hh : onePixel.screen.h = 1 := rfl
  omega

theorem onePixel_fresh : Fresh onePixel := by
  intro X Y h
  obtain ⟨rfl, rfl⟩ := onePixel_shows h
  decide +kernel

/-- A window of two pixels, the left one of which is off the screen; it is being dragged, by a cursor that is off
the screen, too. -/
def halfOut : WinMan := WinMan.redraw
  { onePixel with
    wins := Function.update (fun _ => .zero) ⟨0, maxWins_pos⟩
      ⟨true, 1, 2, 0, 2, 1, 2, 1, some ⟨2, fun i => 7 + i⟩, -1, 0⟩
    mx := -17, left := true, dragging := true, dragWin := 1 }

/-- The cursor comes in, and the window with it. -/
theorem mouse_redraw_halfOut : ((halfOut.onMouse ⟨3, 0, 1⟩).wins ⟨0, maxWins_pos⟩).x = 0 ∧
    Fresh (halfOut.onMouse ⟨3, 0, 1⟩) := by
  refine ⟨by decide +kernel, mouse_redraw (fresh_iff.2 (redraw_fresh _ _)) (fun i _ => ?_) ?_ ?_ ⟨fun i hi => ?_,
    fun _ _ _ _ => ?_⟩⟩
  · by_cases h0 : i = ⟨0, maxWins_pos⟩
    · rw [h0]
      refine ⟨?_, ?_, ?_, ?_⟩ <;> decide +kernel
    · have hzero : halfOut.wins i = .zero := by
        change Function.update (fun _ => WmWin.zero) _ _ i = _
        exact Function.update_of_ne h0 _ _
      rw [hzero]
      refine ⟨?_, ?_, ?_, ?_⟩ <;> decide
  · refine ⟨?_, ?_, ?_, ?_⟩ <;> decide +kernel
  · refine ⟨?_, ?_, ?_, ?_⟩ <;> decide
  · have hfind : winById (pressed halfOut ⟨3, 0, 1⟩).wins (pressed halfOut ⟨3, 0, 1⟩).dragWin =
      some ⟨0, maxWins_pos⟩ := by
      decide +kernel
    obtain rfl := Option.some.inj (hfind.symm.trans hi.window.1)
    constructor <;> decide +kernel
  · constructor <;> decide +kernel

/-- A window as far to the left as possible, which is being dragged. -/
def farLeft : WinMan := WinMan.redraw
  { onePixel with
    wins := Function.update (fun _ => .zero) ⟨0, maxWins_pos⟩
      ⟨true, 1, 2, 0, 1, 1, 1, 1, some ⟨1, fun _ => 7⟩, -2 ^ 31, 0⟩
    left := true, dragging := true, dragWin := 1 }

/-- The cursor, or a dragged window, moves so far that the width of the union of the boxes wraps around:
nothing is drawn, and the old cursor stays. -/
theorem mouse_redraw_stale : (Fresh onePixel ∧ ¬ Fresh (onePixel.onMouse ⟨-2 ^ 31, 0, 0⟩)) ∧
    Fresh farLeft ∧ ¬ Fresh (farLeft.onMouse ⟨5, 0, 1⟩) := by
  refine ⟨⟨onePixel_fresh, fun h => ?_⟩, fresh_iff.2 (redraw_fresh _ _), fun h => ?_⟩
  · have h0 := h 0 0 ⟨by decide, by decide⟩
    revert h0
    decide +kernel
  · have h0 := h 0 0 ⟨by decide, by decide⟩
    revert h0
    decide +kernel

end Saynaa
