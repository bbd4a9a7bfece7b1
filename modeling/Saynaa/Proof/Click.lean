import Saynaa.Lib.Slots
import Saynaa.Proof.Compose
import Saynaa.User.WinMan

/-!
# What is seen and what is clicked

* `WmWin.Contains`: the rectangle of a window.
* `Topmost`: the window in the highest slot whose rectangle has a point.
* `click_see`: `composite_full` shows it there, and `win_at` finds it.
-/

namespace Saynaa

open Lib WinTable

variable {win : WmWin} {buf : Buffer} {s : Scene} {i : Fin maxWins} {X Y : ℕ}

/-- The rectangle of the window has the point. -/
def WmWin.Contains (win : WmWin) (X Y : ℕ) : Prop :=
  win.x ≤ X ∧ (X : ℤ) < win.x + win.w ∧ win.y ≤ Y ∧ (Y : ℤ) < win.y + win.h

/-- The pixel `(x, y)` of a window's buffer, at an address of 32 bits. -/
def WmWin.bufferPixel (win : WmWin) (buf : Buffer) (x y : ℕ) : ℕ := buf.pixel ((y * win.pitchPx + x) % 2 ^ 30)

/-- **The window in the highest slot** whose rectangle has the point. -/
structure Topmost (t : WinTable) (X Y : ℕ) (i : Fin maxWins) : Prop where
  used : (t i).inUse = true
  contains : (t i).Contains X Y
  top : ∀ j, i < j → (t j).inUse = true → ¬ (t j).Contains X Y

/-- **Windows in use**: they have buffers, and edges of 32 bits. -/
structure WinsOK (t : WinTable) : Prop where
  buffer : ∀ i, (t i).inUse = true → (t i).buf ≠ none
  edges : ∀ i, (t i).inUse = true →
    -2 ^ 31 ≤ (t i).x ∧ (t i).x + (t i).w < 2 ^ 31 ∧ -2 ^ 31 ≤ (t i).y ∧ (t i).y + (t i).h < 2 ^ 31

theorem edge_sum {x : ℤ} {w : ℕ} (hx : -2 ^ 31 ≤ x) (hw : x + w < 2 ^ 31) : i32 (x + toInt32 w) = x + w := by
  unfold i32 toInt32 ofInt
  split_ifs <;> omega

/-- `Covers` has the wrapped edges of the code. -/
theorem covers_iff {t : WinTable} (ht : WinsOK t) (hu : (t i).inUse = true) : (t i).Covers (X, Y) ↔
    (t i).Contains X Y := by
  obtain ⟨hx, hw, hy, hh⟩ := ht.edges i hu
  unfold WmWin.Covers WmWin.Contains
  rw [edge_sum hx hw, edge_sum hy hh]

/-- The pixel of the buffer that belongs at a place of the window. -/
theorem pixel_eq (hc : win.Contains X Y) (hs : s.screen.Shows X Y) (hx : -2 ^ 31 ≤ win.x) (hy : -2 ^ 31 ≤ win.y) :
    win.pixel buf (X, Y) = win.bufferPixel buf (X - win.x).toNat (Y - win.y).toNat := by
  have hscreen := screen_lt s.screen
  obtain ⟨hX, hY⟩ := hs
  obtain ⟨h1, -, h2, -⟩ := hc
  have hox : ofInt (X - win.x) = (X - win.x).toNat := by
    unfold ofInt
    omega
  have hoy : ofInt (Y - win.y) = (Y - win.y).toNat := by
    unfold ofInt
    omega
  unfold WmWin.pixel WmWin.bufferPixel pixelAt
  simp only
  rw [hox, hoy, add_zero]
  congr 1
  omega

/-- **The background and the windows** are drawn before the cursor. -/
theorem compositeFull_eq (s : Scene) :
    ∃ ops, compositeFull s = ops ++ fbDrawCursor s.screen.pitch s.screen.w s.screen.h s.mx s.my ∧
    Draws s.screen ops ((Layer.stack ((List.finRange maxWins).map fun i => winLayer (s.wins i))).above fun _ =>
      some background) :=
  ⟨_, rfl, (fbFill_draws s.screen background).above
    (draws_stack _ fun i _ => (drawWin_part s.screen (s.wins i)).draws.congr fun _ _ _ => Layer.restrict_of trivial)⟩

theorem winAt_topmost {t : WinTable} (ht : WinsOK t) (h : Topmost t X Y i) (hi : (t i).skipsInput = false) :
    winAt t X Y = (t i).winId := by
  have hcovers : ∀ j, (t j).inUse = true →
      ((X : ℤ) ≥ (t j).x ∧ (X : ℤ) < i32 ((t j).x + toInt32 (t j).w) ∧ (Y : ℤ) ≥ (t j).y ∧
        (Y : ℤ) < i32 ((t j).y + toInt32 (t j).h) ↔
        (t j).Contains X Y) := fun j hu => covers_iff ht hu
  unfold winAt
  refine foldl_last (i := i) (fun b => ?_) fun b j hj => ?_
  · simp only
    rw [if_neg (by simp [h.used, hi]), if_pos ((hcovers i h.used).2 h.contains)]
  · simp only
    by_cases hskip : ¬ (t j).inUse = true ∨ (t j).skipsInput = true
    · rw [if_pos hskip]
    · have hu := not_not.1 (not_or.1 hskip).1
      rw [if_neg hskip, if_neg fun hc => h.top j hj hu ((hcovers j hu).1 hc)]

/-- **What is clicked is what is seen.** At a point of the screen, the pixel that is painted before the cursor is
that of the topmost window there, or else of the background; and if that window accepts input, it
is the one at the point. -/
theorem click_see (ht : WinsOK s.wins) (hs : s.screen.Shows X Y) :
    ∃ ops, compositeFull s = ops ++ fbDrawCursor s.screen.pitch s.screen.w s.screen.h s.mx s.my ∧
      (∀ i, Topmost s.wins X Y i → ∃ buf, (s.wins i).buf = some buf ∧
        (∀ back, paint ops back (s.screen.index X Y) =
          (s.wins i).bufferPixel buf (X - (s.wins i).x).toNat (Y - (s.wins i).y).toNat) ∧
        ((s.wins i).skipsInput = false → winAt s.wins X Y = (s.wins i).winId)) ∧
      ((∀ i, (s.wins i).inUse = true → ¬ (s.wins i).Contains X Y) →
        ∀ back, paint ops back (s.screen.index X Y) = background) := by
  obtain ⟨ops, heq, hdraws⟩ := compositeFull_eq s
  refine ⟨ops, heq, fun i hi => ?_, fun hnone back => ?_⟩
  · obtain ⟨buf, hbuf⟩ := Option.ne_none_iff_exists'.1 (ht.buffer i hi.used)
    obtain ⟨hx, -, hy, -⟩ := ht.edges i hi.used
    have hstack := stack_topmost hi.used hbuf ((covers_iff ht hi.used).2 hi.contains)
      fun j hj hu hc => hi.top j hj hu ((covers_iff ht hu).1 hc)
    refine ⟨buf, hbuf, fun back => ?_, winAt_topmost ht hi⟩
    rw [hdraws.paints back X Y hs, ← pixel_eq hi.contains hs hx hy]
    unfold Layer.above
    rw [hstack]
    rfl
  · have hstack : Layer.stack ((List.finRange maxWins).map fun i => winLayer (s.wins i)) (X, Y) = none := by
      apply Layer.stack_none
      intro layer hlayer
      obtain ⟨j, -, rfl⟩ := List.mem_map.1 hlayer
      exact winLayer_hidden fun hu hc => hnone j hu ((covers_iff ht hu).1 hc)
    rw [hdraws.paints back X Y hs]
    unfold Layer.above
    rw [hstack]
    rfl

/-- A window of four pixels, one of them on a screen of one. -/
def oneSeen : Scene :=
  { screen := dotScreen, mx := 0, my := 0
    wins := fun i => if i.val = 0 then
        { WmWin.zero with
          inUse := true, winId := 7, x := -1, y := -1, w := 2, h := 2, pitchPx := 2, buf := some ⟨1, fun k => k⟩ }
      else .zero }

theorem click_see_one : ∃ ops, compositeFull oneSeen = ops ++ fbDrawCursor 1 1 1 0 0 ∧
    (∀ back, paint ops back 0 = 3) ∧ winAt oneSeen.wins 0 0 = 7 := by
  have hwins : ∀ i, oneSeen.wins i =
      if i.val = 0 then
        { WmWin.zero with
          inUse := true, winId := 7, x := -1, y := -1, w := 2, h := 2, pitchPx := 2, buf := some ⟨1, fun k => k⟩ }
      else .zero := fun _ => rfl
  have hok : WinsOK oneSeen.wins := by
    constructor <;> intro i <;> rw [hwins] <;> split_ifs
    · exact fun _ hbuf => (nomatch hbuf)
    · exact fun hu => (nomatch hu)
    · exact fun _ => by decide
    · exact fun hu => (nomatch hu)
  have htop : Topmost oneSeen.wins 0 0 ⟨0, by decide⟩ := by
    refine ⟨rfl, ⟨by decide, by decide, by decide, by decide⟩, fun j hj hu => ?_⟩
    rw [hwins, if_neg (Fin.lt_def.1 hj).ne'] at hu
    cases hu
  obtain ⟨ops, heq, hseen, -⟩ := @click_see oneSeen 0 0 hok ⟨by decide, by decide⟩
  obtain ⟨buf, hbuf, hpaint, hat⟩ := hseen _ htop
  obtain rfl := Option.some.inj hbuf
  exact ⟨ops, heq, hpaint, hat rfl⟩

end Saynaa
