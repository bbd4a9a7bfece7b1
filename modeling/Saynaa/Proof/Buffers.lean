import Saynaa.Lib.Loop
import Saynaa.Proof.Redraw

/-!
# The compositor stays in its buffers

* `WinPart.safe`: drawing a window reads what belongs on the screen.
* `compositeFull_safe`, `compositeRect_safe`: composition is safe when the visible parts of all
  windows lie in their mapped pages.
* `onMsg_ok`: a message that meets `MsgOK` keeps that.
* `buffers_safe`, `buffers_left`: so do runs of such messages, and others do not.
-/

namespace Saynaa

open Lib WinMan WinTable

variable {sc : Screen} {s s' : WinMan} {r : Rect} {win : WmWin} {ops : List PixelOp} {o : PixelOp} {t : WinTable}

/-- The write goes to the screen's part of the back buffer, and what it reads is in the mapped pages. -/
structure PixelOp.Safe (sc : Screen) (o : PixelOp) : Prop where
  write : ∃ X Y, sc.Shows X Y ∧ o.dst = sc.index X Y
  read : ∀ dst buf src, o = .copy dst buf src → src < buf.size

/-- The part of the window that is on the screen lies in the mapped pages. -/
def FitsScreen (sc : Screen) (win : WmWin) : Prop := ∀ buf, win.inUse = true → win.buf = some buf →
  ∀ X Y : ℕ, sc.Shows X Y → win.Covers (X, Y) → pixelAt win.pitchPx (Y - win.y) (X - win.x) 0 < buf.size

theorem WinPart.safe {R : ℕ × ℕ → Prop} (h : WinPart sc win R ops) (hfit : FitsScreen sc win) :
    ∀ o ∈ ops, o.Safe sc := by
  intro o ho
  refine ⟨h.draws.onScreen o ho, fun dst b src he => ?_⟩
  rcases h with ⟨rfl, -⟩ | ⟨buf, x0, y0, x1, y1, huse, hbuf, ⟨h1, h2, h3, h4, h5, h6⟩, rfl, hpart⟩
  · exact absurd ho List.not_mem_nil
  have hscreen := screen_lt sc
  unfold copyRows at ho
  rw [i32_of_mem (by omega) (by omega), i32_of_mem (by omega) (by omega)] at ho
  obtain ⟨yy, hyy, ho⟩ := List.mem_flatMap.1 ho
  obtain ⟨k, hk, rfl⟩ := List.mem_map.1 ho
  rw [List.mem_range] at hyy hk
  have hk' : (k : ℤ) < x1 - x0 := by
    unfold ofInt at hk
    omega
  obtain ⟨X, hX⟩ : ∃ X : ℕ, x0 + k = X := ⟨(x0 + k).toNat, by omega⟩
  obtain ⟨Y, hY⟩ : ∃ Y : ℕ, y0 + yy = Y := ⟨(y0 + yy).toNat, by omega⟩
  have hs : sc.Shows X Y := ⟨by omega, by omega⟩
  have hsrc : pixelAt win.pitchPx (y0 - win.y + yy) (x0 - win.x) k =
      pixelAt win.pitchPx (Y - win.y) (X - win.x) 0 := by
    rw [pixelAt_step, show y0 - win.y + yy = Y - win.y by omega, show x0 - win.x + k = X - win.x by omega]
  injection he with _ hb hsrc'
  rw [← hb, ← hsrc', hsrc]
  exact hfit buf huse hbuf X Y hs ((hpart X Y hs).1 ⟨by omega, by omega, by omega, by omega⟩).1

/-- The cursor reads no window. -/
theorem cursorOps_put {visible : ℤ → ℤ → Bool} {pitch w h : ℕ} {mx my : ℤ}
    (ho : o ∈ cursorOps visible pitch w h mx my) : ∃ d, o = .put d cursorColor := by
  obtain ⟨_, -, _, -, -, -, -, he⟩ := mem_cursorOps.1 ho
  exact ⟨_, he⟩

theorem compositeFull_safe {c : Scene} (h : ∀ i, FitsScreen c.screen (c.wins i)) :
    ∀ o ∈ compositeFull c, o.Safe c.screen := by
  intro o ho
  have hdraw := compositeFull_draws c
  unfold compositeFull at ho
  rcases List.mem_append.1 ho with hfront | hcursor
  · rcases List.mem_append.1 hfront with hfill | hwins
    · refine ⟨hdraw.onScreen o ho, fun dst buf src he => ?_⟩
      obtain ⟨y, -, hfill⟩ := List.mem_flatMap.1 hfill
      obtain ⟨x, -, rfl⟩ := List.mem_map.1 hfill
      cases he
    · obtain ⟨i, -, hwin⟩ := List.mem_flatMap.1 hwins
      exact (drawWin_part c.screen (c.wins i)).safe (h i) o hwin
  · refine ⟨hdraw.onScreen o ho, fun dst buf src he => ?_⟩
    unfold fbDrawCursor at hcursor
    obtain ⟨d, rfl⟩ := cursorOps_put hcursor
    cases he

/-- The rectangle is empty, misses the screen, or its edges are representable. -/
def RectOK (sc : Screen) (r : Rect) : Prop :=
  r.w ≤ 0 ∨ r.h ≤ 0 ∨ (clipRect sc r).w ≤ 0 ∨ (clipRect sc r).h ≤ 0 ∨ r.x + r.w < 2 ^ 31 ∧ r.y + r.h < 2 ^ 31

theorem compositeRect_safe {c : Scene} (h : ∀ i, FitsScreen c.screen (c.wins i)) (hr : RectOK c.screen r)
    (hx : -2 ^ 31 ≤ r.x) (hy : -2 ^ 31 ≤ r.y) : ∀ o ∈ compositeRect c r, o.Safe c.screen := by
  intro o ho
  have ho' := ho
  unfold compositeRect at ho'
  by_cases hempty : r.w ≤ 0 ∨ r.h ≤ 0
  · -- an empty rectangle
    rw [if_pos hempty] at ho'
    exact absurd ho' List.not_mem_nil
  rw [if_neg hempty] at ho'
  simp only at ho'
  by_cases hout : (clipRect c.screen r).w ≤ 0 ∨ (clipRect c.screen r).h ≤ 0
  · -- a rectangle outside the screen
    rw [if_pos hout] at ho'
    exact absurd ho' List.not_mem_nil
  rw [if_neg hout] at ho'
  have hrep : r.Representable := by
    unfold RectOK at hr
    have hedges : r.x + r.w < 2 ^ 31 ∧ r.y + r.h < 2 ^ 31 := by tauto
    exact ⟨hx, hy, hedges.1, hedges.2⟩
  rw [not_or, not_le, not_le] at hempty hout
  have hinside := (clipRect_ok hrep hempty.1 hempty.2).1 hout.1 hout.2
  have hscreen := (compositeRect_draws c hrep).onScreen o ho
  rcases List.mem_append.1 ho' with hfront | hcursor
  · -- the background and the windows
    rcases List.mem_append.1 hfront with hfill | hwins
    · refine ⟨hscreen, fun dst buf src he => ?_⟩
      obtain ⟨y, -, hfill⟩ := List.mem_flatMap.1 hfill
      obtain ⟨x, -, rfl⟩ := List.mem_map.1 hfill
      cases he
    · obtain ⟨i, -, hwin⟩ := List.mem_flatMap.1 hwins
      exact (drawWinIn_part hinside hout.1 hout.2 (c.wins i)).safe (h i) o hwin
  · -- the cursor
    refine ⟨hscreen, fun dst buf src he => ?_⟩
    unfold fbDrawCursorClipped at hcursor
    obtain ⟨d, rfl⟩ := cursorOps_put hcursor
    cases he

/-! ### Messages -/

/-- The visible part of a window at `(x, y)` lies in `pages` pages: its last pixel does. Edges that are
not representable make the window invisible. -/
def VisibleFits (sc : Screen) (x y : ℤ) (w h pages : ℕ) : Prop :=
  let cols : ℤ := min w (sc.w - x)
  let rows : ℤ := min h (sc.h - y)
  x + w < 2 ^ 31 → y + h < 2 ^ 31 → 0 < cols → 0 < rows → (rows - 1) * w + cols ≤ 1024 * pages

theorem newPos_mem (id flags : ℕ) : 0 ≤ (newPos id flags).1 ∧ (newPos id flags).1 < 2 ^ 30 ∧
    0 ≤ (newPos id flags).2 ∧ (newPos id flags).2 < 2 ^ 30 := by
  unfold newPos
  split_ifs
  · norm_num
  · simp only
    omega

/-- An edge of a window that is to the right of (or below) a place on the screen does not wrap. -/
theorem edge_of_covers {x X : ℤ} {w : ℕ} (hx0 : 0 ≤ x) (hx : x < 2 ^ 30) (hw : w < 2 ^ 32) (h1 : x ≤ X)
    (h2 : X < i32 (x + toInt32 w)) : x + w < 2 ^ 31 ∧ X < x + w := by
  have hwrap : ∀ z : ℤ, -2 ^ 31 ≤ z → z < 2 ^ 32 → i32 z = if z < 2 ^ 31 then z else z - 2 ^ 32 := by
    intro z h3 h4
    unfold i32 toInt32 ofInt
    split_ifs <;> omega
  by_cases hbig : w < 2 ^ 31
  · rw [toInt32_of_lt hbig, hwrap _ (by omega) (by omega)] at h2
    split_ifs at h2 <;> omega
  · have hneg : toInt32 w = w - 2 ^ 32 := if_neg hbig
    rw [hneg, hwrap _ (by omega) (by omega)] at h2
    split_ifs at h2 <;> omega

theorem fitsScreen_of (hw : win.w < 2 ^ 32) (hh : win.h < 2 ^ 32) (hpitch : win.pitchPx = win.w)
    (hx0 : 0 ≤ win.x) (hx : win.x < 2 ^ 30) (hy0 : 0 ≤ win.y) (hy : win.y < 2 ^ 30)
    (hfit : ∀ buf, win.buf = some buf → VisibleFits sc win.x win.y win.w win.h buf.pages) : FitsScreen sc win := by
  intro buf _ hbuf X Y hs hc
  obtain ⟨hc1, hc2, hc3, hc4⟩ := hc
  simp only at hc1 hc2 hc3 hc4
  obtain ⟨hx2, hx3⟩ := edge_of_covers hx0 hx hw hc1 hc2
  obtain ⟨hy2, hy3⟩ := edge_of_covers hy0 hy hh hc3 hc4
  obtain ⟨hX, hY⟩ := hs
  obtain ⟨col, hcol⟩ : ∃ col : ℕ, (X : ℤ) - win.x = col := ⟨(X - win.x).toNat, by omega⟩
  obtain ⟨row, hrow⟩ : ∃ row : ℕ, (Y : ℤ) - win.y = row := ⟨(Y - win.y).toNat, by omega⟩
  have h := hfit buf hbuf hx2 hy2 (by omega) (by omega)
  have hcols : (col : ℤ) < min (win.w : ℤ) (sc.w - win.x) := by omega
  have hrows : (row : ℤ) ≤ min (win.h : ℤ) (sc.h - win.y) - 1 := by omega
  have hmul := mul_le_mul_of_nonneg_right hrows (Int.natCast_nonneg win.w)
  have hindex : row * win.w + col < buf.size := by
    unfold Buffer.size
    zify
    linarith
  have hrow' : ofInt (row : ℤ) = row := by
    unfold ofInt
    omega
  have hcol' : ofInt (col : ℤ) = col := by
    unfold ofInt
    omega
  rw [hpitch, hcol, hrow]
  unfold pixelAt
  rw [hrow', hcol']
  have h1 := Nat.mod_le (row * win.w) (2 ^ 32)
  have h2 := Nat.mod_le (row * win.w % 2 ^ 32 + col + 0) (2 ^ 30)
  omega

/-- **The invariant**: all windows fit, and every write so far was safe. -/
structure ServerOK (sc : Screen) (s : WinMan) : Prop where
  screen : s.screen = sc
  fits : ∀ i, FitsScreen sc (s.wins i)
  drawn : ∀ o ∈ s.drawn, o.Safe sc

theorem ServerOK.quiet (h : ServerOK sc s) (hq : Quiet s s') : ServerOK sc s' :=
  ⟨by rw [hq.scene, h.screen], by rw [hq.scene]; exact h.fits, by rw [hq.drawn]; exact h.drawn⟩

/-- A change of the table. -/
theorem ServerOK.table (h : ServerOK sc s) (hfits : ∀ i, FitsScreen sc (t i)) (hscreen : s'.screen = s.screen)
    (hdrawn : s'.drawn = s.drawn) (hwins : s'.wins = t) : ServerOK sc s' :=
  ⟨by rw [hscreen, h.screen], by rw [hwins]; exact hfits, by rw [hdrawn]; exact h.drawn⟩

theorem ServerOK.draw (h : ServerOK sc s) (hops : ∀ o ∈ ops, o.Safe sc) : ServerOK sc (s.draw ops) := by
  refine ⟨h.screen, h.fits, fun o ho => ?_⟩
  rcases List.mem_append.1 ho with ho | ho
  · exact h.drawn o ho
  · exact hops o ho

theorem ServerOK.redraw (h : ServerOK sc s) : ServerOK sc s.redraw := by
  have hsafe := compositeFull_safe (c := s.toScene) (by rw [h.screen]; exact h.fits)
  rw [h.screen] at hsafe
  exact h.draw hsafe

theorem ServerOK.redrawRect (h : ServerOK sc s) (hr : RectOK sc r) (hx : -2 ^ 31 ≤ r.x) (hy : -2 ^ 31 ≤ r.y) :
    ServerOK sc (s.redrawRect r) := by
  have hsafe := compositeRect_safe (c := s.toScene) (by rw [h.screen]; exact h.fits)
    (by rw [h.screen]; exact hr) hx hy
  rw [h.screen] at hsafe
  exact h.draw hsafe

theorem fitsScreen_zero : FitsScreen sc .zero := fun _ h => by cases h

/-- The messages that do no harm: what is visible of a new window lies in the pages of its shared memory
object, and a damage rectangle has representable edges, or none. -/
def MsgOK (s : WinMan) : WmMsg → Prop
  | .create c mapped => (∃ i, (s.wins i).inUse = false) → ∀ buf, mapped = some buf →
      VisibleFits s.screen (newPos s.nextIds.1 c.flags).1 (newPos s.nextIds.1 c.flags).2 c.width c.height buf.pages
  | .close _ => True
  | .damage winId top left bottom right => ∀ i, winById s.wins winId = some i →
      RectOK s.screen (damageRect (s.wins i) top left bottom right)

theorem moveToEnd_all {P : WmWin → Prop} (h : ∀ i, P (t i)) (h0 : P .zero) (id : ℕ) : ∀ i, P (moveToEnd t id i) := by
  unfold moveToEnd
  cases (List.finRange maxWins).find? fun i => i.val + 1 < maxWins ∧ (t i).inUse ∧ (t i).winId = id with
  | none => exact h
  | some i =>
    simp only
    cases (List.finRange maxWins).reverse.find? fun j => i < j ∧ ¬ (t j).inUse with
    | none => exact h
    | some j => exact move_all h h0 i j

theorem onCreate_ok (h : ServerOK sc s) (src : ℕ) (c : CreateMsg) (mapped : Option Buffer)
    (hm : MsgOK s (.create c mapped)) : ServerOK sc (s.onCreate src c mapped) := by
  unfold onCreate
  cases hslot : (List.finRange maxWins).find? fun i => ¬ (s.wins i).inUse with
  -- the table is full
  | none => exact h.quiet (call_quiet s _)
  | some slot =>
    simp only
    have h1 := h.quiet (call_quiet s (.shmMap c.shmId))
    set s1 := s.call (.shmMap c.shmId) with hs1
    cases hmap : mapped with
    -- the client's memory is not mapped
    | none => exact h1.quiet (call_quiet s1 _)
    | some buf =>
      simp only
      have hfree : ∃ i, (s.wins i).inUse = false := ⟨slot, by simpa using List.find?_some hslot⟩
      have hvis := hm hfree buf hmap
      rw [h.screen] at hvis
      set win := s1.newWin src c buf with hwin
      obtain ⟨p1, p2, p3, p4⟩ := newPos_mem s.nextIds.1 c.flags
      have hnew : FitsScreen sc win := fitsScreen_of c.width_lt c.height_lt rfl p1 p2 p3 p4 fun b hb => by
        cases hb
        exact hvis
      set t2 : WinTable := Function.update s1.wins slot win with ht2
      have hf2 : ∀ i, FitsScreen sc (t2 i) := update_all h1.fits hnew slot
      set s2 : WinMan := { s1 with nextWinId := s1.nextIds.2, wins := t2 } with hs2
      have h2 : ServerOK sc s2 := h1.table hf2 rfl rfl rfl
      set s3 : WinMan := if win.isForeground = true then { s2 with wins := moveToEnd t2 win.winId } else s2 with hs3
      have h3 : ServerOK sc s3 := by
        rw [hs3]
        split_ifs
        · exact h2.table (moveToEnd_all hf2 fitsScreen_zero _) rfl rfl rfl
        · exact h2
      have h4 := h3.quiet (call_quiet s3 (.createReply src c.reqId win.winId win.x win.y))
      set s4 := s3.call (.createReply src c.reqId win.winId win.x win.y) with hs4
      set t5 := raiseWindow s4.wins win.winId with ht5
      have h5 : ServerOK sc { s4 with wins := t5 } :=
        h4.table (raiseWindow_all h4.fits fitsScreen_zero _) rfl rfl rfl
      cases winById t5 win.winId with
      | none => exact h5.redraw
      | some i => exact (h5.quiet (.ite (updateFocus_quiet _ _) (.refl _))).redraw

theorem onClose_ok (h : ServerOK sc s) (src winId : ℕ) : ServerOK sc (s.onClose src winId) := by
  unfold onClose
  cases winById s.wins winId with
  | none => exact h
  | some i =>
    simp only
    by_cases howner : (s.wins i).ownerPid ≠ src
    · -- the window of another process
      rw [if_pos howner]
      exact h
    rw [if_neg howner]
    set s1 := if s.focusWin = winId then s.updateFocus 0 else s with hs1
    have h1 : ServerOK sc s1 := h.quiet (.ite (updateFocus_quiet s 0) (.refl s))
    have h2 := h1.quiet (call_quiet s1 (.shmClose (s1.wins i).shmId))
    set s2 := s1.call (.shmClose (s1.wins i).shmId) with hs2
    set t3 : WinTable := Function.update s2.wins i .zero with ht3
    set s3 : WinMan := { s2 with wins := t3 } with hs3
    have h3 : ServerOK sc s3 := h2.table (update_all h2.fits fitsScreen_zero i) rfl rfl rfl
    set s4 : WinMan := if s3.hoverWin = winId then { s3 with hoverWin := 0 } else s3 with hs4
    have h4 : ServerOK sc s4 := h3.quiet (.ite ⟨rfl, rfl, rfl⟩ (.refl s3))
    set s5 : WinMan := if s4.dragWin = winId then { s4 with dragWin := 0, dragging := false } else s4 with hs5
    have h5 : ServerOK sc s5 := h4.quiet (.ite ⟨rfl, rfl, rfl⟩ (.refl s4))
    refine (h5.quiet (.ite ?_ (.refl s5))).redraw
    cases topmostFocusableWindow s5.wins with
    | none => exact updateFocus_quiet s5 0
    | some j => exact updateFocus_quiet s5 _

/-- **One message.** -/
theorem onMsg_ok (h : ServerOK sc s) (src : ℕ) {m : WmMsg} (hm : MsgOK s m) : ServerOK sc (s.onMsg src m) := by
  cases m with
  | create c mapped => exact onCreate_ok h src c mapped hm
  | close winId => exact onClose_ok h src winId
  | damage winId top left bottom right =>
    show ServerOK sc (s.onDamage winId top left bottom right)
    unfold onDamage
    cases hid : winById s.wins winId with
    | none => exact h
    | some i =>
      have hr := hm i hid
      rw [h.screen] at hr
      exact h.redrawRect hr (i32_ge _) (i32_ge _)

/-! ### Runs -/

/-- A message that meets `C` is handled. -/
inductive MsgStep (C : WinMan → WmMsg → Prop) : WinMan → WinMan → Prop
  | msg {s : WinMan} (src : ℕ) {m : WmMsg} (hC : C s m) : MsgStep C s (s.onMsg src m)

theorem start_ok (sc : Screen) (back : ℕ → ℕ) : ServerOK sc (start sc back) := by
  refine ServerOK.redraw ⟨rfl, fun _ => fitsScreen_zero, fun o ho => ?_⟩
  exact absurd ho List.not_mem_nil

/-- **The compositor stays in its buffers** in every run of messages that meet `MsgOK`: all pixels that it
writes are on the screen, and all that it reads lie in the mapped pages. -/
theorem buffers_safe {back : ℕ → ℕ} (hrun : Relation.ReflTransGen (MsgStep MsgOK) (start sc back) s) :
    ∀ o ∈ s.drawn, o.Safe sc := by
  have hs : ServerOK sc s := by
    refine run_inv (I := ServerOK sc) (fun a b ha hab => ?_) (start_ok sc back) hrun
    obtain ⟨src, hC⟩ := hab
    exact onMsg_ok ha src hC
  exact hs.drawn

/-- One column of two pixels. -/
def column : Screen := { dotScreen with h := 2, size := by norm_num [dotScreen] }

/-- A background window of this width and two rows, with one page of shared memory. -/
def wide (width : ℕ) (h : width < 2 ^ 32) : WmMsg :=
  .create ⟨1, width, 2, 1, 5, h, by norm_num⟩ (some ⟨1, fun _ => 7⟩)

/-- A window that fits its page is drawn. -/
theorem buffers_safe_narrow : ∃ s, Relation.ReflTransGen (MsgStep MsgOK) (start column fun _ => 0) s ∧
    s.back 0 = 7 ∧ ∀ o ∈ s.drawn, o.Safe column := by
  have hm : MsgOK (start column fun _ => 0) (wide 10 (by norm_num)) := by
    intro _ buf hbuf
    cases hbuf
    unfold VisibleFits
    decide +kernel
  have hrun := Relation.ReflTransGen.single (MsgStep.msg (C := MsgOK) 3 hm)
  exact ⟨_, hrun, by decide +kernel, buffers_safe hrun⟩

/-- The write reads behind the mapped pages. -/
def PixelOp.leaves : PixelOp → Bool
  | .put _ _ => false
  | .copy _ buf src => buf.size ≤ src

/-- The second row of a window of 1024 columns lies behind its only page. -/
theorem buffers_left : ∃ s, Relation.ReflTransGen (MsgStep fun _ _ => True) (start column fun _ => 0) s ∧
    ∃ o ∈ s.drawn, ¬ o.Safe column := by
  refine ⟨_, .single (.msg 3 (m := wide 1024 (by norm_num)) trivial), ?_⟩
  have hany : (((start column fun _ => 0).onMsg 3 (wide 1024 (by norm_num))).drawn.any PixelOp.leaves) = true := by
    decide +kernel
  obtain ⟨o, ho, hleaves⟩ := List.any_eq_true.1 hany
  refine ⟨o, ho, fun hsafe => ?_⟩
  cases o with
  | put dst col => cases hleaves
  | copy dst buf src =>
    have h1 := hsafe.read dst buf src rfl
    have h2 : buf.size ≤ src := of_decide_eq_true hleaves
    omega

end Saynaa
