import Saynaa.Lib.Bracket
import Saynaa.Proof.Layers

/-!
# Focus and hover of the window manager

* `IdsOK`, `Kept`: the windows have different ids, which moving them between slots keeps.
* `FocusInv`: the focused, the hovered and the dragged window exist, and the events that were sent open and close the
  focused and the hovered window.
* `updateFocus_inv`, `hover_inv`: the two functions that send these events.
* `created_inv`, `closed_inv`: windows come and go.
* `handle_inv`: one step of the main loop.
* `focus_bracketed`: every run of it.
-/

namespace Saynaa

open Lib WinTable WinMan

variable {s s' : WinMan} {t u v : WinTable} {i j k : Fin maxWins} {id m : ℕ} {w : WmWin}

/-! ### Tables -/

/-- The windows have different ids, from 1 to `m`. -/
structure IdsOK (m : ℕ) (t : WinTable) : Prop where
  range : ∀ i, (t i).inUse = true → 0 < (t i).winId ∧ (t i).winId ≤ m
  inj : ∀ i j, (t i).inUse = true → (t j).inUse = true → (t i).winId = (t j).winId → i = j

/-- The same window, perhaps at another place of the screen. -/
structure SameWin (v w : WmWin) : Prop where
  inUse : w.inUse = v.inUse
  id : v.inUse = true → w.winId = v.winId
  owner : v.inUse = true → w.ownerPid = v.ownerPid
  flags : v.inUse = true → w.flags = v.flags

/-- The windows were moved between slots. -/
def Kept (t u : WinTable) : Prop := ∃ σ : Equiv.Perm (Fin maxWins), ∀ l, SameWin (t l) (u (σ l))

/-- A window with this id. -/
def Present (t : WinTable) (id : ℕ) : Prop := ∃ i, winById t id = some i

/-- A window with this id that can have the focus. -/
def Focusable (t : WinTable) (id : ℕ) : Prop := ∃ i, winById t id = some i ∧ (t i).isFocusable = true

/-- Where the events about a window are sent. -/
def owner (t : WinTable) (id : ℕ) : ℕ :=
  match winById t id with
  | none => 0
  | some i => (t i).ownerPid

/-- The window, if events about it are sent at all. -/
def holder (t : WinTable) (id : ℕ) : Option ℕ := if owner t id = 0 then none else some id

theorem SameWin.refl (w : WmWin) : SameWin w w := ⟨rfl, fun _ => rfl, fun _ => rfl, fun _ => rfl⟩

theorem SameWin.trans {a b c : WmWin} (h : SameWin a b) (h' : SameWin b c) : SameWin a c := by
  have hb : a.inUse = true → b.inUse = true := fun ha => h.inUse.trans ha
  exact ⟨h'.inUse.trans h.inUse, fun ha => (h'.id (hb ha)).trans (h.id ha),
    fun ha => (h'.owner (hb ha)).trans (h.owner ha), fun ha => (h'.flags (hb ha)).trans (h.flags ha)⟩

theorem SameWin.of_free {a b : WmWin} (ha : a.inUse = false) (hb : b.inUse = false) : SameWin a b := by
  refine ⟨hb.trans ha.symm, ?_, ?_, ?_⟩ <;> exact fun h => absurd (ha.symm.trans h) (by decide)

theorem SameWin.focusable {a b : WmWin} (h : SameWin a b) (ha : a.inUse = true) : b.isFocusable = a.isFocusable := by
  unfold WmWin.isFocusable WmWin.skipsInput WmWin.isBackground WmWin.isForeground
  rw [h.flags ha]

theorem Kept.refl (t : WinTable) : Kept t t := ⟨1, fun _ => .refl _⟩

theorem Kept.trans (h : Kept t u) (h' : Kept u v) : Kept t v := by
  obtain ⟨σ, hσ⟩ := h
  obtain ⟨τ, hτ⟩ := h'
  exact ⟨σ.trans τ, fun l => (hσ l).trans (hτ (σ l))⟩

theorem kept_move (hj : (t j).inUse = false) (hjk : j ≠ k) : Kept t (t.move k j) := by
  refine ⟨Equiv.swap k j, fun l => ?_⟩
  unfold WinTable.move
  by_cases hlk : l = k
  · rw [hlk, Equiv.swap_apply_left, Function.update_of_ne hjk, Function.update_self]
    exact .refl _
  by_cases hlj : l = j
  · rw [hlj, Equiv.swap_apply_right, Function.update_self]
    exact .of_free hj free_zero
  · rw [Equiv.swap_apply_of_ne_of_ne hlk hlj, Function.update_of_ne hlk, Function.update_of_ne hlj]
    exact .refl _

theorem kept_swap : Kept t (Function.update (Function.update t j (t k)) k (t j)) := by
  refine ⟨Equiv.swap k j, fun l => ?_⟩
  by_cases hlk : l = k
  · rw [hlk, Equiv.swap_apply_left]
    by_cases hjk : j = k
    · rw [hjk, Function.update_self]
      exact .refl _
    · rw [Function.update_of_ne hjk, Function.update_self]
      exact .refl _
  by_cases hlj : l = j
  · rw [hlj, Equiv.swap_apply_right, Function.update_self]
    exact .refl _
  · rw [Equiv.swap_apply_of_ne_of_ne hlk hlj, Function.update_of_ne hlk, Function.update_of_ne hlj]
    exact .refl _

/-- **Raising** moves windows between slots. -/
theorem kept_raise (t : WinTable) (id : ℕ) : Kept t (raiseWindow t id) := by
  by_cases h0 : id = 0
  · unfold raiseWindow
    rw [if_pos h0]
    exact .refl t
  cases hk : winById t id with
  | none =>
    unfold raiseWindow
    rw [if_neg h0, hk]
    exact .refl t
  | some k =>
    by_cases hn : (t k).Normal
    · rcases raise_cases h0 hk hn with ⟨he, -⟩ | ⟨j, hj, ⟨hfree, he⟩ | ⟨-, he⟩⟩
      · rw [he]
        exact .refl t
      · rw [he]
        exact kept_move hfree hj.lt.ne'
      · rw [he]
        exact kept_swap
    · rw [raise_other hk hn]
      exact .refl t

theorem kept_moveToEnd (t : WinTable) (id : ℕ) : Kept t (moveToEnd t id) := by
  unfold moveToEnd
  cases (List.finRange maxWins).find? fun i => i.val + 1 < maxWins ∧ (t i).inUse ∧ (t i).winId = id with
  | none => exact .refl t
  | some i =>
    simp only
    cases hj : (List.finRange maxWins).reverse.find? fun j => i < j ∧ ¬ (t j).inUse with
    | none => exact .refl t
    | some j =>
      have hlast := (find_last hj).1
      rw [decide_eq_true_eq] at hlast
      exact kept_move (by simpa using hlast.2) hlast.1.ne'

theorem kept_at (t : WinTable) (i : Fin maxWins) (x y : ℤ) :
    Kept t (Function.update t i { t i with x := x, y := y }) := by
  refine ⟨1, fun l => ?_⟩
  rw [Equiv.Perm.one_apply]
  by_cases hl : l = i
  · rw [hl, Function.update_self]
    exact ⟨rfl, fun _ => rfl, fun _ => rfl, fun _ => rfl⟩
  · rw [Function.update_of_ne hl]
    exact .refl _

namespace IdsOK

theorem find (h : IdsOK m t) (huse : (t i).inUse = true) : winById t (t i).winId = some i := by
  cases hf : winById t (t i).winId with
  | none =>
    have hi := find_none.1 hf i
    rw [decide_eq_false_iff_not] at hi
    exact absurd ⟨huse, rfl⟩ hi
  | some j =>
    obtain ⟨hj, hid⟩ := winById_some hf
    rw [h.inj i j huse hj hid.symm]

theorem ne_zero (h : IdsOK m t) (hi : winById t id = some i) : id ≠ 0 := by
  obtain ⟨huse, rfl⟩ := winById_some hi
  exact (h.range i huse).1.ne'

/-- A new window with the next id. -/
theorem insert (h : IdsOK m t) (hid : w.winId = m + 1) : IdsOK (m + 1) (Function.update t k w) := by
  constructor
  · intro i hi
    by_cases hik : i = k
    · rw [hik, Function.update_self]
      omega
    · rw [Function.update_of_ne hik] at hi ⊢
      have hrange := h.range i hi
      omega
  · intro i j hi hj he
    by_cases hik : i = k <;> by_cases hjk : j = k
    · rw [hik, hjk]
    · rw [hik, Function.update_self, Function.update_of_ne hjk] at he
      rw [Function.update_of_ne hjk] at hj
      have hrange := h.range j hj
      omega
    · rw [hjk, Function.update_self, Function.update_of_ne hik] at he
      rw [Function.update_of_ne hik] at hi
      have hrange := h.range i hi
      omega
    · rw [Function.update_of_ne hik] at hi he
      rw [Function.update_of_ne hjk] at hj he
      exact h.inj i j hi hj he

/-- What is in use after a slot was emptied. -/
theorem used_removed (hi : (Function.update t k .zero i).inUse = true) :
    i ≠ k ∧ Function.update t k .zero i = t i := by
  by_cases hik : i = k
  · rw [hik, Function.update_self] at hi
    cases hi
  · exact ⟨hik, Function.update_of_ne hik _ _⟩

theorem remove (h : IdsOK m t) (k : Fin maxWins) : IdsOK m (Function.update t k .zero) := by
  constructor
  · intro i hi
    obtain ⟨-, he⟩ := used_removed hi
    rw [he] at hi ⊢
    exact h.range i hi
  · intro i j hi hj heq
    obtain ⟨-, hei⟩ := used_removed hi
    obtain ⟨-, hej⟩ := used_removed hj
    rw [hei] at hi heq
    rw [hej] at hj heq
    exact h.inj i j hi hj heq

theorem find_removed (h : IdsOK m t) (huse : (t k).inUse = true) :
    winById (Function.update t k .zero) (t k).winId = none := by
  cases hi : winById (Function.update t k .zero) (t k).winId with
  | none => rfl
  | some i =>
    obtain ⟨hui, hid⟩ := winById_some hi
    obtain ⟨hik, he⟩ := used_removed hui
    rw [he] at hui hid
    exact absurd (h.inj i k hui huse hid) hik

theorem find_zero (h : IdsOK m t) : winById t 0 = none := by
  cases hf : winById t 0 with
  | none => rfl
  | some i => exact absurd rfl (h.ne_zero hf)

theorem holder_zero (h : IdsOK m t) : holder t 0 = none := by
  unfold holder owner
  rw [h.find_zero]
  rfl

end IdsOK

namespace Kept

variable (hk : Kept t u)

include hk

theorem ids (h : IdsOK m t) : IdsOK m u := by
  obtain ⟨σ, hσ⟩ := hk
  have hback : ∀ i, (u i).inUse = true → (t (σ.symm i)).inUse = true ∧ (u i).winId = (t (σ.symm i)).winId := by
    intro i hi
    have hs := hσ (σ.symm i)
    rw [Equiv.apply_symm_apply] at hs
    have huse := hs.inUse.symm.trans hi
    exact ⟨huse, hs.id huse⟩
  constructor
  · intro i hi
    obtain ⟨hu, hid⟩ := hback i hi
    rw [hid]
    exact h.range _ hu
  · intro i j hi hj he
    obtain ⟨hu, hid⟩ := hback i hi
    obtain ⟨hu', hid'⟩ := hback j hj
    exact σ.symm.injective (h.inj _ _ hu hu' (by rw [← hid, ← hid', he]))

/-- **A window is found again.** -/
theorem find (h : IdsOK m t) (hi : winById t id = some i) : ∃ j, winById u id = some j ∧ SameWin (t i) (u j) := by
  have hids := hk.ids h
  obtain ⟨σ, hσ⟩ := hk
  obtain ⟨huse, rfl⟩ := winById_some hi
  have hf := hids.find ((hσ i).inUse.trans huse)
  rw [(hσ i).id huse] at hf
  exact ⟨σ i, hf, hσ i⟩

theorem find_none (h : IdsOK m t) (hn : winById t id = none) : winById u id = none := by
  obtain ⟨σ, hσ⟩ := hk
  cases hf : winById u id with
  | none => rfl
  | some j =>
    obtain ⟨huse, rfl⟩ := winById_some hf
    have hs := hσ (σ.symm j)
    rw [Equiv.apply_symm_apply] at hs
    have hused := hs.inUse.symm.trans huse
    have hfound := h.find hused
    rw [← hs.id hused, hn] at hfound
    cases hfound

theorem present (h : IdsOK m t) (hp : Present t id) : Present u id := by
  obtain ⟨i, hi⟩ := hp
  obtain ⟨j, hj, -⟩ := hk.find h hi
  exact ⟨j, hj⟩

theorem focusable (h : IdsOK m t) (hp : Focusable t id) : Focusable u id := by
  obtain ⟨i, hi, hf⟩ := hp
  obtain ⟨j, hj, hs⟩ := hk.find h hi
  exact ⟨j, hj, (hs.focusable (winById_some hi).1).trans hf⟩

theorem owner (h : IdsOK m t) (id : ℕ) : owner u id = owner t id := by
  unfold Saynaa.owner
  cases hi : winById t id with
  | none => rw [hk.find_none h hi]
  | some i =>
    obtain ⟨j, hj, hs⟩ := hk.find h hi
    rw [hj]
    exact hs.owner (winById_some hi).1

theorem holder (h : IdsOK m t) (id : ℕ) : holder u id = holder t id := by
  unfold Saynaa.holder
  rw [hk.owner h]

end Kept

/-! ### The events that were sent -/

/-- The mark that an event makes for its window, where the types `on` and `off` open and close. -/
def eventMark (on off : ℕ) : WmCall → Option (ℕ × Bool)
  | .event _ ev => if ev.type = on then some (ev.winId, true)
    else if ev.type = off then some (ev.winId, false) else none
  | _ => none

def marks (on off : ℕ) (calls : List WmCall) : List (ℕ × Bool) := calls.filterMap (eventMark on off)

def focusMarks : List WmCall → List (ℕ × Bool) := marks evGainedFocus evLostFocus

def hoverMarks : List WmCall → List (ℕ × Bool) := marks evMouseEnter evMouseExit

section Tell

variable {on off type : ℕ} {ev : WmWin → IpcEvent} {gone : Set ℕ}

theorem marks_call (s : WinMan) (c : WmCall) :
    marks on off (s.call c).calls = marks on off s.calls ++ (eventMark on off c).toList := by
  show List.filterMap _ (s.calls ++ [c]) = _
  rw [List.filterMap_append]
  cases hc : eventMark on off c <;> simp [marks, hc]

theorem marks_sendEventTo (s : WinMan) (pid : ℕ) {e : IpcEvent} (hon : e.type ≠ on) (hoff : e.type ≠ off) :
    marks on off (s.sendEventTo pid e).calls = marks on off s.calls := by
  unfold sendEventTo
  split_ifs with h0
  · rfl
  · rw [marks_call]
    simp [eventMark, hon, hoff]

/-- What `tell` sends is about the window. -/
theorem tell_cases (hid : ∀ w, (ev w).winId = w.winId) (htype : ∀ w, (ev w).type = type) (s : WinMan) (id : ℕ) :
    (holder s.wins id = none ∧ s.tell id ev = s) ∨
      holder s.wins id = some id ∧ ∃ pid e, e.winId = id ∧ e.type = type ∧ s.tell id ev = s.call (.event pid e) := by
  unfold WinMan.tell holder owner sendEventTo
  cases hi : winById s.wins id with
  | none => exact .inl ⟨rfl, rfl⟩
  | some i =>
    simp only
    by_cases h0 : (s.wins i).ownerPid = 0
    · rw [if_pos h0, if_pos h0]
      exact .inl ⟨rfl, rfl⟩
    · rw [if_neg h0, if_neg h0]
      exact .inr ⟨rfl, _, _, (hid _).trans (winById_some hi).2, htype _, rfl⟩

/-- **An event that opens.** -/
theorem marks_opens (hid : ∀ w, (ev w).winId = w.winId) (htype : ∀ w, (ev w).type = on) (hgone : id ∉ gone)
    (h : Marks gone (marks on off s.calls) none) :
    Marks gone (marks on off (s.tell id ev).calls) (holder s.wins id) := by
  rcases tell_cases hid htype s id with ⟨hh, he⟩ | ⟨hh, pid, e, hei, het, he⟩
  · rw [hh, he]
    exact h
  · rw [hh, he, marks_call]
    have hmark : eventMark on off (.event pid e) = some (id, true) := by simp [eventMark, hei, het]
    rw [hmark]
    exact h.opens hgone

/-- **An event that closes.** -/
theorem marks_closes (hne : off ≠ on) (hid : ∀ w, (ev w).winId = w.winId) (htype : ∀ w, (ev w).type = off)
    (h : Marks gone (marks on off s.calls) (holder s.wins id)) :
    Marks gone (marks on off (s.tell id ev).calls) none := by
  rcases tell_cases hid htype s id with ⟨hh, he⟩ | ⟨hh, pid, e, hei, het, he⟩
  · rw [he]
    rwa [hh] at h
  · rw [he, marks_call]
    have hmark : eventMark on off (.event pid e) = some (id, false) := by simp [eventMark, hei, het, hne]
    rw [hmark]
    rw [hh] at h
    exact h.closes

/-- An event of another type makes no mark. -/
theorem marks_tell (type : ℕ) (htype : ∀ w, (ev w).type = type) (hon : type ≠ on) (hoff : type ≠ off) (s : WinMan)
    (id : ℕ) : marks on off (s.tell id ev).calls = marks on off s.calls := by
  unfold WinMan.tell
  cases winById s.wins id with
  | none => rfl
  | some i => exact marks_sendEventTo s _ (by rwa [htype]) (by rwa [htype])

end Tell

/-! ### The invariant -/

/-- **The invariant**, after windows with the ids `1, ..., m` were created. -/
structure FocusInv (m : ℕ) (s : WinMan) : Prop where
  ids : IdsOK m s.wins
  next : s.nextWinId = add32 m 1
  focus : s.focusWin = 0 ∨ Focusable s.wins s.focusWin
  hover : s.hoverWin = 0 ∨ Present s.wins s.hoverWin
  drag : s.dragWin = 0 ∨ Present s.wins s.dragWin
  focusEvents : Marks ∅ (focusMarks s.calls) (holder s.wins s.focusWin)
  -- the ids that the mouse was over when their windows were closed
  hoverEvents : ∃ gone : Set ℕ, (∀ id ∈ gone, id ≤ m ∧ winById s.wins id = none) ∧
    Marks gone (hoverMarks s.calls) (holder s.wins s.hoverWin)

/-- What the invariant speaks about is the same, but windows may have been moved. -/
structure Alike (s s' : WinMan) : Prop where
  wins : Kept s.wins s'.wins
  next : s'.nextWinId = s.nextWinId
  focus : s'.focusWin = s.focusWin
  hover : s'.hoverWin = s.hoverWin
  drag : s'.dragWin = s.dragWin
  focusEvents : focusMarks s'.calls = focusMarks s.calls
  hoverEvents : hoverMarks s'.calls = hoverMarks s.calls

theorem Alike.refl (s : WinMan) : Alike s s := ⟨.refl _, rfl, rfl, rfl, rfl, rfl, rfl⟩

theorem Alike.moved (h : Kept s.wins t) : Alike s { s with wins := t } := ⟨h, rfl, rfl, rfl, rfl, rfl, rfl⟩

theorem FocusInv.alike (h : FocusInv m s) (ha : Alike s s') : FocusInv m s' := by
  have hids := h.ids
  refine ⟨ha.wins.ids hids, ha.next.trans h.next, ?_, ?_, ?_, ?_, ?_⟩
  · rw [ha.focus]
    exact h.focus.imp_right (ha.wins.focusable hids)
  · rw [ha.hover]
    exact h.hover.imp_right (ha.wins.present hids)
  · rw [ha.drag]
    exact h.drag.imp_right (ha.wins.present hids)
  · rw [ha.focusEvents, ha.focus, ha.wins.holder hids]
    exact h.focusEvents
  · obtain ⟨gone, hgone, hm⟩ := h.hoverEvents
    refine ⟨gone, fun id hid => ⟨(hgone id hid).1, ha.wins.find_none hids (hgone id hid).2⟩, ?_⟩
    rw [ha.hoverEvents, ha.hover, ha.wins.holder hids]
    exact hm

/-- Another window is dragged, or none. -/
theorem FocusInv.dragged (h : FocusInv m s) (hd : id = 0 ∨ Present s.wins id) (b : Bool) (x y : ℤ) :
    FocusInv m { s with dragging := b, dragWin := id, dragDx := x, dragDy := y } :=
  ⟨h.ids, h.next, h.focus, h.hover, hd, h.focusEvents, h.hoverEvents⟩

/-- A system call or a reply. -/
theorem alike_call {c : WmCall} (hc : ∀ on off, eventMark on off c = none) (s : WinMan) : Alike s (s.call c) := by
  refine ⟨.refl _, rfl, rfl, rfl, rfl, ?_, ?_⟩
  · exact (marks_call s c).trans (by rw [hc]; exact List.append_nil _)
  · exact (marks_call s c).trans (by rw [hc]; exact List.append_nil _)

/-- An event of another type. -/
theorem alike_event {e : IpcEvent} (type : ℕ) (htype : e.type = type) (hlt : type < evMouseEnter ∨ evLostFocus < type)
    (s : WinMan) (pid : ℕ) : Alike s (s.sendEventTo pid e) := by
  have hwins : (s.sendEventTo pid e).wins = s.wins := by rw [(sendEventTo_quiet s pid e).scene]
  have hkept : Kept s.wins (s.sendEventTo pid e).wins := hwins ▸ .refl _
  have hne : ∀ type', evMouseEnter ≤ type' → type' ≤ evLostFocus → e.type ≠ type' := fun type' h1 h2 => by omega
  refine ⟨hkept, ?_, ?_, ?_, ?_, ?_, ?_⟩
  iterate 4
    unfold sendEventTo
    split_ifs <;> rfl
  · exact marks_sendEventTo s pid (hne _ (by decide) (by decide)) (hne _ (by decide) (by decide))
  · exact marks_sendEventTo s pid (hne _ (by decide) (by decide)) (hne _ (by decide) (by decide))

theorem alike_tell {ev : WmWin → IpcEvent} (type : ℕ) (htype : ∀ w, (ev w).type = type)
    (hlt : type < evMouseEnter ∨ evLostFocus < type) (s : WinMan) (id : ℕ) : Alike s (s.tell id ev) := by
  unfold WinMan.tell
  cases winById s.wins id with
  | none => exact .refl s
  | some i => exact alike_event type (htype _) hlt s _

theorem alike_draw (s : WinMan) (ops : List PixelOp) : Alike s (s.draw ops) := ⟨.refl _, rfl, rfl, rfl, rfl, rfl, rfl⟩

/-! ### Focus and hover change -/

theorem tell_calls (s : WinMan) (id : ℕ) (ev : WmWin → IpcEvent) :
    s.tell id ev = { s with calls := (s.tell id ev).calls } := by
  unfold WinMan.tell
  cases winById s.wins id with
  | none => rfl
  | some i =>
    simp only
    unfold sendEventTo
    split_ifs <;> rfl

theorem updateFocus_calls (s : WinMan) (id : ℕ) :
    s.updateFocus id = { s with focusWin := id, calls := (s.updateFocus id).calls } := by
  unfold updateFocus
  split_ifs with heq
  · rw [heq]
  · unfold notify
    simp only
    rw [tell_calls s]
    exact tell_calls _ _ _

/-- **A change of the focus** sends the two events. -/
theorem updateFocus_inv (h : FocusInv m s) (hf : id = 0 ∨ Focusable s.wins id) : FocusInv m (s.updateFocus id) := by
  have hevents : Marks ∅ (focusMarks (s.updateFocus id).calls) (holder s.wins id) ∧
      hoverMarks (s.updateFocus id).calls = hoverMarks s.calls := by
    unfold updateFocus
    split_ifs with heq
    · rw [heq]
      exact ⟨h.focusEvents, rfl⟩
    simp only
    set s1 := s.notify s.focusWin evLostFocus with hs1
    set s2 : WinMan := { s1 with focusWin := id } with hs2
    have hlost : Marks ∅ (focusMarks s2.calls) none :=
      marks_closes (by decide) (fun _ => rfl) (fun _ => rfl) h.focusEvents
    have hwins : s2.wins = s.wins := (notify_quiet s _ _).wins
    constructor
    · rw [← hwins]
      exact marks_opens (fun _ => rfl) (fun _ => rfl) (Set.notMem_empty id) hlost
    · have hgained : hoverMarks (s2.notify id evGainedFocus).calls = hoverMarks s2.calls :=
        marks_tell evGainedFocus (fun _ => rfl) (by decide) (by decide) s2 id
      have hlost : hoverMarks s1.calls = hoverMarks s.calls :=
        marks_tell evLostFocus (fun _ => rfl) (by decide) (by decide) s s.focusWin
      exact hgained.trans hlost
  rw [updateFocus_calls]
  obtain ⟨hfocus, hhover⟩ := hevents
  exact ⟨h.ids, h.next, hf, h.hover, h.drag, hfocus, by rw [hhover]; exact h.hoverEvents⟩

theorem winAt_present (h : IdsOK m t) (x y : ℤ) : winAt t x y = 0 ∨ Present t (winAt t x y) := by
  unfold winAt
  apply List.foldlRecOn (motive := fun best => best = 0 ∨ Present t best)
  · exact .inl rfl
  · intro best hbest i _
    simp only
    split_ifs with hskip
    · exact hbest
    · have huse : (t i).inUse = true := not_not.1 fun hn => hskip (.inl hn)
      exact .inr ⟨i, h.find huse⟩
    · exact hbest

theorem topmost_focusable (h : IdsOK m t) (hj : topmostFocusableWindow t = some j) : Focusable t (t j).winId := by
  have key : ∀ i, topmostFocusableWindow t = some i → (t i).inUse = true ∧ (t i).isFocusable = true := by
    unfold topmostFocusableWindow
    apply List.foldlRecOn (motive := fun best => ∀ i, best = some i → (t i).inUse = true ∧ (t i).isFocusable = true)
    · intro i hi
      cases hi
    · intro best hbest i _
      split_ifs with hok
      · intro i' hi'
        obtain rfl := Option.some.inj hi'
        exact hok
      · exact hbest
  obtain ⟨huse, hfocus⟩ := key j hj
  exact ⟨j, h.find huse, hfocus⟩

/-- **The mouse** leaves a window and enters another. -/
theorem hover_inv (h : FocusInv m s) : FocusInv m s.handleMouseEvent := by
  have hunder := winAt_present h.ids s.mx s.my
  unfold handleMouseEvent
  simp only
  set under := winAt s.wins s.mx s.my with hu
  -- the events to the window before and to the window after
  set s1 : WinMan := if s.hoverWin ≠ 0 then s.notify s.hoverWin evMouseExit else s with hs1
  set s2 : WinMan := if under ≠ 0 then
    s1.tell under fun w =>
      { winId := w.winId, type := evMouseEnter, x := i32 (s1.mx - w.x), y := i32 (s1.my - w.y) } else s1 with hs2
  have hmoved : FocusInv m { s2 with hoverWin := under } := by
    obtain ⟨gone, hgone, hm⟩ := h.hoverEvents
    have hexit : s1 = { s with calls := s1.calls } ∧ focusMarks s1.calls = focusMarks s.calls ∧
        Marks gone (hoverMarks s1.calls) none := by
      rw [hs1]
      split_ifs with h0
      · exact ⟨tell_calls _ _ _, marks_tell evMouseExit (fun _ => rfl) (by decide) (by decide) s _,
          marks_closes (by decide) (fun _ => rfl) (fun _ => rfl) hm⟩
      · rw [not_not.1 h0, h.ids.holder_zero] at hm
        exact ⟨rfl, rfl, hm⟩
    obtain ⟨he1, hf1, hm1⟩ := hexit
    have hwins : s1.wins = s.wins := by rw [he1]
    have henter : s2 = { s with calls := s2.calls } ∧ focusMarks s2.calls = focusMarks s.calls ∧
        Marks gone (hoverMarks s2.calls) (holder s.wins under) := by
      rw [hs2]
      split_ifs with h0
      · have hfresh : under ∉ gone := by
          intro hin
          obtain ⟨i, hi⟩ := hunder.resolve_left h0
          rw [(hgone under hin).2] at hi
          cases hi
        refine ⟨(tell_calls _ _ _).trans (by rw [he1]), ?_, ?_⟩
        · exact (marks_tell evMouseEnter (fun _ => rfl) (by decide) (by decide) s1 _).trans hf1
        · rw [← hwins]
          exact marks_opens (fun _ => rfl) (fun _ => rfl) hfresh hm1
      · rw [not_not.1 h0, h.ids.holder_zero]
        exact ⟨he1, hf1, hm1⟩
    obtain ⟨he2, hf2, hm2⟩ := henter
    rw [he2]
    exact ⟨h.ids, h.next, h.focus, hunder, h.drag, by rw [hf2]; exact h.focusEvents, gone, hgone, hm2⟩
  have hboth : FocusInv m (if under ≠ s.hoverWin then { s2 with hoverWin := under } else s) := by
    split_ifs
    · exact hmoved
    · exact h
  split_ifs at hboth ⊢
  all_goals
    first
    | exact hboth
    | exact hboth.alike (alike_tell evMouseMove (fun _ => rfl) (.inl (by decide)) _ _)

/-! ### Windows come and go -/

/-- The window with this id, or none, is the same in both tables. -/
structure SameAt (t u : WinTable) (id : ℕ) : Prop where
  find : winById u id = winById t id
  win : ∀ i, winById t id = some i → u i = t i

/-- A slot is written with other ids. -/
theorem sameAt_update (hold : (t k).inUse = true → (t k).winId ≠ id) (hnew : w.inUse = true → w.winId ≠ id) :
    SameAt t (Function.update t k w) id := by
  constructor
  · unfold winById
    apply List.find?_congr
    intro i _
    by_cases hi : i = k
    · rw [hi, Function.update_self]
      exact decide_eq_decide.2 (iff_of_false (fun h => hnew h.1 h.2) fun h => hold h.1 h.2)
    · rw [Function.update_of_ne hi]
  · intro i hi
    obtain ⟨huse, hid⟩ := winById_some hi
    by_cases hik : i = k
    · rw [hik] at huse hid
      exact absurd hid (hold huse)
    · exact Function.update_of_ne hik _ _

namespace SameAt

variable (hs : SameAt t u id)

include hs

theorem present (h : Present t id) : Present u id := by
  obtain ⟨i, hi⟩ := h
  exact ⟨i, hs.find.trans hi⟩

theorem focusable (h : Focusable t id) : Focusable u id := by
  obtain ⟨i, hi, hf⟩ := h
  exact ⟨i, hs.find.trans hi, by rwa [hs.win i hi]⟩

theorem holder : holder u id = holder t id := by
  have howner : owner u id = owner t id := by
    unfold owner
    rw [hs.find]
    cases hi : winById t id with
    | none => rfl
    | some i => exact congrArg WmWin.ownerPid (hs.win i hi)
  unfold Saynaa.holder
  rw [howner]

end SameAt

/-- **A new window.** -/
theorem created_inv (h : FocusInv m s) (hfree : (s.wins k).inUse = false) (hid : w.winId = m + 1) :
    FocusInv (m + 1) { s with nextWinId := add32 (m + 1) 1, wins := Function.update s.wins k w } := by
  have hold : ∀ id, (s.wins k).inUse = true → (s.wins k).winId ≠ id := fun id huse => by
    rw [hfree] at huse
    cases huse
  have hsame : ∀ id, id ≠ m + 1 → SameAt s.wins (Function.update s.wins k w) id :=
    fun id hne => sameAt_update (hold id) fun _ he => hne (by rw [← he, hid])
  -- no window had the new id
  have hnone : winById s.wins (m + 1) = none := by
    cases hi : winById s.wins (m + 1) with
    | none => rfl
    | some i =>
      obtain ⟨huse, he⟩ := winById_some hi
      have hle := (h.ids.range i huse).2
      omega
  have hold_id : ∀ id, id = 0 ∨ Present s.wins id → id ≠ m + 1 := by
    rintro id (rfl | ⟨i, hi⟩) he
    · cases he
    · rw [he, hnone] at hi
      cases hi
  have hfocus := hold_id s.focusWin (h.focus.imp_right fun ⟨i, hi, _⟩ => ⟨i, hi⟩)
  have hhover := hold_id s.hoverWin h.hover
  refine ⟨h.ids.insert hid, rfl, h.focus.imp_right (hsame _ hfocus).focusable,
    h.hover.imp_right (hsame _ hhover).present, h.drag.imp_right (hsame _ (hold_id _ h.drag)).present, ?_, ?_⟩
  · rw [(hsame _ hfocus).holder]
    exact h.focusEvents
  · obtain ⟨gone, hgone, hm⟩ := h.hoverEvents
    refine ⟨gone, fun id hin => ?_, ?_⟩
    · obtain ⟨hle, hno⟩ := hgone id hin
      exact ⟨by omega, (hsame id (by omega)).find.trans hno⟩
    · rw [(hsame _ hhover).holder]
      exact hm

/-- **A window is closed** that does not have the focus. -/
theorem closed_inv (h : FocusInv m s) (hk : winById s.wins id = some k) (hf : s.focusWin ≠ id) (b : Bool) :
    FocusInv m { s with
      wins := Function.update s.wins k .zero
      hoverWin := if s.hoverWin = id then 0 else s.hoverWin
      dragWin := if s.dragWin = id then 0 else s.dragWin
      dragging := b } := by
  obtain ⟨huse, hid⟩ := winById_some hk
  have hzero : ∀ id, WmWin.zero.inUse = true → WmWin.zero.winId ≠ id := fun _ hz => by cases hz
  have hsame : ∀ id', id' ≠ id → SameAt s.wins (Function.update s.wins k .zero) id' :=
    fun id' hne => sameAt_update (fun _ he => hne (by rw [← he, hid])) (hzero id')
  have hids := h.ids.remove k
  have hgone : winById (Function.update s.wins k .zero) id = none := hid ▸ h.ids.find_removed huse
  have hpresent : ∀ x, x = 0 ∨ Present s.wins x →
      (if x = id then 0 else x) = 0 ∨ Present (Function.update s.wins k .zero) (if x = id then 0 else x) := by
    intro x hx
    split_ifs with he
    · exact .inl rfl
    · exact hx.imp_right (hsame x he).present
  refine ⟨hids, h.next, h.focus.imp_right (hsame _ hf).focusable, hpresent _ h.hover, hpresent _ h.drag, ?_, ?_⟩
  · rw [(hsame _ hf).holder]
    exact h.focusEvents
  · obtain ⟨gone, hno, hm⟩ := h.hoverEvents
    have hkept : ∀ id' ∈ gone, id' ≤ m ∧ winById (Function.update s.wins k .zero) id' = none := by
      intro id' hin
      obtain ⟨hle, hn⟩ := hno id' hin
      refine ⟨hle, ?_⟩
      rw [(hsame id' fun he => ?_).find, hn]
      rw [he, hk] at hn
      cases hn
    by_cases he : s.hoverWin = id
    · rw [if_pos he, hids.holder_zero]
      rw [he] at hm
      -- the window may have had no owner
      by_cases hown : owner s.wins id = 0
      · have hnone : holder s.wins id = none := if_pos hown
        rw [hnone] at hm
        exact ⟨gone, hkept, hm⟩
      · have hsome : holder s.wins id = some id := if_neg hown
        rw [hsome] at hm
        refine ⟨insert id gone, fun id' hin => ?_, hm.drops⟩
        rcases Set.mem_insert_iff.1 hin with rfl | hin
        · exact ⟨hid ▸ (h.ids.range k huse).2, hgone⟩
        · exact hkept id' hin
    · rw [if_neg he, (hsame _ he).holder]
      exact ⟨gone, hkept, hm⟩

/-! ### The handlers -/

/-- The next window gets the next id. -/
theorem FocusInv.nextIds (h : FocusInv m s) (hm : m + 1 < 2 ^ 32) : s.nextIds = (m + 1, add32 (m + 1) 1) := by
  have hnext : s.nextWinId = m + 1 := h.next.trans (Nat.mod_eq_of_lt hm)
  unfold WinMan.nextIds
  simp only
  rw [hnext, if_neg (Nat.succ_ne_zero m)]

/-- The focus goes to a window, if it can have it. -/
theorem focus_found_inv (h : FocusInv m s) (id : ℕ) :
    FocusInv m (match winById s.wins id with
      | none => s
      | some i => if (s.wins i).isFocusable then s.updateFocus id else s) := by
  cases hi : winById s.wins id with
  | none => exact h
  | some i =>
    simp only
    split_ifs with hf
    · exact updateFocus_inv h (.inr ⟨i, hi, hf⟩)
    · exact h

/-- `WM_MSG_CREATE` makes a window, or none. -/
theorem onCreate_inv (h : FocusInv m s) (hm : m + 1 < 2 ^ 32) (src : ℕ) (c : CreateMsg) (mapped : Option Buffer) :
    FocusInv m (s.onCreate src c mapped) ∨ FocusInv (m + 1) (s.onCreate src c mapped) := by
  have hreply : ∀ {m' : ℕ} {s' : WinMan} (pid reqId winId : ℕ) (x y : ℤ), FocusInv m' s' →
      FocusInv m' (s'.call (.createReply pid reqId winId x y)) :=
    fun _ _ _ _ _ h' => h'.alike (alike_call (fun _ _ => rfl) _)
  unfold onCreate
  cases hslot : (List.finRange maxWins).find? fun i => ¬ (s.wins i).inUse with
  -- the table is full
  | none => exact .inl (hreply _ _ _ _ _ h)
  | some slot =>
    have hfree : (s.wins slot).inUse = false := by simpa using (find_first hslot).1
    simp only
    set s1 := s.call (.shmMap c.shmId) with hs1
    have h1 : FocusInv m s1 := h.alike (alike_call (fun _ _ => rfl) s)
    cases mapped with
    -- the client's memory is not mapped
    | none => exact .inl (hreply _ _ _ _ _ h1)
    | some buf =>
      right
      simp only
      set win := s1.newWin src c buf with hwin
      have hid : win.winId = m + 1 := congrArg Prod.fst (h1.nextIds hm)
      set s2 : WinMan := { s1 with nextWinId := s1.nextIds.2, wins := Function.update s1.wins slot win } with hs2
      have h2 : FocusInv (m + 1) s2 := by
        rw [hs2, h1.nextIds hm]
        exact created_inv h1 hfree hid
      set s3 : WinMan :=
        if win.isForeground = true then { s2 with wins := moveToEnd s2.wins win.winId } else s2 with hs3
      have h3 : FocusInv (m + 1) s3 := by
        rw [hs3]
        split_ifs
        · exact h2.alike (.moved (kept_moveToEnd _ _))
        · exact h2
      set s4 := s3.call (.createReply src c.reqId win.winId win.x win.y) with hs4
      have h5 : FocusInv (m + 1) { s4 with wins := raiseWindow s4.wins win.winId } :=
        (hreply _ _ _ _ _ h3).alike (.moved (kept_raise _ _))
      exact (focus_found_inv h5 win.winId).alike (alike_draw _ _)

/-- `WM_MSG_CLOSE`: a focused window loses the focus first, and then the topmost one gets it. -/
theorem onClose_inv (h : FocusInv m s) (src winId : ℕ) : FocusInv m (s.onClose src winId) := by
  unfold onClose
  cases hfind : winById s.wins winId with
  | none => exact h
  | some i =>
    simp only
    by_cases howner : (s.wins i).ownerPid ≠ src
    · rwa [if_pos howner]
    rw [if_neg howner]
    set s1 := if s.focusWin = winId then s.updateFocus 0 else s with hs1
    have h1 : FocusInv m s1 ∧ s1.focusWin ≠ winId ∧ s1.wins = s.wins := by
      rw [hs1]
      split_ifs with hf
      · refine ⟨updateFocus_inv h (.inl rfl), ?_, (updateFocus_quiet s 0).wins⟩
        rw [updateFocus_calls]
        exact (h.ids.ne_zero hfind).symm
      · exact ⟨h, hf, rfl⟩
    obtain ⟨h1, hfocus, hwins⟩ := h1
    set s2 := s1.call (.shmClose (s1.wins i).shmId) with hs2
    have h2 : FocusInv m s2 := h1.alike (alike_call (fun _ _ => rfl) s1)
    have hfind2 : winById s2.wins winId = some i := by
      show winById s1.wins winId = _
      rw [hwins, hfind]
    set s3 : WinMan := { s2 with wins := Function.update s2.wins i .zero } with hs3
    set s4 : WinMan := if s3.hoverWin = winId then { s3 with hoverWin := 0 } else s3 with hs4
    set s5 : WinMan := if s4.dragWin = winId then { s4 with dragWin := 0, dragging := false } else s4 with hs5
    have h5 : FocusInv m s5 := by
      have hparts : s5 = { s2 with
          wins := Function.update s2.wins i .zero
          hoverWin := if s2.hoverWin = winId then 0 else s2.hoverWin
          dragWin := if s2.dragWin = winId then 0 else s2.dragWin
          dragging := if s2.dragWin = winId then false else s2.dragging } := by
        by_cases hh : s2.hoverWin = winId <;> by_cases hd : s2.dragWin = winId <;> simp [hs5, hs4, hs3, hh, hd]
      rw [hparts]
      exact closed_inv h2 hfind2 hfocus _
    have hlast : ∀ s6, FocusInv m s6 → FocusInv m s6.redraw := fun s6 h6 => h6.alike (alike_draw _ _)
    apply hlast
    split_ifs
    · cases htop : topmostFocusableWindow s5.wins with
      | none => exact updateFocus_inv h5 (.inl rfl)
      | some j => exact updateFocus_inv h5 (.inr (topmost_focusable h5.ids htop))
    · exact h5

/-- The left button goes down. -/
theorem press_inv (h : FocusInv m s) : FocusInv m s.press := by
  have hdraw : ∀ {s' : WinMan}, FocusInv m s' → FocusInv m s'.redraw := fun h' => h'.alike (alike_draw _ _)
  unfold press
  simp only
  set under := winAt s.wins s.mx s.my with hu
  apply hdraw
  split_ifs with h0
  swap
  · exact h
  set s1 : WinMan := { s with wins := raiseWindow s.wins under } with hs1
  have h1 : FocusInv m s1 := h.alike (.moved (kept_raise _ _))
  cases hi : winById (raiseWindow s.wins under) under with
  | none => exact h1
  | some i =>
    simp only
    set s2 : WinMan := if ((raiseWindow s.wins under) i).isFocusable = true then s1.updateFocus under else s1 with hs2
    have hwins : s2.wins = s1.wins := (Quiet.ite (updateFocus_quiet s1 under) (.refl s1)).wins
    have h2 : FocusInv m s2 := by
      rw [hs2]
      split_ifs with hf
      · exact updateFocus_inv h1 (.inr ⟨i, hi, hf⟩)
      · exact h1
    have h3 := h2.dragged (.inr ⟨i, by rw [hwins]; exact hi⟩) true (i32 (s2.mx - (raiseWindow s.wins under i).x))
      (i32 (s2.my - (raiseWindow s.wins under i).y))
    refine FocusInv.alike ?_ (alike_event evMousePress rfl (.inl (by decide)) _ _)
    split_ifs
    · exact h3
    · exact h2

theorem drag_inv (h : FocusInv m s) (oldx oldy : ℤ) : FocusInv m (s.drag oldx oldy).1 := by
  unfold WinMan.drag
  cases winById s.wins s.dragWin with
  | none => exact h
  | some i =>
    simp only
    split_ifs
    · exact (h.alike (.moved (kept_at _ i _ _))).alike (alike_draw _ _)
    · exact h

/-- The left button goes up. -/
theorem release_inv (h : FocusInv m s) : FocusInv m s.release := by
  unfold release
  simp only
  set s1 : WinMan := if s.dragging = true then { s with dragging := false, dragWin := 0 } else s with hs1
  have h1 : FocusInv m s1 := by
    rw [hs1]
    split_ifs
    · exact h.dragged (.inl rfl) false s.dragDx s.dragDy
    · exact h
  refine FocusInv.alike ?_ (alike_draw _ _)
  split_ifs
  · exact h1.alike (alike_tell evMouseRelease (fun _ => rfl) (.inl (by decide)) _ _)
  · exact h1

theorem onMouse_inv (h : FocusInv m s) (ev : MouseEvent) : FocusInv m (s.onMouse ev) :=
  onMouse_rule (P := FocusInv m) (fun _ _ _ _ _ _ h => h.alike ⟨.refl _, rfl, rfl, rfl, rfl, rfl, rfl⟩)
    (fun _ => press_inv)
    (fun _ _ _ h => drag_inv h _ _) (fun _ => release_inv) (fun _ => hover_inv)
      (fun _ _ h => h.alike (alike_draw _ _)) h ev

/-- A key: the focus is recovered if no window has it. -/
theorem recoverFocus_inv (h : FocusInv m s) : FocusInv m s.recoverFocus.1 := by
  unfold recoverFocus
  simp only
  by_cases hfw : ((winById s.wins s.focusWin).any fun i => (s.wins i).isFocusable) = true
  · rwa [if_pos hfw]
  rw [if_neg hfw]
  cases huw : (if winAt s.wins s.mx s.my ≠ 0 then winById s.wins (winAt s.wins s.mx s.my) else none).filter
      fun i => (s.wins i).isFocusable with
  | some i =>
    obtain ⟨hi, hf⟩ := Option.filter_eq_some_iff.1 huw
    have huse : (s.wins i).inUse = true := by
      split_ifs at hi
      · exact (winById_some hi).1
    exact updateFocus_inv h (.inr ⟨i, h.ids.find huse, hf⟩)
  | none =>
    cases htop : topmostFocusableWindow s.wins with
    | some i => exact updateFocus_inv h (.inr (topmost_focusable h.ids htop))
    | none => exact h

theorem onKey_inv (h : FocusInv m s) (ev : KbdEvent) : FocusInv m (s.onKey ev) := by
  have h1 := recoverFocus_inv h
  unfold onKey
  simp only
  cases s.recoverFocus.2 with
  | none => exact h1
  | some i => exact h1.alike (alike_event evKbd rfl (.inr (by decide)) _ _)

/-! ### Runs -/

/-- A message that may create a window. -/
def WinMan.WmInput.creates : WmInput → Bool
  | .msg _ (.create _ _) => true
  | _ => false

/-- **One step** of the main loop creates at most one window. -/
theorem handle_inv (h : FocusInv m s) (hlt : m < 2 ^ 32) (a : WmInput) (hwrap : a.creates = true → s.nextWinId ≠ 0) :
    ∃ m' < 2 ^ 32, FocusInv m' (s.handle a) := by
  cases a with
  | mouse ev => exact ⟨m, hlt, onMouse_inv h ev⟩
  | key ev => exact ⟨m, hlt, onKey_inv h ev⟩
  | msg src msg =>
    cases msg with
    | create c mapped =>
      have hm : m + 1 < 2 ^ 32 := by
        have hne := hwrap rfl
        rw [h.next] at hne
        unfold add32 at hne
        omega
      rcases onCreate_inv h hm src c mapped with h' | h'
      · exact ⟨m, hlt, h'⟩
      · exact ⟨m + 1, hm, h'⟩
    | close winId => exact ⟨m, hlt, onClose_inv h src winId⟩
    | damage winId top left bottom right =>
      refine ⟨m, hlt, ?_⟩
      show FocusInv m (s.onDamage winId top left bottom right)
      unfold onDamage
      cases winById s.wins winId with
      | none => exact h
      | some i => exact h.alike (alike_draw _ _)

/-- The state after the inputs `as`. -/
def WinMan.run (s : WinMan) (as : List WmInput) : WinMan := as.foldl handle s

/-- **Window ids do not wrap**: no window is asked for after `g_next_win_id` came back to 0. -/
def NoWrap : WinMan → List WmInput → Prop
  | _, [] => True
  | s, a :: as => (a.creates = true → s.nextWinId ≠ 0) ∧ NoWrap (s.handle a) as

instance : (s : WinMan) → (as : List WmInput) → Decidable (NoWrap s as)
  | _, [] => .isTrue trivial
  | s, a :: as =>
    have := instDecidableNoWrap (s.handle a) as
    inferInstanceAs (Decidable (_ ∧ _))

theorem run_focus (h : FocusInv m s) (hlt : m < 2 ^ 32) (as : List WmInput) (hwrap : NoWrap s as) :
    ∃ m', FocusInv m' (s.run as) := by
  induction as generalizing s m with
  | nil => exact ⟨m, h⟩
  | cons a as ih =>
    obtain ⟨m', hlt', h'⟩ := handle_inv h hlt a hwrap.1
    exact ih h' hlt' hwrap.2

/-- **The property** of a state of the window manager. -/
structure Bracketed (s : WinMan) : Prop where
  focus : s.focusWin = 0 ∨ Focusable s.wins s.focusWin
  hover : s.hoverWin = 0 ∨ Present s.wins s.hoverWin
  drag : s.dragWin = 0 ∨ Present s.wins s.dragWin
  focusEvents : ∀ id, Alternates true (marksOf id (focusMarks s.calls))
  -- at any time, not only between two steps
  oneFocus : ∀ calls, calls <+: s.calls → ∀ id id',
    IsOpen id (focusMarks calls) → IsOpen id' (focusMarks calls) → id = id'
  hoverEvents : ∀ id, Alternates true (marksOf id (hoverMarks s.calls))

theorem FocusInv.bracketed (h : FocusInv m s) : Bracketed s := by
  refine ⟨h.focus, h.hover, h.drag, h.focusEvents.alternates, ?_, ?_⟩
  · intro calls hp id id' hid hid'
    exact h.focusEvents.atMostOne rfl (hp.filterMap _) hid hid'
  · obtain ⟨gone, -, hm⟩ := h.hoverEvents
    exact hm.alternates

theorem start_focus (sc : Screen) (back : ℕ → ℕ) : FocusInv 0 (start sc back) := by
  have hids : IdsOK 0 (start sc back).wins := by
    constructor
    · intro i hi
      cases hi
    · intro i j hi
      cases hi
  have hzero := hids.holder_zero
  refine ⟨hids, rfl, .inl rfl, .inl rfl, .inl rfl, ?_, ∅, fun _ hid => hid.elim, ?_⟩
  · show Marks ∅ [] (holder _ 0)
    rw [hzero]
    exact .nil
  · show Marks ∅ [] (holder _ 0)
    rw [hzero]
    exact .nil

/-- **Focus and hover events are well bracketed** after any messages of clients, mouse events and keys. -/
theorem focus_bracketed (sc : Screen) (back : ℕ → ℕ) (as : List WmInput) (hwrap : NoWrap (start sc back) as) :
    Bracketed ((start sc back).run as) := by
  obtain ⟨m, h⟩ := run_focus (start_focus sc back) (by norm_num) as hwrap
  exact h.bracketed

/-- Two windows are opened, a key is pressed, and the second window is closed. -/
theorem focus_bracketed_two :
    Bracketed ((start column fun _ => 0).run [.msg 3 (dot 0), .msg 3 (dot 0), .key ⟨30, 1, 97⟩, .msg 3 (.close 2)]) ∧
      focusMarks ((start column fun _ => 0).run [.msg 3 (dot 0), .msg 3 (dot 0), .key ⟨30, 1, 97⟩,
        .msg 3 (.close 2)]).calls =
        [(1, true), (1, false), (2, true), (2, false), (1, true)] :=
  ⟨focus_bracketed _ _ _ (by decide +kernel), by decide +kernel⟩

end Saynaa
