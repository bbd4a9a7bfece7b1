import Mathlib.Logic.Equiv.Fin.Basic
import Saynaa.Proof.Layers

/-!
# Raising a window

* `Raised`: what raising a window has to do: no window is lost, the others keep their order, and the window gets above
  all others that are not in the foreground.
* `Swapped`, `raise_swapped`: `raise_window` swaps two slots.
* `RaiseFits`, `raise_raises`: the tables for which this raises the window.
-/

namespace Saynaa

open Lib WinTable

variable {t u : WinTable} {k j m l : Fin maxWins}

/-- The windows in use have different ids. -/
def DistinctIds (t : WinTable) : Prop :=
  ∀ a b, (t a).inUse = true → (t b).inUse = true → (t a).winId = (t b).winId → a = b

/-- **The window in slot `k` of `t` is raised** in `u`. -/
structure Raised (t u : WinTable) (k : Fin maxWins) : Prop where
  records : ∀ w : WmWin, w.inUse = true → ((∃ l, u l = w) ↔ ∃ l, t l = w)
  order : ∀ a b a' b', a ≠ k → b ≠ k → (t a).inUse = true → (t b).inUse = true → u a' = t a → u b' = t b →
    (a' < b' ↔ a < b)
  top : ∃ l, u l = t k ∧ ∀ l', l' ≠ l → (u l').Rear → l' < l

theorem distinct_slot (hd : DistinctIds t) (hu : (t j).inUse = true) (h : t l = t j) : l = j :=
  hd l j (h ▸ hu) hu (congrArg WmWin.winId h)

/-! ### Swapping slots -/

/-- Slots `k` and `m` are swapped, up to what is in free slots. -/
def Swapped (t u : WinTable) (k m : Fin maxWins) : Prop :=
  ∀ l, (u l).inUse = (t (Equiv.swap k m l)).inUse ∧ ((u l).inUse = true → u l = t (Equiv.swap k m l))

namespace Swapped

theorem self (t : WinTable) (k : Fin maxWins) : Swapped t t k k := by
  intro l
  rw [Equiv.swap_self]
  exact ⟨rfl, fun _ => rfl⟩

/-- Where a window goes. -/
theorem get (h : Swapped t u k m) (hl : (t l).inUse = true) : u (Equiv.swap k m l) = t l := by
  obtain ⟨huse, hget⟩ := h (Equiv.swap k m l)
  rw [Equiv.swap_apply_self] at huse hget
  exact hget (huse.trans hl)

/-- Where a window is. -/
theorem slot (h : Swapped t u k m) (hd : DistinctIds t) (hj : (t j).inUse = true) (hl : u l = t j) :
    l = Equiv.swap k m j := by
  have hget := (h l).2 (hl ▸ hj)
  have hslot : Equiv.swap k m l = j := distinct_slot hd hj (hget.symm.trans hl)
  rw [← hslot, Equiv.swap_apply_self]

theorem records (h : Swapped t u k m) {w : WmWin} (hw : w.inUse = true) : (∃ l, u l = w) ↔ ∃ l, t l = w := by
  constructor
  · rintro ⟨l, rfl⟩
    exact ⟨_, ((h l).2 hw).symm⟩
  · rintro ⟨l, rfl⟩
    exact ⟨_, h.get hw⟩

/-- **Raising by a swap**, in terms of the slots before it. -/
theorem raised_iff (h : Swapped t u k m) (hd : DistinctIds t) (hk : (t k).Normal) :
    Raised t u k ↔
      (∀ a b, a ≠ k → b ≠ k → (t a).inUse = true → (t b).inUse = true →
        (Equiv.swap k m a < Equiv.swap k m b ↔ a < b)) ∧
      ∀ l, l ≠ k → (t l).Rear → Equiv.swap k m l < m := by
  constructor
  · rintro ⟨-, horder, i, hi, htop⟩
    refine ⟨fun a b ha hb hua hub => horder a b _ _ ha hb hua hub (h.get hua) (h.get hub), fun l hl hr => ?_⟩
    obtain rfl : i = m := (h.slot hd hk.1 hi).trans (Equiv.swap_apply_left k m)
    apply htop
    · intro hm
      exact hl ((Equiv.swap k i).injective (hm.trans (Equiv.swap_apply_left k i).symm))
    · rw [h.get hr.1]
      exact hr
  · rintro ⟨horder, htop⟩
    refine ⟨fun w hw => h.records hw, fun a b a' b' ha hb hua hub hga hgb => ?_, m, ?_, fun l' hl' hr => ?_⟩
    · rw [h.slot hd hua hga, h.slot hd hub hgb]
      exact horder a b ha hb hua hub
    · have hget := h.get hk.1
      rwa [Equiv.swap_apply_left] at hget
    · have hget := (h l').2 hr.1
      rw [hget] at hr
      have hne : Equiv.swap k m l' ≠ k :=
        fun he => hl' ((Equiv.swap k m).injective (he.trans (Equiv.swap_apply_right k m).symm))
      have hlt := htop _ hne hr
      rwa [Equiv.swap_apply_self] at hlt

end Swapped

/-! ### What `raise_window` does -/

/-- No other window that is not in the foreground lies above. -/
def OnTop (t : WinTable) (k : Fin maxWins) : Prop := ∀ l, k < l → ¬ (t l).Rear

/-- **The tables in which a window can be raised**: it is on top already, or all windows above the next hole are
in the foreground, and where a foreground window is the hole, there is at most one window before it. -/
def RaiseFits (t : WinTable) (k : Fin maxWins) : Prop :=
  OnTop t k ∨ (t k).winId ≠ 0 ∧ ∃ j, NextHole t k j ∧ OnTop t j ∧ ((t j).Front → j.val ≤ k.val + 2)

theorem swapped_move (hkj : k ≠ j) (hj : (t j).inUse = false) : Swapped t (t.move k j) k j := by
  intro l
  unfold WinTable.move
  by_cases hlk : l = k
  · subst hlk
    rw [Function.update_self, Equiv.swap_apply_left, hj]
    exact ⟨rfl, fun h => (nomatch h)⟩
  · rw [Function.update_of_ne hlk]
    by_cases hlj : l = j
    · subst hlj
      rw [Function.update_self, Equiv.swap_apply_right]
      exact ⟨rfl, fun _ => rfl⟩
    · rw [Function.update_of_ne hlj, Equiv.swap_apply_of_ne_of_ne hlk hlj]
      exact ⟨rfl, fun _ => rfl⟩

theorem swapped_swap (t : WinTable) (k m : Fin maxWins) :
    Swapped t (Function.update (Function.update t m (t k)) k (t m)) k m := by
  intro l
  by_cases hlk : l = k
  · subst hlk
    rw [Function.update_self, Equiv.swap_apply_left]
    exact ⟨rfl, fun _ => rfl⟩
  · rw [Function.update_of_ne hlk]
    by_cases hlm : l = m
    · subst hlm
      rw [Function.update_self, Equiv.swap_apply_right]
      exact ⟨rfl, fun _ => rfl⟩
    · rw [Function.update_of_ne hlm, Equiv.swap_apply_of_ne_of_ne hlk hlm]
      exact ⟨rfl, fun _ => rfl⟩

theorem winById_self (hd : DistinctIds t) (hk : (t k).inUse = true) : winById t (t k).winId = some k := by
  cases h : winById t (t k).winId with
  | none =>
    have hnone := find_none.1 h k
    simp [hk] at hnone
  | some i =>
    have hi := (find_first h).1
    simp only [decide_eq_true_eq] at hi
    rw [hd i k hi.1 hk hi.2]

/-- **`raise_window`** swaps the window with another slot: its own, the next hole, or the slot
before the next hole. -/
theorem raise_swapped (hd : DistinctIds t) (hk : (t k).Normal) :
    (Swapped t (raiseWindow t (t k).winId) k k ∧ ((t k).winId = 0 ∨ NoHole t k)) ∨
      (t k).winId ≠ 0 ∧ ∃ j, NextHole t k j ∧
        ((t j).inUse = false ∧ Swapped t (raiseWindow t (t k).winId) k j ∨
          (t j).Front ∧ Swapped t (raiseWindow t (t k).winId) k (before j)) := by
  by_cases h0 : (t k).winId = 0
  · have hsame : raiseWindow t (t k).winId = t := by
      rw [h0]
      exact if_pos rfl
    rw [hsame]
    exact .inl ⟨.self t k, .inl h0⟩
  rcases raise_cases h0 (winById_self hd hk.1) hk with ⟨hsame, hno⟩ | ⟨j, hhole, ⟨hfree, hmove⟩ | ⟨hfront, hswap⟩⟩
  · rw [hsame]
    exact .inl ⟨.self t k, .inr hno⟩
  · rw [hmove]
    exact .inr ⟨h0, j, hhole, .inl ⟨hfree, swapped_move hhole.lt.ne hfree⟩⟩
  · rw [hswap]
    exact .inr ⟨h0, j, hhole, .inr ⟨hfront, swapped_swap t k (before j)⟩⟩

/-! ### When it raises -/

theorem OnTop.of_hole (h : OnTop t k) (hj : NextHole t k j) : OnTop t j ∧ j.val ≤ k.val + 1 := by
  refine ⟨fun l hl => h l (hj.lt.trans hl), ?_⟩
  by_contra hlt
  have hj' := j.isLt
  have hr := hj.between ⟨k.val + 1, by omega⟩ (Fin.lt_def.2 (Nat.lt_succ_self _)) (Fin.lt_def.2 (by simp only; omega))
  exact h _ (Fin.lt_def.2 (Nat.lt_succ_self _)) hr

theorem raised_self (hd : DistinctIds t) (hk : (t k).Normal) (h : Swapped t u k k) : Raised t u k ↔ OnTop t k := by
  rw [h.raised_iff hd hk]
  simp only [Equiv.swap_self, Equiv.refl_apply]
  constructor
  · intro ⟨_, htop⟩ l hl hr
    exact lt_asymm hl (htop l hl.ne' hr)
  · intro htop
    refine ⟨by simp, fun l hl hr => ?_⟩
    by_contra hlt
    exact htop l (lt_of_le_of_ne (not_lt.1 hlt) hl.symm) hr

theorem raised_move (hd : DistinctIds t) (hk : (t k).Normal) (hj : NextHole t k j) (hfree : (t j).inUse = false)
    (h : Swapped t u k j) : Raised t u k ↔ OnTop t j := by
  have hfixed : ∀ l, l ≠ k → (t l).inUse = true → Equiv.swap k j l = l := by
    intro l hl hu
    apply Equiv.swap_apply_of_ne_of_ne hl
    rintro rfl
    rw [hfree] at hu
    cases hu
  rw [h.raised_iff hd hk]
  constructor
  · intro ⟨_, htop⟩ l hl hr
    have hne : l ≠ k := (hj.lt.trans hl).ne'
    have hlt := htop l hne hr
    rw [hfixed l hne hr.1] at hlt
    exact lt_asymm hl hlt
  · intro htop
    refine ⟨fun a b ha hb hua hub => ?_, fun l hl hr => ?_⟩
    · rw [hfixed a ha hua, hfixed b hb hub]
    · rw [hfixed l hl hr.1]
      rcases lt_trichotomy l j with hlt | rfl | hlt
      · exact hlt
      · exact absurd (hfree.symm.trans hr.1) (by decide)
      · exact absurd hr (htop l hlt)

theorem raised_swap (hd : DistinctIds t) (hk : (t k).Normal) (hj : NextHole t k j) (hfront : (t j).Front)
    (h : Swapped t u k (before j)) : Raised t u k ↔ OnTop t j ∧ j.val ≤ k.val + 2 := by
  have hb : (before j).val = j.val - 1 := rfl
  have hkj := Fin.lt_def.1 hj.lt
  rw [h.raised_iff hd hk]
  constructor
  · rintro ⟨horder, htop⟩
    constructor
    · -- the order of the other windows
      intro l hl hr
      have hlt := Fin.lt_def.1 hl
      have hne : l ≠ k := (hj.lt.trans hl).ne'
      have hne' : l ≠ before j := by
        rintro rfl
        omega
      have hlt' := htop l hne hr
      rw [Equiv.swap_apply_of_ne_of_ne hne hne', Fin.lt_def] at hlt'
      omega
    · -- the window before the hole would get below the one behind the raised window
      by_contra hfar
      have hjlt := j.isLt
      let a : Fin maxWins := ⟨k.val + 1, by omega⟩
      have ha : (a : ℕ) = k.val + 1 := rfl
      have hak : a ≠ k := Fin.ne_of_val_ne (by omega)
      have hab : a ≠ before j := Fin.ne_of_val_ne (by omega)
      have hbk : before j ≠ k := Fin.ne_of_val_ne (by omega)
      have hua := (hj.between a (Fin.lt_def.2 (by omega)) (Fin.lt_def.2 (by omega))).1
      have hub := (hj.between (before j) (Fin.lt_def.2 (by omega)) (Fin.lt_def.2 (by omega))).1
      have hiff := horder a (before j) hak hbk hua hub
      rw [Equiv.swap_apply_of_ne_of_ne hak hab, Equiv.swap_apply_right, Fin.lt_def, Fin.lt_def] at hiff
      omega
  · rintro ⟨htop, hnear⟩
    have hval : ∀ l, l ≠ k → (Equiv.swap k (before j) l).val = if l.val = j.val - 1 then k.val else l.val := by
      intro l hl
      split_ifs with he
      · obtain rfl : l = before j := Fin.ext he
        rw [Equiv.swap_apply_right]
      · rw [Equiv.swap_apply_of_ne_of_ne hl (Fin.ne_of_val_ne (by omega))]
    refine ⟨fun a b ha hb' _ _ => ?_, fun l hl hr => ?_⟩
    · have ha' := Fin.val_ne_of_ne ha
      have hb'' := Fin.val_ne_of_ne hb'
      rw [Fin.lt_def, Fin.lt_def, hval a ha, hval b hb']
      split_ifs <;> omega
    · have hl' := Fin.val_ne_of_ne hl
      have hlj : l.val ≤ j.val := not_lt.1 fun hlt => htop l (Fin.lt_def.2 hlt) hr
      have hne : l.val ≠ j.val := by
        intro he
        obtain rfl := Fin.ext he
        exact hr.not_front hfront
      rw [Fin.lt_def, hval l hl]
      split_ifs <;> omega

/-- **Raising a window** works in exactly the tables of `RaiseFits`. -/
theorem raise_raises (hd : DistinctIds t) (hk : (t k).Normal) : Raised t (raiseWindow t (t k).winId) k ↔
    RaiseFits t k := by
  rcases raise_swapped hd hk with ⟨h, hstays⟩ | ⟨h0, j, hj, ⟨hfree, h⟩ | ⟨hfront, h⟩⟩
  · -- nothing moves: it has no id, or there is no hole
    rw [raised_self hd hk h]
    refine ⟨.inl, fun hf => hf.elim id ?_⟩
    rintro ⟨h0, j, hj, -⟩
    exact absurd (hstays.resolve_left h0) hj.not_noHole
  · -- it moves into a free slot
    rw [raised_move hd hk hj hfree h]
    constructor
    · intro htop
      refine .inr ⟨h0, j, hj, htop, fun hf => ?_⟩
      rw [hf.1] at hfree
      cases hfree
    · rintro (htop | ⟨-, j', hj', htop, -⟩)
      · exact (htop.of_hole hj).1
      · rwa [hj.unique hj']
  · -- it changes places with the window in front of the hole
    rw [raised_swap hd hk hj hfront h]
    constructor
    · rintro ⟨htop, hnear⟩
      exact .inr ⟨h0, j, hj, htop, fun _ => hnear⟩
    · rintro (htop | ⟨-, j', hj', htop, hnear⟩)
      · have h1 := htop.of_hole hj
        exact ⟨h1.1, by omega⟩
      · rw [hj.unique hj']
        refine ⟨htop, hnear ?_⟩
        rwa [← hj.unique hj']

/-- Normal windows in the slots `is`, with the slots and one more as their ids. -/
def normalsAt (is : List ℕ) : WinTable := fun i =>
  if i.val ∈ is then { WmWin.zero with inUse := true, winId := i.val + 1 } else .zero

theorem normalsAt_distinct (is : List ℕ) : DistinctIds (normalsAt is) := by
  intro a b ha hb h
  have huse : ∀ i, (normalsAt is i).inUse = true → (normalsAt is i).winId = i.val + 1 := by
    intro i hi
    unfold normalsAt at hi ⊢
    split_ifs at hi ⊢
    · rfl
    · cases hi
  rw [huse a ha, huse b hb] at h
  exact Fin.ext (Nat.succ.inj h)

/-- The lowest of three windows is raised: the slot behind the others is free. -/
theorem raise_raises_three : Raised (normalsAt [0, 1, 2]) (raiseWindow (normalsAt [0, 1, 2]) 1) 0 := by
  refine (@raise_raises (normalsAt [0, 1, 2]) 0 (normalsAt_distinct [0, 1, 2]) (by decide +kernel)).2
    (.inr ⟨by decide, 3, ?_⟩)
  refine ⟨⟨by decide, .inl (by decide), ?_⟩, ?_, fun hfront => ?_⟩
  · intro l h0 h3
    obtain rfl | rfl : l = 1 ∨ l = 2 := by
      have h0' := Fin.lt_def.1 h0
      have h3' := Fin.lt_def.1 h3
      rw [Fin.ext_iff, Fin.ext_iff]
      show l.val = 1 ∨ l.val = 2
      change 0 < l.val at h0'
      change l.val < 3 at h3'
      omega
    · decide +kernel
    · decide +kernel
  · intro l h3 hrear
    have hzero : normalsAt [0, 1, 2] l = .zero := if_neg fun hmem => by
      have h3' := Fin.lt_def.1 h3
      change 3 < l.val at h3'
      simp only [List.mem_cons, List.not_mem_nil, or_false] at hmem
      omega
    rw [hzero] at hrear
    exact absurd hrear (by decide)
  · exact absurd hfront (by decide +kernel)

/-- **A hole below another window**: the raised window goes into it, and stays below. -/
theorem raise_hole : DistinctIds (normalsAt [0, 2]) ∧ (normalsAt [0, 2] 0).Normal ∧
    ¬ Raised (normalsAt [0, 2]) (raiseWindow (normalsAt [0, 2]) 1) 0 := by
  refine ⟨normalsAt_distinct [0, 2], by decide +kernel, ?_⟩
  rintro ⟨-, -, l, hl, htop⟩
  -- the window is in slot 1, below the one in slot 2
  have hid : (raiseWindow (normalsAt [0, 2]) 1 l).winId = 1 := by rw [hl]; rfl
  have hslot : ∀ l, (raiseWindow (normalsAt [0, 2]) 1 l).winId = 1 → l = 1 := by decide +kernel
  obtain rfl := hslot l hid
  exact absurd (htop 2 (by decide) (by decide +kernel)) (by decide)

end Saynaa
