import Saynaa.Lib.Slots
import Saynaa.Proof.Buffers

/-!
# The layers of windows

* `Layered`: foreground windows lie above all others, background windows below the normal ones.
* `raise_cases`: what `raise_window` can do. It keeps the layers (`Layered.raise`).
* `CreateFits`: the condition under which a new window keeps them.
* `layers_kept`, `layers_broken`: runs whose new windows meet the condition keep the layers, others do not.
-/

namespace Saynaa

open Lib WinTable WinMan

/-! ### Layers -/

namespace WmWin

/-- In use, and in the foreground. -/
def Front (w : WmWin) : Prop := w.inUse = true ∧ w.isForeground = true

/-- In use, and not in the foreground. -/
def Rear (w : WmWin) : Prop := w.inUse = true ∧ w.isForeground = false

/-- In use, and in the background. -/
def Back (w : WmWin) : Prop := w.inUse = true ∧ w.isBackground = true

/-- In use, and in neither. -/
def Normal (w : WmWin) : Prop := w.inUse = true ∧ w.isBackground = false ∧ w.isForeground = false

instance (w : WmWin) : Decidable w.Front := inferInstanceAs (Decidable (_ ∧ _))

instance (w : WmWin) : Decidable w.Rear := inferInstanceAs (Decidable (_ ∧ _))

instance (w : WmWin) : Decidable w.Back := inferInstanceAs (Decidable (_ ∧ _))

instance (w : WmWin) : Decidable w.Normal := inferInstanceAs (Decidable (_ ∧ _))

theorem Normal.rear {w : WmWin} (h : w.Normal) : w.Rear := ⟨h.1, h.2.2⟩

theorem Rear.not_front {w : WmWin} (h : w.Rear) : ¬ w.Front := by
  rintro ⟨-, hf⟩
  rw [h.2] at hf
  cases hf

theorem Normal.not_back {w : WmWin} (h : w.Normal) : ¬ w.Back := by
  rintro ⟨-, hb⟩
  rw [h.2.1] at hb
  cases hb

/-- The window is in no layer if its slot is free. -/
structure Absent (w : WmWin) : Prop where
  front : ¬ w.Front
  rear : ¬ w.Rear
  back : ¬ w.Back
  normal : ¬ w.Normal

theorem absent_of_free {w : WmWin} (h : w.inUse = false) : w.Absent := by
  have h' : ¬ w.inUse = true := by rw [h]; decide
  exact ⟨fun hf => h' hf.1, fun hf => h' hf.1, fun hf => h' hf.1, fun hf => h' hf.1⟩

end WmWin

variable {t u : WinTable} {i j k l : Fin maxWins} {w : WmWin} {id : ℕ}

/-- **The property.** -/
structure Layered (t : WinTable) : Prop where
  front : ∀ i j, (t i).Front → (t j).Rear → j < i
  back : ∀ i j, (t i).Back → (t j).Normal → i < j

/-- A window may be put into slot `k`. -/
structure FitsAt (t : WinTable) (k : Fin maxWins) (w : WmWin) : Prop where
  front : w.Front → ∀ l, (t l).Rear → l < k
  rear : w.Rear → ∀ l, (t l).Front → k < l
  back : w.Back → ∀ l, (t l).Normal → k < l
  normal : w.Normal → ∀ l, (t l).Back → l < k

/-- A table with one window more, in slot `k`. -/
structure Added (t : WinTable) (k : Fin maxWins) (w : WmWin) (u : WinTable) : Prop where
  self : u k = w
  other : ∀ l, l ≠ k → u l = t l ∨ (u l).inUse = false

theorem added_update (t : WinTable) (k : Fin maxWins) (w : WmWin) : Added t k w (Function.update t k w) :=
  ⟨Function.update_self _ _ _, fun _ hl => .inl (Function.update_of_ne hl _ _)⟩

/-- A window that was put into slot `k` is moved to slot `j`. -/
theorem added_move (hjk : j ≠ k) : Added t j w (WinTable.move (Function.update t k w) k j) := by
  unfold WinTable.move
  refine ⟨?_, fun l hl => ?_⟩
  · rw [Function.update_of_ne hjk, Function.update_self, Function.update_self]
  · by_cases hlk : l = k
    · rw [hlk, Function.update_self]
      exact .inr rfl
    · rw [Function.update_of_ne hlk, Function.update_of_ne hl, Function.update_of_ne hlk]
      exact .inl rfl

theorem Layered.added (h : Layered t) (ha : Added t k w u) (hf : FitsAt t k w) : Layered u := by
  have hfront : ∀ l, l ≠ k → (u l).Front → (t l).Front := fun l hl hu => by
    rcases ha.other l hl with he | he
    · rwa [← he]
    · exact absurd hu (WmWin.absent_of_free he).front
  have hrear : ∀ l, l ≠ k → (u l).Rear → (t l).Rear := fun l hl hu => by
    rcases ha.other l hl with he | he
    · rwa [← he]
    · exact absurd hu (WmWin.absent_of_free he).rear
  have hback : ∀ l, l ≠ k → (u l).Back → (t l).Back := fun l hl hu => by
    rcases ha.other l hl with he | he
    · rwa [← he]
    · exact absurd hu (WmWin.absent_of_free he).back
  have hnormal : ∀ l, l ≠ k → (u l).Normal → (t l).Normal := fun l hl hu => by
    rcases ha.other l hl with he | he
    · rwa [← he]
    · exact absurd hu (WmWin.absent_of_free he).normal
  refine ⟨fun i j hi hj => ?_, fun i j hi hj => ?_⟩
  · -- only the added window is new among those in front
    by_cases hik : i = k <;> by_cases hjk : j = k
    · rw [hik] at hi
      rw [hjk] at hj
      exact absurd hi hj.not_front
    · subst hik
      rw [ha.self] at hi
      exact hf.front hi j (hrear j hjk hj)
    · subst hjk
      rw [ha.self] at hj
      exact hf.rear hj i (hfront i hik hi)
    · exact h.front i j (hfront i hik hi) (hrear j hjk hj)
  · -- and among those in the back
    by_cases hik : i = k <;> by_cases hjk : j = k
    · rw [hik] at hi
      rw [hjk] at hj
      exact absurd hi hj.not_back
    · subst hik
      rw [ha.self] at hi
      exact hf.back hi j (hnormal j hjk hj)
    · subst hjk
      rw [ha.self] at hj
      exact hf.normal hj i (hback i hik hi)
    · exact h.back i j (hback i hik hi) (hnormal j hjk hj)

theorem free_zero : WmWin.zero.inUse = false := rfl

/-- A closed window. -/
theorem Layered.remove (h : Layered t) (k : Fin maxWins) : Layered (Function.update t k .zero) := by
  have habs := WmWin.absent_of_free free_zero
  apply h.added (added_update t k .zero)
  exact ⟨fun hw => absurd hw habs.front, fun hw => absurd hw habs.rear, fun hw => absurd hw habs.back,
    fun hw => absurd hw habs.normal⟩

/-! ### Raising -/

/-- The next slot behind `k` that is free or holds a foreground window. -/
structure NextHole (t : WinTable) (k j : Fin maxWins) : Prop where
  lt : k < j
  hole : (t j).inUse = false ∨ (t j).Front
  between : ∀ l, k < l → l < j → (t l).Rear

/-- There is no such slot. -/
def NoHole (t : WinTable) (k : Fin maxWins) : Prop := ∀ l, k < l → (t l).Rear

theorem pred_lt_maxWins (j : Fin maxWins) : j.val - 1 < maxWins := by omega

/-- The slot before `j`. -/
def before (j : Fin maxWins) : Fin maxWins := ⟨j - 1, pred_lt_maxWins j⟩

theorem bubble_cases (hk : winById t id = some k) :
    (t.bubble id = none ∧ NoHole t k) ∨ ∃ j, t.bubble id = some (k, j) ∧ NextHole t k j := by
  obtain ⟨hid, hfirst⟩ := find_first hk
  have hself : (t k).inUse = true ∧ (t k).winId = id := by simpa using hid
  -- the body of the loop over `i`
  set f : Fin maxWins → Option (Fin maxWins × Fin maxWins) := fun i =>
    if i.val + 1 < maxWins ∧ (t i).inUse ∧ (t i).winId = id then
      ((List.finRange maxWins).find? fun j => i < j ∧ (¬ (t j).inUse ∨ (t j).isForeground)).map fun j => (i, j)
    else none with hf
  have hbubble : t.bubble id = (List.finRange maxWins).findSome? f := rfl
  have hrear : ∀ l, ¬ (¬ (t l).inUse = true ∨ (t l).isForeground = true) → (t l).Rear := by
    intro l hl
    push Not at hl
    exact ⟨hl.1, by simpa using hl.2⟩
  have hnone : f k = none → NoHole t k := by
    intro hfk l hl
    have hk1 : k.val + 1 < maxWins := by
      have h1 : k.val < l.val := hl
      have h2 := l.isLt
      omega
    rw [hf] at hfk
    simp only [hk1, hself.1, hself.2, and_self, if_true, Option.map_eq_none_iff, find_none] at hfk
    have hl' := hfk l
    simp only [hl, true_and, decide_eq_false_iff_not] at hl'
    exact hrear l hl'
  have hsome : ∀ a b, f a = some b → b.1 = a ∧ (t a).inUse = true ∧ (t a).winId = id ∧ NextHole t a b.2 := by
    intro a b hab
    rw [hf] at hab
    simp only at hab
    split_ifs at hab with hc
    obtain ⟨j, hj, rfl⟩ := Option.map_eq_some_iff.1 hab
    obtain ⟨hp, hbefore⟩ := find_first hj
    have hp' : a < j ∧ (¬ (t j).inUse = true ∨ (t j).isForeground = true) := by simpa using hp
    refine ⟨rfl, hc.2.1, hc.2.2, hp'.1, ?_, fun l h1 h2 => ?_⟩
    · cases hu : (t j).inUse with
      | false => exact .inl rfl
      | true =>
        rcases hp'.2 with hn | hfg
        · exact absurd hu hn
        · exact .inr ⟨hu, hfg⟩
    · have hl' := hbefore l h2
      simp only [h1, true_and, decide_eq_false_iff_not] at hl'
      exact hrear l hl'
  rw [hbubble]
  cases hfk : f k with
  | none =>
    -- a later slot with the id would find a slot behind `k` as well
    refine .inl ⟨?_, hnone hfk⟩
    rw [List.findSome?_eq_none_iff]
    intro a _
    by_contra hne
    obtain ⟨b, hb⟩ := Option.ne_none_iff_exists'.1 hne
    obtain ⟨-, hau, haid, hhole⟩ := hsome a b hb
    have hka : k < a := by
      rcases lt_trichotomy a k with h1 | h1 | h1
      · have := hfirst a h1
        simp [hau, haid] at this
      · rw [h1, hfk] at hb
        cases hb
      · exact h1
    have h2 := hnone hfk b.2 (hka.trans hhole.lt)
    rcases hhole.hole with h3 | h3
    · rw [h2.1] at h3
      cases h3
    · exact h2.not_front h3
  | some b =>
    obtain ⟨h1, -, -, hhole⟩ := hsome k b hfk
    refine .inr ⟨b.2, ?_, hhole⟩
    cases hr : (List.finRange maxWins).findSome? f with
    | none =>
      rw [List.findSome?_eq_none_iff] at hr
      rw [hr k (List.mem_finRange k)] at hfk
      cases hfk
    | some c =>
      obtain ⟨a, ha, hbefore⟩ := findSome_first hr
      obtain ⟨h2, hau, haid, -⟩ := hsome a c ha
      rcases lt_trichotomy a k with h3 | rfl | h3
      · have := hfirst a h3
        simp [hau, haid] at this
      · rw [hfk] at ha
        cases ha
        rw [← h1]
      · rw [hbefore k h3] at hfk
        cases hfk

/-- **What `raise_window` does to a normal window.** -/
theorem raise_cases (h0 : id ≠ 0) (hk : winById t id = some k) (hn : (t k).Normal) :
    (raiseWindow t id = t ∧ NoHole t k) ∨ ∃ j, NextHole t k j ∧
      (((t j).inUse = false ∧ raiseWindow t id = t.move k j) ∨
        ((t j).Front ∧ raiseWindow t id = Function.update (Function.update t (before j) (t k)) k
          (t (before j)))) := by
  have hb : ¬ (t k).isBackground = true := by rw [hn.2.1]; decide
  have hf : ¬ (t k).isForeground = true := by rw [hn.2.2]; decide
  unfold raiseWindow
  rw [if_neg h0, hk]
  simp only
  rw [if_neg hb, if_neg hf]
  rcases bubble_cases hk with ⟨hbub, hno⟩ | ⟨j, hbub, hhole⟩
  · rw [hbub]
    exact .inl ⟨rfl, hno⟩
  · rw [hbub]
    refine .inr ⟨j, hhole, ?_⟩
    rcases hhole.hole with hj | hj
    · have hj' : ¬ (t j).inUse = true := by rw [hj]; decide
      simp only
      rw [if_pos hj']
      exact .inl ⟨hj, rfl⟩
    · simp only
      rw [if_neg (not_not.2 hj.1)]
      exact .inr ⟨hj, rfl⟩

theorem NextHole.unique {j' : Fin maxWins} (h : NextHole t k j) (h' : NextHole t k j') : j = j' := by
  have key : ∀ {a b : Fin maxWins}, NextHole t k a → NextHole t k b → ¬ a < b := by
    intro a b ha hb hab
    have hr := hb.between a ha.lt hab
    rcases ha.hole with hh | hh
    · rw [hr.1] at hh
      cases hh
    · exact hr.not_front hh
  exact le_antisymm (not_lt.1 (key h' h)) (not_lt.1 (key h h'))

theorem NextHole.not_noHole (h : NextHole t k j) : ¬ NoHole t k := by
  intro hn
  have hr := hn j h.lt
  rcases h.hole with hh | hh
  · rw [hr.1] at hh
    cases hh
  · exact hr.not_front hh

/-- A foreground window behind `k` is not before the next hole. -/
theorem NextHole.le_front (h : NextHole t k j) (hl : (t l).Front) (hkl : k < l) : j ≤ l :=
  not_lt.1 fun hlt => (h.between l hkl hlt).not_front hl

/-- **The condition for a normal window** that is created in slot `k`: no foreground window lies below, and no
background window above. Background windows may lie between `k` and the next slot that is free or holds a
foreground window, but in the second case no normal ones. -/
structure NormalFits (t : WinTable) (k : Fin maxWins) : Prop where
  front : ∀ l, (t l).Front → k < l
  back : (∀ l, (t l).Back → l < k) ∨ ∃ j, NextHole t k j ∧ (∀ l, (t l).Back → l < j) ∧
    ((t j).Front → ∀ l, k < l → l < j → (t l).Back)

theorem fitsAt_normal (hw : w.Normal) (hf : ∀ l, (t l).Front → k < l) (hb : ∀ l, (t l).Back → l < k) : FitsAt t k w :=
  ⟨fun h => absurd h hw.rear.not_front, fun _ => hf, fun h => absurd h hw.not_back, fun _ => hb⟩

theorem NormalFits.of_noHole (h : NormalFits t k) (hno : NoHole t k) : ∀ l, (t l).Back → l < k := by
  rcases h.back with hback | ⟨j, hj, -⟩
  · exact hback
  · exact absurd hno hj.not_noHole

/-- Background windows lie below the next hole. -/
theorem NormalFits.lt_hole (h : NormalFits t k) (hj : NextHole t k j) : ∀ l, (t l).Back → l < j := by
  intro l hl
  rcases h.back with hback | ⟨j', hj', hback, -⟩
  · exact (hback l hl).trans hj.lt
  · rw [hj.unique hj']
    exact hback l hl

/-- A normal window before the foreground keeps the background windows below `k`. -/
theorem NormalFits.lt_of_normal (h : NormalFits t k) (hj : NextHole t k j) (hfront : (t j).Front) (hki : k < i)
    (hij : i < j) (hn : (t i).Normal) : ∀ l, (t l).Back → l < k := by
  rcases h.back with hback | ⟨j', hj', -, hbetween⟩
  · exact hback
  · rw [← hj.unique hj'] at hbetween
    exact absurd (hbetween hfront i hki hij) hn.not_back

theorem before_lt (h : k < j) : before j < j ∧ ∀ l, l < j → l ≤ before j := by
  have h1 : k.val < j.val := h
  have hval : (before j).val + 1 = j.val := by
    show j.val - 1 + 1 = j.val
    omega
  refine ⟨?_, fun l hl => ?_⟩
  · show (before j).val < j.val
    omega
  · have h2 : l.val < j.val := hl
    show l.val ≤ (before j).val
    omega

/-- What is found in a table after a window was removed was there before. -/
theorem of_removed {P : WmWin → Prop} (hz : ¬ P .zero) (hP : P (Function.update t i .zero l)) : l ≠ i ∧ P (t l) := by
  by_cases hl : l = i
  · rw [hl, Function.update_self] at hP
    exact absurd hP hz
  · rw [Function.update_of_ne hl] at hP
    exact ⟨hl, hP⟩

/-- The window in slot `a` before the foreground moves down to the free slot `k`. -/
theorem Layered.down (h : Layered t) (hfit : NormalFits t k) (hj : NextHole t k j) (hfront : (t j).Front)
    (hki : k < i) (hij : i < j) : Layered (Function.update (Function.update t i .zero) k (t i)) := by
  have hz := WmWin.absent_of_free free_zero
  have hX : (t i).Rear := hj.between i hki hij
  apply (h.remove i).added (added_update _ k (t i))
  refine ⟨fun hf => absurd hf hX.not_front, fun _ l hl => ?_, fun hb l hl => ?_, fun hn l hl => ?_⟩
  · exact hfit.front l (of_removed hz.front hl).2
  · exact hki.trans (h.back i l hb (of_removed hz.normal hl).2)
  · exact hfit.lt_of_normal hj hfront hki hij hn l (of_removed hz.back hl).2

/-- A normal window in the free slot `k` changes places with the one in slot `i` before the foreground. -/
theorem Layered.swap (h : Layered t) (hw : w.Normal) (hfit : NormalFits t k) (hj : NextHole t k j)
    (hfront : (t j).Front) (hki : k < before j) :
    Layered (Function.update (Function.update (Function.update t k w) (before j) w) k (t (before j))) := by
  have hz := WmWin.absent_of_free free_zero
  obtain ⟨hij, hle⟩ := before_lt hj.lt
  set i := before j with hi
  have hX : (t i).Rear := hj.between i hki hij
  set t₁ := Function.update (Function.update t i .zero) k (t i) with ht₁
  have h₁ : Layered t₁ := h.down hfit hj hfront hki hij
  have hne : i ≠ k := ne_of_gt hki
  apply h₁.added (k := i) (w := w)
  · refine ⟨?_, fun l hl => .inl ?_⟩
    · rw [Function.update_of_ne hne, Function.update_self]
    · by_cases hlk : l = k
      · rw [hlk, Function.update_self, ht₁, Function.update_self]
      · rw [Function.update_of_ne hlk, Function.update_of_ne hl, Function.update_of_ne hlk, ht₁,
          Function.update_of_ne hlk, Function.update_of_ne hl]
  · apply fitsAt_normal hw
    · intro l hl
      have hlk : l ≠ k := by
        rintro rfl
        rw [ht₁, Function.update_self] at hl
        exact hX.not_front hl
      rw [ht₁, Function.update_of_ne hlk] at hl
      have hl' := (of_removed hz.front hl).2
      exact lt_of_lt_of_le hij (hj.le_front hl' (hfit.front l hl'))
    · intro l hl
      by_cases hlk : l = k
      · rw [hlk]
        exact hki
      · rw [ht₁, Function.update_of_ne hlk] at hl
        obtain ⟨hli, hl'⟩ := of_removed hz.back hl
        exact lt_of_le_of_ne (hle l (hfit.lt_hole hj l hl')) hli

/-- **A normal window** is put into the free slot `k` and raised. -/
theorem Layered.insert (h : Layered t) (hfree : (t k).inUse = false) (hw : w.Normal) (hfit : NormalFits t k)
    (h0 : id ≠ 0) (hid : winById (Function.update t k w) id = some k) :
    Layered (raiseWindow (Function.update t k w) id) := by
  set u := Function.update t k w with hu
  have huk : u k = w := Function.update_self _ _ _
  have hul : ∀ l, l ≠ k → u l = t l := fun l hl => Function.update_of_ne hl _ _
  -- behind `k` both tables are the same
  have hhole : ∀ j, NextHole u k j → NextHole t k j := by
    intro j hj
    refine ⟨hj.lt, ?_, fun l h1 h2 => ?_⟩
    · rw [← hul j (ne_of_gt hj.lt)]
      exact hj.hole
    · rw [← hul l (ne_of_gt h1)]
      exact hj.between l h1 h2
  rcases raise_cases h0 hid (by rwa [huk]) with ⟨hr, hno⟩ | ⟨j, hj, ⟨hjfree, hr⟩ | ⟨hjfront, hr⟩⟩
  · have hno' : NoHole t k := by
      intro l hl
      rw [← hul l (ne_of_gt hl)]
      exact hno l hl
    rw [hr]
    apply h.added (added_update t k w)
    exact fitsAt_normal hw hfit.front (hfit.of_noHole hno')
  · have hjt := hhole j hj
    have hjk : j ≠ k := ne_of_gt hj.lt
    rw [hul j hjk] at hjfree
    rw [hr]
    apply h.added (added_move hjk)
    apply fitsAt_normal hw _ (hfit.lt_hole hjt)
    intro l hl
    refine lt_of_le_of_ne (hjt.le_front hl (hfit.front l hl)) fun hjl => ?_
    subst hjl
    exact (WmWin.absent_of_free hjfree).front hl
  · have hjt := hhole j hj
    rw [hul j (ne_of_gt hj.lt)] at hjfront
    obtain ⟨-, hle⟩ := before_lt hj.lt
    rw [hr, huk]
    rcases eq_or_lt_of_le (hle k hj.lt) with ha | ha
    · -- the window stays where it is
      have hsame : Function.update (Function.update u (before j) w) k (u (before j)) = u := by
        rw [← ha, huk, Function.update_idem, ← huk, Function.update_eq_self]
      rw [hsame]
      apply h.added (added_update t k w)
      apply fitsAt_normal hw hfit.front
      intro l hl
      have hlk := hle l (hfit.lt_hole hjt l hl)
      rw [← ha] at hlk
      refine lt_of_le_of_ne hlk fun hlk' => ?_
      rw [hlk'] at hl
      exact (WmWin.absent_of_free hfree).back hl
    · rw [hul _ (ne_of_gt ha)]
      exact h.swap hw hfit hjt hjfront ha

/-- Only normal windows are raised. -/
theorem raise_other (hk : winById t id = some k) (hn : ¬ (t k).Normal) : raiseWindow t id = t := by
  have hused := (winById_some hk).1
  unfold raiseWindow
  rw [hk]
  simp only
  split_ifs with h0 hb hf
  · rfl
  · rfl
  · rfl
  · exact absurd ⟨hused, by simpa using hb, by simpa using hf⟩ hn

/-- **`raise_window` keeps the layers.** -/
theorem Layered.raise (h : Layered t) (id : ℕ) : Layered (raiseWindow t id) := by
  by_cases h0 : id = 0
  · unfold raiseWindow
    rwa [if_pos h0]
  cases hk : winById t id with
  | none =>
    unfold raiseWindow
    rw [if_neg h0, hk]
    exact h
  | some k =>
    by_cases hn : (t k).Normal
    · have hu : Function.update (Function.update t k .zero) k (t k) = t := by
        rw [Function.update_idem, Function.update_eq_self]
      have hz := WmWin.absent_of_free free_zero
      have hfit : NormalFits (Function.update t k .zero) k :=
        ⟨fun l hl => h.front l k (of_removed hz.front hl).2 hn.rear,
          .inl fun l hl => h.back l k (of_removed hz.back hl).2 hn⟩
      have hins := (h.remove k).insert (k := k) (w := t k) (by rw [Function.update_self]; rfl) hn hfit h0
        (by rwa [hu])
      rwa [hu] at hins
    · rwa [raise_other hk hn]

/-! ### New windows -/

/-- What `WM_MSG_CREATE` does to the table, with the free slot `k`. -/
def WinTable.create (t : WinTable) (k : Fin maxWins) (w : WmWin) : WinTable :=
  let u := Function.update t k w
  raiseWindow (if w.isForeground then moveToEnd u w.winId else u) w.winId

/-- **The condition** for a new window in the free slot `k`: its id is new; a foreground window needs a free slot
above all others that are not in the foreground; a background window needs only background windows below. -/
structure CreateFits (t : WinTable) (k : Fin maxWins) (w : WmWin) : Prop where
  fresh : ∀ l, (t l).inUse = true → (t l).winId ≠ w.winId
  front : w.Front → (∀ l, (t l).Rear → ∃ f, (t f).inUse = false ∧ l < f) ∧ (w.Back → ∀ l, ¬ (t l).Normal)
  back : w.Back → w.Rear → ∀ l, (t l).Front ∨ (t l).Normal → k < l
  normal : w.Normal → NormalFits t k

/-- The new window is the only one with its id. -/
theorem winById_new (hw : w.inUse = true) (hfresh : ∀ l, (t l).inUse = true → (t l).winId ≠ w.winId)
    (ha : Added t k w u) : winById u w.winId = some k := by
  cases hr : winById u w.winId with
  | none =>
    have hk := find_none.1 hr k
    simp [ha.self, hw] at hk
  | some m =>
    obtain ⟨h1, h2⟩ := winById_some hr
    by_cases hm : m = k
    · rw [hm]
    · rcases ha.other m hm with he | he
      · rw [he] at h1 h2
        exact absurd h2 (hfresh m h1)
      · rw [he] at h1
        cases h1

/-- A new foreground window goes to the last free slot. -/
theorem moveToEnd_new (hw : w.inUse = true) (hfresh : ∀ l, (t l).inUse = true → (t l).winId ≠ w.winId)
    (hfree : (t k).inUse = false) : ∃ f, (t f).inUse = false ∧ (∀ l, (t l).inUse = false → l ≤ f) ∧
      Added t f w (moveToEnd (Function.update t k w) w.winId) := by
  set u := Function.update t k w with hu
  have huk : u k = w := Function.update_self _ _ _
  have hul : ∀ l, l ≠ k → u l = t l := fun l hl => Function.update_of_ne hl _ _
  unfold moveToEnd
  cases hi : (List.finRange maxWins).find? fun i => i.val + 1 < maxWins ∧ (u i).inUse ∧ (u i).winId = w.winId with
  | none =>
    -- `k` is the last slot of all
    have hk := find_none.1 hi k
    have hlast : maxWins ≤ k.val + 1 := by
      simpa [huk, hw] using hk
    refine ⟨k, hfree, fun l _ => ?_, added_update t k w⟩
    have := l.isLt
    show l.val ≤ k.val
    omega
  | some i =>
    obtain ⟨hp, -⟩ := find_first hi
    have hp' : i.val + 1 < maxWins ∧ (u i).inUse = true ∧ (u i).winId = w.winId := by simpa using hp
    obtain rfl : i = k := by
      by_contra hne
      rw [hul i hne] at hp'
      exact hfresh i hp'.2.1 hp'.2.2
    simp only
    cases hj : (List.finRange maxWins).reverse.find? fun j => i < j ∧ ¬ (u j).inUse with
    | none =>
      refine ⟨i, hfree, fun l hl => ?_, added_update t i w⟩
      by_contra hlt
      have hil := not_le.1 hlt
      have := find_last_none.1 hj l
      rw [hul l (ne_of_gt hil)] at this
      simp [hil, hl] at this
    | some j =>
      obtain ⟨hq, hafter⟩ := find_last hj
      have hq' : i < j ∧ (u j).inUse = false := by simpa using hq
      have hji : j ≠ i := ne_of_gt hq'.1
      rw [hul j hji] at hq'
      refine ⟨j, hq'.2, fun l hl => ?_, added_move hji⟩
      by_contra hlt
      have hjl := not_le.1 hlt
      have := hafter l hjl
      rw [hul l (ne_of_gt (hq'.1.trans hjl))] at this
      simp [hq'.1.trans hjl, hl] at this

/-- **A new window keeps the layers.** -/
theorem Layered.create (h : Layered t) (hfree : (t k).inUse = false) (hw : w.inUse = true) (h0 : w.winId ≠ 0)
    (hfit : CreateFits t k w) : Layered (WinTable.create t k w) := by
  unfold WinTable.create
  simp only
  cases hfg : w.isForeground with
  | true =>
    have hfront : w.Front := ⟨hw, hfg⟩
    have hnn : ¬ w.Normal := fun hn => hn.rear.not_front hfront
    obtain ⟨f, -, hlast, ha⟩ := moveToEnd_new hw hfit.fresh hfree
    have hid := winById_new hw hfit.fresh ha
    rw [if_pos rfl, raise_other hid (by rwa [ha.self])]
    apply h.added ha
    refine ⟨fun _ l hl => ?_, fun hr => absurd hfront hr.not_front, fun hb l hl => ?_, fun hn => absurd hn hnn⟩
    · obtain ⟨f', hf', hlt⟩ := (hfit.front hfront).1 l hl
      exact lt_of_lt_of_le hlt (hlast f' hf')
    · exact absurd hl ((hfit.front hfront).2 hb l)
  | false =>
    have hrear : w.Rear := ⟨hw, hfg⟩
    have hid := winById_new hw hfit.fresh (added_update t k w)
    rw [if_neg (by decide)]
    cases hbg : w.isBackground with
    | true =>
      have hback : w.Back := ⟨hw, hbg⟩
      have hnn : ¬ w.Normal := fun hn => hn.not_back hback
      rw [raise_other hid (by rwa [Function.update_self])]
      apply h.added (added_update t k w)
      refine ⟨fun hf => absurd hf hrear.not_front, fun _ l hl => ?_, fun _ l hl => ?_, fun hn => absurd hn hnn⟩
      · exact hfit.back hback hrear l (.inl hl)
      · exact hfit.back hback hrear l (.inr hl)
    | false =>
      have hn : w.Normal := ⟨hw, hbg, hfg⟩
      exact h.insert hfree hn (hfit.normal hn) h0 hid

/-! ### Messages and the mouse -/

/-- Windows that differ in nothing that layers are about. -/
theorem Layered.congr (h : Layered t) (hu : ∀ l, (u l).inUse = (t l).inUse) (hf : ∀ l, (u l).flags = (t l).flags) :
    Layered u := by
  have hbg : ∀ l, (u l).isBackground = (t l).isBackground := fun l => by
    unfold WmWin.isBackground
    rw [hf]
  have hfg : ∀ l, (u l).isForeground = (t l).isForeground := fun l => by
    unfold WmWin.isForeground
    rw [hf]
  refine ⟨fun i j hi hj => h.front i j ?_ ?_, fun i j hi hj => h.back i j ?_ ?_⟩
  · exact ⟨by rw [← hu]; exact hi.1, by rw [← hfg]; exact hi.2⟩
  · exact ⟨by rw [← hu]; exact hj.1, by rw [← hfg]; exact hj.2⟩
  · exact ⟨by rw [← hu]; exact hi.1, by rw [← hbg]; exact hi.2⟩
  · exact ⟨by rw [← hu]; exact hj.1, by rw [← hbg]; exact hj.2.1, by rw [← hfg]; exact hj.2.2⟩

variable {s s' : WinMan} {sc : Screen}

theorem Quiet.wins (h : Quiet s s') : s'.wins = s.wins := by rw [h.scene]

/-- **A client's window**: nothing happens to the table, or a new window is put into the first free slot. -/
theorem onCreate_wins (s : WinMan) (src : ℕ) (c : CreateMsg) (mapped : Option Buffer) :
    ((s.onCreate src c mapped).wins = s.wins ∧ ((∀ i, (s.wins i).inUse = true) ∨ mapped = none)) ∨
      ∃ k buf, mapped = some buf ∧ (s.wins k).inUse = false ∧
      (∀ l < k, (s.wins l).inUse = true) ∧
        (s.onCreate src c mapped).wins = WinTable.create s.wins k (s.newWin src c buf) := by
  unfold onCreate
  cases hslot : (List.finRange maxWins).find? fun i => ¬ (s.wins i).inUse with
  -- the table is full
  | none =>
    refine .inl ⟨rfl, .inl fun i => ?_⟩
    simpa using find_none.1 hslot i
  | some k =>
    obtain ⟨hp, hbefore⟩ := find_first hslot
    cases mapped with
    -- the client's memory is not mapped
    | none => exact .inl ⟨rfl, .inr rfl⟩
    | some buf =>
      refine .inr ⟨k, buf, rfl, by simpa using hp, fun l hl => by simpa using hbefore l hl, ?_⟩
      simp only
      set s1 := s.call (.shmMap c.shmId) with hs1
      set win := s1.newWin src c buf with hwin
      set s2 : WinMan := { s1 with nextWinId := s1.nextIds.2, wins := Function.update s1.wins k win } with hs2
      set s3 : WinMan :=
        if win.isForeground = true then { s2 with wins := moveToEnd s2.wins win.winId } else s2 with hs3
      have h3 : s3.wins = if win.isForeground = true then moveToEnd s2.wins win.winId else s2.wins := by
        rw [hs3]
        split_ifs <;> rfl
      set s4 := s3.call (.createReply src c.reqId win.winId win.x win.y) with hs4
      set s5 : WinMan := { s4 with wins := raiseWindow s4.wins win.winId } with hs5
      have h5 : s5.wins = WinTable.create s.wins k (s.newWin src c buf) := by
        show raiseWindow s3.wins win.winId = _
        rw [h3]
        rfl
      cases winById s5.wins win.winId with
      | none => exact h5
      | some i =>
        simp only
        have hq : Quiet s5 (if (s5.wins i).isFocusable = true then s5.updateFocus win.winId else s5) :=
          .ite (updateFocus_quiet _ _) (.refl _)
        exact hq.wins.trans h5

/-- Closing empties the slot of the window. -/
theorem onClose_wins (s : WinMan) (src winId : ℕ) :
    s.onClose src winId = s ∨ ∃ k, winById s.wins winId = some k ∧ (s.wins k).ownerPid = src ∧
      (s.onClose src winId).wins = Function.update s.wins k .zero := by
  unfold onClose
  cases hfind : winById s.wins winId with
  | none => exact .inl rfl
  | some i =>
    simp only
    by_cases howner : (s.wins i).ownerPid ≠ src
    · rw [if_pos howner]
      exact .inl rfl
    rw [if_neg howner]
    set s1 := if s.focusWin = winId then s.updateFocus 0 else s with hs1
    have h1 : Quiet s s1 := .ite (updateFocus_quiet s 0) (.refl s)
    set s2 := s1.call (.shmClose (s1.wins i).shmId) with hs2
    set s3 : WinMan := { s2 with wins := Function.update s2.wins i .zero } with hs3
    have h3 : s3.wins = Function.update s.wins i .zero := by
      show Function.update s1.wins i .zero = _
      rw [h1.wins]
    set s4 : WinMan := if s3.hoverWin = winId then { s3 with hoverWin := 0 } else s3 with hs4
    have h4 : Quiet s3 s4 := .ite ⟨rfl, rfl, rfl⟩ (.refl s3)
    set s5 : WinMan := if s4.dragWin = winId then { s4 with dragWin := 0, dragging := false } else s4 with hs5
    have h5 : Quiet s4 s5 := .ite ⟨rfl, rfl, rfl⟩ (.refl s4)
    refine .inr ⟨i, rfl, not_not.1 howner, ?_⟩
    have hlast : ∀ s6, Quiet s5 s6 → s6.redraw.wins = Function.update s.wins i .zero := by
      intro s6 h6
      exact ((h4.trans h5).trans h6).wins.trans h3
    apply hlast
    apply Quiet.ite _ (.refl s5)
    cases topmostFocusableWindow s5.wins with
    | none => exact updateFocus_quiet s5 0
    | some j => exact updateFocus_quiet s5 _

/-- **The rule for a mouse event**: what its parts keep, it keeps. -/
theorem onMouse_rule {P : WinMan → Prop}
    (hmouse : ∀ (s : WinMan) (x y : ℤ) (l r m : Bool), P s →
    P { s with mx := x, my := y, left := l, right := r, middle := m })
    (hpress : ∀ s, P s → P s.press) (hdrag : ∀ s ox oy, P s → P (s.drag ox oy).1) (hrelease : ∀ s, P s → P s.release)
    (hhover : ∀ s, P s → P s.handleMouseEvent) (hrect : ∀ s r, P s → P (s.redrawRect r)) (h : P s) (ev : MouseEvent) :
    P (s.onMouse ev) := by
  unfold onMouse
  simp only
  set s1 : WinMan := { s with
    mx := ev.x, my := ev.y
    left := ev.buttons &&& 1 ≠ 0, right := ev.buttons &&& 2 ≠ 0, middle := ev.buttons &&& 4 ≠ 0 } with hs1
  -- a move, then a press, a drag, a release and the window below the pointer
  have h1 : P s1 := hmouse s _ _ _ _ _ h
  set a : WinMan × Bool := if (!s.left && s1.left) = true then (s1.press, true) else (s1, false) with ha
  have h2 : P a.1 := by
    rw [ha]
    split_ifs
    · exact hpress s1 h1
    · exact h1
  set b : WinMan × Bool :=
    if a.1.dragging = true ∧ a.1.dragWin ≠ 0 ∧ a.1.left = true ∧ decide (s.mx ≠ s1.mx ∨ s.my ≠ s1.my) = true then
    ((a.1.drag s.mx s.my).1, a.2 || (a.1.drag s.mx s.my).2) else (a.1, a.2) with hb
  have h3 : P b.1 := by
    rw [hb]
    split_ifs
    · exact hdrag _ _ _ h2
    · exact h2
  set c : WinMan × Bool := if (s.left && !s1.left) = true then (b.1.release, true) else (b.1, b.2) with hc
  have h4 : P c.1 := by
    rw [hc]
    split_ifs
    · exact hrelease _ h3
    · exact h3
  have h5 := hhover _ h4
  split_ifs
  · exact h5
  · exact hrect _ _ h5
  · exact h4

section Mouse

-- mouse events change the table by raising windows and by changing the position of one
variable {P : WinTable → Prop} (hraise : ∀ t id, P t → P (raiseWindow t id))
  (hmoved : ∀ t i x y, P t → P (Function.update t i { t i with x := x, y := y }))

include hraise in
theorem press_table (h : P s.wins) : P s.press.wins := by
  obtain ⟨s1, t', hpress, hscene, ht⟩ := press_ok s
  have hwins : s.press.wins = t' := by
    rw [hpress]
    show s1.wins = t'
    rw [hscene]
  rw [hwins]
  rcases ht with rfl | ⟨id, rfl⟩
  · exact h
  · exact hraise _ id h

include hmoved in
/-- A drag changes the position of a window only. -/
theorem drag_table (h : P s.wins) (ox oy : ℤ) : P (s.drag ox oy).1.wins := by
  unfold WinMan.drag
  cases winById s.wins s.dragWin with
  | none => exact h
  | some i =>
    simp only
    split_ifs
    · exact hmoved _ i _ _ h
    · exact h

theorem release_wins (s : WinMan) : s.release.wins = s.wins := by
  unfold WinMan.release
  simp only
  set s1 : WinMan := if s.dragging = true then { s with dragging := false, dragWin := 0 } else s with hs1
  have h1 : Quiet s s1 := .ite ⟨rfl, rfl, rfl⟩ (.refl s)
  exact (h1.trans (Quiet.ite (tell_quiet s1 _ _) (.refl s1))).wins

include hraise hmoved in
/-- **What a mouse event does to the table** keeps what raising and moving windows keeps. -/
theorem mouse_table (h : P s.wins) (ev : MouseEvent) : P (s.onMouse ev).wins := by
  apply onMouse_rule (P := fun s => P s.wins) (fun _ _ _ _ _ _ h => h) (fun _ h => press_table hraise h)
    (fun _ _ _ h => drag_table hmoved h _ _) _ _ (fun _ _ h => h) h ev
  · intro s h
    rwa [release_wins]
  · intro s h
    rwa [(handleMouseEvent_quiet s).wins]

end Mouse

theorem Layered.moved (h : Layered t) (i : Fin maxWins) (x y : ℤ) :
    Layered (Function.update t i { t i with x := x, y := y }) := by
  apply h.congr
  · intro l
    by_cases hl : l = i
    · rw [hl, Function.update_self]
    · rw [Function.update_of_ne hl]
  · intro l
    by_cases hl : l = i
    · rw [hl, Function.update_self]
    · rw [Function.update_of_ne hl]

/-- **A mouse event** keeps the layers. -/
theorem Layered.mouse (h : Layered s.wins) (ev : MouseEvent) : Layered (s.onMouse ev).wins :=
  mouse_table (fun _ id h => h.raise id) (fun _ i x y h => h.moved i x y) h ev

/-! ### Runs -/

/-- A new window meets `CreateFits`. -/
def CreateMeets (s : WinMan) (src : ℕ) : WmMsg → Prop
  | .create c mapped => ∀ k buf, mapped = some buf → (s.wins k).inUse = false → (∀ l < k, (s.wins l).inUse = true) →
      CreateFits s.wins k (s.newWin src c buf)
  | _ => True

/-- A client's message that meets `C`, or a mouse event. -/
inductive UserStep (C : WinMan → ℕ → WmMsg → Prop) : WinMan → WinMan → Prop
  | msg {s : WinMan} (src : ℕ) {m : WmMsg} (hC : C s src m) : UserStep C s (s.onMsg src m)
  | mouse {s : WinMan} (ev : MouseEvent) : UserStep C s (s.onMouse ev)

theorem nextIds_ne_zero (s : WinMan) : s.nextIds.1 ≠ 0 := by
  unfold nextIds
  simp only
  split_ifs with h
  · rw [h]
    decide
  · exact h

/-- **One step.** -/
theorem Layered.step (h : Layered s.wins) (hs : UserStep CreateMeets s s') : Layered s'.wins := by
  cases hs with
  | mouse ev => exact h.mouse ev
  | @msg src m hC =>
    cases m with
    | create c mapped =>
      rcases onCreate_wins s src c mapped with ⟨hw, -⟩ | ⟨k, buf, hmap, hfree, hbefore, hw⟩
      · show Layered (s.onCreate src c mapped).wins
        rwa [hw]
      · show Layered (s.onCreate src c mapped).wins
        rw [hw]
        exact h.create hfree rfl (nextIds_ne_zero s) (hC k buf hmap hfree hbefore)
    | close winId =>
      show Layered (s.onClose src winId).wins
      rcases onClose_wins s src winId with hw | ⟨k, -, -, hw⟩
      · rwa [hw]
      · rw [hw]
        exact h.remove k
    | damage winId top left bottom right =>
      show Layered (s.onDamage winId top left bottom right).wins
      unfold onDamage
      cases winById s.wins winId with
      | none => exact h
      | some i => exact h

/-- **The layers are kept** in every run of messages and mouse events whose new windows meet `CreateFits`. -/
theorem layers_kept {back : ℕ → ℕ} (hrun : Relation.ReflTransGen (UserStep CreateMeets) (start sc back) s) :
    Layered s.wins := by
  have hz := WmWin.absent_of_free free_zero
  have hstart : Layered (start sc back).wins := ⟨fun _ _ hi => absurd hi hz.front, fun _ _ hi => absurd hi hz.back⟩
  exact run_inv (I := fun s => Layered s.wins) (fun _ _ ha hab => ha.step hab) hstart hrun

instance : NeZero maxWins := ⟨maxWins_pos.ne'⟩

/-- A window of one pixel with these flags. -/
def dot (flags : ℕ) : WmMsg := .create ⟨1, 1, 1, flags, 5, by norm_num, by norm_num⟩ (some ⟨1, fun _ => 7⟩)

/-- The window manager without windows, and after messages of process 3. -/
def empty : WinMan := start column fun _ => 0

def after (flags : List ℕ) : WinMan := flags.foldl (fun s f => s.onMsg 3 (dot f)) empty

theorem after_run (flags : List ℕ) :
    Relation.ReflTransGen (UserStep fun _ _ _ => True) (start column fun _ => 0) (after flags) := by
  have key : ∀ s : WinMan, Relation.ReflTransGen (UserStep fun _ _ _ => True) s
      (flags.foldl (fun s f => s.onMsg 3 (dot f)) s) := by
    induction flags with
    | nil => exact fun s => .refl
    | cons f flags ih => exact fun s => (ih (s.onMsg 3 (dot f))).head (.msg 3 trivial)
  exact key _

/-- A background window and a normal one. -/
theorem layers_kept_two : Relation.ReflTransGen (UserStep CreateMeets) (start column fun _ => 0) (after [1, 0]) ∧
    ((after [1, 0]).wins 0).Back ∧ ((after [1, 0]).wins 2).Normal ∧ Layered (after [1, 0]).wins := by
  have hfirst : CreateMeets empty 3 (dot 1) := by
    intro k buf _ hk hbefore
    have hk0 : k = 0 := by
      by_contra hne
      exact absurd (hbefore 0 (Fin.pos_of_ne_zero hne)) (by decide)
    have hz : ∀ l, (empty.wins l).Absent := fun l => WmWin.absent_of_free free_zero
    refine ⟨(fun l hl => by cases hl), fun _ => ⟨fun l hl => absurd hl (hz l).rear, fun _ l => (hz l).normal⟩, ?_, ?_⟩
    · rintro - - l (hl | hl)
      · exact absurd hl (hz l).front
      · exact absurd hl (hz l).normal
    · exact fun _ => ⟨fun l hl => absurd hl (hz l).front, .inl fun l hl => absurd hl (hz l).back⟩
  have hsecond : CreateMeets (after [1]) 3 (dot 0) := by
    intro k buf _ hk hbefore
    have hk1 : ∀ k, ((after [1]).wins k).inUse = false → (∀ l < k, ((after [1]).wins l).inUse = true) → k = 1 := by
      decide +kernel
    obtain rfl := hk1 k hk hbefore
    have hfresh : ∀ l, ((after [1]).wins l).inUse = true → ((after [1]).wins l).winId ≠ 2 := by decide +kernel
    have hfront : ∀ l, ¬ ((after [1]).wins l).Front := by decide +kernel
    have hback : ∀ l, ((after [1]).wins l).Back → l < 1 := by decide +kernel
    have hid : (after [1]).nextIds.1 = 2 := by decide +kernel
    have hflags : ¬ decide ((0 : ℕ) &&& 2 ≠ 0) = true ∧ ¬ decide ((0 : ℕ) &&& 1 ≠ 0) = true := by decide
    refine ⟨fun l hl => ?_, fun hf => absurd hf.2 hflags.1, fun hb => absurd hb.2 hflags.2, fun _ => ?_⟩
    · show ((after [1]).wins l).winId ≠ (after [1]).nextIds.1
      rw [hid]
      exact hfresh l hl
    · exact ⟨fun l hl => absurd hl (hfront l), .inl hback⟩
  have hrun : Relation.ReflTransGen (UserStep CreateMeets) (start column fun _ => 0) (after [1, 0]) :=
    (Relation.ReflTransGen.single (.msg 3 hfirst)).tail (.msg 3 hsecond)
  exact ⟨hrun, by decide +kernel, by decide +kernel, layers_kept hrun⟩

/-- **A background window lands above a normal one**, which has left the first slot when it was raised. -/
theorem layers_broken :
    Relation.ReflTransGen (UserStep fun _ _ _ => True) (start column fun _ => 0) (after [0, 1, 1]) ∧
    ((after [0, 1, 1]).wins 1).Normal ∧ ((after [0, 1, 1]).wins 2).Back ∧ ¬ Layered (after [0, 1, 1]).wins := by
  have hnormal : ((after [0, 1, 1]).wins 1).Normal := by decide +kernel
  have hback : ((after [0, 1, 1]).wins 2).Back := by decide +kernel
  exact ⟨after_run _, hnormal, hback, fun h => absurd (h.back 2 1 hback hnormal) (by decide)⟩

end Saynaa
