import Mathlib.Tactic

/-!
# Bracketed marks

A mark opens a key (`true`) or closes it (`false`).

* `Marks gone l h`: the list `l` of marks was made by opening one key at a time and closing it again. The key `h` is
  open now; the keys in `gone` were dropped while they were open, and never opened again.
* `Marks.alternates`: the marks of each key alternate.
* `Marks.atMostOne`: if no key was dropped, at most one is open after any number of marks.
-/

namespace Lib

variable {κ : Type*} [DecidableEq κ] {k j : κ} {l p : List (κ × Bool)} {gone : Set κ} {h : Option κ} {b c : Bool}

/-- The marks of one key. -/
def marksOf (k : κ) (l : List (κ × Bool)) : List Bool := (l.filter fun m => m.1 = k).map (·.2)

/-- `b`, then its opposite, and so on. -/
def Alternates : Bool → List Bool → Prop
  | _, [] => True
  | b, c :: l => c = b ∧ Alternates (!b) l

/-- The last mark of the key opens it. -/
def IsOpen (k : κ) (l : List (κ × Bool)) : Prop := (marksOf k l).getLast? = some true

inductive Marks : Set κ → List (κ × Bool) → Option κ → Prop
  | nil : Marks ∅ [] none
  | opens {gone : Set κ} {l : List (κ × Bool)} {k : κ} (hl : Marks gone l none) (hk : k ∉ gone) :
      Marks gone (l ++ [(k, true)]) (some k)
  | closes {gone : Set κ} {l : List (κ × Bool)} {k : κ} (hl : Marks gone l (some k)) :
      Marks gone (l ++ [(k, false)]) none
  | drops {gone : Set κ} {l : List (κ × Bool)} {k : κ} (hl : Marks gone l (some k)) : Marks (insert k gone) l none

theorem alternates_append {l : List Bool} :
    Alternates b (l ++ [c]) ↔ Alternates b l ∧ c = !(l.getLast?.getD (!b)) := by
  induction l generalizing b with
  | nil => simp [Alternates]
  | cons d l ih =>
    rw [List.cons_append, List.getLast?_cons, Option.getD_some]
    unfold Alternates
    rw [ih, and_assoc]
    refine and_congr_right fun hd => ?_
    rw [hd, Bool.not_not]

theorem marksOf_self (k : κ) (b : Bool) (l : List (κ × Bool)) : marksOf k (l ++ [(k, b)]) = marksOf k l ++ [b] := by
  unfold marksOf
  rw [List.filter_append, List.map_append]
  simp

theorem marksOf_other (hjk : j ≠ k) (b : Bool) (l : List (κ × Bool)) : marksOf j (l ++ [(k, b)]) = marksOf j l := by
  unfold marksOf
  rw [List.filter_append]
  simp [hjk.symm]

theorem isOpen_self : IsOpen k (l ++ [(k, b)]) ↔ b = true := by
  unfold IsOpen
  rw [marksOf_self, List.getLast?_concat, Option.some_inj]

theorem isOpen_other (hjk : j ≠ k) : IsOpen j (l ++ [(k, b)]) ↔ IsOpen j l := by
  unfold IsOpen
  rw [marksOf_other hjk]

namespace Marks

/-- **The open key** is the one that is held, among the keys that were not dropped. -/
theorem isOpen_iff (hm : Marks gone l h) : (∀ k ∈ gone, h ≠ some k) ∧ ∀ k ∉ gone, IsOpen k l ↔ h = some k := by
  induction hm with
  | nil => exact ⟨fun k hk => hk.elim, fun k _ => by simp [IsOpen, marksOf]⟩
  | @opens gone l k _ hk ih =>
    refine ⟨fun j hj he => hk (Option.some.inj he ▸ hj), fun j hj => ?_⟩
    by_cases hjk : j = k
    · rw [hjk, isOpen_self]
      simp
    · rw [isOpen_other hjk, ih.2 j hj]
      simp [Ne.symm hjk]
  | @closes gone l k _ ih =>
    refine ⟨fun j _ => by simp, fun j hj => ?_⟩
    by_cases hjk : j = k
    · rw [hjk, isOpen_self]
      simp
    · rw [isOpen_other hjk, ih.2 j hj]
      simp [Ne.symm hjk]
  | @drops gone l k _ ih =>
    refine ⟨fun j _ => by simp, fun j hj => ?_⟩
    rw [Set.mem_insert_iff, not_or] at hj
    rw [ih.2 j hj.2]
    simp [Ne.symm hj.1]

/-- The next mark of a key that was not dropped opens it, unless it is open. -/
theorem last_mark (hm : Marks gone l h) (hk : k ∉ gone) (ha : Alternates true (marksOf k l)) :
    Alternates true (marksOf k l ++ [decide (h ≠ some k)]) := by
  rw [alternates_append]
  refine ⟨ha, ?_⟩
  have hopen := hm.isOpen_iff.2 k hk
  unfold IsOpen at hopen
  cases hlast : (marksOf k l).getLast? with
  | none => simpa [hlast] using hopen
  | some b => cases b <;> simpa [hlast] using hopen

/-- **The marks of each key alternate.** -/
theorem alternates (hm : Marks gone l h) (j : κ) : Alternates true (marksOf j l) := by
  induction hm with
  | nil => exact trivial
  | @opens gone l k hl hk ih =>
    by_cases hjk : j = k
    · rw [hjk] at ih ⊢
      rw [marksOf_self]
      simpa using hl.last_mark hk ih
    · rwa [marksOf_other hjk]
  | @closes gone l k hl ih =>
    by_cases hjk : j = k
    · rw [hjk] at ih ⊢
      rw [marksOf_self]
      simpa using hl.last_mark (fun hk => hl.isOpen_iff.1 k hk rfl) ih
    · rwa [marksOf_other hjk]
  | drops _ ih => exact ih

/-- **At most one key is open at a time.** -/
theorem atMostOne (hm : Marks gone l h) (hgone : gone = ∅) (hp : p <+: l) (hj : IsOpen j p) (hk : IsOpen k p) :
    j = k := by
  have hwhole : ∀ {l : List (κ × Bool)} {h : Option κ}, Marks ∅ l h → IsOpen j l → IsOpen k l → j = k := by
    intro l h hl hj hk
    have hiff := hl.isOpen_iff.2
    exact Option.some.inj (((hiff j id).1 hj).symm.trans ((hiff k id).1 hk))
  induction hm with
  | nil => exact hwhole .nil (List.prefix_nil.1 hp ▸ hj) (List.prefix_nil.1 hp ▸ hk)
  | opens hl hn ih =>
    rcases List.prefix_concat_iff.1 hp with rfl | hp
    · exact hwhole (hgone ▸ hl.opens hn) hj hk
    · exact ih hgone hp
  | closes hl ih =>
    rcases List.prefix_concat_iff.1 hp with rfl | hp
    · exact hwhole (hgone ▸ hl.closes) hj hk
    · exact ih hgone hp
  | drops => exact absurd hgone (Set.insert_nonempty _ _).ne_empty

end Marks

end Lib
