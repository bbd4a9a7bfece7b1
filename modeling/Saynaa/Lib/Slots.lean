import Mathlib.Tactic

/-!
# Searching a table of slots

A loop over the slots `0 .. n - 1` that stops at the first, or counting down at the last, slot with a property.
-/

namespace Lib

variable {n : ℕ} {β : Type*} {p : Fin n → Bool} {i : Fin n}

theorem find_none : (List.finRange n).find? p = none ↔ ∀ i, p i = false := by simp

theorem find_last_none : (List.finRange n).reverse.find? p = none ↔ ∀ i, p i = false := by simp

/-- What stands before an element of an ascending list are the smaller ones. -/
theorem mem_before {l : List (Fin n)} {as bs : List (Fin n)} {j : Fin n} (hl : l.Pairwise (· < ·))
    (h : l = as ++ i :: bs) (hj : j ∈ l) (hlt : j < i) : j ∈ as := by
  rw [h, List.pairwise_append, List.pairwise_cons] at hl
  rw [h, List.mem_append, List.mem_cons] at hj
  rcases hj with hj | rfl | hj
  · exact hj
  · exact absurd hlt (lt_irrefl _)
  · exact absurd (hl.2.1.1 j hj) (lt_asymm hlt)

/-- **The first slot.** -/
theorem find_first (h : (List.finRange n).find? p = some i) : p i = true ∧ ∀ j < i, p j = false := by
  obtain ⟨hp, as, bs, hl, has⟩ := List.find?_eq_some_iff_append.1 h
  refine ⟨hp, fun j hj => ?_⟩
  have hmem := mem_before (List.pairwise_lt_finRange n) hl (List.mem_finRange j) hj
  simpa using has j hmem

/-- **The last slot.** -/
theorem find_last (h : (List.finRange n).reverse.find? p = some i) : p i = true ∧ ∀ j > i, p j = false := by
  obtain ⟨hp, as, bs, hl, has⟩ := List.find?_eq_some_iff_append.1 h
  refine ⟨hp, fun j hj => ?_⟩
  have hrev : List.finRange n = bs.reverse ++ i :: as.reverse := by
    rw [← List.reverse_reverse (List.finRange n), hl]
    simp
  have hsorted := List.pairwise_lt_finRange n
  have hmem := List.mem_finRange j
  rw [hrev, List.pairwise_append, List.pairwise_cons] at hsorted
  rw [hrev, List.mem_append, List.mem_cons] at hmem
  rcases hmem with hm | rfl | hm
  · exact absurd (hsorted.2.2 j hm i List.mem_cons_self) (lt_asymm hj)
  · exact absurd hj (lt_irrefl _)
  · simpa using has j (List.mem_reverse.1 hm)

/-- **The first slot with a result.** -/
theorem findSome_first {f : Fin n → Option β} {b : β} (h : (List.finRange n).findSome? f = some b) :
    ∃ i, f i = some b ∧ ∀ j < i, f j = none := by
  obtain ⟨as, i, bs, hl, hf, has⟩ := List.findSome?_eq_some_iff.1 h
  exact ⟨i, hf, fun j hj => has j (mem_before (List.pairwise_lt_finRange n) hl (List.mem_finRange j) hj)⟩

/-- **The last hit**: what a loop that goes on behind slot `i` without a hit makes of it. -/
theorem foldl_last {f : β → Fin n → β} {b a : β} (hi : ∀ b, f b i = a) (h : ∀ b, ∀ j > i, f b j = b) :
    (List.finRange n).foldl f b = a := by
  obtain ⟨as, bs, hl⟩ := List.append_of_mem (List.mem_finRange i)
  have hsorted := List.pairwise_lt_finRange n
  rw [hl, List.pairwise_append, List.pairwise_cons] at hsorted
  rw [hl, List.foldl_append, List.foldl_cons, hi]
  have hrest : ∀ j ∈ bs, j > i := hsorted.2.1.1
  clear hl hsorted
  induction bs with
  | nil => rfl
  | cons j bs ih =>
    rw [List.foldl_cons, h a j (hrest j List.mem_cons_self)]
    exact ih fun k hk => hrest k (List.mem_cons_of_mem j hk)

end Lib
