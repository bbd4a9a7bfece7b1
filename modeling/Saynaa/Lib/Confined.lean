import Mathlib

/-!
# Cells and their owners

Parties share a store of cells. A party *owns* some of the cells that are taken, and different parties own
different cells.

* `Confined`: a party changes its own cells, and may give them up or take free ones.
* `Confined.refl`, `Confined.trans`: such changes compose.
* `Confined.keeps`: everyone else's cells stay as they are.
* `Confined.pairwise`: the parties still own different cells.
-/

namespace Lib

variable {α β ι : Type*}

/-- A store: the cells that are taken, and what every cell holds. -/
structure Cells (α β : Type*) where
  taken : Set α
  mem : α → β

/-- **A confined change**, by the owner of `own`, who owns `own'` afterwards. -/
structure Confined (s : Cells α β) (own : Set α) (s' : Cells α β) (own' : Set α) : Prop where
  kept : s.taken \ own ⊆ s'.taken
  gained : own' ⊆ own ∪ s.takenᶜ
  same : Set.EqOn s'.mem s.mem (s.taken \ own)

variable {s s₁ s' : Cells α β} {own own₁ own' other : Set α}

theorem Confined.refl (s : Cells α β) (own : Set α) : Confined s own s own :=
  ⟨Set.sdiff_subset, Set.subset_union_left, fun _ _ => rfl⟩

/-- Cells of others are taken, and not owned, in between as well. -/
theorem Confined.others (h : Confined s own s₁ own₁) : s.taken \ own ⊆ s₁.taken \ own₁ := by
  intro a ha
  refine ⟨h.kept ha, fun hown => ?_⟩
  rcases h.gained hown with ho | hfree
  · exact ha.2 ho
  · exact hfree ha.1

theorem Confined.trans (h : Confined s own s₁ own₁) (h' : Confined s₁ own₁ s' own') : Confined s own s' own' := by
  refine ⟨fun a ha => h'.kept (h.others ha), ?_, fun a ha => (h'.same (h.others ha)).trans (h.same ha)⟩
  intro a ha
  by_contra hn
  obtain ⟨hown, hfree⟩ := not_or.1 hn
  have htaken : a ∈ s.taken := not_not.1 hfree
  exact ((h'.gained ha).elim (h.others ⟨htaken, hown⟩).2 fun hc => hc (h.others ⟨htaken, hown⟩).1)

/-- **Everyone else** keeps the cells, and what they hold. -/
theorem Confined.keeps (h : Confined s own s' own') (hd : Disjoint own other) (ht : other ⊆ s.taken) :
    other ⊆ s'.taken ∧ Set.EqOn s'.mem s.mem other := by
  have hsub : other ⊆ s.taken \ own := fun a ha => ⟨ht ha, fun hown => Set.disjoint_left.1 hd hown ha⟩
  exact ⟨hsub.trans h.kept, h.same.mono hsub⟩

theorem Confined.disjoint (h : Confined s own s' own') (hd : Disjoint own other) (ht : other ⊆ s.taken) :
    Disjoint own' other := by
  refine Set.disjoint_left.2 fun a ha hother => ?_
  rcases h.gained ha with hown | hfree
  · exact Set.disjoint_left.1 hd hown hother
  · exact hfree (ht hother)

/-- **The parties stay apart**, when party `i` changes its cells. -/
theorem Confined.pairwise {S : Set ι} {owns owns' : ι → Set α} {i : ι} (h : Confined s (owns i) s' (owns' i))
    (hi : i ∈ S)
    (hS : S.PairwiseDisjoint owns) (ht : ∀ j ∈ S, owns j ⊆ s.taken) (hsame : ∀ j ∈ S, j ≠ i → owns' j = owns j) :
    S.PairwiseDisjoint owns' := by
  have hown : ∀ j ∈ S, j ≠ i → Disjoint (owns' i) (owns' j) := by
    intro j hj hji
    rw [hsame j hj hji]
    exact h.disjoint (hS hi hj hji.symm) (ht j hj)
  intro j hj k hk hjk
  by_cases hji : j = i
  · subst hji
    exact hown k hk (Ne.symm hjk)
  by_cases hki : k = i
  · subst hki
    exact (hown j hj hji).symm
  · have hold := hS hj hk hjk
    change Disjoint (owns' j) (owns' k)
    rw [hsame j hj hji, hsame k hk hki]
    exact hold

end Lib
