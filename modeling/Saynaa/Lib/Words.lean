import Mathlib.Data.List.TakeWhile
import Mathlib.Tactic

/-!
# Words and pieces of lists

* `exists_span`: what a scan for an element cuts off.
* `wordsP p l`, `words a l`: the non-empty parts of `l` between the elements with `p`, between the elements `a`.
* `pieces n l`: `l` cut into parts of length `n`, the last one possibly shorter.
-/

namespace Lib

variable {α : Type*} {a c : α} {l w : List α} {n : ℕ}

/-- Parts of length `n`; for `n = 0` the list stays whole. -/
def pieces (n : ℕ) (l : List α) : List (List α) :=
  if l.length ≤ n ∨ n = 0 then (if l.isEmpty then [] else [l]) else l.take n :: pieces n (l.drop n)
termination_by l.length
decreasing_by
  rw [List.length_drop]
  omega

theorem pieces_short (h : l.length ≤ n) (hl : l ≠ []) : pieces n l = [l] := by
  rw [pieces, if_pos (.inl h), if_neg (by simpa using hl)]

theorem pieces_long (hn : 0 < n) (h : n < l.length) : pieces n l = l.take n :: pieces n (l.drop n) := by
  rw [pieces, if_neg (by omega)]

/-- Words that are short are their own pieces. -/
theorem flatMap_pieces {ws : List (List α)} (hne : ∀ w ∈ ws, w ≠ []) (hs : ∀ w ∈ ws, w.length ≤ n) :
    ws.flatMap (pieces n) = ws := by
  induction ws with
  | nil => rfl
  | cons w ws ih =>
    rw [List.flatMap_cons, pieces_short (hs w List.mem_cons_self) (hne w List.mem_cons_self),
      ih (fun x hx => hne x (List.mem_cons_of_mem _ hx)) fun x hx => hs x (List.mem_cons_of_mem _ hx)]
    rfl

theorem length_of_mem_pieces (hn : 0 < n) (hw : w ∈ pieces n l) : w.length ≤ n := by
  induction hk : l.length using Nat.strong_induction_on generalizing l with
  | _ k ih =>
    by_cases h : l.length ≤ n
    · by_cases hl : l = []
      · rw [hl, pieces] at hw
        simp at hw
      · rw [pieces_short h hl, List.mem_singleton] at hw
        rwa [hw]
    · rw [pieces_long hn (by omega)] at hw
      rcases List.mem_cons.1 hw with rfl | hw
      · exact List.length_take_le n l
      · exact ih (l.drop n).length (by rw [List.length_drop]; omega) hw rfl

/-! ### Words -/

section Separators

variable {p : α → Bool}

/-- A list up to the first element without `p`. -/
theorem exists_span (p : α → Bool) (l : List α) :
    ∃ lead r, l = lead ++ r ∧ (∀ c ∈ lead, p c) ∧ ∀ c ∈ r.head?, p c = false := by
  refine ⟨l.takeWhile p, l.dropWhile p, List.takeWhile_append_dropWhile.symm, fun c hc => List.mem_takeWhile_imp hc,
    fun c hc => ?_⟩
  have h1 := List.head?_dropWhile_not p l
  rw [Option.mem_def.1 hc] at h1
  simpa using h1

/-- The non-empty parts between elements with `p`. -/
def wordsP (p : α → Bool) (l : List α) : List (List α) := (l.splitOnP p).filter (· ≠ [])

theorem wordsP_nil : wordsP p [] = [] := by
  simp [wordsP]

theorem wordsP_sep (hc : p c) : wordsP p (c :: l) = wordsP p l := by
  simp [wordsP, List.splitOnP_cons_eq_if_modifyHead, hc]

/-- Separators in front do not count. -/
theorem wordsP_append_left (hw : ∀ c ∈ w, p c) : wordsP p (w ++ l) = wordsP p l := by
  induction w with
  | nil => rfl
  | cons c w ih =>
    rw [List.cons_append, wordsP_sep (hw c List.mem_cons_self)]
    exact ih fun x hx => hw x (List.mem_cons_of_mem c hx)

theorem wordsP_single (hw : ∀ c ∈ w, p c = false) (hne : w ≠ []) : wordsP p w = [w] := by
  unfold wordsP
  rw [List.splitOnP_eq_singleton hw, List.filter_cons_of_pos (by simpa using hne)]
  rfl

/-- The first word goes up to the first separator. -/
theorem wordsP_append (hw : ∀ c ∈ w, p c = false) (hne : w ≠ []) (hc : p c) :
    wordsP p (w ++ c :: l) = w :: wordsP p l := by
  unfold wordsP
  rw [List.splitOnP_append_cons_of_forall_mem hw c hc l, List.filter_cons_of_pos (by simpa using hne)]

/-- A longer list has no fewer words. -/
theorem length_wordsP_append (l l' : List α) : (wordsP p l).length ≤ (wordsP p (l ++ l')).length := by
  induction hn : l.length using Nat.strong_induction_on generalizing l with
  | _ n ih =>
    obtain ⟨lead, r, rfl, hlead, hr⟩ := exists_span p l
    obtain ⟨w, tail, rfl, hw, htail⟩ := exists_span (fun c => !p c) r
    have hword : ∀ c ∈ w, p c = false := fun c hc => by simpa using hw c hc
    rw [List.append_assoc, wordsP_append_left hlead, wordsP_append_left hlead]
    by_cases hne : w = []
    · -- nothing but separators
      cases tail with
      | nil => simp [hne, wordsP_nil]
      | cons c t =>
        have h1 : p c = false := hr c (by rw [hne]; rfl)
        have h2 : p c = true := by simpa using htail c rfl
        rw [h1] at h2
        cases h2
    cases tail with
    | nil =>
      rw [List.append_nil, wordsP_single hword hne, List.length_singleton]
      -- the word goes on in the rest
      obtain ⟨w', t', rfl, hw', ht'⟩ := exists_span (fun c => !p c) l'
      have hword' : ∀ c ∈ w ++ w', p c = false := by
        intro c hc
        rcases List.mem_append.1 hc with hc | hc
        · exact hword c hc
        · simpa using hw' c hc
      have hne' : w ++ w' ≠ [] := fun h => hne (List.append_eq_nil_iff.1 h).1
      rw [← List.append_assoc]
      cases t' with
      | nil => rw [List.append_nil, wordsP_single hword' hne', List.length_singleton]
      | cons c t =>
        rw [wordsP_append hword' hne' (by simpa using ht' c rfl), List.length_cons]
        omega
    | cons c t =>
      have hc : p c = true := by simpa using htail c rfl
      have hpos := List.length_pos_iff.2 hne
      have hlt : t.length < n := by
        rw [← hn]
        simp only [List.length_append, List.length_cons]
        omega
      rw [List.append_assoc, List.cons_append, wordsP_append hword hne hc, wordsP_append hword hne hc,
        List.length_cons, List.length_cons]
      exact Nat.succ_le_succ (ih t.length hlt t rfl)

end Separators

variable [DecidableEq α]

/-- The non-empty parts between separators. -/
def words (a : α) (l : List α) : List (List α) := (l.splitOn a).filter (· ≠ [])

theorem words_eq : words a l = wordsP (· == a) l := rfl

theorem words_nil : words a [] = [] := wordsP_nil

theorem words_sep : words a (a :: l) = words a l := wordsP_sep (by simp)

/-- Separators in front do not count. -/
theorem words_dropWhile : words a (l.dropWhile (· = a)) = words a l := by
  have hlead : ∀ c ∈ l.takeWhile (· = a), (c == a) = true := by
    intro c hc
    simpa using List.mem_takeWhile_imp hc
  conv_rhs => rw [← List.takeWhile_append_dropWhile (p := (· = a)) (l := l), words_eq, wordsP_append_left hlead]
  exact words_eq

/-- The first word goes up to the first separator. -/
theorem words_cons (hc : c ≠ a) :
    words a (c :: l) = (c :: l).takeWhile (· ≠ a) :: words a ((c :: l).dropWhile (· ≠ a)) := by
  have hmem : ∀ x ∈ (c :: l).takeWhile (· ≠ a), (x == a) = false := by
    intro x hx
    simpa using List.mem_takeWhile_imp hx
  have hne : (c :: l).takeWhile (· ≠ a) ≠ [] := by
    rw [List.takeWhile_cons_of_pos (by simpa using hc)]
    exact List.cons_ne_nil _ _
  have hsplit := List.takeWhile_append_dropWhile (p := (· ≠ a)) (l := c :: l)
  rcases hd : (c :: l).dropWhile (· ≠ a) with _ | ⟨x, q⟩
  · rw [hd, List.append_nil] at hsplit
    have h1 := wordsP_single hmem hne
    rw [hsplit] at h1 ⊢
    rw [words_eq, h1, words_nil]
  · -- the rest starts with a separator
    have hx : x = a := by
      have h1 := List.head?_dropWhile_not (· ≠ a) (c :: l)
      rw [hd] at h1
      simpa using h1
    have h1 := wordsP_append hmem hne (show (x == a) = true by simpa using hx) (l := q)
    rw [hd] at hsplit
    rw [hsplit] at h1
    rw [words_eq, h1, hx, words_sep]
    rfl

/-- The first word without its first `n` elements. -/
theorem words_drop (hn : n < (l.takeWhile (· ≠ a)).length) :
    words a (l.drop n) = (l.takeWhile (· ≠ a)).drop n :: words a (l.dropWhile (· ≠ a)) := by
  induction n generalizing l with
  | zero =>
    rcases l with _ | ⟨c, l⟩
    · exact absurd hn (Nat.not_lt_zero _)
    · by_cases hc : c = a
      · rw [List.takeWhile_cons_of_neg (by simpa using hc)] at hn
        exact absurd hn (Nat.not_lt_zero _)
      · exact words_cons hc
  | succ n ih =>
    rcases l with _ | ⟨c, l⟩
    · exact absurd hn (Nat.not_lt_zero _)
    · by_cases hc : c = a
      · rw [List.takeWhile_cons_of_neg (by simpa using hc)] at hn
        exact absurd hn (Nat.not_lt_zero _)
      · rw [List.takeWhile_cons_of_pos (by simpa using hc)] at hn ⊢
        rw [List.dropWhile_cons_of_pos (by simpa using hc), List.drop_succ_cons, List.drop_succ_cons]
        exact ih (Nat.lt_of_succ_lt_succ hn)

/-- A word is not empty. -/
theorem ne_nil_of_mem_words (hw : w ∈ words a l) : w ≠ [] := by
  simpa using (List.mem_filter.1 hw).2

end Lib
