import Saynaa.Lib.Words

/-!
# Wrapped lines

* `linesOf a l`: the parts of `l` between the separators `a`, without an empty part at the end.
* `wrapLines a n l`: the lines, those that are longer cut every `n` elements.
* `advance a n l`: what is left behind the first piece; `wrapLines_step` takes a wrapped text apart.
* `wrapLines_rejoin`: with separators, the pieces make up the whole list.
-/

namespace Lib

variable {α : Type*} {a : α} {n : ℕ} {l w : List α}

/-- A line, cut every `n` elements. -/
def rows (n : ℕ) (line : List α) : List (List α) := if line = [] then [[]] else pieces n line

theorem rows_short (h : w.length ≤ n) : rows n w = [w] := by
  unfold rows
  split_ifs with hw
  · rw [hw]
  · exact pieces_short h hw

theorem rows_long (hn : 0 < n) (h : n < w.length) : rows n w = w.take n :: rows n (w.drop n) := by
  have hw : w ≠ [] := List.ne_nil_of_length_pos (by omega)
  have hd : w.drop n ≠ [] := List.ne_nil_of_length_pos (by rw [List.length_drop]; omega)
  unfold rows
  rw [if_neg hw, if_neg hd, pieces_long hn h]

variable [DecidableEq α]

/-- The lines. -/
def linesOf (a : α) (l : List α) : List (List α) :=
  if (l.splitOn a).getLast? = some [] then (l.splitOn a).dropLast else l.splitOn a

/-- **The pieces** of a text. -/
def wrapLines (a : α) (n : ℕ) (l : List α) : List (List α) := (linesOf a l).flatMap (rows n)

/-- The text behind the first piece, and behind the separator that ends it. -/
def advance (a : α) (n : ℕ) (l : List α) : List α :=
  if (l.takeWhile (· ≠ a)).length ≤ n then (l.dropWhile (· ≠ a)).tail else l.drop n

theorem linesOf_nil : linesOf a [] = [] := by
  simp [linesOf]

theorem linesOf_last (hw : a ∉ w) (hne : w ≠ []) : linesOf a w = [w] := by
  have hsplit : w.splitOn a = [w] := List.splitOnP_eq_singleton fun x hx => by
    simp only [beq_eq_false_iff_ne]
    rintro rfl
    exact hw hx
  unfold linesOf
  rw [hsplit]
  simp [hne]

theorem linesOf_cons (hw : a ∉ w) : linesOf a (w ++ a :: l) = w :: linesOf a l := by
  have hsplit : (w ++ a :: l).splitOn a = w :: l.splitOn a := List.splitOnP_append_cons_of_forall_mem (fun x hx => by
    simp only [beq_eq_false_iff_ne]
    rintro rfl
    exact hw hx) a (by simp) l
  have hne : l.splitOn a ≠ [] := List.splitOnP_ne_nil _ _
  unfold linesOf
  rw [hsplit, List.getLast?_cons_of_ne_nil hne, List.dropLast_cons_of_ne_nil hne]
  split_ifs <;> rfl

/-- A text is a line, and what is behind its separator. -/
theorem span_cases (a : α) (l : List α) : a ∉ l.takeWhile (· ≠ a) ∧
    (l = l.takeWhile (· ≠ a) ∧ l.dropWhile (· ≠ a) = [] ∨
      l = l.takeWhile (· ≠ a) ++ a :: (l.dropWhile (· ≠ a)).tail) := by
  have hmem : a ∉ l.takeWhile (· ≠ a) := fun h => by simpa using List.mem_takeWhile_imp h
  have happ : l.takeWhile (· ≠ a) ++ l.dropWhile (· ≠ a) = l := List.takeWhile_append_dropWhile
  refine ⟨hmem, ?_⟩
  cases hd : l.dropWhile (· ≠ a) with
  | nil =>
    rw [hd, List.append_nil] at happ
    exact .inl ⟨happ.symm, rfl⟩
  | cons c r =>
    have hc := List.head?_dropWhile_not (fun x => decide (x ≠ a)) l
    rw [hd] at hc
    have hca : c = a := by simpa using hc
    rw [hd, hca] at happ
    exact .inr happ.symm

theorem wrapLines_nil : wrapLines a n [] = [] := by
  unfold wrapLines
  rw [linesOf_nil]
  rfl

/-- **The first piece**, and those behind it. -/
theorem wrapLines_step (hn : 0 < n) (hl : l ≠ []) :
    wrapLines a n l = (l.takeWhile (· ≠ a)).take n :: wrapLines a n (advance a n l) := by
  obtain ⟨hmem, hcases⟩ := span_cases a l
  unfold advance
  generalize l.takeWhile (· ≠ a) = w at hmem hcases ⊢
  generalize l.dropWhile (· ≠ a) = d at hcases ⊢
  split_ifs with hlen
  · -- the line ends
    rw [List.take_of_length_le hlen]
    rcases hcases with ⟨rfl, rfl⟩ | heq
    · rw [List.tail_nil, wrapLines_nil]
      unfold wrapLines
      rw [linesOf_last hmem hl, List.flatMap_singleton, rows_short hlen]
    · rw [heq]
      unfold wrapLines
      rw [linesOf_cons hmem, List.flatMap_cons, rows_short hlen]
      rfl
  · -- the line goes on
    have hdrop : a ∉ w.drop n := fun h => hmem (List.mem_of_mem_drop h)
    have hne : w.drop n ≠ [] := List.ne_nil_of_length_pos (by rw [List.length_drop]; omega)
    rcases hcases with ⟨rfl, -⟩ | heq
    · unfold wrapLines
      rw [linesOf_last hmem hl, linesOf_last hdrop hne, List.flatMap_singleton, List.flatMap_singleton,
        rows_long hn (by omega)]
    · rw [heq, List.drop_append_of_le_length (by omega)]
      unfold wrapLines
      rw [linesOf_cons hmem, linesOf_cons hdrop, List.flatMap_cons, List.flatMap_cons, rows_long hn (by omega)]
      rfl

/-- The first piece and what is behind it, with the separator between them. -/
theorem advance_split (a : α) (n : ℕ) (l : List α) :
    l = (l.takeWhile (· ≠ a)).take n ++ advance a n l ∨ l = (l.takeWhile (· ≠ a)).take n ++ a :: advance a n l := by
  obtain ⟨-, hcases⟩ := span_cases a l
  have happ : l.takeWhile (· ≠ a) ++ l.dropWhile (· ≠ a) = l := List.takeWhile_append_dropWhile
  unfold advance
  split_ifs with hlen
  · rw [List.take_of_length_le hlen]
    rcases hcases with ⟨heq, hnil⟩ | heq
    · rw [hnil, List.tail_nil, List.append_nil]
      exact .inl heq
    · exact .inr heq
  · left
    have htake : l.take n = (l.takeWhile (· ≠ a)).take n := by
      conv_lhs => rw [← happ]
      exact List.take_append_of_le_length (by omega)
    rw [← htake, List.take_append_drop]

theorem advance_lt (hn : 0 < n) (hl : l ≠ []) : (advance a n l).length < l.length := by
  have hpos := List.length_pos_iff.2 hl
  rcases advance_split a n l with h | h
  · by_cases hw : l.takeWhile (· ≠ a) = []
    · -- the text begins with a separator
      obtain ⟨-, ⟨heq, -⟩ | heq⟩ := span_cases a l
      · exact absurd (heq.trans hw) hl
      · have hadv : advance a n l = (l.dropWhile (· ≠ a)).tail := if_pos (by rw [hw]; exact Nat.zero_le n)
        rw [hadv]
        conv_rhs => rw [heq]
        rw [List.length_append, List.length_cons]
        omega
    · have hlen : 0 < ((l.takeWhile (· ≠ a)).take n).length := by
        rw [List.length_take]
        have := List.length_pos_iff.2 hw
        omega
      conv_rhs => rw [h]
      rw [List.length_append]
      omega
  · conv_rhs => rw [h]
    rw [List.length_append, List.length_cons]
    omega

/-- Induction over the pieces of a text. -/
theorem wrapLines_induction {P : List α → Prop} (hn : 0 < n) (hnil : P [])
    (hstep : ∀ l, l ≠ [] → P (advance a n l) → P l) (l : List α) : P l := by
  induction hk : l.length using Nat.strong_induction_on generalizing l with
  | _ k ih =>
    by_cases hl : l = []
    · rw [hl]
      exact hnil
    · exact hstep l hl (ih _ (hk ▸ advance_lt hn hl) _ rfl)

/-- **The pieces** have no separators and at most `n` elements. -/
theorem mem_wrapLines (hn : 0 < n) (hw : w ∈ wrapLines a n l) : w.length ≤ n ∧ a ∉ w := by
  induction l using wrapLines_induction (a := a) hn with
  | hnil =>
    rw [wrapLines_nil] at hw
    exact absurd hw List.not_mem_nil
  | hstep l hl ih =>
    rw [wrapLines_step hn hl] at hw
    rcases List.mem_cons.1 hw with rfl | hw
    · exact ⟨List.length_take_le n _, fun h => (span_cases a l).1 (List.mem_of_mem_take h)⟩
    · exact ih hw

/-- **The pieces with the separators between them** make up the text. -/
theorem wrapLines_rejoin (hn : 0 < n) (l : List α) : ∃ seps : List (List α), seps.length = (wrapLines a n l).length ∧
    (∀ s ∈ seps, s = [] ∨ s = [a]) ∧ (List.zipWith (· ++ ·) (wrapLines a n l) seps).flatten = l := by
  induction l using wrapLines_induction (a := a) hn with
  | hnil => exact ⟨[], by rw [wrapLines_nil], fun s hs => absurd hs List.not_mem_nil, by rw [wrapLines_nil]; rfl⟩
  | hstep l hl ih =>
    obtain ⟨seps, hlen, hall, hjoin⟩ := ih
    rw [wrapLines_step hn hl]
    rcases advance_split a n l with h | h
    · refine ⟨[] :: seps, by rw [List.length_cons, hlen]; rfl, List.forall_mem_cons.2 ⟨.inl rfl, hall⟩, ?_⟩
      rw [List.zipWith_cons_cons, List.flatten_cons, hjoin, List.append_nil]
      exact h.symm
    · refine ⟨[a] :: seps, by rw [List.length_cons, hlen]; rfl, List.forall_mem_cons.2 ⟨.inr rfl, hall⟩, ?_⟩
      rw [List.zipWith_cons_cons, List.flatten_cons, hjoin, List.append_assoc]
      exact h.symm

end Lib
