import Mathlib.Tactic

/-!
# Windows of a circular buffer

A buffer of `cap` cells is a function on indices, of which those below `cap` count.
`window q cap r n` reads `n` cells from index `r` on, wrapping around once.

* `window_add`, `take_window`, `drop_window`: a window splits anywhere.
* `window_put`: cells written behind a window extend it.
* `push cap q l`: a queue of at most `cap` elements drops what does not fit.
* `feed cap q b`: such a queue drops its oldest element instead.
-/

namespace Lib

variable {β : Type*} {q q' : ℕ → β} {cap r n m : ℕ}

/-- An index below `2 * cap`, brought back below `cap`. -/
def wrap (cap x : ℕ) : ℕ := if x < cap then x else x - cap

theorem wrap_lt {x : ℕ} (h : x < 2 * cap) : wrap cap x < cap := by
  unfold wrap; split_ifs <;> omega

theorem wrap_eq_mod {x : ℕ} (h : x < 2 * cap) : wrap cap x = x % cap := by
  unfold wrap
  split_ifs with hx
  · exact (Nat.mod_eq_of_lt hx).symm
  · rw [Nat.mod_eq_sub_mod (by omega), Nat.mod_eq_of_lt (by omega)]

/-- The `n` cells from index `r` on. -/
def window (q : ℕ → β) (cap r n : ℕ) : List β := (List.range n).map fun i => q (wrap cap (r + i))

@[simp] theorem length_window : (window q cap r n).length = n := by simp [window]

@[simp] theorem window_zero : window q cap r 0 = [] := rfl

/-- **A window splits anywhere.** -/
theorem window_add (hr : r < cap) (hn : n + m ≤ cap) :
    window q cap r (n + m) = window q cap r n ++ window q cap (wrap cap (r + n)) m := by
  unfold window
  rw [List.range_add, List.map_append, List.map_map]
  congr 1
  apply List.map_congr_left
  intro i hi
  have hi' := List.mem_range.1 hi
  have h : wrap cap (r + (n + i)) = wrap cap (wrap cap (r + n) + i) := by
    unfold wrap; split_ifs <;> omega
  exact congrArg q h

theorem take_window (h : m ≤ n) : (window q cap r n).take m = window q cap r m := by
  unfold window
  rw [← List.map_take, List.take_range, Nat.min_eq_left h]

theorem drop_window (hr : r < cap) (hn : n ≤ cap) (h : m ≤ n) :
    (window q cap r n).drop m = window q cap (wrap cap (r + m)) (n - m) := by
  have hw := window_add (q := q) hr (show m + (n - m) ≤ cap by omega)
  rw [show m + (n - m) = n by omega] at hw
  rw [hw, List.drop_append_of_le_length (by simp), List.drop_of_length_le (by simp), List.nil_append]

theorem window_congr (h : ∀ i < n, q' (wrap cap (r + i)) = q (wrap cap (r + i))) :
    window q' cap r n = window q cap r n := by
  apply List.map_congr_left
  intro i hi
  exact h i (List.mem_range.1 hi)

/-- A window that does not wrap around. -/
theorem window_straight (h : r + n ≤ cap) :
    window q cap r n = (List.range n).map fun i => q (r + i) := by
  apply List.map_congr_left
  intro i hi
  have hi' := List.mem_range.1 hi
  unfold wrap
  rw [if_pos (by omega)]

/-- **Cells written behind a window extend it.** -/
theorem window_put (hr : r < cap) (hn : n + m ≤ cap) {src : List β} (hm : src.length = m)
    (hin : ∀ i (h : i < src.length), q' (wrap cap (wrap cap (r + n) + i)) = src[i])
    (hout : ∀ i < n, q' (wrap cap (r + i)) = q (wrap cap (r + i))) :
    window q' cap r (n + m) = window q cap r n ++ src := by
  rw [window_add hr hn, window_congr hout]
  congr 1
  subst hm
  apply List.ext_getElem (by simp)
  intro i h1 h2
  simp only [window, List.getElem_map, List.getElem_range]
  exact hin i h2

/-! ### Bounded queues -/

/-- The queue `q` of at most `cap` elements after `l` was written to it. -/
def push (cap : ℕ) (q l : List β) : List β := q ++ l.take (cap - q.length)

@[simp] theorem push_nil (cap : ℕ) (q : List β) : push cap q [] = q := by simp [push]

theorem push_fit {q l : List β} (h : q.length + l.length ≤ cap) : push cap q l = q ++ l := by
  unfold push
  rw [List.take_of_length_le (by omega)]

theorem push_full {q : List β} (h : cap ≤ q.length) (l : List β) : push cap q l = q := by
  unfold push
  rw [Nat.sub_eq_zero_of_le h, List.take_zero, List.append_nil]

theorem length_push {q : List β} (h : q.length ≤ cap) (l : List β) :
    (push cap q l).length = min cap (q.length + l.length) := by
  unfold push
  rw [List.length_append, List.length_take]
  omega

/-- **Writing in two steps is writing at once.** -/
theorem push_append {q : List β} (h : q.length ≤ cap) (a b : List β) :
    push cap (push cap q a) b = push cap q (a ++ b) := by
  by_cases ha : q.length + a.length ≤ cap
  · unfold push
    rw [List.take_of_length_le (show a.length ≤ cap - q.length by omega), List.take_append,
      List.take_of_length_le (show a.length ≤ cap - q.length by omega), List.append_assoc, List.length_append,
      Nat.sub_add_eq]
  · -- the queue is full after the first step
    have hfull : cap ≤ (push cap q a).length := by
      rw [length_push h]
      omega
    rw [push_full hfull]
    unfold push
    rw [List.take_append_of_le_length (by omega)]

/-- A queue of at most `cap` elements that drops its oldest one when it is full. -/
def feed (cap : ℕ) (q : List β) (b : β) : List β := (if q.length < cap then q else q.tail) ++ [b]

end Lib
