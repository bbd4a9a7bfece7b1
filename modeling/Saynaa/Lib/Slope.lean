import Mathlib.Tactic

/-!
# Sloped lines on a grid

A line that rises by `db` over `da` steps, where `0 ≤ db ≤ da`, is followed with an error term: it goes up where
the error is positive.

* `slopeAt`: the height and the error behind `k` steps.
* `slopeAt_error`: the error is twice `da` times the distance to the line, up to a constant.
* `slopeAt_near`: the height is that of the line, up to one half.
-/

namespace Lib

variable {da db : ℤ}

/-- One step: the height and the error. -/
def slopeStep (da db : ℤ) (s : ℤ × ℤ) : ℤ × ℤ :=
  if s.2 > 0 then (s.1 + 1, s.2 - 2 * da + 2 * db) else (s.1, s.2 + 2 * db)

/-- The height and the error behind `k` steps. -/
def slopeAt (da db : ℤ) : ℕ → ℤ × ℤ
  | 0 => (0, 2 * db - da)
  | k + 1 => slopeStep da db (slopeAt da db k)

theorem slopeAt_succ (da db : ℤ) (k : ℕ) : slopeAt da db (k + 1) = slopeStep da db (slopeAt da db k) := rfl

/-- A step goes up by one or not at all. -/
theorem slopeStep_height (da db : ℤ) (s : ℤ × ℤ) : (slopeStep da db s).1 = s.1 ∨ (slopeStep da db s).1 = s.1 + 1 := by
  unfold slopeStep
  split_ifs
  · exact .inr rfl
  · exact .inl rfl

/-- **The error term.** -/
theorem slopeAt_error (da db : ℤ) (k : ℕ) :
    (slopeAt da db k).2 = 2 * db * (k + 1) - da * (2 * (slopeAt da db k).1 + 1) := by
  induction k with
  | zero =>
    show 2 * db - da = 2 * db * ((0 : ℕ) + 1) - da * (2 * 0 + 1)
    push_cast
    ring
  | succ k ih =>
    rw [slopeAt_succ]
    unfold slopeStep
    split_ifs
    · show (slopeAt da db k).2 - 2 * da + 2 * db = 2 * db * ((k + 1 : ℕ) + 1) - da *
        (2 * ((slopeAt da db k).1 + 1) + 1)
      rw [ih]
      push_cast
      ring
    · show (slopeAt da db k).2 + 2 * db = 2 * db * ((k + 1 : ℕ) + 1) - da * (2 * (slopeAt da db k).1 + 1)
      rw [ih]
      push_cast
      ring

/-- The error is bounded. -/
theorem slopeAt_bound (h0 : 0 ≤ db) (h : db ≤ da) (hpos : 0 < da) (k : ℕ) :
    2 * db - 2 * da < (slopeAt da db k).2 ∧ (slopeAt da db k).2 ≤ 2 * db := by
  induction k with
  | zero =>
    show 2 * db - 2 * da < 2 * db - da ∧ 2 * db - da ≤ 2 * db
    omega
  | succ k ih =>
    rw [slopeAt_succ]
    unfold slopeStep
    split_ifs with hup
    · show 2 * db - 2 * da < (slopeAt da db k).2 - 2 * da + 2 * db ∧ (slopeAt da db k).2 - 2 * da + 2 * db ≤ 2 * db
      omega
    · show 2 * db - 2 * da < (slopeAt da db k).2 + 2 * db ∧ (slopeAt da db k).2 + 2 * db ≤ 2 * db
      omega

/-- **The height is that of the line**, up to one half. -/
theorem slopeAt_near (h0 : 0 ≤ db) (h : db ≤ da) (hpos : 0 < da) (k : ℕ) :
    |2 * (da * (slopeAt da db k).1 - k * db)| ≤ da := by
  obtain ⟨hlo, hhi⟩ := slopeAt_bound h0 h hpos k
  have herr := slopeAt_error da db k
  have hdist : 2 * (da * (slopeAt da db k).1 - k * db) = 2 * db - da - (slopeAt da db k).2 := by
    rw [herr]
    ring
  rw [hdist, abs_le]
  omega

theorem slopeAt_le (da db : ℤ) (k : ℕ) : 0 ≤ (slopeAt da db k).1 ∧ (slopeAt da db k).1 ≤ k := by
  induction k with
  | zero => exact ⟨le_rfl, le_rfl⟩
  | succ k ih =>
    rw [slopeAt_succ]
    rcases slopeStep_height da db (slopeAt da db k) with hflat | hup
    · omega
    · omega

end Lib
