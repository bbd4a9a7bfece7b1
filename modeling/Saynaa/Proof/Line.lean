import Saynaa.Proof.Graphics
import Saynaa.Lib.Slope

/-!
# Sloped lines

* `slopeLoop_eq`: the loop follows `Lib.slopeAt`, and no `int` overflows.
* `AlongOK`, `drawLineAlong_ok`: a line along one axis.
* `sloped_line`: every sloped line.
* `linePixels`: what a line on the screen draws.
* `line_ends`: it is the same in both directions, and contains both ends only if the line is not sloped.
-/

namespace Saynaa

open Lib

variable {point : ℤ → ℤ → ℤ × ℤ} {da db bi a0 b0 a1 b1 : ℤ} {points : List (ℤ × ℤ)}

/-- The points of a line along an axis. -/
def slopePoints (da db bi a0 b0 : ℤ) (k n : ℕ) : List (ℤ × ℤ) :=
  (List.range n).map fun i => (a0 + (k + i : ℕ), b0 + bi * (slopeAt da db (k + i)).1)

theorem slopePoints_succ (da db bi a0 b0 : ℤ) (k n : ℕ) : slopePoints da db bi a0 b0 k (n + 1) =
    (a0 + k, b0 + bi * (slopeAt da db k).1) :: slopePoints da db bi a0 b0 (k + 1) n := by
  unfold slopePoints
  rw [List.range_succ_eq_map, List.map_cons, List.map_map]
  refine List.cons_eq_cons.2 ⟨rfl, List.map_congr_left fun i _ => ?_⟩
  show (a0 + (k + (i + 1) : ℕ), b0 + bi * (slopeAt da db (k + (i + 1))).1) = _
  rw [Nat.add_right_comm k 1 i]
  rfl

/-- The two directions. -/
def Sign (bi : ℤ) : Prop := bi = 1 ∨ bi = -1

/-- **The loop** follows the line, and all of its values are representable. -/
theorem slopeLoop_eq (point : ℤ → ℤ → ℤ × ℤ) (hsign : Sign bi) (h0 : 0 ≤ db) (h : db ≤ da) (hda : da < 2 ^ 29)
    (ha : |a0| < 2 ^ 30) (hb : |b0| < 2 ^ 30) (n k : ℕ) (hk : k + n ≤ da) :
    slopeLoop point da db bi n (a0 + k) (b0 + bi * (slopeAt da db k).1) (slopeAt da db k).2 =
      some ((slopePoints da db bi a0 b0 k n).map fun p => point p.1 p.2) := by
  induction n generalizing k with
  | zero => rfl
  | succ n ih =>
    have hk' : ((k + 1 : ℕ) : ℤ) + n ≤ da := by omega
    have hrest := ih (k + 1) hk'
    obtain ⟨hlo, hhi⟩ := slopeAt_bound h0 h (by omega) k
    obtain ⟨hm0, hm1⟩ := slopeAt_le da db k
    rw [abs_lt] at ha hb
    rw [slopeAt_succ] at hrest
    unfold slopeStep at hrest
    rw [slopePoints_succ]
    unfold slopeLoop
    have hnext : int32 (a0 + k + 1) = some (a0 + (k + 1 : ℕ)) := by
      rw [int32_eq (by omega) (by omega)]
      exact congrArg some (by omega)
    -- the height is at most the number of steps
    have hheight : -2 ^ 31 ≤ b0 + bi * (slopeAt da db k).1 + bi ∧ b0 + bi * (slopeAt da db k).1 + bi < 2 ^ 31 := by
      rcases hsign with rfl | rfl <;> omega
    by_cases hup : (slopeAt da db k).2 > 0
    · rw [if_pos hup] at hrest ⊢
      rw [int32_eq hheight.1 hheight.2, int32_eq (by omega) (by omega)]
      simp only [Option.bind_eq_bind, Option.bind_some, Option.pure_def]
      rw [int32_eq (by omega) (by omega)]
      simp only [Option.bind_some]
      rw [int32_eq (by omega) (by omega)]
      simp only [Option.bind_some]
      rw [int32_eq (by omega) (by omega), hnext]
      simp only [Option.bind_some]
      rw [show b0 + bi * (slopeAt da db k).1 + bi = b0 + bi * ((slopeAt da db k).1 + 1) by ring, hrest]
      rfl
    · rw [if_neg hup] at hrest ⊢
      simp only [Option.bind_eq_bind, Option.bind_some, Option.pure_def]
      rw [int32_eq (by omega) (by omega)]
      simp only [Option.bind_some]
      rw [int32_eq (by omega) (by omega), hnext]
      simp only [Option.bind_some]
      rw [hrest]
      rfl

/-- The height of the line through two points. -/
def ideal (a0 b0 a1 b1 : ℤ) (a : ℤ) : ℚ := b0 + (a - a0) * (b1 - b0) / (a1 - a0)

theorem ideal_swap (h : a0 ≠ a1) (a : ℤ) : ideal a1 b1 a0 b0 a = ideal a0 b0 a1 b1 a := by
  have h1 : (a1 : ℚ) - a0 ≠ 0 := sub_ne_zero.2 (by exact_mod_cast h.symm)
  have h2 : (a0 : ℚ) - a1 ≠ 0 := sub_ne_zero.2 (by exact_mod_cast h)
  unfold ideal
  field_simp
  ring

/-- Two points that touch, at an edge or at a corner. -/
def Touch (p q : ℤ × ℤ) : Prop := p ≠ q ∧ |q.1 - p.1| ≤ 1 ∧ |q.2 - p.2| ≤ 1

/-- **A line along an axis**: a point for each of its places, close to the ideal line and touching
the one before it. -/
structure AlongOK (a0 b0 a1 b1 : ℤ) (points : List (ℤ × ℤ)) : Prop where
  places : points.map Prod.fst = (List.range |a1 - a0|.toNat).map fun (k : ℕ) => min a0 a1 + k
  near : ∀ p ∈ points, |p.2 - ideal a0 b0 a1 b1 p.1| ≤ 1 / 2
  touch : points.IsChain Touch

theorem AlongOK.swap (hne : a0 ≠ a1) (h : AlongOK a1 b1 a0 b0 points) : AlongOK a0 b0 a1 b1 points := by
  refine ⟨?_, fun p hp => ?_, h.touch⟩
  · rw [abs_sub_comm, min_comm]
    exact h.places
  · rw [← ideal_swap hne]
    exact h.near p hp

theorem slopePoints_touch (da db : ℤ) (hsign : Sign bi) (a0 b0 : ℤ) (k n : ℕ) :
    (slopePoints da db bi a0 b0 k n).IsChain Touch := by
  induction n generalizing k with
  | zero => exact .nil
  | succ n ih =>
    rw [slopePoints_succ]
    cases n with
    | zero => exact .singleton _
    | succ n =>
      have hrest := ih (k + 1)
      rw [slopePoints_succ] at hrest ⊢
      refine .cons_cons ⟨?_, ?_, ?_⟩ hrest
      · intro heq
        have hfst := congrArg Prod.fst heq
        simp only at hfst
        omega
      · show |a0 + (k + 1 : ℕ) - (a0 + k)| ≤ 1
        rw [abs_le]
        omega
      · show |b0 + bi * (slopeAt da db (k + 1)).1 - (b0 + bi * (slopeAt da db k).1)| ≤ 1
        rw [abs_le, slopeAt_succ]
        rcases slopeStep_height da db (slopeAt da db k) with hs | hs <;> rw [hs] <;> rcases hsign with
          rfl | rfl <;> omega

theorem slopePoints_near (hsign : Sign bi) (h0 : 0 ≤ db) (h : db ≤ da) (hpos : 0 < da) (n : ℕ) (p : ℤ × ℤ)
    (hp : p ∈ slopePoints da db bi a0 b0 0 n) : |p.2 - ideal a0 b0 (a0 + da) (b0 + bi * db) p.1| ≤ 1 / 2 := by
  obtain ⟨k, -, rfl⟩ := List.mem_map.1 hp
  rw [Nat.zero_add]
  have hnear := slopeAt_near h0 h hpos k
  generalize (slopeAt da db k).1 = m at hnear ⊢
  have hda : (0 : ℚ) < da := by exact_mod_cast hpos
  have hbi : |(bi : ℚ)| = 1 := by
    rcases hsign with rfl | rfl <;> simp
  -- the distance is `m - k * db / da`, in one direction or in the other
  have hdist : ((b0 + bi * m : ℤ) : ℚ) - ideal a0 b0 (a0 + da) (b0 + bi * db) (a0 + (k : ℕ)) =
      bi * ((2 * (da * m - k * db) : ℤ) / (2 * da)) := by
    have hrun : ((a0 + da : ℤ) : ℚ) - a0 = da := by
      push_cast
      ring
    have hrise : ((b0 + bi * db : ℤ) : ℚ) - b0 = bi * db := by
      push_cast
      ring
    unfold ideal
    rw [hrun, hrise]
    push_cast
    field_simp
    ring
  have hcast : |((2 * (da * m - k * db) : ℤ) : ℚ)| ≤ da := by exact_mod_cast hnear
  show |((b0 + bi * m : ℤ) : ℚ) - ideal a0 b0 (a0 + da) (b0 + bi * db) (a0 + (k : ℕ))| ≤ 1 / 2
  rw [hdist, abs_mul, hbi, one_mul, abs_div, abs_of_pos (show (0 : ℚ) < 2 * da by linarith),
    div_le_iff₀ (by linarith)]
  linarith

/-- **A line along an axis**, from its lower end. -/
theorem drawLineAlong_ok (point : ℤ → ℤ → ℤ × ℤ) (ha0 : |a0| < 2 ^ 30) (hb0 : |b0| < 2 ^ 30) (hda : a1 - a0 < 2 ^ 29)
    (hlt : a0 < a1) (hflat : |b1 - b0| ≤ a1 - a0) : ∃ points,
      drawLineAlong point a0 b0 a1 b1 = some (points.map fun p => point p.1 p.2) ∧ AlongOK a0 b0 a1 b1 points := by
  have hdbr : -2 ^ 29 < b1 - b0 ∧ b1 - b0 < 2 ^ 29 := abs_lt.1 (by omega)
  have hsign : ∃ bi, Sign bi ∧ b1 - b0 = bi * |b1 - b0| ∧
      (if b1 - b0 < 0 then (int32 (-(b1 - b0))).map fun db => (-1, db) else some (1, b1 - b0)) =
        some (bi, |b1 - b0|) := by
    split_ifs with hneg
    · -- falling
      refine ⟨-1, .inr rfl, by rw [abs_of_neg hneg]; ring, ?_⟩
      rw [int32_eq (by omega) (by omega), abs_of_neg hneg]
      rfl
    · -- level or rising
      refine ⟨1, .inl rfl, by rw [abs_of_nonneg (by omega), one_mul], ?_⟩
      rw [abs_of_nonneg (by omega)]
  obtain ⟨bi, hsign, hdb, hpair⟩ := hsign
  have hdb0 : 0 ≤ |b1 - b0| := abs_nonneg _
  have hn : (((a1 - a0).toNat : ℕ) : ℤ) = a1 - a0 := by omega
  have hloop := slopeLoop_eq point hsign hdb0 hflat hda ha0 hb0 (a1 - a0).toNat 0 (by omega)
  refine ⟨slopePoints (a1 - a0) |b1 - b0| bi a0 b0 0 (a1 - a0).toNat, ?_, ?_, ?_, ?_⟩
  · unfold drawLineAlong
    rw [int32_eq (by omega) (by omega), int32_eq (by omega) (by omega)]
    simp only [Option.bind_eq_bind, Option.bind_some]
    rw [hpair]
    simp only [Option.bind_some]
    rw [int32_eq (by omega) (by omega)]
    simp only [Option.bind_some]
    rw [int32_eq (by omega) (by omega)]
    simp only [Option.bind_some]
    rw [← hloop]
    show _ = slopeLoop point _ _ bi _ (a0 + (0 : ℕ)) (b0 + bi * 0) _
    rw [Nat.cast_zero, add_zero, mul_zero, add_zero]
    rfl
  · unfold slopePoints
    have hrun : |a1 - a0| = a1 - a0 := abs_of_pos (by omega)
    rw [List.map_map, hrun, min_eq_left (by omega)]
    refine List.map_congr_left fun k _ => ?_
    show a0 + ((0 + k : ℕ) : ℤ) = a0 + k
    rw [Nat.zero_add]
  · intro p hp
    have hnear := slopePoints_near hsign hdb0 hflat (by omega) _ p hp
    rwa [← hdb, add_sub_cancel, add_sub_cancel] at hnear
  · exact slopePoints_touch _ _ hsign a0 b0 0 _

/-- **A sloped line**: along the columns where it is flat, else along the rows. -/
structure LineOK (x0 y0 x1 y1 : ℤ) (points : List (ℤ × ℤ)) : Prop where
  low : |y1 - y0| < |x1 - x0| → AlongOK x0 y0 x1 y1 points
  high : |x1 - x0| ≤ |y1 - y0| → AlongOK y0 x0 y1 x1 (points.map Prod.swap)

theorem lineOK_low {x0 y0 x1 y1 : ℤ} (hlow : |y1 - y0| < |x1 - x0|) (h : AlongOK x0 y0 x1 y1 points) :
    LineOK x0 y0 x1 y1 points :=
  ⟨fun _ => h, fun hhigh => absurd hlow (not_lt.2 hhigh)⟩

theorem lineOK_high {x0 y0 x1 y1 : ℤ} (hhigh : |x1 - x0| ≤ |y1 - y0|) (h : AlongOK y0 x0 y1 x1 points) :
    LineOK x0 y0 x1 y1 (points.map Prod.swap) := by
  refine ⟨fun hlow => absurd hlow (not_lt.2 hhigh), fun _ => ?_⟩
  rw [List.map_map, Prod.swap_swap_eq, List.map_id]
  exact h

theorem intAbs_eq {v : ℤ} (h : |v| < 2 ^ 29) : (int32 v).bind intAbs = some |v| := by
  rw [abs_lt] at h
  rw [int32_eq (by omega) (by omega), Option.bind_some]
  unfold intAbs
  split_ifs with hneg
  · rw [int32_eq (by omega) (by omega), abs_of_neg hneg]
  · rw [abs_of_nonneg (by omega)]

variable {x0 y0 x1 y1 : ℤ}

/-- **The points of a sloped line**, as long as no difference is too large for the error term. -/
theorem slopedPoints_ok (hx : x0 ≠ x1) (hy : y0 ≠ y1) (hx0 : |x0| < 2 ^ 30) (hy0 : |y0| < 2 ^ 30)
    (hx1 : |x1| < 2 ^ 30) (hy1 : |y1| < 2 ^ 30) (hdx : |x1 - x0| < 2 ^ 29) (hdy : |y1 - y0| < 2 ^ 29) :
    ∃ points, slopedPoints x0 y0 x1 y1 = some points ∧ LineOK x0 y0 x1 y1 points := by
  have hdx' := abs_lt.1 hdx
  have hdy' := abs_lt.1 hdy
  unfold slopedPoints
  rw [intAbs_eq hdy, intAbs_eq hdx]
  simp only [Option.bind_eq_bind, Option.bind_some]
  by_cases hlow : |y1 - y0| < |x1 - x0|
  · -- flat: `x` takes every value
    rw [if_pos hlow]
    by_cases hgt : x0 > x1
    · -- the ends are exchanged, so that `x` rises
      rw [if_pos hgt]
      have hflat : |y0 - y1| ≤ x0 - x1 := by
        rw [abs_sub_comm, ← abs_of_pos (sub_pos.2 hgt), abs_sub_comm x0 x1]
        exact hlow.le
      obtain ⟨points, heq, hOK⟩ := drawLineAlong_ok (fun x y => (x, y)) hx1 hy1 (by omega) hgt hflat
      exact ⟨points, heq.trans (congrArg some (List.map_id points)), lineOK_low hlow (hOK.swap hx)⟩
    · rw [if_neg hgt]
      have hlt : x0 < x1 := lt_of_le_of_ne (not_lt.1 hgt) hx
      have hflat : |y1 - y0| ≤ x1 - x0 := by
        rw [← abs_of_pos (sub_pos.2 hlt)]
        exact hlow.le
      obtain ⟨points, heq, hOK⟩ := drawLineAlong_ok (fun x y => (x, y)) hx0 hy0 (by omega) hlt hflat
      exact ⟨points, heq.trans (congrArg some (List.map_id points)), lineOK_low hlow hOK⟩
  · -- steep: `y` takes every value
    rw [if_neg hlow]
    have hhigh := not_lt.1 hlow
    by_cases hgt : y0 > y1
    · -- the ends are exchanged, so that `y` rises
      rw [if_pos hgt]
      have hflat : |x0 - x1| ≤ y0 - y1 := by
        rw [abs_sub_comm, ← abs_of_pos (sub_pos.2 hgt), abs_sub_comm y0 y1]
        exact hhigh
      obtain ⟨points, heq, hOK⟩ := drawLineAlong_ok (fun y x => (x, y)) hy1 hx1 (by omega) hgt hflat
      exact ⟨_, heq, lineOK_high hhigh (hOK.swap hy)⟩
    · rw [if_neg hgt]
      have hlt : y0 < y1 := lt_of_le_of_ne (not_lt.1 hgt) hy
      have hflat : |x1 - x0| ≤ y1 - y0 := by
        rw [← abs_of_pos (sub_pos.2 hlt)]
        exact hhigh
      obtain ⟨points, heq, hOK⟩ := drawLineAlong_ok (fun y x => (x, y)) hy0 hx0 (by omega) hlt hflat
      exact ⟨_, heq, lineOK_high hhigh hOK⟩

/-- **Sloped lines**: the points that `draw_line` draws lie next to the ideal line, one in each column or row, and
no `int` overflows on the way. -/
theorem sloped_line (x0 y0 x1 y1 : ℤ) (hx : x0 ≠ x1) (hy : y0 ≠ y1) (hx0 : |x0| < 2 ^ 28) (hy0 : |y0| < 2 ^ 28)
    (hx1 : |x1| < 2 ^ 28) (hy1 : |y1| < 2 ^ 28) : ∃ points, LineOK x0 y0 x1 y1 points ∧
      ∀ (fb : GuiFb) (col : ℕ), fb.drawLine x0 y0 x1 y1 col = some (fb.drawPixels points col) := by
  have hdx : |x1 - x0| < 2 ^ 29 := by
    rw [abs_lt] at hx0 hx1 ⊢
    omega
  have hdy : |y1 - y0| < 2 ^ 29 := by
    rw [abs_lt] at hy0 hy1 ⊢
    omega
  obtain ⟨points, heq, hOK⟩ := slopedPoints_ok hx hy (by omega) (by omega) (by omega) (by omega) hdx hdy
  refine ⟨points, hOK, fun fb col => ?_⟩
  unfold GuiFb.drawLine
  rw [if_neg hy, if_neg hx, heq]
  rfl

theorem sloped_line_one : ∃ points, LineOK 3 5 (-4) 8 points ∧
    ∀ (fb : GuiFb) (col : ℕ), fb.drawLine 3 5 (-4) 8 col = some (fb.drawPixels points col) :=
  sloped_line 3 5 (-4) 8 (by decide) (by decide) (by decide) (by decide) (by decide) (by decide)

/-! ### End points -/

variable {fb : GuiFb} {p q : ℕ × ℕ} {col : ℕ} {ws : List (ℕ × ℕ)} {S : ℤ → ℤ → Prop}

/-- A pixel of the screen. -/
def GuiFb.Has (fb : GuiFb) (p : ℕ × ℕ) : Prop := p.1 < fb.width ∧ p.2 < fb.height

/-- The pixels that `draw_line` draws. -/
def GuiFb.linePixels (fb : GuiFb) (p q : ℕ × ℕ) (col : ℕ) : Set (ℕ × ℕ) :=
  {r | fb.Has r ∧ ∃ ws, fb.drawLine p.1 p.2 q.1 q.2 col = some ws ∧ (fb.place r.1 r.2, col) ∈ ws}

/-- A shape that is drawn, pixel by pixel. -/
theorem mem_linePixels (hline : fb.drawLine p.1 p.2 q.1 q.2 col = some ws) (h : DrawsShape fb S col ws) (r : ℕ × ℕ) :
    r ∈ fb.linePixels p q col ↔ fb.Has r ∧ S r.1 r.2 := by
  constructor
  · rintro ⟨hr, ws', hws', hmem⟩
    obtain rfl : ws = ws' := Option.some.inj (hline.symm.trans hws')
    obtain ⟨X, Y, ⟨hX, hY, hS⟩, heq⟩ := (h _).1 hmem
    obtain ⟨h1, h2, -⟩ := place_inj hr.1 hX (Nat.zero_lt_succ 3) (Nat.zero_lt_succ 3) (Prod.ext_iff.1 heq).1
    refine ⟨hr, ?_⟩
    rw [h1, h2]
    exact hS
  · rintro ⟨hr, hS⟩
    exact ⟨hr, ws, hline, (h _).2 ⟨r.1, r.2, ⟨hr.1, hr.2, hS⟩, rfl⟩⟩

/-- A window with two rows and two columns is small enough for sloped lines. -/
theorem sloped_bound (fb : GuiFb) (hw : 2 ≤ fb.width) (hh : 2 ≤ fb.height) :
    fb.width ≤ 2 ^ 29 ∧ fb.height ≤ 2 ^ 29 := by
  have hrow := fb.row
  have hsize := fb.size
  have h1 : fb.pitch * 2 ≤ fb.pitch * fb.height := Nat.mul_le_mul_left _ hh
  have h2 : 8 * fb.height ≤ fb.pitch * fb.height := Nat.mul_le_mul_right _ (by omega)
  omega

/-- **The direction** does not change the points. -/
theorem slopedPoints_swap (hx : x0 ≠ x1) (hy : y0 ≠ y1) (hdx : |x1 - x0| < 2 ^ 29) (hdy : |y1 - y0| < 2 ^ 29) :
    slopedPoints x1 y1 x0 y0 = slopedPoints x0 y0 x1 y1 := by
  unfold slopedPoints
  rw [intAbs_eq hdy, intAbs_eq hdx, intAbs_eq (by rwa [abs_sub_comm]), intAbs_eq (by rwa [abs_sub_comm])]
  simp only [Option.bind_eq_bind, Option.bind_some]
  rw [abs_sub_comm y0, abs_sub_comm x0]
  -- both calls start from the lower end
  split_ifs
  all_goals first | rfl | omega

/-- **The far end** is not drawn. -/
theorem AlongOK.far (h : AlongOK a0 b0 a1 b1 points) (r : ℤ × ℤ) (hr : r ∈ points) :
    min a0 a1 ≤ r.1 ∧ r.1 < max a0 a1 := by
  have hmem : r.1 ∈ points.map Prod.fst := List.mem_map_of_mem hr
  rw [h.places] at hmem
  obtain ⟨k, hk, hkr⟩ := List.mem_map.1 hmem
  have hlt := List.mem_range.1 hk
  have habs : |a1 - a0| = max a0 a1 - min a0 a1 := (max_sub_min_eq_abs a0 a1).symm
  omega

theorem LineOK.misses (h : LineOK x0 y0 x1 y1 points) : ¬ ((x0, y0) ∈ points ∧ (x1, y1) ∈ points) := by
  rintro ⟨h0, h1⟩
  rcases lt_or_ge |y1 - y0| |x1 - x0| with hlow | hhigh
  · have hend0 := (h.low hlow).far _ h0
    have hend1 := (h.low hlow).far _ h1
    simp only at hend0 hend1
    omega
  · have hend0 := (h.high hhigh).far _ (List.mem_map_of_mem h0)
    have hend1 := (h.high hhigh).far _ (List.mem_map_of_mem h1)
    simp only [Prod.fst_swap] at hend0 hend1
    omega

/-- What a line draws, in both directions. -/
theorem line_shape (hp : fb.Has p) (hq : fb.Has q) (col : ℕ) : ∃ S ws ws', fb.drawLine p.1 p.2 q.1 q.2 col = some ws ∧
    fb.drawLine q.1 q.2 p.1 p.2 col = some ws' ∧ DrawsShape fb S col ws ∧ DrawsShape fb S col ws' ∧
    ((S p.1 p.2 ∧ S q.1 q.2) ↔ p.1 = q.1 ∨ p.2 = q.2) := by
  unfold GuiFb.drawLine
  by_cases hy : (p.2 : ℤ) = q.2
  · -- a horizontal line
    rw [if_pos hy, if_pos hy.symm]
    obtain ⟨ws, hws, hD⟩ := drawLineHorizontal_draws fb p.1 q.1 p.2 col
    obtain ⟨ws', hws', hD'⟩ := drawLineHorizontal_draws fb q.1 p.1 q.2 col
    refine ⟨_, ws, ws', hws, hws', hD, hD'.congr ?_, ?_⟩
    · intro X Y
      unfold OnFb HLine
      rw [min_comm, max_comm, hy]
    · unfold HLine
      refine iff_of_true ⟨⟨?_, ?_, rfl⟩, ?_, ?_, hy.symm⟩ (.inr (by exact_mod_cast hy))
      · exact min_le_left _ _
      · exact le_max_left _ _
      · exact min_le_right _ _
      · exact le_max_right _ _
  rw [if_neg hy, if_neg (Ne.symm hy)]
  by_cases hx : (p.1 : ℤ) = q.1
  · -- a vertical line
    rw [if_pos hx, if_pos hx.symm]
    obtain ⟨ws, hws, hD⟩ := drawLineVertical_draws fb p.1 p.2 q.2 col
    obtain ⟨ws', hws', hD'⟩ := drawLineVertical_draws fb q.1 q.2 p.2 col
    refine ⟨_, ws, ws', hws, hws', hD, hD'.congr ?_, ?_⟩
    · intro X Y
      unfold OnFb VLine
      rw [min_comm, max_comm, hx]
    · unfold VLine
      refine iff_of_true ⟨⟨rfl, ?_, ?_⟩, hx.symm, ?_, ?_⟩ (.inl (by exact_mod_cast hx))
      · exact min_le_left _ _
      · exact le_max_left _ _
      · exact min_le_right _ _
      · exact le_max_right _ _
  rw [if_neg hx, if_neg (Ne.symm hx)]
  obtain ⟨hp1, hp2⟩ := hp
  obtain ⟨hq1, hq2⟩ := hq
  obtain ⟨hW, hH⟩ := sloped_bound fb (by omega) (by omega)
  -- a sloped line
  have hdx : |(q.1 : ℤ) - p.1| < 2 ^ 29 := by
    rw [abs_lt]
    omega
  have hdy : |(q.2 : ℤ) - p.2| < 2 ^ 29 := by
    rw [abs_lt]
    omega
  have hsmall (n : ℕ) (hn : n < 2 ^ 29) : |(n : ℤ)| < 2 ^ 30 := by
    rw [abs_lt]
    omega
  obtain ⟨points, heq, hOK⟩ := slopedPoints_ok hx hy (hsmall _ (by omega)) (hsmall _ (by omega)) (hsmall _ (by omega))
    (hsmall _ (by omega)) hdx hdy
  rw [slopedPoints_swap hx hy hdx hdy, heq]
  refine ⟨_, _, _, rfl, rfl, drawPixels_draws fb points col, drawPixels_draws fb points col, ?_⟩
  exact iff_of_false hOK.misses (not_or.2 ⟨by exact_mod_cast hx, by exact_mod_cast hy⟩)

/-- **The ends of a line.** A line on the screen is always drawn, and from both ends alike. It contains both of
its ends exactly if it is horizontal or vertical. -/
theorem line_ends (fb : GuiFb) (p q : ℕ × ℕ) (hp : fb.Has p) (hq : fb.Has q) (col : ℕ) :
    (∃ ws, fb.drawLine p.1 p.2 q.1 q.2 col = some ws) ∧ fb.linePixels p q col = fb.linePixels q p col ∧
      ((p ∈ fb.linePixels p q col ∧ q ∈ fb.linePixels p q col ∧ fb.linePixels p q col = fb.linePixels q p col) ↔
        p.1 = q.1 ∨ p.2 = q.2) := by
  obtain ⟨S, ws, ws', hws, hws', hD, hD', hends⟩ := line_shape hp hq col
  have hsame : fb.linePixels p q col = fb.linePixels q p col := by
    ext r
    rw [mem_linePixels hws hD, mem_linePixels hws' hD']
  refine ⟨⟨ws, hws⟩, hsame, ?_⟩
  rw [mem_linePixels hws hD, mem_linePixels hws hD, ← hends]
  constructor
  · rintro ⟨⟨-, hSp⟩, ⟨-, hSq⟩, -⟩
    exact ⟨hSp, hSq⟩
  · rintro ⟨hSp, hSq⟩
    exact ⟨⟨hp, hSp⟩, ⟨hq, hSq⟩, hsame⟩

theorem line_ends_one : smallGuiFb.Has (0, 0) ∧ smallGuiFb.Has (2, 1) ∧
    smallGuiFb.linePixels (0, 0) (2, 1) 7 = smallGuiFb.linePixels (2, 1) (0, 0) 7 :=
  have h0 : smallGuiFb.Has (0, 0) := ⟨by decide, by decide⟩
  have h1 : smallGuiFb.Has (2, 1) := ⟨by decide, by decide⟩
  ⟨h0, h1, (line_ends smallGuiFb (0, 0) (2, 1) h0 h1 7).2.1⟩

/-- **A sloped line** from `(0, 0)` to `(2, 1)` stops before its far end. -/
theorem line_stops : smallGuiFb.Has (0, 0) ∧ smallGuiFb.Has (2, 1) ∧
    (2, 1) ∉ smallGuiFb.linePixels (0, 0) (2, 1) 7 := by
  have hline : smallGuiFb.drawLine 0 0 2 1 7 = some (smallGuiFb.drawPixels [(0, 0), (1, 0)] 7) := by decide
  refine ⟨⟨by decide, by decide⟩, ⟨by decide, by decide⟩, ?_⟩
  intro hmem
  have hS := ((mem_linePixels (p := (0, 0)) (q := (2, 1)) hline (drawPixels_draws _ _ _) _).1 hmem).2
  revert hS
  decide

end Saynaa
