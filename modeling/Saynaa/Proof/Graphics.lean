import Saynaa.User.Graphics
import Saynaa.Lib.Writes

/-!
# Clipped drawing

* `place`: where a pixel of the screen is stored; the words of two pixels do not overlap.
* `DrawsShape`: what is stored for a shape.
* `drawSpan_eq`, `drawLineHorizontal_draws`, `drawLineVertical_draws`, `drawRect_draws`,
  `drawBorder_draws`: the shapes.
* `clipped_exact`: rectangles and their borders.
-/

namespace Saynaa

open Lib GuiFb

variable {fb : GuiFb} {X Y X' Y' n w col : ℕ} {ws ws' : List (ℕ × ℕ)} {S S' : ℤ → ℤ → Prop} {x y h : ℤ}

/-! ### Places -/

/-- The address of a pixel. -/
def GuiFb.place (fb : GuiFb) (X Y : ℕ) : ℕ := fb.address + Y * fb.pitch + 4 * X

theorem width_lt (fb : GuiFb) : fb.width < 2 ^ 30 := by
  have h1 := fb.row
  have h2 := fb.words.1
  omega

theorem height_lt (fb : GuiFb) (hw : 0 < fb.width) : fb.height ≤ 2 ^ 30 := by
  have h1 := fb.row
  have h2 := fb.size
  have h4 : 4 * fb.height ≤ fb.pitch * fb.height := Nat.mul_le_mul_right fb.height (by omega)
  omega

theorem place_lt (hX : X < fb.width) (hY : Y < fb.height) : fb.place X Y + 4 ≤ 2 ^ 32 := by
  have hrow := fb.row
  have hsize := fb.size
  have hnext : (Y + 1) * fb.pitch ≤ fb.pitch * fb.height := by
    rw [mul_comm]
    exact Nat.mul_le_mul_left _ hY
  rw [Nat.add_mul, one_mul] at hnext
  unfold place
  omega

theorem pixelOffset_eq (hX : X < fb.width) (hY : Y < fb.height) : fb.pixelOffset X Y = fb.place X Y := by
  have hlt := place_lt hX hY
  unfold place at hlt ⊢
  unfold pixelOffset
  rw [fb.depth, Nat.mod_eq_of_lt (by omega)]
  omega

theorem place_next (hX : X < fb.width) (hY : Y + 1 < fb.height) :
    (fb.place X Y + fb.pitch) % 2 ^ 32 = fb.place X (Y + 1) := by
  have hnext : fb.place X Y + fb.pitch = fb.place X (Y + 1) := by
    unfold place
    rw [Nat.add_mul]
    omega
  have hlt := place_lt hX hY
  rw [hnext, Nat.mod_eq_of_lt (by omega)]

/-- **The words of two pixels** do not overlap. -/
theorem place_inj (hX : X < fb.width) (hX' : X' < fb.width) {i j : ℕ} (hi : i < 4) (hj : j < 4)
    (h : fb.place X Y + i = fb.place X' Y' + j) : X = X' ∧ Y = Y' ∧ i = j := by
  have hrow := fb.row
  unfold place at h
  have hY : Y = Y' := by
    rcases Nat.lt_trichotomy Y Y' with hlt | heq | hlt
    · have hnext : (Y + 1) * fb.pitch ≤ Y' * fb.pitch := Nat.mul_le_mul_right _ hlt
      rw [Nat.add_mul] at hnext
      omega
    · exact heq
    · have hnext : (Y' + 1) * fb.pitch ≤ Y * fb.pitch := Nat.mul_le_mul_right _ hlt
      rw [Nat.add_mul] at hnext
      omega
  subst hY
  omega

/-! ### Stores -/

/-- The pixels of a shape that lie on the screen. -/
def OnFb (fb : GuiFb) (S : ℤ → ℤ → Prop) (X Y : ℕ) : Prop := X < fb.width ∧ Y < fb.height ∧ S X Y

/-- **What is stored for a shape**: the words of its pixels on the screen. -/
def DrawsShape (fb : GuiFb) (S : ℤ → ℤ → Prop) (col : ℕ) (ws : List (ℕ × ℕ)) : Prop :=
  ∀ s, s ∈ ws ↔ ∃ X Y, OnFb fb S X Y ∧ s = (fb.place X Y, col)

theorem DrawsShape.nil (h : ∀ X Y, ¬ OnFb fb S X Y) : DrawsShape fb S col [] :=
  fun _ => iff_of_false List.not_mem_nil fun ⟨X, Y, hon, _⟩ => h X Y hon

theorem DrawsShape.congr (h : DrawsShape fb S col ws) (hS : ∀ X Y, OnFb fb S X Y ↔ OnFb fb S' X Y) :
    DrawsShape fb S' col ws := by
  intro s
  rw [h s]
  exact exists_congr fun X => exists_congr fun Y => and_congr_left fun _ => hS X Y

theorem DrawsShape.append (h : DrawsShape fb S col ws) (h' : DrawsShape fb S' col ws') :
    DrawsShape fb (fun x y => S x y ∨ S' x y) col (ws ++ ws') := by
  intro s
  rw [List.mem_append, h s, h' s]
  constructor
  · rintro (⟨X, Y, ⟨hX, hY, hS⟩, rfl⟩ | ⟨X, Y, ⟨hX, hY, hS⟩, rfl⟩)
    · exact ⟨X, Y, ⟨hX, hY, .inl hS⟩, rfl⟩
    · exact ⟨X, Y, ⟨hX, hY, .inr hS⟩, rfl⟩
  · rintro ⟨X, Y, ⟨hX, hY, hS | hS⟩, rfl⟩
    · exact .inl ⟨X, Y, ⟨hX, hY, hS⟩, rfl⟩
    · exact .inr ⟨X, Y, ⟨hX, hY, hS⟩, rfl⟩

theorem mem_storeRow (hX : X + n ≤ fb.width) (hY : Y < fb.height) (s : ℕ × ℕ) :
    s ∈ storeRow col (fb.place X Y) n ↔ ∃ i < n, s = (fb.place (X + i) Y, col) := by
  unfold storeRow
  rw [List.mem_map]
  refine exists_congr fun i => ?_
  rw [List.mem_range]
  refine and_congr_right fun hi => ?_
  have hlt : fb.place (X + i) Y + 4 ≤ 2 ^ 32 := place_lt (by omega) hY
  have hplace : fb.place X Y + 4 * i = fb.place (X + i) Y := by
    unfold place
    omega
  rw [hplace, Nat.mod_eq_of_lt (by omega), eq_comm]

theorem mem_storeColumn (hX : X < fb.width) (hY : Y + n ≤ fb.height) (s : ℕ × ℕ) :
    s ∈ fb.storeColumn col (fb.place X Y) n ↔ ∃ i < n, s = (fb.place X (Y + i), col) := by
  induction n generalizing Y with
  | zero => exact iff_of_false List.not_mem_nil fun ⟨i, hi, _⟩ => absurd hi (Nat.not_lt_zero i)
  | succ n ih =>
    have htail : s ∈ fb.storeColumn col ((fb.place X Y + fb.pitch) % 2 ^ 32) n ↔
        ∃ i < n, s = (fb.place X (Y + 1 + i), col) := by
      cases n with
      | zero => exact iff_of_false List.not_mem_nil fun ⟨i, hi, _⟩ => absurd hi (Nat.not_lt_zero i)
      | succ n =>
        rw [place_next hX (by omega)]
        exact ih (by omega)
    unfold storeColumn
    rw [List.mem_cons, htail]
    constructor
    · rintro (rfl | ⟨i, hi, rfl⟩)
      · exact ⟨0, by omega, rfl⟩
      · exact ⟨i + 1, by omega, by rw [Nat.add_assoc, Nat.add_comm 1 i]⟩
    · rintro ⟨i, hi, rfl⟩
      cases i with
      | zero => exact .inl rfl
      | succ i => exact .inr ⟨i, by omega, by rw [Nat.add_assoc, Nat.add_comm 1 i]⟩

theorem mem_storeRows (hX : X + w ≤ fb.width) (hX' : X < fb.width) (hY : Y + n ≤ fb.height) (s : ℕ × ℕ) :
    s ∈ fb.storeRows col w (fb.place X Y) n ↔ ∃ i < w, ∃ j < n, s = (fb.place (X + i) (Y + j), col) := by
  induction n generalizing Y with
  | zero => exact iff_of_false List.not_mem_nil fun ⟨_, _, j, hj, _⟩ => absurd hj (Nat.not_lt_zero j)
  | succ n ih =>
    have htail : s ∈ fb.storeRows col w ((fb.place X Y + fb.pitch) % 2 ^ 32) n ↔
        ∃ i < w, ∃ j < n, s = (fb.place (X + i) (Y + 1 + j), col) := by
      cases n with
      | zero => exact iff_of_false List.not_mem_nil fun ⟨_, _, j, hj, _⟩ => absurd hj (Nat.not_lt_zero j)
      | succ n =>
        rw [place_next hX' (by omega)]
        exact ih (by omega)
    unfold storeRows
    rw [List.mem_append, mem_storeRow hX (by omega), htail]
    constructor
    · rintro (⟨i, hi, rfl⟩ | ⟨i, hi, j, hj, rfl⟩)
      · exact ⟨i, hi, 0, by omega, rfl⟩
      · exact ⟨i, hi, j + 1, by omega, by rw [Nat.add_assoc Y, Nat.add_comm 1 j]⟩
    · rintro ⟨i, hi, j, hj, rfl⟩
      cases j with
      | zero => exact .inl ⟨i, hi, rfl⟩
      | succ j => exact .inr ⟨i, hi, j, by omega, by rw [Nat.add_assoc Y, Nat.add_comm 1 j]⟩

theorem storeRows_zero (fb : GuiFb) (col offset n : ℕ) : fb.storeRows col 0 offset n = [] := by
  induction n generalizing offset with
  | zero => rfl
  | succ n ih =>
    unfold storeRows
    rw [ih]
    rfl

/-! ### Shapes -/

theorem int32_eq {v : ℤ} (h0 : -2 ^ 31 ≤ v) (h : v < 2 ^ 31) : int32 v = some v := if_pos ⟨h0, h⟩

theorem drawPixel_draws (fb : GuiFb) (x y : ℤ) (col : ℕ) :
    DrawsShape fb (fun x' y' => x' = x ∧ y' = y) col (fb.drawPixel x y col) := by
  have hw := width_lt fb
  have hW : toInt32 fb.width = fb.width := toInt32_of_lt (by omega)
  unfold drawPixel
  rw [hW]
  split_ifs with hclip
  · refine DrawsShape.nil ?_
    rintro X Y ⟨hX, hY, rfl, rfl⟩
    have hh := height_lt fb (by omega)
    rw [toInt32_of_lt (by omega)] at hclip
    omega
  · push Not at hclip
    have hh := height_lt fb (by omega)
    rw [toInt32_of_lt (by omega)] at hclip
    have hon : x.toNat < fb.width ∧ y.toNat < fb.height := by omega
    have hx' : ofInt x = x.toNat := by
      unfold ofInt
      omega
    have hy' : ofInt y = y.toNat := by
      unfold ofInt
      omega
    intro s
    rw [List.mem_singleton, hx', hy', pixelOffset_eq hon.1 hon.2]
    constructor
    · rintro rfl
      exact ⟨x.toNat, y.toNat, ⟨hon.1, hon.2, by omega, by omega⟩, rfl⟩
    · rintro ⟨X, Y, ⟨-, -, hX, hY⟩, rfl⟩
      rw [← hX, ← hY]
      rfl

/-- A span is cut at 0 and at its limit. -/
theorem drawSpan_eq {limit : ℤ} (a0 a1 : ℤ) {store : ℤ → ℕ → List (ℕ × ℕ)} (hstore : ∀ a, store a 0 = [])
    (hl : 0 ≤ limit) (hl' : limit < 2 ^ 31) : ∃ (a n : ℕ),
      drawSpan limit store a0 a1 = some (store a n) ∧ ((n : ℤ) = 0 ∨ a + n ≤ limit) ∧
      ∀ k : ℕ, (a ≤ k ∧ k < a + n) ↔ (min a0 a1 ≤ k ∧ k ≤ max a0 a1 ∧ (k : ℤ) < limit) := by
  have hswap : (if a0 > a1 then (a1, a0) else (a0, a1)) = (min a0 a1, max a0 a1) := by
    split_ifs with hgt
    · rw [min_eq_right (by omega), max_eq_left (by omega)]
    · rw [min_eq_left (by omega), max_eq_right (by omega)]
  unfold drawSpan
  rw [hswap]
  simp only
  generalize hlo : min a0 a1 = lo
  generalize hhi : max a0 a1 = hi
  by_cases hout : hi < 0 ∨ lo ≥ limit
  · rw [if_pos hout]
    exact ⟨0, 0, by rw [hstore], .inl rfl, fun k => by omega⟩
  · rw [if_neg hout]
    push Not at hout
    have hend : (if hi ≥ limit then int32 (limit - 1) else some hi) = some (min hi (limit - 1)) := by
      split_ifs with hge
      · rw [int32_eq (by omega) (by omega), min_eq_right (by omega)]
      · rw [min_eq_left (by omega)]
    have hstart : (if lo < 0 then 0 else lo) = ((max lo 0).toNat : ℤ) := by
      split_ifs <;> omega
    rw [hend, hstart]
    simp only [Option.bind_eq_bind, Option.bind_some]
    rw [int32_eq (by omega) (by omega)]
    refine ⟨_, _, rfl, ?_, ?_⟩
    · omega
    · intro k
      omega

/-- The pixels of a horizontal line. -/
def HLine (x0 x1 y : ℤ) (x' y' : ℤ) : Prop := min x0 x1 ≤ x' ∧ x' ≤ max x0 x1 ∧ y' = y

/-- The pixels of a vertical line. -/
def VLine (x y0 y1 : ℤ) (x' y' : ℤ) : Prop := x' = x ∧ min y0 y1 ≤ y' ∧ y' ≤ max y0 y1

theorem height_eq (hw : 0 < fb.width) : toInt32 fb.height = fb.height := by
  have hh := height_lt fb hw
  exact toInt32_of_lt (by omega)

theorem drawLineHorizontal_draws (fb : GuiFb) (x0 x1 y : ℤ) (col : ℕ) :
    ∃ ws, fb.drawLineHorizontal x0 x1 y col = some ws ∧ DrawsShape fb (HLine x0 x1 y) col ws := by
  have hw := width_lt fb
  have hW : toInt32 fb.width = fb.width := toInt32_of_lt (by omega)
  unfold drawLineHorizontal
  split_ifs with hout
  · refine ⟨[], rfl, DrawsShape.nil ?_⟩
    rintro X Y ⟨hX, hY, -, -, rfl⟩
    rw [height_eq (by omega)] at hout
    omega
  push Not at hout
  have hl : 0 ≤ toInt32 fb.width ∧ toInt32 fb.width < 2 ^ 31 := by
    rw [hW]
    omega
  have hstore : ∀ a : ℤ, storeRow col (fb.pixelOffset (ofInt a) (ofInt y)) 0 = [] := fun _ => rfl
  obtain ⟨a, n, heq, hn, hspan⟩ := drawSpan_eq x0 x1 hstore hl.1 hl.2
  refine ⟨_, heq, ?_⟩
  rw [hW] at hn hspan
  rcases Nat.eq_zero_or_pos n with rfl | hpos
  · refine DrawsShape.nil ?_
    rintro X Y ⟨hX, -, hS⟩
    have hin := (hspan X).2 ⟨hS.1, hS.2.1, by omega⟩
    omega
  · have hh := height_lt fb (by omega)
    rw [height_eq (by omega)] at hout
    have ha : ofInt a = a := by
      unfold ofInt
      omega
    have hy' : ofInt y = y.toNat := by
      unfold ofInt
      omega
    intro s
    rw [ha, hy', pixelOffset_eq (by omega) (by omega), mem_storeRow (by omega) (by omega)]
    constructor
    · rintro ⟨i, hi, rfl⟩
      obtain ⟨hlo, hhi, hlim⟩ := (hspan (a + i)).1 (by omega)
      exact ⟨a + i, y.toNat, ⟨by omega, by omega, hlo, hhi, by omega⟩, rfl⟩
    · rintro ⟨X, Y, ⟨hX, hY, hlo, hhi, heqY⟩, rfl⟩
      obtain ⟨h1, h2⟩ := (hspan X).2 ⟨hlo, hhi, by omega⟩
      refine ⟨X - a, by omega, ?_⟩
      rw [Nat.add_sub_cancel' h1, show y.toNat = Y by omega]

theorem drawLineVertical_draws (fb : GuiFb) (x y0 y1 : ℤ) (col : ℕ) :
    ∃ ws, fb.drawLineVertical x y0 y1 col = some ws ∧ DrawsShape fb (VLine x y0 y1) col ws := by
  have hw := width_lt fb
  have hW : toInt32 fb.width = fb.width := toInt32_of_lt (by omega)
  unfold drawLineVertical
  rw [hW]
  split_ifs with hout
  · refine ⟨[], rfl, DrawsShape.nil ?_⟩
    rintro X Y ⟨hX, hY, rfl, -, -⟩
    omega
  push Not at hout
  have hh := height_lt fb (by omega)
  have hH : toInt32 fb.height = fb.height := height_eq (by omega)
  have hl : 0 ≤ toInt32 fb.height ∧ toInt32 fb.height < 2 ^ 31 := by
    rw [hH]
    omega
  have hstore : ∀ a : ℤ, fb.storeColumn col (fb.pixelOffset (ofInt x) (ofInt a)) 0 = [] := fun _ => rfl
  obtain ⟨a, n, heq, hn, hspan⟩ := drawSpan_eq y0 y1 hstore hl.1 hl.2
  refine ⟨_, heq, ?_⟩
  rw [hH] at hn hspan
  rcases Nat.eq_zero_or_pos n with rfl | hpos
  · refine DrawsShape.nil ?_
    rintro X Y ⟨-, hY, -, hS⟩
    have hin := (hspan Y).2 ⟨hS.1, hS.2, by omega⟩
    omega
  · have ha : ofInt a = a := by
      unfold ofInt
      omega
    have hx' : ofInt x = x.toNat := by
      unfold ofInt
      omega
    intro s
    rw [ha, hx', pixelOffset_eq (by omega) (by omega), mem_storeColumn (by omega) (by omega)]
    constructor
    · rintro ⟨i, hi, rfl⟩
      obtain ⟨hlo, hhi, hlim⟩ := (hspan (a + i)).1 (by omega)
      exact ⟨x.toNat, a + i, ⟨by omega, by omega, by omega, hlo, hhi⟩, rfl⟩
    · rintro ⟨X, Y, ⟨hX, hY, heqX, hlo, hhi⟩, rfl⟩
      obtain ⟨h1, h2⟩ := (hspan Y).2 ⟨hlo, hhi, by omega⟩
      refine ⟨Y - a, by omega, ?_⟩
      rw [Nat.add_sub_cancel' h1, show x.toNat = X by omega]

/-- The pixels of a rectangle. -/
def RectShape (x y w h : ℤ) (x' y' : ℤ) : Prop := x ≤ x' ∧ x' < x + w ∧ y ≤ y' ∧ y' < y + h

/-- The pixels of its outline. -/
def BorderShape (x y w h : ℤ) (x' y' : ℤ) : Prop :=
  RectShape x y w h x' y' ∧ (x' = x ∨ x' = x + w - 1 ∨ y' = y ∨ y' = y + h - 1)

/-- The arguments are `int`s, and so are the edges that do not belong to the rectangle any more. -/
structure IntRect (x y w h : ℤ) : Prop where
  left : -2 ^ 31 ≤ x ∧ x < 2 ^ 31
  top : -2 ^ 31 ≤ y ∧ y < 2 ^ 31
  right : -2 ^ 31 ≤ x + w ∧ x + w < 2 ^ 31
  bottom : -2 ^ 31 ≤ y + h ∧ y + h < 2 ^ 31

theorem drawRect_draws (fb : GuiFb) {w : ℤ} (hr : IntRect x y w h) (col : ℕ) :
    ∃ ws, fb.drawRect x y w h col = some ws ∧ DrawsShape fb (RectShape x y w h) col ws := by
  obtain ⟨⟨hx, hx'⟩, ⟨hy, hy'⟩, ⟨hr, hr'⟩, ⟨hb, hb'⟩⟩ := hr
  have hw := width_lt fb
  have hW : toInt32 fb.width = fb.width := toInt32_of_lt (by omega)
  have hHlt : toInt32 fb.height < 2 ^ 31 ∧ -2 ^ 31 ≤ toInt32 fb.height := by
    have hword := fb.words.2
    unfold toInt32
    split_ifs <;> omega
  unfold drawRect
  by_cases hempty : w ≤ 0 ∨ h ≤ 0
  · rw [if_pos hempty]
    refine ⟨[], rfl, DrawsShape.nil ?_⟩
    rintro X Y ⟨-, -, h1, h2, h3, h4⟩
    omega
  rw [if_neg hempty]
  push Not at hempty
  rw [int32_eq hr hr', int32_eq hb hb', hW]
  simp only [Option.bind_eq_bind, Option.bind_some]
  by_cases hout : x + w ≤ 0 ∨ y + h ≤ 0 ∨ x ≥ fb.width ∨ y ≥ toInt32 fb.height
  · rw [if_pos hout]
    refine ⟨[], rfl, DrawsShape.nil ?_⟩
    rintro X Y ⟨hX, hY, h1, h2, h3, h4⟩
    rw [height_eq (by omega)] at hout
    omega
  rw [if_neg hout]
  push Not at hout
  have hx0 : (if x < 0 then 0 else x) = (x.toNat : ℤ) := by
    split_ifs <;> omega
  have hy0 : (if y < 0 then 0 else y) = (y.toNat : ℤ) := by
    split_ifs <;> omega
  have hx1 : (if x + w > fb.width then (fb.width : ℤ) else x + w) = min (x + w) fb.width := by
    split_ifs <;> omega
  have hy1 : (if y + h > toInt32 fb.height then toInt32 fb.height else y + h) = min (y + h) (toInt32 fb.height) := by
    split_ifs <;> omega
  rw [hx0, hy0, hx1, hy1, int32_eq (by omega) (by omega), int32_eq (by omega) (by omega)]
  refine ⟨_, rfl, ?_⟩
  generalize hW' : (min (x + w) fb.width - x.toNat).toNat = w'
  generalize hH' : (min (y + h) (toInt32 fb.height) - y.toNat).toNat = h'
  rcases Nat.eq_zero_or_pos w' with rfl | hw'
  · -- no column is on the screen
    rw [storeRows_zero]
    refine DrawsShape.nil ?_
    rintro X Y ⟨hX, hY, h1, h2, h3, h4⟩
    omega
  clear hx0 hy0 hx1 hy1
  have hpos : 0 < fb.width := by omega
  have hh := height_lt fb hpos
  rw [height_eq hpos] at hout hH'
  rcases Nat.eq_zero_or_pos h' with rfl | hh'
  · -- nor is a row
    refine DrawsShape.nil ?_
    rintro X Y ⟨hX, hY, h1, h2, h3, h4⟩
    omega
  have hx0' : ofInt x.toNat = x.toNat := by
    unfold ofInt
    omega
  have hy0' : ofInt y.toNat = y.toNat := by
    unfold ofInt
    omega
  intro s
  rw [hx0', hy0', pixelOffset_eq (by omega) (by omega), mem_storeRows (by omega) (by omega) (by omega)]
  constructor
  · rintro ⟨i, hi, j, hj, rfl⟩
    exact ⟨x.toNat + i, y.toNat + j, ⟨by omega, by omega, by omega, by omega, by omega, by omega⟩, rfl⟩
  · rintro ⟨X, Y, ⟨hX, hY, h1, h2, h3, h4⟩, rfl⟩
    refine ⟨X - x.toNat, by omega, Y - y.toNat, by omega, ?_⟩
    rw [Nat.add_sub_cancel' (by omega), Nat.add_sub_cancel' (by omega)]

theorem drawBorder_draws (fb : GuiFb) {w : ℤ} (hr : IntRect x y w h) (col : ℕ) :
    ∃ ws, fb.drawBorder x y w h col = some ws ∧ DrawsShape fb (BorderShape x y w h) col ws := by
  obtain ⟨⟨hx, hx'⟩, ⟨hy, hy'⟩, ⟨hr, hr'⟩, ⟨hb, hb'⟩⟩ := hr
  unfold drawBorder
  by_cases hempty : w ≤ 0 ∨ h ≤ 0
  · rw [if_pos hempty]
    refine ⟨[], rfl, DrawsShape.nil ?_⟩
    rintro X Y ⟨-, -, ⟨h1, h2, h3, h4⟩, -⟩
    omega
  rw [if_neg hempty, int32_eq hr hr', int32_eq hb hb', Option.bind_some, Option.bind_some,
    int32_eq (by omega) (by omega), int32_eq (by omega) (by omega)]
  push Not at hempty
  obtain ⟨top, htop, hD1⟩ := drawLineHorizontal_draws fb x (x + w - 1) y col
  obtain ⟨base, hbase, hD2⟩ := drawLineHorizontal_draws fb x (x + w - 1) (y + h - 1) col
  obtain ⟨side, hside, hD3⟩ := drawLineVertical_draws fb x y (y + h - 1) col
  obtain ⟨side', hside', hD4⟩ := drawLineVertical_draws fb (x + w - 1) y (y + h - 1) col
  simp only [Option.bind_eq_bind, Option.bind_some]
  rw [htop, hbase, hside, hside']
  refine ⟨_, rfl, (((hD1.append hD2).append hD3).append hD4).congr ?_⟩
  intro X Y
  unfold OnFb HLine VLine BorderShape RectShape
  rw [min_eq_left (by omega), max_eq_right (by omega), min_eq_left (by omega), max_eq_right (by omega)]
  constructor
  · rintro ⟨hX, hY, hS⟩
    exact ⟨hX, hY, by omega, by omega⟩
  · rintro ⟨hX, hY, hin, hedge⟩
    exact ⟨hX, hY, by omega⟩

/-! ### Memory -/

/-- The bytes of a stored word. -/
def wordBytes (s : ℕ × ℕ) : List (ℕ × UInt8) := (List.range 4).map fun i => (s.1 + i, UInt8.ofNat (s.2 / 256 ^ i))

/-- The memory behind some stores. -/
def stores (ws : List (ℕ × ℕ)) (m : ℕ → UInt8) : ℕ → UInt8 := writes (ws.flatMap wordBytes) m

theorem mem_wordBytes {ws : List (ℕ × ℕ)} {b : ℕ × UInt8} :
    b ∈ ws.flatMap wordBytes ↔ ∃ s ∈ ws, ∃ i < 4, b = (s.1 + i, UInt8.ofNat (s.2 / 256 ^ i)) := by
  unfold wordBytes
  rw [List.mem_flatMap]
  refine exists_congr fun s => and_congr_right fun _ => ?_
  rw [List.mem_map]
  exact exists_congr fun i => by rw [List.mem_range, eq_comm]

/-- **The pixels of a shape** get their colour. -/
theorem DrawsShape.sets (h : DrawsShape fb S col ws) (hon : OnFb fb S X Y) {i : ℕ} (hi : i < 4) (m : ℕ → UInt8) :
    stores ws m (fb.place X Y + i) = UInt8.ofNat (col / 256 ^ i) := by
  unfold stores
  apply writes_of_mem
  · exact ⟨_, mem_wordBytes.2 ⟨_, (h _).2 ⟨X, Y, hon, rfl⟩, i, hi, rfl⟩, rfl⟩
  · intro b hb hat
    obtain ⟨s, hs, j, hj, rfl⟩ := mem_wordBytes.1 hb
    obtain ⟨X', Y', hon', rfl⟩ := (h s).1 hs
    obtain ⟨-, -, rfl⟩ := place_inj hon'.1 hon.1 hj hi hat
    rfl

/-- Everything else stays as it is. -/
theorem DrawsShape.keeps (h : DrawsShape fb S col ws) {b : ℕ}
    (hout : ∀ X Y, OnFb fb S X Y → ∀ i < 4, fb.place X Y + i ≠ b)
    (m : ℕ → UInt8) : stores ws m b = m b := by
  unfold stores
  apply writes_of_notMem
  intro s hs
  obtain ⟨s', hs', i, hi, rfl⟩ := mem_wordBytes.1 hs
  obtain ⟨X, Y, hon, rfl⟩ := (h s').1 hs'
  exact hout X Y hon i hi

/-- **A shape determines the memory.** -/
theorem DrawsShape.unique (h : DrawsShape fb S col ws) (h' : DrawsShape fb S col ws') (m : ℕ → UInt8) :
    stores ws m = stores ws' m := by
  funext b
  by_cases hin : ∃ X Y, OnFb fb S X Y ∧ ∃ i < 4, fb.place X Y + i = b
  · obtain ⟨X, Y, hon, i, hi, rfl⟩ := hin
    rw [h.sets hon hi, h'.sets hon hi]
  · push Not at hin
    rw [h.keeps hin, h'.keeps hin]

/-- `draw_pixel` on each of some pixels. -/
def GuiFb.drawPixels (fb : GuiFb) (pixels : List (ℤ × ℤ)) (col : ℕ) : List (ℕ × ℕ) :=
  pixels.flatMap fun p => fb.drawPixel p.1 p.2 col

theorem drawPixels_draws (fb : GuiFb) (pixels : List (ℤ × ℤ)) (col : ℕ) :
    DrawsShape fb (fun x y => (x, y) ∈ pixels) col (fb.drawPixels pixels col) := by
  intro s
  unfold drawPixels
  rw [List.mem_flatMap]
  constructor
  · rintro ⟨⟨x, y⟩, hp, hs⟩
    obtain ⟨X, Y, ⟨hX, hY, rfl, rfl⟩, rfl⟩ := (drawPixel_draws fb x y col s).1 hs
    exact ⟨X, Y, ⟨hX, hY, hp⟩, rfl⟩
  · rintro ⟨X, Y, ⟨hX, hY, hp⟩, rfl⟩
    exact ⟨_, hp, (drawPixel_draws fb X Y col _).2 ⟨X, Y, ⟨hX, hY, rfl, rfl⟩, rfl⟩⟩

/-- **A shape is drawn exactly**: nothing but words of its pixels on the screen is stored, these get the colour,
and the memory is that behind `draw_pixel` on all pixels of the shape. -/
structure DrawnExactly (fb : GuiFb) (S : ℤ → ℤ → Prop) (col : ℕ) (ws : List (ℕ × ℕ)) : Prop where
  only : ∀ s ∈ ws, ∃ X Y, OnFb fb S X Y ∧ s = (fb.place X Y, col)
  sets : ∀ X Y, OnFb fb S X Y → ∀ i < 4, ∀ m, stores ws m (fb.place X Y + i) = UInt8.ofNat (col / 256 ^ i)
  keeps : ∀ b, (∀ X Y, OnFb fb S X Y → ∀ i < 4, fb.place X Y + i ≠ b) → ∀ m, stores ws m b = m b
  pixels : ∀ pixels : List (ℤ × ℤ), (∀ p, p ∈ pixels ↔ S p.1 p.2) → ∀ m,
    stores ws m = stores (fb.drawPixels pixels col) m

theorem DrawsShape.exactly (h : DrawsShape fb S col ws) : DrawnExactly fb S col ws := by
  refine ⟨fun s hs => (h s).1 hs, fun X Y hon i hi m => h.sets hon hi m, fun b hb m => h.keeps hb m, ?_⟩
  intro pixels hpixels m
  have hS : (fun x y => (x, y) ∈ pixels) = S := by
    funext x y
    exact propext (hpixels (x, y))
  have hD := drawPixels_draws fb pixels col
  rw [hS] at hD
  exact h.unique hD m

/-- **Clipped drawing is exact**, for a rectangle and for its border. -/
theorem clipped_exact (fb : GuiFb) (x y w h : ℤ) (hr : IntRect x y w h) (col : ℕ) :
    (∃ ws, fb.drawRect x y w h col = some ws ∧ DrawnExactly fb (RectShape x y w h) col ws) ∧
      ∃ ws, fb.drawBorder x y w h col = some ws ∧ DrawnExactly fb (BorderShape x y w h) col ws := by
  obtain ⟨ws, hws, hD⟩ := drawRect_draws fb hr col
  obtain ⟨ws', hws', hD'⟩ := drawBorder_draws fb hr col
  exact ⟨⟨ws, hws, hD.exactly⟩, ⟨ws', hws', hD'.exactly⟩⟩

/-- A small window. -/
def smallGuiFb : GuiFb := ⟨0x1000, 16, 4, 4, 32, rfl, by norm_num, by norm_num, by norm_num⟩

theorem clipped_exact_one :
    (∃ ws, smallGuiFb.drawRect (-1) 2 3 5 7 = some ws ∧ DrawnExactly smallGuiFb (RectShape (-1) 2 3 5) 7 ws) ∧
      ∃ ws, smallGuiFb.drawBorder (-1) 2 3 5 7 = some ws ∧ DrawnExactly smallGuiFb (BorderShape (-1) 2 3 5) 7 ws :=
  clipped_exact smallGuiFb (-1) 2 3 5 ⟨by decide, by decide, by decide, by decide⟩ 7

end Saynaa
