import Mathlib.Tactic

/-!
# `libc/math.c` and 32-bit arithmetic

A `uint32_t` is a natural number below `2^32`; `add32` and `sub32` wrap around as
the C operators do. `toInt32` and `ofInt` go between it and the signed type.
-/

namespace Saynaa

/-- `a + b` on `uint32_t`. -/
def add32 (a b : ℕ) : ℕ := (a + b) % 2 ^ 32

/-- `a - b` on `uint32_t`. -/
def sub32 (a b : ℕ) : ℕ := (a + 2 ^ 32 - b) % 2 ^ 32

theorem add32_of_lt {a b : ℕ} (h : a + b < 2 ^ 32) : add32 a b = a + b := Nat.mod_eq_of_lt h

theorem sub32_of_le {a b : ℕ} (h : b ≤ a) (ha : a < 2 ^ 32) : sub32 a b = a - b := by
  unfold sub32; omega

/-- A `uint32_t` read as an `int32_t`. -/
def toInt32 (x : ℕ) : ℤ := if x < 2 ^ 31 then x else x - 2 ^ 32

/-- An integer stored in a `uint32_t`. -/
def ofInt (x : ℤ) : ℕ := (x % 2 ^ 32).toNat

/-- The `int32_t` that an integer result wraps to. -/
def i32 (x : ℤ) : ℤ := toInt32 (ofInt x)

theorem toInt32_of_lt {x : ℕ} (h : x < 2 ^ 31) : toInt32 x = x := if_pos h

theorem i32_of_mem {x : ℤ} (h0 : -2 ^ 31 ≤ x) (h : x < 2 ^ 31) : i32 x = x := by
  unfold i32 toInt32 ofInt
  omega

theorem i32_lt (x : ℤ) : i32 x < 2 ^ 31 := by
  unfold i32 toInt32 ofInt
  omega

theorem i32_ge (x : ℤ) : -2 ^ 31 ≤ i32 x := by
  unfold i32 toInt32 ofInt
  split_ifs <;> omega

/-- `max(a, b)`, which compares its arguments as `int`. -/
def intMax (a b : ℕ) : ℕ := if toInt32 a > toInt32 b then a else b

/-- Round `n` up to the next multiple of `align`. -/
def alignTo (n align : ℕ) : ℕ :=
  if n % align = 0 then n else add32 n (align - n % align)

/-- Divide `n` by `d`, rounding up. -/
def divideUp (n d : ℕ) : ℕ :=
  if n % d = 0 then n / d else 1 + n / d

theorem divideUp_eq {n d : ℕ} (hd : 0 < d) : divideUp n d = (n + d - 1) / d := by
  have h := Nat.div_add_mod n d
  have hm := Nat.mod_lt n hd
  rw [mul_comm] at h
  unfold divideUp
  symm
  rw [Nat.div_eq_iff hd]
  split_ifs with h0
  · constructor <;> omega
  · rw [add_mul, one_mul]
    constructor <;> omega

/-- Rounding up, when it does not wrap: the least multiple of `align` from `n` on. -/
theorem alignTo_spec {n align : ℕ} (ha : 0 < align) (h : n + align ≤ 2 ^ 32) :
    align ∣ alignTo n align ∧ n ≤ alignTo n align ∧ alignTo n align < n + align := by
  have hm := Nat.mod_lt n ha
  unfold alignTo
  split_ifs with h0
  · exact ⟨Nat.dvd_of_mod_eq_zero h0, le_rfl, by omega⟩
  · rw [add32_of_lt (by omega)]
    refine ⟨?_, by omega, by omega⟩
    have h1 := Nat.div_add_mod n align
    exact ⟨n / align + 1, by rw [mul_add, mul_one]; omega⟩

end Saynaa
