import Saynaa.Lib.Numeral
import Saynaa.Proof.PfPlain

/-!
# Integers as numerals

* `convertInteger_digits`: `convert_integer` writes the digits of its argument.
* `step_integer`: an integer conversion without flags, field width and precision.
-/

namespace Saynaa

open Lib

variable {args : ℕ → BitVec 32} {ops : FloatOps} {s : PfState} {conv : UInt8} {rest digits : List UInt8} {base n : ℕ}

theorem fillDigits_digits (hb : 2 ≤ base) (digits : List UInt8) {fuel : ℕ} (hn : n < 2 ^ (fuel + 1)) :
    fillDigits base digits (countDigits base fuel n) n = (digitsOf base n).map (digits.getD · 0) := by
  induction fuel generalizing n with
  | zero =>
    have hlt : n < base := by omega
    rw [digitsOf_small hlt]
    show [] ++ [digits.getD (n % base) 0] = _
    rw [Nat.mod_eq_of_lt hlt]
    rfl
  | succ fuel ih =>
    unfold countDigits
    by_cases h : base ≤ n
    · have hq : n / base < 2 ^ (fuel + 1) := by
        have hle : n / base ≤ n / 2 := Nat.div_le_div_left hb (by norm_num)
        have hpow : 2 ^ (fuel + 1 + 1) = 2 * 2 ^ (fuel + 1) := pow_succ' 2 (fuel + 1)
        omega
      rw [if_pos h, digitsOf_step hb h, List.map_append, ← ih hq]
      rfl
    · rw [if_neg h, digitsOf_small (not_le.1 h)]
      show [] ++ [digits.getD (n % base) 0] = _
      rw [Nat.mod_eq_of_lt (not_le.1 h)]
      rfl

/-- **`convert_integer`.** -/
theorem convertInteger_digits (hb : 2 ≤ base) (value : BitVec 64) (digits : List UInt8) :
    convertInteger value base digits = (digitsOf base value.toNat).map (digits.getD · 0) :=
  fillDigits_digits hb digits (lt_trans value.isLt (by norm_num))

namespace PfState

/-- The text of an integer conversion without flags. -/
theorem integerText_none {a : IntArg} (h : a.spec = .none) :
    integerText a = (if a.negative then [ch '-'] else []) ++ convertInteger a.value a.base a.digits := by
  have hwidth : a.spec.absFieldWidth = 0 := by rw [h]; rfl
  have hpre : a.pre = if a.negative then [ch '-'] else [] := by
    unfold IntArg.pre
    rw [h]
    simp [PfSpec.none]
  have hout : a.output = convertInteger a.value a.base a.digits := by
    unfold IntArg.output
    rw [h]
    exact if_neg fun hc => absurd hc.1 (by simp [PfSpec.none, sizeMax])
  have hprec : a.usePrecision = false := by
    unfold IntArg.usePrecision
    rw [h]
    simp [PfSpec.none]
  unfold integerText
  rw [hprec, hpre, hout, hwidth]
  simp

/-- **A conversion without flags**, for an argument of 32 bits. -/
theorem step_integer (args : ℕ → BitVec 32) (ops : FloatOps) (s : PfState)
    (hconv : conv ∈ [ch 'd', ch 'i', ch 'u', ch 'x'])
    (hf : s.format = ch '%' :: conv :: rest) (hr : s.rejectedBadSpecifier = false) {a : IntArg}
    (ha : intArg args .none conv s.arg = some (a, s.arg + 1)) :
    (s.step args ops).Writes (integerText a)
      ({ s with format := rest, arg := s.arg + 1 }.wrote (integerText a).length) := by
  have hmem : conv ∈ [ch 'd', ch 'i', ch 'o', ch 'u', ch 'x', ch 'X', ch 'p'] := by
    simp only [List.mem_cons, List.not_mem_nil, or_false] at hconv ⊢
    tauto
  have hplain : Plain conv := by
    unfold Plain
    simp only [List.mem_cons, List.not_mem_nil, or_false] at hconv ⊢
    tauto
  rw [step_none hplain hf hr]
  unfold convert
  rw [if_pos hmem]
  simp only [ha]
  exact puts_integer a _

end PfState

end Saynaa
