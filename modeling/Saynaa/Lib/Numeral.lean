import Mathlib.Data.Nat.Digits.Lemmas
import Mathlib.Tactic

/-!
# Numerals

* `digitsOf b n`: the digits of a number, most significant first; 0 has one digit.
* `digitsOf_step`: the last digit and those before it.
* `foldl_digitsOf`, `foldl_bitVec`: reading a numeral, also in words of a fixed size.
-/

namespace Lib

variable {b n d w : ℕ}

/-- **The digits of a number** in base `b`, most significant first. -/
def digitsOf (b n : ℕ) : List ℕ := if n = 0 then [0] else (Nat.digits b n).reverse

theorem digitsOf_ne_nil (b n : ℕ) : digitsOf b n ≠ [] := by
  unfold digitsOf
  split_ifs with h
  · exact List.cons_ne_nil 0 []
  · intro hnil
    exact Nat.digits_ne_nil_iff_ne_zero.2 h (List.reverse_eq_nil_iff.1 hnil)

theorem digitsOf_small (h : n < b) : digitsOf b n = [n] := by
  unfold digitsOf
  split_ifs with h0
  · rw [h0]
  · rw [Nat.digits_of_lt b n h0 h]
    rfl

/-- **The last digit**, behind those of the quotient. -/
theorem digitsOf_step (hb : 2 ≤ b) (h : b ≤ n) : digitsOf b n = digitsOf b (n / b) ++ [n % b] := by
  have hq : n / b ≠ 0 := (Nat.div_pos h (by omega)).ne'
  unfold digitsOf
  rw [if_neg (by omega), if_neg hq, Nat.digits_def' (by omega) (by omega), List.reverse_cons]

theorem digitsOf_lt (hb : 2 ≤ b) (h : d ∈ digitsOf b n) : d < b := by
  unfold digitsOf at h
  split_ifs at h with h0
  · obtain rfl := List.mem_singleton.1 h
    omega
  · exact Nat.digits_lt_base (by omega) (List.mem_reverse.1 h)

/-- The first digit is zero for 0 only. -/
theorem head_digitsOf (hb : 2 ≤ b) : (digitsOf b n).head? = some 0 ↔ n = 0 := by
  induction n using Nat.strong_induction_on with
  | _ n ih =>
    by_cases h : n < b
    · rw [digitsOf_small h]
      simp
    · have hq : n / b ≠ 0 := (Nat.div_pos (not_lt.1 h) (by omega)).ne'
      have hhead := ih (n / b) (Nat.div_lt_self (by omega) (by omega))
      rw [digitsOf_step hb (not_lt.1 h), List.head?_append_of_ne_nil _ (digitsOf_ne_nil b _), hhead]
      omega

/-- **Reading a numeral.** -/
theorem foldl_digitsOf (hb : 2 ≤ b) (n : ℕ) : (digitsOf b n).foldl (fun v d => v * b + d) 0 = n := by
  induction n using Nat.strong_induction_on with
  | _ n ih =>
    by_cases h : n < b
    · rw [digitsOf_small h]
      simp
    · rw [digitsOf_step hb (not_lt.1 h), List.foldl_append, ih (n / b) (Nat.div_lt_self (by omega) (by omega))]
      exact Nat.div_add_mod' n b

/-- Reading digits, or what they are shown as, in words of `w` bits. -/
theorem foldl_bitVec {α : Type*} {show' : ℕ → α} {f : BitVec w → α → BitVec w} (hb : 2 ≤ b)
    (hf : ∀ v d, d < b → f v (show' d) = v * BitVec.ofNat w b + BitVec.ofNat w d) (n : ℕ) :
    ((digitsOf b n).map show').foldl f 0 = BitVec.ofNat w n := by
  have hfold : ∀ (l : List ℕ) (v : ℕ), (∀ d ∈ l, d < b) →
      (l.map show').foldl f (BitVec.ofNat w v) = BitVec.ofNat w (l.foldl (fun v d => v * b + d) v) := by
    intro l
    induction l with
    | nil => exact fun v _ => rfl
    | cons d l ih =>
      intro v hl
      have hone : f (BitVec.ofNat w v) (show' d) = BitVec.ofNat w (v * b + d) := by
        rw [hf _ d (hl d List.mem_cons_self), BitVec.ofNat_add, BitVec.ofNat_mul]
      rw [List.map_cons, List.foldl_cons, hone]
      exact ih (v * b + d) fun e he => hl e (List.mem_cons_of_mem d he)
  have h := hfold (digitsOf b n) 0 fun d hd => digitsOf_lt hb hd
  rwa [foldl_digitsOf hb] at h

end Lib
