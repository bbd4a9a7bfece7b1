import Saynaa.Libc.Div64

/-!
# 64-bit division is correct

* `divState_inv`: after `k` iterations, quotient and remainder are those of the `k` upper bits.
* `shiftIn_toNat`: the partial remainder of at most 63 bits loses none when it is shifted.
* `div64_correct`: the four helpers.
-/

namespace Saynaa

variable {n d a b r : BitVec 64} {i k : ℕ}

/-- **No bit is lost** in a shift of less than `2 ^ 63`. -/
theorem shiftIn_toNat (hr : 2 * r.toNat + 1 < 2 ^ 64) :
    (shiftIn n r i).toNat = 2 * r.toNat + n.toNat / 2 ^ i % 2 := by
  have hshift : (r <<< 1).toNat = r.toNat <<< 1 := by
    rw [BitVec.toNat_shiftLeft]
    refine Nat.mod_eq_of_lt ?_
    rw [Nat.shiftLeft_eq]
    omega
  have hbit : ((n >>> i) &&& 1#64).toNat = n.toNat / 2 ^ i % 2 := by
    rw [BitVec.toNat_and, BitVec.toNat_ushiftRight, Nat.shiftRight_eq_div_pow]
    exact Nat.and_one_is_mod _
  unfold shiftIn
  rw [BitVec.toNat_or, hshift, hbit, ← Nat.shiftLeft_add_eq_or_of_lt (by omega), Nat.shiftLeft_eq]
  omega

/-- The bits above `i`. -/
theorem div_pow_succ (x i : ℕ) : x / 2 ^ i = 2 * (x / 2 ^ (i + 1)) + x / 2 ^ i % 2 := by
  rw [pow_succ, ← Nat.div_div_eq_div_mul]
  omega

/-- Long division takes in one bit. -/
theorem div_mod_bit {p d b : ℕ} (hd : 0 < d) (hb : b < 2) :
    if d ≤ 2 * (p % d) + b then (2 * p + b) / d = 2 * (p / d) + 1 ∧ (2 * p + b) % d = 2 * (p % d) + b - d
    else (2 * p + b) / d = 2 * (p / d) ∧ (2 * p + b) % d = 2 * (p % d) + b := by
  have hp := Nat.mod_add_div p d
  have hlt := Nat.mod_lt p hd
  split_ifs with hle
  · rw [Nat.div_mod_unique hd]
    refine ⟨?_, by omega⟩
    calc 2 * (p % d) + b - d + d * (2 * (p / d) + 1)
      _ = 2 * (p % d + d * (p / d)) + b + d - d := by rw [mul_add]; ring_nf; omega
      _ = 2 * p + b := by rw [hp]; omega
  · rw [Nat.div_mod_unique hd]
    refine ⟨?_, by omega⟩
    calc 2 * (p % d) + b + d * (2 * (p / d)) = 2 * (p % d + d * (p / d)) + b := by ring
      _ = 2 * p + b := by rw [hp]

/-- **After `k` iterations** the state is that of dividing the upper `k` bits. -/
structure DivInv (n d : BitVec 64) (k : ℕ) (s : DivState) : Prop where
  r : s.r.toNat = n.toNat / 2 ^ (64 - k) % d.toNat
  q : s.q.toNat = n.toNat / 2 ^ (64 - k) / d.toNat * 2 ^ (64 - k)

/-- The remainder of `k` bits has at most `k` bits. -/
theorem DivInv.r_lt {s : DivState} (h : DivInv n d k s) (hk : k ≤ 64) : s.r.toNat < 2 ^ k := by
  rw [h.r]
  refine lt_of_le_of_lt (Nat.mod_le _ _) (Nat.div_lt_of_lt_mul ?_)
  rw [← pow_add, show 64 - k + k = 64 by omega]
  exact n.isLt

theorem DivInv.no_carry {s : DivState} (h : DivInv n d k s) (hk : k < 64) : 2 * s.r.toNat + 1 < 2 ^ 64 := by
  have hlt := h.r_lt hk.le
  have hle : 2 ^ k ≤ 2 ^ 63 := Nat.pow_le_pow_right (by norm_num) (by omega)
  omega

/-- **One iteration.** -/
theorem DivInv.step {s : DivState} (h : DivInv n d k s) (hd : d ≠ 0) (hk : k < 64) :
    DivInv n d (k + 1) (divStep n d (63 - k) s) := by
  have hd0 : 0 < d.toNat := Nat.pos_of_ne_zero fun h0 => hd (BitVec.eq_of_toNat_eq h0)
  have hi : 64 - (k + 1) = 63 - k := by omega
  have hpre : 64 - k = 63 - k + 1 := by omega
  have hr := h.r
  have hq := h.q
  rw [hpre] at hr hq
  have hb : n.toNat / 2 ^ (63 - k) % 2 < 2 := Nat.mod_lt _ (by norm_num)
  have hshift := shiftIn_toNat (n := n) (i := 63 - k) (h.no_carry hk)
  have hbit := div_mod_bit (p := n.toNat / 2 ^ (63 - k + 1)) hd0 hb
  rw [← div_pow_succ, ← hr, ← hshift] at hbit
  unfold divStep
  by_cases hle : d ≤ shiftIn n s.r (63 - k)
  · -- the divisor is subtracted, and the bit is set
    have hle' : d.toNat ≤ (shiftIn n s.r (63 - k)).toNat := hle
    rw [if_pos hle'] at hbit
    rw [if_pos hle]
    refine ⟨?_, ?_⟩
    · rw [hi, hbit.2, BitVec.toNat_sub_of_le hle]
    · -- the new bit of the quotient is below the old ones
      have hone : (1#64 <<< (63 - k)).toNat = 2 ^ (63 - k) := by
        rw [BitVec.toNat_shiftLeft, Nat.shiftLeft_eq, BitVec.toNat_ofNat]
        exact (congrArg (· % _) (by norm_num)).trans
          (Nat.mod_eq_of_lt (Nat.pow_lt_pow_right (by norm_num) (by omega)))
      rw [hi, hbit.1, BitVec.toNat_or, hone, hq, ← Nat.shiftLeft_eq,
        ← Nat.shiftLeft_add_eq_or_of_lt (Nat.pow_lt_pow_right (by norm_num) (by omega)), Nat.shiftLeft_eq, pow_succ]
      ring
  · -- it does not fit into the remainder yet
    have hle' : ¬ d.toNat ≤ (shiftIn n s.r (63 - k)).toNat := hle
    rw [if_neg hle'] at hbit
    rw [if_neg hle]
    refine ⟨?_, ?_⟩
    · rw [hi, hbit.2]
    · rw [hi, hbit.1, hq, pow_succ]
      ring

theorem divState_inv (hd : d ≠ 0) (hk : k ≤ 64) : DivInv n d k (divState n d k) := by
  induction k with
  | zero =>
    have h0 : n.toNat / 2 ^ (64 - 0) = 0 := Nat.div_eq_of_lt n.isLt
    refine ⟨?_, ?_⟩
    · rw [h0, Nat.zero_mod]
      rfl
    · rw [h0, Nat.zero_div, Nat.zero_mul]
      rfl
  | succ k ih => exact (ih (by omega)).step hd (by omega)

theorem modState_eq (k : ℕ) : modState n d k = (divState n d k).r := by
  induction k with
  | zero => rfl
  | succ k ih =>
    show modStep n d (63 - k) (modState n d k) = (divStep n d (63 - k) (divState n d k)).r
    rw [ih]
    unfold modStep divStep
    by_cases hle : d ≤ shiftIn n (divState n d k).r (63 - k)
    · rw [if_pos hle, if_pos hle]
    · rw [if_neg hle, if_neg hle]

theorem udivdi3_eq (hd : d ≠ 0) : udivdi3 n d = n / d := by
  have hq := (divState_inv (n := n) hd le_rfl).q
  apply BitVec.eq_of_toNat_eq
  rw [BitVec.toNat_udiv]
  unfold udivdi3
  simpa using hq

theorem umoddi3_eq (hd : d ≠ 0) : umoddi3 n d = n % d := by
  have hr := (divState_inv (n := n) hd le_rfl).r
  apply BitVec.eq_of_toNat_eq
  rw [BitVec.toNat_umod]
  unfold umoddi3
  rw [modState_eq]
  simpa using hr

theorem magnitude_ne_zero (hb : b ≠ 0) : magnitude b ≠ 0 := by
  unfold magnitude
  split_ifs
  · exact fun h => hb (by simpa using h)
  · exact hb

theorem divdi3_eq (hb : b ≠ 0) : divdi3 a b = a.sdiv b := by
  unfold divdi3
  rw [udivdi3_eq (magnitude_ne_zero hb), BitVec.sdiv_eq, BitVec.msb_eq_toInt, BitVec.msb_eq_toInt]
  unfold magnitude
  by_cases h1 : a.toInt < 0 <;> by_cases h2 : b.toInt < 0 <;> simp [h1, h2]

theorem moddi3_eq (hb : b ≠ 0) : moddi3 a b = a.srem b := by
  unfold moddi3
  rw [umoddi3_eq (magnitude_ne_zero hb), BitVec.srem_eq, BitVec.msb_eq_toInt, BitVec.msb_eq_toInt]
  unfold magnitude
  by_cases h1 : a.toInt < 0 <;> by_cases h2 : b.toInt < 0 <;> simp [h1, h2]

/-- **64-bit division is correct**: the unsigned helpers give quotient and remainder, and no shift of their partial
remainders loses a bit; the signed ones give the truncated quotient, modulo `2 ^ 64`, and the remainder with the sign
of the dividend. -/
theorem div64_correct (hd : d ≠ 0) (hb : b ≠ 0) :
    (udivdi3 n d).toNat = n.toNat / d.toNat ∧ (umoddi3 n d).toNat = n.toNat % d.toNat ∧
      (∀ k < 64, 2 * (divState n d k).r.toNat + 1 < 2 ^ 64 ∧ 2 * (modState n d k).toNat + 1 < 2 ^ 64) ∧
      divdi3 a b = BitVec.ofInt 64 (a.toInt.tdiv b.toInt) ∧
      (a ≠ BitVec.intMin 64 ∨ b ≠ -1#64 → (divdi3 a b).toInt = a.toInt.tdiv b.toInt) ∧
      (moddi3 a b).toInt = a.toInt.tmod b.toInt := by
  refine ⟨?_, ?_, fun k hk => ?_, ?_, fun h => ?_, ?_⟩
  · rw [udivdi3_eq hd, BitVec.toNat_udiv]
  · rw [umoddi3_eq hd, BitVec.toNat_umod]
  · have hcarry := (divState_inv (n := n) hd hk.le).no_carry hk
    exact ⟨hcarry, modState_eq k ▸ hcarry⟩
  · apply BitVec.eq_of_toInt_eq
    rw [divdi3_eq hb, BitVec.toInt_sdiv, BitVec.toInt_ofInt]
  · rw [divdi3_eq hb, BitVec.toInt_sdiv_of_ne_or_ne a b h]
  · rw [moddi3_eq hb, BitVec.toInt_srem]

/-- A divisor above `2 ^ 63`, and the least number divided by -1. -/
theorem div64_correct_extreme : (udivdi3 (-1#64) (-2#64)).toNat = (-1#64).toNat / (-2#64).toNat ∧
    divdi3 (BitVec.intMin 64) (-1#64) = BitVec.ofInt 64 ((BitVec.intMin 64).toInt.tdiv (-1#64).toInt) := by
  have h := div64_correct (n := -1#64) (d := -2#64) (a := BitVec.intMin 64) (b := -1#64) (by decide) (by decide)
  exact ⟨h.1, h.2.2.2.1⟩

end Saynaa
