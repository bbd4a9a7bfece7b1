import Saynaa.Proof.PfLayout

/-!
# Conversions of integers and C11

* `ArgFits`: an argument that the code reads as C11 does.
* `Fits`, `LaidOut`: the numbers that the code can handle, and the layouts that it gets right.
* `integerText_iff`: with such numbers these layouts are exactly those of C11.
* `int_conversion_exact`: a conversion in a format.
-/

namespace Saynaa

open Lib

namespace IntConversion

variable {args : ℕ → BitVec 32} {arg i : ℕ} {k : IntConversion}

/-! ### The numbers -/

/-- An argument of the type that the modifier gives. Only `hh`, `h` and, for unsigned conversions, `t` restrict it. -/
def ArgFits (k : IntConversion) (args : ℕ → BitVec 32) (i : ℕ) : Prop :=
  match k.conv.signed, k.modifier with
  | true, .hh => -2 ^ 7 ≤ (args i).toInt ∧ (args i).toInt < 2 ^ 7
  | true, .h => -2 ^ 15 ≤ (args i).toInt ∧ (args i).toInt < 2 ^ 15
  | false, .hh => (args i).toNat < 2 ^ 8
  | false, .h => (args i).toNat < 2 ^ 16
  | false, .t => (args i).toNat < 2 ^ 31
  | _, _ => True

/-- **The argument** is read right just when it fits. -/
theorem readAt_eq (k : IntConversion) (args : ℕ → BitVec 32) (i : ℕ) : k.readAt args i = k.valueAt args i ↔
    k.ArgFits args i := by
  have hlt := (args i).isLt
  have h8 : ((args i).setWidth 8).toNat = (args i).toNat % 2 ^ 8 := BitVec.toNat_setWidth 8 _
  have h16 : ((args i).setWidth 16).toNat = (args i).toNat % 2 ^ 16 := BitVec.toNat_setWidth 16 _
  have hext : ((args i).signExtend 64).toNat = if (args i).toNat < 2 ^ 31 then (args i).toNat
    else (args i).toNat + (2 ^ 64 - 2 ^ 32) := by
    rw [BitVec.toNat_signExtend, BitVec.toNat_setWidth_of_le (by norm_num)]
    split_ifs with h1 h2
    · rw [BitVec.msb_eq_decide] at h1
      simp at h1
      omega
    · rfl
    · rfl
    · rw [BitVec.msb_eq_decide] at h1
      simp at h1
      omega
  unfold readAt valueAt ArgFits
  cases k.conv.signed <;> cases k.modifier
  all_goals simp only [BitVec.toInt_eq_toNat_cond, h8, h16, hext]
  all_goals first
    | omega
    | split_ifs <;> omega

/-- The code takes a negative precision for 0. -/
def Dropped (k : IntConversion) (args : ℕ → BitVec 32) (arg : ℕ) : Prop :=
  k.precision = .star ∧ k.precisionValue args arg = none

/-- The flag `-` and a negative field width. -/
def Twice (k : IntConversion) (args : ℕ → BitVec 32) (arg : ℕ) : Prop :=
  .minus ∈ k.flags ∧ k.starNegative args arg = true

instance : Decidable (k.Twice args arg) := inferInstanceAs (Decidable (_ ∧ _))

/-- **Numbers that the code can handle.** -/
structure Fits (k : IntConversion) (args : ℕ → BitVec 32) (arg : ℕ) : Prop where
  width : k.widthValue args arg < 2 ^ 31
  digits : k.precision.Short
  precision : ∀ x, k.precisionValue args arg = some x → x ≠ sizeMax ∧ x + 1 < 2 ^ 64
  value : k.ArgFits args (k.valueArg arg)

/-- **Layouts that the code gets right.**
* `mark`: no more digits than there are are asked for, if there is a sign or `0x`.
* `octal`: with `#` and `o`, the value 0 is not printed with the precision 0, and a field is not wider than a
  precision that adds zeros.
* `star`: with a negative precision, the value is not 0, and there is no field to be padded with zeros.
* `minus`: with a negative field width and the flag `-`, there is nothing to pad, or all is blank. -/
structure LaidOut (k : IntConversion) (args : ℕ → BitVec 32) (arg : ℕ) : Prop where
  mark : ∀ x, k.precisionValue args arg = some x → (k.numeral args arg).length < x →
    k.sign args arg = [] ∧ k.baseMark args arg = []
  octal : k.Octal → ∀ x, k.precisionValue args arg = some x → (k.value args arg = 0 → x ≠ 0) ∧
    (k.value args arg ≠ 0 → (k.numeral args arg).length < x → k.widthValue args arg ≤ x)
  star : k.Dropped args arg → k.value args arg ≠ 0 ∧
    (.zero ∈ k.flags → k.left args arg = false → k.widthValue args arg ≤ (k.unpadded args arg).length)
  minus : k.Twice args arg → k.widthValue args arg ≤ (k.unpadded args arg).length ∨
    ∀ c ∈ k.unpadded args arg, c = ch ' '

/-! ### The field width and the precision -/

theorem word_toInt (h : k.widthValue args arg < 2 ^ 31) :
    (k.width.word args arg).toInt = if k.starNegative args arg then -(k.widthValue args arg : ℤ)
      else k.widthValue args arg := by
  unfold widthValue at h ⊢
  unfold starNegative
  cases hw : k.width with
  | none => rfl
  | number w h0 =>
    rw [hw] at h
    show (BitVec.ofNat 32 w).toInt = w
    have h' : w < 2 ^ 31 := h
    rw [BitVec.toInt_eq_toNat_cond, BitVec.toNat_ofNat]
    split_ifs <;> omega
  | star =>
    show (args arg).toInt = if decide ((args arg).toInt < 0) = true then -((args arg).toInt.natAbs : ℤ)
      else (args arg).toInt.natAbs
    simp only [decide_eq_true_eq]
    split_ifs <;> omega

theorem toInt_readWidth (h : k.widthValue args arg < 2 ^ 31) : (k.readWidth args arg).toInt =
    if k.left args arg = true ∧ ¬ k.Twice args arg then -(k.widthValue args arg : ℤ) else k.widthValue args arg := by
  have hword := word_toInt h
  have hneg : (-k.width.word args arg).toInt = -(k.width.word args arg).toInt := by
    have hlt := (k.width.word args arg).isLt
    rw [BitVec.toInt_eq_toNat_cond] at hword
    rw [BitVec.toInt_eq_toNat_cond, BitVec.toInt_eq_toNat_cond, BitVec.toNat_neg]
    split_ifs at hword ⊢ <;> omega
  unfold readWidth left Twice
  by_cases hminus : .minus ∈ k.flags <;> by_cases hstar : k.starNegative args arg = true <;>
    simp [hminus, hstar, hneg, hword]

theorem absFieldWidth_eq {spec : PfSpec} (hs : spec.fieldWidth = k.readWidth args arg)
    (h : k.widthValue args arg < 2 ^ 31) : spec.absFieldWidth = k.widthValue args arg := by
  have habs : spec.fieldWidth.toInt.natAbs = k.widthValue args arg := by
    rw [hs, toInt_readWidth h]
    split_ifs <;> omega
  have hnonneg : ∀ x : BitVec 32, 0 ≤ x.toInt → (x.signExtend 64).toNat = x.toInt.natAbs := by
    intro x hx
    have hmsb : x.msb = false := by
      by_contra hc
      have hneg := BitVec.toInt_neg_of_msb_true (Bool.eq_true_of_not_eq_false hc)
      omega
    rw [BitVec.signExtend_eq_setWidth_of_msb_false hmsb, BitVec.toNat_setWidth_of_le (by norm_num),
      BitVec.toInt_eq_toNat_of_msb hmsb]
    rfl
  unfold PfSpec.absFieldWidth
  split_ifs with hneg
  · have hlt := spec.fieldWidth.isLt
    have hflip : (-spec.fieldWidth).toInt = -spec.fieldWidth.toInt := by
      rw [BitVec.toInt_eq_toNat_cond] at habs hneg
      rw [BitVec.toInt_eq_toNat_cond, BitVec.toInt_eq_toNat_cond, BitVec.toNat_neg]
      split_ifs at habs hneg ⊢ <;> omega
    rw [hnonneg _ (by omega), hflip, Int.natAbs_neg, habs]
  · rw [hnonneg _ (by omega), habs]

/-- What the code makes of the precision. -/
theorem readPrecision_some {x : ℕ} (hx : k.precisionValue args arg = some x) (hlt : x + 1 < 2 ^ 64) :
    k.readPrecision args arg = x := by
  unfold precisionValue at hx
  unfold readPrecision
  cases hp : k.precision with
  | none =>
    rw [hp] at hx
    exact nomatch hx
  | digits ds =>
    rw [hp] at hx
    have hval := Option.some.inj hx
    show toSize _ = x
    rw [hval]
    exact Nat.mod_eq_of_lt (by omega)
  | star =>
    rw [hp] at hx
    simp only at hx
    show (if 0 ≤ (args (k.precisionArg arg)).toInt then _ else 0) = x
    split_ifs at hx ⊢ with h
    exact Option.some.inj hx

theorem readPrecision_none (hq : k.precisionValue args arg = none) :
    k.Dropped args arg ∧ k.readPrecision args arg = 0 ∨
      ¬ k.Dropped args arg ∧ k.readPrecision args arg = sizeMax := by
  unfold Dropped readPrecision
  have hq' := hq
  unfold precisionValue at hq'
  cases hp : k.precision with
  | none => exact .inr ⟨fun h => (nomatch h.1), rfl⟩
  | digits ds =>
    rw [hp] at hq'
    exact nomatch hq'
  | star =>
    rw [hp] at hq'
    simp only at hq'
    refine .inl ⟨⟨rfl, hq⟩, ?_⟩
    show (if 0 ≤ (args (k.precisionArg arg)).toInt then _ else 0) = 0
    split_ifs at hq' ⊢
    rfl

/-! ### The two layouts -/

/-- The code pads on the right. -/
def Right (k : IntConversion) (args : ℕ → BitVec 32) (arg : ℕ) : Prop := k.left args arg = true ∧ ¬ k.Twice args arg

instance : Decidable (k.Right args arg) := inferInstanceAs (Decidable (_ ∧ _))

/-- The code pads with zeros. -/
def ZeroPads (k : IntConversion) (args : ℕ → BitVec 32) (arg : ℕ) : Prop :=
  .zero ∈ k.flags ∧ ¬ k.Right args arg ∧ k.readPrecision args arg = sizeMax

instance : Decidable (k.ZeroPads args arg) := inferInstanceAs (Decidable (_ ∧ _))

/-- The length of what the code pads, as it counts it. -/
def bodyLength (k : IntConversion) (args : ℕ → BitVec 32) (arg : ℕ) : ℕ :=
  toSize ((k.markOf (k.read args arg)).length + k.octalZeros (k.read args arg) +
    if k.readPrecision args arg ≠ sizeMax ∧ (k.intArg args arg).output.length < k.readPrecision args arg then
      k.readPrecision args arg
    else (k.intArg args arg).output.length)

/-- **The code's layout**, for a field width below 2^31. -/
theorem integerText_parts (h : k.widthValue args arg < 2 ^ 31) :
    let w := k.widthValue args arg
    let p := k.readPrecision args arg
    let used := (k.markOf (k.read args arg)).length + k.octalZeros
      (k.read args arg) + (k.intArg args arg).output.length
    PfState.integerText (k.intArg args arg) =
      shape (if k.Right args arg ∨ k.ZeroPads args arg then 0 else w - k.bodyLength args arg)
        (k.markOf (k.read args arg))
        (k.octalZeros (k.read args arg) + (if k.ZeroPads args arg then w - used else 0) +
          if p ≠ sizeMax then p - used else 0)
        (k.intArg args arg).output (if k.Right args arg then w - k.bodyLength args arg else 0) := by
  intro w p used
  have hwidth : (k.intArg args arg).spec.fieldWidth = k.readWidth args arg := by
    cases hs : k.conv.signed <;> simp [intArg, hs, parsed, readWidth]
  have hprec : (k.intArg args arg).spec.precision = p := by
    cases hs : k.conv.signed <;> simp [intArg, hs, parsed, readPrecision, p]
  have hzero : (k.intArg args arg).spec.zeroPad = decide (.zero ∈ k.flags) := by
    cases hs : k.conv.signed <;> simp [intArg, hs, parsed]
  have habs : (k.intArg args arg).spec.absFieldWidth = w := absFieldWidth_eq hwidth h
  have hpre : (k.intArg args arg).pre.length = (k.markOf (k.read args arg)).length + k.octalZeros
    (k.read args arg) := by
    rw [pre_eq, List.length_append, List.length_replicate]
    rfl
  have hnormal : (k.intArg args arg).normalLength = used := by
    unfold IntArg.normalLength
    rw [hpre]
  have hbody : (k.intArg args arg).lengthWithPrecision = k.bodyLength args arg := by
    unfold IntArg.lengthWithPrecision IntArg.outputLengthWithPrecision
    rw [hpre, hprec]
    rfl
  have huse : (k.intArg args arg).usePrecision = decide (p ≠ sizeMax) := by
    unfold IntArg.usePrecision
    rw [hprec]
  rw [integerText_shape, habs, hprec, hnormal, hbody, huse]
  by_cases hw : w = 0
  · -- a field of width 0 is padded nowhere
    rw [hw]
    simp only [Nat.zero_sub, ite_self, decide_eq_true_eq]
  have hsign : 0 ≤ (k.readWidth args arg).toInt ↔ ¬ k.Right args arg := by
    rw [toInt_readWidth h]
    unfold Right
    split_ifs with hr
    · exact iff_of_false (by omega) (not_not.2 hr)
    · exact iff_of_true (by omega) hr
  have hzp : (k.intArg args arg).useZeroPad = true ↔ k.ZeroPads args arg := by
    unfold IntArg.useZeroPad ZeroPads
    rw [hwidth, huse, hzero]
    simp [hsign, p]
  have hleft : (k.intArg args arg).useLeftPad = true ↔ ¬ (k.Right args arg ∨ k.ZeroPads args arg) := by
    unfold IntArg.useLeftPad
    rw [hwidth, not_or, ← hzp]
    simp [hsign, and_comm]
  have hright : (k.intArg args arg).useRightPad = true ↔ k.Right args arg := by
    have hlt : (k.readWidth args arg).toInt < 0 ↔ k.Right args arg := by rw [← not_le, hsign, not_not]
    have hpads : k.Right args arg → (k.intArg args arg).useZeroPad = false := by
      intro hr
      rw [← Bool.not_eq_true, hzp]
      exact fun hz => hz.2.1 hr
    unfold IntArg.useRightPad
    rw [hwidth, decide_eq_true_iff, hlt]
    exact ⟨fun hr => hr.2, fun hr => ⟨by rw [hpads hr]; rfl, hr⟩⟩
  simp only [hzp, hleft, hright, ite_not, decide_eq_true_eq]

/-! ### Lengths -/

theorem length_markOf_le (k : IntConversion) (v : ℤ) : (k.markOf v).length ≤ 3 := by
  unfold markOf
  split_ifs <;> simp

theorem length_numeralOf_pos (k : IntConversion) (v : ℤ) : 0 < (k.numeralOf v).length :=
  List.length_pos_of_ne_nil (k.numeralOf_ne_nil v)

theorem length_numeralOf_le {v : ℤ} (h : v.natAbs < 2 ^ 64) : (k.numeralOf v).length ≤ 64 := by
  have hb := (base_le k.conv).1
  unfold numeralOf digitsOf
  rw [List.length_map]
  split_ifs with h0
  · simp
  · rw [List.length_reverse]
    refine (Nat.digits_length_le_iff hb _).2 (lt_of_lt_of_le h ?_)
    exact Nat.pow_le_pow_left hb 64

/-- A number of the base `o` has no mark. -/
theorem markOf_octal (ho : k.Octal) {v : ℤ} (hv : 0 ≤ v) : k.markOf v = [] := by
  have hconv := ho.1
  unfold markOf
  rw [if_neg (not_lt.2 hv), hconv]
  simp [PfIntConv.signed]

theorem value_nonneg (ho : k.Octal) : 0 ≤ k.value args arg := by
  have hs : k.conv.signed = false := by rw [ho.1]; rfl
  unfold value valueAt
  rw [hs]
  cases k.modifier <;> exact Int.natCast_nonneg _

theorem length_unpadded : (k.unpadded args arg).length = (k.markOf (k.value args arg)).length +
    k.zerosWith (k.value args arg) (k.precisionValue args arg) +
      (k.digitsWith (k.value args arg) (k.precisionValue args arg)).length := by
  rw [unpadded_eq, List.length_append, List.length_append, List.length_replicate, Nat.add_assoc]

theorem read_value (h : k.Fits args arg) : k.read args arg = k.value args arg := (k.readAt_eq args _).2 h.value

theorem natAbs_value (h : k.Fits args arg) : (k.value args arg).natAbs < 2 ^ 64 := by
  rw [← read_value h, ← (k.intArg_read args arg).2]
  exact (k.intArg args arg).value.isLt

/-! ### Texts with a precision -/

section Precision

variable {x : ℕ}

theorem output_some (h : k.Fits args arg) (hq : k.precisionValue args arg = some x) :
    (k.intArg args arg).output = k.digitsWith (k.value args arg) (some x) := by
  rw [output_eq, readPrecision_some hq (h.precision x hq).2, read_value h]
  unfold digitsWith
  simp only [Option.some_inj, and_comm]

/-- **The code's text** with a precision. -/
theorem integerText_some (h : k.Fits args arg) (hq : k.precisionValue args arg = some x) :
    let v := k.value args arg
    let N := k.digitsWith v (some x)
    PfState.integerText (k.intArg args arg) =
      shape (if k.Right args arg then 0 else k.widthValue args arg - k.bodyLength args arg) (k.markOf v)
        (k.octalZeros v + (x - ((k.markOf v).length + k.octalZeros v + N.length))) N
        (if k.Right args arg then k.widthValue args arg - k.bodyLength args arg else 0) := by
  intro v N
  have hp := readPrecision_some hq (h.precision x hq).2
  have hne : k.readPrecision args arg ≠ sizeMax := hp ▸ (h.precision x hq).1
  have hz : ¬ k.ZeroPads args arg := fun hz => hne hz.2.2
  have hparts := integerText_parts h.width
  simp only [hz, or_false, if_false, Nat.add_zero, hne, not_false_eq_true, if_true, ne_eq] at hparts
  rw [hparts, output_some h hq, read_value h, hp]

theorem text_some (hq : k.precisionValue args arg = some x) :
    let v := k.value args arg
    let fill := k.widthValue args arg - (k.unpadded args arg).length
    k.text args arg = shape (if k.left args arg = true then 0 else fill) (k.markOf v) (k.zerosWith v (some x))
      (k.digitsWith v (some x)) (if k.left args arg = true then fill else 0) := by
  intro v fill
  have hparts := k.text_shape args arg
  simp only [hq, reduceCtorEq, and_false, not_false_eq_true, and_true, if_false, Nat.add_zero] at hparts
  rw [hparts]
  congr 1
  by_cases hl : k.left args arg = true <;> simp [hl, fill]

/-- What the code counts, where it does not wrap around. -/
theorem bodyLength_some (h : k.Fits args arg) (hq : k.precisionValue args arg = some x)
    (hlt : (k.markOf (k.value args arg)).length + k.octalZeros (k.value args arg) + x < 2 ^ 64) :
    k.bodyLength args arg = (k.markOf (k.value args arg)).length + k.octalZeros (k.value args arg) +
      max (k.digitsWith (k.value args arg) (some x)).length x := by
  have hp := readPrecision_some hq (h.precision x hq).2
  have hne := (h.precision x hq).1
  have hmark := k.length_markOf_le (k.value args arg)
  have hnum := length_numeralOf_le (k := k) (natAbs_value h)
  have hoct : k.octalZeros (k.value args arg) ≤ 1 := by
    unfold octalZeros
    split_ifs <;> omega
  have hdigits : (k.digitsWith (k.value args arg) (some x)).length ≤ 64 := by
    unfold digitsWith
    split_ifs
    · simp
    · exact hnum
  unfold bodyLength toSize
  rw [output_some h hq, read_value h, hp]
  split_ifs with hcase
  · rw [Nat.mod_eq_of_lt hlt, max_eq_right hcase.2.le]
  · rw [max_eq_left (by omega), Nat.mod_eq_of_lt (by omega)]

end Precision

/-! ### Layouts that are right -/

/-- The code pads on the side that C11 says, but for a negative field width with the flag `-`. -/
theorem right_iff (h : ¬ k.Twice args arg) : k.Right args arg ↔ k.left args arg = true := and_iff_left h

theorem left_of_twice (h : k.Twice args arg) : k.left args arg = true := decide_eq_true (.inl h.1)

theorem length_digitsWith_some (v : ℤ) (x : ℕ) :
    (k.digitsWith v (some x)).length = if v = 0 ∧ x = 0 then 0 else (k.numeralOf v).length := by
  unfold digitsWith
  simp only [Option.some_inj]
  split_ifs <;> rfl

theorem zerosWith_some (v : ℤ) (x : ℕ) : k.zerosWith v (some x) = (x - (k.digitsWith v (some x)).length) +
    if k.Octal ∧ x - (k.digitsWith v (some x)).length = 0 ∧ (v = 0 → x = 0) then 1 else 0 := by
  unfold zerosWith
  simp only [Option.some_inj, Option.getD_some]

/-- The zeros, and what is padded, with a precision. -/
theorem zeros_some {x : ℕ} (h : k.Fits args arg) (hl : k.LaidOut args arg) (hq : k.precisionValue args arg = some x) :
    k.octalZeros (k.value args arg) + (x - ((k.markOf (k.value args arg)).length + k.octalZeros (k.value args arg) +
        (k.digitsWith (k.value args arg) (some x)).length)) = k.zerosWith (k.value args arg) (some x) ∧
      k.widthValue args arg - k.bodyLength args arg = k.widthValue args arg - (k.unpadded args arg).length := by
  have hpos := k.length_numeralOf_pos (k.value args arg)
  have hnum := length_numeralOf_le (k := k) (natAbs_value h)
  have hmarkle := k.length_markOf_le (k.value args arg)
  have hsize := (h.precision x hq).2
  have hn := length_digitsWith_some (k := k) (k.value args arg) x
  have hmark : (k.numeralOf (k.value args arg)).length < x → (k.markOf (k.value args arg)).length = 0 := by
    intro hx
    obtain ⟨hs, hb⟩ := hl.mark x hq hx
    rw [← mark_eq, hs, hb]
    rfl
  have hoctal : k.Octal → (k.markOf (k.value args arg)).length = 0 ∧ (k.value args arg = 0 → x ≠ 0) ∧
      (k.value args arg ≠ 0 → (k.numeralOf (k.value args arg)).length < x → k.widthValue args arg ≤ x) := by
    intro ho
    exact ⟨by rw [markOf_octal ho (value_nonneg ho)]; rfl, hl.octal ho x hq⟩
  have hone : k.value args arg = 0 → (k.numeralOf (k.value args arg)).length = 1 := by
    intro hv
    rw [hv, numeralOf_zero]
    rfl
  have hbody := bodyLength_some h hq
  rw [length_unpadded, hq, zerosWith_some]
  unfold octalZeros at hbody ⊢
  generalize k.value args arg = v at *
  generalize (k.digitsWith v (some x)).length = n at *
  by_cases ho : k.Octal
  · -- octal: `#` adds a 0 only where the precision does not
    obtain ⟨hnil, hzero, hwide⟩ := hoctal ho
    by_cases hv : v = 0
    · -- the value 0, with a precision above it
      have hx := hzero hv
      have h1 := hone hv
      simp only [hv, ne_eq, not_true_eq_false, and_false, if_false] at hbody ⊢
      rw [hv] at hn h1 hnil
      rw [if_neg fun hc => hx hc.2] at hn
      rw [hbody (by omega), if_neg fun hc => hx (hc.2.2 trivial)]
      omega
    · have hwide' := hwide hv
      rw [if_pos ⟨ho, hv⟩] at hbody ⊢
      rw [if_neg fun hc => hv hc.1] at hn
      rw [hbody (by omega)]
      split_ifs with hc
      · omega
      · have hlt : 0 < x - n := by
          by_contra hzero'
          exact hc ⟨ho, by omega, fun h0 => absurd h0 hv⟩
        omega
  · -- every other conversion
    rw [if_neg fun hc => ho hc.1] at hbody ⊢
    have hle : (k.markOf v).length + 0 + x < 2 ^ 64 := by
      by_cases hx : (k.numeralOf v).length < x
      · have hm := hmark hx
        omega
      · omega
    rw [hbody hle, if_neg fun hc => ho hc.1]
    by_cases hx : (k.numeralOf v).length < x
    · have hm := hmark hx
      split_ifs at hn <;> omega
    · split_ifs at hn <;> omega

/-! ### Texts without a precision -/

theorem digitsWith_none (v : ℤ) : k.digitsWith v none = k.numeralOf v := if_neg fun h => nomatch h.2

theorem zerosWith_none (v : ℤ) : k.zerosWith v none = k.octalZeros v := by
  have hpos := k.length_numeralOf_pos v
  have hzero : 1 - (k.numeralOf v).length = 0 := by omega
  unfold zerosWith octalZeros
  rw [digitsWith_none, Option.getD_none, hzero]
  simp

/-- The code omits the digits of the value 0 where it takes a negative precision for 0. -/
theorem output_none (h : k.Fits args arg) (hq : k.precisionValue args arg = none)
    (hv : k.Dropped args arg → k.value args arg ≠ 0) :
    (k.intArg args arg).output = k.numeralOf (k.value args arg) := by
  rw [output_eq, read_value h]
  refine if_neg fun hc => ?_
  rcases readPrecision_none hq with ⟨hdrop, -⟩ | ⟨-, hp⟩
  · exact hv hdrop hc.2
  · exact absurd (hp.symm.trans hc.1) (by decide)

theorem bodyLength_none (h : k.Fits args arg) (hq : k.precisionValue args arg = none)
    (hv : k.Dropped args arg → k.value args arg ≠ 0) : k.bodyLength args arg = (k.unpadded args arg).length := by
  have hmark := k.length_markOf_le (k.value args arg)
  have hnum := length_numeralOf_le (k := k) (natAbs_value h)
  have hoct : k.octalZeros (k.value args arg) ≤ 1 := by
    unfold octalZeros
    split_ifs <;> omega
  have hcase : ¬ (k.readPrecision args arg ≠ sizeMax ∧
    (k.intArg args arg).output.length < k.readPrecision args arg) := by
    rintro ⟨hne, hlt⟩
    rcases readPrecision_none hq with ⟨-, hp⟩ | ⟨-, hp⟩
    · omega
    · exact hne hp
  unfold bodyLength toSize
  rw [if_neg hcase, output_none h hq hv, read_value h, Nat.mod_eq_of_lt (by omega), length_unpadded, hq,
    zerosWith_none, digitsWith_none]

/-- **The code's text** without a precision. -/
theorem integerText_none' (h : k.Fits args arg) (hq : k.precisionValue args arg = none)
    (hv : k.Dropped args arg → k.value args arg ≠ 0) :
    let v := k.value args arg
    let fill := k.widthValue args arg - (k.unpadded args arg).length
    PfState.integerText (k.intArg args arg) = shape (if k.Right args arg ∨ k.ZeroPads args arg then 0 else fill)
      (k.markOf v)
      (k.octalZeros v + if k.ZeroPads args arg then fill else 0) (k.numeralOf v)
        (if k.Right args arg then fill else 0) := by
  intro v fill
  have hparts := integerText_parts h.width
  have hused : (k.markOf v).length + k.octalZeros v + (k.numeralOf v).length = (k.unpadded args arg).length := by
    rw [length_unpadded, hq, zerosWith_none, digitsWith_none]
  have hzero : (if k.readPrecision args arg ≠ sizeMax then
      k.readPrecision args arg - (k.unpadded args arg).length else 0) = 0 := by
    rcases readPrecision_none hq with ⟨-, hp⟩ | ⟨-, hp⟩
    · rw [hp, Nat.zero_sub, ite_self]
    · exact if_neg (not_not.2 hp)
  simp only [output_none h hq hv, read_value h, bodyLength_none h hq hv] at hparts
  rw [hparts]
  show shape _ _ (_ + (if _ then _ - ((k.markOf v).length + k.octalZeros v + (k.numeralOf v).length) else 0) +
    (if _ then _ - ((k.markOf v).length + k.octalZeros v + (k.numeralOf v).length) else 0)) _ _ = _
  rw [hused, hzero, Nat.add_zero]

theorem text_none (hq : k.precisionValue args arg = none) :
    let v := k.value args arg
    let fill := k.widthValue args arg - (k.unpadded args arg).length
    let zeroPad := k.left args arg = false ∧ .zero ∈ k.flags
    k.text args arg = shape (if k.left args arg = true ∨ zeroPad then 0 else fill) (k.markOf v)
      (k.octalZeros v + if zeroPad then fill else 0) (k.numeralOf v)
        (if k.left args arg = true then fill else 0) := by
  intro v fill zeroPad
  have hparts := k.text_shape args arg
  simp only [hq, and_true, zerosWith_none, digitsWith_none] at hparts
  rw [hparts]
  congr 1
  by_cases hl : k.left args arg = true
  · have hz : ¬ zeroPad := fun hz => absurd (hl.symm.trans hz.1) (by decide)
    simp [hl]
  · have hfalse := Bool.eq_false_iff.2 hl
    by_cases hz : .zero ∈ k.flags <;> simp [hfalse, hz, zeroPad, fill]

/-! ### The layouts agree -/

/-- A text of blanks only. -/
theorem text_blank (h : k.Fits args arg) (ht : k.Twice args arg) (hb : ∀ c ∈ k.unpadded args arg, c = ch ' ') :
    PfState.integerText (k.intArg args arg) = k.text args arg := by
  have hunpadded := k.unpadded_eq args arg
  -- a digit would not be a blank
  have hdigits : k.digitsWith (k.value args arg) (k.precisionValue args arg) = [] := by
    by_contra hne
    obtain ⟨c, l, hl⟩ := List.exists_cons_of_ne_nil hne
    have hc : c = ch ' ' := hb c (by rw [hunpadded, hl]; simp)
    have hmem : c ∈ k.numeralOf (k.value args arg) := by
      unfold digitsWith at hl
      split_ifs at hl with hz
      rw [hl]
      exact List.mem_cons_self
    exact k.blank_not_mem_numeralOf _ (hc ▸ hmem)
  -- nor would a zero
  have hzeros : k.zerosWith (k.value args arg) (k.precisionValue args arg) = 0 := by
    by_contra hne
    obtain ⟨n, hn⟩ := Nat.exists_eq_succ_of_ne_zero hne
    have hc : ch '0' = ch ' ' := hb (ch '0') (by rw [hunpadded, hn]; simp [List.replicate_succ])
    exact absurd hc (by decide)
  obtain ⟨hv, hq⟩ : k.value args arg = 0 ∧ k.precisionValue args arg = some 0 := by
    unfold digitsWith at hdigits
    split_ifs at hdigits with hz
    · exact hz
    · exact absurd hdigits (k.numeralOf_ne_nil _)
  have hnot : ¬ k.Right args arg := fun hr => hr.2 ht
  have hmark : k.markOf (k.value args arg) = List.replicate (k.markOf (k.value args arg)).length (ch ' ') :=
    List.eq_replicate_iff.2 ⟨rfl, fun c hc => hb c (by rw [hunpadded]; exact List.mem_append_left _ hc)⟩
  have hoct : k.octalZeros (k.value args arg) = 0 := if_neg fun hc => hc.2 hv
  have hmarkle := k.length_markOf_le (k.value args arg)
  rw [hq] at hdigits hzeros
  have hbody := bodyLength_some h hq (by omega)
  have hlen : (k.unpadded args arg).length = (k.markOf (k.value args arg)).length := by
    rw [length_unpadded, hq, hzeros, hdigits, List.length_nil]
    rfl
  rw [hoct, hdigits, List.length_nil] at hbody
  rw [integerText_some h hq, text_some hq, hoct, hdigits, hzeros, if_neg hnot, if_neg hnot, hlen, hbody,
    left_of_twice ht]
  simp only [if_true, Nat.zero_sub, Nat.add_zero, max_self]
  rw [hmark]
  simp only [shape, List.length_replicate, List.replicate_zero, List.append_nil, List.nil_append,
    List.replicate_append_replicate]
  rw [Nat.add_comm]

/-- **A right layout** gives the text of C11. -/
theorem text_of_laidOut (h : k.Fits args arg) (hl : k.LaidOut args arg) :
    PfState.integerText (k.intArg args arg) = k.text args arg := by
  by_cases hblank : k.Twice args arg ∧ ∀ c ∈ k.unpadded args arg, c = ch ' '
  · exact text_blank h hblank.1 hblank.2
  -- otherwise the sides agree, or there is nothing to pad
  have hside : ¬ k.Twice args arg ∨ k.widthValue args arg - (k.unpadded args arg).length = 0 := by
    by_cases ht : k.Twice args arg
    · have hw := (hl.minus ht).resolve_right fun hb => hblank ⟨ht, hb⟩
      exact .inr (by omega)
    · exact .inl ht
  cases hq : k.precisionValue args arg with
  | some x =>
    obtain ⟨hzeros, hfill⟩ := zeros_some h hl hq
    rw [integerText_some h hq, text_some hq, hzeros, hfill]
    rcases hside with ht | h0
    · simp only [right_iff ht]
    · rw [h0]
      simp only [ite_self]
  | none =>
    have hv : k.Dropped args arg → k.value args arg ≠ 0 := fun hd => (hl.star hd).1
    rw [integerText_none' h hq hv, text_none hq]
    rcases hside with ht | h0
    swap
    · simp only [h0, ite_self]
    have hright := right_iff ht
    have hleft : ¬ k.Right args arg ↔ k.left args arg = false := by rw [hright, Bool.not_eq_true]
    rcases readPrecision_none hq with ⟨hdrop, hp⟩ | ⟨-, hp⟩
    · -- a negative precision
      have hz : ¬ k.ZeroPads args arg := fun hz => absurd (hp.symm.trans hz.2.2) (by decide)
      by_cases hpad : k.left args arg = false ∧ .zero ∈ k.flags
      · have h0 : k.widthValue args arg - (k.unpadded args arg).length = 0 :=
          Nat.sub_eq_zero_of_le ((hl.star hdrop).2 hpad.2 hpad.1)
        simp only [h0, ite_self]
      · simp only [hz, hpad, or_false, if_false, hright]
    · have hz : k.ZeroPads args arg ↔ k.left args arg = false ∧ .zero ∈ k.flags := by
        unfold ZeroPads
        rw [hleft, hp]
        tauto
      simp only [hz, hright]

/-! ### Only right layouts do -/

theorem zeros_of_text {x : ℕ} (h : k.Fits args arg) (hq : k.precisionValue args arg = some x)
    (heq : PfState.integerText (k.intArg args arg) = k.text args arg) :
    k.octalZeros (k.value args arg) + (x - ((k.markOf (k.value args arg)).length + k.octalZeros (k.value args arg) +
      (k.digitsWith (k.value args arg) (some x)).length)) = k.zerosWith (k.value args arg) (some x) := by
  have hcount := congrArg (List.count (ch '0')) heq
  rw [integerText_some h hq, text_some hq, count_zero_shape, count_zero_shape] at hcount
  omega

theorem blank_not_mem_digitsWith (v : ℤ) (q : Option ℕ) : ch ' ' ∉ k.digitsWith v q := by
  unfold digitsWith
  split_ifs
  · exact List.not_mem_nil
  · exact k.blank_not_mem_numeralOf v

theorem fill_of_text {x : ℕ} (h : k.Fits args arg) (hq : k.precisionValue args arg = some x)
    (heq : PfState.integerText (k.intArg args arg) = k.text args arg) :
    k.widthValue args arg - k.bodyLength args arg = k.widthValue args arg - (k.unpadded args arg).length := by
  have hcount := congrArg (List.count (ch ' ')) heq
  rw [integerText_some h hq, text_some hq, count_blank_shape (blank_not_mem_digitsWith _ _),
    count_blank_shape (blank_not_mem_digitsWith _ _)] at hcount
  split_ifs at hcount <;> omega

/-- A negative precision. -/
theorem star_of_text (h : k.Fits args arg) (heq : PfState.integerText (k.intArg args arg) = k.text args arg)
    (hdrop : k.Dropped args arg) : k.value args arg ≠ 0 ∧
      (.zero ∈ k.flags → k.left args arg = false → k.widthValue args arg ≤ (k.unpadded args arg).length) := by
  have hq := hdrop.2
  have hp : k.readPrecision args arg = 0 := by
    rcases readPrecision_none hq with ⟨-, hp⟩ | ⟨hnot, -⟩
    · exact hp
    · exact absurd hdrop hnot
  have hz : ¬ k.ZeroPads args arg := fun hz => absurd (hp.symm.trans hz.2.2) (by decide)
  have hcount := congrArg (List.count (ch '0')) heq
  have hv : k.value args arg ≠ 0 := by
    intro hv
    -- the code writes no digit
    have hout : (k.intArg args arg).output = [] := by rw [output_eq, hp, read_value h, hv, if_pos ⟨rfl, rfl⟩]
    have hoct : k.octalZeros (k.value args arg) = 0 := if_neg fun hc => hc.2 hv
    have hnum : (k.numeralOf (k.value args arg)).count (ch '0') = 1 := by
      rw [hv, numeralOf_zero]
      exact List.count_singleton_self ..
    rw [integerText_parts h.width, text_none hq, count_zero_shape, count_zero_shape] at hcount
    simp only [read_value h, hp, hout, hz, hoct, hnum, if_false, Nat.zero_sub, ite_self, List.count_nil,
      Nat.add_zero] at hcount
    omega
  refine ⟨hv, fun hflag hleft => ?_⟩
  rw [integerText_none' h hq fun _ => hv, text_none hq, count_zero_shape, count_zero_shape, if_neg hz,
    if_pos ⟨hleft, hflag⟩] at hcount
  omega

/-- The flag `#` of `o`. -/
theorem octal_of_text (h : k.Fits args arg) (heq : PfState.integerText (k.intArg args arg) = k.text args arg)
    (ho : k.Octal) {x : ℕ} (hq : k.precisionValue args arg = some x) : (k.value args arg = 0 → x ≠ 0) ∧
      (k.value args arg ≠ 0 → (k.numeralOf (k.value args arg)).length < x → k.widthValue args arg ≤ x) := by
  have hzeros := zeros_of_text h hq heq
  have hfill := fill_of_text h hq heq
  have hnil : (k.markOf (k.value args arg)).length = 0 := by rw [markOf_octal ho (value_nonneg ho)]; rfl
  have hsize := (h.precision x hq).2
  have hn := length_digitsWith_some (k := k) (k.value args arg) x
  constructor
  · rintro hv rfl
    have hoct : k.octalZeros (k.value args arg) = 0 := if_neg fun hc => hc.2 hv
    rw [hoct, zerosWith_some, if_pos ⟨ho, Nat.zero_sub _, fun _ => rfl⟩] at hzeros
    omega
  · intro hv hx
    have hoct : k.octalZeros (k.value args arg) = 1 := if_pos ⟨ho, hv⟩
    have hbody := bodyLength_some h hq (by omega)
    rw [if_neg fun hc => hv hc.1] at hn
    rw [hbody, length_unpadded, hq, zerosWith_some, hnil, hoct, hn, if_neg (by omega)] at hfill
    omega

/-- A sign or a mark of the base. -/
theorem mark_of_text (h : k.Fits args arg) (heq : PfState.integerText (k.intArg args arg) = k.text args arg) {x : ℕ}
    (hq : k.precisionValue args arg = some x) (hx : (k.numeralOf (k.value args arg)).length < x) :
    k.markOf (k.value args arg) = [] := by
  by_cases ho : k.Octal
  · exact markOf_octal ho (value_nonneg ho)
  have hzeros := zeros_of_text h hq heq
  have hpos := k.length_numeralOf_pos (k.value args arg)
  have hn := length_digitsWith_some (k := k) (k.value args arg) x
  have hoct : k.octalZeros (k.value args arg) = 0 := if_neg fun hc => ho hc.1
  rw [if_neg (by omega)] at hn
  rw [hoct, zerosWith_some, if_neg fun hc => ho hc.1, hn] at hzeros
  exact List.length_eq_zero_iff.1 (by omega)

/-- The text ends with a blank if it is padded on the right only. -/
theorem getLast_shape {A Z C : ℕ} {M N : List UInt8} (hC : 0 < C) : (shape A M Z N C).getLast? = some (ch ' ') := by
  have hsplit : shape A M Z N C = (List.replicate A (ch ' ') ++ M ++ List.replicate Z (ch '0') ++ N) ++
    List.replicate C (ch ' ') := by
    simp [shape]
  obtain ⟨n, rfl⟩ := Nat.exists_eq_succ_of_ne_zero hC.ne'
  rw [hsplit, List.replicate_succ', ← List.append_assoc, List.getLast?_concat]

/-- A negative field width with the flag `-`. -/
theorem minus_of_text (h : k.Fits args arg) (heq : PfState.integerText (k.intArg args arg) = k.text args arg)
    (ht : k.Twice args arg) :
    k.widthValue args arg ≤ (k.unpadded args arg).length ∨ ∀ c ∈ k.unpadded args arg, c = ch ' ' := by
  by_contra hboth
  obtain ⟨hw, hblank⟩ := not_or.1 hboth
  have hnot : ¬ k.Right args arg := fun hr => hr.2 ht
  have hright : (k.text args arg).getLast? = some (ch ' ') := by
    rw [text_shape, left_of_twice ht, if_pos rfl]
    exact getLast_shape (by omega)
  rw [← heq, integerText_parts h.width, if_neg hnot] at hright
  by_cases hout : (k.intArg args arg).output = []
  · -- the value 0 with the precision 0
    have hcase : k.readPrecision args arg = 0 ∧ k.value args arg = 0 := by
      rw [output_eq, read_value h] at hout
      split_ifs at hout with hc
      · exact hc
      · exact absurd hout (k.numeralOf_ne_nil _)
    obtain ⟨x, hq⟩ : ∃ x, k.precisionValue args arg = some x := by
      cases hq : k.precisionValue args arg with
      | some x => exact ⟨x, rfl⟩
      | none =>
        rcases readPrecision_none hq with ⟨hdrop, -⟩ | ⟨-, hp⟩
        · exact absurd hcase.2 (star_of_text h heq hdrop).1
        · exact absurd (hp.symm.trans hcase.1) (by decide)
    have hx : x = 0 := (readPrecision_some hq (h.precision x hq).2).symm.trans hcase.1
    have ho : ¬ k.Octal := fun ho => (octal_of_text h heq ho hq).1 hcase.2 hx
    have hunpadded : k.unpadded args arg = k.markOf (k.value args arg) := by
      rw [unpadded_eq, hq, hx, zerosWith_some, if_neg fun hc => ho hc.1]
      simp [digitsWith, hcase.2]
    have hoct : k.octalZeros (k.value args arg) = 0 := if_neg fun hc => ho hc.1
    have hz : ¬ k.ZeroPads args arg := fun hz => absurd (hcase.1.symm.trans hz.2.2) (by decide)
    -- only a plus sign is there
    have hplus : k.markOf (k.value args arg) = [ch '+'] := by
      rw [hunpadded] at hblank
      unfold markOf at hblank ⊢
      rw [hcase.2] at hblank ⊢
      simp only [lt_self_iff_false, if_false, ne_eq, not_true_eq_false, and_false, List.append_nil] at hblank ⊢
      split_ifs at hblank ⊢ <;> simp at hblank ⊢
    simp only [read_value h, hcase.1, hout, hz, hoct, hplus, Nat.zero_sub, ite_self, if_false, Nat.add_zero] at hright
    simp only [shape, List.replicate_zero, List.append_nil, List.getLast?_concat] at hright
    exact absurd (Option.some.inj hright) (by decide)
  · have hlast : ∀ (A Z : ℕ) (M : List UInt8), (shape A M Z (k.intArg args arg).output 0).getLast? =
        (k.intArg args arg).output.getLast? := by
      intro A Z M
      have hsplit : shape A M Z (k.intArg args arg).output 0 =
          (List.replicate A (ch ' ') ++ M ++ List.replicate Z (ch '0')) ++ (k.intArg args arg).output := by
        simp [shape]
      rw [hsplit, List.getLast?_append_of_ne_nil _ hout]
    rw [hlast] at hright
    have hmem := List.mem_of_getLast? hright
    rw [output_eq] at hmem
    split_ifs at hmem
    · exact absurd hmem List.not_mem_nil
    · exact k.blank_not_mem_numeralOf _ hmem

/-- **The layouts that are right** are those of `LaidOut`. -/
theorem integerText_iff (h : k.Fits args arg) :
    PfState.integerText (k.intArg args arg) = k.text args arg ↔ k.LaidOut args arg := by
  refine ⟨fun heq => ⟨?_, ?_, star_of_text h heq, minus_of_text h heq⟩, text_of_laidOut h⟩
  · intro x hq hx
    have hmark := mark_of_text h heq hq hx
    rw [← mark_eq] at hmark
    exact List.append_eq_nil_iff.1 hmark
  · intro ho x hq
    exact octal_of_text h heq ho hq

/-! ### What a text says about its value -/

/-- The value of a digit of either case. -/
def hexDigit (c : UInt8) : Option ℕ :=
  if c ∈ lowerDigits then some (lowerDigits.idxOf c) else if c ∈ upperDigits then some (upperDigits.idxOf c) else none

theorem hexDigit_digit (c : PfIntConv) {d : ℕ} (hd : d < 16) : hexDigit (c.digits.getD d 0) = some d := by
  cases c <;> interval_cases d <;> rfl

/-- The number that the digits of a text give. -/
def numberIn (base : ℕ) (l : List UInt8) : ℕ := (l.filterMap hexDigit).foldl (fun v d => v * base + d) 0

/-- The marks and zeros of a text do not count. -/
theorem numberIn_shape {A Z C : ℕ} {v : ℤ} {N : List UInt8} (hN : N = k.numeralOf v ∨ N = [] ∧ v = 0) :
    numberIn k.conv.base (shape A (k.markOf v) Z N C) = v.natAbs := by
  have hb := base_le k.conv
  have hblanks : ∀ n, (List.replicate n (ch ' ')).filterMap hexDigit = [] := by
    intro n
    induction n with
    | zero => rfl
    | succ n ih => rw [List.replicate_succ, List.filterMap_cons_none (by rfl), ih]
  have hzeros : ∀ n, ((List.replicate n (ch '0')).filterMap hexDigit).foldl
      (fun v d => v * k.conv.base + d) 0 = 0 := by
    intro n
    induction n with
    | zero => rfl
    | succ n ih =>
      rw [List.replicate_succ, List.filterMap_cons_some (show hexDigit (ch '0') = some 0 from rfl),
        List.foldl_cons, Nat.zero_mul, Nat.zero_add, ih]
  have hmark : ((k.markOf v).filterMap hexDigit).foldl (fun v d => v * k.conv.base + d) 0 = 0 := by
    have hx : k.conv = .x ∨ k.conv = .X → hexDigit k.conv.char = none := by
      rintro (h | h) <;> rw [h] <;> rfl
    have hplain : hexDigit (ch '-') = none ∧ hexDigit (ch '+') = none ∧ hexDigit (ch ' ') = none ∧
      hexDigit (ch '0') = some 0 :=
      ⟨rfl, rfl, rfl, rfl⟩
    unfold markOf
    rw [List.filterMap_append, List.foldl_append]
    split_ifs with h1 h2 h3 h4 h5 <;> simp [*]
  have hdigits : ((k.numeralOf v).filterMap hexDigit).foldl (fun v d => v * k.conv.base + d) 0 = v.natAbs := by
    have hmap : (k.numeralOf v).filterMap hexDigit = digitsOf k.conv.base v.natAbs := by
      unfold numeralOf
      rw [List.filterMap_map]
      conv_rhs => rw [← List.filterMap_some (l := digitsOf k.conv.base v.natAbs)]
      refine List.filterMap_congr fun d hd => ?_
      have hlt := digitsOf_lt hb.1 hd
      exact hexDigit_digit k.conv (by omega)
    rw [hmap, foldl_digitsOf hb.1]
  unfold numberIn shape
  simp only [List.filterMap_append, List.foldl_append, hblanks, List.foldl_nil, hmark, hzeros]
  -- the numeral itself, or nothing for the value 0
  rcases hN with rfl | ⟨rfl, rfl⟩
  · exact hdigits
  · rfl

/-- A minus sign is there for negative values only. -/
theorem minus_mem_shape {A Z C : ℕ} {v : ℤ} {N : List UInt8} (hN : N = k.numeralOf v ∨ N = [] ∧ v = 0) :
    ch '-' ∈ shape A (k.markOf v) Z N C ↔ v < 0 := by
  have hN' : ch '-' ∉ N := by
    rcases hN with rfl | ⟨rfl, -⟩
    · intro h
      obtain ⟨d, hd, heq⟩ := mem_numeralOf h
      exact (digit_char k.conv hd).2.1 heq.symm
    · exact List.not_mem_nil
  have hother : ch '-' ≠ ch ' ' ∧ ch '-' ≠ ch '0' ∧ ch '-' ≠ ch '+' := by decide
  have hchar : ch '-' ≠ k.conv.char := by
    cases k.conv <;> decide
  have hmark : ch '-' ∈ k.markOf v ↔ v < 0 := by
    unfold markOf
    split_ifs <;> simp_all
  unfold shape
  simp only [List.mem_append, List.mem_replicate, hmark, hN', hother.1, hother.2.1, and_false, false_or, or_false]

/-- **A text determines its value.** -/
theorem read_of_text (heq : PfState.integerText (k.intArg args arg) = k.text args arg) :
    k.read args arg = k.value args arg := by
  have hcode : (k.intArg args arg).output = k.numeralOf (k.read args arg) ∨
      (k.intArg args arg).output = [] ∧ k.read args arg = 0 := by
    rw [output_eq]
    split_ifs with h
    · exact .inr ⟨rfl, h.2⟩
    · exact .inl rfl
  have htext : k.digitsWith (k.value args arg) (k.precisionValue args arg) = k.numeralOf (k.value args arg) ∨
      k.digitsWith (k.value args arg) (k.precisionValue args arg) = [] ∧ k.value args arg = 0 := by
    unfold digitsWith
    split_ifs with h
    · exact .inr ⟨rfl, h.1⟩
    · exact .inl rfl
  rw [integerText_shape, text_shape] at heq
  have hnumber := congrArg (numberIn k.conv.base) heq
  rw [numberIn_shape hcode, numberIn_shape htext] at hnumber
  have hsign : k.read args arg < 0 ↔ k.value args arg < 0 := by
    rw [← minus_mem_shape hcode, heq, minus_mem_shape htext]
  omega

/-! ### A conversion in a format -/

theorem length_text (k : IntConversion) (args : ℕ → BitVec 32) (arg : ℕ) :
    (k.text args arg).length = max (k.widthValue args arg) (k.unpadded args arg).length := by
  unfold text
  simp only
  have hunpadded : (k.unpadded args arg).length = (k.sign args arg).length + (k.baseMark args arg).length +
      (k.allDigits args arg).length := by
    unfold unpadded
    rw [List.length_append, List.length_append]
  split_ifs <;> simp only [List.length_append, List.length_replicate] <;> omega

/-- A number below 2^31 has few digits. -/
theorem short_width (h : k.widthValue args arg < 2 ^ 31) : k.width.Short := by
  unfold widthValue at h
  cases hw : k.width with
  | none => exact trivial
  | number w h0 =>
    rw [hw] at h
    have h' : w < 2 ^ 31 := h
    show (digitsOf 10 w).length < maxFormatScan
    unfold digitsOf
    rw [if_neg (by omega), List.length_reverse]
    have hle : (Nat.digits 10 w).length ≤ 10 := (Nat.digits_length_le_iff (by norm_num) w).2 (by omega)
    exact lt_of_le_of_lt hle (by decide)
  | star => exact trivial

variable {ops : FloatOps} {s s' : PfState} {rest : List UInt8}

theorem step_parse (hf : s.format = k.chars ++ rest) (hr : s.rejectedBadSpecifier = false) : s.step args ops =
    match parseSpec args (k.chars.tail ++ rest) s.arg with
    | none => .fail
    | some (spec, format, arg) =>
      match format with
      | [] => { s with arg := arg }.literal s.format
      | conv :: rest => { s with format := rest, arg := arg }.convert args ops s.format spec conv := by
  have htail : s.format = ch '%' :: (k.chars.tail ++ rest) := hf
  have hsecond : s.format[1]? ≠ some (ch '%') := by
    obtain ⟨c, r', hwidth, -, hc⟩ := k.exists_width rest
    have hchars : k.chars.tail ++ rest = k.flags.map PfFlag.char ++ c :: r' := by
      rw [← hwidth]
      simp [chars]
    rw [htail, hchars]
    cases hflags : k.flags with
    | nil => exact fun h => hc (Option.some.inj h)
    | cons f flags =>
      intro h
      have hf : f.char = ch '%' := Option.some.inj h
      cases f <;> exact absurd hf (by decide)
  have hrest : s.format.tail = k.chars.tail ++ rest := by
    rw [htail]
    rfl
  unfold PfState.step
  rw [if_neg (by rw [htail]; simp), if_neg hsecond, hr, if_neg Bool.false_ne_true]
  generalize s.format.tail = l at hrest ⊢
  subst hrest
  rfl

/-- **A pass** at a conversion whose numbers do not have too many digits. -/
theorem step_writes (args : ℕ → BitVec 32) (ops : FloatOps) (hf : s.format = k.chars ++ rest)
    (hr : s.rejectedBadSpecifier = false) (hw : k.width.Short)
    (hp : k.precision.Short) : ∃ s', (s.step args ops).Writes (PfState.integerText (k.intArg args s.arg)) s' := by
  obtain ⟨⟨n, hn⟩, -⟩ := k.intArg_read args s.arg
  have hmem : k.conv.char ∈ [ch 'd', ch 'i', ch 'o', ch 'u', ch 'x', ch 'X', ch 'p'] := by
    cases k.conv <;> simp [PfIntConv.char]
  rw [step_parse hf hr, k.parseSpec_chars hw hp]
  simp only
  unfold PfState.convert
  rw [if_pos hmem]
  simp only
  rw [hn]
  exact ⟨_, PfState.puts_integer _ _⟩

/-- A pass at a conversion with too many digits. -/
theorem step_long (args : ℕ → BitVec 32) (ops : FloatOps) (hf : s.format = k.chars ++ rest)
    (hr : s.rejectedBadSpecifier = false) (hw : k.width.Short)
    (hp : ¬ k.precision.Short) : (s.step args ops).result = none := by
  rw [step_parse hf hr, k.parseSpec_long hw hp]
  rfl

/-- **Integer conversions and C11.** A conversion specification, wherever a pass of the loop meets it, is printed
as C11 says if its numbers fit and its layout is one of those that the code gets right; and only then, for texts
that are not too long to be counted. -/
theorem int_conversion_exact (hf : s.format = k.chars ++ rest) (hr : s.rejectedBadSpecifier = false) :
    (k.Fits args s.arg ∧ k.LaidOut args s.arg → ∃ s', (s.step args ops).Writes (k.text args s.arg) s') ∧
      ((k.text args s.arg).length < int32Max → (∃ s', (s.step args ops).Writes (k.text args s.arg) s') →
        k.Fits args s.arg ∧ k.LaidOut args s.arg) := by
  constructor
  · rintro ⟨hfits, hlaid⟩
    obtain ⟨s', hs'⟩ := step_writes args ops hf hr (short_width hfits.width) hfits.digits
    rw [text_of_laidOut hfits hlaid] at hs'
    exact ⟨s', hs'⟩
  · rintro hlen ⟨s', hs'⟩
    have hmax : int32Max = 2147483647 := rfl
    have hsize : sizeMax = 2147483647 := rfl
    rw [length_text] at hlen
    have hwidth : k.widthValue args s.arg < 2 ^ 31 := by omega
    have hdigits : k.precision.Short := by
      by_contra hp
      have hnone := step_long args ops hf hr (short_width hwidth) hp
      exact nomatch hs'.result.symm.trans hnone
    obtain ⟨s'', hs''⟩ := step_writes args ops hf hr (short_width hwidth) hdigits
    have heq : PfState.integerText (k.intArg args s.arg) = k.text args s.arg := hs''.output.symm.trans hs'.output
    have hfits : k.Fits args s.arg := by
      refine ⟨hwidth, hdigits, fun x hq => ?_, (k.readAt_eq args _).1 (read_of_text heq)⟩
      have hx : x ≤ (k.unpadded args s.arg).length := by
        rw [length_unpadded, hq, zerosWith_some]
        omega
      omega
    exact ⟨hfits, (integerText_iff hfits).1 heq⟩

/-- `"%5d"` of 7. -/
theorem int_conversion_exact_short :
    ∃ s', (PfState.step (fun _ => 7) noFloat ⟨[ch '%', ch '5', ch 'd'], 0, fun _ => 0, 0, false⟩).Writes
      [ch ' ', ch ' ', ch ' ', ch ' ', ch '7'] s' := by
  let k : IntConversion := ⟨[], .number 5 (by omega), .none, .none, .d⟩
  have hchars : [ch '%', ch '5', ch 'd'] = k.chars ++ [] := by decide +kernel
  have htext : k.text (fun _ => 7) 0 = [ch ' ', ch ' ', ch ' ', ch ' ', ch '7'] := by decide +kernel
  have hfits : k.Fits (fun _ => 7) 0 := ⟨by decide, trivial, fun _ h => (nomatch h), trivial⟩
  have hlaid : k.LaidOut (fun _ => 7) 0 :=
    ⟨fun _ h => (nomatch h), fun ho => (nomatch ho.1), fun hd => (nomatch hd.1), fun ht => (nomatch ht.1)⟩
  rw [← htext]
  exact (int_conversion_exact hchars rfl).1 ⟨hfits, hlaid⟩

/-- `%+.3d`. -/
def plusThree : IntConversion := ⟨[.plus], .none, .digits [3], .none, .d⟩

/-- **`"%+.3d"` of 5** is printed as `+05`, and not as `+005`. -/
theorem int_conversion_sign : plusThree.chars = [ch '%', ch '+', ch '.', ch '3', ch 'd'] ∧
    (vcbprintf (fun _ => 5) noFloat (fun _ => 0) plusThree.chars).run Calls.accept [] =
      (some (3, fun _ => 0), [ch '+', ch '0', ch '5']) ∧
    plusThree.text (fun _ => 5) 0 = [ch '+', ch '0', ch '0', ch '5'] :=
  ⟨rfl, rfl, by decide +kernel⟩

end IntConversion

end Saynaa
