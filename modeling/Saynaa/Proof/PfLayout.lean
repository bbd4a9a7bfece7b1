import Saynaa.Proof.PfInteger
import Saynaa.Proof.PfParse

/-!
# The layout of an integer conversion

* `shape`: blanks, a sign and a mark of the base, zeros, digits, and blanks again. Such a text determines its parts.
* `IntConversion.read`: the argument as the code reads it.
* `integerText_shape`, `text_shape`: the parts of what the code writes, and of what C11 says.
-/

namespace Saynaa

open Lib

variable {args : ℕ → BitVec 32} {arg i A A' Z Z' C C' : ℕ} {mark mark' N N' : List UInt8} {k : IntConversion}

/-! ### Texts -/

/-- Blanks, a mark, zeros, digits and blanks. -/
def shape (A : ℕ) (mark : List UInt8) (Z : ℕ) (N : List UInt8) (C : ℕ) : List UInt8 :=
  List.replicate A (ch ' ') ++ (mark ++ (List.replicate Z (ch '0') ++ (N ++ List.replicate C (ch ' '))))

theorem count_zero_shape : (shape A mark Z N C).count (ch '0') = mark.count (ch '0') + Z + N.count (ch '0') := by
  have hne : ch ' ' ≠ ch '0' := by decide
  simp only [shape, List.count_append, List.count_replicate_self, List.count_replicate, beq_eq_false_iff_ne.2 hne]
  simp
  omega

theorem count_blank_shape (hN : ch ' ' ∉ N) : (shape A mark Z N C).count (ch ' ') = A + mark.count (ch ' ') + C := by
  have hne : ch '0' ≠ ch ' ' := by decide
  simp only [shape, List.count_append, List.count_replicate_self, List.count_replicate, beq_eq_false_iff_ne.2 hne,
    List.count_eq_zero_of_not_mem hN]
  simp
  omega

/-! ### Arguments -/

namespace IntConversion

/-- The argument at `i` as the code reads it: `hh` and `h` do not convert it, and `t` always takes a signed one. -/
def readAt (k : IntConversion) (args : ℕ → BitVec 32) (i : ℕ) : ℤ :=
  match k.conv.signed, k.modifier with
  | true, .hh | true, .h | true, .none | true, .l | true, .t => (args i).toInt
  | true, .ll | true, .j | true, .z => (vaArg64 args i).toInt
  | false, .hh | false, .h | false, .none | false, .l => (args i).toNat
  | false, .t => ((args i).signExtend 64).toNat
  | false, .ll | false, .j | false, .z => (vaArg64 args i).toNat

def read (k : IntConversion) (args : ℕ → BitVec 32) (arg : ℕ) : ℤ := k.readAt args (k.valueArg arg)

/-- What the code prints. -/
def intArg (k : IntConversion) (args : ℕ → BitVec 32) (arg : ℕ) : IntArg where
  spec := if k.conv.signed then k.parsed args arg
    else { k.parsed args arg with prependBlank := false, prependPlus := false }
  conversion := k.conv.char
  negative := k.read args arg < 0
  value := BitVec.ofNat 64 (k.read args arg).natAbs

theorem vaSigned_read (args : ℕ → BitVec 32) (hs : k.conv.signed = true) (i : ℕ) :
    ∃ v n, vaSigned args k.modifier.length i = some (v, n) ∧ v.toInt = k.readAt args i := by
  have hext : ((args i).signExtend 64).toInt = (args i).toInt := BitVec.toInt_signExtend_of_le (by norm_num)
  unfold readAt
  rw [hs]
  cases k.modifier with
  | hh => exact ⟨_, _, rfl, hext⟩
  | h => exact ⟨_, _, rfl, hext⟩
  | none => exact ⟨_, _, rfl, hext⟩
  | l => exact ⟨_, _, rfl, hext⟩
  | ll => exact ⟨_, _, rfl, rfl⟩
  | j => exact ⟨_, _, rfl, rfl⟩
  | z => exact ⟨_, _, rfl, rfl⟩
  | t => exact ⟨_, _, rfl, hext⟩

theorem vaUnsigned_read (args : ℕ → BitVec 32) (hs : k.conv.signed = false) (i : ℕ) :
    ∃ v n, vaUnsigned args k.modifier.length i = some (v, n) ∧ (v.toNat : ℤ) = k.readAt args i := by
  have hext : (((args i).setWidth 64).toNat : ℤ) = (args i).toNat := by
    rw [BitVec.toNat_setWidth_of_le (by norm_num)]
  unfold readAt
  rw [hs]
  cases k.modifier with
  | hh => exact ⟨_, _, rfl, hext⟩
  | h => exact ⟨_, _, rfl, hext⟩
  | none => exact ⟨_, _, rfl, hext⟩
  | l => exact ⟨_, _, rfl, hext⟩
  | ll => exact ⟨_, _, rfl, rfl⟩
  | j => exact ⟨_, _, rfl, rfl⟩
  | z => exact ⟨_, _, rfl, rfl⟩
  | t => exact ⟨_, _, rfl, rfl⟩

/-- **The argument that is read.** -/
theorem intArg_read (k : IntConversion) (args : ℕ → BitVec 32) (arg : ℕ) :
    (∃ n, Saynaa.intArg args (k.parsed args arg) k.conv.char (k.valueArg arg) = some (k.intArg args arg, n)) ∧
      (k.intArg args arg).value.toNat = (k.read args arg).natAbs := by
  cases hs : k.conv.signed with
  -- a signed value is printed as its absolute value
  | true =>
    obtain ⟨v, n, hv, hread⟩ := vaSigned_read args hs (k.valueArg arg)
    have hchar : k.conv.char = ch 'i' ∨ k.conv.char = ch 'd' := by
      cases hc : k.conv <;> rw [hc] at hs
      all_goals first
        | exact .inr rfl
        | exact .inl rfl
        | exact absurd hs (by decide)
    have hp : k.conv.char ≠ ch 'p' := by
      rcases hchar with h | h <;> rw [h] <;> decide
    have hlt := v.isLt
    have habs : (k.read args arg).natAbs < 2 ^ 64 ∧ (k.read args arg < 0 → (-v).toNat = (k.read args arg).natAbs) ∧
        (¬ k.read args arg < 0 → v.toNat = (k.read args arg).natAbs) := by
      unfold read
      rw [← hread, BitVec.toInt_eq_toNat_cond, BitVec.toNat_neg]
      split_ifs <;> omega
    refine ⟨⟨n, ?_⟩, ?_⟩
    · unfold Saynaa.intArg
      simp only
      rw [if_neg hp, if_pos hchar]
      show (vaSigned args k.modifier.length _).map _ = _
      rw [hv, Option.map_some]
      unfold intArg
      simp only [hs, if_true]
      show some ((if v.toInt < 0 then _ else _), n) = _
      rw [hread]
      by_cases hneg : k.readAt args (k.valueArg arg) < 0
      · rw [if_pos hneg]
        have hval : -v = BitVec.ofNat 64 (k.read args arg).natAbs := by
          rw [← habs.2.1 hneg, BitVec.ofNat_toNat, BitVec.setWidth_eq]
        have hdec : decide (k.read args arg < 0) = true := decide_eq_true hneg
        rw [hval, hdec]
      · rw [if_neg hneg]
        have hval : v = BitVec.ofNat 64 (k.read args arg).natAbs := by
          rw [← habs.2.2 hneg, BitVec.ofNat_toNat, BitVec.setWidth_eq]
        have hdec : decide (k.read args arg < 0) = false := decide_eq_false hneg
        rw [hdec, ← hval]
    · exact BitVec.toNat_ofNat _ _ |>.trans (Nat.mod_eq_of_lt habs.1)
  -- an unsigned one as it is
  | false =>
    obtain ⟨v, n, hv, hread⟩ := vaUnsigned_read args hs (k.valueArg arg)
    have hchar : ¬ (k.conv.char = ch 'i' ∨ k.conv.char = ch 'd') ∧ k.conv.char ≠ ch 'p' := by
      cases hc : k.conv <;> rw [hc] at hs
      all_goals first
        | exact absurd hs (by decide)
        | decide
    have hlt := v.isLt
    have habs : (k.read args arg).natAbs = v.toNat := by
      unfold read
      rw [← hread]
      rfl
    have hneg : ¬ k.read args arg < 0 := by
      unfold read
      rw [← hread]
      omega
    have hval : v = BitVec.ofNat 64 (k.read args arg).natAbs := by
      rw [habs, BitVec.ofNat_toNat, BitVec.setWidth_eq]
    refine ⟨⟨n, ?_⟩, ?_⟩
    · unfold Saynaa.intArg
      simp only
      rw [if_neg hchar.2, if_neg hchar.1]
      show (vaUnsigned args k.modifier.length _).map _ = _
      rw [hv, Option.map_some]
      unfold intArg
      simp only [hs, Bool.false_eq_true, if_false]
      have hdec : decide (k.read args arg < 0) = false := decide_eq_false hneg
      rw [hdec, ← hval]
    · exact (BitVec.toNat_ofNat _ _).trans (Nat.mod_eq_of_lt (habs ▸ hlt))

/-! ### The parts of a text -/

/-- The sign and the mark of the base of a value. -/
def markOf (k : IntConversion) (v : ℤ) : List UInt8 :=
  (if v < 0 then [ch '-']
    else if k.conv.signed ∧ .plus ∈ k.flags then [ch '+']
    else if k.conv.signed ∧ .space ∈ k.flags then [ch ' ']
    else []) ++
  if .alt ∈ k.flags ∧ (k.conv = .x ∨ k.conv = .X) ∧ v ≠ 0 then [ch '0', k.conv.char] else []

def numeralOf (k : IntConversion) (v : ℤ) : List UInt8 := (digitsOf k.conv.base v.natAbs).map (k.conv.digits.getD · 0)

/-- The digits of a value with a precision, `none` being none. -/
def digitsWith (k : IntConversion) (v : ℤ) (q : Option ℕ) : List UInt8 :=
  if v = 0 ∧ q = some 0 then [] else k.numeralOf v

/-- The flag `#` of `o`. -/
def Octal (k : IntConversion) : Prop := k.conv = .o ∧ .alt ∈ k.flags

instance : Decidable k.Octal := inferInstanceAs (Decidable (_ ∧ _))

theorem base_le (c : PfIntConv) : 2 ≤ c.base ∧ c.base ≤ 16 := by
  cases c <;> decide

/-- The characters of digits. -/
theorem digit_char (c : PfIntConv) {d : ℕ} (hd : d < 16) :
    c.digits.getD d 0 ≠ ch ' ' ∧ c.digits.getD d 0 ≠ ch '-' ∧ (c.digits.getD d 0 = ch '0' ↔ d = 0) := by
  cases c <;> interval_cases d <;> decide

theorem mem_numeralOf {v : ℤ} {c : UInt8} (h : c ∈ k.numeralOf v) : ∃ d < 16, c = k.conv.digits.getD d 0 := by
  obtain ⟨d, hd, rfl⟩ := List.mem_map.1 h
  have hlt := digitsOf_lt (base_le k.conv).1 hd
  have hle := (base_le k.conv).2
  exact ⟨d, by omega, rfl⟩

theorem numeralOf_ne_nil (k : IntConversion) (v : ℤ) : k.numeralOf v ≠ [] :=
  fun h => digitsOf_ne_nil k.conv.base v.natAbs (List.map_eq_nil_iff.1 h)

theorem blank_not_mem_numeralOf (k : IntConversion) (v : ℤ) : ch ' ' ∉ k.numeralOf v := by
  intro h
  obtain ⟨d, hd, heq⟩ := mem_numeralOf h
  exact (digit_char k.conv hd).1 heq.symm

/-- The first digit is zero for 0 only. -/
theorem head_numeralOf (k : IntConversion) (v : ℤ) : (k.numeralOf v).head? = some (ch '0') ↔ v = 0 := by
  obtain ⟨d, ds, hds⟩ := List.exists_cons_of_ne_nil (digitsOf_ne_nil k.conv.base v.natAbs)
  have hd : d < 16 := lt_of_lt_of_le (digitsOf_lt (base_le k.conv).1 (hds ▸ List.mem_cons_self)) (base_le k.conv).2
  have hhead := head_digitsOf (n := v.natAbs) (base_le k.conv).1
  rw [hds, List.head?_cons, Option.some_inj] at hhead
  unfold numeralOf
  rw [hds, List.map_cons, List.head?_cons, Option.some_inj, (digit_char k.conv hd).2.2, hhead]
  exact Int.natAbs_eq_zero

theorem numeralOf_zero (k : IntConversion) : k.numeralOf 0 = [ch '0'] := by
  unfold numeralOf
  rw [Int.natAbs_zero, digitsOf_small (show 0 < k.conv.base from lt_of_lt_of_le (by norm_num) (base_le k.conv).1)]
  cases k.conv <;> rfl

theorem numeralOf_eq_zero {v : ℤ} : k.numeralOf v = [ch '0'] ↔ v = 0 := by
  constructor
  · intro h
    rw [← k.head_numeralOf v, h]
    rfl
  · rintro rfl
    exact k.numeralOf_zero

/-! ### What the code writes -/

theorem value_ne_zero : (k.intArg args arg).value ≠ 0 ↔ k.read args arg ≠ 0 := by
  have hval := (k.intArg_read args arg).2
  rw [not_iff_not, ← BitVec.toNat_inj, hval]
  exact Int.natAbs_eq_zero

theorem pre_eq (k : IntConversion) (args : ℕ → BitVec 32) (arg : ℕ) : (k.intArg args arg).pre =
    k.markOf (k.read args arg) ++ List.replicate (if k.Octal ∧ k.read args arg ≠ 0 then 1 else 0) (ch '0') := by
  have hx : k.conv.char = ch 'x' ∨ k.conv.char = ch 'X' ↔ k.conv = .x ∨ k.conv = .X := by
    cases k.conv <;> decide
  have ho : k.conv.char = ch 'o' ↔ k.conv = .o := by
    cases k.conv <;> decide
  have hsign : (if (k.intArg args arg).negative then [ch '-']
      else if (k.intArg args arg).spec.prependPlus then [ch '+']
      else if (k.intArg args arg).spec.prependBlank then [ch ' '] else []) =
      if k.read args arg < 0 then [ch '-'] else if k.conv.signed ∧ .plus ∈ k.flags then [ch '+']
      else if k.conv.signed ∧ .space ∈ k.flags then [ch ' '] else [] := by
    cases hs : k.conv.signed <;> simp [intArg, hs, parsed]
  have halt : (k.intArg args arg).spec.alternate = decide (.alt ∈ k.flags) := by
    cases hs : k.conv.signed <;> simp [intArg, hs, parsed]
  unfold IntArg.pre markOf Octal
  rw [hsign, halt, List.append_assoc]
  congr 1
  show (if _ ∧ (k.conv.char = ch 'x' ∨ k.conv.char = ch 'X') ∧ _ then [ch '0', k.conv.char]
    else if _ ∧ k.conv.char = ch 'o' ∧ _ then [ch '0'] else []) = _
  simp only [hx, ho, value_ne_zero, decide_eq_true_eq]
  by_cases hox : k.conv = .o
  · simp only [hox, reduceCtorEq, or_self, false_and, and_false, if_false, true_and, List.nil_append]
    split_ifs <;> rfl
  · simp only [hox, false_and, and_false, if_false, List.replicate_zero, List.append_nil]

/-- The precision that the code works with. -/
def readPrecision (k : IntConversion) (args : ℕ → BitVec 32) (arg : ℕ) : ℕ :=
  k.precision.word args (k.precisionArg arg)

theorem output_eq (k : IntConversion) (args : ℕ → BitVec 32) (arg : ℕ) : (k.intArg args arg).output =
    if k.readPrecision args arg = 0 ∧ k.read args arg = 0 then [] else k.numeralOf (k.read args arg) := by
  have hprec : (k.intArg args arg).spec.precision = k.readPrecision args arg := by
    cases hs : k.conv.signed <;> simp [intArg, hs, parsed, readPrecision]
  have hbase : (k.intArg args arg).base = k.conv.base := by
    unfold IntArg.base
    show (if k.conv.char = _ ∨ k.conv.char = _ then _ else if k.conv.char = _ then _ else _) = _
    cases k.conv <;> rfl
  have hdigits : (k.intArg args arg).digits = k.conv.digits := by
    unfold IntArg.digits
    show (if k.conv.char = _ then _ else _) = _
    cases k.conv <;> rfl
  have hconv : convertInteger (k.intArg args arg).value k.conv.base k.conv.digits =
    k.numeralOf (k.read args arg) := by
    rw [convertInteger_digits (base_le k.conv).1, (k.intArg_read args arg).2]
    rfl
  unfold IntArg.output
  rw [hprec, hbase, hdigits, hconv]
  simp only [numeralOf_eq_zero]

/-- The field width that the code works with; a negative one is left-justified. -/
def readWidth (k : IntConversion) (args : ℕ → BitVec 32) (arg : ℕ) : BitVec 32 :=
  if .minus ∈ k.flags then -k.width.word args arg else k.width.word args arg

/-- The zero before an octal number. -/
def octalZeros (k : IntConversion) (v : ℤ) : ℕ := if k.Octal ∧ v ≠ 0 then 1 else 0

/-- **The parts of what the code writes.** -/
theorem integerText_shape (k : IntConversion) (args : ℕ → BitVec 32) (arg : ℕ) :
    let a := k.intArg args arg
    let v := k.read args arg
    PfState.integerText a = shape (if a.useLeftPad then a.spec.absFieldWidth - a.lengthWithPrecision else 0)
      (k.markOf v)
      (k.octalZeros v + (if a.useZeroPad then a.spec.absFieldWidth - a.normalLength else 0) +
        if a.usePrecision then a.spec.precision - a.normalLength else 0)
      a.output (if a.useRightPad then a.spec.absFieldWidth - a.lengthWithPrecision else 0) := by
  intro a v
  have hpre : a.pre = k.markOf v ++ List.replicate (k.octalZeros v) (ch '0') := k.pre_eq args arg
  unfold PfState.integerText shape
  rw [hpre, List.replicate_add, List.replicate_add]
  simp only [List.append_assoc]

/-! ### What C11 says -/

/-- The zeros before the digits of a value. -/
def zerosWith (k : IntConversion) (v : ℤ) (q : Option ℕ) : ℕ :=
  (q.getD 1 - (k.digitsWith v q).length) +
    if k.Octal ∧ q.getD 1 - (k.digitsWith v q).length = 0 ∧ (v = 0 → q = some 0) then 1 else 0

theorem allDigits_eq (k : IntConversion) (args : ℕ → BitVec 32) (arg : ℕ) : k.allDigits args arg =
    List.replicate (k.zerosWith (k.value args arg) (k.precisionValue args arg)) (ch '0') ++
      k.digitsWith (k.value args arg) (k.precisionValue args arg) := by
  have hzero : ∀ q : Option ℕ, q.getD 1 = 0 ↔ q = some 0 := by
    intro q
    cases q <;> simp
  have hmin : k.minDigits args arg = List.replicate
      ((k.precisionValue args arg).getD 1 - (k.digitsWith (k.value args arg) (k.precisionValue args arg)).length)
        (ch '0') ++ k.digitsWith (k.value args arg) (k.precisionValue args arg) := by
    unfold minDigits digitsWith
    simp only [hzero]
    rfl
  -- when the first digit is not a zero
  have hhead : (k.minDigits args arg).head? ≠ some (ch '0') ↔
      (k.precisionValue args arg).getD 1 - (k.digitsWith (k.value args arg) (k.precisionValue args arg)).length = 0 ∧
        (k.value args arg = 0 → k.precisionValue args arg = some 0) := by
    rw [hmin]
    rcases Nat.eq_zero_or_pos ((k.precisionValue args arg).getD 1 -
        (k.digitsWith (k.value args arg) (k.precisionValue args arg)).length) with h0 | hpos
    · rw [h0, List.replicate_zero, List.nil_append]
      unfold digitsWith
      split_ifs with h
      · simp [h]
      · rw [ne_eq, head_numeralOf]
        tauto
    · obtain ⟨n, hn⟩ := Nat.exists_eq_succ_of_ne_zero hpos.ne'
      rw [hn]
      simp [List.replicate_succ]
  unfold allDigits zerosWith
  by_cases hc : k.Octal ∧ (k.precisionValue args arg).getD 1 -
      (k.digitsWith (k.value args arg) (k.precisionValue args arg)).length = 0 ∧
        (k.value args arg = 0 → k.precisionValue args arg = some 0)
  · rw [if_pos hc, if_pos ⟨hc.1.1, hc.1.2, hhead.2 hc.2⟩, hmin, List.replicate_succ]
    rfl
  · rw [if_neg hc, if_neg fun h => hc ⟨⟨h.1, h.2.1⟩, hhead.1 h.2.2⟩, hmin, Nat.add_zero]

theorem mark_eq (k : IntConversion) (args : ℕ → BitVec 32) (arg : ℕ) :
    k.sign args arg ++ k.baseMark args arg = k.markOf (k.value args arg) := rfl

theorem unpadded_eq (k : IntConversion) (args : ℕ → BitVec 32) (arg : ℕ) : k.unpadded args arg =
    k.markOf (k.value args arg) ++
      (List.replicate (k.zerosWith (k.value args arg) (k.precisionValue args arg)) (ch '0') ++
      k.digitsWith (k.value args arg) (k.precisionValue args arg)) := by
  unfold unpadded
  rw [mark_eq, allDigits_eq]

/-- **The parts of what C11 says.** -/
theorem text_shape (k : IntConversion) (args : ℕ → BitVec 32) (arg : ℕ) :
    let v := k.value args arg
    let q := k.precisionValue args arg
    let fill := k.widthValue args arg - (k.unpadded args arg).length
    let zeroPad := k.left args arg = false ∧ .zero ∈ k.flags ∧ q = none
    k.text args arg = shape (if k.left args arg = false ∧ ¬ zeroPad then fill else 0) (k.markOf v)
      (k.zerosWith v q + if zeroPad then fill else 0) (k.digitsWith v q) (if k.left args arg then fill else 0) := by
  intro v q fill zeroPad
  unfold text
  simp only
  rw [mark_eq, unpadded_eq, allDigits_eq]
  show (if _ then _ else if _ then _ else _) = _
  have hfill : k.widthValue args arg - (k.markOf (k.value args arg) ++ (List.replicate (k.zerosWith (k.value args arg)
      (k.precisionValue args arg)) (ch '0') ++ k.digitsWith (k.value args arg)
        (k.precisionValue args arg))).length = fill := by
    rw [← unpadded_eq]
  rw [hfill]
  unfold shape
  by_cases hleft : k.left args arg = true
  · -- on the left nothing is filled with zeros
    have hz : ¬ zeroPad := fun h => absurd (hleft.symm.trans h.1) (by decide)
    simp [hleft, hz, v, q]
  · have hfalse : k.left args arg = false := Bool.eq_false_iff.2 hleft
    -- on the right it is zeros with the flag 0 and no precision, else blanks
    by_cases hz : .zero ∈ k.flags ∧ k.precisionValue args arg = none
    · have hz' : zeroPad := ⟨hfalse, hz⟩
      have hcomm : ∀ m n : ℕ, List.replicate m (ch '0') ++ List.replicate n (ch '0') =
        List.replicate (n + m) (ch '0') := by
        intro m n
        rw [List.replicate_append_replicate, Nat.add_comm]
      simp only [hz, hz', hfalse, Bool.false_eq_true, if_false, if_true, and_self, not_true_eq_false, and_false,
        List.replicate_zero, List.nil_append, List.append_nil, ← hcomm]
      simp only [List.append_assoc, v, q, hz.2]
    · have hz' : ¬ zeroPad := fun h => hz h.2
      simp [hz, hz', hfalse, v, q]

end IntConversion

end Saynaa
