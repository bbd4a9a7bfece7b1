import Saynaa.Libc.AbsPath
import Saynaa.Libc.Scanf
import Saynaa.Proof.PfInteger
import Saynaa.Proof.Vsnprintf

/-!
# `scanf` undoes `printf` for integers

* `Field`: a conversion `d`, `u` or `x` and the value that it prints.
* `loop_prints`: the printed text.
* `convert_field`: a conversion reads the text of a field, up to the next blank.
* `loop_scans`: the fields, one by one.
* `scanf_undoes_printf`: the values that were printed are stored.
-/

namespace Saynaa

open Lib

/-- The conversions of integers that `scanf` has, too. -/
inductive FieldConv where
  | d | u | x
  deriving DecidableEq

def FieldConv.char : FieldConv → UInt8
  | .d => ch 'd'
  | .u => ch 'u'
  | .x => ch 'x'

def FieldConv.base : FieldConv → ℕ
  | .x => 16
  | _ => 10

/-- A conversion and a 32-bit value, which is an `int` for `d`. -/
structure Field where
  conv : FieldConv
  value : BitVec 32

/-- The characters of a numeral in base `b`. -/
def numeral (b n : ℕ) : List UInt8 := (digitsOf b n).map (lowerDigits.getD · 0)

namespace Field

def negative (f : Field) : Bool := f.conv = .d ∧ f.value.toInt < 0

/-- The absolute value. -/
def magnitude (f : Field) : BitVec 64 := if f.negative then -f.value.signExtend 64 else f.value.setWidth 64

/-- The text of a field. -/
def text (f : Field) : List UInt8 :=
  (if f.negative then [ch '-'] else []) ++ numeral f.conv.base f.magnitude.toNat

end Field

/-- The conversions, with single spaces between them. -/
def formatOf (fs : List Field) : List UInt8 := [ch ' '].intercalate (fs.map fun f => [ch '%', f.conv.char])

/-- The texts, with single spaces between them. -/
def textOf (fs : List Field) : List UInt8 := [ch ' '].intercalate (fs.map Field.text)

variable {args ptrs : ℕ → BitVec 32} {ops : FloatOps} {mem q : ℕ → UInt8} {f g : Field} {fs : List Field}
  {l r : List UInt8} {b n d str size : ℕ}

theorem formatOf_cons (f g : Field) (fs : List Field) :
    formatOf (f :: g :: fs) = ch '%' :: f.conv.char :: ch ' ' :: formatOf (g :: fs) := rfl

theorem textOf_cons (f g : Field) (fs : List Field) :
    textOf (f :: g :: fs) = f.text ++ ch ' ' :: textOf (g :: fs) := rfl

theorem formatOf_single (f : Field) : formatOf [f] = [ch '%', f.conv.char] := rfl

theorem textOf_single (f : Field) : textOf [f] = f.text := List.append_nil _

/-! ### Printing -/

/-- The integer that a field prints. -/
def Field.arg (f : Field) : IntArg := ⟨.none, f.conv.char, f.negative, f.magnitude⟩

theorem intArg_field {i : ℕ} (h : args i = f.value) : intArg args .none f.conv.char i = some (f.arg, i + 1) := by
  obtain ⟨conv, value⟩ := f
  have hsign : (value.signExtend 64).toInt = value.toInt := BitVec.toInt_signExtend_of_le (by norm_num)
  cases conv with
  | d =>
    show some (if ((args i).signExtend 64).toInt < 0 then (⟨.none, _, true, -(args i).signExtend 64⟩ : IntArg)
      else ⟨.none, _, false, (args i).signExtend 64⟩, i + 1) = _
    simp only at h
    rw [h, hsign]
    by_cases hneg : value.toInt < 0
    · simp [Field.arg, Field.negative, Field.magnitude, hneg, FieldConv.char]
    · have hmsb : value.msb = false := by
        rw [BitVec.toInt_neg_iff] at hneg
        rw [BitVec.msb_eq_false_iff_two_mul_lt]
        omega
      have hext : value.signExtend 64 = value.setWidth 64 := BitVec.signExtend_eq_setWidth_of_msb_false hmsb
      simp [Field.arg, Field.negative, Field.magnitude, hneg, FieldConv.char, hext]
  | u =>
    show some ((⟨.none, _, false, (args i).setWidth 64⟩ : IntArg), i + 1) = _
    rw [h]
    rfl
  | x =>
    show some ((⟨.none, _, false, (args i).setWidth 64⟩ : IntArg), i + 1) = _
    rw [h]
    rfl

theorem integerText_field (f : Field) : PfState.integerText f.arg = f.text := by
  have hbase : f.arg.base = f.conv.base := by
    obtain ⟨conv, value⟩ := f
    cases conv <;> rfl
  have hdigits : f.arg.digits = lowerDigits := by
    obtain ⟨conv, value⟩ := f
    cases conv <;> rfl
  have hb : 2 ≤ f.conv.base := by
    cases f.conv <;> decide
  rw [PfState.integerText_none rfl, hbase, hdigits, convertInteger_digits hb]
  rfl

/-- **The printed text.** -/
theorem loop_prints (args : ℕ → BitVec 32) (ops : FloatOps) {s : PfState} (hf : s.format = formatOf fs)
    (hr : s.rejectedBadSpecifier = false)
    (hargs : ∀ i (hi : i < fs.length), args (s.arg + i) = fs[i].value) (hn : 2 * fs.length ≤ n + 1) :
    ∃ s', (PfState.loop args ops n s).Writes (textOf fs) s' := by
  have hconv : ∀ c : FieldConv, c.char ∈ [ch 'd', ch 'i', ch 'u', ch 'x'] := by
    intro c
    cases c <;> simp [FieldConv.char]
  induction fs generalizing s n with
  | nil => exact ⟨s, PfState.loop_nil hf n⟩
  | cons f fs ih =>
    have hone := intArg_field (hargs 0 (Nat.succ_pos _))
    rw [List.length_cons] at hn
    cases fs with
    | nil =>
      obtain ⟨n, rfl⟩ : ∃ k, n = k + 1 := ⟨n - 1, by simp only [List.length_nil] at hn; omega⟩
      rw [formatOf_single] at hf
      have hstep := PfState.step_integer args ops s (hconv f.conv) hf hr hone
      have hne : s.format ≠ [] := by rw [hf]; exact List.cons_ne_nil _ _
      have hall := PfState.loop_cons hne hstep (PfState.loop_nil rfl n)
      rw [integerText_field, List.append_nil] at hall
      rw [textOf_single]
      exact ⟨_, hall⟩
    | cons g fs =>
      obtain ⟨n, rfl⟩ : ∃ k, n = k + 2 := ⟨n - 2, by simp only [List.length_cons] at hn; omega⟩
      rw [formatOf_cons] at hf
      have hstep := PfState.step_integer args ops s (hconv f.conv) hf hr hone
      have hne : s.format ≠ [] := by rw [hf]; exact List.cons_ne_nil _ _
      -- the blank, and the other fields
      set s₁ := PfState.wrote { s with format := ch ' ' :: formatOf (g :: fs), arg := s.arg + 1 }
        (PfState.integerText f.arg).length
      have hhead : (formatOf (g :: fs)).head? = some (ch '%') := by
        cases fs <;> rfl
      have hblank := PfState.step_literal args ops s₁ (show s₁.format = [ch ' '] ++ formatOf (g :: fs) from rfl)
        (List.cons_ne_nil _ _) (by simp [ch]) (by decide) (.inr hhead)
      obtain ⟨s', hs'⟩ := ih (n := n) (s := PfState.wrote { s₁ with format := formatOf (g :: fs) } 1) rfl hr
        (fun i hi => by
          have harg := hargs (i + 1) (Nat.succ_lt_succ hi)
          rwa [show s.arg + (i + 1) = s.arg + 1 + i by omega] at harg)
        (by simp only [List.length_cons] at hn ⊢; omega)
      have hall := PfState.loop_cons hne hstep (PfState.loop_cons (List.cons_ne_nil _ _) hblank hs')
      rw [integerText_field] at hall
      exact ⟨s', hall⟩

theorem length_formatOf (fs : List Field) : 2 * fs.length ≤ (formatOf fs).length + 1 := by
  induction fs with
  | nil => exact Nat.zero_le _
  | cons f fs ih =>
    cases fs with
    | nil => simp [formatOf_single]
    | cons g fs =>
      rw [formatOf_cons]
      simp only [List.length_cons] at ih ⊢
      omega

/-- **What `vcbprintf` writes.** -/
theorem vcbprintf_fields (hargs : ∀ i (hi : i < fs.length), args i = fs[i].value) :
    (vcbprintf args ops mem (formatOf fs)).output = textOf fs := by
  obtain ⟨s', h⟩ := loop_prints args ops (s := ⟨formatOf fs, 0, mem, 0, false⟩) rfl rfl
    (fun i hi => by rw [zero_add]; exact hargs i hi) (length_formatOf fs)
  exact vcbprintf_output h

theorem numeral_ne_nil (b n : ℕ) : numeral b n ≠ [] := fun h => digitsOf_ne_nil b n (List.map_eq_nil_iff.1 h)

theorem mem_numeral (hb : 2 ≤ b) {c : UInt8} (h : c ∈ numeral b n) : ∃ d < b, c = lowerDigits.getD d 0 := by
  obtain ⟨d, hd, rfl⟩ := List.mem_map.1 h
  exact ⟨d, digitsOf_lt hb hd, rfl⟩

/-- The text is a string. -/
theorem text_ne_zero {c : UInt8} (h : c ∈ f.text) : c ≠ 0 := by
  have hb : 2 ≤ f.conv.base ∧ f.conv.base ≤ 16 := by
    cases f.conv <;> decide
  rcases List.mem_append.1 h with h | h
  · by_cases hneg : f.negative
    · rw [if_pos hneg] at h
      obtain rfl := List.mem_singleton.1 h
      decide
    · rw [if_neg hneg] at h
      exact absurd h List.not_mem_nil
  · obtain ⟨d, hd, rfl⟩ := mem_numeral hb.1 h
    have hd' : d < 16 := by omega
    interval_cases d <;> decide

theorem textOf_ne_zero {c : UInt8} (h : c ∈ textOf fs) : c ≠ 0 := by
  induction fs with
  | nil => exact absurd h List.not_mem_nil
  | cons f fs ih =>
    cases fs with
    | nil =>
      rw [textOf_single] at h
      exact text_ne_zero h
    | cons g fs =>
      rw [textOf_cons] at h
      rcases List.mem_append.1 h with h | h
      · exact text_ne_zero h
      · rcases List.mem_cons.1 h with rfl | h
        · decide
        · exact ih h

/-! ### Scanning a numeral -/

/-- The characters of digits. -/
theorem digit_decimal (hd : d < 10) : isDigitC (lowerDigits.getD d 0) = true ∧ digitValue (lowerDigits.getD d 0) =
    d := by
  interval_cases d <;> exact ⟨rfl, rfl⟩

theorem digit_hex (hd : d < 16) : isHexDigit (lowerDigits.getD d 0) = true ∧ hexValue (lowerDigits.getD d 0) =
    BitVec.ofNat 32 d := by
  interval_cases d <;> exact ⟨rfl, rfl⟩

/-- What ends a numeral: a blank or the end of the input. -/
def Ends (r : List UInt8) : Prop := r = [] ∨ r.head? = some (ch ' ')

theorem scanNumber_append {p : UInt8 → Bool} {f : BitVec 32 → UInt8 → BitVec 32} (hl : ∀ c ∈ l, p c = true)
    (hne : l ≠ []) (hp : p (ch ' ') = false) (hr : Ends r) : scanNumber p f (l ++ r) = some (l.foldl f 0, r) := by
  have hstop : r.takeWhile p = [] ∧ r.dropWhile p = r := by
    cases r with
    | nil => exact ⟨rfl, rfl⟩
    | cons c r =>
      have hc : c = ch ' ' := Option.some.inj (hr.resolve_left (List.cons_ne_nil c r))
      have hfalse : ¬ p c = true := by simp [hc, hp]
      exact ⟨List.takeWhile_cons_of_neg hfalse, List.dropWhile_cons_of_neg hfalse⟩
  have htake : (l ++ r).takeWhile p = l := by
    rw [List.takeWhile_append_of_pos hl, hstop.1, List.append_nil]
  have hdrop : (l ++ r).dropWhile p = r := by
    rw [List.dropWhile_append_of_pos hl, hstop.2]
  unfold scanNumber
  rw [htake, hdrop, if_neg hne]

theorem skipSpaces_cons {c : UInt8} (hc : isSpace c = false) (l : List UInt8) : skipSpaces (c :: l) = c :: l :=
  List.dropWhile_cons_of_neg (by simp [hc])

/-- None of the digits is anything else to the scanner. -/
theorem digit_other (hd : d < 16) :
    isSpace (lowerDigits.getD d 0) = false ∧ lowerDigits.getD d 0 ≠ ch 'x' ∧ lowerDigits.getD d 0 ≠ ch 'X' ∧
      lowerDigits.getD d 0 ≠ ch '+' ∧ lowerDigits.getD d 0 ≠ ch '-' := by
  interval_cases d <;> decide

/-- Nothing is skipped before a numeral. -/
theorem skipSpaces_numeral (hb : 2 ≤ b) (hb' : b ≤ 16) (n : ℕ) (r : List UInt8) :
    skipSpaces (numeral b n ++ r) = numeral b n ++ r := by
  obtain ⟨c, l, hl⟩ := List.exists_cons_of_ne_nil (numeral_ne_nil b n)
  obtain ⟨d, hd, rfl⟩ := mem_numeral hb (n := n) (hl ▸ List.mem_cons_self)
  rw [hl]
  exact skipSpaces_cons (digit_other (by omega)).1 _

/-- **Decimal digits** up to the end of the numeral. -/
theorem scanNumber_decimal (hr : Ends r) (n : ℕ) :
    scanNumber isDigitC decimalStep (numeral 10 n ++ r) = some (BitVec.ofNat 32 n, r) := by
  have hall : ∀ c ∈ numeral 10 n, isDigitC c = true := by
    intro c hc
    obtain ⟨d, hd, rfl⟩ := mem_numeral (by norm_num) hc
    exact (digit_decimal hd).1
  rw [scanNumber_append hall (numeral_ne_nil 10 n) rfl hr]
  unfold numeral
  rw [foldl_bitVec (by norm_num) (fun v d hd => ?_) n]
  show v * 10 + BitVec.ofNat 32 (digitValue _) = _
  rw [(digit_decimal hd).2]
  rfl

/-- **Hexadecimal digits** up to the end of the numeral. -/
theorem scanNumber_hex (hr : Ends r) (n : ℕ) :
    scanNumber isHexDigit hexStep (numeral 16 n ++ r) = some (BitVec.ofNat 32 n, r) := by
  have hall : ∀ c ∈ numeral 16 n, isHexDigit c = true := by
    intro c hc
    obtain ⟨d, hd, rfl⟩ := mem_numeral (by norm_num) hc
    exact (digit_hex hd).1
  rw [scanNumber_append hall (numeral_ne_nil 16 n) rfl hr]
  unfold numeral
  rw [foldl_bitVec (by norm_num) (fun v d hd => ?_) n]
  show v <<< 4 + hexValue _ = _
  rw [(digit_hex hd).2, BitVec.shiftLeft_eq_mul_twoPow]
  rfl

theorem scanUint_numeral (hr : Ends r) (n : ℕ) : scanUint (numeral 10 n ++ r) = some (BitVec.ofNat 32 n, r) := by
  unfold scanUint
  rw [skipSpaces_numeral (by norm_num) (by norm_num)]
  exact scanNumber_decimal hr n

/-- A numeral without a sign. -/
theorem scanInt_numeral (hr : Ends r) (n : ℕ) : scanInt (numeral 10 n ++ r) = some (BitVec.ofNat 32 n, r) := by
  have hscan := scanNumber_decimal hr n
  obtain ⟨c, l, hl⟩ := List.exists_cons_of_ne_nil (numeral_ne_nil 10 n)
  obtain ⟨d, hd, rfl⟩ := mem_numeral (by norm_num) (n := n) (hl ▸ List.mem_cons_self)
  obtain ⟨-, -, -, hplus, hminus⟩ := digit_other (show d < 16 by omega)
  unfold scanInt
  rw [skipSpaces_numeral (by norm_num) (by norm_num)]
  rw [hl] at hscan ⊢
  show (if _ ∨ _ then _ else scanNumber isDigitC decimalStep _) = _
  rw [if_neg (not_or.2 ⟨hplus, hminus⟩)]
  exact hscan

/-- A numeral behind a minus sign. -/
theorem scanInt_minus (hr : Ends r) (n : ℕ) :
    scanInt (ch '-' :: (numeral 10 n ++ r)) = some (-BitVec.ofNat 32 n, r) := by
  unfold scanInt
  rw [skipSpaces_cons rfl]
  show (if _ ∨ _ then Option.map _ (scanNumber isDigitC decimalStep _) else _) = _
  rw [if_pos (.inr rfl), scanNumber_decimal hr n, Option.map_some, if_pos rfl]
  show some (BitVec.ofNat 32 n * -1#32, r) = _
  rw [BitVec.mul_neg, BitVec.mul_one]

/-- A numeral, which never looks like the beginning of one with `0x`. -/
theorem scanHex_numeral (hr : Ends r) (n : ℕ) : scanHex (numeral 16 n ++ r) = some (BitVec.ofNat 32 n, r) := by
  have hscan := scanNumber_hex hr n
  have hsecond : ¬ ((numeral 16 n ++ r)[1]? = some (ch 'x') ∨ (numeral 16 n ++ r)[1]? = some (ch 'X')) := by
    obtain ⟨c, l, hl⟩ := List.exists_cons_of_ne_nil (numeral_ne_nil 16 n)
    rw [hl, List.cons_append, List.getElem?_cons_succ]
    cases l with
    | nil =>
      rw [List.nil_append, ← List.head?_eq_getElem?]
      rcases hr with rfl | hr
      · simp
      · rw [hr]
        decide
    | cons c' l =>
      obtain ⟨d, hd, rfl⟩ := mem_numeral (b := 16) (by norm_num) (hl ▸ List.mem_cons_of_mem _ List.mem_cons_self)
      obtain ⟨-, hx, hX, -⟩ := digit_other hd
      rintro (h | h)
      · exact hx (Option.some.inj h)
      · exact hX (Option.some.inj h)
  unfold scanHex
  rw [skipSpaces_numeral (by norm_num) le_rfl]
  simp only
  rw [if_neg fun h => hsecond h.2]
  exact hscan

/-! ### Scanning the fields -/

theorem setWidth_signExtend (v : BitVec 32) : (v.signExtend 64).setWidth 32 = v := by
  refine BitVec.eq_of_getLsbD_eq fun i hi => ?_
  rw [BitVec.getLsbD_setWidth, BitVec.getLsbD_signExtend]
  simp [hi, show i < 64 by omega]

namespace ScanState

/-- **A conversion reads the text of its field.** -/
theorem convert_field {s : ScanState} (hs : s.input = f.text ++ r) (hr : Ends r) :
    s.convert ptrs f.conv.char = some (s.assignInt ptrs (f.value, r)) := by
  obtain ⟨conv, value⟩ := f
  have hofNat : BitVec.ofNat 32 (value.setWidth 64).toNat = value := by
    rw [BitVec.ofNat_toNat, BitVec.setWidth_setWidth_of_le _ (by norm_num), BitVec.setWidth_eq]
  cases conv with
  | d =>
    show (scanInt s.input).map (s.assignInt ptrs) = _
    by_cases hneg : value.toInt < 0
    · -- the sign is read first
      have htext : Field.text ⟨.d, value⟩ = ch '-' :: numeral 10 (-value.signExtend 64).toNat := by
        simp [Field.text, Field.negative, Field.magnitude, FieldConv.base, hneg]
      have hvalue : -BitVec.ofNat 32 (-value.signExtend 64).toNat = value := by
        rw [BitVec.ofNat_toNat, BitVec.setWidth_neg_of_le (by norm_num), BitVec.neg_neg]
        exact setWidth_signExtend value
      rw [hs, htext, List.cons_append, scanInt_minus hr, hvalue]
      rfl
    · -- there is no sign
      have htext : Field.text ⟨.d, value⟩ = numeral 10 (value.setWidth 64).toNat := by
        simp [Field.text, Field.negative, Field.magnitude, FieldConv.base, hneg]
      rw [hs, htext, scanInt_numeral hr, hofNat]
      rfl
  | u =>
    show (scanUint s.input).map (s.assignInt ptrs) = _
    have htext : Field.text ⟨.u, value⟩ = numeral 10 (value.setWidth 64).toNat := rfl
    rw [hs, htext, scanUint_numeral hr, hofNat]
    rfl
  | x =>
    show (scanHex s.input).map (s.assignInt ptrs) = _
    have htext : Field.text ⟨.x, value⟩ = numeral 16 (value.setWidth 64).toNat := rfl
    rw [hs, htext, scanHex_numeral hr, hofNat]
    rfl

/-- The text of a field does not begin with a blank. -/
theorem skipSpaces_text (f : Field) (r : List UInt8) : skipSpaces (f.text ++ r) = f.text ++ r := by
  have hb : 2 ≤ f.conv.base ∧ f.conv.base ≤ 16 := by
    cases f.conv <;> decide
  unfold Field.text
  by_cases hneg : f.negative
  · rw [if_pos hneg, List.append_assoc]
    exact skipSpaces_cons rfl _
  · rw [if_neg hneg, List.nil_append]
    exact skipSpaces_numeral hb.1 hb.2 _ r

theorem skipSpaces_textOf (f : Field) (fs : List Field) :
    skipSpaces (ch ' ' :: textOf (f :: fs)) = textOf (f :: fs) := by
  have hskip : skipSpaces (textOf (f :: fs)) = textOf (f :: fs) := by
    cases fs with
    | nil =>
      have h := skipSpaces_text f []
      rwa [List.append_nil, ← textOf_single] at h
    | cons g fs =>
      rw [textOf_cons]
      exact skipSpaces_text f _
  rw [← hskip]
  conv_lhs => rw [hskip]
  exact List.dropWhile_cons_of_pos rfl

/-- The memory with the values of the fields at the addresses `ptrs k`, `ptrs (k + 1)`, …. -/
def storeAll (ptrs : ℕ → BitVec 32) : ℕ → List Field → (ℕ → UInt8) → ℕ → UInt8
  | _, [], q => q
  | k, f :: fs, q => storeAll ptrs (k + 1) fs (store 4 q (ptrs k).toNat f.value.toNat)

/-- A pass at a conversion. -/
theorem step_field {s : ScanState} (hs : s.input = f.text ++ r) (hr : Ends r) (format : List UInt8) :
    s.step ptrs (ch '%') (f.conv.char :: format) = some (s.assignInt ptrs (f.value, r), format) := by
  have hchar : f.conv.char ≠ ch '%' := by
    cases f.conv <;> decide
  unfold step
  rw [if_neg (by decide), if_neg (not_not.2 rfl)]
  simp only
  rw [if_neg hchar, convert_field hs hr]
  rfl

theorem loop_some {s s' : ScanState} {c : UInt8} {format format' : List UInt8}
    (h : s.step ptrs c format = some (s', format')) :
    loop ptrs (n + 1) s (c :: format) = loop ptrs n s' format' := by
  conv_lhs => unfold loop
  rw [h]

/-- **The fields, one by one.** -/
theorem loop_scans (ptrs : ℕ → BitVec 32) {s : ScanState} (hs : s.input = textOf fs) (hn : 2 * fs.length ≤ n + 1) :
    (loop ptrs n s (formatOf fs)).assigned = s.assigned + fs.length ∧
      (loop ptrs n s (formatOf fs)).mem = storeAll ptrs s.arg fs s.mem := by
  induction fs generalizing s n with
  | nil => cases n <;> exact ⟨rfl, rfl⟩
  | cons f fs ih =>
    rw [List.length_cons] at hn
    cases fs with
    | nil =>
      obtain ⟨n, rfl⟩ : ∃ k, n = k + 1 := ⟨n - 1, by simp only [List.length_nil] at hn; omega⟩
      have hinput : s.input = f.text ++ [] := by rw [hs, textOf_single, List.append_nil]
      have hloop : loop ptrs (n + 1) s (formatOf [f]) = s.assignInt ptrs (f.value, []) := by
        rw [formatOf_single, loop_some (step_field hinput (.inl rfl) _)]
        cases n <;> rfl
      rw [hloop]
      exact ⟨rfl, rfl⟩
    | cons g fs =>
      obtain ⟨n, rfl⟩ : ∃ k, n = k + 2 := ⟨n - 2, by simp only [List.length_cons] at hn; omega⟩
      rw [textOf_cons] at hs
      -- the conversion, then the blank
      set s₁ := s.assignInt ptrs (f.value, ch ' ' :: textOf (g :: fs))
      have hblank : s₁.step ptrs (ch ' ') (formatOf (g :: fs)) =
        some ({ s₁ with input := textOf (g :: fs) }, formatOf (g :: fs)) := by
        have hformat : (formatOf (g :: fs)).dropWhile isSpace = formatOf (g :: fs) := by
          cases fs <;> exact List.dropWhile_cons_of_neg (by decide)
        unfold step
        rw [if_pos (show isSpace (ch ' ') = true from rfl), hformat]
        show some ({ s₁ with input := skipSpaces (ch ' ' :: textOf (g :: fs)) }, _) = _
        rw [skipSpaces_textOf]
      have hloop : loop ptrs (n + 2) s (formatOf (f :: g :: fs)) =
          loop ptrs n { s₁ with input := textOf (g :: fs) } (formatOf (g :: fs)) := by
        rw [formatOf_cons, loop_some (step_field hs (.inr rfl) _), loop_some hblank]
      obtain ⟨hassigned, hmem⟩ := ih (s := { s₁ with input := textOf (g :: fs) }) (n := n) rfl
        (by simp only [List.length_cons] at hn ⊢; omega)
      rw [hloop, hassigned, hmem]
      refine ⟨?_, rfl⟩
      show s.assigned + 1 + (g :: fs).length = s.assigned + (f :: g :: fs).length
      simp only [List.length_cons]
      omega

end ScanState

/-! ### The stored values -/

/-- The addresses are those of separate variables. -/
def Separate (a b : BitVec 32) : Prop := a.toNat + 4 ≤ b.toNat ∨ b.toNat + 4 ≤ a.toNat

theorem load_storeAll_out {k : ℕ} {a : BitVec 32} (h : ∀ i < fs.length, Separate a (ptrs (k + i))) :
    load 4 (ScanState.storeAll ptrs k fs q) a.toNat = load 4 q a.toNat := by
  induction fs generalizing k q with
  | nil => rfl
  | cons f fs ih =>
    have htail : ∀ i < fs.length, Separate a (ptrs (k + 1 + i)) := by
      intro i hi
      have h1 := h (i + 1) (Nat.succ_lt_succ hi)
      rwa [show k + (i + 1) = k + 1 + i by omega] at h1
    have hone := h 0 (Nat.succ_pos _)
    rw [add_zero] at hone
    unfold ScanState.storeAll
    rw [ih htail, load_store_ne hone]

/-- **Each variable holds its value** in the end. -/
theorem load_storeAll {k : ℕ} (h : ∀ i j, i < j → j < fs.length → Separate (ptrs (k + i)) (ptrs (k + j))) (i : ℕ)
    (hi : i < fs.length) : load 4 (ScanState.storeAll ptrs k fs q) (ptrs (k + i)).toNat = fs[i].value.toNat := by
  induction fs generalizing k q i with
  | nil => exact absurd hi (Nat.not_lt_zero i)
  | cons f fs ih =>
    unfold ScanState.storeAll
    cases i with
    | zero =>
      have hout : ∀ j < fs.length, Separate (ptrs k) (ptrs (k + 1 + j)) := by
        intro j hj
        have h1 := h 0 (j + 1) (Nat.succ_pos j) (Nat.succ_lt_succ hj)
        rwa [add_zero, show k + (j + 1) = k + 1 + j by omega] at h1
      rw [add_zero, load_storeAll_out hout, load_store (lt_of_lt_of_le f.value.isLt (by norm_num))]
      rfl
    | succ i =>
      have htail : ∀ i j, i < j → j < fs.length → Separate (ptrs (k + 1 + i)) (ptrs (k + 1 + j)) := by
        intro i j hij hj
        have h1 := h (i + 1) (j + 1) (Nat.succ_lt_succ hij) (Nat.succ_lt_succ hj)
        rwa [show k + (i + 1) = k + 1 + i by omega, show k + (j + 1) = k + 1 + j by omega] at h1
      have hrec := ih (q := store 4 q (ptrs k).toNat f.value.toNat) htail i (Nat.lt_of_succ_lt_succ hi)
      rw [show k + (i + 1) = k + 1 + i by omega, hrec]
      rfl

/-- **`scanf` undoes `printf`.** The text of 32-bit values that were printed with `d`, `u` or `x` and single
blanks between them is read back with the same format: all are assigned, and each variable holds its value. -/
theorem scanf_undoes_printf (hargs : ∀ i (hi : i < fs.length), args i = fs[i].value)
    (hsize : (vcbprintf args ops mem (formatOf fs)).output.length < size)
    (hptrs : ∀ i j, i < j → j < fs.length → Separate (ptrs i) (ptrs j)) (q q' : ℕ → UInt8) (str : ℕ) :
    ∃ text, CStr (vsnprintf args ops mem q str size (formatOf fs)).2 str text ∧
      (vsscanf ptrs q' (some text) (some (formatOf fs))).1 = fs.length ∧
      ∀ i (hi : i < fs.length),
        load 4 (vsscanf ptrs q' (some text) (some (formatOf fs))).2 (ptrs i).toNat = fs[i].value.toNat := by
  have hout : (vcbprintf args ops mem (formatOf fs)).output = textOf fs := vcbprintf_fields hargs
  have hprint := congrArg Prod.snd (vsnprintf_eq (show 1 ≤ size by omega) hout q str)
  simp only at hprint
  rw [hout] at hsize
  rw [List.take_of_length_le (by omega)] at hprint
  obtain ⟨hassigned, hmem⟩ := ScanState.loop_scans ptrs (s := ⟨textOf fs, 0, q', 0⟩) rfl (length_formatOf fs)
  refine ⟨textOf fs, ?_, ?_, ?_⟩
  · rw [hprint]
    exact CStr_copyIn fun c hc => textOf_ne_zero hc
  · show (((ScanState.loop ptrs _ _ _).assigned : ℕ) : ℤ) = _
    rw [hassigned, Nat.zero_add]
  · intro i hi
    have hapart : ∀ i j, i < j → j < fs.length → Separate (ptrs (0 + i)) (ptrs (0 + j)) := by
      intro i j hij hj
      rw [zero_add, zero_add]
      exact hptrs i j hij hj
    have hload := load_storeAll (q := q') hapart i hi
    rw [zero_add] at hload
    show load 4 (ScanState.loop ptrs _ _ _).mem _ = _
    rw [hmem]
    exact hload

/-- `INT_MIN`, 0 and `UINT_MAX`. -/
def extremeFields : List Field := [⟨.d, 0x80000000⟩, ⟨.u, 0⟩, ⟨.x, 0xFFFFFFFF⟩]

/-- The extreme values, to and from variables at 16, 20 and 24. -/
theorem scanf_undoes_printf_extreme :
    let ptrs : ℕ → BitVec 32 := fun i => BitVec.ofNat 32 (16 + 4 * i)
    ∃ text, CStr (vsnprintf (varArgs [0x80000000, 0, 0xFFFFFFFF]) noFloat (fun _ => 0) (fun _ => 0) 0 64
      (formatOf extremeFields)).2 0 text ∧
      (vsscanf ptrs (fun _ => 0) (some text) (some (formatOf extremeFields))).1 = 3 := by
  intro ptrs
  have hargs : ∀ i (hi : i < extremeFields.length), varArgs [0x80000000, 0, 0xFFFFFFFF] i =
    extremeFields[i].value := by
    intro i hi
    have hi' : i < 3 := hi
    interval_cases i <;> rfl
  have hptrs : ∀ i j, i < j → j < extremeFields.length → Separate (ptrs i) (ptrs j) := by
    intro i j hij hj
    have hj' : j < 3 := hj
    left
    show (16 + 4 * i) % 2 ^ 32 + 4 ≤ (16 + 4 * j) % 2 ^ 32
    omega
  have hsize : (vcbprintf (varArgs [0x80000000, 0, 0xFFFFFFFF]) noFloat (fun _ => 0)
    (formatOf extremeFields)).output.length < 64 := by
    decide +kernel
  obtain ⟨text, htext, hcount, -⟩ := scanf_undoes_printf hargs hsize
    hptrs (fun _ => 0) (fun _ => 0) 0
  exact ⟨text, htext, hcount⟩

end Saynaa
