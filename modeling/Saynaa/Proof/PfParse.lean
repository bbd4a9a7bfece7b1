import Mathlib.Data.List.TakeWhile
import Saynaa.Proof.PfPlain
import Saynaa.Spec.Printf

/-!
# How `vcbprintf` reads a conversion specification

* `parseFlags_flags`, `parseWidth_width`, `parsePrecision_precision`, `parseLength_modifier`: the parts of a
  specification, each up to a character that does not belong to it.
* `IntConversion.parsed`: what is read.
* `parseSpec_chars`: the whole specification, unless a number has too many digits.
-/

namespace Saynaa

open Lib

variable {args : ℕ → BitVec 32} {spec : PfSpec} {c : UInt8} {r : List UInt8} {arg d : ℕ} {k : IntConversion}

/-! ### Characters -/

/-- The characters that a length modifier or a conversion of an integer begins with. -/
def letters : List UInt8 := [ch 'h', ch 'l', ch 'j', ch 'z', ch 't', ch 'd', ch 'i', ch 'o', ch 'u', ch 'x', ch 'X']

/-- The characters that `parseFlags` skips. -/
def isFlag (c : UInt8) : Bool := c ∈ [ch '#', ch '0', ch '-', ch ' ', ch '+', 39, ch 'I']

theorem letter_other (h : c ∈ letters) :
    isDigitC c = false ∧ isFlag c = false ∧ c ≠ ch '.' ∧ c ≠ ch '*' ∧ c ≠ ch '-' ∧ c ≠ ch '%' := by
  unfold letters at h
  simp only [List.mem_cons, List.not_mem_nil, or_false] at h
  rcases h with rfl | rfl | rfl | rfl | rfl | rfl | rfl | rfl | rfl | rfl | rfl <;> decide

theorem decimal_digit (hd : d < 10) : isDigitC (decimal d) = true ∧ digitValue (decimal d) = d ∧
    decimal d ≠ ch '*' ∧ decimal d ≠ ch '-' := by
  interval_cases d <;> decide

theorem decimal_other (hd : d < 10) (h0 : d ≠ 0) : isFlag (decimal d) = false ∧ decimal d ≠ ch '%' := by
  interval_cases d
  · exact absurd rfl h0
  all_goals decide

/-- What follows a precision. -/
theorem exists_letter (m : PfModifier) (conv : PfIntConv) (r : List UInt8) :
    ∃ c ∈ letters, ∃ r', m.chars ++ conv.char :: r = c :: r' := by
  have hconv : conv.char ∈ letters := by
    cases conv <;> simp [letters, PfIntConv.char]
  cases m with
  | none => exact ⟨_, hconv, _, rfl⟩
  | hh => exact ⟨ch 'h', by simp [letters], _, rfl⟩
  | h => exact ⟨ch 'h', by simp [letters], _, rfl⟩
  | l => exact ⟨ch 'l', by simp [letters], _, rfl⟩
  | ll => exact ⟨ch 'l', by simp [letters], _, rfl⟩
  | j => exact ⟨ch 'j', by simp [letters], _, rfl⟩
  | z => exact ⟨ch 'z', by simp [letters], _, rfl⟩
  | t => exact ⟨ch 't', by simp [letters], _, rfl⟩

/-! ### Flags -/

/-- The flags of a list, on top of those of `spec`. -/
def PfSpec.withFlags (spec : PfSpec) (flags : List PfFlag) : PfSpec :=
  { spec with
    alternate := spec.alternate ∨ .alt ∈ flags
    zeroPad := spec.zeroPad ∨ .zero ∈ flags
    fieldWidthIsNegative := spec.fieldWidthIsNegative ∨ .minus ∈ flags
    prependBlank := spec.prependBlank ∨ .space ∈ flags
    prependPlus := spec.prependPlus ∨ .plus ∈ flags }

theorem parseFlags_stop (hc : isFlag c = false) (spec : PfSpec) (r : List UInt8) :
    parseFlags spec (c :: r) = (spec, c :: r) := by
  unfold isFlag at hc
  simp only [List.mem_cons, List.not_mem_nil, or_false, decide_eq_false_iff_not, not_or] at hc
  obtain ⟨h1, h2, h3, h4, h5, h6, h7⟩ := hc
  unfold parseFlags
  rw [if_neg h1, if_neg h2, if_neg h3, if_neg h4, if_neg h5, if_neg (not_or.2 ⟨h6, h7⟩)]

/-- **The flags**, in any order. -/
theorem parseFlags_flags (hc : isFlag c = false) (flags : List PfFlag) (spec : PfSpec) (r : List UInt8) :
    parseFlags spec (flags.map PfFlag.char ++ c :: r) = (spec.withFlags flags, c :: r) := by
  induction flags generalizing spec with
  | nil =>
    rw [List.map_nil, List.nil_append, parseFlags_stop hc]
    simp [PfSpec.withFlags]
  | cons f flags ih =>
    rw [List.map_cons, List.cons_append]
    unfold parseFlags
    cases f with
    | alt =>
      rw [if_pos (show PfFlag.char .alt = ch '#' from rfl), ih]
      simp [PfSpec.withFlags]
    | zero =>
      rw [if_neg (by decide), if_pos (show PfFlag.char .zero = ch '0' from rfl), ih]
      simp [PfSpec.withFlags]
    | minus =>
      rw [if_neg (by decide), if_neg (by decide), if_pos (show PfFlag.char .minus = ch '-' from rfl), ih]
      simp [PfSpec.withFlags]
    | space =>
      rw [if_neg (by decide), if_neg (by decide), if_neg (by decide),
        if_pos (show PfFlag.char .space = ch ' ' from rfl), ih]
      simp [PfSpec.withFlags]
    | plus =>
      rw [if_neg (by decide), if_neg (by decide), if_neg (by decide), if_neg (by decide),
        if_pos (show PfFlag.char .plus = ch '+' from rfl), ih]
      simp [PfSpec.withFlags]

/-! ### Numbers -/

/-- A number of digits up to another character. -/
theorem scanDigits_append {l : List UInt8} (hl : ∀ x ∈ l, isDigitC x = true) (hlen : l.length < maxFormatScan)
    (hc : isDigitC c = false) : scanDigits (l ++ c :: r) = l := by
  obtain ⟨n, hn⟩ : ∃ n, maxFormatScan - l.length = n + 1 := ⟨maxFormatScan - l.length - 1, by omega⟩
  unfold scanDigits
  rw [List.take_append, List.take_of_length_le hlen.le, hn, List.take_succ_cons, List.takeWhile_append_of_pos hl,
    List.takeWhile_cons_of_neg (by simp [hc]), List.append_nil]

/-- Too many digits. -/
theorem scanDigits_long {l : List UInt8} (hl : ∀ x ∈ l, isDigitC x = true) (hlen : maxFormatScan ≤ l.length)
    (r : List UInt8) :
    (scanDigits (l ++ r)).length = maxFormatScan := by
  have hall : ∀ x ∈ l.take maxFormatScan, isDigitC x = true := fun x hx => hl x (List.mem_of_mem_take hx)
  unfold scanDigits
  rw [List.take_append_of_le_length hlen, List.takeWhile_eq_self_iff.2 hall, List.length_take, min_eq_left hlen]

theorem digits_decimal {ds : List ℕ} (h : ∀ d ∈ ds, d < 10) : ∀ x ∈ ds.map decimal, isDigitC x = true := by
  intro x hx
  obtain ⟨d, hd, rfl⟩ := List.mem_map.1 hx
  exact (decimal_digit (h d hd)).1

/-- The field width as the code has it, without the flag `-`. -/
def PfWidth.word (args : ℕ → BitVec 32) (arg : ℕ) : PfWidth → BitVec 32
  | .none => 0
  | .number w _ => BitVec.ofNat 32 w
  | .star => args arg

/-- The digits of a number are not too many. -/
def PfWidth.Short : PfWidth → Prop
  | .number w _ => (digitsOf 10 w).length < maxFormatScan
  | _ => True

/-- **The field width.** -/
theorem parseWidth_width (k : IntConversion) (hw : k.width.Short) (hdigit : isDigitC c = false) (hstar : c ≠ ch '*') :
    parseWidth args (k.width.chars ++ c :: r) arg = some (k.width.word args arg, c :: r, k.precisionArg arg) := by
  obtain ⟨flags, width, precision, modifier, conv⟩ := k
  cases width with
  | none =>
    have hscan : scanDigits (c :: r) = [] :=
      scanDigits_append (l := []) (fun x hx => absurd hx List.not_mem_nil) (by decide) hdigit
    show parseWidth args (c :: r) arg = _
    unfold parseWidth
    rw [if_neg (show (c :: r).head? ≠ some (ch '*') from fun h => hstar (Option.some.inj h)), hscan]
    rfl
  | number n h =>
    have hall : ∀ x ∈ (digitsOf 10 n).map decimal, isDigitC x = true :=
      digits_decimal fun d hd => digitsOf_lt (by norm_num) hd
    have hlen : ((digitsOf 10 n).map decimal).length < maxFormatScan := by
      rw [List.length_map]
      exact hw
    have hscan := scanDigits_append (r := r) hall hlen hdigit
    have hhead : ((digitsOf 10 n).map decimal ++ c :: r).head? ≠ some (ch '*') := by
      obtain ⟨d, ds, hds⟩ := List.exists_cons_of_ne_nil (digitsOf_ne_nil 10 n)
      have hd : d < 10 := digitsOf_lt (b := 10) (n := n) (by norm_num) (hds ▸ List.mem_cons_self)
      rw [hds]
      exact fun h => (decimal_digit hd).2.2.1 (Option.some.inj h)
    have hvalue : ((digitsOf 10 n).map decimal).foldl (fun w c => 10 * w + BitVec.ofNat 32 (digitValue c)) 0 =
      BitVec.ofNat 32 n := by
      refine foldl_bitVec (by norm_num) (fun v d hd => ?_) n
      rw [(decimal_digit hd).2.1, BitVec.mul_comm]
      rfl
    show parseWidth args ((digitsOf 10 n).map decimal ++ c :: r) arg = _
    unfold parseWidth
    rw [if_neg hhead, hscan]
    simp only
    rw [if_neg (not_le.2 hlen), hvalue, List.drop_left]
    rfl
  | star => rfl

/-- The precision as the code has it; `sizeMax` stands for none. -/
def PfPrecision.word (args : ℕ → BitVec 32) (arg : ℕ) : PfPrecision → ℕ
  | .none => sizeMax
  | .digits ds => toSize (ds.foldl (fun v (d : Fin 10) => 10 * v + d) 0)
  | .star => if 0 ≤ (args arg).toInt then (args arg).toNat else 0

def PfPrecision.Short : PfPrecision → Prop
  | .digits ds => ds.length < maxFormatScan
  | _ => True

/-- A number that wraps around is the number, but for a multiple of 2^64. -/
theorem foldl_toSize (ds : List (Fin 10)) (v : ℕ) :
    (ds.map fun d : Fin 10 => decimal d).foldl (fun prec c => toSize (10 * prec + digitValue c)) (toSize v) =
      toSize (ds.foldl (fun v (d : Fin 10) => 10 * v + d) v) := by
  induction ds generalizing v with
  | nil => rfl
  | cons d ds ih =>
    have hone : toSize (10 * toSize v + digitValue (decimal d)) = toSize (10 * v + d) := by
      rw [(decimal_digit d.isLt).2.1]
      unfold toSize
      omega
    rw [List.map_cons, List.foldl_cons, hone, ih]
    rfl

theorem digits_fin (ds : List (Fin 10)) : ∀ x ∈ ds.map fun d : Fin 10 => decimal d, isDigitC x = true := by
  intro x hx
  obtain ⟨d, -, rfl⟩ := List.mem_map.1 hx
  exact (decimal_digit d.isLt).1

theorem head_digits (ds : List (Fin 10)) {x : UInt8} (hx : ∀ d < 10, decimal d ≠ x) (hc : c ≠ x) :
    ((ds.map fun d : Fin 10 => decimal d) ++ c :: r).head? ≠ some x := by
  cases ds with
  | nil => exact fun h => hc (Option.some.inj h)
  | cons d ds => exact fun h => hx d d.isLt (Option.some.inj h)

theorem parsePrecision_dot {l : List UInt8} (hstar : l.head? ≠ some (ch '*')) (hminus : l.head? ≠ some (ch '-')) :
    parsePrecision args (ch '.' :: l) arg =
      if maxFormatScan ≤ (scanDigits l).length then none
      else some ((scanDigits l).foldl (fun prec c => toSize (10 * prec + digitValue c)) 0,
        l.drop (scanDigits l).length, arg) := by
  unfold parsePrecision
  rw [if_pos (List.head?_cons ..)]
  exact (if_neg hstar).trans (if_neg hminus)

/-- **The precision.** -/
theorem parsePrecision_precision (k : IntConversion) (hp : k.precision.Short) (hc : c ∈ letters) :
    parsePrecision args (k.precision.chars ++ c :: r) (k.precisionArg arg) =
      some (k.precision.word args (k.precisionArg arg), c :: r, k.valueArg arg) := by
  obtain ⟨hdigit, -, hdot, hstar, hminus, -⟩ := letter_other hc
  obtain ⟨flags, width, precision, modifier, conv⟩ := k
  cases precision with
  | none =>
    show parsePrecision args (c :: r) _ = _
    unfold parsePrecision
    rw [if_neg (show (c :: r).head? ≠ some (ch '.') from fun h => hdot (Option.some.inj h))]
    rfl
  | digits ds =>
    have hlen : (ds.map fun d : Fin 10 => decimal d).length < maxFormatScan := by
      rw [List.length_map]
      exact hp
    have hscan := scanDigits_append (r := r) (digits_fin ds) hlen hdigit
    show parsePrecision args (ch '.' :: ((ds.map fun d : Fin 10 => decimal d) ++ c :: r)) _ = _
    rw [parsePrecision_dot (head_digits ds (fun d hd => (decimal_digit hd).2.2.1) hstar)
      (head_digits ds (fun d hd => (decimal_digit hd).2.2.2) hminus), hscan, if_neg (not_le.2 hlen), List.drop_left]
    exact congrArg (fun v => some (v, _, _)) (foldl_toSize ds 0)
  | star => rfl

/-- A precision of too many digits. -/
theorem parsePrecision_long {ds : List (Fin 10)} (hds : maxFormatScan ≤ ds.length) (hc : c ∈ letters) :
    parsePrecision args ((PfPrecision.digits ds).chars ++ c :: r) arg = none := by
  obtain ⟨-, -, -, hstar, hminus, -⟩ := letter_other hc
  have hlen : maxFormatScan ≤ (ds.map fun d : Fin 10 => decimal d).length := by rwa [List.length_map]
  have hscan := scanDigits_long (digits_fin ds) hlen (c :: r)
  show parsePrecision args (ch '.' :: ((ds.map fun d : Fin 10 => decimal d) ++ c :: r)) _ = _
  rw [parsePrecision_dot (head_digits ds (fun d hd => (decimal_digit hd).2.2.1) hstar)
    (head_digits ds (fun d hd => (decimal_digit hd).2.2.2) hminus), hscan, if_pos le_rfl]

/-! ### The length modifier -/

def PfModifier.length : PfModifier → LengthT
  | .hh => .shortShort
  | .h => .short
  | .none => .default
  | .l => .long
  | .ll => .longLong
  | .j => .intmaxT
  | .z => .sizeT
  | .t => .ptrdiffT

theorem parseLength_modifier (m : PfModifier) (conv : PfIntConv) (r : List UInt8) :
    parseLength (m.chars ++ conv.char :: r) = (m.length, m.chars.length) := by
  cases m <;> cases conv <;> simp [parseLength, lengthModifiers, PfModifier.chars, PfIntConv.char,
    PfModifier.length, ch]

/-! ### The whole specification -/

namespace IntConversion

/-- **What is read.** -/
def parsed (k : IntConversion) (args : ℕ → BitVec 32) (arg : ℕ) : PfSpec where
  alternate := .alt ∈ k.flags
  zeroPad := .zero ∈ k.flags
  fieldWidthIsNegative := .minus ∈ k.flags
  prependBlank := .space ∈ k.flags
  prependPlus := .plus ∈ k.flags
  fieldWidth := if .minus ∈ k.flags then -k.width.word args arg else k.width.word args arg
  precision := k.precision.word args (k.precisionArg arg)
  length := k.modifier.length

/-- What follows the field width. -/
theorem exists_precision (k : IntConversion) (r : List UInt8) :
    ∃ c r', k.precision.chars ++ (k.modifier.chars ++ k.conv.char :: r) = c :: r' ∧
      isDigitC c = false ∧ c ≠ ch '*' ∧ isFlag c = false ∧ c ≠ ch '%' := by
  cases hp : k.precision with
  | none =>
    obtain ⟨c, hc, r', h⟩ := exists_letter k.modifier k.conv r
    obtain ⟨hdigit, hflag, -, hstar, -, hpercent⟩ := letter_other hc
    exact ⟨c, r', h, hdigit, hstar, hflag, hpercent⟩
  | digits ds => exact ⟨ch '.', _, rfl, rfl, by decide, rfl, by decide⟩
  | star => exact ⟨ch '.', _, rfl, rfl, by decide, rfl, by decide⟩

/-- What follows the flags. -/
theorem exists_width (k : IntConversion) (r : List UInt8) :
    ∃ c r', k.width.chars ++ (k.precision.chars ++ (k.modifier.chars ++ k.conv.char :: r)) = c :: r' ∧
      isFlag c = false ∧ c ≠ ch '%' := by
  cases hw : k.width with
  | none =>
    obtain ⟨c, r', h, -, -, hflag⟩ := k.exists_precision r
    exact ⟨c, r', h, hflag⟩
  | number w h =>
    obtain ⟨d, ds, hds⟩ := List.exists_cons_of_ne_nil (digitsOf_ne_nil 10 w)
    have hd : d < 10 := digitsOf_lt (b := 10) (n := w) (by norm_num) (hds ▸ List.mem_cons_self)
    have h0 : d ≠ 0 := by
      rintro rfl
      have hhead := (head_digitsOf (b := 10) (n := w) (by norm_num)).1 (by rw [hds]; rfl)
      omega
    refine ⟨decimal d, ds.map decimal ++ (k.precision.chars ++ (k.modifier.chars ++ k.conv.char :: r)), ?_,
      decimal_other hd h0⟩
    show (digitsOf 10 w).map decimal ++ _ = _
    rw [hds]
    rfl
  | star => exact ⟨ch '*', _, rfl, rfl, by decide⟩

theorem parsed_eq (k : IntConversion) (args : ℕ → BitVec 32) (arg : ℕ) :
    k.parsed args arg = { PfSpec.none.withFlags k.flags with
      fieldWidth := if (PfSpec.none.withFlags k.flags).fieldWidthIsNegative then -k.width.word args arg
        else k.width.word args arg
      precision := k.precision.word args (k.precisionArg arg)
      length := k.modifier.length } := by
  simp [parsed, PfSpec.withFlags, PfSpec.none]

/-- **A specification without numbers of too many digits.** -/
theorem parseSpec_chars (k : IntConversion) (hw : k.width.Short) (hp : k.precision.Short) (args : ℕ → BitVec 32)
    (arg : ℕ) (r : List UInt8) :
    parseSpec args (k.chars.tail ++ r) arg = some (k.parsed args arg, k.conv.char :: r, k.valueArg arg) := by
  obtain ⟨c, r', htail, hflag, -⟩ := k.exists_width r
  obtain ⟨c₂, r₂, htail₂, hdigit₂, hstar₂, -⟩ := k.exists_precision r
  obtain ⟨c₃, hc₃, r₃, htail₃⟩ := exists_letter k.modifier k.conv r
  have hchars : k.chars.tail ++ r = k.flags.map PfFlag.char ++ c :: r' := by
    rw [← htail]
    simp [chars]
  unfold parseSpec
  rw [hchars, parseFlags_flags hflag, ← htail]
  simp only
  rw [htail₂, parseWidth_width k hw hdigit₂ hstar₂, ← htail₂, htail₃]
  simp only [Option.bind_eq_bind, Option.bind_some]
  rw [parsePrecision_precision k hp hc₃, ← htail₃]
  simp only [Option.bind_some]
  rw [parseLength_modifier, List.drop_left, parsed_eq]
  rfl

/-- **A precision of too many digits** ends the function. -/
theorem parseSpec_long (k : IntConversion) (hw : k.width.Short) (hp : ¬ k.precision.Short) (args : ℕ → BitVec 32)
    (arg : ℕ) (r : List UInt8) : parseSpec args (k.chars.tail ++ r) arg = none := by
  obtain ⟨c, r', htail, hflag, -⟩ := k.exists_width r
  obtain ⟨c₂, r₂, htail₂, hdigit₂, hstar₂, -⟩ := k.exists_precision r
  obtain ⟨c₃, hc₃, r₃, htail₃⟩ := exists_letter k.modifier k.conv r
  have hchars : k.chars.tail ++ r = k.flags.map PfFlag.char ++ c :: r' := by
    rw [← htail]
    simp [chars]
  have hlong : parsePrecision args (k.precision.chars ++ c₃ :: r₃) (k.precisionArg arg) = none := by
    cases hprec : k.precision with
    | none =>
      rw [hprec] at hp
      exact absurd trivial hp
    | digits ds =>
      rw [hprec] at hp
      exact parsePrecision_long (not_lt.1 hp) hc₃
    | star =>
      rw [hprec] at hp
      exact absurd trivial hp
  unfold parseSpec
  rw [hchars, parseFlags_flags hflag, ← htail]
  simp only
  rw [htail₂, parseWidth_width k hw hdigit₂ hstar₂, ← htail₂, htail₃]
  simp only [Option.bind_eq_bind, Option.bind_some]
  rw [hlong]
  rfl

end IntConversion

end Saynaa
