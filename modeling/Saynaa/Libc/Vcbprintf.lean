import Saynaa.Lib.Calls
import Saynaa.Libc.Cstring

/-!
# Formatted output (`libraries/libc/src/stdio/vcbprintf.c`)

The machine has 32 bits, but `size_t` has 64, and its `SIZE_MAX` is `INT32_MAX`. Arguments are 32-bit words of the
stack, and a `va_list` is the index of the next one. A format is the list of its characters, and a pointer into it
what is left; `NULL` is the empty one. The callback is not `NULL`, and a failure is a returned `-1`. What
`convert_float` does is a parameter.
-/

namespace Saynaa

open Lib

def ch (c : Char) : UInt8 := UInt8.ofNat c.toNat

def maxFormatScan : ℕ := 4096
def maxStringScan : ℕ := 8192
def sizeMax : ℕ := 2147483647
def int32Max : ℕ := 2147483647

/-- A `size_t`. -/
def toSize (n : ℕ) : ℕ := n % 2 ^ 64

/-! ### Digits -/

def lowerDigits : List UInt8 :=
  [ch '0', ch '1', ch '2', ch '3', ch '4', ch '5', ch '6', ch '7', ch '8', ch '9', ch 'a', ch 'b', ch 'c', ch 'd',
    ch 'e', ch 'f']

def upperDigits : List UInt8 :=
  [ch '0', ch '1', ch '2', ch '3', ch '4', ch '5', ch '6', ch '7', ch '8', ch '9', ch 'A', ch 'B', ch 'C', ch 'D',
    ch 'E', ch 'F']

/-- `while (base <= copy) copy /= base, result++`. A `uintmax_t` has less than 64 digits. -/
def countDigits (base : ℕ) : ℕ → ℕ → ℕ
  | 0, _ => 1
  | fuel + 1, copy => if base ≤ copy then countDigits base fuel (copy / base) + 1 else 1

/-- The loop that fills `i` characters from the right. -/
def fillDigits (base : ℕ) (digits : List UInt8) : ℕ → ℕ → List UInt8
  | 0, _ => []
  | i + 1, value => fillDigits base digits i (value / base) ++ [digits.getD (value % base) 0]

/-- `convert_integer`. -/
def convertInteger (value : BitVec 64) (base : ℕ) (digits : List UInt8) : List UInt8 :=
  fillDigits base digits (countDigits base 64 value.toNat) value.toNat

/-! ### Conversion specifications -/

inductive LengthT where
  | shortShort | short | default | long | longLong | longDouble | intmaxT | sizeT | ptrdiffT
  deriving DecidableEq

/-- The flags, field width, precision and length modifier of a specification. -/
structure PfSpec where
  alternate : Bool
  zeroPad : Bool
  fieldWidthIsNegative : Bool
  prependBlank : Bool
  prependPlus : Bool
  fieldWidth : BitVec 32
  precision : ℕ
  length : LengthT

def PfSpec.none : PfSpec := ⟨false, false, false, false, false, 0, sizeMax, .default⟩

/-- The loop over the flags; `'` and `I` have no effect. -/
def parseFlags (spec : PfSpec) : List UInt8 → PfSpec × List UInt8
  | [] => (spec, [])
  | f :: format =>
    if f = ch '#' then parseFlags { spec with alternate := true } format
    else if f = ch '0' then parseFlags { spec with zeroPad := true } format
    else if f = ch '-' then parseFlags { spec with fieldWidthIsNegative := true } format
    else if f = ch ' ' then parseFlags { spec with prependBlank := true } format
    else if f = ch '+' then parseFlags { spec with prependPlus := true } format
    else if f = 39 ∨ f = ch 'I' then parseFlags spec format
    else (spec, f :: format)

def isDigitC (c : UInt8) : Bool := ch '0' ≤ c ∧ c ≤ ch '9'

/-- `*format - '0'`. -/
def digitValue (c : UInt8) : ℕ := c.toNat - (ch '0').toNat

/-- The digits that a bounded loop reads. -/
def scanDigits (format : List UInt8) : List UInt8 := (format.take maxFormatScan).takeWhile isDigitC

/-- The field width, the rest of the format and the next argument; `none` is a returned `-1`. -/
def parseWidth (args : ℕ → BitVec 32) (format : List UInt8) (arg : ℕ) : Option (BitVec 32 × List UInt8 × ℕ) :=
  if format.head? = some (ch '*') then some (args arg, format.tail, arg + 1)
  else
    let count := (scanDigits format).length
    if maxFormatScan ≤ count then none
    else some ((scanDigits format).foldl (fun w c => 10 * w + BitVec.ofNat 32 (digitValue c)) 0,
      format.drop count, arg)

/-- The precision. -/
def parsePrecision (args : ℕ → BitVec 32) (format : List UInt8) (arg : ℕ) : Option (ℕ × List UInt8 × ℕ) :=
  if format.head? = some (ch '.') then
    let format := format.tail
    if format.head? = some (ch '*') then
      some (if 0 ≤ (args arg).toInt then (args arg).toNat else 0, format.tail, arg + 1)
    else if format.head? = some (ch '-') then some (0, format.tail.dropWhile isDigitC, arg)
    else
      let count := (scanDigits format).length
      if maxFormatScan ≤ count then none
      else some ((scanDigits format).foldl (fun prec c => toSize (10 * prec + digitValue c)) 0, format.drop count,
        arg)
  else some (sizeMax, format, arg)

def lengthModifiers : List (List UInt8 × LengthT) :=
  [([ch 'h', ch 'h'], .shortShort), ([ch 'h'], .short), ([], .default), ([ch 'l'], .long),
    ([ch 'l', ch 'l'], .longLong),
    ([ch 'L'], .longDouble), ([ch 'j'], .intmaxT), ([ch 'z'], .sizeT), ([ch 't'], .ptrdiffT)]

/-- The longest length modifier that `format` begins with, and its length. -/
def parseLength (format : List UInt8) : LengthT × ℕ :=
  lengthModifiers.foldl (fun best m =>
    if m.1.length < best.2 then best else if ¬ m.1.isPrefixOf format then best else (m.2, m.1.length)) (.default, 0)

/-- A specification behind its `'%'`, up to the conversion character. -/
def parseSpec (args : ℕ → BitVec 32) (format : List UInt8) (arg : ℕ) : Option (PfSpec × List UInt8 × ℕ) := do
  let (spec, format) := parseFlags .none format
  let (width, format, arg) ← parseWidth args format arg
  let (precision, format, arg) ← parsePrecision args format arg
  let (length, best) := parseLength format
  return ({ spec with
      fieldWidth := if spec.fieldWidthIsNegative then -width else width
      precision := precision
      length := length }, format.drop best, arg)

/-- `(size_t) (field_width < 0 ? -field_width : field_width)`. -/
def PfSpec.absFieldWidth (spec : PfSpec) : ℕ :=
  ((if spec.fieldWidth.toInt < 0 then -spec.fieldWidth else spec.fieldWidth).signExtend 64).toNat

/-! ### Arguments -/

/-- The floating-point operations: the conversion of a `long double` to a `double`, the test for a negative value, and
`convert_float` with base 10 for a precision. -/
structure FloatOps where
  ofLong : BitVec 96 → BitVec 64
  isNegative : BitVec 64 → Bool
  convertFloat : BitVec 64 → ℕ → List UInt8

/-- `va_arg` of a 64-bit type. -/
def vaArg64 (args : ℕ → BitVec 32) (arg : ℕ) : BitVec 64 := args (arg + 1) ++ args arg

/-- The argument of `d` and `i` as an `intmax_t`. -/
def vaSigned (args : ℕ → BitVec 32) (length : LengthT) (arg : ℕ) : Option (BitVec 64 × ℕ) :=
  match length with
  | .shortShort | .short | .default | .long | .ptrdiffT => some ((args arg).signExtend 64, arg + 1)
  | .longLong | .intmaxT | .sizeT => some (vaArg64 args arg, arg + 2)
  | .longDouble => none

/-- The argument of `o`, `u`, `x` and `X` as a `uintmax_t`. -/
def vaUnsigned (args : ℕ → BitVec 32) (length : LengthT) (arg : ℕ) : Option (BitVec 64 × ℕ) :=
  match length with
  | .shortShort | .short | .default | .long => some ((args arg).setWidth 64, arg + 1)
  | .ptrdiffT => some ((args arg).signExtend 64, arg + 1)
  | .longLong | .intmaxT | .sizeT => some (vaArg64 args arg, arg + 2)
  | .longDouble => none

/-- An integer to be printed, with the flags and the conversion that apply to it. -/
structure IntArg where
  spec : PfSpec
  conversion : UInt8
  negative : Bool
  value : BitVec 64

/-- The part of an integer conversion that reads the argument. -/
def intArg (args : ℕ → BitVec 32) (spec : PfSpec) (conversion : UInt8) (arg : ℕ) : Option (IntArg × ℕ) :=
  let unsigned := { spec with prependBlank := false, prependPlus := false }
  if conversion = ch 'p' then
    some (⟨{ unsigned with alternate := !spec.alternate }, ch 'x', false, (args arg).setWidth 64⟩, arg + 1)
  else if conversion = ch 'i' ∨ conversion = ch 'd' then
    (vaSigned args spec.length arg).map fun (v, arg) =>
      (if v.toInt < 0 then ⟨spec, conversion, true, -v⟩ else ⟨spec, conversion, false, v⟩, arg)
  else (vaUnsigned args spec.length arg).map fun (v, arg) => (⟨unsigned, conversion, false, v⟩, arg)

/-! ### Output -/

/-- The variables of `vcbprintf`, and the memory that strings are read from and `n` writes to. -/
structure PfState where
  format : List UInt8
  arg : ℕ
  mem : ℕ → UInt8
  written : BitVec 64
  rejectedBadSpecifier : Bool

namespace PfState

/-- Write a string and count it. -/
def put (s : PfState) (chunk : List UInt8) : Calls UInt8 PfState := do
  Calls.emit chunk
  return { s with written := s.written + BitVec.ofNat 64 chunk.length }

/-- `if (length) …`. -/
def putNonempty (s : PfState) (chunk : List UInt8) : Calls UInt8 PfState :=
  if chunk = [] then return s else s.put chunk

/-- A loop that writes a character `n` times. -/
def pad (c : UInt8) : ℕ → PfState → Calls UInt8 PfState
  | 0, s => return s
  | n + 1, s => do
    let s ← s.put [c]
    s.pad c n

/-- Write the `'%'` at `begun` as it is. -/
def literal (s : PfState) (begun : List UInt8) : Calls UInt8 PfState :=
  { s with format := begun.tail }.put (begun.take 1)

/-- `bad_conv`. -/
def badConv (s : PfState) (begun : List UInt8) : Calls UInt8 PfState :=
  { s with format := begun.tail, rejectedBadSpecifier := true }.put [ch '%']

end PfState

namespace IntArg

variable (a : IntArg)

def digits : List UInt8 := if a.conversion = ch 'X' then upperDigits else lowerDigits

def base : ℕ := if a.conversion = ch 'x' ∨ a.conversion = ch 'X' then 16 else if a.conversion = ch 'o' then 8 else 10

/-- `prefix`: the sign, then what the `#` flag gives. -/
def pre : List UInt8 :=
  (if a.negative then [ch '-'] else if a.spec.prependPlus then [ch '+'] else if a.spec.prependBlank then [ch ' ']
    else []) ++
    if a.spec.alternate ∧ (a.conversion = ch 'x' ∨ a.conversion = ch 'X') ∧ a.value ≠ 0 then [ch '0', a.conversion]
    else if a.spec.alternate ∧ a.conversion = ch 'o' ∧ a.value ≠ 0 then [ch '0']
    else []

/-- `output`. -/
def output : List UInt8 :=
  let output := convertInteger a.value a.base a.digits
  if a.spec.precision = 0 ∧ output = [ch '0'] then [] else output

def outputLengthWithPrecision : ℕ :=
  if a.spec.precision ≠ sizeMax ∧ a.output.length < a.spec.precision then a.spec.precision else a.output.length

/-- `digits_length` and `normal_length`, which are the same. -/
def normalLength : ℕ := a.pre.length + a.output.length

def lengthWithPrecision : ℕ := toSize (a.pre.length + a.outputLengthWithPrecision)

def usePrecision : Bool := a.spec.precision ≠ sizeMax
def useZeroPad : Bool := a.spec.zeroPad ∧ 0 ≤ a.spec.fieldWidth.toInt ∧ !a.usePrecision
def useLeftPad : Bool := !a.useZeroPad ∧ 0 ≤ a.spec.fieldWidth.toInt
def useRightPad : Bool := !a.useZeroPad ∧ a.spec.fieldWidth.toInt < 0

end IntArg

namespace PfState

/-- The part of an integer conversion that writes. -/
def putInteger (s : PfState) (a : IntArg) : Calls UInt8 PfState := do
  let s ← s.pad (ch ' ') (if a.useLeftPad then a.spec.absFieldWidth - a.lengthWithPrecision else 0)
  let s ← s.putNonempty a.pre
  let s ← s.pad (ch '0') (if a.useZeroPad then a.spec.absFieldWidth - a.normalLength else 0)
  let s ← s.pad (ch '0') (if a.usePrecision then a.spec.precision - a.normalLength else 0)
  let s ← s.putNonempty a.output
  s.pad (ch ' ') (if a.useRightPad then a.spec.absFieldWidth - a.lengthWithPrecision else 0)

/-- A string with blanks on one side. -/
def putPadded (s : PfState) (spec : PfSpec) (chunk : List UInt8) (length : ℕ) : Calls UInt8 PfState := do
  let s ← s.pad (ch ' ') (if spec.fieldWidthIsNegative then 0 else spec.absFieldWidth - length)
  let s ← s.put chunk
  s.pad (ch ' ') (if spec.fieldWidthIsNegative then spec.absFieldWidth - length else 0)

/-- The part of a floating-point conversion that writes. The sign is not counted. -/
def putFloat (ops : FloatOps) (s : PfState) (spec : PfSpec) (value : BitVec 64) : Calls UInt8 PfState := do
  let buffer := ops.convertFloat value (if spec.precision = sizeMax then 6 else spec.precision)
  if ops.isNegative value ∨ spec.prependPlus ∨ spec.prependBlank then
    Calls.emit [if ops.isNegative value then ch '-' else if spec.prependPlus then ch '+' else ch ' ']
    s.putPadded spec buffer (buffer.length + 1)
  else s.putPadded spec buffer buffer.length

/-- The string that is at an address, for `s` and `m`. -/
def stringAt (s : PfState) (spec : PfSpec) (conv : UInt8) (address : BitVec 32) : List UInt8 :=
  let maxScan :=
    if spec.precision = sizeMax then maxStringScan
    else if spec.precision < maxStringScan then spec.precision else maxStringScan
  let null := [ch '(', ch 'n', ch 'u', ch 'l', ch 'l', ch ')']
  if conv = ch 's' ∧ address = 0 then copyOut (Saynaa.literal null) 0 (strnlen (Saynaa.literal null) 0 maxScan)
  else copyOut s.mem address.toNat (strnlen s.mem address.toNat maxScan)

end PfState

/-- `sizeof` of the type that `n` stores to. -/
def LengthT.bytes : LengthT → Option ℕ
  | .shortShort => some 1
  | .short => some 2
  | .default | .long | .ptrdiffT => some 4
  | .longLong | .intmaxT | .sizeT => some 8
  | .longDouble => none

namespace PfState

variable (args : ℕ → BitVec 32) (ops : FloatOps)

/-- A conversion, with `format` behind the conversion character; `begun` is the format at its `'%'`. -/
def convert (begun : List UInt8) (spec : PfSpec) (conv : UInt8) (s : PfState) : Calls UInt8 PfState :=
  if conv ∈ [ch 'd', ch 'i', ch 'o', ch 'u', ch 'x', ch 'X', ch 'p'] then
    match intArg args spec conv s.arg with
    | none => s.badConv begun
    | some (a, arg) => { s with arg := arg }.putInteger a
  else if conv ∈ [ch 'e', ch 'E', ch 'f', ch 'F', ch 'g', ch 'G', ch 'a', ch 'A'] then
    if spec.length = .default then { s with arg := s.arg + 2 }.putFloat ops spec (vaArg64 args s.arg)
    else if spec.length = .longDouble then
      { s with arg := s.arg + 3 }.putFloat ops spec (ops.ofLong (args (s.arg + 2) ++ vaArg64 args s.arg))
    else s.badConv begun
  else if conv = ch 'c' then
    if spec.length = .default then { s with arg := s.arg + 1 }.putPadded spec [UInt8.ofNat (args s.arg).toNat] 1
    else if spec.length = .long then { s with arg := s.arg + 1 }.badConv begun
    else s.badConv begun
  else if conv = ch 's' ∨ conv = ch 'm' then
    if spec.length = .default then
      let string := s.stringAt spec conv (args s.arg)
      { s with arg := s.arg + 1 }.putPadded spec string string.length
    else if spec.length = .long then { s with arg := s.arg + 1 }.badConv begun
    else s.badConv begun
  else if conv = ch 'n' then
    match spec.length.bytes with
    | none => s.badConv begun
    | some k =>
      if args s.arg = 0 then .fail
      else return { s with arg := s.arg + 1, mem := store k s.mem (args s.arg).toNat s.written.toNat }
  else s.badConv begun

/-- One pass of the loop, at a format that is not at its end. -/
def step (s : PfState) : Calls UInt8 PfState :=
  if s.format.head? ≠ some (ch '%') then
    let amount := ((s.format.take maxFormatScan).takeWhile (· ≠ ch '%')).length
    if amount = 0 then return { s with format := s.format.tail }
    else if maxFormatScan ≤ amount then .fail
    else { s with format := s.format.drop amount }.put (s.format.take amount)
  else if s.format[1]? = some (ch '%') then { s with format := s.format.drop 2 }.put [ch '%']
  else if s.rejectedBadSpecifier then s.literal s.format
  else
    match parseSpec args s.format.tail s.arg with
    | none => .fail
    | some (spec, format, arg) =>
      match format with
      | [] => { s with arg := arg }.literal s.format
      | conv :: rest => { s with format := rest, arg := arg }.convert args ops s.format spec conv

/-- The loop, for at most `n` passes. -/
def loop : ℕ → PfState → Calls UInt8 PfState
  | 0, s => return s
  | n + 1, s =>
    if s.format = [] then return s
    else do
      let s ← s.step args ops
      loop n s

end PfState

/-- `vcbprintf`: the return value and the memory afterwards. A pass takes at least one character off the format,
so that as many passes as it has characters are enough. -/
def vcbprintf (args : ℕ → BitVec 32) (ops : FloatOps) (mem : ℕ → UInt8) (format : List UInt8) :
    Calls UInt8 (ℕ × (ℕ → UInt8)) := do
  let s ← PfState.loop args ops format.length ⟨format, 0, mem, 0, false⟩
  if int32Max < s.written.toNat then .fail else return (s.written.toNat, s.mem)

end Saynaa
