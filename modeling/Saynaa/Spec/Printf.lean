import Saynaa.Lib.Numeral
import Saynaa.Libc.Vcbprintf

/-!
# What C11 says about conversions of integers (7.21.6.1)

* `IntConversion`: a conversion specification of an integer, and its characters.
* `left`, `widthValue`, `precisionValue`, `value`: what it means, with its arguments.
* `text`: what it prints.

An `int`, a `long` and a `ptrdiff_t` have 32 bits, a `long long`, an `intmax_t` and a `size_t` 64. The flag `#` is
undefined for `d`, `i` and `u`; here it has no effect.
-/

namespace Saynaa

open Lib

inductive PfFlag where
  | alt | zero | minus | space | plus
  deriving DecidableEq

def PfFlag.char : PfFlag → UInt8
  | .alt => ch '#'
  | .zero => ch '0'
  | .minus => ch '-'
  | .space => ch ' '
  | .plus => ch '+'

/-- A field width. A number does not begin with a zero, which would be a flag. -/
inductive PfWidth where
  | none
  | number (w : ℕ) (h : 0 < w)
  | star

/-- A precision. The digits may be missing, and may begin with zeros. -/
inductive PfPrecision where
  | none
  | digits (ds : List (Fin 10))
  | star

inductive PfModifier where
  | hh | h | none | l | ll | j | z | t

inductive PfIntConv where
  | d | i | o | u | x | X
  deriving DecidableEq

def decimal (d : ℕ) : UInt8 := lowerDigits.getD d 0

def PfWidth.chars : PfWidth → List UInt8
  | .none => []
  | .number w _ => (digitsOf 10 w).map decimal
  | .star => [ch '*']

def PfPrecision.chars : PfPrecision → List UInt8
  | .none => []
  | .digits ds => ch '.' :: ds.map fun d : Fin 10 => decimal d
  | .star => [ch '.', ch '*']

def PfModifier.chars : PfModifier → List UInt8
  | .hh => [ch 'h', ch 'h']
  | .h => [ch 'h']
  | .none => []
  | .l => [ch 'l']
  | .ll => [ch 'l', ch 'l']
  | .j => [ch 'j']
  | .z => [ch 'z']
  | .t => [ch 't']

def PfIntConv.char : PfIntConv → UInt8
  | .d => ch 'd'
  | .i => ch 'i'
  | .o => ch 'o'
  | .u => ch 'u'
  | .x => ch 'x'
  | .X => ch 'X'

def PfIntConv.signed : PfIntConv → Bool
  | .d | .i => true
  | _ => false

def PfIntConv.base : PfIntConv → ℕ
  | .o => 8
  | .x | .X => 16
  | _ => 10

def PfIntConv.digits : PfIntConv → List UInt8
  | .X => upperDigits
  | _ => lowerDigits

/-- A conversion specification. -/
structure IntConversion where
  flags : List PfFlag
  width : PfWidth
  precision : PfPrecision
  modifier : PfModifier
  conv : PfIntConv

namespace IntConversion

variable (k : IntConversion) (args : ℕ → BitVec 32) (arg : ℕ)

def chars : List UInt8 :=
  ch '%' :: (k.flags.map PfFlag.char ++ (k.width.chars ++ (k.precision.chars ++ (k.modifier.chars ++ [k.conv.char]))))

/-! ### Arguments -/

/-- A negative field width is a `-` flag and a positive one. -/
def starNegative : Bool :=
  match k.width with
  | .star => (args arg).toInt < 0
  | _ => false

/-- Left-justified. -/
def left : Bool := .minus ∈ k.flags ∨ k.starNegative args arg

def widthValue : ℕ :=
  match k.width with
  | .none => 0
  | .number w _ => w
  | .star => (args arg).toInt.natAbs

/-- The place of the precision among the arguments. -/
def precisionArg : ℕ :=
  match k.width with
  | .star => arg + 1
  | _ => arg

/-- A negative precision is as if there were none. -/
def precisionValue : Option ℕ :=
  match k.precision with
  | .none => .none
  | .digits ds => some (ds.foldl (fun v (d : Fin 10) => 10 * v + d) 0)
  | .star => if 0 ≤ (args (k.precisionArg arg)).toInt then some (args (k.precisionArg arg)).toNat else .none

def valueArg : ℕ :=
  match k.precision with
  | .star => k.precisionArg arg + 1
  | _ => k.precisionArg arg

/-- The argument at `i`, converted to the type that the modifier and the conversion give. -/
def valueAt (i : ℕ) : ℤ :=
  match k.conv.signed, k.modifier with
  | true, .hh => ((args i).setWidth 8).toInt
  | true, .h => ((args i).setWidth 16).toInt
  | true, .none | true, .l | true, .t => (args i).toInt
  | true, .ll | true, .j | true, .z => (vaArg64 args i).toInt
  | false, .hh => ((args i).setWidth 8).toNat
  | false, .h => ((args i).setWidth 16).toNat
  | false, .none | false, .l | false, .t => (args i).toNat
  | false, .ll | false, .j | false, .z => (vaArg64 args i).toNat

def value : ℤ := k.valueAt args (k.valueArg arg)

/-! ### The printed text -/

/-- The sign of a signed conversion. -/
def sign : List UInt8 :=
  if k.value args arg < 0 then [ch '-']
  else if k.conv.signed ∧ .plus ∈ k.flags then [ch '+']
  else if k.conv.signed ∧ .space ∈ k.flags then [ch ' ']
  else []

/-- `0x` or `0X` of the flag `#`. -/
def baseMark : List UInt8 :=
  if .alt ∈ k.flags ∧ (k.conv = .x ∨ k.conv = .X) ∧ k.value args arg ≠ 0 then [ch '0', k.conv.char] else []

def numeral : List UInt8 := (digitsOf k.conv.base (k.value args arg).natAbs).map (k.conv.digits.getD · 0)

/-- The digits, of which there are at least as many as the precision says. The value 0 with the
precision 0 has none. -/
def minDigits : List UInt8 :=
  let precision := (k.precisionValue args arg).getD 1
  let digits := if k.value args arg = 0 ∧ precision = 0 then [] else k.numeral args arg
  List.replicate (precision - digits.length) (ch '0') ++ digits

/-- For `o` the flag `#` makes the first digit a zero. -/
def allDigits : List UInt8 :=
  if k.conv = .o ∧ .alt ∈ k.flags ∧ (k.minDigits args arg).head? ≠ some (ch '0') then ch '0' :: k.minDigits args arg
  else k.minDigits args arg

/-- The text without what pads it to the field width. -/
def unpadded : List UInt8 := k.sign args arg ++ k.baseMark args arg ++ k.allDigits args arg

/-- **What is printed.** -/
def text : List UInt8 :=
  let fill := k.widthValue args arg - (k.unpadded args arg).length
  if k.left args arg then k.unpadded args arg ++ List.replicate fill (ch ' ')
  else if .zero ∈ k.flags ∧ k.precisionValue args arg = .none then
    k.sign args arg ++ k.baseMark args arg ++ List.replicate fill (ch '0') ++ k.allDigits args arg
  else List.replicate fill (ch ' ') ++ k.unpadded args arg

end IntConversion

end Saynaa
