import Saynaa.Lib.Bytes
import Saynaa.Libc.Vcbprintf

/-!
# Formatted input (`libraries/libc/src/stdio/scanf.c`)

The input and the format are lists of characters, and a pointer into them what is left. The arguments are pointers
into a memory that holds neither of them. An `int` wraps around; `assigned` cannot, as a format that fits into an
address space of 32 bits has less than 2^31 conversions. A `scan_` function returns what it stores and where it
stops; `none` is a returned 0.
-/

namespace Saynaa

open Lib

def isSpace (c : UInt8) : Bool := c = ch ' ' ∨ c = ch '\t' ∨ c = ch '\n' ∨ c = ch '\r' ∨ c = 12 ∨ c = 11

def isHexDigit (c : UInt8) : Bool := (ch '0' ≤ c ∧ c ≤ ch '9') ∨ (ch 'a' ≤ c ∧ c ≤ ch 'f') ∨ (ch 'A' ≤ c ∧ c ≤ ch 'F')

def hexValue (c : UInt8) : BitVec 32 :=
  if ch '0' ≤ c ∧ c ≤ ch '9' then BitVec.ofNat 32 (c.toNat - (ch '0').toNat)
  else if ch 'a' ≤ c ∧ c ≤ ch 'f' then 10 + BitVec.ofNat 32 (c.toNat - (ch 'a').toNat)
  else 10 + BitVec.ofNat 32 (c.toNat - (ch 'A').toNat)

def skipSpaces (input : List UInt8) : List UInt8 := input.dropWhile isSpace

/-- The part of `scan_int`, `scan_uint` and `scan_hex` that reads the digits, of which there must be one. -/
def scanNumber (isDigit : UInt8 → Bool) (f : BitVec 32 → UInt8 → BitVec 32) (input : List UInt8) :
    Option (BitVec 32 × List UInt8) :=
  if input.takeWhile isDigit = [] then none else some ((input.takeWhile isDigit).foldl f 0, input.dropWhile isDigit)

def decimalStep (value : BitVec 32) (c : UInt8) : BitVec 32 := value * 10 + BitVec.ofNat 32 (digitValue c)

def hexStep (value : BitVec 32) (c : UInt8) : BitVec 32 := value <<< 4 + hexValue c

def scanInt (input : List UInt8) : Option (BitVec 32 × List UInt8) :=
  match skipSpaces input with
  | [] => none
  | c :: rest =>
    if c = ch '+' ∨ c = ch '-' then
      (scanNumber isDigitC decimalStep rest).map fun (value, rest) => (value * if c = ch '-' then -1 else 1, rest)
    else scanNumber isDigitC decimalStep (c :: rest)

def scanUint (input : List UInt8) : Option (BitVec 32 × List UInt8) :=
  scanNumber isDigitC decimalStep (skipSpaces input)

def scanHex (input : List UInt8) : Option (BitVec 32 × List UInt8) :=
  let input := skipSpaces input
  if input.head? = some (ch '0') ∧ (input[1]? = some (ch 'x') ∨ input[1]? = some (ch 'X')) then
    scanNumber isHexDigit hexStep (input.drop 2)
  else scanNumber isHexDigit hexStep input

/-- `scan_string`: the string that is stored, with its zero. -/
def scanString (input : List UInt8) : Option (List UInt8 × List UInt8) :=
  let input := skipSpaces input
  if input = [] then none else some (input.takeWhile (!isSpace ·) ++ [0], input.dropWhile (!isSpace ·))

def scanChar : List UInt8 → Option (List UInt8 × List UInt8)
  | [] => none
  | c :: input => some ([c], input)

/-- The variables of `vsscanf`, and the memory. -/
structure ScanState where
  input : List UInt8
  arg : ℕ
  mem : ℕ → UInt8
  assigned : ℕ

namespace ScanState

variable (args : ℕ → BitVec 32)

/-- Store to the address that is the next argument. -/
def assign (s : ScanState) (out : List UInt8) (rest : List UInt8) : ScanState :=
  ⟨rest, s.arg + 1, copyIn s.mem (args s.arg).toNat out, s.assigned + 1⟩

def assignInt (s : ScanState) (r : BitVec 32 × List UInt8) : ScanState := s.assign args (le 4 r.1.toNat) r.2

/-- A conversion; `none` is to return what was assigned up to it. -/
def convert (s : ScanState) (conv : UInt8) : Option ScanState :=
  if conv = ch 'd' then (scanInt s.input).map (s.assignInt args)
  else if conv = ch 'u' then (scanUint s.input).map (s.assignInt args)
  else if conv = ch 'x' ∨ conv = ch 'X' then (scanHex s.input).map (s.assignInt args)
  else if conv = ch 's' then (scanString s.input).map fun r => s.assign args r.1 r.2
  else if conv = ch 'c' then (scanChar s.input).map fun r => s.assign args r.1 r.2
  else none

/-- A character that the input must have. -/
def expect (s : ScanState) (c : UInt8) : Option ScanState :=
  if s.input.head? = some c then some { s with input := s.input.tail } else none

/-- One pass of the loop, at a format that is not at its end: the state and the rest of the format. -/
def step (s : ScanState) (f : UInt8) (format : List UInt8) : Option (ScanState × List UInt8) :=
  if isSpace f then some ({ s with input := skipSpaces s.input }, format.dropWhile isSpace)
  else if f ≠ ch '%' then (s.expect f).map fun s => (s, format)
  else
    match format with
    | [] => none
    | conv :: format => (if conv = ch '%' then s.expect (ch '%') else s.convert args conv).map fun s => (s, format)

/-- The loop, for at most `n` passes. -/
def loop : ℕ → ScanState → List UInt8 → ScanState
  | 0, s, _ => s
  | _ + 1, s, [] => s
  | n + 1, s, f :: format =>
    match s.step args f format with
    | none => s
    | some (s, format) => loop n s format

end ScanState

/-- `vsscanf`: the return value and the memory afterwards. A pass takes at least one character off the format. -/
def vsscanf (args : ℕ → BitVec 32) (mem : ℕ → UInt8) (str format : Option (List UInt8)) : ℤ × (ℕ → UInt8) :=
  match str, format with
  | some str, some format =>
    let s := ScanState.loop args format.length ⟨str, 0, mem, 0⟩ format
    (s.assigned, s.mem)
  | _, _ => (-1, mem)

end Saynaa
