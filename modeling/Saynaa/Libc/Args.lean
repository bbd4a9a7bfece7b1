import Saynaa.Libc.Cstring

/-!
# Command lines (`libraries/libc/src/args.c`)

The line is an array of `size` bytes. Pointers into it are indices, and a `NULL` pointer is `none`. A function
that looks behind the array, or runs out of fuel, gives `none`.
-/

namespace Saynaa

/-- `is_ws`: a blank, `'\t'`, `'\r'` or `'\n'`. -/
def isWs (c : UInt8) : Bool := c = 32 ∨ c = 9 ∨ c = 13 ∨ c = 10

/-- `*p`. -/
def lineAt (size : ℕ) (line : ℕ → UInt8) (p : ℕ) : Option UInt8 := if p < size then some (line p) else none

/-- `while (*p && is_ws(*p)) p++`, and with `ws = false` the same for `!is_ws(*p)`. -/
def skipWs (ws : Bool) (size : ℕ) (line : ℕ → UInt8) : ℕ → ℕ → Option ℕ
  | 0, _ => none
  | fuel + 1, p => do
    let c ← lineAt size line p
    if c ≠ 0 ∧ isWs c = ws then skipWs ws size line fuel (p + 1) else return p

/-- The variables of `split_args`. -/
structure ArgState where
  line : ℕ → UInt8
  argv : ℕ → Option ℕ
  argc : ℕ
  p : ℕ

/-- The loop of `split_args`. -/
def splitLoop (size : ℕ) (max_args : ℤ) : ℕ → ArgState → Option ArgState
  | 0, _ => none
  | fuel + 1, s => do
    if (← lineAt size s.line s.p) ≠ 0 ∧ s.argc < max_args then
      let p ← skipWs true size s.line fuel s.p
      if (← lineAt size s.line p) = 0 then return { s with p := p }
      else
        let argv := Function.update s.argv s.argc (some p)
        let p ← skipWs false size s.line fuel p
        if (← lineAt size s.line p) = 0 then return { s with argv := argv, argc := s.argc + 1, p := p }
        else splitLoop size max_args fuel ⟨Function.update s.line p 0, argv, s.argc + 1, p + 1⟩
    else return s

/-- `split_args`: the return value, the line and `argv` afterwards. -/
def splitArgs (fuel size : ℕ) (line : Option (ℕ → UInt8)) (argv : Option (ℕ → Option ℕ)) (max_args : ℤ) :
    Option (ℕ × Option (ℕ → UInt8) × Option (ℕ → Option ℕ)) :=
  match line, argv with
  | some l, some a =>
    if max_args ≤ 0 then some (0, line, some (Function.update a 0 none))
    else (splitLoop size max_args fuel ⟨l, a, 0, 0⟩).map fun s =>
      (s.argc, some s.line, some (Function.update s.argv s.argc none))
  | _, some a => some (0, line, some (Function.update a 0 none))
  | _, none => some (0, line, none)

end Saynaa
