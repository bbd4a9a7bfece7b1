import Saynaa.Libc.Pathutil
import Saynaa.Libc.Vsnprintf

/-!
# Absolute paths (`libraries/libc/src/pathutil.c`)

`cwd` and `input` are pointers into the memory `mem`, and `out` is a buffer of its own; `NULL` is 0 or `none`.
-/

namespace Saynaa

open Lib

/-- The arguments of a variadic call; what lies behind them on the stack is 0. -/
def varArgs (l : List (BitVec 32)) : ℕ → BitVec 32 := fun i => l.getD i 0

variable (ops : FloatOps) (mem : ℕ → UInt8)

/-- `snprintf`: the buffer afterwards. -/
def snprintf (q : ℕ → UInt8) (size : ℕ) (format : List UInt8) (l : List (BitVec 32)) : ℕ → UInt8 :=
  (vsnprintf (varArgs l) ops mem q 0 size format).2

/-- The part of `make_abs_path` that fills the buffer. -/
def joinPaths (fuel : ℕ) (cwd input : BitVec 32) (out : ℕ → UInt8) (outLen : ℕ) : Option (ℕ → UInt8) :=
  if mem input.toNat = slash then some (Function.update (strncpy out 0 mem input.toNat (outLen - 1)) (outLen - 1) 0)
  else (strcmp mem (literal [slash]) fuel cwd.toNat 0).map fun r =>
    if r = 0 then snprintf ops mem out outLen [slash, ch '%', ch 's'] [input]
    else snprintf ops mem out outLen [ch '%', ch 's', slash, ch '%', ch 's'] [cwd, input]

/-- `make_abs_path`: the return value and `out` afterwards. `stack` is what the buffer of `normalize_path` holds
before. -/
def makeAbsPath (fuel : ℕ) (stack : ℕ → UInt8) (cwd input : BitVec 32) (out : Option (ℕ → UInt8)) (outLen : ℕ) :
    Option (ℕ × Option (ℕ → UInt8)) :=
  match out with
  | none => some (0, none)
  | some out =>
    if cwd = 0 ∨ input = 0 ∨ outLen = 0 then some (0, some out)
    else do
      let (r, out) ← normalizePath fuel stack (← joinPaths ops mem fuel cwd input out outLen)
      return (r, some out)

end Saynaa
