import Saynaa.Libc.Vcbprintf

/-!
# Formatted output to a string (`libraries/libc/src/stdio/vsnprintf.c`)

The string is written to an address in a memory of its own: it does not overlap the format and the arguments.
-/

namespace Saynaa

open Lib

/-- `struct vsnprintf`; `mem` is the memory that `str` points into. -/
structure Vsnprintf where
  mem : ℕ → UInt8
  str : ℕ
  size : ℕ
  written : ℕ

/-- `vsnprintf_callback`. -/
def vsnprintfCallback (state : Vsnprintf) (string : List UInt8) : ℕ × Vsnprintf :=
  if 0 < state.size ∧ state.written < state.size then
    let available := state.size - state.written
    let possible := if string.length < available then string.length else available
    (possible, { state with
      mem := copyIn state.mem (state.str + state.written) (string.take possible)
      written := state.written + possible })
  else (0, state)

variable (args : ℕ → BitVec 32) (ops : FloatOps) (mem : ℕ → UInt8)

/-- `vsnprintf` to the address `str` in `q`: the return value and `q` afterwards. `mem` is the memory of the
arguments. -/
def vsnprintf (q : ℕ → UInt8) (str size : ℕ) (format : List UInt8) : ℤ × (ℕ → UInt8) :=
  let (result, state) :=
    (vcbprintf args ops mem format).run vsnprintfCallback ⟨q, str, if size ≠ 0 then size - 1 else 0, 0⟩
  (result.elim (-1) fun r => r.1, if 1 ≤ size then copyIn state.mem (str + state.written) [0] else state.mem)

end Saynaa
