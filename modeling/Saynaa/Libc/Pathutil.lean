import Saynaa.Fs.Vfs
import Saynaa.Libc.Cstring

/-!
# Path normalisation (`libraries/libc/src/pathutil.c`)

The path is rewritten in the caller's buffer. Its components are pointers into `temp`, a copy whose
separators are overwritten by zeros. `none` is running out of fuel, or a look behind `temp`.
-/

namespace Saynaa

open Lib

/-- `'.'`. -/
def period : UInt8 := 46

/-- The entries of `segments`. -/
def maxSegments : ℕ := 64

/-- `sizeof(temp)`. -/
def tempSize : ℕ := 256

/-- `*token`, for a pointer into `temp`. -/
def tempAt (temp : ℕ → UInt8) (token : ℕ) : Option UInt8 := if token < tempSize then some (temp token) else none

/-- `while (*token == '/') token++`. -/
def skipSeparators (temp : ℕ → UInt8) : ℕ → ℕ → Option ℕ
  | 0, _ => none
  | fuel + 1, token => do
    if (← tempAt temp token) = slash then skipSeparators temp fuel (token + 1) else return token

/-- `while (*token && *token != '/') token++`. -/
def skipSegment (temp : ℕ → UInt8) : ℕ → ℕ → Option ℕ
  | 0, _ => none
  | fuel + 1, token => do
    let c ← tempAt temp token
    if c ≠ 0 ∧ c ≠ slash then skipSegment temp fuel (token + 1) else return token

/-- The variables of `normalize_path`; `segments` are the first `top` entries of the array. -/
structure NormState where
  temp : ℕ → UInt8
  token : ℕ
  segments : List ℕ

/-- `if (*token) *token++ = '\0'`. -/
def NormState.terminate (s : NormState) : Option NormState := do
  if (← tempAt s.temp s.token) ≠ 0 then
    return { s with temp := Function.update s.temp s.token 0, token := s.token + 1 }
  else return s

/-- The loop over the components. -/
def normLoop : ℕ → NormState → Option NormState
  | 0, _ => none
  | fuel + 1, s => do
    if (← tempAt s.temp s.token) = 0 then return s
    else
      let start ← skipSeparators s.temp fuel s.token
      if (← tempAt s.temp start) = 0 then return { s with token := start }
      else
        let token ← skipSegment s.temp fuel start
        let s ← { s with token := token }.terminate
        if (← strcmp s.temp (literal [period]) fuel start 0) = 0 then normLoop fuel s
        else if (← strcmp s.temp (literal [period, period]) fuel start 0) = 0 then
          normLoop fuel { s with segments := s.segments.dropLast }
        else if s.segments.length < maxSegments then
          normLoop fuel { s with segments := s.segments ++ [start] }
        else normLoop fuel s

/-- The loop that writes the path. -/
def joinLoop (fuel : ℕ) (path temp : ℕ → UInt8) : List ℕ → Option (ℕ → UInt8)
  | [] => some path
  | segment :: rest => do
    let path ← strcat fuel path 0 (literal [slash]) 0
    let path ← strcat fuel path 0 temp segment
    joinLoop fuel path temp rest

/-- `normalize_path` of the string at the start of `path`: the return value and the buffer afterwards.
`stack` is what `temp` holds before. -/
def normalizePath (fuel : ℕ) (stack path : ℕ → UInt8) : Option (ℕ × (ℕ → UInt8)) := do
  if path 0 = 0 then return (0, path)
  else
    let temp := Function.update (strncpy stack 0 path 0 (tempSize - 1)) (tempSize - 1) 0
    let s ← normLoop fuel ⟨temp, 0, []⟩
    if s.segments = [] then return (1, ← strcpy fuel path 0 (literal [slash]) 0)
    else return (1, ← joinLoop fuel (Function.update path 0 0) s.temp s.segments)

end Saynaa
