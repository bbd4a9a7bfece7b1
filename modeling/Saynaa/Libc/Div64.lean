import Mathlib.Tactic

/-!
# 64-bit division (`libraries/libc/src/stdlib/div64.c`)

The helpers that the compiler calls on a 32-bit machine. `divState n d k` is what `q` and `r` hold after `k`
iterations of the loop of `__udivdi3`, the last one for bit `64 - k`.
-/

namespace Saynaa

/-- The next partial remainder: `(r << 1) | ((n >> i) & 1)`. -/
def shiftIn (n r : BitVec 64) (i : ℕ) : BitVec 64 := (r <<< 1) ||| ((n >>> i) &&& 1#64)

structure DivState where
  q : BitVec 64
  r : BitVec 64

/-- The body of the loop of `__udivdi3`. -/
def divStep (n d : BitVec 64) (i : ℕ) (s : DivState) : DivState :=
  let r := shiftIn n s.r i
  if d ≤ r then ⟨s.q ||| (1#64 <<< i), r - d⟩ else ⟨s.q, r⟩

def divState (n d : BitVec 64) : ℕ → DivState
  | 0 => ⟨0, 0⟩
  | k + 1 => divStep n d (63 - k) (divState n d k)

/-- `__udivdi3`. -/
def udivdi3 (n d : BitVec 64) : BitVec 64 := (divState n d 64).q

/-- The body of the loop of `__umoddi3`. -/
def modStep (n d : BitVec 64) (i : ℕ) (r : BitVec 64) : BitVec 64 :=
  let r := shiftIn n r i
  if d ≤ r then r - d else r

def modState (n d : BitVec 64) : ℕ → BitVec 64
  | 0 => 0
  | k + 1 => modStep n d (63 - k) (modState n d k)

/-- `__umoddi3`. -/
def umoddi3 (n d : BitVec 64) : BitVec 64 := modState n d 64

/-- `(a < 0) ? -a : a`. -/
def magnitude (a : BitVec 64) : BitVec 64 := if a.toInt < 0 then -a else a

/-- `__divdi3`. -/
def divdi3 (a b : BitVec 64) : BitVec 64 :=
  let sign := xor (decide (a.toInt < 0)) (decide (b.toInt < 0))
  let q := udivdi3 (magnitude a) (magnitude b)
  if sign then -q else q

/-- `__moddi3`. -/
def moddi3 (a b : BitVec 64) : BitVec 64 :=
  let r := umoddi3 (magnitude a) (magnitude b)
  if a.toInt < 0 then -r else r

end Saynaa
