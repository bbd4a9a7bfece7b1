import Mathlib.Tactic

/-!
# Bitmaps as arrays of words

A bitmap is an array of `w`-bit words; bit `b` is bit `b % w` of word `b / w`.
Setting and clearing one bit act on the set of set bits as insertion and removal.
-/

namespace Lib

variable {w : ℕ}

/-- Bit `b` of an array of `w`-bit words. -/
def getBit (bm : ℕ → BitVec w) (b : ℕ) : Bool := (bm (b / w)).getLsbD (b % w)

/-- The word whose only set bit is `n`. -/
def bitMask (w n : ℕ) : BitVec w := 1#w <<< n

/-- `bm[b / w] |= 1 << (b % w)`. -/
def setBit (bm : ℕ → BitVec w) (b : ℕ) : ℕ → BitVec w :=
  Function.update bm (b / w) (bm (b / w) ||| bitMask w (b % w))

/-- `bm[b / w] &= ~(1 << (b % w))`. -/
def clearBit (bm : ℕ → BitVec w) (b : ℕ) : ℕ → BitVec w :=
  Function.update bm (b / w) (bm (b / w) &&& ~~~bitMask w (b % w))

theorem getLsbD_bitMask {n i : ℕ} (hi : i < w) : (bitMask w n).getLsbD i = decide (i = n) := by
  unfold bitMask
  rw [BitVec.getLsbD_shiftLeft, BitVec.getLsbD_one]
  rcases lt_trichotomy i n with h | h | h
  · simp [h, h.ne]
  · subst h; simp [hi]; omega
  · simp [h.ne', hi]; omega

/-- The mask test of a bit. -/
theorem and_bitMask_eq_zero {x : BitVec w} {n : ℕ} (hn : n < w) :
    x &&& bitMask w n = 0#w ↔ x.getLsbD n = false := by
  constructor
  · intro h
    have := congrArg (·.getLsbD n) h
    simpa [getLsbD_bitMask hn] using this
  · intro h
    apply BitVec.eq_of_getLsbD_eq
    intro i hi
    rw [BitVec.getLsbD_and, getLsbD_bitMask hi]
    by_cases hin : i = n
    · subst hin; simp [h]
    · simp [hin]

theorem div_mod_inj {a b : ℕ} (h1 : a / w = b / w) (h2 : a % w = b % w) : a = b := by
  rw [← Nat.div_add_mod a w, ← Nat.div_add_mod b w, h1, h2]

theorem getBit_setBit (hw : 0 < w) (bm : ℕ → BitVec w) (b c : ℕ) :
    getBit (setBit bm b) c = (decide (c = b) || getBit bm c) := by
  unfold getBit setBit
  have hc := Nat.mod_lt c hw
  by_cases hq : c / w = b / w
  · rw [hq, Function.update_self, BitVec.getLsbD_or, getLsbD_bitMask hc, Bool.or_comm]
    congr 1
    exact decide_eq_decide.2 ⟨fun h => div_mod_inj hq h, fun h => by rw [h]⟩
  · rw [Function.update_of_ne hq]
    have : c ≠ b := fun h => hq (by rw [h])
    simp [this]

theorem getBit_clearBit (hw : 0 < w) (bm : ℕ → BitVec w) (b c : ℕ) :
    getBit (clearBit bm b) c = (!decide (c = b) && getBit bm c) := by
  unfold getBit clearBit
  have hc := Nat.mod_lt c hw
  by_cases hq : c / w = b / w
  · rw [hq, Function.update_self, BitVec.getLsbD_and, BitVec.getLsbD_not, getLsbD_bitMask hc,
      Bool.and_comm]
    congr 1
    have : c % w = b % w ↔ c = b := ⟨fun h => div_mod_inj hq h, fun h => by rw [h]⟩
    simp [hc, this]
  · rw [Function.update_of_ne hq]
    have : c ≠ b := fun h => hq (by rw [h])
    simp [this]

end Lib
