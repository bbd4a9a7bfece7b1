import Saynaa.Proof.Vcbprintf

/-!
# Formats without flags

* `loop_cons`: the passes of a call, one by one.
* `step_literal`: a run of characters.
* `parseSpec_none`, `step_none`: a conversion character right behind its `'%'`.
* `step_string`: the conversion `s`.
-/

namespace Saynaa

open Lib

variable {args : ℕ → BitVec 32} {ops : FloatOps} {s s' f : PfState} {c conv : UInt8}
  {lit rest format out t : List UInt8} {n : ℕ}

namespace PfState

/-! ### Passes -/

theorem loop_nil (h : s.format = []) (n : ℕ) : (loop args ops n s).Writes [] s := by
  cases n with
  | zero => exact .pure s
  | succ n =>
    unfold loop
    rw [if_pos h]
    exact .pure s

/-- **One pass**, then the others. -/
theorem loop_cons (hne : s.format ≠ []) (h : (s.step args ops).Writes t s') (h' : (loop args ops n s').Writes out f) :
    (loop args ops (n + 1) s).Writes (t ++ out) f := by
  unfold loop
  rw [if_neg hne]
  exact h.bind h'

/-- **A run of characters** up to the next `'%'` or the end. -/
theorem step_literal (args : ℕ → BitVec 32) (ops : FloatOps) (s : PfState) (hf : s.format = lit ++ rest)
    (hne : lit ≠ []) (hlit : ch '%' ∉ lit) (hlen : lit.length < maxFormatScan)
    (hrest : rest = [] ∨ rest.head? = some (ch '%')) :
    (s.step args ops).Writes lit ({ s with format := rest }.wrote lit.length) := by
  have hhead : s.format.head? ≠ some (ch '%') := by
    obtain ⟨c, l, rfl⟩ := List.exists_cons_of_ne_nil hne
    rw [hf]
    intro h
    exact hlit (Option.some.inj h ▸ List.mem_cons_self)
  have hscan : (s.format.take maxFormatScan).takeWhile (· ≠ ch '%') = lit := by
    have hall : ∀ c ∈ lit, decide (c ≠ ch '%') = true := fun c hc => decide_eq_true fun h => hlit (h ▸ hc)
    rw [hf, List.take_append, List.take_of_length_le hlen.le, List.takeWhile_append_of_pos hall]
    rcases hrest with rfl | hrest
    · -- the text ends the format
      simp
    · -- a `%` comes behind it
      obtain ⟨k, hk⟩ : ∃ k, maxFormatScan - lit.length = k + 1 := ⟨maxFormatScan - lit.length - 1, by omega⟩
      cases rest with
      | nil => simp
      | cons c rest =>
        obtain rfl := Option.some.inj hrest
        rw [hk, List.take_succ_cons, List.takeWhile_cons_of_neg (by simp), List.append_nil]
  have hpos := List.length_pos_iff.2 hne
  unfold step
  rw [if_pos hhead]
  simp only
  rw [hscan, if_neg (by omega), if_neg (by omega), hf, List.drop_left, List.take_left]
  exact puts_put lit { s with format := rest }

/-! ### Plain conversions -/

/-- A conversion character that is neither a flag nor a part of a width, a precision or a length modifier. -/
def Plain (conv : UInt8) : Prop := conv ∈ [ch 'd', ch 'i', ch 'u', ch 'x', ch 's', ch 'c']

theorem parseSpec_none (h : Plain conv) (args : ℕ → BitVec 32) (rest : List UInt8) (arg : ℕ) :
    parseSpec args (conv :: rest) arg = some (.none, conv :: rest, arg) := by
  unfold Plain at h
  simp only [List.mem_cons, List.not_mem_nil, or_false] at h
  rcases h with rfl | rfl | rfl | rfl | rfl | rfl <;> rfl

theorem step_none (h : Plain conv) (hf : s.format = ch '%' :: conv :: rest) (hr : s.rejectedBadSpecifier = false) :
    s.step args ops = { s with format := rest }.convert args ops s.format .none conv := by
  have hne : conv ≠ ch '%' := by
    rintro rfl
    exact absurd h (by unfold Plain; decide)
  have h1 : s.format[1]? ≠ some (ch '%') := by
    rw [hf]
    exact fun h => hne (Option.some.inj h)
  unfold step
  rw [if_neg (by rw [hf]; simp), if_neg h1, hr, if_neg Bool.false_ne_true]
  rw [show s.format.tail = conv :: rest by rw [hf]; rfl, parseSpec_none h]

/-- A text without a field width. -/
theorem paddedText_none (chunk : List UInt8) (length : ℕ) : paddedText .none chunk length = chunk := by
  have hw : PfSpec.none.absFieldWidth = 0 := rfl
  unfold paddedText
  rw [hw, Nat.zero_sub]
  simp [PfSpec.none]

/-- The string at an address, as far as it is looked at. -/
theorem stringAt_none (s : PfState) {address : BitVec 32} (ha : address ≠ 0) {l : List UInt8}
    (h : CStr s.mem address.toNat l) : s.stringAt .none (ch 's') address = l.take maxStringScan := by
  have hscan : strnlen s.mem address.toNat maxStringScan = (l.take maxStringScan).length := by
    by_cases hlen : l.length ≤ maxStringScan
    · rw [List.take_of_length_le hlen, strnlen_cstr h hlen]
    · rw [strnlen_long h (by omega), List.length_take, min_eq_left (by omega)]
  have hsplit : CStr s.mem address.toNat (l.take maxStringScan ++ l.drop maxStringScan) := by
    rwa [List.take_append_drop]
  unfold stringAt
  rw [if_pos (show PfSpec.none.precision = sizeMax from rfl)]
  simp only
  rw [if_neg fun hc => ha hc.2, hscan]
  exact copyOut_of_append hsplit

/-- **The conversion `s`.** -/
theorem step_string (args : ℕ → BitVec 32) (ops : FloatOps) (s : PfState)
    (hf : s.format = ch '%' :: ch 's' :: rest) (hr : s.rejectedBadSpecifier = false)
    (ha : args s.arg ≠ 0) {l : List UInt8} (h : CStr s.mem (args s.arg).toNat l) :
    (s.step args ops).Writes (l.take maxStringScan)
      ({ s with format := rest, arg := s.arg + 1 }.wrote (l.take maxStringScan).length) := by
  have hplain : Plain (ch 's') := by
    unfold Plain
    decide
  have hstr := stringAt_none { s with format := rest } ha h
  rw [step_none hplain hf hr]
  unfold convert
  rw [if_neg (by decide), if_neg (by decide), if_neg (by decide), if_pos (.inl rfl),
    if_pos (show PfSpec.none.length = .default from rfl)]
  simp only
  rw [hstr]
  have h1 := puts_padded .none (l.take maxStringScan)
    (l.take maxStringScan).length { s with format := rest, arg := s.arg + 1 }
  rwa [paddedText_none] at h1

end PfState

/-- **What a call writes** is what its loop writes, whether or not it is too much for the return value. -/
theorem vcbprintf_output {mem : ℕ → UInt8}
    (h : (PfState.loop args ops format.length ⟨format, 0, mem, 0, false⟩).Writes out f) :
    (vcbprintf args ops mem format).output = out := by
  unfold vcbprintf
  rw [Calls.output_bind_of_result h.result, h.output]
  split_ifs <;> exact List.append_nil out

end Saynaa
