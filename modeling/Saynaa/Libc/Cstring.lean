import Saynaa.Lib.CStr
import Saynaa.Libc.Math

/-!
# Strings (`libraries/libc/src/string`)

A `char*` is an address in a memory `ℕ → UInt8`; two arguments may point into different ones. The
loops run up to a zero, and `none` is running out of fuel before there is one.
-/

namespace Saynaa

open Lib

/-- `strlen`. -/
def strlen (q : ℕ → UInt8) : ℕ → ℕ → Option ℕ
  | 0, _ => none
  | fuel + 1, s => if q s ≠ 0 then (strlen q fuel (s + 1)).map (· + 1) else some 0

/-- `strnlen`. -/
def strnlen (q : ℕ → UInt8) : ℕ → ℕ → ℕ
  | _, 0 => 0
  | s, n + 1 => if q s ≠ 0 then strnlen q (s + 1) n + 1 else 0

/-- `strncpy`. -/
def strncpy (q : ℕ → UInt8) (dest : ℕ) (q' : ℕ → UInt8) (src n : ℕ) : ℕ → UInt8 :=
  let len := strnlen q' src n
  copyIn (copyIn q (dest + len) (List.replicate (n - len) 0)) dest (copyOut q' src len)

/-- `strcpy`. -/
def strcpy (fuel : ℕ) (q : ℕ → UInt8) (dest : ℕ) (q' : ℕ → UInt8) (src : ℕ) : Option (ℕ → UInt8) := do
  let len ← strlen q' fuel src
  return copyIn q dest (copyOut q' src len ++ [0])

/-- `strcat`. -/
def strcat (fuel : ℕ) (q : ℕ → UInt8) (dest : ℕ) (q' : ℕ → UInt8) (src : ℕ) : Option (ℕ → UInt8) := do
  let d ← strlen q fuel dest
  strcpy fuel q (dest + d) q' src

/-- A `char`, which is signed. -/
def charInt (c : UInt8) : ℤ := if c.toNat < 128 then c.toNat else c.toNat - 256

/-- `strcmp`. -/
def strcmp (q q' : ℕ → UInt8) : ℕ → ℕ → ℕ → Option ℤ
  | 0, _, _ => none
  | fuel + 1, s1, s2 =>
    if q s1 ≠ 0 ∧ q s1 = q' s2 then strcmp q q' fuel (s1 + 1) (s2 + 1) else some (charInt (q s1) - charInt (q' s2))

/-- A string literal. -/
def literal (l : List UInt8) : ℕ → UInt8 := fun i => l.getD i 0

variable {q q' : ℕ → UInt8} {a b fuel n : ℕ} {l l' : List UInt8}

/-- A string at the end of a literal. -/
theorem literal_drop (hm : ∀ c ∈ l', c ≠ 0) (hn : l.drop n = l') : CStr (literal l) n l' := by
  induction l' generalizing n with
  | nil =>
    have hle := List.drop_eq_nil_iff.1 hn
    simp [literal, hle]
  | cons c m ih =>
    have hn1 : l.drop (n + 1) = m := by
      rw [← List.drop_drop, hn]
      rfl
    have hget : l[n]? = some c := by
      have h1 : (l.drop n)[0]? = some c := by rw [hn]; rfl
      rwa [List.getElem?_drop, add_zero] at h1
    refine ⟨?_, hm c List.mem_cons_self, ih (fun d hd => hm d (List.mem_cons_of_mem c hd)) hn1⟩
    simp [literal, hget]

theorem literal_cstr (hl : ∀ c ∈ l, c ≠ 0) : CStr (literal l) 0 l := literal_drop hl rfl

theorem strlen_cstr (h : CStr q a l) (hf : l.length < fuel) : strlen q fuel a = some l.length := by
  induction l generalizing a fuel with
  | nil =>
    obtain ⟨k, rfl⟩ : ∃ k, fuel = k + 1 := ⟨fuel - 1, by omega⟩
    exact if_neg (not_not.2 h)
  | cons c l ih =>
    rw [List.length_cons] at hf
    obtain ⟨k, rfl⟩ : ∃ k, fuel = k + 1 := ⟨fuel - 1, by omega⟩
    have h0 : q a ≠ 0 := h.1 ▸ h.2.1
    unfold strlen
    rw [if_pos h0, ih h.tail (by omega)]
    rfl

theorem strnlen_cstr (h : CStr q a l) (hn : l.length ≤ n) : strnlen q a n = l.length := by
  induction l generalizing a n with
  | nil =>
    cases n with
    | zero => rfl
    | succ n => exact if_neg (not_not.2 h)
  | cons c l ih =>
    rw [List.length_cons] at hn
    obtain ⟨k, rfl⟩ : ∃ k, n = k + 1 := ⟨n - 1, by omega⟩
    have h0 : q a ≠ 0 := h.1 ▸ h.2.1
    unfold strnlen
    rw [if_pos h0, ih h.tail (by omega)]
    rfl

/-- A string that is longer than the bound. -/
theorem strnlen_long (h : CStr q a l) (hn : n ≤ l.length) : strnlen q a n = n := by
  induction l generalizing a n with
  | nil =>
    obtain rfl : n = 0 := Nat.le_zero.1 hn
    rfl
  | cons c l ih =>
    cases n with
    | zero => rfl
    | succ n =>
      have h0 : q a ≠ 0 := h.1 ▸ h.2.1
      unfold strnlen
      rw [if_pos h0, ih h.tail (Nat.le_of_succ_le_succ hn)]

/-- The beginning of a string. -/
theorem copyOut_of_append (h : CStr q a (l ++ l')) : copyOut q a l.length = l := by
  induction l generalizing a with
  | nil => rfl
  | cons c l ih =>
    rw [List.length_cons, add_comm, copyOut_add, ih h.tail]
    exact congrArg (· :: l) h.1

theorem copyOut_cstr (h : CStr q a l) : copyOut q a l.length = l := by
  have h1 : CStr q a (l ++ []) := by rwa [List.append_nil]
  exact copyOut_of_append h1

/-- **`strncpy`**, with a zero behind the characters that it can copy. -/
theorem strncpy_cstr_at (h : CStr q' b l) (q : ℕ → UInt8) (a n : ℕ) :
    CStr (Function.update (strncpy q a q' b n) (a + n) 0) a (l.take n) := by
  have hn : strnlen q' b n = (l.take n).length := by
    by_cases hlen : l.length ≤ n
    · rw [List.take_of_length_le hlen, strnlen_cstr h hlen]
    · rw [strnlen_long h (by omega), List.length_take, min_eq_left (by omega)]
  have hle : (l.take n).length ≤ n := List.length_take_le ..
  have hsplit : CStr q' b (l.take n ++ l.drop n) := by rwa [List.take_append_drop]
  have hchars : ∀ c ∈ l.take n, c ≠ 0 := fun c hc => h.ne_zero c (List.mem_of_mem_take hc)
  -- the copied characters and a zero, which is either of the padding or behind it
  refine (CStr_copyIn (q := q) (a := a) hchars).congr fun i ha hi => ?_
  unfold strncpy
  rw [hn]
  simp only
  rw [copyOut_of_append hsplit]
  by_cases hin : i < a + (l.take n).length
  · rw [Function.update_of_ne (by omega), copyIn_in ha (by omega),
      copyIn_in ha (by simp only [List.length_append, List.length_singleton]; omega)]
    exact (List.getElem_append_left (by omega)).symm
  · obtain rfl : i = a + (l.take n).length := by omega
    have hend : copyIn q a (l.take n ++ [0]) (a + (l.take n).length) = 0 := by
      rw [copyIn_in ha (by simp)]
      simp
    rw [hend]
    by_cases hlast : (l.take n).length = n
    · rw [hlast]
      exact Function.update_self ..
    · rw [Function.update_of_ne (by omega), copyIn_out (.inr (by omega)),
        copyIn_in (by omega) (by rw [List.length_replicate]; omega)]
      simp

theorem strncpy_cstr (h : CStr q' b l) (q : ℕ → UInt8) (n : ℕ) :
    CStr (Function.update (strncpy q 0 q' b n) n 0) 0 (l.take n) := by
  have hat := strncpy_cstr_at h q 0 n
  rwa [zero_add] at hat

/-- The padding. -/
theorem strncpy_zero {i : ℕ} (h : CStr q' b l) (hl : l.length ≤ i) (hi : i < n) : strncpy q 0 q' b n i = 0 := by
  unfold strncpy
  rw [strnlen_cstr h (by omega)]
  rw [copyIn_out (.inr (by rw [length_copyOut]; omega)), copyIn_in (by omega) (by rw [List.length_replicate]; omega)]
  exact List.getElem_replicate _

theorem strncpy_out {i : ℕ} (hi : n ≤ i) : strncpy q 0 q' b n i = q i := by
  have hle : strnlen q' b n ≤ n := by
    induction n generalizing b with
    | zero => exact le_rfl
    | succ n ih =>
      unfold strnlen
      split_ifs
      · exact Nat.succ_le_succ (ih (Nat.le_of_succ_le hi))
      · exact Nat.zero_le _
  unfold strncpy
  rw [copyIn_out (.inr ?_), copyIn_out (.inr ?_)]
  · rw [List.length_replicate]
    omega
  · simp only [copyOut, List.length_map, List.length_range]
    omega

theorem strcpy_cstr (h : CStr q' b l) (hf : l.length < fuel) (q : ℕ → UInt8) (a : ℕ) :
    strcpy fuel q a q' b = some (copyIn q a (l ++ [0])) := by
  unfold strcpy
  rw [strlen_cstr h hf]
  show some _ = some _
  rw [copyOut_cstr h]

theorem strcat_cstr (h : CStr q a l) (h' : CStr q' b l') (hf : l.length < fuel) (hf' : l'.length < fuel) :
    strcat fuel q a q' b = some (copyIn q (a + l.length) (l' ++ [0])) := by
  unfold strcat
  rw [strlen_cstr h hf]
  exact strcpy_cstr h' hf' q (a + l.length)

theorem charInt_inj {c d : UInt8} (h : charInt c = charInt d) : c = d := by
  unfold charInt at h
  have hc := c.toNat_lt
  have hd := d.toNat_lt
  exact UInt8.toNat_inj.1 (by split_ifs at h <;> omega)

/-- **`strcmp` finds strings equal** that are. -/
theorem strcmp_cstr (h : CStr q a l) (h' : CStr q' b l') (hf : l.length < fuel) :
    ∃ r, strcmp q q' fuel a b = some r ∧ (r = 0 ↔ l = l') := by
  induction l generalizing a b l' fuel with
  | nil =>
    obtain ⟨k, rfl⟩ : ∃ k, fuel = k + 1 := ⟨fuel - 1, by omega⟩
    have h0 : q a = 0 := h
    unfold strcmp
    rw [if_neg fun hc => hc.1 h0]
    refine ⟨_, rfl, ?_⟩
    rw [h0, sub_eq_zero]
    constructor
    · intro hr
      exact CStr.unique (q := q') (charInt_inj hr).symm h'
    · rintro rfl
      rw [CStr_nil.1 h']
  | cons c l ih =>
    rw [List.length_cons] at hf
    obtain ⟨k, rfl⟩ : ∃ k, fuel = k + 1 := ⟨fuel - 1, by omega⟩
    obtain ⟨hc, hc0, ht⟩ := h
    unfold strcmp
    by_cases heq : q' b = c
    · -- an equal character: the rest decides
      cases l' with
      | nil => exact absurd (heq.symm.trans h') hc0
      | cons d l' =>
        obtain rfl : c = d := heq.symm.trans h'.1
        rw [if_pos ⟨by rwa [hc], by rw [hc, heq]⟩]
        obtain ⟨r, hr, hiff⟩ := ih ht h'.tail (by omega : l.length < k)
        exact ⟨r, hr, by rw [hiff]; simp⟩
    · -- the first difference is the result
      rw [if_neg fun hh => heq (hh.2.symm.trans hc)]
      refine ⟨_, rfl, ?_⟩
      rw [sub_eq_zero, hc]
      constructor
      · intro hr
        exact absurd (charInt_inj hr).symm heq
      · rintro rfl
        exact absurd h'.1 heq

end Saynaa
