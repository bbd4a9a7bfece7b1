import Saynaa.Lib.Bytes

/-!
# Zero-terminated strings

* `CStr q a l`: the memory `q` holds the string `l` at `a`.
* `CStr.tail`, `CStr.drop`, `CStr.take`: suffixes, and what a zero makes of a prefix.
* `CStr.congr`, `CStr.append`: other memories, and a string written behind another one.
-/

namespace Lib

variable {q q' : ℕ → UInt8} {a : ℕ} {c : UInt8} {l l' : List UInt8}

/-- **A string in memory**: its characters, none of them zero, and a zero behind them. -/
def CStr (q : ℕ → UInt8) : ℕ → List UInt8 → Prop
  | a, [] => q a = 0
  | a, c :: l => q a = c ∧ c ≠ 0 ∧ CStr q (a + 1) l

@[simp] theorem CStr_nil : CStr q a [] ↔ q a = 0 := Iff.rfl
@[simp] theorem CStr_cons : CStr q a (c :: l) ↔ q a = c ∧ c ≠ 0 ∧ CStr q (a + 1) l := Iff.rfl

theorem CStr.tail (h : CStr q a (c :: l)) : CStr q (a + 1) l := h.2.2

theorem CStr.ne_zero (h : CStr q a l) : ∀ c ∈ l, c ≠ 0 := by
  induction l generalizing a with
  | nil => simp
  | cons c l ih => exact List.forall_mem_cons.2 ⟨h.2.1, ih h.2.2⟩

/-- The suffixes of a string. -/
theorem CStr.drop (h : CStr q a (l ++ l')) : CStr q (a + l.length) l' := by
  induction l generalizing a with
  | nil => exact h
  | cons c l ih =>
    have h1 := ih h.tail
    rwa [List.length_cons, add_comm l.length 1, ← add_assoc]

theorem CStr.end_zero (h : CStr q a l) : q (a + l.length) = 0 := by
  have h1 : CStr q a (l ++ []) := by rwa [List.append_nil]
  exact h1.drop

/-- A string is determined by the memory up to its end. -/
theorem CStr.congr (h : CStr q a l) (hq : ∀ i, a ≤ i → i ≤ a + l.length → q' i = q i) : CStr q' a l := by
  induction l generalizing a with
  | nil =>
    have h1 := hq a le_rfl (by simp)
    exact h1.trans h
  | cons c l ih =>
    rw [List.length_cons] at hq
    refine ⟨(hq a le_rfl (by omega)).trans h.1, h.2.1, ih h.2.2 fun i h1 h2 => hq i (by omega) (by omega)⟩

/-- A zero behind a prefix. -/
theorem CStr.take (h : CStr q a (l ++ l')) (hq : ∀ i, a ≤ i → i < a + l.length → q' i = q i)
    (hz : q' (a + l.length) = 0) : CStr q' a l := by
  induction l generalizing a with
  | nil => exact hz
  | cons c l ih =>
    rw [List.length_cons] at hq hz
    refine ⟨(hq a le_rfl (by omega)).trans h.1, h.2.1, ih h.2.2 (fun i h1 h2 => hq i (by omega) (by omega)) ?_⟩
    rwa [add_assoc, add_comm 1]

/-- Two strings at one place are the same. -/
theorem CStr.unique (h : CStr q a l) (h' : CStr q a l') : l = l' := by
  induction l generalizing a l' with
  | nil =>
    cases l' with
    | nil => rfl
    | cons c l' => exact absurd (h'.1.symm.trans h) h'.2.1
  | cons c l ih =>
    cases l' with
    | nil => exact absurd (h.1.symm.trans h') h.2.1
    | cons d l' =>
      obtain rfl : c = d := h.1.symm.trans h'.1
      rw [ih h.2.2 h'.2.2]

/-- One string in two memories. -/
theorem CStr.agree (h : CStr q a l) (h' : CStr q' a l) : ∀ i, a ≤ i → i ≤ a + l.length → q i = q' i := by
  induction l generalizing a with
  | nil =>
    intro i h1 h2
    obtain rfl : i = a := by
      rw [List.length_nil] at h2
      omega
    exact h.trans h'.symm
  | cons c l ih =>
    intro i h1 h2
    rw [List.length_cons] at h2
    by_cases hi : i = a
    · rw [hi, h.1, h'.1]
    · exact ih h.tail h'.tail i (by omega) (by omega)

/-- A string that was written. -/
theorem CStr_copyIn (hl : ∀ c ∈ l, c ≠ 0) : CStr (copyIn q a (l ++ [0])) a l := by
  induction l generalizing q a with
  | nil =>
    show copyIn q a [0] a = 0
    rw [copyIn_in le_rfl (by simp)]
    simp
  | cons c l ih =>
    have hsplit : copyIn q a (c :: l ++ [0]) = copyIn (copyIn q a [c]) (a + 1) (l ++ [0]) :=
      (copyIn_append q a [c] (l ++ [0])).symm
    rw [hsplit]
    refine ⟨?_, hl c List.mem_cons_self, ih fun d hd => hl d (List.mem_cons_of_mem c hd)⟩
    rw [copyIn_out (.inl (by omega)), copyIn_in le_rfl (by simp)]
    simp

/-- **A string written behind another one**, over its terminator. -/
theorem CStr.append (h : CStr q a l) (hl : ∀ c ∈ l', c ≠ 0) :
    CStr (copyIn q (a + l.length) (l' ++ [0])) a (l ++ l') := by
  induction l generalizing a with
  | nil => exact CStr_copyIn hl
  | cons c l ih =>
    have h1 := ih h.tail
    rw [List.length_cons, add_comm l.length 1, ← add_assoc]
    refine ⟨?_, h.2.1, h1⟩
    rw [copyIn_out (.inl (by omega))]
    exact h.1

end Lib
