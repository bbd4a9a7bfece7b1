import Mathlib.Tactic

/-!
# Functions that write through a callback

`Calls β α` is a function that passes strings over `β` to a callback, looks at the numbers that it returns, and
returns a value or fails.

* `Calls.output`, `Calls.result`: what it writes and returns while every string is taken whole.
* `Calls.Writes`: both together, with a rule for composition.
* `Calls.Checked`: it fails at the first string that is not.
* `run_accept`, `run_bounded`: its runs with a callback that takes everything, and with one that takes the
  first `cap` elements.
* `run_simulates`: callbacks that return the same numbers.
-/

namespace Lib

variable {α β γ σ τ : Type}

inductive Calls (β α : Type) where
  | ret (a : α)
  | fail
  | call (chunk : List β) (next : ℕ → Calls β α)

namespace Calls

def bind : Calls β α → (α → Calls β γ) → Calls β γ
  | ret a, f => f a
  | fail, _ => fail
  | call chunk next, f => call chunk fun n => (next n).bind f

instance : Monad (Calls β) where
  pure := ret
  bind := bind

/-- Pass a string on, and fail if it is not taken whole. -/
def emit (chunk : List β) : Calls β Unit := call chunk fun n => if n ≠ chunk.length then fail else ret ()

/-- A run with a callback that has a state; `none` is a failure. -/
def run (callback : σ → List β → ℕ × σ) : σ → Calls β α → Option α × σ
  | s, ret a => (some a, s)
  | s, fail => (none, s)
  | s, call chunk next => run callback (callback s chunk).2 (next (callback s chunk).1)

/-- The value returned when every string is taken whole. -/
def result : Calls β α → Option α
  | ret a => some a
  | fail => none
  | call chunk next => (next chunk.length).result

/-- What is written when every string is taken whole. -/
def output : Calls β α → List β
  | ret _ => []
  | fail => []
  | call chunk next => chunk ++ (next chunk.length).output

/-- **A string that is not taken whole** is a failure. -/
def Checked : Calls β α → Prop
  | ret _ => True
  | fail => True
  | call chunk next => (∀ n, n ≠ chunk.length → next n = fail) ∧ (next chunk.length).Checked

/-! ### Composition -/

variable {p : Calls β α} {f : α → Calls β γ} {chunk out : List β}

@[simp] theorem result_ret (a : α) : (ret a : Calls β α).result = some a := rfl
@[simp] theorem output_ret (a : α) : (ret a : Calls β α).output = [] := rfl
@[simp] theorem result_pure (a : α) : (pure a : Calls β α).result = some a := rfl
@[simp] theorem output_pure (a : α) : (pure a : Calls β α).output = [] := rfl
@[simp] theorem result_fail : (fail : Calls β α).result = none := rfl
@[simp] theorem output_fail : (fail : Calls β α).output = [] := rfl
@[simp] theorem checked_ret (a : α) : (ret a : Calls β α).Checked := trivial
@[simp] theorem checked_pure (a : α) : (pure a : Calls β α).Checked := trivial
@[simp] theorem checked_fail : (fail : Calls β α).Checked := trivial

@[simp] theorem result_emit (chunk : List β) : (emit chunk).result = some () := by
  show (if chunk.length ≠ chunk.length then fail else ret () : Calls β Unit).result = _
  rw [if_neg (not_not.2 rfl)]
  rfl

@[simp] theorem output_emit (chunk : List β) : (emit chunk).output = chunk := by
  show chunk ++ (if chunk.length ≠ chunk.length then fail else ret () : Calls β Unit).output = _
  rw [if_neg (not_not.2 rfl)]
  exact List.append_nil chunk

@[simp] theorem checked_emit (chunk : List β) : (emit chunk).Checked := by
  refine ⟨fun n hn => if_pos hn, ?_⟩
  show (if chunk.length ≠ chunk.length then fail else ret () : Calls β Unit).Checked
  rw [if_neg (not_not.2 rfl)]
  trivial

@[simp] theorem result_bind (p : Calls β α) (f : α → Calls β γ) :
    (p >>= f).result = p.result.bind fun a => (f a).result := by
  induction p with
  | ret a => rfl
  | fail => rfl
  | call chunk next ih => exact ih chunk.length

theorem output_bind (p : Calls β α) (f : α → Calls β γ) :
    (p >>= f).output = p.output ++ p.result.elim [] fun a => (f a).output := by
  induction p with
  | ret a => rfl
  | fail => rfl
  | call chunk next ih =>
    show chunk ++ (next chunk.length >>= f).output = chunk ++ (next chunk.length).output ++ _
    rw [ih, List.append_assoc]
    rfl

/-- The output behind a part that returns. -/
theorem output_bind_of_result {a : α} (h : p.result = some a) : (p >>= f).output = p.output ++ (f a).output := by
  rw [output_bind, h]
  rfl

@[simp] theorem checked_bind (hp : p.Checked) (hf : ∀ a, (f a).Checked) : (p >>= f).Checked := by
  induction p with
  | ret a => exact hf a
  | fail => trivial
  | call chunk next ih =>
    refine ⟨fun n hn => ?_, ih chunk.length hp.2⟩
    show (next n).bind f = fail
    rw [hp.1 n hn]
    rfl

/-- **What a function does** when every string is taken whole. -/
structure Writes (p : Calls β α) (out : List β) (a : α) : Prop where
  output : p.output = out
  result : p.result = some a

theorem Writes.pure (a : α) : Writes (β := β) (Pure.pure a) [] a := ⟨rfl, rfl⟩

theorem Writes.emit (chunk : List β) : Writes (emit chunk) chunk () := ⟨output_emit chunk, result_emit chunk⟩

theorem Writes.bind {out' : List β} {a : α} {c : γ} (h : Writes p out a) (h' : Writes (f a) out' c) :
    Writes (p >>= f) (out ++ out') c := by
  refine ⟨?_, ?_⟩
  · rw [output_bind_of_result h.result, h.output, h'.output]
  · rw [result_bind, h.result]
    exact h'.result

/-! ### Runs -/

/-- The callback that takes everything. -/
def accept (out chunk : List β) : ℕ × List β := (chunk.length, out ++ chunk)

/-- The callback that takes `cap` elements in all. -/
def bounded (cap : ℕ) (out chunk : List β) : ℕ × List β :=
  (min chunk.length (cap - out.length), out ++ chunk.take (cap - out.length))

theorem run_accept (p : Calls β α) (out : List β) : run accept out p = (p.result, out ++ p.output) := by
  induction p generalizing out with
  | ret a => exact Prod.ext rfl (List.append_nil out).symm
  | fail => exact Prod.ext rfl (List.append_nil out).symm
  | call chunk next ih =>
    show run accept (out ++ chunk) (next chunk.length) = (_, out ++ (chunk ++ _))
    rw [ih, List.append_assoc]
    rfl

theorem writes_of_run {a : α} (h : run accept [] p = (some a, out)) : Writes p out a := by
  rw [run_accept] at h
  obtain ⟨hres, hout⟩ := Prod.ext_iff.1 h
  exact ⟨hout, hres⟩

/-- **A bounded callback** gets the output up to its bound, and the function fails if that is not all of it. -/
theorem run_bounded (hp : p.Checked) {cap : ℕ} (hout : out.length ≤ cap) :
    run (bounded cap) out p =
      if (out ++ p.output).length ≤ cap then (p.result, out ++ p.output) else (none, (out ++ p.output).take cap) := by
  induction p generalizing out with
  | ret a =>
    rw [output_ret, List.append_nil, if_pos hout]
    rfl
  | fail =>
    rw [output_fail, List.append_nil, if_pos hout]
    rfl
  | call chunk next ih =>
    show run (bounded cap) (out ++ chunk.take (cap - out.length)) (next (min chunk.length (cap - out.length))) = _
    by_cases hfit : chunk.length ≤ cap - out.length
    · have hlen : (out ++ chunk).length ≤ cap := by
        rw [List.length_append]
        omega
      rw [List.take_of_length_le hfit, min_eq_left hfit, ih chunk.length hp.2 hlen, List.append_assoc]
      rfl
    · -- a short write, after which nothing is written
      have hlong : ¬ (out ++ (call chunk next).output).length ≤ cap := by
        show ¬ (out ++ (chunk ++ _)).length ≤ cap
        rw [List.length_append, List.length_append]
        omega
      have htake : (out ++ (call chunk next).output).take cap = out ++ chunk.take (cap - out.length) := by
        show (out ++ (chunk ++ _)).take cap = _
        rw [List.take_append, List.take_of_length_le hout, List.take_append_of_le_length (by omega)]
      rw [hp.1 _ (by omega), if_neg hlong, htake]
      rfl

/-- **Two callbacks that return the same numbers** on related states. -/
theorem run_simulates {R : σ → τ → Prop} {c : σ → List β → ℕ × σ} {d : τ → List β → ℕ × τ}
    (h : ∀ s t chunk, R s t → (c s chunk).1 = (d t chunk).1 ∧ R (c s chunk).2 (d t chunk).2) {s : σ} {t : τ}
    (hst : R s t) (p : Calls β α) : (run c s p).1 = (run d t p).1 ∧ R (run c s p).2 (run d t p).2 := by
  induction p generalizing s t with
  | ret a => exact ⟨rfl, hst⟩
  | fail => exact ⟨rfl, hst⟩
  | call chunk next ih =>
    obtain ⟨heq, hR⟩ := h s t chunk hst
    show (run c (c s chunk).2 (next (c s chunk).1)).1 = (run d (d t chunk).2 (next (d t chunk).1)).1 ∧
      R (run c (c s chunk).2 (next (c s chunk).1)).2 (run d (d t chunk).2 (next (d t chunk).1)).2
    rw [heq]
    exact ih _ hR

end Calls

end Lib
