import Saynaa.Libc.Vsnprintf
import Saynaa.Proof.Vcbprintf

/-!
# `vsnprintf` is `vcbprintf` to a bounded buffer

* `Buffered`: what the callback has done so far.
* `vsnprintfCallback_bounded`: it takes as much as fits.
* `vsnprintf_eq`, `vsnprintf_bounded`: the function.
-/

namespace Saynaa

open Lib

variable {args : ℕ → BitVec 32} {ops : FloatOps} {mem mem' q : ℕ → UInt8} {str size r : ℕ} {format out S : List UInt8}

/-- **The buffer** at `str` in `q` holds `out`, and has room for `cap` characters. -/
structure Buffered (q : ℕ → UInt8) (str cap : ℕ) (state : Vsnprintf) (out : List UInt8) : Prop where
  mem : state.mem = copyIn q str out
  str : state.str = str
  size : state.size = cap
  written : state.written = out.length
  fits : out.length ≤ cap

/-- **The callback takes what fits.** -/
theorem vsnprintfCallback_bounded {cap : ℕ} (state : Vsnprintf) (out chunk : List UInt8)
    (h : Buffered q str cap state out) : (vsnprintfCallback state chunk).1 = (Calls.bounded cap out chunk).1 ∧
      Buffered q str cap (vsnprintfCallback state chunk).2 (Calls.bounded cap out chunk).2 := by
  have hfits := h.fits
  have hwritten := h.written
  have hsize := h.size
  unfold vsnprintfCallback Calls.bounded
  by_cases hfull : out.length < cap
  · -- some room
    have hmin : (if chunk.length < state.size - state.written then chunk.length else state.size - state.written) =
        min chunk.length (cap - out.length) := by
      rw [hwritten, hsize]
      split_ifs <;> omega
    have htake : chunk.take (min chunk.length (cap - out.length)) = chunk.take (cap - out.length) := by
      rw [min_comm, ← List.take_take, List.take_length]
    rw [if_pos ⟨by omega, by omega⟩]
    simp only
    rw [hmin, htake]
    refine ⟨rfl, ?_, h.str, hsize, ?_, ?_⟩
    · rw [h.mem, h.str, hwritten, copyIn_append]
    · rw [hwritten, List.length_append, List.length_take, min_comm]
    · rw [List.length_append, List.length_take]
      omega
  · -- none
    have hzero : cap - out.length = 0 := by omega
    rw [if_neg (by omega), hzero, Nat.min_zero, List.take_zero, List.append_nil]
    exact ⟨rfl, h⟩

/-- **What `vsnprintf` leaves in the buffer and returns.** -/
theorem vsnprintf_eq (hsize : 1 ≤ size) (hS : (vcbprintf args ops mem format).output = S) (q : ℕ → UInt8) (str : ℕ) :
    vsnprintf args ops mem q str size format =
      (if S.length ≤ size - 1 then (vcbprintf args ops mem format).result.elim (-1 : ℤ) (fun r => (r.1 : ℤ)) else -1,
        copyIn q str (S.take (size - 1) ++ [0])) := by
  set p := vcbprintf args ops mem format with hp
  have hchecked : p.Checked := vcbprintf_checked args ops mem format
  -- the run with the buffer, and the run with the bounded callback
  have hstart : Buffered q str (size - 1) ⟨q, str, size - 1, 0⟩ [] :=
    ⟨(copyIn_nil q str).symm, rfl, rfl, rfl, Nat.zero_le _⟩
  obtain ⟨hvalue, hbuf⟩ := Calls.run_simulates vsnprintfCallback_bounded hstart p
  have hbounded := Calls.run_bounded hchecked (show ([] : List UInt8).length ≤ size - 1 from Nat.zero_le _)
  rw [List.nil_append, hS] at hbounded
  have hout : (p.run (Calls.bounded (size - 1)) []).2 = S.take (size - 1) := by
    rw [hbounded]
    split_ifs with hle
    · exact (List.take_of_length_le hle).symm
    · rfl
  have hret : (p.run (Calls.bounded (size - 1)) []).1 = if S.length ≤ size - 1 then p.result else none := by
    rw [hbounded]
    split_ifs <;> rfl
  rw [hret] at hvalue
  rw [hout] at hbuf
  unfold vsnprintf
  rw [← hp, if_pos (show size ≠ 0 by omega)]
  simp only
  rw [hvalue, if_pos hsize, hbuf.mem, hbuf.written, copyIn_append]
  split_ifs <;> rfl

/-- **`vsnprintf` is `vcbprintf` to a bounded buffer.** If the latter writes `S` and returns `r`, the former
leaves the first `size - 1` characters of `S` and a zero, and changes nothing else; it returns `r` if that is all
of `S`, and `-1` if not. -/
theorem vsnprintf_bounded (hsize : 1 ≤ size)
    (h : (vcbprintf args ops mem format).run Calls.accept [] = (some (r, mem'), S)) (q : ℕ → UInt8) (str : ℕ) :
    ∃ q', vsnprintf args ops mem q str size format = (if S.length ≤ size - 1 then (r : ℤ) else -1, q') ∧
      copyOut q' str (min S.length (size - 1)) = S.take (size - 1) ∧ q' (str + min S.length (size - 1)) = 0 ∧
      ∀ i, i < str ∨ str + min S.length (size - 1) < i → q' i = q i := by
  have hlen : (S.take (size - 1)).length = min S.length (size - 1) := by rw [List.length_take, min_comm]
  have hsrc : (S.take (size - 1) ++ [0]).length = min S.length (size - 1) + 1 := by
    rw [List.length_append, hlen, List.length_singleton]
  obtain ⟨hS, hres⟩ := Calls.writes_of_run h
  refine ⟨copyIn q str (S.take (size - 1) ++ [0]), ?_, ?_, ?_, fun i hi => copyIn_out (by omega)⟩
  · rw [vsnprintf_eq hsize hS, hres]
    rfl
  · have hcopy : copyOut (copyIn q str (S.take (size - 1))) str (S.take (size - 1)).length = S.take (size - 1) :=
      copyOut_copyIn
    rw [hlen] at hcopy
    rw [← copyIn_append]
    conv_rhs => rw [← hcopy]
    exact copyOut_congr fun i hi => copyIn_out (.inl (by omega))
  · rw [← copyIn_append, hlen, copyIn_in le_rfl (by simp)]
    simp

/-- `"%03d"` of 7 in three bytes. -/
theorem vsnprintf_bounded_short : ∃ q', vsnprintf (fun _ => 7) noFloat (fun _ => 0) (fun _ => 1) 0 3
    [ch '%', ch '0', ch '3', ch 'd'] = (-1, q') ∧ q' 2 = 0 := by
  have h : (vcbprintf (fun _ => 7) noFloat (fun _ => 0) [ch '%', ch '0', ch '3', ch 'd']).run Calls.accept [] =
      (some (3, fun _ => 0), [ch '0', ch '0', ch '7']) := by rfl
  obtain ⟨q', hq, -, hz, -⟩ := vsnprintf_bounded (by decide : 1 ≤ 3) h (fun _ => 1) 0
  exact ⟨q', hq, hz⟩

end Saynaa
