import Saynaa.Lib.Circular
import Saynaa.Lib.Loop
import Saynaa.Sys.Capture

/-!
# Captured output is a queue of the newest bytes

* `CaptureCall.spec`: the calls on a queue.
* `HoldsQueue out q`: the buffer holds the queue `q`; `capture_ok`, `readLoop_ok` are the steps.
* `captured_queue`: every sequence of calls.
-/

namespace Saynaa

open Lib ProcStdout

/-- The queue drops its oldest byte when it is full. -/
def captureCap : ℕ := 4095

/-- **The calls on a queue**: every written byte is appended, and a read takes the oldest ones. -/
def CaptureCall.spec (q : List UInt8) : CaptureCall → (ℕ × List UInt8) × List UInt8
  | .putchar ebx => ((1, []), feed captureCap q (UInt8.ofNat ebx))
  | .write mem buf len =>
    if buf = 0 ∨ len = 0 then ((2 ^ 32 - 1, []), q)
    else ((len, []), ((List.range len).map fun i => mem (add32 buf i)).foldl (feed captureCap) q)
  | .read buf size =>
    if buf = 0 ∨ size = 0 then ((0, []), q)
    else ((min size q.length, q.take size), q.drop size)

variable {out : ProcStdout} {q : List UInt8} {n : ℕ}

/-- **The buffer holds the queue** `q`, from `r` on; one place stays free. -/
structure HoldsQueue (out : ProcStdout) (q : List UInt8) : Prop where
  r : out.r < stdoutBufSize
  w : out.w = wrap stdoutBufSize (out.r + q.length)
  len : q.length ≤ captureCap
  bytes : window out.buf stdoutBufSize out.r q.length = q

theorem fresh_holds : HoldsQueue fresh [] := ⟨by decide, rfl, by decide, rfl⟩

/-- The index behind `x`. -/
theorem next_index {x : ℕ} (hx : x < stdoutBufSize) : add32 x 1 % stdoutBufSize = wrap stdoutBufSize (x + 1) := by
  unfold stdoutBufSize at *
  rw [add32_of_lt (by omega), wrap_eq_mod (by omega)]

/-- A byte behind a queue that is not full. -/
theorem put_holds {buf : ℕ → UInt8} {r w : ℕ} (h : HoldsQueue ⟨r, w, buf⟩ q) (hlen : q.length < captureCap)
    (b : UInt8) : HoldsQueue ⟨r, add32 w 1 % stdoutBufSize, Function.update buf w b⟩ (q ++ [b]) := by
  have hr : r < stdoutBufSize := h.r
  have hw : w = wrap stdoutBufSize (r + q.length) := h.w
  unfold captureCap at hlen
  have hcap : stdoutBufSize = 4096 := rfl
  have hwlt : w < stdoutBufSize := by
    rw [hw]
    exact wrap_lt (by omega)
  refine ⟨hr, ?_, ?_, ?_⟩
  · show add32 w 1 % stdoutBufSize = wrap stdoutBufSize (r + (q ++ [b]).length)
    rw [next_index hwlt, hw, List.length_append, List.length_singleton]
    unfold wrap
    split_ifs <;> omega
  · rw [List.length_append, List.length_singleton]
    unfold captureCap
    omega
  · rw [List.length_append, List.length_singleton]
    have hput : window (Function.update buf w b) stdoutBufSize r (q.length + 1) =
      window buf stdoutBufSize r q.length ++ [b] := by
      refine window_put hr (show q.length + 1 ≤ stdoutBufSize by omega) rfl ?_ ?_
      · -- the new byte
        intro i hi
        obtain rfl : i = 0 := by simpa using hi
        rw [Nat.add_zero, ← hw]
        have hid : wrap stdoutBufSize w = w := if_pos hwlt
        rw [hid, Function.update_self]
        rfl
      · -- the bytes before it
        intro i hi
        apply Function.update_of_ne
        rw [hw]
        unfold wrap
        split_ifs <;> omega
    rw [hput]
    exact congrArg (· ++ [b]) h.bytes

/-- The oldest byte goes. -/
theorem drop_holds {b : UInt8} (h : HoldsQueue out (b :: q)) :
    HoldsQueue { out with r := add32 out.r 1 % stdoutBufSize } q ∧ out.buf out.r = b := by
  have hr := h.r
  have hw := h.w
  have hlen := h.len
  rw [List.length_cons] at hw hlen
  unfold captureCap at hlen
  have hcap : stdoutBufSize = 4096 := rfl
  have hsplit := window_add (q := out.buf) hr (show 1 + q.length ≤ stdoutBufSize by omega)
  have hbytes := h.bytes
  rw [List.length_cons, Nat.add_comm, hsplit] at hbytes
  have hone : window out.buf stdoutBufSize out.r 1 = [out.buf out.r] := by
    have hid : wrap stdoutBufSize (out.r + 0) = out.r := if_pos hr
    show [out.buf (wrap stdoutBufSize (out.r + 0))] = _
    rw [hid]
  rw [hone] at hbytes
  obtain ⟨hhead, htail⟩ := List.cons_eq_cons.1 hbytes
  refine ⟨⟨?_, ?_, by unfold captureCap; omega, ?_⟩, hhead⟩
  · exact Nat.mod_lt _ (by decide)
  · show out.w = wrap stdoutBufSize (add32 out.r 1 % stdoutBufSize + q.length)
    rw [next_index hr, hw]
    unfold wrap
    split_ifs <;> omega
  · show window out.buf stdoutBufSize (add32 out.r 1 % stdoutBufSize) q.length = q
    rw [next_index hr]
    exact htail

/-- **One captured byte.** -/
theorem capture_ok (h : HoldsQueue out q) (b : UInt8) : HoldsQueue (out.capture b) (feed captureCap q b) := by
  have hr := h.r
  have hw := h.w
  have hlen := h.len
  have hcap : stdoutBufSize = 4096 := rfl
  have hcap' : captureCap = 4095 := rfl
  have hwlt : out.w < stdoutBufSize := by
    rw [hw]
    exact wrap_lt (by omega)
  have hfull : add32 out.w 1 % stdoutBufSize = out.r ↔ ¬ q.length < captureCap := by
    rw [next_index hwlt, hw]
    unfold wrap
    split_ifs <;> omega
  unfold capture feed
  simp only
  by_cases hq : q.length < captureCap
  · -- there is room
    rw [if_neg (fun hh => hfull.1 hh hq), if_pos hq]
    exact put_holds h hq b
  · -- the oldest byte goes
    rw [if_pos (hfull.2 hq), if_neg hq]
    cases q with
    | nil => exact absurd (by decide) hq
    | cons c q =>
      have hdrop := (drop_holds h).1
      have hlen' : q.length < captureCap := by
        rw [List.length_cons] at hlen
        omega
      exact put_holds hdrop hlen' b

theorem captureAll_ok (bytes : List UInt8) : ∀ {out : ProcStdout} {q : List UInt8}, HoldsQueue out q →
    HoldsQueue (bytes.foldl capture out) (bytes.foldl (feed captureCap) q) := by
  induction bytes with
  | nil => exact fun h => h
  | cons b bytes ih => exact fun h => ih (capture_ok h b)

/-- **The loop of a read.** -/
theorem readLoop_ok (n : ℕ) : ∀ {out : ProcStdout} {q : List UInt8}, HoldsQueue out q →
    (out.readLoop n).1 = q.take n ∧ HoldsQueue (out.readLoop n).2 (q.drop n) := by
  induction n with
  | zero => exact fun h => ⟨rfl, h⟩
  | succ n ih =>
    intro out q h
    have hr := h.r
    have hw := h.w
    have hlen := h.len
    have hcap : stdoutBufSize = 4096 := rfl
    have hcap' : captureCap = 4095 := rfl
    unfold readLoop
    cases q with
    | nil =>
      have heq : out.r = out.w := by
        rw [hw]
        exact (if_pos hr).symm
      rw [if_neg (not_not.2 heq)]
      exact ⟨rfl, h⟩
    | cons b q =>
      rw [List.length_cons] at hw hlen
      have hne : out.r ≠ out.w := by
        rw [hw]
        unfold wrap
        split_ifs <;> omega
      obtain ⟨hdrop, hbyte⟩ := drop_holds h
      obtain ⟨hbytes, hrest⟩ := ih hdrop
      rw [if_pos hne]
      exact ⟨congrArg₂ List.cons hbyte hbytes, hrest⟩

/-- **One call** answers as on the queue. -/
theorem captureCall_ok (h : HoldsQueue out q) (c : CaptureCall) :
    (c.exec out).1 = (c.spec q).1 ∧ HoldsQueue (c.exec out).2 (c.spec q).2 := by
  cases c with
  | putchar ebx => exact ⟨rfl, capture_ok h _⟩
  | write mem buf len =>
    unfold CaptureCall.exec CaptureCall.spec syscallWrite
    simp only
    by_cases hno : buf = 0 ∨ len = 0
    · -- nothing to write
      rw [if_pos hno, if_pos hno]
      exact ⟨rfl, h⟩
    · rw [if_neg hno, if_neg hno]
      refine ⟨rfl, ?_⟩
      have hall := captureAll_ok ((List.range len).map fun i => mem (add32 buf i)) h
      rw [List.foldl_map] at hall
      exact hall
  | read buf size =>
    unfold CaptureCall.exec CaptureCall.spec syscallReadstdout
    simp only
    by_cases hno : buf = 0 ∨ size = 0
    · -- nothing to read
      rw [if_pos hno, if_pos hno]
      exact ⟨rfl, h⟩
    · rw [if_neg hno, if_neg hno]
      obtain ⟨hbytes, hrest⟩ := readLoop_ok size h
      refine ⟨?_, hrest⟩
      show (((out.readLoop size).1.length, (out.readLoop size).1) : ℕ × List UInt8) = _
      rw [hbytes, List.length_take]

/-- **Captured output** is a queue of at most 4095 bytes: every sequence of calls is answered as on it, and afterwards
the buffer holds it. -/
theorem captured_queue (calls : List CaptureCall) :
    (answers CaptureCall.exec fresh calls).1 = (answers CaptureCall.spec [] calls).1 ∧
      HoldsQueue (answers CaptureCall.exec fresh calls).2 (answers CaptureCall.spec [] calls).2 :=
  answers_simulates (R := HoldsQueue) (fun _ _ c h => captureCall_ok h c) fresh_holds calls

end Saynaa
