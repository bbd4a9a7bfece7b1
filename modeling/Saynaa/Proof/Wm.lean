import Saynaa.Dev.Wm
import Saynaa.Lib.Circular
import Saynaa.Lib.Loop

/-!
# Endpoint queues hold whole messages

* `Endpoint.content`: the bytes between the read and the write index.
* `qRead_ok`, `qPeek_ok`, `qWrite_ok`: the three copies take from and append to it.
* `QueueIs ep ms`: the content is the messages `ms`, one after the other.
* `dropLoop_ok`: the loop that makes room drops whole messages, as few as needed.
* `QueueIs.append`, `QueueIs.read`: header and payload of the newest and of the oldest message.
-/

namespace Saynaa

open Lib

/-- The bytes of a sequence of messages. -/
def msgBytes (ms : List Msg) : List UInt8 := ms.flatMap Msg.bytes

variable {ep ep' : Endpoint} {n : ℕ} {m : Msg} {ms : List Msg}

/-! ### Headers -/

@[simp] theorem length_toBytes (h : WmRecvHdr) : h.toBytes.length = hdrSize := by
  simp [WmRecvHdr.toBytes, hdrSize]

theorem ofBytes_toBytes {h : WmRecvHdr} (hs : h.src < 2 ^ 32) (ht : h.type < 2 ^ 32) (hl : h.len < 2 ^ 32) :
    WmRecvHdr.ofBytes h.toBytes = h := by
  have h4 : (256 : ℕ) ^ 4 = 2 ^ 32 := by norm_num
  have hd : (le 4 h.src ++ (le 4 h.type ++ le 4 h.len)).drop 8 = le 4 h.len := by
    rw [← List.append_assoc, List.drop_left' (by simp)]
  unfold WmRecvHdr.ofBytes WmRecvHdr.toBytes
  rw [hd, List.take_left' (by simp), List.drop_left' (by simp), List.take_left' (by simp),
    List.take_of_length_le (by simp), ofLe_le (by rwa [h4]), ofLe_le (by rwa [h4]), ofLe_le (by rwa [h4])]

theorem Msg.OK.ofBytes (h : m.OK) : WmRecvHdr.ofBytes m.hdr.toBytes = m.hdr := by
  have hl := h.len
  unfold wmMaxPayload at hl
  exact ofBytes_toBytes h.src h.type (show m.payload.length < 2 ^ 32 by omega)

@[simp] theorem length_bytes (m : Msg) : m.bytes.length = hdrSize + m.payload.length := by
  simp [Msg.bytes]

theorem take_bytes (m : Msg) (l : List UInt8) : (m.bytes ++ l).take hdrSize = m.hdr.toBytes := by
  unfold Msg.bytes
  rw [List.append_assoc, List.take_left' (length_toBytes _)]

theorem msgBytes_cons : msgBytes (m :: ms) = m.bytes ++ msgBytes ms := rfl

theorem msgBytes_append (ms ms' : List Msg) : msgBytes (ms ++ ms') = msgBytes ms ++ msgBytes ms' :=
  List.flatMap_append

/-! ### The ring of an endpoint -/

/-- Both indices are in the ring. -/
structure Endpoint.OK (ep : Endpoint) : Prop where
  r : ep.r < wmqBytes
  w : ep.w < wmqBytes

/-- The bytes between `r` and `w`. -/
def Endpoint.content (ep : Endpoint) : List UInt8 := window ep.q wmqBytes ep.r ep.qUsed

@[simp] theorem length_content : ep.content.length = ep.qUsed := length_window

theorem qUsed_lt (h : ep.OK) : ep.qUsed < wmqBytes := by
  have hr := h.r
  have hw := h.w
  unfold Endpoint.qUsed
  split_ifs <;> omega

theorem w_eq (h : ep.OK) : ep.w = wrap wmqBytes (ep.r + ep.qUsed) := by
  have hr := h.r
  have hw := h.w
  unfold Endpoint.qUsed wrap
  split_ifs <;> omega

theorem copyOut_eq {q : ℕ → UInt8} {pos : ℕ} (h : pos + n ≤ wmqBytes) :
    copyOut q pos n = window q wmqBytes pos n := (window_straight h).symm

/-- The two straight copies of a read. -/
theorem copyOut_wrap {q : ℕ → UInt8} {r : ℕ} (hr : r < wmqBytes) (hn : n ≤ wmqBytes)
    (hs : wmqBytes - r < n) :
    copyOut q r (wmqBytes - r) ++ copyOut q 0 (n - (wmqBytes - r)) = window q wmqBytes r n := by
  have h := window_add (q := q) (n := wmqBytes - r) (m := n - (wmqBytes - r)) hr (by omega)
  rw [Nat.add_sub_cancel' hs.le] at h
  have hw : wrap wmqBytes (r + (wmqBytes - r)) = 0 := by
    unfold wrap
    split_ifs <;> omega
  rw [h, hw, copyOut_eq (by omega), copyOut_eq (by omega)]

theorem qRead_eq (h : ep.OK) (hn : n < wmqBytes) :
    ep.qRead n = (window ep.q wmqBytes ep.r n, { ep with r := wrap wmqBytes (ep.r + n) }) := by
  have hr := h.r
  unfold Endpoint.qRead
  simp only
  split_ifs with hs
  · rw [copyOut_eq (by omega), wrap_eq_mod (by omega)]
  · rw [copyOut_wrap hr hn.le (by omega)]
    have hw : n - (wmqBytes - ep.r) = wrap wmqBytes (ep.r + n) := by
      unfold wrap
      rw [if_neg (by omega)]
      omega
    rw [hw]

/-- **`q_read`** takes bytes from the front. -/
theorem qRead_ok (h : ep.OK) (hn : n ≤ ep.qUsed) :
    (ep.qRead n).1 = ep.content.take n ∧ (ep.qRead n).2.OK ∧
      (ep.qRead n).2.content = ep.content.drop n ∧ (ep.qRead n).2.pid = ep.pid := by
  have hr := h.r
  have hw := h.w
  have hu := qUsed_lt h
  rw [qRead_eq h (by omega)]
  have hused : Endpoint.qUsed { ep with r := wrap wmqBytes (ep.r + n) } = ep.qUsed - n := by
    have hweq := w_eq h
    unfold Endpoint.qUsed at hn hu hweq ⊢
    unfold wrap at hweq ⊢
    simp only
    split_ifs at hn hu hweq ⊢ <;> omega
  refine ⟨(take_window hn).symm, ⟨wrap_lt (by omega), hw⟩, ?_, rfl⟩
  unfold Endpoint.content
  rw [drop_window hr hu.le hn, hused]

/-- **`q_peek`** of bytes that are there. -/
theorem qPeek_ok (h : ep.OK) (hn : n ≤ ep.qUsed) : ep.qPeek n = some (ep.content.take n) := by
  have hr := h.r
  have hu := qUsed_lt h
  have ht : ep.content.take n = window ep.q wmqBytes ep.r n := take_window hn
  unfold Endpoint.qPeek
  simp only
  rw [if_neg (by omega), ht]
  split_ifs with hs
  · rw [copyOut_eq (by omega)]
  · rw [copyOut_wrap hr (by omega) (by omega)]

/-- **`q_write`** appends bytes that fit. -/
theorem qWrite_ok (h : ep.OK) (src : List UInt8) (hn : src.length ≤ ep.qFree) :
    (ep.qWrite src).OK ∧ (ep.qWrite src).content = ep.content ++ src ∧ (ep.qWrite src).pid = ep.pid := by
  have hr := h.r
  have hw := h.w
  have hu := qUsed_lt h
  have hweq := w_eq h
  unfold Endpoint.qFree at hn
  have hcap : wmqBytes = 8192 := rfl
  set n := src.length with hlen
  -- what is written and what stays
  have hcells : (ep.qWrite src).r = ep.r ∧ (ep.qWrite src).w = wrap wmqBytes (ep.w + n) ∧
      (ep.qWrite src).pid = ep.pid ∧
      (∀ i (hi : i < src.length), (ep.qWrite src).q (wrap wmqBytes (ep.w + i)) = src[i]) ∧
      ∀ x < wmqBytes, (x < ep.w ∧ ep.w + n ≤ wmqBytes + x ∨ ep.w + n ≤ x) → (ep.qWrite src).q x = ep.q x := by
    unfold Endpoint.qWrite
    simp only [← hlen]
    split_ifs with hs
    · refine ⟨rfl, (wrap_eq_mod (by omega)).symm, rfl, ?_, ?_⟩
      · intro i hi
        have hwr : wrap wmqBytes (ep.w + i) = ep.w + i := by
          unfold wrap
          rw [if_pos (by omega)]
        simp only [hwr]
        rw [copyIn_in (by omega) (by omega)]
        simp
      · intro x hx hout
        exact copyIn_out (by omega)
    · refine ⟨rfl, ?_, rfl, ?_, ?_⟩
      · unfold wrap
        rw [if_neg (by omega)]
        simp only
        omega
      · intro i hi
        simp only
        by_cases hi' : ep.w + i < wmqBytes
        · have hwr : wrap wmqBytes (ep.w + i) = ep.w + i := by
            unfold wrap
            rw [if_pos hi']
          rw [hwr, copyIn_out (by simp; omega), copyIn_in (by omega) (by simp; omega)]
          simp
        · have hwr : wrap wmqBytes (ep.w + i) = ep.w + i - wmqBytes := by
            unfold wrap
            rw [if_neg hi']
          rw [hwr, copyIn_in (by omega) (by simp; omega)]
          have hidx : wmqBytes - ep.w + (ep.w + i - wmqBytes - 0) = i := by omega
          simp only [List.getElem_drop, hidx]
      · intro x hx hout
        simp only
        rw [copyIn_out (by simp; omega), copyIn_out (by simp; omega)]
  obtain ⟨hr', hw', hp', hin, hout⟩ := hcells
  have hok : (ep.qWrite src).OK := ⟨hr' ▸ hr, hw' ▸ wrap_lt (by omega)⟩
  have hused : (ep.qWrite src).qUsed = ep.qUsed + n := by
    unfold Endpoint.qUsed at hn hu hweq ⊢
    rw [hr', hw']
    unfold wrap at hweq ⊢
    split_ifs at hn hu hweq ⊢ <;> omega
  refine ⟨hok, ?_, hp'⟩
  unfold Endpoint.content
  rw [hused, hr']
  refine window_put hr (by omega) hlen.symm (fun i hi => ?_) fun i hi => ?_
  · rw [← hweq]
    exact hin i hi
  · refine hout _ (wrap_lt (by omega)) ?_
    rw [hweq]
    unfold wrap
    split_ifs <;> omega

/-! ### Queues of messages -/

/-- **The ring holds the messages `ms`**, and nothing else. -/
structure QueueIs (ep : Endpoint) (ms : List Msg) : Prop where
  ok : ep.OK
  msgs : ∀ m ∈ ms, m.OK
  content : ep.content = msgBytes ms

theorem QueueIs.used (h : QueueIs ep ms) : ep.qUsed = (msgBytes ms).length := by
  rw [← length_content, h.content]

/-- Without the oldest message. -/
theorem QueueIs.tail (h : QueueIs ep (m :: ms)) (ho : ep'.OK)
    (hc : ep'.content = ep.content.drop (hdrSize + m.payload.length)) : QueueIs ep' ms := by
  refine ⟨ho, fun x hx => h.msgs x (List.mem_cons_of_mem _ hx), ?_⟩
  rw [hc, h.content, msgBytes_cons, List.drop_left' (length_bytes m)]

/-- The header of the oldest message. -/
theorem QueueIs.peek (h : QueueIs ep (m :: ms)) : ep.qPeek hdrSize = some m.hdr.toBytes := by
  have hu := h.used
  rw [msgBytes_cons, List.length_append, length_bytes] at hu
  rw [qPeek_ok h.ok (by omega), h.content, msgBytes_cons, take_bytes]

theorem discard_ok : ∀ (n : ℕ) {ep : Endpoint}, ep.OK → n ≤ ep.qUsed →
    (ep.discard n).OK ∧ (ep.discard n).content = ep.content.drop n ∧ (ep.discard n).pid = ep.pid := by
  intro n
  induction n using Nat.strong_induction_on with
  | _ n ih =>
    intro ep h hn
    by_cases h0 : n = 0
    · unfold Endpoint.discard
      rw [if_pos h0]
      exact ⟨h, by simp [h0], rfl⟩
    · -- one piece, then the rest
      unfold Endpoint.discard
      rw [if_neg h0]
      simp only
      set chunk := if n > 64 then 64 else n with hchunk
      have hc : 0 < chunk ∧ chunk ≤ n := by
        rw [hchunk]
        split_ifs <;> omega
      obtain ⟨-, h1, h2, h3⟩ := qRead_ok h (hc.2.trans hn)
      have hu : (ep.qRead chunk).2.qUsed = ep.qUsed - chunk := by
        rw [← length_content, h2, List.length_drop, length_content]
      obtain ⟨h4, h5, h6⟩ := ih (n - chunk) (by omega) h1 (by omega)
      refine ⟨h4, ?_, h6.trans h3⟩
      rw [h5, h2, List.drop_drop, Nat.add_sub_cancel' hc.2]

/-- Drop the oldest messages until `total` bytes are free. -/
def makeRoom (total : ℕ) : List Msg → List Msg
  | [] => []
  | m :: ms => if (msgBytes (m :: ms)).length + total ≤ wmqBytes - 1 then m :: ms else makeRoom total ms

/-- **Only whole oldest messages go, and as few as needed.** -/
theorem makeRoom_spec {total : ℕ} (ht : total ≤ wmqBytes - 1) (ms : List Msg) :
    ∃ k, makeRoom total ms = ms.drop k ∧ (msgBytes (ms.drop k)).length + total ≤ wmqBytes - 1 ∧
      ∀ j < k, wmqBytes - 1 < (msgBytes (ms.drop j)).length + total := by
  induction ms with
  | nil => exact ⟨0, rfl, by simpa [msgBytes] using ht, by omega⟩
  | cons m ms ih =>
    unfold makeRoom
    split_ifs with hfit
    · exact ⟨0, rfl, hfit, by omega⟩
    · obtain ⟨k, h1, h2, h3⟩ := ih
      refine ⟨k + 1, h1, h2, fun j hj => ?_⟩
      cases j with
      | zero => exact not_le.1 hfit
      | succ j => exact h3 j (by omega)

theorem makeRoom_mem {total : ℕ} {ms : List Msg} : ∀ m ∈ makeRoom total ms, m ∈ ms := by
  induction ms with
  | nil => exact fun m hm => hm
  | cons x ms ih =>
    intro m hm
    unfold makeRoom at hm
    split_ifs at hm
    · exact hm
    · exact List.mem_cons_of_mem _ (ih m hm)

/-- **The loop that makes room** drops whole messages and never meets a corrupt one. -/
theorem dropLoop_ok {total : ℕ} (ht : total ≤ hdrSize + wmMaxPayload) : ∀ (ms : List Msg) {ep : Endpoint},
    QueueIs ep ms → ∃ ep', (∀ fuel, ms.length < fuel → ep.dropLoop total fuel = some (false, ep')) ∧
      QueueIs ep' (makeRoom total ms) ∧ ep'.pid = ep.pid ∧ total ≤ ep'.qFree := by
  have hcap : hdrSize + wmMaxPayload + hdrSize ≤ wmqBytes - 1 := by decide
  have hstop : ∀ {ep : Endpoint} {fuel n : ℕ}, n < fuel → ¬ ep.qFree < total →
      ep.dropLoop total fuel = some (false, ep) := by
    intro ep fuel n hf hfree
    obtain ⟨k, rfl⟩ := Nat.exists_eq_add_of_lt hf
    unfold Endpoint.dropLoop
    rw [if_neg fun h => hfree h.1]
  intro ms
  induction ms with
  | nil =>
    intro ep h
    have hu : ep.qUsed = 0 := h.used
    have hfree : ¬ ep.qFree < total := by
      unfold Endpoint.qFree
      omega
    exact ⟨ep, fun fuel hf => hstop hf hfree, h, rfl, not_lt.1 hfree⟩
  | cons m ms ih =>
    intro ep h
    have hu := h.used
    unfold makeRoom
    by_cases hfree : ep.qFree < total
    · -- the oldest message is dropped
      have hfit : ¬ (msgBytes (m :: ms)).length + total ≤ wmqBytes - 1 := by
        unfold Endpoint.qFree at hfree
        omega
      have hm := h.msgs m List.mem_cons_self
      have hlen := hm.len
      have hold : add32 hdrSize (WmRecvHdr.ofBytes m.hdr.toBytes).len = hdrSize + m.payload.length := by
        rw [hm.ofBytes]
        unfold wmMaxPayload at hlen
        exact add32_of_lt (show hdrSize + m.payload.length < 2 ^ 32 by unfold hdrSize; omega)
      rw [msgBytes_cons, List.length_append, length_bytes] at hu
      obtain ⟨h1, h2, h3⟩ := discard_ok (hdrSize + m.payload.length) h.ok (by omega)
      obtain ⟨ep', h4, h5, h6, h7⟩ := ih (h.tail h1 h2)
      refine ⟨ep', fun fuel hf => ?_, ?_, h6.trans h3, h7⟩
      · obtain ⟨k, rfl⟩ : ∃ k, fuel = k + 1 := ⟨fuel - 1, by omega⟩
        have hne : ¬ (hdrSize + m.payload.length = 0 ∨ hdrSize + m.payload.length > wmqBytes - 1) := by
          have h0 : 0 < hdrSize := by decide
          omega
        unfold Endpoint.dropLoop
        rw [if_pos ⟨hfree, by omega⟩, h.peek]
        simp only [hold, hne, if_false]
        exact h4 k (by simpa using hf)
      · rw [if_neg hfit]
        exact h5
    · -- there is room
      have hfit : (msgBytes (m :: ms)).length + total ≤ wmqBytes - 1 := by
        have := qUsed_lt h.ok
        unfold Endpoint.qFree at hfree
        omega
      rw [if_pos hfit]
      exact ⟨ep, fun fuel hf => hstop hf hfree, h, rfl, not_lt.1 hfree⟩

/-- Appending a message that fits. -/
theorem QueueIs.append (h : QueueIs ep ms) (hm : m.OK) (hfree : hdrSize + m.payload.length ≤ ep.qFree) :
    QueueIs (if m.payload.length ≠ 0 then (ep.qWrite m.hdr.toBytes).qWrite m.payload
        else ep.qWrite m.hdr.toBytes) (ms ++ [m]) ∧
      (if m.payload.length ≠ 0 then (ep.qWrite m.hdr.toBytes).qWrite m.payload
        else ep.qWrite m.hdr.toBytes).pid = ep.pid := by
  obtain ⟨h1, h2, h3⟩ := qWrite_ok h.ok m.hdr.toBytes (by rw [length_toBytes]; omega)
  have hmsgs : ∀ x ∈ ms ++ [m], x.OK := by
    intro x hx
    rcases List.mem_append.1 hx with hx | hx
    · exact h.msgs x hx
    · rw [List.mem_singleton.1 hx]
      exact hm
  have hbytes : msgBytes (ms ++ [m]) = msgBytes ms ++ (m.hdr.toBytes ++ m.payload) := by
    rw [msgBytes_append]
    simp [msgBytes, Msg.bytes]
  split_ifs with h0
  · have hu : (ep.qWrite m.hdr.toBytes).qUsed = ep.qUsed + hdrSize := by
      rw [← length_content, h2, List.length_append, length_content, length_toBytes]
    obtain ⟨h4, h5, h6⟩ := qWrite_ok h1 m.payload (by
      unfold Endpoint.qFree at hfree ⊢
      omega)
    exact ⟨⟨h4, hmsgs, by rw [h5, h2, h.content, hbytes, List.append_assoc]⟩, h6.trans h3⟩
  · rw [not_not, List.length_eq_zero_iff] at h0
    exact ⟨⟨h1, hmsgs, by rw [h2, h.content, hbytes, h0, List.append_nil]⟩, h3⟩

/-- Reading the oldest message, header first. -/
theorem QueueIs.read (h : QueueIs ep (m :: ms)) {ep1 ep2 : Endpoint} {b p : List UInt8}
    (h1 : ep.qRead hdrSize = (b, ep1)) (h2 : ep1.qRead m.payload.length = (p, ep2)) :
    b = m.hdr.toBytes ∧ p = m.payload ∧ ep1.pid = ep.pid ∧ ep2.pid = ep.pid ∧ QueueIs ep2 ms ∧
      (m.payload.length = 0 → QueueIs ep1 ms) := by
  have hu := h.used
  rw [msgBytes_cons, List.length_append, length_bytes] at hu
  obtain ⟨r1, r2, r3, r4⟩ := qRead_ok h.ok (n := hdrSize) (by omega)
  rw [h1] at r1 r2 r3 r4
  simp only at r1 r2 r3 r4
  have hu1 : ep1.qUsed = ep.qUsed - hdrSize := by
    rw [← length_content, r3, List.length_drop, length_content]
  obtain ⟨r5, r6, r7, r8⟩ := qRead_ok r2 (n := m.payload.length) (by omega)
  rw [h2] at r5 r6 r7 r8
  simp only at r5 r6 r7 r8
  refine ⟨?_, ?_, r4, r8.trans r4, ?_, fun h0 => ?_⟩
  · rw [r1, h.content, msgBytes_cons, take_bytes]
  · rw [r5, r3, h.content, msgBytes_cons]
    unfold Msg.bytes
    rw [List.append_assoc, List.drop_left' (length_toBytes _), List.take_left' rfl]
  · exact h.tail r6 (by rw [r7, r3, List.drop_drop])
  · exact h.tail r2 (by rw [r3, h0, Nat.add_zero])

end Saynaa
