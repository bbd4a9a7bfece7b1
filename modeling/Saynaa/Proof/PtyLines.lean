import Saynaa.Proof.PtyRun

/-!
# Lines and the order of bytes

* `LinesOK`: the line buffer holds the line being typed, and the queue whole lines.
* `pty_lines`, `pty_tears`: lines arrive whole if every line fits at its newline.
* `pty_in_order`, `pty_reorders`: bytes arrive in order unless raw bytes overtake a line.
-/

namespace Saynaa

open Lib

namespace PtyRun

open PtyState

variable {s s' : PtyRun} {p p₀ : PtyState} {c : UInt8} {calls : List PtyCall}

/-! ### Lines -/

/-- What calls other than `pty_master_write` and `pty_ioctl` leave alone. -/
structure Quiet (s s' : PtyRun) : Prop where
  term : s'.pty.term = s.pty.term
  line : s'.pty.line = s.pty.line
  typing : s'.typing = s.typing
  lines : s'.lines = s.lines
  accepted : s'.accepted = s.accepted
  input : s'.slaveGot ++ s'.pty.inQ = s.slaveGot ++ s.pty.inQ

theorem exec_quiet {c : PtyCall} (hc : c.Data) (hw : ∀ buffer, c ≠ .masterWrite buffer) : Quiet s (s.exec c) := by
  cases c with
  | masterWrite buffer => exact absurd rfl (hw buffer)
  | slaveWrite buffer =>
    have hs := s.pty.writeOutput_sends buffer
    rw [← (s.pty.slaveWrite_eq buffer).2] at hs
    exact ⟨hs.term, hs.line, rfl, rfl, rfl, congrArg _ hs.inQ⟩
  | masterRead size =>
    obtain ⟨f, hp, -⟩ := s.pty.masterRead_ok size
    have hpty : (s.exec (.masterRead size)).pty = { s.pty with masterRead := f } := hp
    refine ⟨?_, ?_, rfl, rfl, rfl, ?_⟩
    · rw [hpty]
    · rw [hpty]
    · rw [hpty]
      rfl
  | slaveRead size =>
    obtain ⟨f, got, hexec, hgot⟩ := exec_slaveRead s size
    rw [hexec]
    refine ⟨rfl, rfl, rfl, rfl, rfl, ?_⟩
    show s.slaveGot ++ got ++ f.contents = _
    rw [List.append_assoc, hgot]
  | ioctl => exact absurd hc id

theorem byte_slaveGot (s : PtyRun) (c : UInt8) : (s.byte c).slaveGot = s.slaveGot := by
  unfold byte
  cases s.pty.term.translateInput c <;> rfl

/-- Lines with a newline behind each. -/
def unlines (ls : List (List UInt8)) : List UInt8 := ls.flatMap (· ++ [byteNl])

/-- What the slave has read, followed by what is queued for it, are whole lines in the order in which they were
typed. -/
def Whole (s : PtyRun) : Prop := ∃ ls, ls.Sublist s.lines ∧ s.slaveGot ++ s.pty.inQ = unlines ls

/-- **The condition**: at a newline, the line and the newline fit into the queue, or nothing does. -/
def LineFits (p : PtyState) (c : UInt8) : Prop :=
  p.term.translateInput c = some byteNl → ¬ p.term.Erases byteNl →
    p.inQ.length + p.line.length + 1 ≤ room ∨ p.inQ.length = room

instance (p : PtyState) (c : UInt8) : Decidable (LineFits p c) := inferInstanceAs (Decidable (_ → _ → _))

/-- A terminal in canonical mode that nothing was written to. -/
structure Fresh (p : PtyState) : Prop where
  canon : p.term.Canon
  line : p.line = []
  inQ : p.inQ = []

theorem ptyCreate_fresh (id : ℕ) : Fresh (ptyCreate id) :=
  ⟨(by decide : ptyDefaultTermios.Canon), rfl, rfl⟩

/-- The line buffer holds the line being typed, and the queue whole lines. -/
structure LinesOK (s : PtyRun) : Prop where
  canon : s.pty.term.Canon
  line : s.pty.line = s.typing
  whole : Whole s

/-- A byte that ends no line. -/
theorem Whole.same (h : Whole s) (hl : s'.lines = s.lines) (hg : s'.slaveGot = s.slaveGot)
    (hq : s'.pty.inQ = s.pty.inQ) : Whole s' := by
  obtain ⟨ls, hsub, heq⟩ := h
  refine ⟨ls, ?_, ?_⟩
  · rwa [hl]
  · rwa [hg, hq]

theorem LinesOK.byte (h : LinesOK s) (hf : LineFits s.pty c) : LinesOK (s.byte c) := by
  have hcanon := h.canon
  obtain ⟨sent, hd⟩ := s.pty.masterByte_done c
  unfold PtyRun.byte
  generalize s.pty.masterByte c = r at hd ⊢
  cases hd with
  | ignored ht =>
    rw [ht]
    exact ⟨hcanon, h.line, h.whole.same rfl rfl rfl⟩
  | raw _ hm => exact absurd hcanon hm
  | erase ht _ he _ hs =>
    rw [ht]
    refine ⟨?_, ?_, h.whole.same ?_ rfl hs.inQ⟩
    · show Termios.Canon _
      rwa [hs.term]
    · show _ = if s.pty.term.Canon then _ else _
      rw [hs.line, if_pos hcanon]
      simp [edit, he, h.line]
    · simp [he]
  | nothing ht _ he hl =>
    rw [ht]
    refine ⟨hcanon, ?_, h.whole.same ?_ rfl rfl⟩
    · show _ = if s.pty.term.Canon then _ else _
      rw [if_pos hcanon]
      simp [edit, he, ← h.line, hl]
    · simp [he]
  | newline ht _ he hs =>
    obtain ⟨hterm, hline, -, hq⟩ := s.pty.commitLine_eq
    rw [ht]
    refine ⟨?_, ?_, ?_⟩
    · show Termios.Canon _
      rwa [hs.term, hterm]
    · show _ = if s.pty.term.Canon then _ else _
      rw [hs.line, hline, if_pos hcanon]
      simp [edit, he]
    · obtain ⟨ls, hsub, heq⟩ := h.whole
      unfold Whole
      simp only [hcanon, he, not_false_eq_true, and_self, if_true, hs.inQ, hq]
      rcases hf ht he with hfit | hfull
      · -- the line is in the queue as a whole
        refine ⟨ls ++ [s.typing], hsub.append (.refl _), ?_⟩
        have hlen : s.pty.inQ.length + (s.pty.line ++ [byteNl]).length ≤ room := by
          rw [List.length_append, List.length_singleton]
          omega
        rw [push_fit hlen, ← List.append_assoc, heq, h.line]
        simp [unlines]
      · -- nothing of it is
        refine ⟨ls, hsub.trans (List.sublist_append_left _ _), ?_⟩
        rw [push_full (by omega), heq]
  | typed ht _ he hn _ hs =>
    rw [ht]
    refine ⟨?_, ?_, h.whole.same ?_ rfl hs.inQ⟩
    · show Termios.Canon _
      rwa [hs.term]
    · show _ = if s.pty.term.Canon then _ else _
      rw [hs.line, if_pos hcanon]
      simp [edit, he, hn, h.line]
    · simp [hn]
  | refused ht _ he hn _ =>
    rw [ht]
    refine ⟨hcanon, ?_, h.whole.same ?_ rfl rfl⟩
    · show _ = if s.pty.term.Canon then _ else _
      rw [if_pos hcanon]
      simp [edit, he, hn, h.line]
    · simp [hn]

theorem LinesOK.exec (h : LinesOK s) {c : PtyCall} (hc : c.Data) (hf : Bytes LineFits s.pty c) :
    LinesOK (s.exec c) := by
  by_cases hw : ∀ buffer, c ≠ .masterWrite buffer
  · have hq := exec_quiet (s := s) hc hw
    refine ⟨?_, ?_, ?_⟩
    · rw [hq.term]
      exact h.canon
    · rw [hq.line, hq.typing]
      exact h.line
    · obtain ⟨ls, hsub, heq⟩ := h.whole
      exact ⟨ls, by rwa [hq.lines], by rwa [hq.input]⟩
  · push Not at hw
    obtain ⟨buffer, rfl⟩ := hw
    rw [exec_masterWrite]
    exact EachByte.inv hf (fun _ _ hs hb => hs.byte hb) h

/-- **Lines arrive whole** or not at all, in runs where every line fits at its newline or finds the queue full. -/
theorem pty_lines (h₀ : Fresh p) (hdata : ∀ c ∈ calls, c.Data) (hm : AllMeet (Bytes LineFits) (start p) calls) :
    Whole (calls.foldl exec (start p)) := by
  have hstart : LinesOK (start p) := by
    refine ⟨h₀.canon, h₀.line, [], List.Sublist.refl _, ?_⟩
    exact h₀.inQ
  have h := hm.inv (I := LinesOK) (fun _ c hc hs hb => hs.exec (hdata c hc) hb) hstart
  exact h.whole

/-- A line of two bytes, of which one was erased. -/
theorem pty_lines_short :
    Whole ([.masterWrite [0x61, 0x62, 127, byteCr], .slaveRead 1].foldl exec (start (ptyCreate 0))) :=
  pty_lines (ptyCreate_fresh 0) (by simp [PtyCall.Data])
    ⟨⟨by decide +kernel, by decide +kernel, by decide +kernel, by decide +kernel, trivial⟩, trivial, trivial⟩

/-- `n` times the same byte of a line. -/
theorem typed_replicate (hm : s.pty.term.Canon) (ht : s.pty.term.translateInput c = some c)
    (he : ¬ s.pty.term.Erases c) (hn : c ≠ byteNl) {n : ℕ} (hl : s.pty.line.length + n ≤ ptyLineCap - 1) :
    ((List.replicate n c).foldl PtyRun.byte s).pty.line = s.pty.line ++ List.replicate n c ∧
      ((List.replicate n c).foldl PtyRun.byte s).pty.term = s.pty.term ∧
      ((List.replicate n c).foldl PtyRun.byte s).pty.inQ = s.pty.inQ ∧
      ((List.replicate n c).foldl PtyRun.byte s).slaveGot = s.slaveGot := by
  induction n generalizing s with
  | zero => exact ⟨(List.append_nil _).symm, rfl, rfl, rfl⟩
  | succ n ih =>
    obtain ⟨sent, hd⟩ := s.pty.masterByte_done c
    have hpty := s.byte_pty c
    have hone : (s.byte c).pty.line = s.pty.line ++ [c] ∧ (s.byte c).pty.term = s.pty.term ∧
        (s.byte c).pty.inQ = s.pty.inQ := by
      rw [hpty]
      generalize s.pty.masterByte c = r at hd ⊢
      cases hd with
      | ignored ht' => rw [ht] at ht'; cases ht'
      | raw _ hm' => exact absurd hm hm'
      | erase ht' _ he' | nothing ht' _ he' =>
        rw [ht] at ht'
        cases ht'
        exact absurd he' he
      | newline ht' =>
        rw [ht] at ht'
        cases ht'
        exact absurd rfl hn
      -- one character more on the line
      | typed ht' _ _ _ _ hs =>
        rw [ht] at ht'
        cases ht'
        exact ⟨hs.line, hs.term, hs.inQ⟩
      | refused _ _ _ _ hl' => omega
    obtain ⟨hline, hterm, hq⟩ := hone
    obtain ⟨h1, h2, h3, h4⟩ := ih (s := s.byte c) (by rwa [hterm]) (by rwa [hterm]) (by rwa [hterm])
      (by rw [hline, List.length_append, List.length_singleton]; omega)
    rw [List.replicate_succ, List.foldl_cons]
    refine ⟨?_, h2.trans hterm, h3.trans hq, h4.trans (byte_slaveGot s c)⟩
    rw [h1, hline, List.append_assoc]
    rfl

/-- **A line of 4095 bytes is torn**: its newline does not fit behind it. -/
theorem pty_tears : ¬ Whole
    ([.masterWrite (List.replicate 4095 0x61 ++ [byteNl])].foldl exec (start (ptyCreate 0))) := by
  obtain ⟨n, hn⟩ : ∃ n, n = 4095 := ⟨_, rfl⟩
  rw [← hn, List.foldl_cons, List.foldl_nil, exec_masterWrite, List.foldl_append]
  have hcanon : (start (ptyCreate 0)).pty.term.Canon := by decide
  obtain ⟨hline, hterm, hq, hgot⟩ := typed_replicate (s := start (ptyCreate 0)) (c := 0x61) (n := n) hcanon
    (by decide) (by decide) (by decide) (by rw [hn]; decide)
  set s := (List.replicate n 0x61).foldl PtyRun.byte (start (ptyCreate 0)) with hs
  have hline' : s.pty.line = List.replicate n 0x61 := hline
  -- the newline finds the queue full
  have hqueue : ([byteNl].foldl PtyRun.byte s).pty.inQ = List.replicate n 0x61 := by
    obtain ⟨sent, hd⟩ := s.pty.masterByte_done byteNl
    have ht : s.pty.term.translateInput byteNl = some byteNl := by
      rw [hterm]
      decide
    have he : ¬ s.pty.term.Erases byteNl := by
      rw [hterm]
      decide
    rw [List.foldl_cons, List.foldl_nil, byte_pty]
    generalize s.pty.masterByte byteNl = r at hd ⊢
    cases hd with
    | ignored ht' => rw [ht] at ht'; cases ht'
    | raw _ hm' => rw [hterm] at hm'; exact absurd hcanon hm'
    | erase ht' _ he' | nothing ht' _ he' =>
      rw [ht] at ht'
      cases ht'
      exact absurd he' he
    | newline _ _ _ hsend =>
      have hroom : room - s.pty.inQ.length = n := by
        rw [hq, hn]
        rfl
      rw [hsend.inQ, s.pty.commitLine_eq.2.2.2, hline', push, hroom, hq, List.take_left' (List.length_replicate)]
      rfl
    | typed ht' _ _ hn' | refused ht' _ _ hn' =>
      rw [ht] at ht'
      cases ht'
      exact absurd rfl hn'
  rintro ⟨ls, -, heq⟩
  have hgot' : ([byteNl].foldl PtyRun.byte s).slaveGot = [] := (byte_slaveGot s byteNl).trans hgot
  rw [hgot', hqueue, List.nil_append] at heq
  cases ls with
  | nil =>
    have hlen := congrArg List.length heq
    rw [List.length_replicate, hn] at hlen
    exact absurd hlen (by decide)
  | cons l ls =>
    have hmem : byteNl ∈ List.replicate n (0x61 : UInt8) := by
      rw [heq]
      simp [unlines]
    exact absurd (List.eq_of_mem_replicate hmem) (by decide)

/-! ### The order of bytes -/

/-- There is room for what the byte brings to the queue. -/
def Room (p : PtyState) (c : UInt8) : Prop :=
  ∀ c' ∈ p.term.translateInput c,
    if p.term.Canon then c' = byteNl → p.inQ.length + p.line.length + 1 ≤ room else p.inQ.length + 1 ≤ room

/-- The byte erases nothing. -/
def NoErase (p : PtyState) (c : UInt8) : Prop :=
  ∀ c' ∈ p.term.translateInput c, p.term.Canon → ¬ p.term.Erases c'

/-- **The condition**: no raw byte comes while a line waits in the line buffer. -/
def Alone (p : PtyState) (c : UInt8) : Prop := ¬ p.term.Canon → p.term.translateInput c ≠ none → p.line = []

instance (p : PtyState) (c : UInt8) : Decidable (Room p c) := inferInstanceAs (Decidable (∀ c' ∈ _, _))

instance (p : PtyState) (c : UInt8) : Decidable (NoErase p c) := inferInstanceAs (Decidable (∀ c' ∈ _, _))

instance (p : PtyState) (c : UInt8) : Decidable (Alone p c) := inferInstanceAs (Decidable (_ → _ → _))

/-- What the slave has read, what is queued for it and what waits in the line buffer is, in this order, what was
there at the start and what was counted since. -/
def InOrder (p₀ : PtyState) (s : PtyRun) : Prop :=
  s.slaveGot ++ s.pty.inQ ++ s.pty.line = p₀.inQ ++ p₀.line ++ s.accepted

theorem InOrder.byte (h : InOrder p₀ s) (hr : Room s.pty c) (he : NoErase s.pty c) (ha : Alone s.pty c) :
    InOrder p₀ (s.byte c) := by
  have hh := h
  unfold InOrder at h
  obtain ⟨sent, hd⟩ := s.pty.masterByte_done c
  unfold PtyRun.byte
  generalize s.pty.masterByte c = r at hd ⊢
  cases hd with
  | ignored ht =>
    rw [ht]
    exact hh
  | raw ht hm hs =>
    have hline := ha hm (by rw [ht]; exact Option.some_ne_none _)
    have hroom := hr _ ht
    rw [if_neg hm] at hroom
    rw [ht]
    rw [hline, List.append_nil] at h
    unfold InOrder
    simp only [hs.line, hs.inQ, PtyState.toSlave_inQ]
    show _ ++ push room s.pty.inQ _ ++ s.pty.line = _
    rw [push_fit hroom, hline, List.append_nil, ← List.append_assoc, h, List.append_assoc]
    rfl
  | erase ht hm hera | nothing ht hm hera => exact absurd hera (he _ ht hm)
  | newline ht hm _ hs =>
    obtain ⟨-, hline, -, hq⟩ := s.pty.commitLine_eq
    have hroom := hr _ ht
    rw [if_pos hm] at hroom
    have hlen : s.pty.inQ.length + (s.pty.line ++ [byteNl]).length ≤ room := by
      rw [List.length_append, List.length_singleton]
      exact hroom rfl
    rw [ht]
    unfold InOrder
    simp only [hs.line, hline, hs.inQ, hq, if_true]
    rw [push_fit hlen, List.append_nil, ← List.append_assoc, ← List.append_assoc, h, List.append_assoc]
  | typed ht _ _ _ _ hs =>
    rw [ht]
    unfold InOrder
    simp only [hs.line, hs.inQ, if_true]
    rw [← List.append_assoc]
    show s.slaveGot ++ s.pty.inQ ++ s.pty.line ++ _ = _
    rw [h, List.append_assoc]
  | refused ht =>
    rw [ht]
    unfold InOrder
    simp only [Bool.false_eq_true, if_false, List.append_nil]
    exact h

/-- `ioctl` changes settings only. -/
theorem ioctl_keeps (p : PtyState) (request : ℕ) (arg : Option PtyState.Arg) :
    (p.ptyIoctl request arg).2.2.inQ = p.inQ ∧ (p.ptyIoctl request arg).2.2.line = p.line := by
  unfold ptyIoctl
  cases arg with
  | none =>
    simp only
    split_ifs <;> exact ⟨rfl, rfl⟩
  | some arg =>
    simp only
    split <;> exact ⟨rfl, rfl⟩

theorem InOrder.exec (h : InOrder p₀ s) {c : PtyCall}
    (hb : Bytes (fun p b => (Room p b ∧ NoErase p b) ∧ Alone p b) s.pty c) : InOrder p₀ (s.exec c) := by
  by_cases hw : ∀ buffer, c ≠ .masterWrite buffer
  · by_cases hc : c.Data
    · have hq := exec_quiet (s := s) hc hw
      unfold InOrder at h ⊢
      rw [hq.input, hq.line, hq.accepted]
      exact h
    · cases c with
      | ioctl request arg =>
        obtain ⟨hinQ, hline⟩ := ioctl_keeps s.pty request arg
        unfold InOrder
        show s.slaveGot ++ (s.pty.ptyIoctl request arg).2.2.inQ ++ (s.pty.ptyIoctl request arg).2.2.line = _
        rw [hinQ, hline]
        exact h
      | masterWrite | slaveWrite | masterRead | slaveRead => exact absurd trivial hc
  · push Not at hw
    obtain ⟨buffer, rfl⟩ := hw
    rw [exec_masterWrite]
    exact EachByte.inv hb (fun _ _ hs hbyte => hs.byte hbyte.1.1 hbyte.1.2 hbyte.2) h

/-- **Bytes arrive in the order in which they were written** in runs without erase characters and with room in the
queue, if no raw byte comes while a line waits in the line buffer. -/
theorem pty_in_order (hm : AllMeet (Bytes fun p b => (Room p b ∧ NoErase p b) ∧ Alone p b) (start p) calls) :
    InOrder p (calls.foldl exec (start p)) := by
  have hstart : InOrder p (start p) := by
    unfold InOrder
    exact (List.append_nil _).symm
  exact hm.inv (I := InOrder p) (fun _ _ _ hs hb => hs.exec hb) hstart

/-- The argument of a `TCSETS` with the settings `t`. -/
def setting (t : Termios) : Option PtyState.Arg := some ⟨t, ptyDefaultWinsize, 0⟩

/-- A line, then raw bytes, then a line again. -/
theorem pty_in_order_modes : InOrder (ptyCreate 0) ([.masterWrite [0x61, byteNl], .ioctl 0x5402 (setting rawTerm),
    .masterWrite [0x62], .ioctl 0x5402 (setting ptyDefaultTermios), .masterWrite [0x63, byteNl]].foldl exec
      (start (ptyCreate 0))) :=
  pty_in_order ⟨⟨by decide +kernel, by decide +kernel, trivial⟩, trivial, ⟨by decide +kernel, trivial⟩, trivial,
    ⟨by decide +kernel, by decide +kernel, trivial⟩, trivial⟩

/-- A byte, `ICANON` off, a byte, `ICANON` on, a newline. -/
def overtaking : List PtyCall :=
  [.masterWrite [0x61], .ioctl 0x5402 (setting rawTerm), .masterWrite [0x62],
    .ioctl 0x5402 (setting ptyDefaultTermios), .masterWrite [byteNl], .slaveRead 3]

/-- **The second byte overtakes the first.** -/
theorem pty_reorders : AllMeet (Bytes fun p b => Room p b ∧ NoErase p b) (start (ptyCreate 0)) overtaking ∧
    (overtaking.foldl exec (start (ptyCreate 0))).accepted = [0x61, 0x62, byteNl] ∧
    (overtaking.foldl exec (start (ptyCreate 0))).slaveGot = [0x62, 0x61, byteNl] ∧
    ¬ (overtaking.foldl exec (start (ptyCreate 0))).slaveGot.Sublist
      (overtaking.foldl exec (start (ptyCreate 0))).accepted := by
  refine ⟨⟨⟨?_, trivial⟩, trivial, ⟨?_, trivial⟩, trivial, ⟨?_, trivial⟩, trivial, trivial⟩, ?_, ?_, ?_⟩ <;>
    decide +kernel

end PtyRun

end Saynaa
