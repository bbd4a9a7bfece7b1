import Saynaa.Lib.Circular
import Saynaa.Dev.Pty

/-!
# The queues of a pseudo-terminal

* `PtyFifo.contents`: a ring is a queue of at most 4095 bytes, and `fifo_write` drops what does not fit.
* `writeOutput_sends`: output is translated byte by byte.
* `masterByte_done`: what one byte from the master does to the queues and the line.
-/

namespace Saynaa

open Lib

/-! ### Rings -/

namespace PtyFifo

variable {f : PtyFifo}

/-- The queued bytes, oldest first. -/
def contents (f : PtyFifo) : List UInt8 := window f.buf ptyBufCap f.r f.fifoCount

theorem fifoCount_lt (f : PtyFifo) : f.fifoCount < ptyBufCap := by
  have hr := f.r_lt
  have hw := f.w_lt
  unfold fifoCount
  split_ifs <;> omega

@[simp] theorem length_contents (f : PtyFifo) : f.contents.length = f.fifoCount := length_window

theorem fifoFree_eq (f : PtyFifo) : f.fifoFree = ptyBufCap - 1 - f.contents.length := by
  rw [length_contents, fifoFree, Nat.sub_right_comm]

theorem contents_le (f : PtyFifo) : f.contents.length ≤ ptyBufCap - 1 := by
  have h := f.fifoCount_lt
  rw [length_contents]
  omega

theorem w_eq (f : PtyFifo) : f.w = wrap ptyBufCap (f.r + f.fifoCount) := by
  have hr := f.r_lt
  have hw := f.w_lt
  unfold wrap fifoCount
  split_ifs <;> omega

theorem succ_mod {x : ℕ} (h : x < ptyBufCap) : (x + 1) % ptyBufCap = wrap ptyBufCap (x + 1) := by
  have hcap : ptyBufCap = 4096 := rfl
  rw [wrap_eq_mod (by omega)]

theorem fifoCount_put (h : 0 < f.fifoFree) (b : UInt8) : (f.put b).fifoCount = f.fifoCount + 1 := by
  have hr := f.r_lt
  have hw := f.w_lt
  have hput : (f.put b).w = wrap ptyBufCap (f.w + 1) := succ_mod hw
  have hr' : (f.put b).r = f.r := rfl
  unfold fifoFree fifoCount at h
  unfold fifoCount
  rw [hput, hr']
  unfold wrap
  split_ifs at h ⊢ <;> omega

theorem fifoCount_drop (h : 0 < f.fifoCount) : f.drop.fifoCount + 1 = f.fifoCount := by
  have hr := f.r_lt
  have hw := f.w_lt
  have hdrop : f.drop.r = wrap ptyBufCap (f.r + 1) := succ_mod hr
  have hw' : f.drop.w = f.w := rfl
  unfold fifoCount at h
  unfold fifoCount
  rw [hdrop, hw']
  unfold wrap
  split_ifs at h ⊢ <;> omega

/-- One byte more. -/
theorem contents_put (h : 0 < f.fifoFree) (b : UInt8) : (f.put b).contents = f.contents ++ [b] := by
  have hr := f.r_lt
  have hw := f.w_lt
  have hn : f.fifoCount + 1 ≤ ptyBufCap := by
    have := f.fifoCount_lt
    omega
  have hwe := f.w_eq
  unfold contents
  rw [fifoCount_put h]
  apply window_put hr hn rfl
  · intro i hi
    obtain rfl : i = 0 := by simpa using hi
    have hself : wrap ptyBufCap (f.w + 0) = f.w := by
      unfold wrap
      rw [if_pos (by omega), Nat.add_zero]
    rw [← hwe, hself]
    exact Function.update_self _ _ _
  · intro i hi
    apply Function.update_of_ne
    rw [hwe]
    unfold wrap
    split_ifs <;> omega

/-- One byte less. -/
theorem contents_drop (h : 0 < f.fifoCount) : f.contents = f.buf f.r :: f.drop.contents := by
  have hr := f.r_lt
  have hlt := f.fifoCount_lt
  have hcount := fifoCount_drop h
  have hfirst : window f.buf ptyBufCap f.r 1 = [f.buf f.r] := by
    simp [window, wrap, hr]
  have hsplit := window_add (q := f.buf) (n := 1) (m := f.drop.fifoCount) hr (by omega)
  rw [hfirst, ← succ_mod hr] at hsplit
  unfold contents
  rw [← hcount, Nat.add_comm, hsplit]
  rfl

/-- **`fifo_write`** appends what fits. -/
theorem fifoWrite_contents (f : PtyFifo) (data : List UInt8) :
    (f.fifoWrite data).2.contents = push (ptyBufCap - 1) f.contents data := by
  induction data generalizing f with
  | nil => rw [push_nil]; rfl
  | cons b data ih =>
    unfold fifoWrite
    split_ifs with h
    · have hroom : f.contents.length + 1 ≤ ptyBufCap - 1 := by
        rw [fifoFree_eq] at h
        omega
      show ((f.put b).fifoWrite data).2.contents = _
      rw [ih, contents_put h, ← push_fit hroom, push_append f.contents_le]
      rfl
    · rw [push_full]
      rw [fifoFree_eq] at h
      omega

/-- **`fifo_read`** takes the oldest bytes. -/
theorem fifoRead_contents (f : PtyFifo) (size : ℕ) :
    (f.fifoRead size).1 = f.contents.take size ∧ (f.fifoRead size).2.contents = f.contents.drop size := by
  induction size generalizing f with
  | zero => exact ⟨rfl, rfl⟩
  | succ size ih =>
    unfold fifoRead
    split_ifs with h
    · obtain ⟨h1, h2⟩ := ih f.drop
      rw [contents_drop h]
      refine ⟨?_, ?_⟩
      · show f.buf f.r :: (f.drop.fifoRead size).1 = _
        rw [h1]
        rfl
      · show (f.drop.fifoRead size).2.contents = _
        rw [h2]
        rfl
    · have hnil : f.contents = [] := List.eq_nil_of_length_eq_zero (by rw [length_contents]; omega)
      rw [hnil]
      exact ⟨rfl, rfl⟩

end PtyFifo

/-! ### One byte from the master -/

/-- What `pty_write_output` sends for a byte. -/
def Termios.output (t : Termios) (c : UInt8) : List UInt8 :=
  if c = byteCr ∧ flagged t.oflag ocrnl then [byteNl]
  else if c = byteCr ∧ flagged t.oflag onlret then []
  else if c = byteNl ∧ flagged t.oflag onlcr then [byteCr, c]
  else [c]

/-- What is sent for a byte that is echoed. -/
def Termios.echoed (t : Termios) (c : UInt8) : List UInt8 := if flagged t.lflag echo then t.output c else []

/-- `ICANON` is set. -/
def Termios.Canon (t : Termios) : Prop := flagged t.lflag icanon

/-- The byte erases one of the line. -/
def Termios.Erases (t : Termios) (c : UInt8) : Prop := c = t.cc verase ∨ c = byteBs

instance (t : Termios) : Decidable t.Canon := inferInstanceAs (Decidable (flagged _ _))

instance (t : Termios) (c : UInt8) : Decidable (t.Erases c) := inferInstanceAs (Decidable (_ ∨ _))

namespace PtyState

variable {p : PtyState} {c c' : UInt8} {data : List UInt8}

/-- The bytes on their way to the slave. -/
def inQ (p : PtyState) : List UInt8 := p.masterWrite.contents

/-- The bytes on their way to the master. -/
def outQ (p : PtyState) : List UInt8 := p.masterRead.contents

/-- The queues hold at most 4095 bytes. -/
def room : ℕ := ptyBufCap - 1

theorem inQ_le (p : PtyState) : p.inQ.length ≤ room := p.masterWrite.contents_le

theorem outQ_le (p : PtyState) : p.outQ.length ≤ room := p.masterRead.contents_le

theorem toSlave_inQ (p : PtyState) (data : List UInt8) : (p.toSlave data).inQ = push room p.inQ data :=
  p.masterWrite.fifoWrite_contents data

theorem toMaster_outQ (p : PtyState) (data : List UInt8) : (p.toMaster data).outQ = push room p.outQ data :=
  p.masterRead.fifoWrite_contents data

/-- A state that differs from `p` in the queue to the master only, to which `sent` was written. -/
structure Sends (p : PtyState) (sent : List UInt8) (p' : PtyState) : Prop where
  eq : p' = { p with masterRead := p'.masterRead }
  outQ : p'.outQ = push room p.outQ sent

theorem Sends.nil (p : PtyState) : Sends p [] p := ⟨rfl, (push_nil _ _).symm⟩

theorem Sends.trans {p' p'' : PtyState} {a b : List UInt8} (h : Sends p a p') (h' : Sends p' b p'') :
    Sends p (a ++ b) p'' := by
  refine ⟨?_, ?_⟩
  · rw [h'.eq, h.eq]
  · rw [h'.outQ, h.outQ, push_append p.outQ_le]

theorem Sends.toMaster (p : PtyState) (data : List UInt8) : Sends p data (p.toMaster data) :=
  ⟨rfl, p.toMaster_outQ data⟩

theorem Sends.term {p' : PtyState} {a : List UInt8} (h : Sends p a p') : p'.term = p.term := by rw [h.eq]

theorem Sends.line {p' : PtyState} {a : List UInt8} (h : Sends p a p') : p'.line = p.line := by rw [h.eq]

theorem Sends.inQ {p' : PtyState} {a : List UInt8} (h : Sends p a p') : p'.inQ = p.inQ := by rw [h.eq]; rfl

/-- **`pty_write_output`** sends the translation of every byte. -/
theorem writeOutput_sends (p : PtyState) (data : List UInt8) :
    Sends p (data.flatMap p.term.output) (p.ptyWriteOutput data) := by
  induction data generalizing p with
  | nil => exact .nil p
  | cons c data ih =>
    have key : ∀ p₁, Sends p (p.term.output c) p₁ →
        Sends p ((c :: data).flatMap p.term.output) (p₁.ptyWriteOutput data) := by
      intro p₁ h
      have h' := ih p₁
      rw [h.term] at h'
      exact h.trans h'
    unfold ptyWriteOutput
    apply key
    unfold Termios.output
    split_ifs
    · exact .toMaster p _
    · exact .nil p
    · exact (Sends.toMaster p [byteCr]).trans (.toMaster _ [c])
    · exact .toMaster p _

/-- `pty_slave_write` reports all of its bytes. -/
theorem slaveWrite_eq (p : PtyState) (buffer : List UInt8) :
    (p.ptySlaveWrite buffer).1.getD 0 = buffer.length ∧ (p.ptySlaveWrite buffer).2 = p.ptyWriteOutput buffer := by
  unfold ptySlaveWrite
  split_ifs with h
  · subst h
    exact ⟨rfl, rfl⟩
  · exact ⟨rfl, rfl⟩

/-- **`pty_slave_read`** takes bytes from the front of its queue. -/
theorem slaveRead_ok (p : PtyState) (size : ℕ) : ∃ f, (p.ptySlaveRead size).2 = { p with masterWrite := f } ∧
    (p.ptySlaveRead size).1.getD [] ++ f.contents = p.inQ := by
  unfold ptySlaveRead
  split_ifs with h
  · exact ⟨p.masterWrite, rfl, rfl⟩
  · obtain ⟨hgot, hrest⟩ := p.masterWrite.fifoRead_contents size
    refine ⟨_, rfl, ?_⟩
    show (p.masterWrite.fifoRead size).1 ++ _ = _
    rw [hgot, hrest, List.take_append_drop]
    rfl

theorem masterRead_ok (p : PtyState) (size : ℕ) : ∃ f, (p.ptyMasterRead size).2 = { p with masterRead := f } ∧
    (p.ptyMasterRead size).1.getD [] ++ f.contents = p.outQ := by
  unfold ptyMasterRead
  split_ifs with h
  · exact ⟨p.masterRead, rfl, rfl⟩
  · obtain ⟨hgot, hrest⟩ := p.masterRead.fifoRead_contents size
    refine ⟨_, rfl, ?_⟩
    show (p.masterRead.fifoRead size).1 ++ _ = _
    rw [hgot, hrest, List.take_append_drop]
    rfl

theorem echoChar_sends (p : PtyState) (c : UInt8) : Sends p (p.term.echoed c) (p.ptyEchoChar c) := by
  unfold ptyEchoChar Termios.echoed
  split_ifs
  · have h := p.writeOutput_sends [c]
    rwa [List.flatMap_cons, List.flatMap_nil, List.append_nil] at h
  · exact .nil p

theorem echoBackspace_sends (p : PtyState) :
    Sends p ([byteBs, byteSpace, byteBs].flatMap p.term.echoed) p.ptyEchoBackspace := by
  unfold ptyEchoBackspace Termios.echoed
  split_ifs
  · exact p.writeOutput_sends _
  · exact .nil p

/-- `pty_commit_line` writes the line and a newline, as far as they fit. -/
theorem commitLine_eq (p : PtyState) : p.ptyCommitLine.term = p.term ∧ p.ptyCommitLine.line = [] ∧
    p.ptyCommitLine.masterRead = p.masterRead ∧ p.ptyCommitLine.inQ = push room p.inQ (p.line ++ [byteNl]) := by
  unfold ptyCommitLine
  split_ifs with h
  · refine ⟨rfl, h, rfl, ?_⟩
    rw [toSlave_inQ, h]
    rfl
  · refine ⟨rfl, rfl, rfl, ?_⟩
    show ((p.toSlave p.line).toSlave [byteNl]).inQ = _
    rw [toSlave_inQ, toSlave_inQ, push_append p.inQ_le]

/-- **What one byte from the master can do**; `sent` goes back to the master. -/
inductive ByteDone (p : PtyState) (c : UInt8) : Bool × PtyState → List UInt8 → Prop
  | ignored (ht : p.term.translateInput c = none) : ByteDone p c (false, p) []
  | raw {c' : UInt8} {p' : PtyState} (ht : p.term.translateInput c = some c') (hm : ¬ p.term.Canon)
      (hs : Sends (p.toSlave [c']) (p.term.echoed c') p') : ByteDone p c (true, p') (p.term.echoed c')
  | erase {c' : UInt8} {p' : PtyState} (ht : p.term.translateInput c = some c') (hm : p.term.Canon)
      (he : p.term.Erases c') (hl : p.line ≠ [])
      (hs : Sends { p with line := p.line.dropLast } ([byteBs, byteSpace, byteBs].flatMap p.term.echoed) p') :
      ByteDone p c (false, p') ([byteBs, byteSpace, byteBs].flatMap p.term.echoed)
  | nothing {c' : UInt8} (ht : p.term.translateInput c = some c') (hm : p.term.Canon)
      (he : p.term.Erases c') (hl : p.line = []) : ByteDone p c (false, p) []
  | newline {p' : PtyState} (ht : p.term.translateInput c = some byteNl) (hm : p.term.Canon)
      (he : ¬ p.term.Erases byteNl) (hs : Sends p.ptyCommitLine (p.term.echoed byteNl) p') :
      ByteDone p c (true, p') (p.term.echoed byteNl)
  | typed {c' : UInt8} {p' : PtyState} (ht : p.term.translateInput c = some c') (hm : p.term.Canon)
      (he : ¬ p.term.Erases c') (hn : c' ≠ byteNl) (hl : p.line.length < ptyLineCap - 1)
      (hs : Sends { p with line := p.line ++ [c'] } (p.term.echoed c') p') :
      ByteDone p c (true, p') (p.term.echoed c')
  | refused {c' : UInt8} (ht : p.term.translateInput c = some c') (hm : p.term.Canon)
      (he : ¬ p.term.Erases c') (hn : c' ≠ byteNl) (hl : ptyLineCap - 1 ≤ p.line.length) :
      ByteDone p c (false, p) []

theorem masterByte_ignored (h : p.term.translateInput c = none) : p.masterByte c = (false, p) := by
  unfold masterByte
  rw [h]

theorem masterByte_done (p : PtyState) (c : UInt8) : ∃ sent, ByteDone p c (p.masterByte c) sent := by
  unfold masterByte
  cases ht : p.term.translateInput c with
  -- the settings ignore it
  | none => exact ⟨_, .ignored ht⟩
  | some c' =>
    simp only
    by_cases hm : p.term.Canon
    · -- a line is collected
      have hm' : flagged p.term.lflag icanon := hm
      rw [if_pos hm']
      by_cases he : p.term.Erases c'
      · have he' : c' = p.term.cc verase ∨ c' = byteBs := he
        rw [if_pos he']
        -- an erase character, on an empty line or not
        by_cases hl : p.line = []
        · rw [if_neg (not_not.2 hl)]
          exact ⟨_, .nothing ht hm he hl⟩
        · rw [if_pos hl]
          exact ⟨_, .erase ht hm he hl (echoBackspace_sends _)⟩
      · have he' : ¬ (c' = p.term.cc verase ∨ c' = byteBs) := he
        rw [if_neg he']
        by_cases hn : c' = byteNl
        · -- a newline commits the line
          subst hn
          have hs := p.ptyCommitLine.echoChar_sends byteNl
          rw [p.commitLine_eq.1] at hs
          rw [if_pos rfl]
          exact ⟨_, .newline ht hm he hs⟩
        · rw [if_neg hn]
          split_ifs with hl
          · exact ⟨_, .typed ht hm he hn hl (echoChar_sends _ c')⟩
          · exact ⟨_, .refused ht hm he hn (by omega)⟩
    · -- without canonical mode it goes into the queue at once
      have hm' : ¬ flagged p.term.lflag icanon := hm
      rw [if_neg hm']
      exact ⟨_, .raw ht hm (echoChar_sends _ c')⟩

end PtyState

end Saynaa
