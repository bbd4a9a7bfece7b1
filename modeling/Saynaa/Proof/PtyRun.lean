import Saynaa.Proof.Pty

/-!
# What a pseudo-terminal delivers

* `PtyRun`: a terminal with what went in and out of it so far.
* `bytes_wrote`, `exec_moved`: what a call does to the queues while `ICANON` is clear.
* `pty_delivers`, `pty_drops`: bytes arrive as they were counted exactly when all of them fit.
-/

namespace Saynaa

open Lib

/-! ### Runs -/

/-- The calls on a terminal. -/
inductive PtyCall where
  | masterWrite (buffer : List UInt8)
  | slaveWrite (buffer : List UInt8)
  | masterRead (size : ℕ)
  | slaveRead (size : ℕ)
  | ioctl (request : ℕ) (arg : Option PtyState.Arg)

/-- A read or a write. -/
def PtyCall.Data : PtyCall → Prop
  | .ioctl _ _ => False
  | _ => True

/-- A terminal with what went in and out of it so far: the bytes that each side has read, the translated bytes
that `pty_master_write` has counted, what was sent to the master, the lines that ended with a newline, and the
line being typed. -/
structure PtyRun where
  pty : PtyState
  slaveGot : List UInt8
  accepted : List UInt8
  masterGot : List UInt8
  produced : List UInt8
  lines : List (List UInt8)
  typing : List UInt8

namespace PtyRun

open PtyState

variable {s s' : PtyRun} {p p₀ : PtyState} {c : UInt8} {calls : List PtyCall}

def start (p : PtyState) : PtyRun := ⟨p, [], [], [], [], [], []⟩

@[simp] theorem start_pty (p : PtyState) : (start p).pty = p := rfl

/-- The line editor: of the bytes that are not counted, only those that erase change the line. -/
def edit (t : Termios) (counted : Bool) (line : List UInt8) (c : UInt8) : List UInt8 :=
  if t.Erases c then line.dropLast
  else if c = byteNl then []
  else if counted then line ++ [c]
  else line

/-- What goes back to the master for a byte. -/
def sentBack (p : PtyState) (counted : Bool) (c : UInt8) : List UInt8 :=
  if counted then p.term.echoed c
  else if p.term.Canon ∧ p.term.Erases c ∧ p.line ≠ [] then [byteBs, byteSpace, byteBs].flatMap p.term.echoed
  else []

/-- One byte from the master. -/
def byte (s : PtyRun) (c : UInt8) : PtyRun :=
  let (counted, p) := s.pty.masterByte c
  match s.pty.term.translateInput c with
  | none => { s with pty := p }
  | some c =>
    { s with
      pty := p
      accepted := s.accepted ++ if counted then [c] else []
      produced := s.produced ++ sentBack s.pty counted c
      lines := if s.pty.term.Canon ∧ ¬ s.pty.term.Erases c ∧ c = byteNl then s.lines ++ [s.typing] else s.lines
      typing := if s.pty.term.Canon then edit s.pty.term counted s.typing c else s.typing }

/-- One call. -/
def exec (s : PtyRun) : PtyCall → PtyRun
  | .masterWrite buffer => { buffer.foldl byte s with pty := (s.pty.ptyMasterWrite buffer).2 }
  | .slaveWrite buffer =>
    let (reported, p) := s.pty.ptySlaveWrite buffer
    { s with pty := p, produced := s.produced ++ (buffer.take (reported.getD 0)).flatMap s.pty.term.output }
  | .masterRead size =>
    let (got, p) := s.pty.ptyMasterRead size
    { s with pty := p, masterGot := s.masterGot ++ got.getD [] }
  | .slaveRead size =>
    let (got, p) := s.pty.ptySlaveRead size
    { s with pty := p, slaveGot := s.slaveGot ++ got.getD [] }
  | .ioctl request arg => { s with pty := (s.pty.ptyIoctl request arg).2.2 }

/-- Every call of a run meets `C` in the state before it. -/
def AllMeet (C : PtyState → PtyCall → Prop) : PtyRun → List PtyCall → Prop
  | _, [] => True
  | s, c :: calls => C s.pty c ∧ AllMeet C (s.exec c) calls

/-- Every byte that a call writes to the slave meets `B` in the state before it. -/
def EachByte (B : PtyState → UInt8 → Prop) : PtyState → List UInt8 → Prop
  | _, [] => True
  | p, c :: data => B p c ∧ EachByte B (p.masterByte c).2 data

def Bytes (B : PtyState → UInt8 → Prop) (p : PtyState) : PtyCall → Prop
  | .masterWrite buffer => EachByte B p buffer
  | _ => True

theorem AllMeet.inv {C : PtyState → PtyCall → Prop} {I : PtyRun → Prop} (hm : AllMeet C s calls)
    (hstep : ∀ s c, c ∈ calls → I s → C s.pty c → I (s.exec c)) (hs : I s) : I (calls.foldl exec s) := by
  induction calls generalizing s with
  | nil => exact hs
  | cons c calls ih =>
    obtain ⟨hc, hm⟩ := hm
    exact ih hm (fun s d hd => hstep s d (List.mem_cons_of_mem _ hd)) (hstep s c List.mem_cons_self hs hc)

theorem byte_pty (s : PtyRun) (c : UInt8) : (s.byte c).pty = (s.pty.masterByte c).2 := by
  unfold byte
  cases s.pty.term.translateInput c <;> rfl

theorem foldl_byte_pty (s : PtyRun) (data : List UInt8) :
    (data.foldl byte s).pty = (s.pty.ptyMasterWriteData data).2 := by
  induction data generalizing s with
  | nil => rfl
  | cons c data ih =>
    rw [List.foldl_cons, ih, byte_pty]
    rfl

theorem exec_masterWrite (s : PtyRun) (buffer : List UInt8) : s.exec (.masterWrite buffer) = buffer.foldl byte s := by
  have hpty : (s.pty.ptyMasterWrite buffer).2 = (buffer.foldl byte s).pty := by
    rw [foldl_byte_pty]
    unfold ptyMasterWrite
    split_ifs with h
    · rw [h]
      rfl
    · rfl
  show { buffer.foldl byte s with pty := (s.pty.ptyMasterWrite buffer).2 } = _
  rw [hpty]

/-- A read moves bytes from the queue to the slave. -/
theorem exec_slaveRead (s : PtyRun) (size : ℕ) : ∃ f got,
    s.exec (.slaveRead size) = { s with pty := { s.pty with masterWrite := f }, slaveGot := s.slaveGot ++ got } ∧
      got ++ f.contents = s.pty.inQ := by
  obtain ⟨f, hp, hgot⟩ := s.pty.slaveRead_ok size
  refine ⟨f, _, ?_, hgot⟩
  rw [← hp]
  rfl

/-- A read moves bytes from the queue to the master. -/
theorem exec_masterRead (s : PtyRun) (size : ℕ) : ∃ f got,
    s.exec (.masterRead size) = { s with pty := { s.pty with masterRead := f }, masterGot := s.masterGot ++ got } ∧
      got ++ f.contents = s.pty.outQ := by
  obtain ⟨f, hp, hgot⟩ := s.pty.masterRead_ok size
  refine ⟨f, _, ?_, hgot⟩
  rw [← hp]
  rfl

/-- What every byte keeps, a call of `pty_master_write` keeps. -/
theorem EachByte.inv {B : PtyState → UInt8 → Prop} {I : PtyRun → Prop} {data : List UInt8}
    (hm : EachByte B s.pty data)
    (hstep : ∀ s c, I s → B s.pty c → I (s.byte c)) (hs : I s) : I (data.foldl byte s) := by
  induction data generalizing s with
  | nil => exact hs
  | cons c data ih =>
    obtain ⟨hc, hm⟩ := hm
    rw [← byte_pty] at hm
    exact ih hm (hstep s c hs hc)

/-- **The logged bytes are as many as the call counts.** -/
theorem accepted_counted (s : PtyRun) (data : List UInt8) :
    (data.foldl byte s).accepted.length = s.accepted.length + (s.pty.ptyMasterWriteData data).1 := by
  induction data generalizing s with
  | nil => rfl
  | cons c data ih =>
    have hone : (s.byte c).accepted.length = s.accepted.length + (s.pty.masterByte c).1.toNat := by
      unfold byte
      cases ht : s.pty.term.translateInput c with
      | none =>
        rw [masterByte_ignored ht]
        rfl
      | some c' =>
        show (s.accepted ++ if (s.pty.masterByte c).1 = true then [c'] else []).length = _
        cases (s.pty.masterByte c).1 <;> simp
    rw [List.foldl_cons, ih, hone, byte_pty]
    show _ = s.accepted.length + (((s.pty.masterByte c).2.ptyMasterWriteData data).1 + (s.pty.masterByte c).1.toNat)
    omega

/-! ### Bytes that are counted -/

/-- Both queues were written to. -/
structure Wrote (s : PtyRun) (ins outs : List UInt8) (s' : PtyRun) : Prop where
  term : s'.pty.term = s.pty.term
  slaveGot : s'.slaveGot = s.slaveGot
  masterGot : s'.masterGot = s.masterGot
  inQ : s'.pty.inQ = push room s.pty.inQ ins
  outQ : s'.pty.outQ = push room s.pty.outQ outs
  accepted : s'.accepted = s.accepted ++ ins
  produced : s'.produced = s.produced ++ outs

theorem Wrote.nil (s : PtyRun) : Wrote s [] [] s :=
  ⟨rfl, rfl, rfl, (push_nil _ _).symm, (push_nil _ _).symm, (List.append_nil _).symm, (List.append_nil _).symm⟩

theorem Wrote.trans {s'' : PtyRun} {a b a' b' : List UInt8} (h : Wrote s a b s') (h' : Wrote s' a' b' s'') :
    Wrote s (a ++ a') (b ++ b') s'' := by
  refine ⟨h'.term.trans h.term, h'.slaveGot.trans h.slaveGot, h'.masterGot.trans h.masterGot, ?_, ?_, ?_, ?_⟩
  · rw [h'.inQ, h.inQ, push_append s.pty.inQ_le]
  · rw [h'.outQ, h.outQ, push_append s.pty.outQ_le]
  · rw [h'.accepted, h.accepted, List.append_assoc]
  · rw [h'.produced, h.produced, List.append_assoc]

/-- **A raw byte** goes to the slave, and its echo to the master. -/
theorem byte_wrote (hraw : ¬ s.pty.term.Canon) (c : UInt8) :
    Wrote s (s.pty.term.translateInput c).toList ((s.pty.term.translateInput c).toList.flatMap s.pty.term.echoed)
      (s.byte c) := by
  obtain ⟨sent, h⟩ := s.pty.masterByte_done c
  unfold byte
  generalize s.pty.masterByte c = r at h ⊢
  cases h with
  | ignored ht =>
    rw [ht]
    exact .nil s
  | raw ht _ hs =>
    rw [ht]
    refine ⟨hs.term, rfl, rfl, ?_, ?_, rfl, ?_⟩
    · rw [hs.inQ]
      exact s.pty.toSlave_inQ _
    · rw [hs.outQ]
      simp [PtyState.outQ, PtyState.toSlave]
    · simp [sentBack]
  | erase _ hm | nothing _ hm | newline _ hm | typed _ hm | refused _ hm => exact absurd hm hraw

theorem bytes_wrote (hraw : ¬ s.pty.term.Canon) (data : List UInt8) :
    Wrote s (data.filterMap s.pty.term.translateInput)
      ((data.filterMap s.pty.term.translateInput).flatMap s.pty.term.echoed) (data.foldl byte s) := by
  induction data generalizing s with
  | nil => exact .nil s
  | cons c data ih =>
    have h := byte_wrote hraw c
    have h' := ih (s := s.byte c) (by rwa [h.term])
    rw [h.term] at h'
    have hcons : (c :: data).filterMap s.pty.term.translateInput =
        (s.pty.term.translateInput c).toList ++ data.filterMap s.pty.term.translateInput := by
      cases ht : s.pty.term.translateInput c <;> simp [ht]
    rw [hcons, List.flatMap_append]
    exact h.trans h'

/-- What a call writes to the queues while `ICANON` is clear. -/
def writes (p : PtyState) : PtyCall → List UInt8 × List UInt8
  | .masterWrite buffer =>
    let bytes := buffer.filterMap p.term.translateInput
    (bytes, bytes.flatMap p.term.echoed)
  | .slaveWrite buffer => ([], buffer.flatMap p.term.output)
  | _ => ([], [])

/-- **The condition**: what a call writes fits into the queues. -/
def Fits (p : PtyState) (c : PtyCall) : Prop :=
  p.inQ.length + (writes p c).1.length ≤ room ∧ p.outQ.length + (writes p c).2.length ≤ room

/-- What the slave has read, followed by what is queued for it, is what was queued at the start, followed by what
was counted; and what the master has read, followed by what is queued for it, is what was sent to it. -/
structure Delivered (p₀ : PtyState) (s : PtyRun) : Prop where
  input : s.slaveGot ++ s.pty.inQ = p₀.inQ ++ s.accepted
  output : s.masterGot ++ s.pty.outQ = p₀.outQ ++ s.produced

/-- What one call does to the queues and the logs. -/
structure Moved (s : PtyRun) (ins outs : List UInt8) (s' : PtyRun) : Prop where
  term : s'.pty.term = s.pty.term
  input : s'.slaveGot ++ s'.pty.inQ = s.slaveGot ++ push room s.pty.inQ ins
  output : s'.masterGot ++ s'.pty.outQ = s.masterGot ++ push room s.pty.outQ outs
  accepted : s'.accepted = s.accepted ++ ins
  produced : s'.produced = s.produced ++ outs

theorem Wrote.moved {a b : List UInt8} (h : Wrote s a b s') : Moved s a b s' := by
  refine ⟨h.term, ?_, ?_, h.accepted, h.produced⟩
  · rw [h.slaveGot, h.inQ]
  · rw [h.masterGot, h.outQ]

/-- **One call**, while `ICANON` is clear. -/
theorem exec_moved (hraw : ¬ s.pty.term.Canon) {c : PtyCall} (hc : c.Data) :
    Moved s (writes s.pty c).1 (writes s.pty c).2 (s.exec c) := by
  cases c with
  -- what is written goes into one queue, as much as there is room for
  | masterWrite buffer =>
    rw [exec_masterWrite]
    exact (bytes_wrote hraw buffer).moved
  | slaveWrite buffer =>
    obtain ⟨hrep, hp⟩ := s.pty.slaveWrite_eq buffer
    have hs := s.pty.writeOutput_sends buffer
    rw [← hp] at hs
    refine ⟨hs.term, ?_, ?_, (List.append_nil _).symm, ?_⟩
    · show s.slaveGot ++ (s.pty.ptySlaveWrite buffer).2.inQ = s.slaveGot ++ push room s.pty.inQ []
      rw [hs.inQ, push_nil]
    · show s.masterGot ++ (s.pty.ptySlaveWrite buffer).2.outQ = _
      rw [hs.outQ]
      rfl
    · show s.produced ++ (buffer.take ((s.pty.ptySlaveWrite buffer).1.getD 0)).flatMap _ = _
      rw [hrep, List.take_length]
      rfl
  -- what is read is taken from one queue, and the other stays
  | masterRead size =>
    obtain ⟨f, got, hexec, hgot⟩ := exec_masterRead s size
    rw [hexec]
    refine ⟨rfl, ?_, ?_, (List.append_nil _).symm, (List.append_nil _).symm⟩
    · show s.slaveGot ++ s.pty.inQ = s.slaveGot ++ push room s.pty.inQ []
      rw [push_nil]
    · show s.masterGot ++ got ++ f.contents = s.masterGot ++ push room s.pty.outQ []
      rw [List.append_assoc, hgot, push_nil]
  | slaveRead size =>
    obtain ⟨f, got, hexec, hgot⟩ := exec_slaveRead s size
    rw [hexec]
    refine ⟨rfl, ?_, ?_, (List.append_nil _).symm, (List.append_nil _).symm⟩
    · show s.slaveGot ++ got ++ f.contents = s.slaveGot ++ push room s.pty.inQ []
      rw [List.append_assoc, hgot, push_nil]
    · show s.masterGot ++ s.pty.outQ = s.masterGot ++ push room s.pty.outQ []
      rw [push_nil]
  | ioctl => exact absurd hc id

theorem Moved.delivered {c : PtyCall} (h : Delivered p₀ s) (hf : Fits s.pty c)
    (hmoved : Moved s (writes s.pty c).1 (writes s.pty c).2 s') : Delivered p₀ s' := by
  refine ⟨?_, ?_⟩
  · rw [hmoved.input, push_fit hf.1, ← List.append_assoc, h.input, List.append_assoc, hmoved.accepted]
  · rw [hmoved.output, push_fit hf.2, ← List.append_assoc, h.output, List.append_assoc, hmoved.produced]

/-- In both directions at most as many bytes as there should be, and in one of them fewer. -/
structure Lost (p₀ : PtyState) (s : PtyRun) : Prop where
  input : (s.slaveGot ++ s.pty.inQ).length ≤ (p₀.inQ ++ s.accepted).length
  output : (s.masterGot ++ s.pty.outQ).length ≤ (p₀.outQ ++ s.produced).length
  some : (s.slaveGot ++ s.pty.inQ).length < (p₀.inQ ++ s.accepted).length ∨
    (s.masterGot ++ s.pty.outQ).length < (p₀.outQ ++ s.produced).length

theorem Lost.not_delivered (h : Lost p₀ s) : ¬ Delivered p₀ s := by
  intro hd
  have hsome := h.some
  rw [hd.input, hd.output] at hsome
  omega

/-- Bytes once lost are not made up for. -/
theorem Moved.lost {ins outs : List UInt8} (h : Moved s ins outs s')
    (hin : (s.slaveGot ++ s.pty.inQ).length ≤ (p₀.inQ ++ s.accepted).length)
    (hout : (s.masterGot ++ s.pty.outQ).length ≤ (p₀.outQ ++ s.produced).length)
    (hsome : ((s.slaveGot ++ s.pty.inQ).length < (p₀.inQ ++ s.accepted).length ∨
      (s.masterGot ++ s.pty.outQ).length < (p₀.outQ ++ s.produced).length) ∨
      ¬ (s.pty.inQ.length + ins.length ≤ room ∧ s.pty.outQ.length + outs.length ≤ room)) : Lost p₀ s' := by
  have h1 := length_push s.pty.inQ_le ins
  have h2 := length_push s.pty.outQ_le outs
  have key : ((s'.slaveGot ++ s'.pty.inQ).length ≤ (p₀.inQ ++ s'.accepted).length ∧
      (s'.masterGot ++ s'.pty.outQ).length ≤ (p₀.outQ ++ s'.produced).length) ∧
      ((s'.slaveGot ++ s'.pty.inQ).length < (p₀.inQ ++ s'.accepted).length ∨
        (s'.masterGot ++ s'.pty.outQ).length < (p₀.outQ ++ s'.produced).length) := by
    rw [h.input, h.output, h.accepted, h.produced]
    simp only [List.length_append] at hin hout hsome ⊢
    omega
  exact ⟨key.1.1, key.1.2, key.2⟩

theorem Lost.run (h : Lost p₀ s) (hraw : ¬ s.pty.term.Canon) (hdata : ∀ c ∈ calls, c.Data) :
    Lost p₀ (calls.foldl exec s) := by
  induction calls generalizing s with
  | nil => exact h
  | cons c calls ih =>
    have hmoved := exec_moved hraw (hdata c List.mem_cons_self)
    apply ih (hmoved.lost h.input h.output (.inl h.some))
    · rwa [hmoved.term]
    · exact fun d hd => hdata d (List.mem_cons_of_mem _ hd)

theorem delivered_iff (hd : Delivered p₀ s) (hraw : ¬ s.pty.term.Canon) (hdata : ∀ c ∈ calls, c.Data) :
    Delivered p₀ (calls.foldl exec s) ↔ AllMeet Fits s calls := by
  induction calls generalizing s with
  | nil => exact ⟨fun _ => trivial, fun _ => hd⟩
  | cons c calls ih =>
    have hmoved := exec_moved hraw (hdata c List.mem_cons_self)
    have hrest : ∀ d ∈ calls, d.Data := fun d hm => hdata d (List.mem_cons_of_mem _ hm)
    have hraw' : ¬ (s.exec c).pty.term.Canon := by rwa [hmoved.term]
    by_cases hf : Fits s.pty c
    · have h := ih (hmoved.delivered hd hf) hraw' hrest
      exact h.trans ⟨fun hm => ⟨hf, hm⟩, fun hm => hm.2⟩
    · -- what this call loses stays lost
      have hlost : Lost p₀ (s.exec c) := hmoved.lost (by rw [hd.input]) (by rw [hd.output]) (.inr hf)
      constructor
      · exact fun h => absurd h (hlost.run hraw' hrest).not_delivered
      · exact fun hm => absurd hm.1 hf

theorem delivered_start (p : PtyState) : Delivered p (start p) :=
  ⟨(List.append_nil _).symm, (List.append_nil _).symm⟩

/-- **Bytes arrive as they were counted** exactly if what every call writes fits into the queues. -/
theorem pty_delivers (hraw : ¬ p.term.Canon) (hdata : ∀ c ∈ calls, c.Data) :
    Delivered p (calls.foldl exec (start p)) ↔ AllMeet Fits (start p) calls :=
  delivered_iff (delivered_start p) hraw hdata

/-- A new terminal after `TCSETS` with `ICANON` clear. -/
def rawTerm : Termios := { ptyDefaultTermios with lflag := isig }

def rawPty : PtyState := { ptyCreate 0 with term := rawTerm }

theorem rawPty_raw : ¬ rawPty.term.Canon := by decide

/-- A short line in raw mode. -/
theorem pty_delivers_short :
    Delivered rawPty ([.masterWrite [0x61, byteCr], .slaveRead 1, .slaveWrite [byteNl]].foldl exec (start rawPty)) :=
  (pty_delivers rawPty_raw (by simp [PtyCall.Data])).2 (by
    refine ⟨⟨?_, ?_⟩, ⟨?_, ?_⟩, ⟨?_, ?_⟩, trivial⟩ <;> decide +kernel)

/-- `n` times the same byte. -/
theorem writes_replicate (ht : p.term.translateInput c = some c) (n : ℕ) :
    (writes p (.masterWrite (List.replicate n c))).1 = List.replicate n c :=
  List.filterMap_replicate_of_some ht

theorem counted_replicate (hraw : ¬ p.term.Canon) (ht : p.term.translateInput c = some c) (n : ℕ) :
    (p.ptyMasterWriteData (List.replicate n c)).1 = n := by
  have hw := (bytes_wrote (s := start p) hraw (List.replicate n c)).accepted
  have hcount := accepted_counted (start p) (List.replicate n c)
  rw [hw, List.length_append, start_pty, List.filterMap_replicate_of_some ht, List.length_replicate] at hcount
  exact Nat.add_left_cancel hcount.symm

theorem masterWrite_replicate (hraw : ¬ p.term.Canon) (ht : p.term.translateInput c = some c) {n : ℕ} (hn : n ≠ 0) :
    (p.ptyMasterWrite (List.replicate n c)).1 = some n := by
  unfold ptyMasterWrite
  rw [if_neg (by simpa using hn)]
  exact congrArg some (counted_replicate hraw ht n)

theorem not_delivered_replicate (hraw : ¬ p.term.Canon) (ht : p.term.translateInput c = some c) {n : ℕ}
    (hn : room < n) : ¬ Delivered p ([.masterWrite (List.replicate n c)].foldl exec (start p)) := by
  intro hd
  have hdata : ∀ d ∈ [PtyCall.masterWrite (List.replicate n c)], d.Data := by
    intro d hd
    rw [List.mem_singleton.1 hd]
    trivial
  have hfits := ((delivered_iff (delivered_start p) hraw hdata).1 hd).1.1
  rw [start_pty, writes_replicate ht, List.length_replicate] at hfits
  omega

/-- **4096 bytes are counted**, but the queue holds one less. -/
theorem pty_drops : ¬ rawPty.term.Canon ∧ (rawPty.ptyMasterWrite (List.replicate 4096 0x61)).1 = some 4096 ∧
    ¬ Delivered rawPty ([.masterWrite (List.replicate 4096 0x61)].foldl exec (start rawPty)) := by
  have ht : rawPty.term.translateInput 0x61 = some 0x61 := by decide
  exact ⟨rawPty_raw, masterWrite_replicate rawPty_raw ht (by decide),
    not_delivered_replicate rawPty_raw ht (by decide)⟩

end PtyRun

end Saynaa
