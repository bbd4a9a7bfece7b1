import Saynaa.Proof.PtyLines

/-!
# The line editor

* `Editor`: the reference, which works on lists and knows nothing of rings.
* `byte_edited`: a byte from the master does what the reference does.
* `pty_edits`: so do all bytes, in whatever calls they come.
-/

namespace Saynaa

open Lib

/-! ### The reference -/

/-- The input translation of the settings. -/
def translated (t : Termios) (c : UInt8) : Option UInt8 :=
  let c := if flagged t.iflag istrip then c &&& 0x7F else c
  if c = byteCr ∧ flagged t.iflag igncr then none
  else if c = byteCr ∧ flagged t.iflag icrnl then some byteNl
  else if c = byteNl ∧ flagged t.iflag inlcr then some byteCr
  else some c

/-- A line that is being edited, the lines that were finished, the number of accepted characters, and what was sent
back. -/
structure Editor where
  pending : List UInt8
  lines : List (List UInt8)
  counted : ℕ
  sent : List UInt8

namespace Editor

/-- The characters that a line can have. -/
def maxPending : ℕ := 4095

def ofLine (line : List UInt8) : Editor := ⟨line, [], 0, []⟩

/-- A character that was translated. -/
def enter (t : Termios) (e : Editor) (c : UInt8) : Editor :=
  if c = byteNl then ⟨[], e.lines ++ [e.pending], e.counted + 1, e.sent ++ t.echoed c⟩
  else if t.Erases c then
    if e.pending = [] then e
    else { e with pending := e.pending.dropLast, sent := e.sent ++ [byteBs, byteSpace, byteBs].flatMap t.echoed }
  else if e.pending.length < maxPending then
    { e with pending := e.pending ++ [c], counted := e.counted + 1, sent := e.sent ++ t.echoed c }
  else e

/-- A character as it was typed. -/
def type (t : Termios) (e : Editor) (c : UInt8) : Editor := (translated t c).elim e (e.enter t)

end Editor

namespace PtyRun

open PtyState

variable {s s' : PtyRun} {p p₀ : PtyState} {t : Termios} {c c' : UInt8} {call : PtyCall} {calls : List PtyCall}
  {e : Editor}

/-! ### One byte -/

theorem translateInput_eq (t : Termios) (c : UInt8) : t.translateInput c = translated t c := by
  unfold Termios.translateInput translated
  generalize (if flagged t.iflag istrip then c &&& 0x7F else c) = d
  have hne : byteCr ≠ byteNl := by decide
  by_cases hcr : d = byteCr
  · subst hcr
    simp [hne]
  · simp only [hcr, false_and, if_false]
    by_cases hnl : d = byteNl <;> simp [hnl]

theorem type_none (ht : t.translateInput c = none) (e : Editor) : e.type t c = e := by
  unfold Editor.type
  rw [← translateInput_eq, ht]
  rfl

theorem type_some (ht : t.translateInput c = some c') (e : Editor) : e.type t c = e.enter t c' := by
  unfold Editor.type
  rw [← translateInput_eq, ht]
  rfl

/-- The newline is not one of the bytes that erase. -/
theorem erases_ne_newline (he : t.Erases c) (hv : t.cc verase ≠ byteNl) : c ≠ byteNl := by
  rintro rfl
  rcases he with h | h
  · exact hv h.symm
  · exact absurd h (by decide)

/-- **There is room** for what the byte brings to the queues. -/
def EditRoom (p : PtyState) (c : UInt8) : Prop :=
  p.inQ.length + (unlines ((Editor.ofLine p.line).type p.term c).lines).length ≤ room ∧
    p.outQ.length + ((Editor.ofLine p.line).type p.term c).sent.length ≤ room

instance (p : PtyState) (c : UInt8) : Decidable (EditRoom p c) := inferInstanceAs (Decidable (_ ∧ _))

/-- **The terminal agrees with the reference**: the settings are those of `p`, and what was queued, finished, sent
back and counted since is what the reference says. -/
structure Edited (p : PtyState) (s : PtyRun) (e : Editor) : Prop where
  term : s.pty.term = p.term
  line : s.pty.line = e.pending
  input : s.slaveGot ++ s.pty.inQ = p.inQ ++ unlines e.lines
  output : s.masterGot ++ s.pty.outQ = p.outQ ++ e.sent
  counted : s.accepted.length = e.counted

theorem Edited.start (p : PtyState) : Edited p (start p) (Editor.ofLine p.line) :=
  ⟨rfl, rfl, (List.append_nil _).symm, (List.append_nil _).symm, rfl⟩

/-- What is sent back for a byte arrives behind the rest. -/
theorem Edited.send {sent : List UInt8} {p' : PtyState} (h : Edited p s e) (ho : p'.outQ = push room s.pty.outQ sent)
    (hfit : s.pty.outQ.length + sent.length ≤ room) : s.masterGot ++ p'.outQ = p.outQ ++ (e.sent ++ sent) := by
  rw [ho, push_fit hfit, ← List.append_assoc, h.output, List.append_assoc]

/-- **A byte from the master** does what the reference does. -/
theorem byte_edited (h : Edited p s e) (hcanon : p.term.Canon) (hv : p.term.cc verase ≠ byteNl)
    (hr : EditRoom s.pty c) : Edited p (s.byte c) (e.type p.term c) := by
  have hterm := h.term
  have hline := h.line
  have hcounted := h.counted
  obtain ⟨sent, hd⟩ := s.pty.masterByte_done c
  unfold EditRoom at hr
  rw [hline] at hr
  rw [← hterm] at hcanon hv ⊢
  unfold PtyRun.byte
  generalize s.pty.masterByte c = r at hd ⊢
  cases hd with
  | ignored ht =>
    rw [ht, type_none ht]
    exact h
  | raw _ hm => exact absurd hcanon hm
  -- the line loses its last character, as that of the editor
  | erase ht _ he hl hs =>
    have hpend : e.pending ≠ [] := hline ▸ hl
    have henter : ∀ e' : Editor, e'.pending = e.pending → e'.type s.pty.term c = { e' with
        pending := e'.pending.dropLast, sent :=
          e'.sent ++ [byteBs, byteSpace, byteBs].flatMap s.pty.term.echoed } := by
      intro e' heq
      rw [type_some ht]
      unfold Editor.enter
      rw [if_neg (erases_ne_newline he hv), if_pos he, if_neg (heq ▸ hpend)]
    rw [henter (Editor.ofLine e.pending) rfl] at hr
    rw [ht, henter e rfl]
    refine ⟨hs.term.trans hterm, ?_, ?_, ?_, ?_⟩
    · rw [hs.line, hline]
    · show s.slaveGot ++ _ = _
      rw [hs.inQ]
      exact h.input
    · exact h.send hs.outQ hr.2
    · simpa using hcounted
  -- there is nothing to erase
  | nothing ht _ he hl =>
    have hpend : e.pending = [] := hline ▸ hl
    have henter : e.type s.pty.term c = e := by
      rw [type_some ht]
      unfold Editor.enter
      rw [if_neg (erases_ne_newline he hv), if_pos he, if_pos hpend]
    rw [ht, henter]
    exact ⟨hterm, hline, h.input, h.output, by simpa using hcounted⟩
  -- the line is committed as a whole
  | newline ht _ he hs =>
    obtain ⟨hterm', hline', hmaster, hq⟩ := s.pty.commitLine_eq
    have henter : ∀ e' : Editor, e'.type s.pty.term c =
        ⟨[], e'.lines ++ [e'.pending], e'.counted + 1, e'.sent ++ s.pty.term.echoed byteNl⟩ := by
      intro e'
      rw [type_some ht]
      exact if_pos rfl
    rw [henter] at hr
    rw [ht, henter e]
    refine ⟨hs.term.trans (hterm'.trans hterm), ?_, ?_, ?_, ?_⟩
    · rw [hs.line, hline']
    · have hfit : s.pty.inQ.length + (s.pty.line ++ [byteNl]).length ≤ room := by
        simpa [unlines, Editor.ofLine, hline] using hr.1
      show s.slaveGot ++ _ = _
      rw [hs.inQ, hq, push_fit hfit, ← List.append_assoc, h.input, hline]
      simp [unlines]
    · have hout : s.pty.ptyCommitLine.outQ = s.pty.outQ := congrArg PtyFifo.contents hmaster
      exact h.send (hs.outQ.trans (congrArg (push room · _) hout)) hr.2
    · simpa using hcounted
  -- the character comes at the end of the line
  | @typed d p' ht _ he hn hl hs =>
    have henter : ∀ e' : Editor, e'.pending = e.pending → e'.type s.pty.term c = { e' with
        pending := e'.pending ++ [d], counted := e'.counted + 1, sent := e'.sent ++ s.pty.term.echoed d } := by
      intro e' heq
      rw [type_some ht]
      unfold Editor.enter
      rw [if_neg hn, if_neg he, if_pos (by rw [heq, ← hline]; exact hl)]
    rw [henter (Editor.ofLine e.pending) rfl] at hr
    rw [ht, henter e rfl]
    refine ⟨hs.term.trans hterm, ?_, ?_, ?_, ?_⟩
    · rw [hs.line, hline]
    · show s.slaveGot ++ _ = _
      rw [hs.inQ]
      exact h.input
    · exact h.send hs.outQ hr.2
    · simpa using hcounted
  -- the line is full
  | refused ht _ he hn hl =>
    have henter : e.type s.pty.term c = e := by
      rw [type_some ht]
      unfold Editor.enter
      rw [if_neg hn, if_neg he, if_neg (by rw [← hline]; exact not_lt.2 hl)]
    rw [ht, henter]
    exact ⟨hterm, hline, h.input, h.output, by simpa using hcounted⟩

/-! ### Runs -/

/-- A write of the master, or a read. -/
def EditCall : PtyCall → Prop
  | .masterWrite _ | .masterRead _ | .slaveRead _ => True
  | _ => False

/-- The bytes that the calls write. -/
def typedBytes (calls : List PtyCall) : List UInt8 :=
  calls.flatMap fun
    | .masterWrite buffer => buffer
    | _ => []

/-- What a call of `pty_master_write` returns; a call without bytes is refused. -/
def returned (p : PtyState) : PtyCall → ℕ
  | .masterWrite buffer => (p.ptyMasterWrite buffer).1.getD 0
  | _ => 0

/-- The sum of the return values. -/
def returnedSum : PtyRun → List PtyCall → ℕ
  | _, [] => 0
  | s, c :: calls => returned s.pty c + returnedSum (s.exec c) calls

theorem exec_accepted (hc : EditCall call) (s : PtyRun) :
    (s.exec call).accepted.length = s.accepted.length + returned s.pty call := by
  cases call with
  | masterWrite buffer =>
    rw [exec_masterWrite, accepted_counted]
    show _ = s.accepted.length + (s.pty.ptyMasterWrite buffer).1.getD 0
    congr 1
    unfold ptyMasterWrite
    split_ifs with h
    · rw [h]
      rfl
    · rfl
  | masterRead size => rfl
  | slaveRead size => rfl
  | slaveWrite buffer => exact absurd hc id
  | ioctl request arg => exact absurd hc id

theorem foldl_accepted (hc : ∀ c ∈ calls, EditCall c) (s : PtyRun) :
    (calls.foldl exec s).accepted.length = s.accepted.length + returnedSum s calls := by
  induction calls generalizing s with
  | nil => rfl
  | cons c calls ih =>
    rw [List.foldl_cons, ih (fun d hd => hc d (List.mem_cons_of_mem c hd)), exec_accepted (hc c List.mem_cons_self)]
    exact Nat.add_assoc _ _ _

theorem bytes_edited {data : List UInt8} (h : Edited p s e) (hcanon : p.term.Canon) (hv : p.term.cc verase ≠ byteNl)
    (hr : EachByte EditRoom s.pty data) : Edited p (data.foldl byte s) (data.foldl (Editor.type p.term) e) := by
  induction data generalizing s e with
  | nil => exact h
  | cons c data ih =>
    obtain ⟨hc, hrest⟩ := hr
    rw [← byte_pty] at hrest
    exact ih (byte_edited h hcanon hv hc) hrest

/-- **A call** does what the reference does with its bytes. -/
theorem exec_edited (h : Edited p s e) (hcanon : p.term.Canon) (hv : p.term.cc verase ≠ byteNl) (hc : EditCall call)
    (hr : Bytes EditRoom s.pty call) : Edited p (s.exec call) ((typedBytes [call]).foldl (Editor.type p.term) e) := by
  cases call with
  | masterWrite buffer =>
    have hbytes : typedBytes [.masterWrite buffer] = buffer := List.append_nil buffer
    rw [exec_masterWrite, hbytes]
    exact bytes_edited h hcanon hv hr
  | masterRead size =>
    obtain ⟨f, got, hexec, hgot⟩ := exec_masterRead s size
    rw [hexec]
    refine ⟨h.term, h.line, h.input, ?_, h.counted⟩
    show s.masterGot ++ got ++ f.contents = _
    rw [List.append_assoc, hgot]
    exact h.output
  | slaveRead size =>
    obtain ⟨f, got, hexec, hgot⟩ := exec_slaveRead s size
    rw [hexec]
    refine ⟨h.term, h.line, ?_, h.output, h.counted⟩
    show s.slaveGot ++ got ++ f.contents = _
    rw [List.append_assoc, hgot]
    exact h.input
  | slaveWrite buffer => exact absurd hc id
  | ioctl request arg => exact absurd hc id

theorem calls_edited (h : Edited p s e) (hcanon : p.term.Canon) (hv : p.term.cc verase ≠ byteNl)
    (hc : ∀ c ∈ calls, EditCall c) (hr : AllMeet (Bytes EditRoom) s calls) :
    Edited p (calls.foldl exec s) ((typedBytes calls).foldl (Editor.type p.term) e) := by
  induction calls generalizing s e with
  | nil => exact h
  | cons c calls ih =>
    obtain ⟨hone, hrest⟩ := hr
    have hstep := exec_edited h hcanon hv (hc c List.mem_cons_self) hone
    have hbytes : typedBytes (c :: calls) = typedBytes [c] ++ typedBytes calls := by simp [typedBytes]
    rw [List.foldl_cons, hbytes, List.foldl_append]
    exact ih hstep (fun d hd => hc d (List.mem_cons_of_mem c hd)) hrest

/-- **Canonical editing.** With `ICANON` set and room for every byte, in whatever calls the bytes come: the slave gets
the lines of the reference editor, the line buffer holds its pending line, the return values sum up to the
characters it accepted, and the master gets what it sends back. -/
theorem pty_edits (hcanon : p.term.Canon) (hv : p.term.cc verase ≠ byteNl) (hc : ∀ c ∈ calls, EditCall c)
    (hr : AllMeet (Bytes EditRoom) (start p) calls) :
    let s := calls.foldl exec (start p)
    let e := (typedBytes calls).foldl (Editor.type p.term) (Editor.ofLine p.line)
    s.slaveGot ++ s.pty.inQ = p.inQ ++ unlines e.lines ∧ s.pty.line = e.pending ∧
      returnedSum (start p) calls = e.counted ∧ s.masterGot ++ s.pty.outQ = p.outQ ++ e.sent := by
  intro s e
  have h := calls_edited (.start p) hcanon hv hc hr
  have hsum := foldl_accepted hc (start p)
  refine ⟨h.input, h.line, ?_, h.output⟩
  rw [← h.counted, hsum]
  exact (Nat.zero_add _).symm

/-- `"ab"`, an erase character and a newline, in two calls. -/
theorem pty_edits_short :
    (([.masterWrite [0x61, 0x62, 127], .slaveRead 1, .masterWrite [byteNl]] : List PtyCall).foldl exec
    (start (ptyCreate 0))).pty.inQ = [0x61, byteNl] := by
  have hc : ∀ c ∈ ([.masterWrite [0x61, 0x62, 127], .slaveRead 1, .masterWrite [byteNl]] : List PtyCall),
    EditCall c := by
    simp [EditCall]
  have h := pty_edits (p := ptyCreate 0) (by decide) (by decide) hc
    ⟨⟨by decide +kernel, by decide +kernel, by decide +kernel, trivial⟩, trivial, ⟨by decide +kernel, trivial⟩,
      trivial⟩
  exact h.1

end PtyRun

end Saynaa
