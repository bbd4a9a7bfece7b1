import Saynaa.Proof.Files
import Saynaa.Proof.PtyEdit
import Saynaa.User.Shell

/-!
# What is typed is what the shell reads

* `shellLine`: what `shell_read_line` makes of a line of the terminal.
* `masterData_enters`: what bytes from the terminal do to the line and to the queue of the slave.
* `SessionOK`: the invariant of a shell and its terminal.
* `typed_lines_returned`: the lines that are returned are the ones that were typed.
-/

namespace Saynaa

open Lib PtyState PtyRun

variable {t : Termios} {p p' : PtyState} {e e' : Editor} {c : UInt8} {data part r a b : List UInt8}
  {as bs raw got : List (List UInt8)}
  {d : Drivers PtyState} {f f' : FileState PtyState} {s s' : Session} {i j : Fin procMaxFd} {o n size : ℕ}

/-! ### Lines -/

/-- One character of a line. -/
def shellEdit (line : List UInt8) (c : UInt8) : List UInt8 :=
  if c = byteBs ∨ c = 127 then line.dropLast
  else if byteSpace ≤ c ∧ c < 127 ∧ line.length + 1 < shellMaxLine then line ++ [c]
  else line

/-- **What the shell makes of a line**: the printable characters, as many as there is room for. -/
def shellLine (line : List UInt8) : List UInt8 := line.foldl shellEdit []

theorem cut_unique {x y : List UInt8} (ha : byteNl ∉ a) (hb : byteNl ∉ b)
    (h : a ++ byteNl :: x = b ++ byteNl :: y) : a = b ∧ x = y := by
  rcases List.append_eq_append_iff.1 h with ⟨l, rfl, hl⟩ | ⟨l, rfl, hl⟩
  · cases l with
    | nil => exact ⟨(List.append_nil a).symm, (List.cons_injective hl)⟩
    | cons c l => exact absurd (by rw [(List.cons.inj hl).1]; simp) hb
  · cases l with
    | nil => exact ⟨List.append_nil b, (List.cons_injective hl).symm⟩
    | cons c l => exact absurd (by rw [(List.cons.inj hl).1]; simp) ha

/-- Lines determine where they end. -/
theorem unlines_prefix (ha : ∀ l ∈ as, byteNl ∉ l) (hb : ∀ l ∈ bs, byteNl ∉ l)
    (h : unlines as ++ r = unlines bs) : as <+: bs := by
  induction as generalizing bs with
  | nil => exact List.nil_prefix
  | cons a as ih =>
    cases bs with
    | nil => simp [unlines] at h
    | cons b bs =>
      -- both begin with a line, and a line ends at its first newline
      have hcons : a ++ byteNl :: (unlines as ++ r) = b ++ byteNl :: unlines bs := by simpa [unlines] using h
      obtain ⟨rfl, hrest⟩ := cut_unique (ha a List.mem_cons_self) (hb b List.mem_cons_self) hcons
      refine (List.prefix_cons_inj a).2 (ih ?_ ?_ hrest)
      · exact fun l hl => ha l (List.mem_cons_of_mem a hl)
      · exact fun l hl => hb l (List.mem_cons_of_mem a hl)

/-- Nothing is left of a list of lines but lines. -/
theorem unlines_all (ha : ∀ l ∈ as, byteNl ∉ l) (hb : ∀ l ∈ bs, byteNl ∉ l) (hp : byteNl ∉ part)
    (h : unlines as ++ part = unlines bs) : as = bs := by
  obtain ⟨cs, rfl⟩ := unlines_prefix ha hb h
  have hpart : part = unlines cs := by simpa [unlines] using h
  cases cs with
  | nil => exact (List.append_nil as).symm
  | cons b cs =>
    refine absurd ?_ hp
    rw [hpart]
    simp [unlines]

namespace Editor

/-- No newline is in a line. -/
def Clean (e : Editor) : Prop := byteNl ∉ e.pending ∧ ∀ l ∈ e.lines, byteNl ∉ l

theorem type_clean (h : e.Clean) (c : UInt8) : (e.type t c).Clean := by
  unfold Editor.type
  cases translated t c with
  | none => exact h
  | some b =>
    show (e.enter t b).Clean
    unfold enter
    by_cases hn : b = byteNl
    · rw [if_pos hn]
      refine ⟨List.not_mem_nil, fun l hl => ?_⟩
      rcases List.mem_append.1 hl with hl | hl
      · exact h.2 l hl
      · rw [List.mem_singleton.1 hl]
        exact h.1
    rw [if_neg hn]
    split_ifs
    · exact h
    · exact ⟨fun hm => h.1 (List.mem_of_mem_dropLast hm), h.2⟩
    · refine ⟨fun hm => ?_, h.2⟩
      rcases List.mem_append.1 hm with hm | hm
      · exact h.1 hm
      · exact hn (List.mem_singleton.1 hm).symm
    · exact h

theorem types_clean (h : e.Clean) (data : List UInt8) : (data.foldl (Editor.type t) e).Clean := by
  induction data generalizing e with
  | nil => exact h
  | cons c data ih => exact ih (type_clean h c)

end Editor

/-! ### The terminal -/

/-- There is room for the line that a byte ends. -/
def LineRoom (p : PtyState) (c : UInt8) : Prop :=
  p.term.translateInput c = some byteNl → p.inQ.length + p.line.length + 1 ≤ room

/-- **What is typed** goes to the line and to the queue, as the reference editor says. -/
structure Enters (p p' : PtyState) (e e' : Editor) : Prop where
  term : p'.term = p.term
  line : p'.line = e'.pending
  queue : ∃ ls, e'.lines = e.lines ++ ls ∧ p'.inQ = p.inQ ++ unlines ls

theorem Enters.quiet (hterm : p'.term = p.term) (hline : p'.line = e'.pending) (hl : e'.lines = e.lines)
    (hq : p'.inQ = p.inQ) : Enters p p' e e' :=
  ⟨hterm, hline, [], hl.trans (List.append_nil _).symm, hq.trans (List.append_nil _).symm⟩

theorem masterByte_enters (hline : p.line = e.pending) (hcanon : p.term.Canon) (hv : p.term.cc verase ≠ byteNl)
    (hr : LineRoom p c) : Enters p (p.masterByte c).2 e (e.type p.term c) := by
  obtain ⟨sent, hd⟩ := p.masterByte_done c
  generalize p.masterByte c = y at hd ⊢
  cases hd with
  | ignored ht =>
    rw [type_none ht]
    exact .quiet rfl hline rfl rfl
  -- there are no lines in raw mode
  | raw _ hm => exact absurd hcanon hm
  | erase ht _ he hl hs =>
    rw [type_some ht]
    unfold Editor.enter
    rw [if_neg (erases_ne_newline he hv), if_pos he, if_neg (hline ▸ hl)]
    refine .quiet hs.term ?_ rfl hs.inQ
    rw [hs.line, hline]
  | nothing ht _ he hl =>
    rw [type_some ht]
    unfold Editor.enter
    rw [if_neg (erases_ne_newline he hv), if_pos he, if_pos (hline ▸ hl)]
    exact .quiet rfl hline rfl rfl
  | newline ht _ _ hs =>
    obtain ⟨hterm, hempty, -, hq⟩ := p.commitLine_eq
    rw [type_some ht]
    unfold Editor.enter
    rw [if_pos rfl]
    refine ⟨hs.term.trans hterm, hs.line.trans hempty, [e.pending], rfl, ?_⟩
    -- the queue drops what does not fit; here all of the line fits
    have hfit : p.inQ.length + (p.line ++ [byteNl]).length ≤ room := by
      have hroom := hr ht
      rw [List.length_append, List.length_singleton]
      omega
    rw [hs.inQ, hq, push_fit hfit, hline]
    simp [unlines]
  | typed ht _ he hn hl hs =>
    rw [type_some ht]
    unfold Editor.enter
    rw [if_neg hn, if_neg he, if_pos (by rw [← hline]; exact hl)]
    refine .quiet hs.term ?_ rfl hs.inQ
    rw [hs.line, hline]
  | refused ht _ he hn hl =>
    rw [type_some ht]
    unfold Editor.enter
    rw [if_neg hn, if_neg he, if_neg (by rw [← hline]; exact not_lt.2 hl)]
    exact .quiet rfl hline rfl rfl

theorem masterData_enters (hline : p.line = e.pending) (hcanon : p.term.Canon) (hv : p.term.cc verase ≠ byteNl)
    (hr : EachByte LineRoom p data) :
    Enters p (p.ptyMasterWriteData data).2 e (data.foldl (Editor.type p.term) e) := by
  induction data generalizing p e with
  | nil => exact .quiet rfl hline rfl rfl
  | cons c data ih =>
    obtain ⟨hc, hrest⟩ := hr
    obtain ⟨hterm, hline', ls, hls, hq⟩ := masterByte_enters hline hcanon hv hc
    rw [← hterm] at hcanon hv
    obtain ⟨hterm₂, hline₂, ls₂, hls₂, hq₂⟩ := ih hline' hcanon hv hrest
    rw [hterm] at hterm₂ hline₂ hls₂
    refine ⟨hterm₂, hline₂, ls ++ ls₂, ?_, ?_⟩
    · rw [List.foldl_cons, hls₂, hls, List.append_assoc]
    · show ((p.masterByte c).2.ptyMasterWriteData data).2.inQ = _
      rw [hq₂, hq, List.append_assoc]
      simp [unlines]

theorem masterWrite_snd (p : PtyState) (data : List UInt8) :
    (p.ptyMasterWrite data).2 = (p.ptyMasterWriteData data).2 := by
  unfold ptyMasterWrite
  split_ifs with h
  · rw [h]
    rfl
  · rfl

/-! ### The descriptors -/

theorem second_lt : 1 < procMaxFd := by decide

/-- A descriptor that was opened on the slave side. -/
def OnSlave (f : FileState PtyState) (i : Fin procMaxFd) : Prop := ∃ o, f.fds i = openAt slaveNode oRdwr o

theorem advance_onSlave (h : OnSlave f j) (w : PtyState) (i : Fin procMaxFd) (x : ℤ) :
    OnSlave ({ f with world := w }.advance i x) j := by
  unfold FileState.advance
  split_ifs
  swap
  · exact h
  by_cases hij : j = i
  · subst hij
    obtain ⟨o, ho⟩ := h
    refine ⟨add32 o x.toNat, ?_⟩
    show Function.update f.fds j _ j = _
    rw [Function.update_self, ho]
    rfl
  · obtain ⟨o, ho⟩ := h
    exact ⟨o, (Function.update_of_ne hij ..).trans ho⟩

theorem advance_world (f : FileState PtyState) (i : Fin procMaxFd) (x : ℤ) : (f.advance i x).world = f.world := by
  unfold FileState.advance
  split_ifs <;> rfl

theorem slaveRead_some (h0 : size ≠ 0) (p : PtyState) : (p.ptySlaveRead size).1 = some (p.inQ.take size) := by
  unfold ptySlaveRead
  rw [if_neg h0]
  exact congrArg some (p.masterWrite.fifoRead_contents size).1

/-- **A read** gets what is at the front of the queue. -/
theorem read_slave (h : OnSlave f i) (h0 : size ≠ 0) (buffer : ℕ → UInt8) : f.syscallRead d i.val buffer size =
    some (((f.world.inQ.take size).length : ℤ), copyIn buffer 0 (f.world.inQ.take size),
      { f with world := (f.world.ptySlaveRead size).2 }.advance i (f.world.inQ.take size).length) := by
  obtain ⟨o, ho⟩ := h
  have hused : (f.fds i).used = true := by rw [ho]; rfl
  have hnode : (f.fds i).node = some slaveNode := by rw [ho]; rfl
  have hflag : flagged (f.fds i).flags oRdonly := by rw [ho]; exact (by decide : flagged oRdwr oRdonly)
  have hread : slaveNode.vfsRead (f.fds i).offset size buffer f.world =
      some (((f.world.inQ.take size).length : ℤ), copyIn buffer 0 (f.world.inQ.take size),
        (f.world.ptySlaveRead size).2) := by
    have hgot := slaveRead_some h0 f.world
    unfold VfsNode.vfsRead slaveNode
    simp only [hgot, Option.elim_some]
  unfold FileState.syscallRead
  rw [if_neg h0, fdFromIndex_used hused]
  simp only
  rw [hnode]
  simp only
  rw [if_neg (not_not.2 hflag), hread, Option.bind_some]
  exact if_neg (by omega)

/-- **A write** goes to the terminal, or into the captured output. -/
theorem write_slave {x : ℤ} (h : OnSlave f i) (hj : OnSlave f j) (hw : f.syscallWrite d i.val data = some (x, f')) :
    OnSlave f' j ∧ (f'.world = f.world ∨ f'.world = f.world.ptyWriteOutput data) := by
  obtain ⟨o, ho⟩ := h
  have hused : (f.fds i).used = true := by rw [ho]; rfl
  have hnode : (f.fds i).node = some slaveNode := by rw [ho]; rfl
  have hflag : flagged (f.fds i).flags oWronly := by rw [ho]; exact (by decide : flagged oRdwr oWronly)
  unfold FileState.syscallWrite at hw
  by_cases h0 : data = [] ∨ (i.val : ℤ) < 0
  · -- nothing is written
    rw [if_pos h0] at hw
    cases hw
    exact ⟨hj, .inl rfl⟩
  rw [if_neg h0] at hw
  cases hout : (if (i.val : ℤ) = 1 then f.stdout else none) with
  -- the output is captured, and not the terminal's
  | some out =>
    rw [hout] at hw
    cases hw
    exact ⟨hj, .inl rfl⟩
  | none =>
    rw [hout] at hw
    simp only at hw
    rw [fdFromIndex_used hused] at hw
    simp only at hw
    rw [hnode] at hw
    simp only at hw
    have hdata : data ≠ [] := fun heq => h0 (.inl heq)
    have hwrite : slaveNode.vfsWrite (f.fds i).offset data f.world =
      some ((data.length : ℤ), f.world.ptyWriteOutput data) := by
      unfold VfsNode.vfsWrite slaveNode ptySlaveWrite
      simp only [if_neg hdata, Option.elim_some]
    rw [if_neg (not_not.2 hflag), hwrite, Option.bind_some] at hw
    simp only at hw
    rw [if_neg (by omega)] at hw
    cases hw
    refine ⟨advance_onSlave hj _ i _, .inr ?_⟩
    rw [advance_world]

/-! ### `shell_read_line` -/

namespace ReadLine

/-- The line in the buffer. -/
def line : ReadLine → List UInt8
  | .reading _ l | .sleeping _ l | .echoing _ l | .erasing l => l
  | _ => []

/-- The line that is to be returned. -/
def ended : ReadLine → List (List UInt8)
  | .newline l | .done l => [l]
  | _ => []

theorem feed_newline (echo : Bool) (l : List UInt8) :
    (feed echo l byteNl).line = [] ∧ (feed echo l byteNl).ended = [l] := by
  unfold feed
  rw [if_pos rfl]
  cases echo <;> exact ⟨rfl, rfl⟩

theorem feed_char (h : c ≠ byteNl) (echo : Bool) (l : List UInt8) :
    (feed echo l c).line = shellEdit l c ∧ (feed echo l c).ended = [] := by
  unfold feed shellEdit
  rw [if_neg h]
  by_cases herase : c = byteBs ∨ c = 127
  · rw [if_pos herase, if_pos herase]
    by_cases hl : l = []
    · rw [if_pos hl, hl]
      exact ⟨rfl, rfl⟩
    · rw [if_neg hl]
      cases echo <;> exact ⟨rfl, rfl⟩
  rw [if_neg herase, if_neg herase]
  split_ifs
  · exact ⟨rfl, rfl⟩
  · exact ⟨rfl, rfl⟩
  · exact ⟨rfl, rfl⟩

/-- The other calls do not change the line. -/
theorem after_other {b : ReadLine} {x : LineCall} (hn : b.next = some x) (hx : x ≠ .read) (a : LineAnswer) :
    (b.after a).line = b.line ∧ (b.after a).ended = b.ended := by
  cases b with
  | reading echo l => exact absurd (Option.some.inj hn).symm hx
  | done l => cases hn
  | _ => exact ⟨rfl, rfl⟩

end ReadLine

/-! ### Runs -/

/-- A shell, with its descriptors and the terminal, between two lines or in `shell_read_line`. -/
structure Session where
  files : FileState PtyState
  shell : ReadLine

/-- What happens: bytes from the terminal, a line that is returned, and everything else. -/
inductive SessionEvent where
  | typed (data : List UInt8)
  | returned (line : List UInt8)
  | other

/-- The session with the terminal in state `p`. -/
def Session.withPty (s : Session) (p : PtyState) : Session := { s with files := { s.files with world := p } }

/-- **A step**: the terminal writes bytes for whose lines there is room or reads, a child of the shell writes, or
the shell goes on. Calls that neither read nor write may return anything. -/
inductive SessionStep (d : Drivers PtyState) : Session → SessionEvent → Session → Prop
  | typed {s : Session} {data : List UInt8} : EachByte LineRoom s.files.world data →
    SessionStep d s (.typed data) (s.withPty (s.files.world.ptyMasterWrite data).2)
  | screen (s : Session) (size : ℕ) : SessionStep d s .other (s.withPty (s.files.world.ptyMasterRead size).2)
  | output (s : Session) (data : List UInt8) : SessionStep d s .other (s.withPty (s.files.world.ptySlaveWrite data).2)
  | file {s : Session} {x : LineCall} {y : FileCall} {a : FileAnswer} {f : FileState PtyState} :
      s.shell.next = some x →
    x.file = some y → y.exec d s.files = some (a, f) → SessionStep d s .other ⟨f, s.shell.after a.toLineAnswer⟩
  | free {s : Session} {x : LineCall} (a : LineAnswer) : s.shell.next = some x → x.file = none →
    SessionStep d s .other { s with shell := s.shell.after a }
  | returned {s : Session} {line : List UInt8} : s.shell = .done line →
    SessionStep d s (.returned line) { s with shell := .settings }

/-- What the terminal wrote. -/
def typedOf (es : List SessionEvent) : List UInt8 := es.flatMap fun
  | .typed data => data
  | _ => []

/-- The lines that the shell got. -/
def returnedOf (es : List SessionEvent) : List (List UInt8) := es.filterMap fun
  | .returned line => some line
  | _ => none

theorem typedOf_snoc (es : List SessionEvent) (v : SessionEvent) :
    typedOf (es ++ [v]) = typedOf es ++ typedOf [v] := List.flatMap_append

theorem typedOf_typed (data : List UInt8) : typedOf [.typed data] = data := List.append_nil data

theorem returnedOf_typed (data : List UInt8) : returnedOf [.typed data] = [] := rfl

theorem returnedOf_other : returnedOf [.other] = [] := rfl

theorem returnedOf_snoc (es : List SessionEvent) (v : SessionEvent) :
    returnedOf (es ++ [v]) = returnedOf es ++ returnedOf [v] :=
  List.filterMap_append

/-- What was read and what is queued are the finished lines. The shell has returned those that it
has read to the end. -/
def ReadSoFar (q : List UInt8) (b : ReadLine) (got : List (List UInt8)) (e : Editor) : Prop :=
  ∃ raw part, (∀ l ∈ raw, byteNl ∉ l) ∧ byteNl ∉ part ∧ unlines raw ++ part ++ q = unlines e.lines ∧
    b.line = part.foldl shellEdit [] ∧ got ++ b.ended = raw.map shellLine

/-- **The invariant.** -/
structure SessionOK (t : Termios) (s : Session) (got : List (List UInt8)) (e : Editor) : Prop where
  input : OnSlave s.files ⟨0, first_lt⟩
  output : OnSlave s.files ⟨1, second_lt⟩
  term : s.files.world.term = t
  line : s.files.world.line = e.pending
  clean : e.Clean
  read : ReadSoFar s.files.world.inQ s.shell got e

/-- Calls that do not change the input. -/
theorem SessionOK.quiet (h : SessionOK t s got e) (hin : OnSlave s'.files ⟨0, first_lt⟩)
    (hout : OnSlave s'.files ⟨1, second_lt⟩)
    (hterm : s'.files.world.term = s.files.world.term) (hline : s'.files.world.line = s.files.world.line)
    (hq : s'.files.world.inQ = s.files.world.inQ) (hb : s'.shell.line = s.shell.line)
    (hended : s'.shell.ended = s.shell.ended) : SessionOK t s' got e := by
  refine ⟨hin, hout, hterm.trans h.term, hline.trans h.line, h.clean, ?_⟩
  obtain ⟨raw, part, hraw, hpart, hqueue, hl, hgot⟩ := h.read
  refine ⟨raw, part, hraw, hpart, ?_, hb.trans hl, ?_⟩
  · rw [hq]
    exact hqueue
  · rw [hended]
    exact hgot

theorem SessionOK.typed (h : SessionOK t s got e) (hcanon : t.Canon) (hv : t.cc verase ≠ byteNl)
    (hr : EachByte LineRoom s.files.world data) :
    SessionOK t (s.withPty (s.files.world.ptyMasterWrite data).2) got (data.foldl (Editor.type t) e) := by
  have hterm := h.term
  subst hterm
  obtain ⟨hterm, hline, ls, hls, hq⟩ := masterData_enters h.line hcanon hv hr
  rw [← masterWrite_snd] at hterm hline hq
  refine ⟨h.input, h.output, hterm, hline, Editor.types_clean h.clean data, ?_⟩
  obtain ⟨raw, part, hraw, hpart, hqueue, hl, hgot⟩ := h.read
  refine ⟨raw, part, hraw, hpart, ?_, hl, hgot⟩
  show unlines raw ++ part ++ (s.files.world.ptyMasterWrite data).2.inQ = _
  rw [hq, hls, ← List.append_assoc, hqueue]
  simp [unlines]

/-- **A character** from the queue. -/
theorem SessionOK.read_step (h : SessionOK t s got e) {echo : Bool} {l : List UInt8}
    (hb : s.shell = .reading echo l) {a : FileAnswer}
    (he : FileCall.exec d s.files (.read 0 (some fun _ => 0) 1) = some (a, f')) :
    SessionOK t ⟨f', s.shell.after a.toLineAnswer⟩ got e := by
  have hread := read_slave (d := d) h.input one_ne_zero fun _ => 0
  obtain ⟨y, hy, heq⟩ := Option.map_eq_some_iff.1 he
  obtain rfl := Option.some.inj (hread.symm.trans hy)
  cases heq
  obtain ⟨g, hp, hg⟩ := s.files.world.slaveRead_ok 1
  rw [slaveRead_some one_ne_zero, Option.getD_some] at hg
  obtain ⟨raw, part, hraw, hpart, hqueue, hl, hgot⟩ := h.read
  rw [hb] at hl hgot
  refine ⟨advance_onSlave h.input _ _ _, advance_onSlave h.output _ _ _, ?_, ?_, h.clean, ?_⟩
  · rw [advance_world, hp]
    exact h.term
  · rw [advance_world, hp]
    exact h.line
  rw [advance_world, hp, hb]
  show ReadSoFar g.contents _ got e
  cases hq : s.files.world.inQ with
  | nil =>
    -- the answer is 0, and the shell sleeps
    rw [hq] at hg hqueue
    have hnil : g.contents = [] := hg
    rw [hnil]
    exact ⟨raw, part, hraw, hpart, hqueue, hl, hgot⟩
  | cons c rest =>
    rw [hq] at hg hqueue
    have hrest : g.contents = rest := List.cons_injective hg
    rw [hrest]
    show ReadSoFar rest (ReadLine.feed echo l c) got e
    by_cases hc : c = byteNl
    · -- the line ends: what was read of it is one more finished line
      subst hc
      obtain ⟨hline, hended⟩ := ReadLine.feed_newline echo l
      refine ⟨raw ++ [part], [], ?_, List.not_mem_nil, ?_, hline, ?_⟩
      · intro x hx
        rcases List.mem_append.1 hx with hx | hx
        · exact hraw x hx
        · rw [List.mem_singleton.1 hx]
          exact hpart
      · rw [← hqueue]
        simp [unlines]
      · have hshell : l = shellLine part := hl
        have hnone : got = raw.map shellLine := (List.append_nil got).symm.trans hgot
        rw [hended, hshell, hnone, List.map_append]
        rfl
    · -- one more character of the line that is being read
      obtain ⟨hline, hended⟩ := ReadLine.feed_char hc echo l
      refine ⟨raw, part ++ [c], hraw, ?_, ?_, ?_, ?_⟩
      · intro hm
        rcases List.mem_append.1 hm with hm | hm
        · exact hpart hm
        · exact hc (List.mem_singleton.1 hm).symm
      · rw [← hqueue]
        simp
      · have hshell : l = part.foldl shellEdit [] := hl
        rw [hline, List.foldl_append, ← hshell]
        rfl
      · rw [hended]
        exact hgot

/-- What the shell prints is not input. -/
theorem SessionOK.write_step (h : SessionOK t s got e) {b' : ReadLine} {y : FileAnswer}
    (he : FileCall.exec d s.files (.write 1 (some data)) = some (y, f'))
    (hb : b'.line = s.shell.line) (hended : b'.ended = s.shell.ended) : SessionOK t ⟨f', b'⟩ got e := by
  obtain ⟨⟨z, g⟩, hw, heq⟩ := Option.map_eq_some_iff.1 he
  cases heq
  obtain ⟨hin, hworld⟩ := write_slave (i := ⟨1, second_lt⟩) h.output h.input hw
  obtain ⟨hout, -⟩ := write_slave (i := ⟨1, second_lt⟩) h.output h.output hw
  rcases hworld with hsame | hwrite
  · -- nothing to write, or the output is captured
    refine h.quiet hin hout ?_ ?_ ?_ hb hended
    · show f'.world.term = _
      rw [hsame]
    · show f'.world.line = _
      rw [hsame]
    · show f'.world.inQ = _
      rw [hsame]
  · have hsends := s.files.world.writeOutput_sends data
    rw [← hwrite] at hsends
    exact h.quiet hin hout hsends.term hsends.line hsends.inQ hb hended

/-- **A step keeps the invariant.** -/
theorem SessionOK.step {es : List SessionEvent} {v : SessionEvent} {e₀ : Editor} (hcanon : t.Canon)
    (hv : t.cc verase ≠ byteNl)
    (h : SessionOK t s (returnedOf es) ((typedOf es).foldl (Editor.type t) e₀)) (hs : SessionStep d s v s') :
    SessionOK t s' (returnedOf (es ++ [v])) ((typedOf (es ++ [v])).foldl (Editor.type t) e₀) := by
  rw [typedOf_snoc, List.foldl_append, returnedOf_snoc]
  cases hs with
  | @typed data hr =>
    rw [typedOf_typed, returnedOf_typed, List.append_nil]
    exact h.typed hcanon hv hr
  | screen size =>
    obtain ⟨g, hp, -⟩ := s.files.world.masterRead_ok size
    rw [returnedOf_other, List.append_nil]
    refine h.quiet h.input h.output ?_ ?_ ?_ rfl rfl
    · show (s.files.world.ptyMasterRead size).2.term = _
      rw [hp]
    · show (s.files.world.ptyMasterRead size).2.line = _
      rw [hp]
    · show (s.files.world.ptyMasterRead size).2.inQ = _
      rw [hp]
      rfl
  | output data =>
    have hsends := s.files.world.writeOutput_sends data
    rw [← (s.files.world.slaveWrite_eq data).2] at hsends
    rw [returnedOf_other, List.append_nil]
    exact h.quiet h.input h.output hsends.term hsends.line hsends.inQ rfl rfl
  | @file x y a f hn hx he =>
    rw [returnedOf_other, List.append_nil]
    cases x with
    | read =>
      cases hx
      cases hb : s.shell with
      | reading echo l => exact hb ▸ h.read_step hb he
      | _ =>
        rw [hb] at hn
        cases hn
    | write data =>
      cases hx
      obtain ⟨hline, hended⟩ := ReadLine.after_other hn (fun heq => by cases heq) a.toLineAnswer
      exact h.write_step he hline hended
    | _ => cases hx
  | @free x a hn hx =>
    have hread : x ≠ .read := by
      rintro rfl
      cases hx
    obtain ⟨hline, hended⟩ := ReadLine.after_other hn hread a
    rw [returnedOf_other, List.append_nil]
    exact h.quiet h.input h.output rfl rfl rfl hline hended
  | @returned l hb =>
    -- the line moves from the shell to what was returned
    obtain ⟨raw, part, hraw, hpart, hqueue, hl, hgot⟩ := h.read
    rw [hb] at hl hgot
    exact ⟨h.input, h.output, h.term, h.line, h.clean, raw, part, hraw, hpart, hqueue, hl,
      (List.append_nil _).trans hgot⟩

/-- **What is typed is what the shell reads.** However the terminal's writes, the shell's calls and the output of
its children are interleaved, the lines that `shell_read_line` returns are the first ones of those that were typed
and edited, and all of them once the queue is empty. -/
theorem typed_lines_returned {es : List SessionEvent} (hrun : Steps (SessionStep d) s es s')
    (hshell : s.shell = .settings)
    (hin : OnSlave s.files ⟨0, first_lt⟩) (hout : OnSlave s.files ⟨1, second_lt⟩) (hfresh : Fresh s.files.world)
    (hv : s.files.world.term.cc verase ≠ byteNl) :
    let e := (typedOf es).foldl (Editor.type s.files.world.term) (Editor.ofLine [])
    ∃ k ≤ e.lines.length, returnedOf es ++ s'.shell.ended = (e.lines.take k).map shellLine ∧
      (s'.files.world.inQ = [] → k = e.lines.length) := by
  intro e
  have hstart : SessionOK s.files.world.term s [] (Editor.ofLine []) := by
    refine ⟨hin, hout, rfl, hfresh.line, ⟨List.not_mem_nil, fun l hl => absurd hl List.not_mem_nil⟩, [], [], ?_⟩
    refine ⟨fun l hl => absurd hl List.not_mem_nil, List.not_mem_nil, hfresh.inQ, ?_, ?_⟩
    · rw [hshell]
      rfl
    · rw [hshell]
      rfl
  have h : SessionOK s.files.world.term s' (returnedOf es) e :=
    hrun.inv (I := fun u es => SessionOK s.files.world.term u (returnedOf es)
      ((typedOf es).foldl (Editor.type s.files.world.term) (Editor.ofLine [])))
      hstart fun _ _ _ _ hu hs => hu.step hfresh.canon hv hs
  obtain ⟨raw, part, hraw, hpart, hqueue, -, hgot⟩ := h.read
  obtain ⟨rest, hlines⟩ := unlines_prefix hraw h.clean.2 ((List.append_assoc ..).symm.trans hqueue)
  refine ⟨raw.length, ?_, ?_, fun hq => ?_⟩
  · rw [← hlines, List.length_append]
    exact Nat.le_add_right _ _
  · rw [hgot, ← hlines, List.take_left]
  · rw [hq, List.append_nil] at hqueue
    rw [unlines_all hraw h.clean.2 hpart hqueue]

/-- Drivers that nothing is looked up in. -/
def noDrivers : Drivers PtyState where
  vfsLookup _ w := some (none, w)
  ptyOpenMaster w := some (none, w)
  ttydevReadActive _ _ buffer w := some (0, buffer, w)
  ttydevWriteActive _ data w := some (data.length, w)

/-- A shell on a new terminal. -/
def newSession : Session :=
  ⟨⟨fun i => if i.val ≤ 2 then openAt slaveNode oRdwr 0 else .zero, none, ptyCreate 0⟩, .settings⟩

/-- `"a"` and a newline, which the shell reads one by one. -/
theorem typed_lines_returned_short : ∃ s', Steps (SessionStep noDrivers) newSession
      [.typed [0x61, byteNl], .other, .other, .other, .returned [0x61]] s' ∧
    ∃ k ≤ 1, [[0x61]] ++ s'.shell.ended = ([[0x61]].take k).map shellLine ∧ (s'.files.world.inQ = [] → k = 1) := by
  have hroom : EachByte LineRoom newSession.files.world [0x61, byteNl] :=
    ⟨fun h => absurd h (by decide), fun _ => by decide +kernel, trivial⟩
  have hrun := (((((Steps.nil newSession).snoc (SessionStep.typed (d := noDrivers) hroom)).snoc
    (SessionStep.free (d := noDrivers) (x := .tcgets) ⟨0, 0, echo⟩ rfl rfl)).snoc
    (SessionStep.file (d := noDrivers) (x := .read) rfl rfl rfl)).snoc
    (SessionStep.file (d := noDrivers) (x := .read) rfl rfl rfl)).snoc (SessionStep.returned (d := noDrivers) rfl)
  obtain ⟨k, hk, hlines, hall⟩ := typed_lines_returned hrun rfl ⟨0, rfl⟩ ⟨0, rfl⟩ (ptyCreate_fresh 0) (by decide)
  exact ⟨_, hrun, k, hk, hlines, hall⟩

end Saynaa
