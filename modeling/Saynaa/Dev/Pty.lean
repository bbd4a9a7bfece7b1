import Mathlib.Tactic

/-!
# Pseudo-terminals (`kernel/src/fs/dev/dev_pty.c`)

Two rings of `PTY_BUF_CAP` bytes, one of which stays free, and a line buffer, of which the model keeps the
`line_len` bytes in use. The devices and endpoints are left out: every call comes with a pty and a buffer.
`none` is a returned `-1`.
-/

namespace Saynaa

def ptyBufCap : ℕ := 4096
def ptyLineCap : ℕ := 4096

/-! ### Terminal settings (`libc/include/termios.h`) -/

def verase : Fin 32 := 2

def istrip : BitVec 32 := 0o40
def inlcr : BitVec 32 := 0o100
def igncr : BitVec 32 := 0o200
def icrnl : BitVec 32 := 0o400
def onlcr : BitVec 32 := 0o4
def ocrnl : BitVec 32 := 0o10
def onlret : BitVec 32 := 0o40
def isig : BitVec 32 := 0o1
def icanon : BitVec 32 := 0o2
def echo : BitVec 32 := 0o10

/-- `struct termios`, with the fields that the terminal looks at. -/
structure Termios where
  iflag : BitVec 32
  oflag : BitVec 32
  lflag : BitVec 32
  cc : Fin 32 → UInt8

/-- `struct winsize`. -/
structure Winsize where
  row : ℕ
  col : ℕ
  xpixel : ℕ
  ypixel : ℕ

/-- Some bit of `flag` is set. -/
def flagged (word flag : BitVec 32) : Prop := word &&& flag ≠ 0

instance (word flag : BitVec 32) : Decidable (flagged word flag) := inferInstanceAs (Decidable (_ ≠ _))

def byteNl : UInt8 := 0x0A
def byteCr : UInt8 := 0x0D
def byteBs : UInt8 := 0x08
def byteSpace : UInt8 := 0x20

/-! ### Rings -/

/-- `pty_fifo_t`. -/
structure PtyFifo where
  buf : ℕ → UInt8
  r : ℕ
  w : ℕ
  r_lt : r < ptyBufCap
  w_lt : w < ptyBufCap

namespace PtyFifo

def fifoCount (f : PtyFifo) : ℕ := if f.w ≥ f.r then f.w - f.r else ptyBufCap - f.r + f.w

def fifoFree (f : PtyFifo) : ℕ := ptyBufCap - f.fifoCount - 1

/-- The loop body of `fifo_write`. -/
def put (f : PtyFifo) (b : UInt8) : PtyFifo :=
  ⟨Function.update f.buf f.w b, f.r, (f.w + 1) % ptyBufCap, f.r_lt, Nat.mod_lt _ (by decide)⟩

/-- The loop body of `fifo_read`, which reads `buf r`. -/
def drop (f : PtyFifo) : PtyFifo := ⟨f.buf, (f.r + 1) % ptyBufCap, f.w, Nat.mod_lt _ (by decide), f.w_lt⟩

/-- `fifo_write`: the number of bytes written. -/
def fifoWrite (f : PtyFifo) : List UInt8 → ℕ × PtyFifo
  | [] => (0, f)
  | b :: data =>
    if 0 < f.fifoFree then
      let (n, f) := (f.put b).fifoWrite data
      (n + 1, f)
    else (0, f)

/-- `fifo_read` of up to `size` bytes. -/
def fifoRead (f : PtyFifo) : ℕ → List UInt8 × PtyFifo
  | 0 => ([], f)
  | size + 1 =>
    if 0 < f.fifoCount then
      let (bs, g) := f.drop.fifoRead size
      (f.buf f.r :: bs, g)
    else ([], f)

/-- A ring of zeros. -/
def zero : PtyFifo := ⟨fun _ => 0, 0, 0, by decide, by decide⟩

end PtyFifo

/-! ### The terminal -/

/-- `pty_state_t`. -/
structure PtyState where
  id : ℕ
  term : Termios
  winsz : Winsize
  masterRead : PtyFifo
  masterWrite : PtyFifo
  line : List UInt8
  fgPgid : BitVec 32

/-- `pty_default_termios`. -/
def ptyDefaultTermios : Termios where
  iflag := icrnl
  oflag := onlcr
  lflag := echo ||| icanon ||| isig
  cc i := if i = 6 then 1 else if i = 0 then 3 else if i = 10 then 26 else if i = 1 then 28 else if i =
    verase then 127 else 0

/-- `pty_default_winsize`. -/
def ptyDefaultWinsize : Winsize := ⟨25, 80, 0, 0⟩

/-- The state of a terminal that `pty_create` makes. -/
def ptyCreate (id : ℕ) : PtyState := ⟨id, ptyDefaultTermios, ptyDefaultWinsize, .zero, .zero, [], -1⟩

/-- `pty_translate_input`; `none` is `false`. -/
def Termios.translateInput (t : Termios) (ch : UInt8) : Option UInt8 :=
  let ch := if flagged t.iflag istrip then ch &&& 0x7F else ch
  if ch = byteCr then
    if flagged t.iflag igncr then none
    else if flagged t.iflag icrnl then some byteNl
    else some ch
  else if ch = byteNl then
    if flagged t.iflag inlcr then some byteCr else some ch
  else some ch

namespace PtyState

/-- `fifo_write` to the master. -/
def toMaster (p : PtyState) (data : List UInt8) : PtyState := { p with masterRead := (p.masterRead.fifoWrite data).2 }

/-- `fifo_write` to the slave. -/
def toSlave (p : PtyState) (data : List UInt8) : PtyState :=
  { p with masterWrite := (p.masterWrite.fifoWrite data).2 }

/-- `pty_write_output`. -/
def ptyWriteOutput (p : PtyState) : List UInt8 → PtyState
  | [] => p
  | c :: data =>
    let p :=
      if c = byteCr ∧ flagged p.term.oflag ocrnl then p.toMaster [byteNl]
      else if c = byteCr ∧ flagged p.term.oflag onlret then p
      else if c = byteNl ∧ flagged p.term.oflag onlcr then (p.toMaster [byteCr]).toMaster [c]
      else p.toMaster [c]
    p.ptyWriteOutput data

/-- `pty_echo_char`. -/
def ptyEchoChar (p : PtyState) (c : UInt8) : PtyState := if flagged p.term.lflag echo then p.ptyWriteOutput [c] else p

/-- `pty_echo_backspace`. -/
def ptyEchoBackspace (p : PtyState) : PtyState :=
  if flagged p.term.lflag echo then p.ptyWriteOutput [byteBs, byteSpace, byteBs] else p

/-- `pty_commit_line`. -/
def ptyCommitLine (p : PtyState) : PtyState :=
  if p.line = [] then p.toSlave [byteNl]
  else { (p.toSlave p.line).toSlave [byteNl] with line := [] }

/-- One pass of the loop of `pty_master_write_data`; the flag is `written++`. -/
def masterByte (p : PtyState) (c : UInt8) : Bool × PtyState :=
  match p.term.translateInput c with
  | none => (false, p)
  | some c =>
    if flagged p.term.lflag icanon then
      if c = p.term.cc verase ∨ c = byteBs then
        if p.line ≠ [] then (false, { p with line := p.line.dropLast }.ptyEchoBackspace) else (false, p)
      else if c = byteNl then (true, p.ptyCommitLine.ptyEchoChar c)
      else if p.line.length < ptyLineCap - 1 then (true, { p with line := p.line ++ [c] }.ptyEchoChar c)
      else (false, p)
    else (true, (p.toSlave [c]).ptyEchoChar c)

/-- `pty_master_write_data`. -/
def ptyMasterWriteData (p : PtyState) : List UInt8 → ℕ × PtyState
  | [] => (0, p)
  | c :: data =>
    let (counted, p) := p.masterByte c
    let (n, p) := p.ptyMasterWriteData data
    (n + counted.toNat, p)

def ptyMasterRead (p : PtyState) (size : ℕ) : Option (List UInt8) × PtyState :=
  if size = 0 then (none, p)
  else
    let (bs, f) := p.masterRead.fifoRead size
    (some bs, { p with masterRead := f })

def ptyMasterWrite (p : PtyState) (buffer : List UInt8) : Option ℕ × PtyState :=
  if buffer = [] then (none, p)
  else
    let (written, p) := p.ptyMasterWriteData buffer
    (some written, p)

def ptySlaveRead (p : PtyState) (size : ℕ) : Option (List UInt8) × PtyState :=
  if size = 0 then (none, p)
  else
    let (bs, f) := p.masterWrite.fifoRead size
    (some bs, { p with masterWrite := f })

def ptySlaveWrite (p : PtyState) (buffer : List UInt8) : Option ℕ × PtyState :=
  if buffer = [] then (none, p) else (some buffer.length, p.ptyWriteOutput buffer)

/-- What the argument of an `ioctl` points to, seen as each of the types that the requests use. -/
structure Arg where
  termios : Termios
  winsize : Winsize
  word : BitVec 32

/-- `pty_ioctl`: 0 or `-1`, the memory of the argument, and the terminal. -/
def ptyIoctl (p : PtyState) (request : ℕ) : Option Arg → Option ℕ × Option Arg × PtyState
  | none => if request = 0x40045431 then (some 0, none, p) else (none, none, p)
  | some arg =>
    match request with
    | 0x5401 => (some 0, some { arg with termios := p.term }, p)
    | 0x5402 | 0x5403 | 0x5404 => (some 0, some arg, { p with term := arg.termios })
    | 0x5413 => (some 0, some { arg with winsize := p.winsz }, p)
    | 0x5414 => (some 0, some arg, { p with winsz := arg.winsize })
    | 0x540F => (some 0, some { arg with word := p.fgPgid }, p)
    | 0x5410 => (some 0, some arg, { p with fgPgid := arg.word })
    | 0x80045430 => (some 0, some { arg with word := BitVec.ofNat 32 p.id }, p)
    | 0x40045431 => (some 0, some arg, p)
    | _ => (none, some arg, p)

end PtyState

end Saynaa
