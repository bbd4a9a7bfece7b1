import Saynaa.Sys.Files

/-!
# Lines of the shell (`userspace/src/shell.c`)

`shell_read_line` as a program that makes system calls, and the pseudo-terminal that its descriptors lead to.
-/

namespace Saynaa

open Lib

/-- `SHELL_MAX_LINE`. -/
def shellMaxLine : ℕ := 256

/-- The system calls of `shell_read_line`. -/
inductive LineCall where
  | tcgets
  | read
  | sleep
  | putchar (c : UInt8)
  | write (data : List UInt8)

/-- What a call returns, the byte that it reads, and the `c_lflag` that it stores. -/
structure LineAnswer where
  eax : ℤ
  byte : UInt8
  lflag : BitVec 32

/-- Where `shell_read_line` is; `line` is what it has in its buffer. -/
inductive ReadLine where
  | settings
  | reading (echo : Bool) (line : List UInt8)
  | sleeping (echo : Bool) (line : List UInt8)
  | echoing (c : UInt8) (line : List UInt8)
  | erasing (line : List UInt8)
  | newline (line : List UInt8)
  | done (line : List UInt8)

namespace ReadLine

/-- The branches for a character; without `ECHO` the shell prints it. -/
def feed (echo : Bool) (line : List UInt8) (c : UInt8) : ReadLine :=
  if c = byteNl then if echo then .done line else .newline line
  else if c = byteBs ∨ c = 127 then
    if line = [] then .reading echo line
    else if echo then .reading echo line.dropLast
    else .erasing line.dropLast
  else if byteSpace ≤ c ∧ c < 127 ∧ line.length + 1 < shellMaxLine then
    if echo then .reading echo (line ++ [c]) else .echoing c (line ++ [c])
  else .reading echo line

def next : ReadLine → Option LineCall
  | .settings => some .tcgets
  | .reading _ _ => some .read
  | .sleeping _ _ => some .sleep
  | .echoing c _ => some (.putchar c)
  | .erasing _ => some (.write [byteBs, byteSpace, byteBs])
  | .newline _ => some (.putchar byteNl)
  | .done _ => none

def after : ReadLine → LineAnswer → ReadLine
  | .settings, a => .reading (decide (a.eax = 0 ∧ flagged a.lflag echo)) []
  | .reading echo line, a => if a.eax = 1 then feed echo line a.byte else .sleeping echo line
  | .sleeping echo line, _ => .reading echo line
  | .echoing _ line, _ | .erasing line, _ => .reading false line
  | .newline line, _ => .done line
  | .done line, _ => .done line

end ReadLine

/-- The node of the slave side. -/
def PtyState.slaveNode : VfsNode PtyState where
  flags := vfsNodeFile
  length := 0
  read := some fun _ size buffer p => some ((p.ptySlaveRead size).1.elim (-1, buffer, p) fun got =>
    ((got.length : ℤ), copyIn buffer 0 got, (p.ptySlaveRead size).2))
  write := some fun _ data p => some ((p.ptySlaveWrite data).1.elim (-1) (fun n => (n : ℤ)), (p.ptySlaveWrite data).2)

/-- The calls that read or write; `ch` starts as zero. -/
def LineCall.file : LineCall → Option FileCall
  | .read => some (.read 0 (some fun _ => 0) 1)
  | .write data => some (.write 1 (some data))
  | _ => none

/-- What the program gets of an answer. -/
def FileAnswer.toLineAnswer (a : FileAnswer) : LineAnswer := ⟨a.eax, a.buffer.elim 0 fun buffer => buffer 0, 0⟩

end Saynaa
