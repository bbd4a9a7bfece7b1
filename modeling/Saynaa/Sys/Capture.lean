import Saynaa.Libc.Math

/-!
# Captured output (`proc_stdout_t` in `kernel/include/sys/proc.h`, `kernel/src/sys/syscall.c`)

The system calls of processes that share one buffer. They run with interrupts off, so a call is one step. A
call returns what it leaves in `eax`. User memory that is read is a function on addresses; `syscallReadstdout` also
returns the bytes that it stores from `buf` on. The counter `refcount` is not used here.
-/

namespace Saynaa

/-- `sizeof(out->buf)`. -/
def stdoutBufSize : ℕ := 4096

/-- `proc_stdout_t`. -/
structure ProcStdout where
  r : ℕ
  w : ℕ
  buf : ℕ → UInt8

namespace ProcStdout

/-- The buffer that `SYS_MAKETTY` makes, filled with zeros. -/
def fresh : ProcStdout := ⟨0, 0, fun _ => 0⟩

/-- One captured byte, in `syscall_putchar` and in the loop of `syscall_write`. -/
def capture (out : ProcStdout) (ch : UInt8) : ProcStdout :=
  let next := add32 out.w 1 % stdoutBufSize
  let r := if next = out.r then add32 out.r 1 % stdoutBufSize else out.r
  { r := r, w := next, buf := Function.update out.buf out.w ch }

/-- `syscall_putchar`, where output is captured. -/
def syscallPutchar (out : ProcStdout) (ebx : ℕ) : ℕ × ProcStdout := (1, out.capture (UInt8.ofNat ebx))

/-- `syscall_write` to descriptor 1, where output is captured. -/
def syscallWrite (out : ProcStdout) (mem : ℕ → UInt8) (buf len : ℕ) : ℕ × ProcStdout :=
  if buf = 0 ∨ len = 0 then (2 ^ 32 - 1, out)
  else (len, (List.range len).foldl (fun out i => out.capture (mem (add32 buf i))) out)

/-- The loop of `syscall_readstdout`, with room for `n` more bytes. -/
def readLoop (out : ProcStdout) : ℕ → List UInt8 × ProcStdout
  | 0 => ([], out)
  | n + 1 =>
    if out.r ≠ out.w then
      let (bytes, out') := readLoop { out with r := add32 out.r 1 % stdoutBufSize } n
      (out.buf out.r :: bytes, out')
    else ([], out)

/-- `syscall_readstdout`. -/
def syscallReadstdout (out : ProcStdout) (buf size : ℕ) : ℕ × List UInt8 × ProcStdout :=
  if buf = 0 ∨ size = 0 then (0, [], out)
  else
    let (bytes, out) := out.readLoop size
    (bytes.length, bytes, out)

end ProcStdout

/-- A call of one of the processes. -/
inductive CaptureCall where
  | putchar (ebx : ℕ)
  | write (mem : ℕ → UInt8) (buf len : ℕ)
  | read (buf size : ℕ)

/-- The call: `eax`, the bytes that are stored in user memory, and the buffer afterwards. -/
def CaptureCall.exec (out : ProcStdout) : CaptureCall → (ℕ × List UInt8) × ProcStdout
  | .putchar ebx => ((((out.syscallPutchar ebx).1), []), (out.syscallPutchar ebx).2)
  | .write mem buf len => (((out.syscallWrite mem buf len).1, []), (out.syscallWrite mem buf len).2)
  | .read buf size =>
    let (eax, bytes, out) := out.syscallReadstdout buf size
    ((eax, bytes), out)

end Saynaa
