import Saynaa.Mem.Malloc
import Saynaa.Sys.Proc

/-!
# Captured output (`kernel/src/sys/proc.c`, `kernel/src/sys/syscall.c`)

`SYS_MAKETTY` gives a process a buffer that captures its output; the children that it starts
share it. A buffer is a `proc_stdout_t` in the kernel's heap, whose first word counts the
processes that point to it.

Of the live processes there are the addresses of their `process_t` and the field `stdout`. Which
blocks of the heap are live, which buffers were made and which were freed is recorded beside
them; nothing reads these records but the guards of `other`, the code of the rest of the kernel.
A buffer's own fields `r`, `w` and `buf` are among what that code writes.
-/

namespace Saynaa

open Lib

/-- `sizeof(proc_stdout_t)`. -/
def procStdoutSize : ℕ := 4108

/-- `out->refcount`. -/
def Heap.refcount (h : Heap) (out : ℕ) : ℕ := load 4 h.mem out

def Heap.setRefcount (h : Heap) (out v : ℕ) : Heap := { h with mem := store 4 h.mem out v }

/-- The heap, the live processes, and the records. -/
structure StdoutSys where
  heap : Heap
  procs : List ℕ
  stdout : ℕ → ℕ
  live : Finset ℕ
  made : List ℕ
  freed : List ℕ

/-- What the rest of the kernel does to the heap. -/
inductive HeapOther where
  | alloc (align size : ℕ)
  | free (p : ℕ)
  | write (p i : ℕ) (data : List UInt8)

/-- A call; `none` is the kernel before the first process. -/
inductive StdoutCall where
  | other (op : HeapOther)
  | exec (parent : Option ℕ)
  | maketty (q : ℕ)
  | exit (q : ℕ)

namespace StdoutSys

/-- A live process points to `p`. -/
def InUse (s : StdoutSys) (p : ℕ) : Prop := p ≠ 0 ∧ ∃ q ∈ s.procs, s.stdout q = p

instance (s : StdoutSys) (p : ℕ) : Decidable (s.InUse p) := inferInstanceAs (Decidable (_ ∧ _))

/-- `kmalloc` and its relatives, where an abort stops the kernel. -/
def kmalloc (s : StdoutSys) (align size : ℕ) : Option (ℕ × StdoutSys) :=
  (Heap.alignedAlloc searchFuel s.heap align size).join.map fun (p, h) =>
    (p, { s with heap := h, live := insert p s.live })

/-- `proc_stdout_retain`. -/
def procStdoutRetain (s : StdoutSys) (out : ℕ) : StdoutSys :=
  if out ≠ 0 then { s with heap := s.heap.setRefcount out (add32 (s.heap.refcount out) 1) } else s

/-- `proc_stdout_release`. -/
def procStdoutRelease (s : StdoutSys) (out : ℕ) : StdoutSys :=
  if out = 0 then s
  else
    let s :=
      if s.heap.refcount out > 0 then { s with heap := s.heap.setRefcount out (s.heap.refcount out - 1) } else s
    if s.heap.refcount out = 0 then
      { s with heap := s.heap.kfree out, live := s.live.erase out, freed := out :: s.freed }
    else s

/-- The part of `proc_run_code` about `stdout`; the new process is in the queue afterwards. -/
def procRunCode (s : StdoutSys) (parent : Option ℕ) : Option StdoutSys := do
  let (process, s) ← s.kmalloc minAlign processSize
  let out := (parent.map s.stdout).getD 0
  let s := { s with procs := process :: s.procs, stdout := Function.update s.stdout process out }
  return s.procStdoutRetain out

/-- `syscall_maketty` of process `q`. -/
def syscallMaketty (s : StdoutSys) (q : ℕ) : Option StdoutSys :=
  if s.stdout q ≠ 0 then some s
  else do
    let (out, s) ← s.kmalloc minAlign procStdoutSize
    let heap := { s.heap with mem := copyIn s.heap.mem out (List.replicate procStdoutSize 0) }
    return { s with heap := heap.setRefcount out 1, stdout := Function.update s.stdout q out, made := out :: s.made }

/-- `proc_exit` of process `q`. -/
def procExit (s : StdoutSys) (q : ℕ) : StdoutSys :=
  let s := s.procStdoutRelease (s.stdout q)
  { s with procs := s.procs.erase q, stdout := Function.update s.stdout q 0 }

/-- The rest of the kernel allocates within the heap, frees neither buffers in use nor the `process_t`
of live processes, and writes to live payloads, but not to the counter of a buffer. -/
def other (s : StdoutSys) : HeapOther → Option StdoutSys
  | .alloc align size =>
    if (0 < align ∧ align % 4 = 0 ∧ align ≤ 4096) ∧ size ≤ kernelHeapSize then (s.kmalloc align size).map Prod.snd
      else none
  | .free p =>
    if p ∈ s.live ∧ p ∉ s.procs ∧ ¬ s.InUse p then some { s with heap := s.heap.kfree p, live := s.live.erase p }
      else none
  | .write p i data =>
    if p ∈ s.live ∧ i + data.length ≤ clearFlag (s.heap.size (Heap.memGetBlock p)) ∧ (s.InUse p → 4 ≤ i) then
      some { s with heap := { s.heap with mem := copyIn s.heap.mem (p + i) data } }
    else none

def step (s : StdoutSys) : StdoutCall → Option StdoutSys
  | .other op => s.other op
  | .exec parent => if ∀ q ∈ parent, q ∈ s.procs then s.procRunCode parent else none
  | .maketty q => if q ∈ s.procs then s.syscallMaketty q else none
  | .exit q => if q ∈ s.procs then some (s.procExit q) else none

end StdoutSys

end Saynaa
