import Saynaa.Dev.Pty
import Saynaa.Fs.Ext2
import Saynaa.Lib.Client
import Saynaa.Sys.Capture

/-!
# Open files (`kernel/src/sys/syscall.c`, `kernel/src/fs/vfs.c`, `kernel/src/sys/proc.c`)

The descriptors of the processes. `σ` is the state of the drivers behind the nodes, and `none` an operation of a
driver that does not come back. Paths are the results of `resolve_user_path`, where `none` is its failure. A
buffer in user memory is `none` for `NULL`; a read gets what is there, from the pointer on, and leaves it as it is
afterwards. A system call runs with interrupts off.
-/

namespace Saynaa

open Lib

variable {σ : Type}

/-- `PROC_MAX_FD`. -/
def procMaxFd : ℕ := 32

def oRdonly : BitVec 32 := 1
def oWronly : BitVec 32 := 2
def oRdwr : BitVec 32 := oRdonly ||| oWronly
def oAppend : BitVec 32 := 4

def vfsNodeFile : BitVec 32 := 1
def vfsNodeDir : BitVec 32 := 2

/-- `ops.read` of a node: offset, size and buffer. -/
abbrev ReadOp (σ : Type) := ℕ → ℕ → (ℕ → UInt8) → σ → Option (ℤ × (ℕ → UInt8) × σ)

/-- `ops.write` of a node: offset and data. -/
abbrev WriteOp (σ : Type) := ℕ → List UInt8 → σ → Option (ℤ × σ)

/-- `vfs_node_t`. -/
structure VfsNode (σ : Type) where
  flags : BitVec 32
  length : ℕ
  read : Option (ReadOp σ)
  write : Option (WriteOp σ)

/-- What the system calls use of the kernel. -/
structure Drivers (σ : Type) where
  vfsLookup : Name → σ → Option (Option (VfsNode σ) × σ)
  ptyOpenMaster : σ → Option (Option (VfsNode σ) × σ)
  ttydevReadActive : ReadOp σ
  ttydevWriteActive : WriteOp σ

/-- `proc_fd_t`. -/
structure ProcFd (σ : Type) where
  used : Bool
  flags : BitVec 32
  offset : ℕ
  node : Option (VfsNode σ)

/-- The entry after `memset`. -/
def ProcFd.zero : ProcFd σ := ⟨false, 0, 0, none⟩

/-- `current_process->fds`. -/
abbrev FdTable (σ : Type) := Fin procMaxFd → ProcFd σ

/-- What a system call works on: the process's descriptors, its captured output and the drivers. -/
structure FileState (σ : Type) where
  fds : FdTable σ
  stdout : Option ProcStdout
  world : σ

/-- The path `"/dev/ptmx"`. -/
def ptmxPath : Name := [47, 100, 101, 118, 47, 112, 116, 109, 120]

/-- The path `"/dev/tty"`. -/
def ttyPath : Name := [47, 100, 101, 118, 47, 116, 116, 121]

theorem fdIndex_lt {fd : ℤ} (h : ¬ (fd < 0 ∨ (procMaxFd : ℤ) ≤ fd)) : fd.toNat < procMaxFd := by omega

/-- `fd_from_index`. -/
def fdFromIndex (fds : FdTable σ) (fd : ℤ) : Option (Fin procMaxFd) :=
  if h : fd < 0 ∨ (procMaxFd : ℤ) ≤ fd then none
  else if (fds ⟨fd.toNat, fdIndex_lt h⟩).used then some ⟨fd.toNat, fdIndex_lt h⟩
  else none

/-- `alloc_fd`. -/
def allocFd (fds : FdTable σ) (node : VfsNode σ) (flags : BitVec 32) : ℤ × FdTable σ :=
  match (List.finRange procMaxFd).find? fun i => !(fds i).used with
  | none => (-1, fds)
  | some i => (i, Function.update fds i ⟨true, flags, if flagged flags oAppend then node.length else 0, some node⟩)

namespace VfsNode

/-- `vfs_read`; `-1` leaves everything as it is. -/
def vfsRead (node : VfsNode σ) (offset size : ℕ) (buffer : ℕ → UInt8) (w : σ) : Option (ℤ × (ℕ → UInt8) × σ) :=
  match node.read with
  | none => some (-1, buffer, w)
  | some read => read offset size buffer w

/-- `vfs_write`. -/
def vfsWrite (node : VfsNode σ) (offset : ℕ) (data : List UInt8) (w : σ) : Option (ℤ × σ) :=
  match node.write with
  | none => some (-1, w)
  | some write => write offset data w

end VfsNode

/-- The node of a file or directory of `ext2`, which is read only. -/
def Ext2Fs.vfsNode (fs : Ext2Fs) (n : Ext2Node) : VfsNode σ where
  flags := if n.isDir then vfsNodeDir else vfsNodeFile
  length := n.length
  read := some fun offset size buffer w =>
    match fs.read n.inode offset size buffer with
    | .ok (r, buffer) => some (r, buffer, w)
    | .error _ => none
  write := some fun _ _ w => some (-1, w)

namespace FileState

/-- `alloc_fd` in `syscall_open`. -/
def openNode (s : FileState σ) (node : VfsNode σ) (flags : BitVec 32) : ℤ × FileState σ :=
  ((allocFd s.fds node flags).1, { s with fds := (allocFd s.fds node flags).2 })

/-- `syscall_open`. -/
def syscallOpen (d : Drivers σ) (s : FileState σ) (path : Option Name) (flags : BitVec 32) :
    Option (ℤ × FileState σ) :=
  match path with
  | none => some (-1, s)
  | some path =>
    if path = ptmxPath then
      (d.ptyOpenMaster s.world).map fun
        | (none, w) => (-1, { s with world := w })
        | (some master, w) => { s with world := w }.openNode master (if flags ≠ 0 then flags else oRdwr)
    else
      (d.vfsLookup path s.world).map fun
        | (none, w) => (-1, { s with world := w })
        | (some node, w) =>
          if flagged flags oRdonly ∧ node.read.isNone then (-1, { s with world := w })
          else if flagged flags oWronly ∧ node.write.isNone then (-1, { s with world := w })
          else { s with world := w }.openNode node flags

/-- `syscall_close`. -/
def syscallClose (s : FileState σ) (fd : ℤ) : ℤ × FileState σ :=
  match fdFromIndex s.fds fd with
  | none => (-1, s)
  | some i => (0, { s with fds := Function.update s.fds i .zero })

/-- `entry->offset += n` for a result above zero. -/
def advance (s : FileState σ) (i : Fin procMaxFd) (n : ℤ) : FileState σ :=
  if 0 < n then { s with
    fds := Function.update s.fds i { s.fds i with offset := add32 (s.fds i).offset n.toNat } } else s

/-- `ttydev_read_active`, for what is not read through a descriptor. -/
def readTty (d : Drivers σ) (s : FileState σ) (size : ℕ) (buffer : ℕ → UInt8) :
    Option (ℤ × (ℕ → UInt8) × FileState σ) :=
  (d.ttydevReadActive 0 size buffer s.world).map fun (r, buffer, w) => (r, buffer, { s with world := w })

/-- `ttydev_write_active`. -/
def writeTty (d : Drivers σ) (s : FileState σ) (data : List UInt8) : Option (ℤ × FileState σ) :=
  (d.ttydevWriteActive 0 data s.world).map fun (r, w) => (r, { s with world := w })

/-- `syscall_read`; with the buffer, where there is one. -/
def syscallRead (d : Drivers σ) (s : FileState σ) (fd : ℤ) (buffer : ℕ → UInt8) (size : ℕ) :
    Option (ℤ × (ℕ → UInt8) × FileState σ) :=
  if size = 0 then some (-1, buffer, s)
  else
    match fdFromIndex s.fds fd with
    | none => s.readTty d size buffer
    | some i =>
      match (s.fds i).node with
      | none => s.readTty d size buffer
      | some node =>
        if ¬ flagged (s.fds i).flags oRdonly then s.readTty d size buffer
        else
          (node.vfsRead (s.fds i).offset size buffer s.world).bind fun (r, buffer, w) =>
            if r < 0 then { s with world := w }.readTty d size buffer
            else some (r, buffer, { s with world := w }.advance i r)

/-- `syscall_write`. -/
def syscallWrite (d : Drivers σ) (s : FileState σ) (fd : ℤ) (data : List UInt8) : Option (ℤ × FileState σ) :=
  if data = [] ∨ fd < 0 then some (-1, s)
  else
    match if fd = 1 then s.stdout else none with
    | some out => some (toInt32 data.length, { s with stdout := some (data.foldl ProcStdout.capture out) })
    | none =>
      match fdFromIndex s.fds fd with
      | none => s.writeTty d data
      | some i =>
        match (s.fds i).node with
        | none => s.writeTty d data
        | some node =>
          if ¬ flagged (s.fds i).flags oWronly then s.writeTty d data
          else
            (node.vfsWrite (s.fds i).offset data s.world).bind fun (r, w) =>
              if r < 0 then { s with world := w }.writeTty d data else some (r, { s with world := w }.advance i r)

/-- `syscall_seek`. -/
def syscallSeek (s : FileState σ) (fd offset : ℤ) (whence : ℕ) : ℤ × FileState σ :=
  match fdFromIndex s.fds fd with
  | none => (-1, s)
  | some i =>
    match (s.fds i).node with
    | none => (-1, s)
    | some node =>
      let base : Option ℤ := match whence with
        | 0 => some 0
        | 1 => some (s.fds i).offset
        | 2 => some node.length
        | _ => none
      match base with
      | none => (-1, s)
      | some base =>
        if base + offset < 0 then (-1, s)
        else
          let offset := ofInt (base + offset)
          (toInt32 offset, { s with fds := Function.update s.fds i { s.fds i with offset := offset } })

end FileState

/-! ### All processes -/

/-- A system call on a descriptor or a path. -/
inductive FileCall where
  | «open» (path : Option Name) (flags : BitVec 32)
  | close (fd : ℤ)
  | read (fd : ℤ) (buffer : Option (ℕ → UInt8)) (size : ℕ)
  | write (fd : ℤ) (data : Option (List UInt8))
  | seek (fd offset : ℤ) (whence : ℕ)

/-- What a call leaves in `eax`, and the buffer of a read. -/
structure FileAnswer where
  eax : ℤ
  buffer : Option (ℕ → UInt8)

def FileCall.exec (d : Drivers σ) (s : FileState σ) : FileCall → Option (FileAnswer × FileState σ)
  | .open path flags => (s.syscallOpen d path flags).map fun (r, s) => (⟨r, none⟩, s)
  | .close fd => some (⟨(s.syscallClose fd).1, none⟩, (s.syscallClose fd).2)
  | .read _ none _ => some (⟨-1, none⟩, s)
  | .read fd (some buffer) size => (s.syscallRead d fd buffer size).map fun (r, buffer, s) => (⟨r, some buffer⟩, s)
  | .write _ none => some (⟨-1, none⟩, s)
  | .write fd (some data) => (s.syscallWrite d fd data).map fun (r, s) => (⟨r, none⟩, s)
  | .seek fd offset whence => some (⟨(s.syscallSeek fd offset whence).1, none⟩, (s.syscallSeek fd offset whence).2)

/-- A process: `fds` and `stdout`, an address. -/
structure FileProc (σ : Type) where
  fds : FdTable σ
  stdout : Option ℕ

/-- The processes by their numbers, the captured output by its address and the drivers. -/
structure Files (σ : Type) where
  proc : ℕ → Option (FileProc σ)
  out : ℕ → ProcStdout
  world : σ

namespace Files

/-- What a call of `p` works on. -/
def view (s : Files σ) (p : FileProc σ) : FileState σ := ⟨p.fds, p.stdout.map s.out, s.world⟩

/-- The system behind a call of `pid`, which is `p`. -/
def put (s : Files σ) (pid : ℕ) (p : FileProc σ) (t : FileState σ) : Files σ where
  proc := Function.update s.proc pid (some { p with fds := t.fds })
  out := match p.stdout, t.stdout with
    | some a, some out => Function.update s.out a out
    | _, _ => s.out
  world := t.world

/-- `proc_init_fd_table`. -/
def procInitFdTable (tty : Option (VfsNode σ)) : FdTable σ := fun i =>
  match tty with
  | none => .zero
  | some node => if i.val = 0 then ⟨true, oRdonly, 0, some node⟩ else if i.val = 1 then ⟨true, oWronly, 0,
    some node⟩ else .zero

end Files

/-- What happens: a system call with its answer, `proc_run_code` in a process or in the kernel, `proc_exit`, and
everything that leaves the descriptors alone. -/
inductive FileEvent where
  | call (pid : ℕ) (c : FileCall) (a : FileAnswer)
  | exec (pid child : ℕ)
  | start (pid : ℕ)
  | exit (pid : ℕ)
  | other

/-- **A step of the system.** A new process gets a copy of the descriptors of its parent (`proc_inherit_fd_table`). -/
inductive Files.Step (d : Drivers σ) : Files σ → FileEvent → Files σ → Prop
  | call {s : Files σ} {q : ℕ} {p : FileProc σ} {c : FileCall} {a : FileAnswer} {t : FileState σ} :
    s.proc q = some p → c.exec d (s.view p) = some (a, t) → Step d s (.call q c a) (s.put q p t)
  | exec {s : Files σ} {q k : ℕ} {p : FileProc σ} : s.proc q = some p → s.proc k = none →
    Step d s (.exec q k) { s with proc := Function.update s.proc k (some p) }
  | start {s : Files σ} {q : ℕ} {tty : Option (VfsNode σ)} {w : σ} : s.proc q = none →
    d.vfsLookup ttyPath s.world = some (tty, w) →
    Step d s (.start q) { s with proc := Function.update s.proc q (some ⟨procInitFdTable tty, none⟩), world := w }
  | exit (s : Files σ) (q : ℕ) : Step d s (.exit q) { s with proc := Function.update s.proc q none }
  | other {s t : Files σ} : (∀ q, (t.proc q).map FileProc.fds = (s.proc q).map FileProc.fds) → Step d s .other t

end Saynaa
