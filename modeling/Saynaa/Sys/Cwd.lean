import Saynaa.Fs.Vfs
import Saynaa.Lib.Loop
import Saynaa.Libc.AbsPath

/-!
# Working directories (`kernel/src/sys/syscall.c`, `kernel/src/sys/proc.c`)

The array `cwd` of a process is a memory of its own. A system call finds its arguments in the memory `user`, where the
kernel also sees the array, at its address. `none` is running out of fuel.
-/

namespace Saynaa

open Lib

variable {Node : Type}

/-- A file system and `node->flags & VFS_NODE_DIR`. -/
structure Tree (Node : Type) extends Vfs Node where
  isDir : Node → Bool

/-- `sizeof(current_process->cwd)`, and the size of the buffer in `syscall_chdir`. -/
def cwdSize : ℕ := 256

/-- `strncpy(cwd, path, sizeof(cwd) - 1)` and the zero behind it. -/
def setCwd (cwd path : ℕ → UInt8) : ℕ → UInt8 :=
  Function.update (strncpy cwd 0 path 0 (cwdSize - 1)) (cwdSize - 1) 0

/-- The array that `proc_run_code` gives to a new process; `current` is that of `current_process`. -/
def procCwd (current : Option (ℕ → UInt8)) : ℕ → UInt8 :=
  match current with
  | some cwd => setCwd (fun _ => 0) (if cwd 0 ≠ 0 then cwd else literal [slash])
  | none => setCwd (fun _ => 0) (literal [slash])

/-- The memory with the array at its address. -/
def withCwd (user cwd : ℕ → UInt8) (address : BitVec 32) : ℕ → UInt8 :=
  copyIn user address.toNat (copyOut cwd 0 cwdSize)

/-- `resolve_user_path`, of a process. -/
def resolveUserPath (ops : FloatOps) (fuel : ℕ) (stack mem : ℕ → UInt8) (cwd path : BitVec 32)
    (out : Option (ℕ → UInt8)) (outLen : ℕ) : Option (ℕ × Option (ℕ → UInt8)) :=
  if path = 0 ∨ out.isNone ∨ outLen = 0 then some (0, out) else makeAbsPath ops mem fuel stack cwd path out outLen

/-- The part of `syscall_chdir` behind `resolve_user_path`. -/
def Tree.enter (t : Tree Node) (fuel : ℕ) (cwd resolved : ℕ → UInt8) : Option (ℤ × (ℕ → UInt8)) :=
  (strlen resolved fuel 0).map fun len =>
    match (t.vfsLookup (some (copyOut resolved 0 len))).1 with
    | none => (-1, cwd)
    | some node => if t.isDir node then (0, setCwd cwd resolved) else (-1, cwd)

/-- `syscall_chdir`: the return value and the array afterwards. `resolved` is what the buffer holds before. -/
def Tree.syscallChdir (t : Tree Node) (ops : FloatOps) (fuel : ℕ) (stack resolved user cwd : ℕ → UInt8)
    (address path : BitVec 32) : Option (ℤ × (ℕ → UInt8)) :=
  (resolveUserPath ops fuel stack (withCwd user cwd address) address path (some resolved) cwdSize).bind fun
    | (0, _) | (_, none) => some (-1, cwd)
    | (_, some resolved) => t.enter fuel cwd resolved

/-- `syscall_getcwd`: the return value and the memory afterwards. -/
def syscallGetcwd (fuel : ℕ) (cwd user : ℕ → UInt8) (buf : BitVec 32) (len : ℕ) : Option (ℤ × (ℕ → UInt8)) :=
  if buf = 0 ∨ len = 0 then some (-1, user)
  else (strlen cwd fuel 0).map fun cwdLen =>
    if cwdLen + 1 > len then (-1, user)
    else (cwdLen, Function.update (strncpy user buf.toNat cwd 0 (len - 1)) (buf.toNat + (len - 1)) 0)

/-- `NULL`, or a string in memory. -/
def PathArg (mem : ℕ → UInt8) (path : BitVec 32) : Prop := path = 0 ∨ ∃ l, CStr mem path.toNat l

/-- **What happens to the arrays of the processes**: the kernel starts a process, a process starts another one or
changes its directory, and a process ends. -/
inductive CwdStep (t : Tree Node) (ops : FloatOps) : List (ℕ → UInt8) → List (ℕ → UInt8) → Prop
  | boot (s) : CwdStep t ops s (s ++ [procCwd none])
  | exec {s cwd} : cwd ∈ s → CwdStep t ops s (s ++ [procCwd (some cwd)])
  | chdir {s} {stack resolved user cwd' : ℕ → UInt8} {address path : BitVec 32} {r : ℤ} (i : ℕ) (hi : i < s.length) :
      address ≠ 0 → PathArg (withCwd user s[i] address) path →
      Returns (t.syscallChdir ops · stack resolved user s[i] address path) (r, cwd') → CwdStep t ops s (s.set i cwd')
  | exit (s i) : CwdStep t ops s (s.eraseIdx i)

end Saynaa
