import Saynaa.Sys.Exec
import Saynaa.Sys.Files

/-!
# Running a file (`proc_run_path` in `kernel/src/sys/proc.c`)

`mem` is what the kernel's memory holds. The blocks that a lookup takes from the heap for its nodes are left out.
-/

namespace Saynaa.Exec

open Lib

variable {σ : Type}

/-- The memory with a buffer at `buf`. -/
def withBuffer (mem : ℕ → UInt8) (buf : ℕ) (buffer : ℕ → UInt8) : ℕ → UInt8 :=
  fun a => if a < buf then mem a else buffer (a - buf)

/-- The part of `proc_run_path` behind the lookup. -/
def runNode (fuel : ℕ) (s : Exec) (node : VfsNode σ) (w : σ) (mem : ℕ → UInt8) (argv : List (List UInt8)) :
    Option (Option ℕ × Exec × σ) :=
  if ¬ flagged node.flags vfsNodeFile then some (none, s, w)
  else if node.length = 0 then some (none, s, w)
  else
    (s.kmalloc fuel node.length).bind fun (buf, s) =>
      if buf = 0 then some (none, s, w)
      else
        (node.vfsRead 0 node.length (fun i => mem (buf + i)) w).bind fun (n, buffer, w) =>
          if n < 0 ∨ n.toNat ≠ node.length then some (none, s.kfree buf, w)
          else
            (s.procRunCode fuel ⟨withBuffer mem buf buffer, buf, node.length⟩ argv).map fun (p, s) =>
              (p, s.kfree buf, w)

/-- `proc_run_path`. -/
def procRunPath (d : Drivers σ) (fuel : ℕ) (s : Exec) (w : σ) (mem : ℕ → UInt8) (path : Name)
    (argv : List (List UInt8)) : Option (Option ℕ × Exec × σ) :=
  (d.vfsLookup path w).bind fun
    | (none, w) => some (none, s, w)
    | (some node, w) => s.runNode fuel node w mem argv

end Saynaa.Exec
