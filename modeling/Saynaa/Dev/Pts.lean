import Saynaa.Libc.AbsPath

/-!
# The directory `/dev/pts` (`kernel/src/fs/dev/dev_pty.c`)

`δ` are devices; the node of a device stands for the device. A name is the list of the bytes before its
terminator, except in a `vfs_dirent_t`, whose buffer it is.
-/

namespace Saynaa

def ptyMax : ℕ := 16

variable {δ : Type*}

/-- `g_ptys`, with the `slave_dev` of each pty. -/
abbrev PtyTable (δ : Type*) := Fin ptyMax → Option (Option δ)

/-- `vfs_dirent_t`. -/
structure VfsDirent where
  name : ℕ → UInt8
  inode : ℕ

/-- `sizeof(dirent->name)`. -/
def direntNameSize : ℕ := 256

/-- `pty_get`. -/
def ptyGet (t : PtyTable δ) (id : BitVec 32) : Option (Option δ) :=
  if h : id.toNat < ptyMax then t ⟨id.toNat, h⟩ else none

variable (ops : FloatOps) (t : PtyTable δ)

/-- The entry of slot `i`. -/
def VfsDirent.set (dirent : VfsDirent) (i : Fin ptyMax) : VfsDirent where
  name := snprintf ops (fun _ => 0) dirent.name direntNameSize [ch '%', ch 'u'] [BitVec.ofNat 32 i]
  inode := i + 1

/-- The loop of `pts_readdir`, with the slots that are left. -/
def readdirFrom (index : ℕ) (dirent : VfsDirent) : ℕ → List (Fin ptyMax) → ℤ × VfsDirent
  | _, [] => (-1, dirent)
  | seen, i :: is =>
    match t i with
    | none => readdirFrom index dirent seen is
    | some _ =>
      if seen = index then (0, dirent.set ops i)
      else readdirFrom index dirent (seen + 1) is

/-- `pts_readdir`. -/
def ptsReaddir (index : ℕ) (dirent : Option VfsDirent) : ℤ × Option VfsDirent :=
  match dirent with
  | none => (-1, none)
  | some dirent =>
    let (r, dirent) := readdirFrom ops t index dirent 0 (List.finRange ptyMax)
    (r, some dirent)

/-- The number that `pts_finddir` reads, if all are digits. -/
def ptsId (id : BitVec 32) : List UInt8 → Option (BitVec 32)
  | [] => some id
  | p :: name =>
    if charInt p < charInt (ch '0') ∨ charInt p > charInt (ch '9') then none
    else ptsId (id * 10 + BitVec.ofInt 32 (charInt p - charInt (ch '0'))) name

/-- `pts_finddir`. -/
def ptsFinddir (name : Option (List UInt8)) : Option δ :=
  match name with
  | none | some [] => none
  | some name =>
    match ptsId 0 name with
    | none => none
    | some id => (ptyGet t id).join

end Saynaa
