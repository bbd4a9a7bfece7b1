import Mathlib.Tactic

/-!
# Path lookup (`kernel/src/fs/vfs.c`)

Nodes come with the `finddir` function of their file system, which may be missing. A path
is the list of the characters of a C string. `vfsWalk` also returns the names it called
`finddir` with.
-/

namespace Saynaa

abbrev Name := List UInt8

/-- `'/'`. -/
def slash : UInt8 := 47

/-- `sizeof(segment)`. -/
def segmentSize : ℕ := 64

/-- `node->ops.finddir` and `g_root`; `none` is `NULL`. -/
structure Vfs (Node : Type) where
  finddir : Node → Option (Name → Option Node)
  root : Option Node

/-- Copy a segment whose first `len` characters are there already: the further characters and
where the copy stopped. -/
def copySegment (len : ℕ) : List UInt8 → Name × List UInt8
  | [] => ([], [])
  | c :: p =>
    if c ≠ slash ∧ len < segmentSize - 1 then (c :: (copySegment (len + 1) p).1, (copySegment (len + 1) p).2)
    else ([], c :: p)

/-- `while (*p == '/') p++`. -/
def skipSlashes (p : List UInt8) : List UInt8 := p.dropWhile (· = slash)

theorem length_copySegment (len : ℕ) (p : List UInt8) :
    (copySegment len p).1.length + (copySegment len p).2.length = p.length := by
  induction p generalizing len with
  | nil => rfl
  | cons c p ih =>
    unfold copySegment
    split_ifs with hc
    · have h1 := ih (len + 1)
      simp only [List.length_cons]
      omega
    · simp

theorem length_skipSlashes (p : List UInt8) : (skipSlashes p).length ≤ p.length :=
  (List.dropWhile_sublist _).length_le

/-- A pass of the walk gets closer to the end. -/
theorem walk_decreases {c : UInt8} {p : List UInt8} :
    (skipSlashes (copySegment 0 (c :: p)).2).length < (c :: p).length := by
  by_cases hc : c = slash
  · have h1 : (copySegment 0 (c :: p)).2 = c :: p := by
      unfold copySegment
      rw [if_neg (by simp [hc])]
    have h2 : skipSlashes (c :: p) = skipSlashes p := by
      unfold skipSlashes
      rw [List.dropWhile_cons_of_pos (by simpa using hc)]
    rw [h1, h2]
    exact Nat.lt_succ_of_le (length_skipSlashes p)
  · have h1 := length_copySegment 0 (c :: p)
    have h2 : 0 < (copySegment 0 (c :: p)).1.length := by
      unfold copySegment
      rw [if_pos ⟨hc, by decide⟩]
      exact Nat.succ_pos _
    have h3 := length_skipSlashes (copySegment 0 (c :: p)).2
    omega

variable {Node : Type}

/-- One call of `finddir`, where there is one. -/
def Vfs.step (v : Vfs Node) (n : Node) (name : Name) : Option Node :=
  match v.finddir n with
  | some f => f name
  | none => none

/-- The outer loop of `vfs_walk`. -/
def Vfs.walkLoop (v : Vfs Node) (current : Node) : List UInt8 → Option Node × List Name
  | [] => (some current, [])
  | c :: p =>
    let segment := (copySegment 0 (c :: p)).1
    match v.step current segment with
    | none => (none, [segment])
    | some node =>
      let (r, calls) := v.walkLoop node (skipSlashes (copySegment 0 (c :: p)).2)
      (r, segment :: calls)
termination_by p => p.length
decreasing_by exact walk_decreases

def Vfs.vfsWalk (v : Vfs Node) (start : Node) (path : List UInt8) : Option Node × List Name :=
  v.walkLoop start (skipSlashes path)

/-- `vfs_lookup`; `none` as `path` is `NULL`. -/
def Vfs.vfsLookup (v : Vfs Node) (path : Option (List UInt8)) : Option Node × List Name :=
  match path with
  | none => (v.root, [])
  | some [] => (v.root, [])
  | some (c :: p) =>
    if c ≠ slash then (none, [])
    else
      match v.root with
      | none => (none, [])
      | some root => v.vfsWalk root (c :: p)

end Saynaa
