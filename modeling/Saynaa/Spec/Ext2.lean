import Saynaa.Fs.Ext2

/-!
# The block map of the `ext2` format

Block numbers and offsets are natural numbers here. A block map has twelve direct
blocks and trees of one, two and three levels of indirect blocks; a zero is a hole at
every level.

* `fileBlock`: the block with the `i`-th part of a file.
* `fileByte`: a byte of a file.
* `Ext2Layout`: what the format asks of an inode.
-/

namespace Saynaa.Ext2Fs

open Lib

variable {fs : Ext2Fs} {ino b j k pos n : ℕ}

/-- `inode->block[i]`. -/
def ptr (fs : Ext2Fs) (ino i : ℕ) : ℕ := load 4 fs.image.bytes (ino + 40 + 4 * i)

/-- `inode->size`. -/
def fileSize (fs : Ext2Fs) (ino : ℕ) : ℕ := load 4 fs.image.bytes (ino + 4)

/-- Block numbers in a block. -/
def perBlock (fs : Ext2Fs) : ℕ := fs.blockSize / 4

/-- The `j`-th number in the indirect block `b`. -/
def entry (fs : Ext2Fs) (b j : ℕ) : ℕ := if b = 0 then 0 else load 4 fs.image.bytes (b * fs.blockSize + 4 * j)

/-- The `j`-th block below `b`, with `k` levels of indirect blocks. -/
def descend (fs : Ext2Fs) : ℕ → ℕ → ℕ → ℕ
  | 0, b, _ => b
  | k + 1, b, j => fs.descend k (fs.entry b (j / fs.perBlock ^ k)) (j % fs.perBlock ^ k)

/-- **The block map**: the `i`-th block of the file, or zero for a hole. -/
def fileBlock (fs : Ext2Fs) (ino i : ℕ) : ℕ :=
  let m := fs.perBlock
  if i < 12 then fs.ptr ino i
  else if i < 12 + m then fs.descend 1 (fs.ptr ino 12) (i - 12)
  else if i < 12 + m + m ^ 2 then fs.descend 2 (fs.ptr ino 13) (i - 12 - m)
  else if i < 12 + m + m ^ 2 + m ^ 3 then fs.descend 3 (fs.ptr ino 14) (i - 12 - m - m ^ 2)
  else 0

/-- Byte `r` of block `b`; holes read as zeros. -/
def blockByte (fs : Ext2Fs) (b r : ℕ) : UInt8 := if b = 0 then 0 else fs.image.bytes (b * fs.blockSize + r)

/-- The byte at `pos` of the file. -/
def fileByte (fs : Ext2Fs) (ino pos : ℕ) : UInt8 :=
  fs.blockByte (fs.fileBlock ino (pos / fs.blockSize)) (pos % fs.blockSize)

/-- The `n` bytes of the file at `pos`. -/
def fileBytes (fs : Ext2Fs) (ino pos n : ℕ) : List UInt8 := copyOut (fs.fileByte ino) pos n

/-- The block lies in the image. -/
def InRange (fs : Ext2Fs) (b : ℕ) : Prop := b ≠ 0 → (b + 1) * fs.blockSize ≤ fs.image.size

/-- All blocks of a tree lie in the image. -/
def TreeOK (fs : Ext2Fs) : ℕ → ℕ → Prop
  | 0, b => fs.InRange b
  | k + 1, b => fs.InRange b ∧ (b ≠ 0 → ∀ j < fs.perBlock, fs.TreeOK k (fs.entry b j))

instance decInRange : DecidablePred fs.InRange := fun _ => inferInstanceAs (Decidable (_ → _))

instance decTreeOK : (k b : ℕ) → Decidable (fs.TreeOK k b)
  | 0, b => decInRange b
  | k + 1, b =>
    have (j : ℕ) := decTreeOK k (fs.entry b j)
    inferInstanceAs (Decidable (_ ∧ (_ → _)))

/-! Sizes of small images. -/

theorem size_8192 : 8192 < 2 ^ 32 := by norm_num

theorem block_1024 : 1024 ≤ 2 ^ 31 := by norm_num

theorem inode_128 : 128 < 2 ^ 16 := by norm_num

/-- **An inode laid out by the format**: the block size is a power of two from 1024 on, the inode is in
the image, and so are all blocks. -/
structure Ext2Layout (fs : Ext2Fs) (ino : ℕ) : Prop where
  blockSize_eq : ∃ e, fs.blockSize = 1024 * 2 ^ e
  inode : ino + 128 ≤ fs.image.size
  direct : ∀ i < 12, fs.TreeOK 0 (fs.ptr ino i)
  single : fs.TreeOK 1 (fs.ptr ino 12)
  double : fs.TreeOK 2 (fs.ptr ino 13)
  triple : fs.TreeOK 3 (fs.ptr ino 14)

end Saynaa.Ext2Fs
