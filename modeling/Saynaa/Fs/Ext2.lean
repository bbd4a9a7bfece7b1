import Saynaa.Fs.Vfs
import Saynaa.Lib.Checked
import Saynaa.Lib.Loop
import Saynaa.Libc.Math

/-!
# The `ext2` driver (`kernel/src/fs/ext2.c`)

An image is in memory as a whole. What the source reaches through a pointer to a packed
structure is read at the offset of the field, and a read outside of the image is a fault.
Inodes, group descriptors and directory entries are given by their offsets in the image.
-/

namespace Saynaa

open Lib

/-- The bytes that `ext2_mount` gets; their number is a `size_t`. -/
structure Image extends Region where
  size_lt : size < 2 ^ 32

/-- `a * b` on `uint32_t`. -/
def mul32 (a b : ℕ) : ℕ := a * b % 2 ^ 32

/-- `EXT2_SUPER_MAGIC`. -/
def ext2SuperMagic : ℕ := 0xEF53

/-- `EXT2_S_IFDIR`. -/
def ext2SIfdir : ℕ := 0x4000

/-- Where the superblock lies. -/
def sbOffset : ℕ := 1024

/-- `ext2_fs_t`. -/
structure Ext2Fs where
  image : Image
  blockSize : ℕ
  inodeSize : ℕ
  blockSize_le : blockSize ≤ 2 ^ 31
  inodeSize_lt : inodeSize < 2 ^ 16

namespace Ext2Fs

theorem blockSize_lt (fs : Ext2Fs) : fs.blockSize < 2 ^ 32 := lt_of_le_of_lt fs.blockSize_le (by norm_num)

/-- `fs->sb->inodes_per_group`. -/
def inodesPerGroup (fs : Ext2Fs) : Except Fault ℕ := fs.image.load 4 (sbOffset + 40)

/-- `ext2_block_ptr`. -/
def blockPtr (fs : Ext2Fs) (block : ℕ) : Option ℕ :=
  let offset := mul32 block fs.blockSize
  if offset ≥ fs.image.size then none else some offset

/-- The offset that `ext2_bg_desc` checks. -/
def descOffset (fs : Ext2Fs) (group : ℕ) : ℕ :=
  add32 (if fs.blockSize = 1024 then mul32 fs.blockSize 2 else fs.blockSize) (mul32 group 32)

/-- `ext2_bg_desc`. -/
def bgDesc (fs : Ext2Fs) (group : ℕ) : Option ℕ :=
  if add32 (fs.descOffset group) 32 > fs.image.size then none else some (fs.descOffset group)

/-- The offset that `ext2_get_inode` checks. -/
def inodeOffset (fs : Ext2Fs) (tableBlock index : ℕ) : ℕ :=
  add32 (mul32 tableBlock fs.blockSize) (mul32 index fs.inodeSize)

/-- `ext2_get_inode`. -/
def getInode (fs : Ext2Fs) (inode : ℕ) : Except Fault (Option ℕ) :=
  if inode = 0 then .ok none
  else do
    let perGroup ← fs.inodesPerGroup
    if perGroup = 0 then .error .divZero
    else
      match fs.bgDesc ((inode - 1) / perGroup) with
      | none => .ok none
      | some bgd => do
        let tableBlock ← fs.image.load 4 (bgd + 8)
        let offset := fs.inodeOffset tableBlock ((inode - 1) % perGroup)
        if add32 offset fs.inodeSize > fs.image.size then .ok none else .ok (some offset)

/-- `inode->mode`. -/
def inodeMode (fs : Ext2Fs) (inode : ℕ) : Except Fault ℕ := fs.image.load 2 inode

/-- `inode->size`. -/
def inodeLength (fs : Ext2Fs) (inode : ℕ) : Except Fault ℕ := fs.image.load 4 (inode + 4)

/-- `inode->block[i]`. -/
def inodeBlock (fs : Ext2Fs) (inode i : ℕ) : Except Fault ℕ := fs.image.load 4 (inode + 40 + 4 * i)

/-- `ext2_get_data_block`. -/
def getDataBlock (fs : Ext2Fs) (inode blockIndex : ℕ) : Except Fault ℕ :=
  if blockIndex < 12 then fs.inodeBlock inode blockIndex
  else
    let idx := blockIndex - 12
    if idx < fs.blockSize / 4 then do
      let indirect ← fs.inodeBlock inode 12
      if indirect = 0 then .ok 0
      else
        match fs.blockPtr indirect with
        | none => .ok 0
        | some indir => fs.image.load 4 (indir + 4 * idx)
    else .ok 0

/-! ### Files -/

/-- The variables of the loop in `ext2_read_file`. -/
structure ReadState where
  copied : ℕ
  blockIndex : ℕ
  blockOffset : ℕ
  buffer : ℕ → UInt8

/-- Put a chunk into the buffer and go to the next block. -/
def ReadState.put (s : ReadState) (src : List UInt8) : ReadState where
  copied := add32 s.copied src.length
  blockIndex := add32 s.blockIndex 1
  blockOffset := 0
  buffer := copyIn s.buffer s.copied src

/-- The loop of `ext2_read_file`. A pass copies at least one byte, so that `size` passes
are enough. -/
def readLoop (fs : Ext2Fs) (inode size : ℕ) : ℕ → ReadState → Except Fault ReadState
  | 0, s => .ok s
  | fuel + 1, s =>
    if s.copied < size then do
      let blk ← fs.getDataBlock inode s.blockIndex
      let chunk := min (sub32 fs.blockSize s.blockOffset) (sub32 size s.copied)
      if blk = 0 then readLoop fs inode size fuel (s.put (List.replicate chunk 0))
      else
        match fs.blockPtr blk with
        | none => .ok s
        | some blkPtr => do
          let src ← fs.image.slice (blkPtr + s.blockOffset) chunk
          readLoop fs inode size fuel (s.put src)
    else .ok s

/-- `ext2_read_file`: the return value and the buffer afterwards. -/
def readFile (fs : Ext2Fs) (inode : Option ℕ) (offset size : ℕ) (buffer : ℕ → UInt8) :
    Except Fault (ℤ × (ℕ → UInt8)) :=
  match inode with
  | none => .ok (-1, buffer)
  | some ino => do
    let length ← fs.inodeLength ino
    if offset ≥ length then .ok (0, buffer)
    else
      let size' := if add32 offset size > length then sub32 length offset else size
      if fs.blockSize = 0 then .error .divZero
      else do
        let s ← fs.readLoop ino size' size' ⟨0, offset / fs.blockSize, offset % fs.blockSize, buffer⟩
        .ok (toInt32 s.copied, s.buffer)

/-- `ext2_read` on the node of an inode. -/
def read (fs : Ext2Fs) (inode offset size : ℕ) (buffer : ℕ → UInt8) : Except Fault (ℤ × (ℕ → UInt8)) := do
  match ← fs.getInode inode with
  | none => .ok (-1, buffer)
  | some ino => do
    let mode ← fs.inodeMode ino
    if mode &&& ext2SIfdir ≠ 0 then .ok (-1, buffer) else fs.readFile (some ino) offset size buffer

end Ext2Fs

/-! ### Nodes -/

/-- A `vfs_node_t` of this driver with its `ext2_handle_t`. -/
structure Ext2Node where
  inode : ℕ
  isDir : Bool
  length : ℕ
  name : Name

namespace Ext2Fs

/-- `ext2_make_node`; a `kmalloc` that returns does not return `NULL`. -/
def makeNode (fs : Ext2Fs) (inodeNo : ℕ) (name : Name) : Except Fault (Option Ext2Node) := do
  match ← fs.getInode inodeNo with
  | none => .ok none
  | some inode => do
    let length ← fs.inodeLength inode
    let mode ← fs.inodeMode inode
    .ok (some ⟨inodeNo, decide (mode &&& 0xF000 = ext2SIfdir), length, name.take 63⟩)

/-- The root node of `ext2_mount`. -/
def rootNode (length : ℕ) : Ext2Node := ⟨2, true, length, [slash]⟩

end Ext2Fs

theorem shift_le (e : ℕ) : 1024 * 2 ^ e % 2 ^ 32 ≤ 2 ^ 31 := by
  rcases Nat.lt_or_ge e 22 with h | h
  · have h1 : 1024 * 2 ^ e ≤ 1024 * 2 ^ 21 := Nat.mul_le_mul_left _ (Nat.pow_le_pow_right (by norm_num) (by omega))
    exact (Nat.mod_le _ _).trans (h1.trans (by norm_num))
  · -- the bit is shifted out
    obtain ⟨k, rfl⟩ := Nat.exists_eq_add_of_le h
    have h1 : 1024 * 2 ^ (22 + k) = 2 ^ 32 * 2 ^ k := by
      rw [pow_add]
      ring
    rw [h1, Nat.mul_mod_right]
    exact Nat.zero_le _

/-- `ext2_create_fs`. The shift count is taken modulo 32, as the processor does. -/
def ext2CreateFs (image : Image) : Except Fault (Option Ext2Fs) :=
  if image.size < 2048 then .ok none
  else do
    let magic ← image.load 2 (sbOffset + 56)
    if magic ≠ ext2SuperMagic then .ok none
    else do
      let logBlockSize ← image.load 4 (sbOffset + 24)
      let inodeSize ← image.load 2 (sbOffset + 88)
      .ok (some {
        image := image
        blockSize := 1024 * 2 ^ (logBlockSize % 32) % 2 ^ 32
        inodeSize := (if inodeSize ≠ 0 then inodeSize else 128) % 2 ^ 16
        blockSize_le := shift_le _
        inodeSize_lt := Nat.mod_lt _ (by norm_num) })

/-- `ext2_mount`: the file system and its root. -/
def ext2Mount (image : Image) : Except Fault (Option (Ext2Fs × Ext2Node)) := do
  match ← ext2CreateFs image with
  | none => .ok none
  | some fs =>
    match ← fs.getInode 2 with
    | none => .ok (some (fs, Ext2Fs.rootNode 0))
    | some inode => do
      let length ← fs.inodeLength inode
      .ok (some (fs, Ext2Fs.rootNode length))

namespace Ext2Fs

/-! ### Directories -/

/-- `d->inode`. -/
def direntInode (fs : Ext2Fs) (d : ℕ) : Except Fault ℕ := fs.image.load 4 d

/-- `d->rec_len`. -/
def direntRecLen (fs : Ext2Fs) (d : ℕ) : Except Fault ℕ := fs.image.load 2 (d + 4)

/-- `d->name_len`. -/
def direntNameLen (fs : Ext2Fs) (d : ℕ) : Except Fault ℕ := fs.image.load 1 (d + 6)

/-- `d->inode && d->name_len && d->rec_len`. -/
def direntLive (fs : Ext2Fs) (d : ℕ) : Except Fault Bool := do
  let inode ← fs.direntInode d
  if inode = 0 then .ok false
  else do
    let nameLen ← fs.direntNameLen d
    if nameLen = 0 then .ok false
    else do
      let recLen ← fs.direntRecLen d
      .ok (decide (recLen ≠ 0))

variable {ρ σ : Type}

/-- The loop over the records of a block, which `ext2_readdir` and `ext2_finddir` share: `visit`
is called with the live records. A pass goes on by at least one byte. -/
def scanBlock (fs : Ext2Fs) (visit : ℕ → σ → Except Fault (Flow ρ σ)) (blkPtr : ℕ) :
    ℕ → ℕ → σ → Except Fault (Flow ρ σ)
  | 0, _, s => .ok (.next s)
  | fuel + 1, offset, s =>
    if offset < fs.blockSize then do
      let d := blkPtr + offset
      let live ← fs.direntLive d
      let flow ← (if live then visit d s else .ok (.next s) : Except Fault (Flow ρ σ))
      match flow with
      | .ret r => .ok (.ret r)
      | .next s' => do
        let recLen ← fs.direntRecLen d
        if recLen = 0 then .ok (.next s') else scanBlock fs visit blkPtr fuel (add32 offset recLen) s'
    else .ok (.next s)

/-- The loop over the direct blocks from `b` on. -/
def scanDir (fs : Ext2Fs) (inode : ℕ) (visit : ℕ → σ → Except Fault (Flow ρ σ)) :
    ℕ → ℕ → σ → Except Fault (Flow ρ σ)
  | 0, _, s => .ok (.next s)
  | k + 1, b, s => do
    let blk ← fs.inodeBlock inode b
    if blk = 0 then scanDir fs inode visit k (b + 1) s
    else
      match fs.blockPtr blk with
      | none => scanDir fs inode visit k (b + 1) s
      | some blkPtr => do
        let flow ← fs.scanBlock visit blkPtr fs.blockSize 0 s
        match flow with
        | .ret r => .ok (.ret r)
        | .next s' => scanDir fs inode visit k (b + 1) s'

/-- `vfs_dirent_t`. -/
structure Dirent where
  name : Name
  inode : ℕ
  deriving DecidableEq

/-- The characters of `"dev"`. -/
def devName : Name := [100, 101, 118]

/-- What `ext2_readdir` does with a live record. -/
def readdirVisit (fs : Ext2Fs) (index d seen : ℕ) : Except Fault (Flow Dirent ℕ) :=
  if seen = index then do
    let nameLen ← fs.direntNameLen d
    let name ← fs.image.slice (d + 8) (if nameLen < 255 then nameLen else 255)
    let inode ← fs.direntInode d
    .ok (.ret ⟨name, inode⟩)
  else .ok (.next (add32 seen 1))

/-- `ext2_readdir` on the node of an inode; `none` is `-1`. -/
def readdir (fs : Ext2Fs) (inode index : ℕ) : Except Fault (Option Dirent) := do
  match ← fs.getInode inode with
  | none => .ok none
  | some ino => do
    let mode ← fs.inodeMode ino
    if mode &&& ext2SIfdir = 0 then .ok none
    else do
      let flow ← fs.scanDir ino (fs.readdirVisit index) 12 0 0
      match flow with
      | .ret dirent => .ok (some dirent)
      | .next seen => if inode = 2 ∧ index = seen then .ok (some ⟨devName, 0⟩) else .ok none

/-- `strncmp(s1, name, n) == 0` for a string `s1` in the image and a `name` of length `n`. -/
def nameEq (fs : Ext2Fs) (s1 : ℕ) : Name → Except Fault Bool
  | [] => .ok true
  | c :: name => do
    let x ← fs.image.load 1 s1
    if x ≠ 0 ∧ x = c.toNat then nameEq fs (s1 + 1) name else .ok (decide (x = c.toNat))

/-- What `ext2_finddir` returns. -/
inductive FindResult where
  | null
  | devfsRoot
  | node (n : Ext2Node)

/-- What `ext2_finddir` does with a live record. -/
def finddirVisit (fs : Ext2Fs) (name : Name) (d : ℕ) (s : Unit) :
    Except Fault (Flow (Option Ext2Node) Unit) := do
  let nameLen ← fs.direntNameLen d
  if nameLen = name.length then do
    let eq ← fs.nameEq (d + 8) name
    if eq then do
      let inode ← fs.direntInode d
      let node ← fs.makeNode inode name
      .ok (.ret node)
    else .ok (.next s)
  else .ok (.next s)

/-- `ext2_finddir` on the node of an inode. -/
def finddir (fs : Ext2Fs) (inode : ℕ) (name : Name) : Except Fault FindResult := do
  match ← fs.getInode inode with
  | none => .ok .null
  | some ino => do
    let mode ← fs.inodeMode ino
    if mode &&& ext2SIfdir = 0 then .ok .null
    else if inode = 2 ∧ name = devName then .ok .devfsRoot
    else do
      let flow ← fs.scanDir ino (fs.finddirVisit name) 12 0 ()
      match flow with
      | .ret (some node) => .ok (.node node)
      | .ret none => .ok .null
      | .next _ => .ok .null

end Ext2Fs

end Saynaa
