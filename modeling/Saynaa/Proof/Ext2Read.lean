import Saynaa.Spec.Ext2

/-!
# `ext2_read_file` and the block map

* `getDataBlock_layout`: the driver follows the block map up to the single indirect block; from
  there on, all blocks are holes to it.
* `ReadInv.put`: a pass of the loop copies the file as the driver sees it.
* `readFile_layout`: what a read returns.
* `read_file_iff`: it is the file's content iff the bytes behind the single indirect block are zero.
-/

namespace Saynaa.Ext2Fs

open Lib

variable {fs : Ext2Fs} {ino b i k offset size length fuel : ℕ} {buffer : ℕ → UInt8} {s : ReadState}

namespace Ext2Layout

theorem blockSize_pos (h : Ext2Layout fs ino) : 0 < fs.blockSize := by
  obtain ⟨e, he⟩ := h.blockSize_eq
  rw [he]
  positivity

end Ext2Layout

theorem InRange.fits (h : fs.InRange b) (hb : b ≠ 0) : b * fs.blockSize + fs.blockSize ≤ fs.image.size := by
  have h1 := h hb
  rwa [add_mul, one_mul] at h1

/-- The pointer to a block in the image. -/
theorem InRange.blockPtr (h : fs.InRange b) (hb : b ≠ 0) (hbs : 0 < fs.blockSize) :
    fs.blockPtr b = some (b * fs.blockSize) := by
  have h1 := h.fits hb
  have h2 := fs.image.size_lt
  have h3 : mul32 b fs.blockSize = b * fs.blockSize := Nat.mod_eq_of_lt (by omega)
  unfold Ext2Fs.blockPtr
  rw [h3]
  exact if_neg (by omega)

/-- The blocks that the driver sees. -/
def codeBlock (fs : Ext2Fs) (ino i : ℕ) : ℕ := if i < 12 + fs.perBlock then fs.fileBlock ino i else 0

theorem fileBlock_direct (hi : i < 12) : fs.fileBlock ino i = fs.ptr ino i := if_pos hi

theorem fileBlock_single (h12 : 12 ≤ i) (hi : i < 12 + fs.perBlock) :
    fs.fileBlock ino i = fs.entry (fs.ptr ino 12) (i - 12) := by
  unfold fileBlock
  simp only
  rw [if_neg (by omega), if_pos hi]
  simp [descend]

theorem codeBlock_inRange (h : Ext2Layout fs ino) (i : ℕ) : fs.InRange (fs.codeBlock ino i) := by
  unfold codeBlock
  split_ifs with hi
  · by_cases h12 : i < 12
    · rw [fileBlock_direct h12]
      exact h.direct i h12
    · rw [fileBlock_single (by omega) hi]
      by_cases h0 : fs.ptr ino 12 = 0
      · rw [h0]
        exact fun hne => absurd rfl hne
      · exact h.single.2 h0 (i - 12) (by omega)
  · exact fun hne => absurd rfl hne

theorem inodeBlock_layout (h : Ext2Layout fs ino) (hi : i < 15) : fs.inodeBlock ino i = .ok (fs.ptr ino i) := by
  have h1 := h.inode
  exact Region.load_ok (by omega)

/-- **The driver's block map.** -/
theorem getDataBlock_layout (h : Ext2Layout fs ino) (i : ℕ) : fs.getDataBlock ino i = .ok (fs.codeBlock ino i) := by
  unfold getDataBlock codeBlock
  by_cases h12 : i < 12
  · rw [if_pos h12, if_pos (by omega), fileBlock_direct h12]
    exact inodeBlock_layout h (by omega)
  rw [if_neg h12]
  by_cases hi : i < 12 + fs.perBlock
  · have hidx : i - 12 < fs.blockSize / 4 := by
      unfold perBlock at hi
      omega
    simp only
    rw [if_pos hidx, if_pos hi, inodeBlock_layout h (by norm_num), ok_bind, fileBlock_single (by omega) hi]
    unfold entry
    split_ifs with h0
    · rfl
    · have hin := h.single.1
      have h1 := hin.fits h0
      rw [hin.blockPtr h0 h.blockSize_pos]
      exact Region.load_ok (by omega)
  · have hidx : ¬ i - 12 < fs.blockSize / 4 := by
      unfold perBlock at hi
      omega
    simp only
    rw [if_neg hidx, if_neg hi]

/-- The file as the driver sees it. -/
def codeByte (fs : Ext2Fs) (ino pos : ℕ) : UInt8 :=
  fs.blockByte (fs.codeBlock ino (pos / fs.blockSize)) (pos % fs.blockSize)

/-- A piece of one block. -/
theorem copyOut_codeByte (hbs : 0 < fs.blockSize) {pos n : ℕ} (hn : pos % fs.blockSize + n ≤ fs.blockSize) :
    copyOut (fs.codeByte ino) pos n =
      copyOut (fs.blockByte (fs.codeBlock ino (pos / fs.blockSize))) (pos % fs.blockSize) n := by
  unfold copyOut
  refine List.map_congr_left fun j hj => ?_
  have hj' := List.mem_range.1 hj
  have hdm := Nat.div_add_mod pos fs.blockSize
  have h1 : pos + j = pos % fs.blockSize + j + fs.blockSize * (pos / fs.blockSize) := by omega
  unfold codeByte
  rw [h1, Nat.add_mul_div_left _ _ hbs, Nat.div_eq_of_lt (by omega), zero_add, Nat.add_mul_mod_self_left,
    Nat.mod_eq_of_lt (by omega)]

/-! ### The loop -/

/-- The first `copied` bytes are in the buffer, and the loop stands behind them. -/
structure ReadInv (fs : Ext2Fs) (ino offset size : ℕ) (buffer : ℕ → UInt8) (s : ReadState) : Prop where
  copied : s.copied ≤ size
  index : s.copied < size → s.blockIndex = (offset + s.copied) / fs.blockSize
  inBlock : s.copied < size → s.blockOffset = (offset + s.copied) % fs.blockSize
  buffer : s.buffer = copyIn buffer 0 (copyOut (fs.codeByte ino) offset s.copied)

/-- How much a pass copies. -/
def ReadState.chunk (fs : Ext2Fs) (size : ℕ) (s : ReadState) : ℕ :=
  min (fs.blockSize - s.blockOffset) (size - s.copied)

/-- **A pass** puts a chunk of the file into the buffer. -/
theorem ReadInv.put (h : ReadInv fs ino offset size buffer s) (hbs : 0 < fs.blockSize) (hsum : offset + size < 2 ^ 32)
    (hlt : s.copied < size) :
    ReadInv fs ino offset size buffer (s.put (copyOut (fs.codeByte ino) (offset + s.copied) (s.chunk fs size))) := by
  set c := s.chunk fs size with hc
  have hr := h.inBlock hlt
  have hmod := Nat.mod_lt (offset + s.copied) hbs
  have hle : s.copied + c ≤ size := by
    have h1 : c ≤ size - s.copied := min_le_right _ _
    omega
  have hcopied : (s.put (copyOut (fs.codeByte ino) (offset + s.copied) c)).copied = s.copied + c := by
    show add32 s.copied (copyOut (fs.codeByte ino) (offset + s.copied) c).length = _
    rw [length_copyOut]
    exact add32_of_lt (by omega)
  -- unless this was the last pass, the chunk goes up to the end of the block
  have hfull : s.copied + c < size →
    offset + (s.copied + c) = fs.blockSize * ((offset + s.copied) / fs.blockSize + 1) := by
    intro hlt'
    have hdm := Nat.div_add_mod (offset + s.copied) fs.blockSize
    have h1 : c = fs.blockSize - s.blockOffset := by
      rcases min_choice (fs.blockSize - s.blockOffset) (size - s.copied) with h2 | h2
      · exact hc.trans h2
      · have h3 : c = size - s.copied := hc.trans h2
        omega
    rw [mul_add, mul_one]
    omega
  refine ⟨by rwa [hcopied], fun hlt' => ?_, fun hlt' => ?_, ?_⟩
  · rw [hcopied] at hlt' ⊢
    rw [hfull hlt', Nat.mul_div_cancel_left _ hbs]
    show add32 s.blockIndex 1 = _
    have h1 := Nat.div_le_self (offset + s.copied) fs.blockSize
    rw [h.index hlt]
    exact add32_of_lt (by omega)
  · rw [hcopied] at hlt' ⊢
    rw [hfull hlt', Nat.mul_mod_right]
    rfl
  · rw [hcopied, copyOut_add, ← copyIn_append, length_copyOut, ← h.buffer, zero_add]
    rfl

/-- **The loop** copies everything. -/
theorem readLoop_post (hlay : Ext2Layout fs ino) (hsum : offset + size < 2 ^ 32) (hfuel : size - s.copied ≤ fuel)
    (h : ReadInv fs ino offset size buffer s) :
    Post (fs.readLoop ino size fuel s) fun s' => ReadInv fs ino offset size buffer s' ∧ s'.copied = size := by
  have hbs := hlay.blockSize_pos
  have hbslt := fs.blockSize_lt
  induction fuel generalizing s with
  | zero =>
    have h1 := h.copied
    exact Post.pure ⟨h, by omega⟩
  | succ fuel ih =>
    unfold readLoop
    by_cases hlt : s.copied < size
    swap
    · rw [if_neg hlt]
      have h1 := h.copied
      exact Post.pure ⟨h, by omega⟩
    rw [if_pos hlt]
    have hr := h.inBlock hlt
    have hmod := Nat.mod_lt (offset + s.copied) hbs
    have hchunk : min (sub32 fs.blockSize s.blockOffset) (sub32 size s.copied) = s.chunk fs size := by
      rw [sub32_of_le (by omega) hbslt, sub32_of_le (by omega) (by omega)]
      rfl
    have hle : s.chunk fs size ≤ fs.blockSize - s.blockOffset := min_le_left _ _
    have hpos : 0 < s.chunk fs size := lt_min (by omega) (by omega)
    have hput := h.put hbs hsum hlt
    have hnext : copyOut (fs.codeByte ino) (offset + s.copied) (s.chunk fs size)
        = copyOut (fs.blockByte (fs.codeBlock ino ((offset + s.copied) / fs.blockSize)))
          ((offset + s.copied) % fs.blockSize) (s.chunk fs size) := copyOut_codeByte hbs (by omega)
    have hfuel' : size - (s.put (copyOut (fs.codeByte ino) (offset + s.copied) (s.chunk fs size))).copied ≤ fuel := by
      show size - add32 s.copied (copyOut (fs.codeByte ino) (offset + s.copied) (s.chunk fs size)).length ≤ fuel
      have h1 : s.chunk fs size ≤ size - s.copied := min_le_right _ _
      rw [length_copyOut, add32_of_lt (by omega)]
      omega
    rw [h.index hlt, getDataBlock_layout hlay, ok_bind, hchunk]
    have hrec := ih hfuel' hput
    rw [hnext] at hrec
    set blk := fs.codeBlock ino ((offset + s.copied) / fs.blockSize) with hblk
    simp only
    by_cases h0 : blk = 0
    · rw [if_pos h0]
      -- a hole
      have hzero : copyOut (fs.blockByte blk) ((offset + s.copied) % fs.blockSize) (s.chunk fs size)
          = List.replicate (s.chunk fs size) 0 := by
        rw [h0]
        exact List.ext_getElem (by simp) fun j _ _ => by simp [copyOut, blockByte]
      rwa [hzero] at hrec
    · rw [if_neg h0]
      have hin := codeBlock_inRange hlay ((offset + s.copied) / fs.blockSize)
      have hfits := hin.fits h0
      rw [hin.blockPtr h0 hbs]
      simp only
      rw [Region.slice_ok (by omega), ok_bind, hr]
      have hbytes : copyOut (fs.blockByte blk) ((offset + s.copied) % fs.blockSize) (s.chunk fs size)
          = copyOut fs.image.bytes (blk * fs.blockSize + (offset + s.copied) % fs.blockSize) (s.chunk fs size) := by
        unfold copyOut
        refine List.map_congr_left fun j _ => ?_
        show (if blk = 0 then 0 else _) = _
        rw [if_neg h0, add_assoc]
      rwa [hbytes] at hrec

/-! ### Reads -/

/-- How many bytes a read should return. -/
def readCount (fs : Ext2Fs) (ino offset size : ℕ) : ℕ := min size (fs.fileSize ino - offset)

theorem readFile_layout (hlay : Ext2Layout fs ino) (hsum : offset + size < 2 ^ 32) (buffer : ℕ → UInt8) :
    fs.readFile (some ino) offset size buffer = .ok (toInt32 (fs.readCount ino offset size),
      copyIn buffer 0 (copyOut (fs.codeByte ino) offset (fs.readCount ino offset size))) := by
  have hin := hlay.inode
  have hbs := hlay.blockSize_pos
  have hload : fs.inodeLength ino = .ok (fs.fileSize ino) := Region.load_ok (by omega)
  have hlen : fs.fileSize ino < 2 ^ 32 := load_lt
  unfold readFile
  simp only
  rw [hload, ok_bind]
  by_cases hend : offset ≥ fs.fileSize ino
  · have hcount : fs.readCount ino offset size = 0 := by
      unfold readCount
      omega
    rw [if_pos hend, hcount]
    exact congrArg (fun q => Except.ok (0, q)) (copyIn_nil buffer 0).symm
  · have hsize : (if add32 offset size > fs.fileSize ino then sub32 (fs.fileSize ino) offset else size)
        = fs.readCount ino offset size := by
      unfold readCount
      rw [add32_of_lt hsum, sub32_of_le (by omega) hlen]
      split_ifs <;> omega
    rw [if_neg hend, hsize, if_neg (by omega)]
    set n := fs.readCount ino offset size with hn
    have hle : n ≤ size := min_le_left _ _
    have hstart : ReadInv fs ino offset n buffer ⟨0, offset / fs.blockSize, offset % fs.blockSize, buffer⟩ :=
      ⟨Nat.zero_le n, fun _ => rfl, fun _ => rfl, (copyIn_nil buffer 0).symm⟩
    obtain ⟨s, hs, hinv, hcopied⟩ := readLoop_post hlay (by omega) (Nat.sub_le n 0) hstart
    rw [hs, ok_bind, hcopied]
    congr 2
    rw [hinv.buffer, hcopied]

/-- **The content of files.** A read returns the file's bytes iff their number is an `ssize_t` and the
blocks behind the single indirect one have only zeros in this range. -/
theorem read_file_iff (hlay : Ext2Layout fs ino) (hsum : offset + size < 2 ^ 32) (buffer : ℕ → UInt8) :
    fs.readFile (some ino) offset size buffer = .ok ((fs.readCount ino offset size : ℤ),
        copyIn buffer 0 (fs.fileBytes ino offset (fs.readCount ino offset size))) ↔
      fs.readCount ino offset size < 2 ^ 31 ∧
        ∀ pos, offset ≤ pos → pos < offset + fs.readCount ino offset size → (12 + fs.perBlock) * fs.blockSize ≤ pos →
          fs.fileByte ino pos = 0 := by
  have hbs := hlay.blockSize_pos
  rw [readFile_layout hlay hsum]
  set n := fs.readCount ino offset size with hn
  have hle : n ≤ size := min_le_left _ _
  have hret : toInt32 n = n ↔ n < 2 ^ 31 := by
    unfold toInt32
    split_ifs <;> omega
  -- the bytes that the driver sees are those of the file, or zeros from the double indirect blocks on
  have hbyte : ∀ pos, fs.codeByte ino pos = fs.fileByte ino pos ↔
      ((12 + fs.perBlock) * fs.blockSize ≤ pos → fs.fileByte ino pos = 0) := by
    intro pos
    have hdiv := Nat.le_div_iff_mul_le (x := 12 + fs.perBlock) (y := pos) hbs
    by_cases hfar : (12 + fs.perBlock) * fs.blockSize ≤ pos
    · have hcode : fs.codeByte ino pos = 0 := by
        unfold codeByte codeBlock
        rw [if_neg (Nat.not_lt.2 (hdiv.2 hfar))]
        rfl
      rw [hcode]
      exact ⟨fun h _ => h.symm, fun h => (h hfar).symm⟩
    · have hcode : fs.codeByte ino pos = fs.fileByte ino pos := by
        unfold codeByte codeBlock fileByte
        rw [if_pos (Nat.lt_of_not_le fun h => hfar (hdiv.1 h))]
      exact ⟨fun _ h => absurd h hfar, fun _ => hcode⟩
  have hlist : copyOut (fs.codeByte ino) offset n = fs.fileBytes ino offset n ↔
      ∀ pos, offset ≤ pos → pos < offset + n → fs.codeByte ino pos = fs.fileByte ino pos := by
    unfold fileBytes copyOut
    rw [List.map_inj_left]
    constructor
    · intro h pos h1 h2
      have h3 := h (pos - offset) (List.mem_range.2 (by omega))
      rwa [Nat.add_sub_cancel' h1] at h3
    · intro h j hj
      exact h (offset + j) (by omega) (by have := List.mem_range.1 hj; omega)
  rw [Except.ok.injEq, Prod.mk.injEq, hret, copyIn_inj (by simp [fileBytes]), hlist]
  refine and_congr_right fun _ => ⟨fun h pos h1 h2 h3 => (hbyte pos).1 (h pos h1 h2) h3, fun h pos h1 h2 => ?_⟩
  exact (hbyte pos).2 (h pos h1 h2)

/-- A file with its first block and, behind many holes, one byte below the double indirect block. -/
def farImage : Image where
  size := 8192
  bytes i :=
    if 4096 ≤ i then
      -- of these blocks, only the first byte is not zero
      if i % 1024 = 0 then (List.lookup i [(4096, 5), (5120, 6), (6144, 42), (7168, 9)]).getD 0 else 0
    else (List.lookup i [(1064, 8), (1080, 0x53), (1081, 0xEF), (1112, 128), (2056, 3), (3329, 0x80), (3332, 1),
      (3333, 0x30), (3334, 4), (3368, 7), (3420, 4)]).getD 0
  size_lt := size_8192

/-- What `ext2_mount` finds in it. -/
def farFs : Ext2Fs := ⟨farImage, 1024, 128, block_1024, inode_128⟩

theorem farFs_layout : Ext2Layout farFs 3328 := by
  refine ⟨⟨0, rfl⟩, by decide, fun i hi => ?_, ?_, ?_, ?_⟩
  · interval_cases i <;> decide +kernel
  · decide +kernel
  · decide +kernel
  · decide +kernel

theorem read_file_first : farFs.readFile (some 3328) 0 2 (fun _ => 1) = .ok (2, copyIn (fun _ => 1) 0 [9, 0]) := by
  have hlist : farFs.fileBytes 3328 0 2 = [9, 0] := by decide +kernel
  have hcount : farFs.readCount 3328 0 2 = 2 := by decide +kernel
  have hiff := read_file_iff farFs_layout (show 0 + 2 < 2 ^ 32 by norm_num) fun _ => 1
  rw [hcount, hlist] at hiff
  refine hiff.2 ⟨by norm_num, fun pos _ h1 h2 => ?_⟩
  have h3 : (12 + farFs.perBlock) * farFs.blockSize = 274432 := by decide +kernel
  omega

/-- The byte below the double indirect block reads as a zero. -/
theorem read_file_far : ext2Mount farImage = .ok (some (farFs, rootNode 0)) ∧ farFs.getInode 3 = .ok (some 3328) ∧
    Ext2Layout farFs 3328 ∧ farFs.fileBytes 3328 274432 1 = [42] ∧
    ∃ q, farFs.readFile (some 3328) 274432 1 (fun _ => 1) = .ok (1, q) ∧ q 0 = 0 := by
  have hread := readFile_layout farFs_layout (show 274432 + 1 < 2 ^ 32 by norm_num) fun _ => 1
  have hcount : farFs.readCount 3328 274432 1 = 1 := by decide +kernel
  rw [hcount] at hread
  exact ⟨rfl, rfl, farFs_layout, by decide +kernel, _, hread, by decide +kernel⟩

end Saynaa.Ext2Fs
