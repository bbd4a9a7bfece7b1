import Saynaa.Proof.Ext2Read

/-!
# `ext2_read_file`, byte by byte

* `chunkAt`, `bytesFrom`: what the driver finds in a piece of a block, and from a position on. A block
  outside of the image ends the file there.
* `readLoop_bytes`, `readFile_bytes`: a read returns these bytes, whatever the image holds.
* `read_bounded_iff`: it stops at the end of the file iff the clamp does not wrap around, or the file
  is cut before.
* `read_pieces`: two reads in a row return what one read returns.
-/

namespace Saynaa.Ext2Fs

open Lib

variable {fs : Ext2Fs} {p pos offset size fuel n c m a b : ℕ} {buffer : ℕ → UInt8} {s : ReadState}

/-- A piece of the block that holds byte `pos` of the file, from this byte on; `none` is a block
outside of the image. The block index is a `uint32_t`. -/
def chunkAt (fs : Ext2Fs) (p pos n : ℕ) : Except Fault (Option (List UInt8)) := do
  let blk ← fs.getDataBlock p (pos / fs.blockSize % 2 ^ 32)
  if blk = 0 then .ok (some (List.replicate n 0))
  else
    match fs.blockPtr blk with
    | none => .ok none
    | some ptr => do
      let src ← fs.image.slice (ptr + pos % fs.blockSize) n
      .ok (some src)

/-- The next `n` bytes of the file, or those up to a block outside of the image. -/
def bytesFrom (fs : Ext2Fs) (p : ℕ) : ℕ → ℕ → Except Fault (List UInt8)
  | _, 0 => .ok []
  | pos, n + 1 => do
    match ← fs.chunkAt p pos 1 with
    | none => .ok []
    | some b => do
      let rest ← bytesFrom fs p (pos + 1) n
      .ok (b ++ rest)

/-- The file is cut at `pos`: the block there is outside of the image. -/
def CutAt (fs : Ext2Fs) (p pos : ℕ) : Prop :=
  ∃ blk, fs.getDataBlock p (pos / fs.blockSize % 2 ^ 32) = .ok blk ∧ blk ≠ 0 ∧ fs.blockPtr blk = none

theorem bytesFrom_succ (pos n : ℕ) : fs.bytesFrom p pos (n + 1) = (do
    match ← fs.chunkAt p pos 1 with
    | none => .ok []
    | some b => do
      let rest ← fs.bytesFrom p (pos + 1) n
      .ok (b ++ rest)) := rfl

/-! ### Pieces of a block -/

/-- The next byte is in the same block. -/
theorem pos_succ (h : pos % fs.blockSize + 1 < fs.blockSize) :
    (pos + 1) / fs.blockSize = pos / fs.blockSize ∧ (pos + 1) % fs.blockSize = pos % fs.blockSize + 1 := by
  have hdm := Nat.div_add_mod pos fs.blockSize
  have h1 : pos + 1 = pos % fs.blockSize + 1 + fs.blockSize * (pos / fs.blockSize) := by omega
  constructor
  · rw [h1, Nat.add_mul_div_left _ _ (by omega), Nat.div_eq_of_lt h, zero_add]
  · rw [h1, Nat.add_mul_mod_self_left, Nat.mod_eq_of_lt h]

/-- The result of a piece and of what follows it. -/
def joined (x : Except Fault (Option (List UInt8))) (y : Except Fault (List UInt8)) : Except Fault (List UInt8) := do
  match ← x with
  | none => .ok []
  | some l => do
    let rest ← y
    .ok (l ++ rest)

/-- One byte more in front of a piece. -/
theorem joined_succ (hc : pos % fs.blockSize + (c + 1) < fs.blockSize) (y : Except Fault (List UInt8)) :
    joined (fs.chunkAt p pos 1) (joined (fs.chunkAt p (pos + 1) (c + 1)) y) =
      joined (fs.chunkAt p pos (c + 2)) y := by
  obtain ⟨hdiv, hmod⟩ := pos_succ (show pos % fs.blockSize + 1 < fs.blockSize by omega)
  unfold chunkAt
  rw [hdiv, hmod]
  cases hblk : fs.getDataBlock p (pos / fs.blockSize % 2 ^ 32) with
  | error e => rfl
  | ok blk =>
    rw [ok_bind, ok_bind, ok_bind]
    by_cases h0 : blk = 0
    · -- a hole reads as zeros
      simp only [h0, if_true]
      cases y with
      | error e => rfl
      | ok l => simp [joined, ok_bind, List.replicate_succ]
    · simp only [if_neg h0]
      cases fs.blockPtr blk with
      | none => rfl
      | some ptr =>
        simp only
        by_cases hin : ptr + pos % fs.blockSize + (c + 2) ≤ fs.image.size
        · -- the block is in the image
          have h1 : ptr + pos % fs.blockSize + 1 ≤ fs.image.size := by omega
          have h2 : ptr + (pos % fs.blockSize + 1) + (c + 1) ≤ fs.image.size := by omega
          have hcat : copyOut fs.image.bytes (ptr + pos % fs.blockSize) (c + 2)
              = copyOut fs.image.bytes (ptr + pos % fs.blockSize) 1
                ++ copyOut fs.image.bytes (ptr + (pos % fs.blockSize + 1)) (c + 1) := by
            have h3 : c + 2 = 1 + (c + 1) := by omega
            rw [h3, copyOut_add _ _ 1 (c + 1), add_assoc ptr]
          rw [Region.slice_ok h1, Region.slice_ok h2, Region.slice_ok hin, hcat]
          cases y with
          | error e => rfl
          | ok l => simp only [joined, ok_bind, List.append_assoc]
        · -- the block is cut off by the end of the image
          have h2 : ¬ ptr + (pos % fs.blockSize + 1) + (c + 1) ≤ fs.image.size := by omega
          have h3 : fs.image.slice (ptr + pos % fs.blockSize) (c + 2) = .error .outside := if_neg hin
          have h4 : fs.image.slice (ptr + (pos % fs.blockSize + 1)) (c + 1) = .error .outside := if_neg h2
          rw [h3, h4]
          unfold Region.slice
          split_ifs <;> rfl

/-- **A piece of a block**, and what comes behind it. -/
theorem bytesFrom_chunk (hc : pos % fs.blockSize + (c + 1) ≤ fs.blockSize) (m : ℕ) :
    fs.bytesFrom p pos (c + 1 + m) = joined (fs.chunkAt p pos (c + 1)) (fs.bytesFrom p (pos + (c + 1)) m) := by
  induction c generalizing pos with
  | zero =>
    rw [zero_add, add_comm 1 m]
    rfl
  | succ c ih =>
    obtain ⟨-, hmod⟩ := pos_succ (show pos % fs.blockSize + 1 < fs.blockSize by omega)
    have h1 : c + 1 + 1 + m = c + 1 + m + 1 := by omega
    have h2 : pos + 1 + (c + 1) = pos + (c + 1 + 1) := by omega
    rw [h1, bytesFrom_succ, ih (by omega), h2, ← joined_succ (by omega)]
    rfl

/-! ### The loop -/

/-- The loop stands at byte `pos` of the file. -/
structure StandsAt (fs : Ext2Fs) (pos : ℕ) (s : ReadState) : Prop where
  index : s.blockIndex = pos / fs.blockSize % 2 ^ 32
  inBlock : s.blockOffset = pos % fs.blockSize

/-- Behind a chunk that ends with its block, the loop stands at the next one. -/
theorem StandsAt.put (h : fs.StandsAt pos s) {src : List UInt8} (hbs : 0 < fs.blockSize)
    (hend : pos % fs.blockSize + src.length = fs.blockSize) : fs.StandsAt (pos + src.length) (s.put src) := by
  have hdm := Nat.div_add_mod pos fs.blockSize
  have h1 : pos + src.length = fs.blockSize * (pos / fs.blockSize + 1) := by
    rw [mul_add, mul_one]
    omega
  constructor
  · show add32 s.blockIndex 1 = _
    rw [h1, Nat.mul_div_cancel_left _ hbs, h.index]
    unfold add32
    omega
  · show 0 = _
    rw [h1, Nat.mul_mod_right]

theorem nothing_read (s : ReadState) :
    (.ok s : Except Fault ReadState).map (fun s' => (s'.copied, s'.buffer)) =
      (.ok [] : Except Fault (List UInt8)).map fun l => (s.copied + l.length, copyIn s.buffer s.copied l) :=
  congrArg Except.ok (Prod.ext rfl (copyIn_nil s.buffer s.copied).symm)

/-- **The loop reads the bytes from `pos` on.** -/
theorem readLoop_bytes (hbs : 0 < fs.blockSize) (hsize : size < 2 ^ 32) (hle : s.copied ≤ size)
    (hfuel : size - s.copied ≤ fuel) (h : s.copied < size → fs.StandsAt pos s) :
    (fs.readLoop p size fuel s).map (fun s' => (s'.copied, s'.buffer)) =
      (fs.bytesFrom p pos (size - s.copied)).map fun l => (s.copied + l.length, copyIn s.buffer s.copied l) := by
  have hbslt := fs.blockSize_lt
  induction fuel generalizing s pos with
  | zero =>
    have h0 : size - s.copied = 0 := by omega
    rw [h0]
    exact nothing_read s
  | succ fuel ih =>
    unfold readLoop
    by_cases hlt : s.copied < size
    swap
    · have h0 : size - s.copied = 0 := by omega
      rw [if_neg hlt, h0]
      exact nothing_read s
    have hat := h hlt
    have hmod := Nat.mod_lt pos hbs
    rw [if_pos hlt, hat.index, hat.inBlock, sub32_of_le (by omega) hbslt, sub32_of_le (by omega) hsize]
    simp only
    obtain ⟨c, hc⟩ : ∃ c, min (fs.blockSize - pos % fs.blockSize) (size - s.copied) = c + 1 :=
      ⟨min (fs.blockSize - pos % fs.blockSize) (size - s.copied) - 1, by omega⟩
    rw [hc]
    -- one pass is one piece
    have hpass : ∀ src : List UInt8, src.length = c + 1 →
        (fs.readLoop p size fuel (s.put src)).map (fun s' => (s'.copied, s'.buffer)) =
          (joined (.ok (some src)) (fs.bytesFrom p (pos + (c + 1)) (size - s.copied - (c + 1)))).map
            fun l => (s.copied + l.length, copyIn s.buffer s.copied l) := by
      intro src hsrc
      have hcopied : (s.put src).copied = s.copied + (c + 1) := by
        rw [← hsrc]
        exact add32_of_lt (by omega)
      have hnext : (s.put src).copied < size → fs.StandsAt (pos + (c + 1)) (s.put src) := by
        intro hlt'
        rw [← hsrc]
        exact hat.put hbs (by omega)
      rw [ih (by omega) (by omega) hnext, hcopied, ← Nat.sub_sub]
      cases fs.bytesFrom p (pos + (c + 1)) (size - s.copied - (c + 1)) with
      | error e => rfl
      | ok l =>
        have hlen : s.copied + (c + 1) + l.length = s.copied + (src ++ l).length := by
          rw [List.length_append, hsrc, add_assoc]
        have hbuf : copyIn (s.put src).buffer (s.copied + (c + 1)) l = copyIn s.buffer s.copied (src ++ l) := by
          rw [← copyIn_append, hsrc]
          rfl
        exact congrArg Except.ok (Prod.ext hlen hbuf)
    have hsplit : size - s.copied = c + 1 + (size - s.copied - (c + 1)) := by omega
    rw [hsplit, bytesFrom_chunk (by omega)]
    unfold chunkAt
    cases fs.getDataBlock p (pos / fs.blockSize % 2 ^ 32) with
    | error e => rfl
    | ok blk =>
      rw [ok_bind, ok_bind]
      by_cases h0 : blk = 0
      · simp only [h0, if_true]
        exact hpass _ List.length_replicate
      · simp only [if_neg h0]
        cases fs.blockPtr blk with
        | none => exact nothing_read s
        | some ptr =>
          simp only
          unfold Region.slice
          split_ifs with hin
          · exact hpass _ (length_copyOut _ _ _)
          · rfl

/-! ### Reads -/

/-- The size of a read of a file of length `len`, after the clamp. -/
def clamped (len offset size : ℕ) : ℕ := if add32 offset size > len then sub32 len offset else size

/-- **A read inside of the file** returns the bytes that the driver finds. -/
theorem readFile_bytes {len : ℕ} (hbs : 0 < fs.blockSize) (hsize : size < 2 ^ 32) (hlen : fs.inodeLength p = .ok len)
    (hlt : len < 2 ^ 32) (hoff : offset < len) (buffer : ℕ → UInt8) :
    fs.readFile (some p) offset size buffer =
      (fs.bytesFrom p offset (clamped len offset size)).map fun l => (toInt32 l.length, copyIn buffer 0 l) := by
  have hn : clamped len offset size < 2 ^ 32 := by
    unfold clamped
    rw [sub32_of_le (by omega) hlt]
    split_ifs <;> omega
  have hstart : fs.StandsAt offset ⟨0, offset / fs.blockSize, offset % fs.blockSize, buffer⟩ := by
    have h1 := Nat.div_le_self offset fs.blockSize
    have h2 : offset / fs.blockSize % 2 ^ 32 = offset / fs.blockSize := Nat.mod_eq_of_lt (by omega)
    exact ⟨h2.symm, rfl⟩
  have hloop := readLoop_bytes (p := p) (s := ⟨0, offset / fs.blockSize, offset % fs.blockSize, buffer⟩) hbs hn
    (Nat.zero_le _) (Nat.sub_le _ _) fun _ => hstart
  simp only [Nat.sub_zero, zero_add] at hloop
  unfold readFile
  simp only
  rw [hlen, ok_bind, if_neg (Nat.not_le.2 hoff), if_neg (Nat.ne_of_gt hbs)]
  show ((fs.readLoop p (clamped len offset size) (clamped len offset size) _).bind fun s =>
    .ok (toInt32 s.copied, s.buffer)) = _
  -- the result is read off the pair of the loop
  have hpair : ∀ x : Except Fault ReadState, (x.bind fun s => .ok (toInt32 s.copied, s.buffer)) =
      (x.map fun s => (s.copied, s.buffer)).map fun y => (toInt32 y.1, y.2) := by
    intro x
    cases x <;> rfl
  rw [hpair, hloop]
  cases fs.bytesFrom p offset (clamped len offset size) <;> rfl

theorem readFile_behind {len : ℕ} (hlen : fs.inodeLength p = .ok len) (hoff : len ≤ offset) (size : ℕ)
    (buffer : ℕ → UInt8) : fs.readFile (some p) offset size buffer = .ok (0, buffer) := by
  unfold readFile
  simp only
  rw [hlen, ok_bind, if_pos hoff]

/-! ### Where the bytes end -/

theorem chunkAt_none : fs.chunkAt p pos n = .ok none ↔ fs.CutAt p pos := by
  unfold chunkAt CutAt
  cases fs.getDataBlock p (pos / fs.blockSize % 2 ^ 32) with
  | error e => exact ⟨nofun, fun ⟨_, h, _⟩ => nomatch h⟩
  | ok blk =>
    rw [ok_bind]
    by_cases h0 : blk = 0
    · rw [if_pos h0]
      refine ⟨nofun, ?_⟩
      rintro ⟨_, h, hne, -⟩
      cases h
      exact absurd h0 hne
    · rw [if_neg h0]
      cases hp : fs.blockPtr blk with
      | none => exact ⟨fun _ => ⟨blk, rfl, h0, hp⟩, fun _ => rfl⟩
      | some ptr =>
        simp only
        constructor
        · intro h
          obtain ⟨src, -, h⟩ := bind_ok h
          cases h
        · rintro ⟨_, h, -, hnone⟩
          cases h
          rw [hp] at hnone
          cases hnone

theorem chunkAt_length {l : List UInt8} (h : fs.chunkAt p pos n = .ok (some l)) : l.length = n := by
  unfold chunkAt at h
  obtain ⟨blk, -, h⟩ := bind_ok h
  by_cases h0 : blk = 0
  · rw [if_pos h0] at h
    cases h
    exact List.length_replicate
  rw [if_neg h0] at h
  cases hp : fs.blockPtr blk with
  | none =>
    rw [hp] at h
    cases h
  | some ptr =>
    rw [hp] at h
    obtain ⟨src, hsrc, h⟩ := bind_ok h
    cases h
    unfold Region.slice at hsrc
    split_ifs at hsrc
    cases hsrc
    exact length_copyOut _ _ _

/-- **Where the bytes end**: after `n` of them, or where the file is cut. -/
theorem bytesFrom_le {l : List UInt8} (h : fs.bytesFrom p pos n = .ok l) (m : ℕ) :
    l.length ≤ m ↔ n ≤ m ∨ ∃ k ≤ m, fs.CutAt p (pos + k) := by
  induction n generalizing pos l m with
  | zero =>
    cases h
    simp
  | succ n ih =>
    rw [bytesFrom_succ] at h
    obtain ⟨piece, hpiece, h⟩ := bind_ok h
    cases piece with
    -- the file is cut here
    | none =>
      cases h
      exact ⟨fun _ => .inr ⟨0, Nat.zero_le m, chunkAt_none.1 hpiece⟩, fun _ => Nat.zero_le m⟩
    -- one byte, and the rest of them
    | some b =>
      obtain ⟨rest, hrest, h⟩ := bind_ok h
      cases h
      have hb := chunkAt_length hpiece
      have hhere : ¬ fs.CutAt p pos := fun hc => by
        rw [chunkAt_none.2 hc] at hpiece
        cases hpiece
      rw [List.length_append, hb]
      cases m with
      | zero =>
        refine ⟨fun h1 => by omega, ?_⟩
        rintro (h1 | ⟨k, hk, hc⟩)
        · omega
        · obtain rfl : k = 0 := by omega
          exact absurd hc hhere
      | succ m =>
        have hrec := ih hrest m
        have hsucc : 1 + rest.length ≤ m + 1 ↔ rest.length ≤ m := by omega
        rw [hsucc, hrec, Nat.add_le_add_iff_right]
        refine or_congr_right ⟨?_, ?_⟩
        · rintro ⟨k, hk, hc⟩
          exact ⟨k + 1, by omega, by rwa [add_comm k 1, ← add_assoc]⟩
        · rintro ⟨k, hk, hc⟩
          cases k with
          | zero => exact absurd hc hhere
          | succ k => exact ⟨k, by omega, by rwa [add_assoc, add_comm 1 k]⟩

/-! ### The end of the file -/

/-- What a read should leave alone: it ends with the file and with its own size, and it writes only
what it returns. -/
structure ReadBounded (fs : Ext2Fs) (p offset size : ℕ) (buffer : ℕ → UInt8) (r : ℤ) (q : ℕ → UInt8) : Prop where
  le : r ≤ size
  atEnd : fs.fileSize p ≤ offset → r = 0
  inFile : offset < fs.fileSize p → r ≤ fs.fileSize p - offset
  frame : ∀ i : ℕ, r ≤ i → q i = buffer i

/-- The file is cut after at most `m` of the bytes from `offset` on. -/
def CutWithin (fs : Ext2Fs) (p offset m : ℕ) : Prop := ∃ k ≤ m, fs.CutAt p (offset + k)

/-- The sum in the clamp does not wrap around and the number of bytes is an `ssize_t`, unless the
file is cut before. -/
def ReadFits (fs : Ext2Fs) (p offset size : ℕ) : Prop :=
  fs.fileSize p ≤ offset ∨
    (offset + size < 2 ^ 32 ∨ fs.CutWithin p offset (fs.fileSize p - offset)) ∧
      (size < 2 ^ 31 ∨ offset + size < 2 ^ 32 ∧ fs.fileSize p - offset < 2 ^ 31 ∨ fs.CutWithin p offset (2 ^ 31 - 1))

/-- For all buffers, the bounds are bounds on the number of bytes. -/
theorem bounded_iff {l : List UInt8} (hsize : l.length ≤ size) (hlt : size < 2 ^ 32) (hoff : offset < fs.fileSize p) :
    (∀ buffer, fs.ReadBounded p offset size buffer (toInt32 l.length) (copyIn buffer 0 l)) ↔
      l.length ≤ fs.fileSize p - offset ∧ l.length ≤ 2 ^ 31 - 1 := by
  constructor
  · intro h
    have hfew : l.length ≤ 2 ^ 31 - 1 := by
      by_contra hmany
      have h0 : 0 < l.length := by omega
      have hr : toInt32 l.length ≤ (0 : ℕ) := by
        unfold toInt32
        rw [if_neg (by omega)]
        omega
      have hframe := (h fun _ => l[0] + 1).frame 0 hr
      rw [copyIn_in (Nat.zero_le 0) (by omega)] at hframe
      simp at hframe
    have hin := (h fun _ => 0).inFile hoff
    rw [toInt32_of_lt (by omega)] at hin
    exact ⟨by omega, hfew⟩
  · rintro ⟨hin, hfew⟩ buffer
    have hr : toInt32 l.length = l.length := toInt32_of_lt (by omega)
    rw [hr]
    refine ⟨by omega, fun h => absurd h (by omega), fun _ => by omega, fun i hi => ?_⟩
    exact copyIn_out (by omega)

/-- **Reads stop at the end of the file** iff `offset + size` does not wrap around and the number of bytes
is an `ssize_t`, unless the file is cut before. Here the call does not read outside of the image,
and the block size is not 0 where it is divided by. -/
theorem read_bounded_iff {x : ℤ × (ℕ → UInt8)} (hsize : size < 2 ^ 32)
    (hok : fs.readFile (some p) offset size buffer = .ok x) :
    (∀ buffer, Post (fs.readFile (some p) offset size buffer) fun y =>
      fs.ReadBounded p offset size buffer y.1 y.2) ↔ fs.ReadFits p offset size := by
  obtain ⟨len, hlen, hok'⟩ := bind_ok hok
  have hfile : len = fs.fileSize p := by
    unfold inodeLength Region.load at hlen
    split_ifs at hlen
    cases hlen
    rfl
  have hlt : len < 2 ^ 32 := by
    rw [hfile]
    exact load_lt
  by_cases hoff : len ≤ offset
  · -- behind the end
    refine ⟨fun _ => .inl (by omega), fun _ buffer => ?_⟩
    rw [readFile_behind hlen hoff]
    exact Post.pure ⟨by simp, fun _ => rfl, fun h => absurd h (by omega), fun _ _ => rfl⟩
  have hbs : 0 < fs.blockSize := by
    by_contra h0
    rw [if_neg (by omega), if_pos (by omega)] at hok'
    cases hok'
  have hread := readFile_bytes hbs hsize hlen hlt (Nat.lt_of_not_le hoff)
  obtain ⟨l, hl⟩ : ∃ l, fs.bytesFrom p offset (clamped len offset size) = .ok l := by
    rw [hread] at hok
    cases hl : fs.bytesFrom p offset (clamped len offset size) with
    | error e =>
      rw [hl] at hok
      cases hok
    | ok l => exact ⟨l, rfl⟩
  rw [hl] at hread
  have hclamp : clamped len offset size ≤ size ∧
      (clamped len offset size ≤ len - offset ↔ offset + size < 2 ^ 32) ∧
      (clamped len offset size ≤ 2 ^ 31 - 1 ↔ size < 2 ^ 31 ∨ offset + size < 2 ^ 32 ∧ len - offset < 2 ^ 31) := by
    unfold clamped add32
    rw [sub32_of_le (by omega) hlt]
    split_ifs <;> omega
  have hle : l.length ≤ size := ((bytesFrom_le hl _).2 (.inl le_rfl)).trans hclamp.1
  have hpost : (∀ buffer, Post (fs.readFile (some p) offset size buffer) fun y =>
      fs.ReadBounded p offset size buffer y.1 y.2) ↔
      ∀ buffer, fs.ReadBounded p offset size buffer (toInt32 l.length) (copyIn buffer 0 l) := by
    refine forall_congr' fun buffer => ?_
    rw [hread]
    exact ⟨fun h => h.of_eq rfl, fun h => Post.pure h⟩
  rw [hpost, bounded_iff hle hsize (by omega), bytesFrom_le hl, bytesFrom_le hl, ← hfile, hclamp.2.1, hclamp.2.2]
  unfold ReadFits CutWithin
  rw [← hfile, or_assoc]
  exact (or_iff_right hoff).symm

/-- A file of two bytes with a hole and, behind it, a block that is not in the image. -/
def wrapImage : Image where
  size := 8192
  bytes i := (List.lookup i [(1064, 8), (1080, 0x53), (1081, 0xEF), (1112, 128), (2056, 3), (3329, 0x80), (3332, 2),
    (3372, 100)]).getD 0
  size_lt := size_8192

/-- What `ext2_mount` finds in it. -/
def wrapFs : Ext2Fs := ⟨wrapImage, 1024, 128, block_1024, inode_128⟩

theorem read_bounded_small : ∃ x, wrapFs.readFile (some 3328) 1 5 (fun _ => 0) = .ok x ∧
    wrapFs.ReadBounded 3328 1 5 (fun _ => 0) x.1 x.2 := by
  obtain ⟨x, hx⟩ : ∃ x, wrapFs.readFile (some 3328) 1 5 (fun _ => 0) = .ok x := ⟨_, rfl⟩
  have hpost := (read_bounded_iff (by norm_num) hx).2 (.inr ⟨.inl (by norm_num), .inl (by norm_num)⟩) (fun _ => 0)
  exact ⟨x, hx, hpost.of_eq hx⟩

/-- A read of `2 ^ 32 - 1` bytes at offset 1 returns 1023 bytes of a file of two bytes. -/
theorem read_past_end : ext2Mount wrapImage = .ok (some (wrapFs, rootNode 0)) ∧ wrapFs.getInode 3 = .ok (some 3328) ∧
    wrapFs.fileSize 3328 = 2 ∧ ∃ q, wrapFs.readFile (some 3328) 1 (2 ^ 32 - 1) (fun _ => 1) = .ok (1023, q) ∧
      ¬ wrapFs.ReadBounded 3328 1 (2 ^ 32 - 1) (fun _ => 1) 1023 q := by
  have hsize : wrapFs.fileSize 3328 = 2 := by decide +kernel
  have hlen : wrapFs.inodeLength 3328 = .ok 2 := by decide +kernel
  have hhole : wrapFs.chunkAt 3328 1 1023 = .ok (some (List.replicate 1023 0)) := by decide +kernel
  have hcut : wrapFs.chunkAt 3328 1024 1 = .ok none := by decide +kernel
  have hbytes : ∀ m, wrapFs.bytesFrom 3328 1 (1022 + 1 + (m + 1)) = .ok (List.replicate 1023 0) := by
    intro m
    rw [bytesFrom_chunk (by decide), hhole, bytesFrom_succ, hcut]
    show Except.ok (List.replicate 1023 0 ++ []) = _
    rw [List.append_nil]
  have hclamp : clamped 2 1 (2 ^ 32 - 1) = 1022 + 1 + (2 ^ 32 - 1025 + 1) := by decide
  have hread := readFile_bytes (by decide) (by norm_num : 2 ^ 32 - 1 < 2 ^ 32) hlen (by norm_num)
    (by norm_num : 1 < 2) fun _ => 1
  rw [hclamp, hbytes] at hread
  have hr : toInt32 (List.replicate 1023 (0 : UInt8)).length = 1023 := by
    rw [List.length_replicate]
    decide
  simp only [Except.map, hr] at hread
  refine ⟨rfl, rfl, hsize, _, hread, fun h => ?_⟩
  have h1 := h.inFile (by omega)
  omega

/-! ### Reads in a row -/

/-- Bytes that are all there can be taken off the front. -/
theorem bytesFrom_append {l : List UInt8} (h : fs.bytesFrom p pos a = .ok l) (hl : l.length = a) (b : ℕ) :
    fs.bytesFrom p pos (a + b) = (fs.bytesFrom p (pos + a) b).map (l ++ ·) := by
  induction a generalizing pos l with
  | zero =>
    obtain rfl := List.length_eq_zero_iff.1 hl
    rw [zero_add, add_zero]
    cases fs.bytesFrom p pos b <;> rfl
  | succ a ih =>
    rw [bytesFrom_succ] at h
    obtain ⟨piece, hpiece, h⟩ := bind_ok h
    cases piece with
    | none =>
      cases h
      cases hl
    | some d =>
      obtain ⟨rest, hrest, h⟩ := bind_ok h
      cases h
      have hd := chunkAt_length hpiece
      rw [List.length_append, hd] at hl
      have h1 : a + 1 + b = a + b + 1 := by omega
      have h2 : pos + 1 + a = pos + (a + 1) := by omega
      rw [h1, bytesFrom_succ, hpiece, ok_bind, ih hrest (by omega), h2]
      cases fs.bytesFrom p (pos + (a + 1)) b with
      | error e => rfl
      | ok l => exact congrArg Except.ok (List.append_assoc d rest l).symm

theorem toInt32_inj (ha : a < 2 ^ 32) (hb : b < 2 ^ 32) (h : toInt32 a = toInt32 b) : a = b := by
  unfold toInt32 at h
  split_ifs at h <;> omega

theorem ofInt_toInt32 (ha : a < 2 ^ 32) : ofInt (toInt32 a) = a := by
  unfold ofInt toInt32
  split_ifs <;> omega

/-- A sum of counts, as the return type has it. -/
theorem i32_add (h : a + b < 2 ^ 32) : i32 (a + toInt32 b) = toInt32 (a + b) := by
  have h1 : ofInt (a + toInt32 b) = a + b := by
    unfold ofInt toInt32
    split_ifs <;> omega
  rw [i32, h1]

/-- Reads inside of the file. -/
theorem clamped_min {len : ℕ} (hlt : len < 2 ^ 32) (hoff : offset ≤ len) (hsum : offset + size < 2 ^ 32) :
    clamped len offset size = min size (len - offset) := by
  unfold clamped
  rw [add32_of_lt hsum, sub32_of_le hoff hlt]
  split_ifs <;> omega

/-- **Reading in pieces.** Where a read of `a` bytes returns all of them, a read of `a + b` bytes returns
them with those of the next read of `b` bytes behind, the count being the sum as an `ssize_t`. It
faults if and only if the next read does. -/
theorem read_pieces {buf₁ q₁ : ℕ → UInt8} {o : ℕ} (hbs : fs.blockSize ≠ 0) (hsum : o + a + b < 2 ^ 32)
    (h₁ : fs.readFile (some p) o a buf₁ = .ok (toInt32 a, q₁)) (buf₂ buf : ℕ → UInt8) :
    fs.readFile (some p) o (a + b) buf = (fs.readFile (some p) (o + a) b buf₂).map fun x =>
      (i32 (a + x.1), copyIn buf 0 (copyOut q₁ 0 a ++ copyOut x.2 0 (ofInt x.1))) := by
  obtain ⟨len, hlen, -⟩ := bind_ok h₁
  have hlt : len < 2 ^ 32 := by
    unfold inodeLength Region.load at hlen
    split_ifs at hlen
    cases hlen
    exact load_lt
  have hz : i32 (a + 0) = toInt32 a := i32_add (b := 0) (by omega)
  by_cases hoff : len ≤ o
  · -- nothing is left of the file
    rw [readFile_behind hlen hoff] at h₁
    obtain ⟨h0, -⟩ := Prod.mk.inj (Except.ok.inj h₁)
    obtain rfl : 0 = a := toInt32_inj (by norm_num) (by omega) h0
    rw [readFile_behind hlen hoff, readFile_behind hlen (by omega)]
    exact congrArg Except.ok (Prod.ext rfl (copyIn_nil buf 0).symm)
  have hpos : 0 < fs.blockSize := Nat.pos_of_ne_zero hbs
  rw [readFile_bytes hpos (by omega) hlen hlt (by omega), clamped_min hlt (by omega) (by omega)] at h₁
  -- the first read gets all its bytes, which are in the file
  obtain ⟨l, hl, hla, hq⟩ : ∃ l, fs.bytesFrom p o (min a (len - o)) = .ok l ∧ l.length = a ∧
    copyIn buf₁ 0 l = q₁ := by
    cases hl : fs.bytesFrom p o (min a (len - o)) with
    | error e =>
      rw [hl] at h₁
      cases h₁
    | ok l =>
      rw [hl] at h₁
      obtain ⟨hr, hq⟩ := Prod.mk.inj (Except.ok.inj h₁)
      have hle := (bytesFrom_le hl _).2 (.inl le_rfl)
      exact ⟨l, rfl, toInt32_inj (by omega) (by omega) hr, hq⟩
  have hfit : a ≤ len - o := by
    have hle := (bytesFrom_le hl _).2 (.inl le_rfl)
    omega
  rw [min_eq_left hfit] at hl
  have hbytes : copyOut q₁ 0 a = l := by
    rw [← hq, ← hla]
    exact copyOut_copyIn
  rw [hbytes, readFile_bytes hpos (by omega) hlen hlt (by omega), clamped_min hlt (by omega) (by omega)]
  by_cases hend : len ≤ o + a
  · rw [readFile_behind hlen hend]
    have hmin : min (a + b) (len - o) = a := by omega
    rw [hmin, hl]
    refine congrArg Except.ok (Prod.ext ?_ ?_)
    · show toInt32 l.length = i32 (a + 0)
      rw [hla, hz]
    · exact congrArg (copyIn buf 0) (List.append_nil l).symm
  · rw [readFile_bytes hpos (by omega) hlen hlt (by omega), clamped_min hlt (by omega) (by omega)]
    have hmin : min (a + b) (len - o) = a + min b (len - (o + a)) := by omega
    rw [hmin, bytesFrom_append hl hla]
    cases hl₂ : fs.bytesFrom p (o + a) (min b (len - (o + a))) with
    | error e => rfl
    | ok l₂ =>
      have hle := (bytesFrom_le hl₂ _).2 (.inl le_rfl)
      refine congrArg Except.ok (Prod.ext ?_ ?_)
      · show toInt32 (l ++ l₂).length = i32 (a + toInt32 l₂.length)
        rw [List.length_append, hla, i32_add (by omega)]
      · show copyIn buf 0 (l ++ l₂) = copyIn buf 0 (l ++ copyOut (copyIn buf₂ 0 l₂) 0 (ofInt (toInt32 l₂.length)))
        rw [ofInt_toInt32 (by omega), copyOut_copyIn]

/-- The first two bytes of a file, in two reads. -/
theorem read_pieces_first : ∃ q₁ q₂, farFs.readFile (some 3328) 0 1 (fun _ => 1) = .ok (1, q₁) ∧
    farFs.readFile (some 3328) 1 1 (fun _ => 1) = .ok (1, q₂) ∧ farFs.readFile (some 3328) 0 2 (fun _ => 1) =
      .ok (2, copyIn (fun _ => 1) 0 (copyOut q₁ 0 1 ++ copyOut q₂ 0 1)) := by
  obtain ⟨q₁, h₁⟩ : ∃ q, farFs.readFile (some 3328) 0 1 (fun _ => 1) = .ok (toInt32 1, q) := ⟨_, rfl⟩
  obtain ⟨q₂, h₂⟩ : ∃ q, farFs.readFile (some 3328) (0 + 1) 1 (fun _ => 1) = .ok (1, q) := ⟨_, rfl⟩
  have h := read_pieces (b := 1) (by decide) (by norm_num) h₁ (fun _ => 1) fun _ => 1
  rw [h₂] at h
  exact ⟨q₁, q₂, h₁, h₂, h⟩

/-- A file of `2 ^ 31` bytes that is one hole. -/
def holeImage : Image where
  size := 8192
  bytes i := (List.lookup i [(1064, 8), (1080, 0x53), (1081, 0xEF), (1112, 128), (2056, 3), (3329, 0x80),
    (3335, 0x80)]).getD 0
  size_lt := size_8192

/-- What `ext2_mount` finds in it. -/
def holeFs : Ext2Fs := ⟨holeImage, 1024, 128, block_1024, inode_128⟩

theorem holeFs_layout : Ext2Layout holeFs 3328 := by
  refine ⟨⟨0, rfl⟩, by decide, fun i hi => ?_, ?_, ?_, ?_⟩
  · interval_cases i <;> decide +kernel
  · decide +kernel
  · decide +kernel
  · decide +kernel

/-- One byte behind `2 ^ 31 - 1` bytes is there, but the read of all of them returns a negative number. -/
theorem read_pieces_negative : ext2Mount holeImage = .ok (some (holeFs, rootNode 0)) ∧
    holeFs.getInode 3 = .ok (some 3328) ∧ ∃ q₁ q₂ q,
      holeFs.readFile (some 3328) 0 (2 ^ 31 - 1) (fun _ => 1) = .ok (2 ^ 31 - 1, q₁) ∧
      holeFs.readFile (some 3328) (0 + (2 ^ 31 - 1)) 1 (fun _ => 1) = .ok (1, q₂) ∧
      holeFs.readFile (some 3328) 0 (2 ^ 31 - 1 + 1) (fun _ => 1) = .ok (-2 ^ 31, q) := by
  have hsize : holeFs.fileSize 3328 = 2 ^ 31 := by decide +kernel
  have h₁ := readFile_layout holeFs_layout (by norm_num : 0 + (2 ^ 31 - 1) < 2 ^ 32) fun _ => 1
  have h₂ := readFile_layout holeFs_layout (by norm_num : 0 + (2 ^ 31 - 1) + 1 < 2 ^ 32) fun _ => 1
  have h := readFile_layout holeFs_layout (by norm_num : 0 + (2 ^ 31 - 1 + 1) < 2 ^ 32) fun _ => 1
  simp only [readCount, hsize] at h₁ h₂ h
  exact ⟨rfl, rfl, _, _, _, h₁, h₂, h⟩

end Saynaa.Ext2Fs
