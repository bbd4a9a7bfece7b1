import Saynaa.Lib.Loop
import Saynaa.Spec.Ext2

/-!
# Which `ext2` images are read safely

The driver compares the start of a block with the size of the image, and the ends of
descriptors and inodes after they may have wrapped around. `ImageOK` asks for what these checks leave
open, at each inode that directories list.

* `getInode_post`, `getDataBlock_post`: the helper functions.
* `readLoop_safe`, `read_safe`: reads, also behind the end of a file.
* `scanBlock_post`, `scanDir_post`: the rule for both loops over directories.
* `image_safe`, `image_unsafe`: images that meet `ImageOK` are safe, and others are not.
-/

namespace Saynaa.Ext2Fs

open Lib

variable {fs : Ext2Fs} {n k p i d b blk o fuel offset size : ℕ} {s : ReadState}

/-! ### What is stored in the image -/

/-- `sb->inodes_per_group`. -/
def perGroup (fs : Ext2Fs) : ℕ := load 4 fs.image.bytes (sbOffset + 40)

/-- The descriptor for the inode `n`. -/
def descAt (fs : Ext2Fs) (n : ℕ) : ℕ := fs.descOffset ((n - 1) / fs.perGroup)

/-- Where the descriptor puts the inode `n`. -/
def inodeAt (fs : Ext2Fs) (n : ℕ) : ℕ :=
  fs.inodeOffset (load 4 fs.image.bytes (fs.descAt n + 8)) ((n - 1) % fs.perGroup)

/-- The check of `ext2_bg_desc`. -/
def DescFound (fs : Ext2Fs) (n : ℕ) : Prop := add32 (fs.descAt n) 32 ≤ fs.image.size

/-- The checks of `ext2_get_inode`. -/
def Found (fs : Ext2Fs) (n : ℕ) : Prop :=
  n ≠ 0 ∧ fs.DescFound n ∧ add32 (fs.inodeAt n) fs.inodeSize ≤ fs.image.size

/-- `inode->mode & EXT2_S_IFDIR`. -/
def IsDir (fs : Ext2Fs) (p : ℕ) : Prop := load 2 fs.image.bytes p &&& ext2SIfdir ≠ 0

/-- `d->inode`. -/
def recInode (fs : Ext2Fs) (d : ℕ) : ℕ := load 4 fs.image.bytes d

/-- `d->rec_len`. -/
def recLen (fs : Ext2Fs) (d : ℕ) : ℕ := load 2 fs.image.bytes (d + 4)

/-- `d->name_len`. -/
def recNameLen (fs : Ext2Fs) (d : ℕ) : ℕ := load 1 fs.image.bytes (d + 6)

def Live (fs : Ext2Fs) (d : ℕ) : Prop := fs.recInode d ≠ 0 ∧ fs.recNameLen d ≠ 0 ∧ fs.recLen d ≠ 0

/-- The offsets in a block to which the record lengths lead. -/
inductive RecordAt (fs : Ext2Fs) (blk : ℕ) : ℕ → Prop
  | first : RecordAt fs blk 0
  | next {o : ℕ} : RecordAt fs blk o → o < fs.blockSize → fs.recLen (blk + o) ≠ 0 →
      RecordAt fs blk (add32 o (fs.recLen (blk + o)))

/-- A block whose pointer is not zero and starts in the image. -/
def Starts (fs : Ext2Fs) (b : ℕ) : Prop := b ≠ 0 ∧ mul32 b fs.blockSize < fs.image.size

/-- A record in a direct block of the inode at `p`. -/
def RecordIn (fs : Ext2Fs) (p d : ℕ) : Prop :=
  ∃ i < 12, fs.Starts (fs.ptr p i) ∧
    ∃ o < fs.blockSize, fs.RecordAt (mul32 (fs.ptr p i) fs.blockSize) o ∧ d = mul32 (fs.ptr p i) fs.blockSize + o

/-- The inodes that directories list, from the root on. -/
inductive Listed (fs : Ext2Fs) : ℕ → Prop
  | root : Listed fs 2
  | entry {n d : ℕ} : Listed fs n → fs.Found n → fs.IsDir (fs.inodeAt n) → fs.RecordIn (fs.inodeAt n) d →
      fs.Live d → Listed fs (fs.recInode d)

/-- The pointer to the `i`-th part of a file, where the driver finds it. -/
def storedBlock (fs : Ext2Fs) (p i : ℕ) : ℕ :=
  if i < 12 then fs.ptr p i
  else if i - 12 < fs.perBlock ∧ fs.ptr p 12 ≠ 0 ∧ mul32 (fs.ptr p 12) fs.blockSize < fs.image.size then
    load 4 fs.image.bytes (mul32 (fs.ptr p 12) fs.blockSize + 4 * (i - 12))
  else 0

/-- The parts of a file that a read can get to: those of the file, and, as `offset + size` may wrap
around, those behind it. -/
inductive ReadReaches (fs : Ext2Fs) (p : ℕ) : ℕ → Prop
  | inFile {i : ℕ} : i * fs.blockSize < fs.fileSize p → ReadReaches fs p i
  | behind {i : ℕ} : ReadReaches fs p i → 2 ≤ fs.fileSize p →
      (fs.storedBlock p i = 0 ∨ fs.Starts (fs.storedBlock p i)) → ReadReaches fs p (add32 i 1)

/-! ### The conditions -/

/-- Where the checks for the inode `n` pass, its first `k` bytes are in the image. -/
structure InodeOK (fs : Ext2Fs) (n k : ℕ) : Prop where
  perGroup : n ≠ 0 → fs.perGroup ≠ 0
  desc : n ≠ 0 → fs.DescFound n → fs.descAt n + 12 ≤ fs.image.size
  fields : fs.Found n → fs.inodeAt n + k ≤ fs.image.size

/-- The pointer to the `i`-th part of the file is in the image. -/
structure MapOK (fs : Ext2Fs) (p i : ℕ) : Prop where
  direct : i < 12 → p + 44 + 4 * i ≤ fs.image.size
  single : 12 ≤ i → i - 12 < fs.perBlock → p + 92 ≤ fs.image.size
  indirect : 12 ≤ i → i - 12 < fs.perBlock → fs.Starts (fs.ptr p 12) →
    mul32 (fs.ptr p 12) fs.blockSize + 4 * (i - 12) + 4 ≤ fs.image.size

/-- A file: the division is defined, and the parts are in the image where they start there. -/
structure FileOK (fs : Ext2Fs) (p : ℕ) : Prop where
  head : p + 8 ≤ fs.image.size
  blockSize : fs.fileSize p ≠ 0 → fs.blockSize ≠ 0
  map : ∀ i, fs.ReadReaches p i → fs.MapOK p i
  data : 2 ≤ fs.fileSize p → ∀ i, fs.ReadReaches p i → fs.Starts (fs.storedBlock p i) →
    mul32 (fs.storedBlock p i) fs.blockSize + fs.blockSize ≤ fs.image.size

/-- A directory entry with its name, and the head of the inode it is for. -/
structure RecordOK (fs : Ext2Fs) (d : ℕ) : Prop where
  fields : d + 6 ≤ fs.image.size
  nameLen : fs.recInode d ≠ 0 → d + 7 ≤ fs.image.size
  name : fs.Live d → d + 8 + fs.recNameLen d ≤ fs.image.size
  inode : fs.Live d → fs.InodeOK (fs.recInode d) 8

structure DirOK (fs : Ext2Fs) (p : ℕ) : Prop where
  head : p + 88 ≤ fs.image.size
  records : ∀ d, fs.RecordIn p d → fs.RecordOK d

/-- What the node of the inode `n` needs. -/
structure NodeOK (fs : Ext2Fs) (n : ℕ) : Prop where
  inode : fs.InodeOK n 2
  file : fs.Found n → ¬ fs.IsDir (fs.inodeAt n) → fs.FileOK (fs.inodeAt n)
  dir : fs.Found n → fs.IsDir (fs.inodeAt n) → fs.DirOK (fs.inodeAt n)

/-- **The condition on images.** -/
def ImageOK (fs : Ext2Fs) : Prop := ∀ n, fs.Listed n → fs.NodeOK n

/-! ### Helper functions -/

theorem bgDesc_found (h : fs.DescFound n) : fs.bgDesc ((n - 1) / fs.perGroup) = some (fs.descAt n) :=
  if_neg (Nat.not_lt.2 h)

theorem bgDesc_missing (h : ¬ fs.DescFound n) : fs.bgDesc ((n - 1) / fs.perGroup) = none :=
  if_pos (Nat.lt_of_not_le h)

instance decDescFound (n : ℕ) : Decidable (fs.DescFound n) := inferInstanceAs (Decidable (_ ≤ _))

instance decFound (n : ℕ) : Decidable (fs.Found n) := inferInstanceAs (Decidable (_ ∧ _ ∧ _))

/-- **Where an inode is**, if the checks pass. -/
theorem getInode_eq (hsize : 2048 ≤ fs.image.size) (h : fs.InodeOK n k) :
    fs.getInode n = .ok (if fs.Found n then some (fs.inodeAt n) else none) := by
  unfold getInode
  by_cases h0 : n = 0
  · rw [if_pos h0, if_neg fun hf => hf.1 h0]
  rw [if_neg h0]
  have hper : fs.inodesPerGroup = .ok fs.perGroup := Region.load_ok (by unfold sbOffset; omega)
  rw [hper, ok_bind, if_neg (h.perGroup h0)]
  by_cases hdesc : fs.DescFound n
  swap
  · rw [bgDesc_missing hdesc, if_neg fun hf => hdesc hf.2.1]
  have hfit := h.desc h0 hdesc
  rw [bgDesc_found hdesc]
  simp only
  rw [Region.load_ok (show fs.descAt n + 8 + 4 ≤ fs.image.size by omega), ok_bind]
  show (if add32 (fs.inodeAt n) fs.inodeSize > fs.image.size then (.ok none : Except Fault (Option ℕ))
    else .ok (some (fs.inodeAt n))) = _
  by_cases hin : add32 (fs.inodeAt n) fs.inodeSize ≤ fs.image.size
  · rw [if_neg (Nat.not_lt.2 hin), if_pos ⟨h0, hdesc, hin⟩]
  · rw [if_pos (Nat.lt_of_not_le hin), if_neg fun hf => hin hf.2.2]

theorem getInode_post (hsize : 2048 ≤ fs.image.size) (h : fs.InodeOK n k) :
    Post (fs.getInode n) fun r => ∀ p, r = some p → p = fs.inodeAt n ∧ fs.Found n ∧ p + k ≤ fs.image.size := by
  refine ⟨_, getInode_eq hsize h, fun p hp => ?_⟩
  split_ifs at hp with hfound
  obtain rfl := Option.some.inj hp
  exact ⟨rfl, hfound, h.fields hfound⟩

theorem blockPtr_eq (b : ℕ) :
    fs.blockPtr b = if mul32 b fs.blockSize < fs.image.size then some (mul32 b fs.blockSize) else none := by
  unfold blockPtr
  simp only
  split_ifs <;> first | rfl | omega

theorem getDataBlock_post (h : fs.MapOK p i) : Post (fs.getDataBlock p i) (· = fs.storedBlock p i) := by
  unfold getDataBlock storedBlock
  by_cases h12 : i < 12
  · have h1 := h.direct h12
    rw [if_pos h12, if_pos h12]
    exact Region.load_post (by omega)
  rw [if_neg h12, if_neg h12]
  simp only
  by_cases hi : i - 12 < fs.perBlock
  swap
  · have hi' : ¬ i - 12 < fs.blockSize / 4 := hi
    rw [if_neg hi', if_neg fun hc => hi hc.1]
    exact Post.pure rfl
  have h1 := h.single (by omega) hi
  have hind : fs.inodeBlock p 12 = .ok (fs.ptr p 12) := Region.load_ok (by omega)
  have hi' : i - 12 < fs.blockSize / 4 := hi
  rw [if_pos hi', hind, ok_bind]
  by_cases hz : fs.ptr p 12 = 0
  · rw [if_pos hz, if_neg fun hc => hc.2.1 hz]
    exact Post.pure rfl
  rw [if_neg hz, blockPtr_eq]
  by_cases hs : mul32 (fs.ptr p 12) fs.blockSize < fs.image.size
  · have h2 := h.indirect (by omega) hi ⟨hz, hs⟩
    rw [if_pos hs, if_pos ⟨hi, hz, hs⟩]
    exact Region.load_post h2
  · rw [if_neg hs, if_neg fun hc => hs hc.2.2]
    exact Post.pure rfl

/-! ### Reads -/

/-- The loop stands at a part of the file that reads can get to. -/
structure SafeInv (fs : Ext2Fs) (p offset size : ℕ) (s : ReadState) : Prop where
  copied : s.copied ≤ size
  inBlock : s.blockOffset < fs.blockSize
  reaches : s.copied < size → fs.ReadReaches p s.blockIndex
  place : offset + size ≤ fs.fileSize p → s.copied < size →
    s.blockIndex * fs.blockSize + s.blockOffset = offset + s.copied

/-- **A pass** that puts the next `c` bytes into the buffer. -/
theorem SafeInv.put (h : SafeInv fs p offset size s) (hsize : size < 2 ^ 32)
    (hwrap : offset + size ≤ fs.fileSize p ∨ 2 ≤ fs.fileSize p) (hlt : s.copied < size)
    (hb : fs.storedBlock p s.blockIndex = 0 ∨ fs.Starts (fs.storedBlock p s.blockIndex)) {src : List UInt8}
    (hsrc : src.length = min (fs.blockSize - s.blockOffset) (size - s.copied)) :
    SafeInv fs p offset size (s.put src) := by
  have hin := h.inBlock
  have hle1 : src.length ≤ fs.blockSize - s.blockOffset := by rw [hsrc]; exact min_le_left _ _
  have hle2 : src.length ≤ size - s.copied := by rw [hsrc]; exact min_le_right _ _
  have hcopied : (s.put src).copied = s.copied + src.length := add32_of_lt (by omega)
  have hflen : fs.fileSize p < 2 ^ 32 := load_lt
  have hend : s.copied + src.length < size → src.length = fs.blockSize - s.blockOffset := by
    intro hlt'
    rcases min_choice (fs.blockSize - s.blockOffset) (size - s.copied) with h2 | h2 <;> omega
  -- inside of the file, the next block begins where the chunk ends
  have hnext : offset + size ≤ fs.fileSize p → s.copied + src.length < size →
      add32 s.blockIndex 1 * fs.blockSize = offset + (s.copied + src.length) := by
    intro hfile hlt'
    have h1 := h.place hfile hlt
    have h2 := hend hlt'
    have h3 : (s.blockIndex + 1) * fs.blockSize = offset + (s.copied + src.length) := by
      rw [add_mul, one_mul]
      omega
    have h4 : s.blockIndex + 1 ≤ (s.blockIndex + 1) * fs.blockSize := Nat.le_mul_of_pos_right _ (by omega)
    rw [add32_of_lt (by omega), h3]
  refine ⟨by omega, by show 0 < fs.blockSize; omega, fun hlt' => ?_, fun hfile hlt' => ?_⟩
  · rw [hcopied] at hlt'
    rcases hwrap with hfile | htwo
    · refine .inFile ?_
      show add32 s.blockIndex 1 * fs.blockSize < _
      rw [hnext hfile hlt']
      omega
    · exact .behind (h.reaches hlt) htwo hb
  · rw [hcopied] at hlt' ⊢
    exact hnext hfile hlt'

/-- **The loop** stays in the image. -/
theorem readLoop_safe (hok : fs.FileOK p) (hsize : size < 2 ^ 32)
    (hwrap : offset + size ≤ fs.fileSize p ∨ 2 ≤ fs.fileSize p) (h : SafeInv fs p offset size s) :
    Post (fs.readLoop p size fuel s) fun _ => True := by
  have hbslt := fs.blockSize_lt
  induction fuel generalizing s with
  | zero => exact Post.pure trivial
  | succ fuel ih =>
    unfold readLoop
    by_cases hlt : s.copied < size
    swap
    · -- everything is copied
      rw [if_neg hlt]
      exact Post.pure trivial
    rw [if_pos hlt]
    have hin := h.inBlock
    have hreach := h.reaches hlt
    refine (getDataBlock_post (hok.map _ hreach)).bind ?_
    rintro b rfl
    rw [sub32_of_le (by omega) hbslt, sub32_of_le (by omega) hsize]
    simp only
    set chunk := min (fs.blockSize - s.blockOffset) (size - s.copied) with hchunk
    have hle : chunk ≤ fs.blockSize - s.blockOffset := min_le_left _ _
    have hle' : chunk ≤ size - s.copied := min_le_right _ _
    by_cases h0 : fs.storedBlock p s.blockIndex = 0
    · -- a hole
      rw [if_pos h0]
      exact ih (h.put hsize hwrap hlt (.inl h0) List.length_replicate)
    rw [if_neg h0, blockPtr_eq]
    by_cases hst : mul32 (fs.storedBlock p s.blockIndex) fs.blockSize < fs.image.size
    swap
    · -- the block is outside the image
      rw [if_neg hst]
      exact Post.pure trivial
    rw [if_pos hst]
    simp only
    have hfit : mul32 (fs.storedBlock p s.blockIndex) fs.blockSize + s.blockOffset + chunk ≤ fs.image.size := by
      by_cases htwo : 2 ≤ fs.fileSize p
      · have h1 := hok.data htwo s.blockIndex hreach ⟨h0, hst⟩
        omega
      · -- a file of one byte, which is the first one of its block
        have hfile : offset + size ≤ fs.fileSize p := hwrap.resolve_right htwo
        have h1 := h.place hfile hlt
        omega
    refine (Region.slice_post hfit).bind ?_
    rintro src rfl
    exact ih (h.put hsize hwrap hlt (.inr ⟨h0, hst⟩) (length_copyOut _ _ _))

/-- Fuel for the bytes that are missing is enough: more of it changes nothing. -/
theorem readLoop_fuel {f g : ℕ} (hin : s.blockOffset < fs.blockSize) (hsize : size < 2 ^ 32)
    (hf : size - s.copied ≤ f) (hg : size - s.copied ≤ g) : fs.readLoop p size f s = fs.readLoop p size g s := by
  have hbslt := fs.blockSize_lt
  induction f generalizing g s with
  | zero =>
    cases g with
    | zero => rfl
    | succ g => exact (if_neg (show ¬ s.copied < size by omega)).symm
  | succ f ih =>
    cases g with
    | zero => exact if_neg (show ¬ s.copied < size by omega)
    | succ g =>
      unfold readLoop
      by_cases hlt : s.copied < size
      swap
      · rw [if_neg hlt, if_neg hlt]
      rw [if_pos hlt, if_pos hlt]
      refine congrArg (fs.getDataBlock p s.blockIndex >>= ·) (funext fun blk => ?_)
      rw [sub32_of_le (by omega) hbslt, sub32_of_le (by omega) hsize]
      simp only
      set chunk := min (fs.blockSize - s.blockOffset) (size - s.copied) with hchunk
      have hpos : 0 < chunk := lt_min (by omega) (by omega)
      have hle : chunk ≤ size - s.copied := min_le_right _ _
      -- the next pass has less to do
      have hnext : ∀ src : List UInt8, src.length = chunk →
          fs.readLoop p size f (s.put src) = fs.readLoop p size g (s.put src) := by
        intro src hsrc
        have h1 : (s.put src).copied = s.copied + chunk := by
          rw [← hsrc]
          exact add32_of_lt (by omega)
        exact ih (show 0 < fs.blockSize by omega) (by omega) (by omega)
      by_cases h0 : blk = 0
      · rw [if_pos h0, if_pos h0]
        exact hnext _ List.length_replicate
      rw [if_neg h0, if_neg h0]
      cases fs.blockPtr blk with
      | none => rfl
      | some ptr =>
        simp only
        unfold Region.slice
        split_ifs with hfit
        · exact hnext _ (length_copyOut _ _ _)
        · rfl

theorem readFile_safe (hok : fs.FileOK p) (hoff : offset < 2 ^ 32) (hsize : size < 2 ^ 32) (buffer : ℕ → UInt8) :
    Post (fs.readFile (some p) offset size buffer) fun _ => True := by
  have h8 := hok.head
  have hflen : fs.fileSize p < 2 ^ 32 := load_lt
  have hload : fs.inodeLength p = .ok (fs.fileSize p) := Region.load_ok (by omega)
  unfold readFile
  simp only
  rw [hload, ok_bind]
  by_cases hend : offset ≥ fs.fileSize p
  · rw [if_pos hend]
    exact Post.pure trivial
  have hbs := hok.blockSize (by omega)
  rw [if_neg hend, if_neg hbs]
  set size' := if add32 offset size > fs.fileSize p then sub32 (fs.fileSize p) offset else size with hsize'
  have hlt' : size' < 2 ^ 32 := by
    rw [hsize', sub32_of_le (by omega) hflen]
    split_ifs <;> omega
  have hwrap : offset + size' ≤ fs.fileSize p ∨ 2 ≤ fs.fileSize p := by
    rw [hsize', sub32_of_le (by omega) hflen]
    unfold add32
    split_ifs <;> omega
  have hstart : SafeInv fs p offset size' ⟨0, offset / fs.blockSize, offset % fs.blockSize, buffer⟩ := by
    have hdm := Nat.div_add_mod offset fs.blockSize
    rw [mul_comm] at hdm
    exact ⟨Nat.zero_le _, Nat.mod_lt _ (by omega), fun _ =>
      .inFile (lt_of_le_of_lt (Nat.div_mul_le_self _ _) (by omega)),
      fun _ _ => hdm⟩
  exact (readLoop_safe hok hlt' hwrap hstart).bind fun s _ => Post.pure trivial

theorem read_safe (hsz : 2048 ≤ fs.image.size) (h : fs.NodeOK n) (hoff : offset < 2 ^ 32) (hsize : size < 2 ^ 32)
    (buffer : ℕ → UInt8) : Post (fs.read n offset size buffer) fun _ => True := by
  unfold read
  refine (getInode_post hsz h.inode).bind fun r hr => ?_
  cases r with
  | none => exact Post.pure trivial
  | some p =>
    obtain ⟨rfl, hfound, h2⟩ := hr p rfl
    have hmode : fs.inodeMode (fs.inodeAt n) = .ok (load 2 fs.image.bytes (fs.inodeAt n)) := Region.load_ok h2
    simp only
    rw [hmode, ok_bind]
    split_ifs with hdir
    · exact Post.pure trivial
    · exact readFile_safe (h.file hfound hdir) hoff hsize buffer

/-! ### Directories -/

section Scan

variable {ρ σ : Type} {visit : ℕ → σ → Except Fault (Flow ρ σ)} {Q : ρ → Prop} {I : σ → Prop} {t : σ}

theorem direntLive_post (h : fs.RecordOK d) : Post (fs.direntLive d) fun live => live = true ↔ fs.Live d := by
  have h6 := h.fields
  have hino : fs.direntInode d = .ok (fs.recInode d) := Region.load_ok (by omega)
  have hrec : fs.direntRecLen d = .ok (fs.recLen d) := Region.load_ok (by omega)
  unfold direntLive Live
  rw [hino, ok_bind]
  by_cases h0 : fs.recInode d = 0
  · rw [if_pos h0]
    exact Post.pure (by simp [h0])
  have h7 := h.nameLen h0
  have hname : fs.direntNameLen d = .ok (fs.recNameLen d) := Region.load_ok (by omega)
  rw [if_neg h0, hname, ok_bind]
  by_cases h1 : fs.recNameLen d = 0
  · rw [if_pos h1]
    exact Post.pure (by simp [h1])
  rw [if_neg h1, hrec, ok_bind]
  exact Post.pure (by simp [h0, h1])

/-- **The loop over a block**: what holds of the state before and after all visits of live records. -/
theorem scanBlock_post (hok : ∀ o < fs.blockSize, fs.RecordAt blk o → fs.RecordOK (blk + o))
    (hvisit : ∀ o < fs.blockSize, fs.RecordAt blk o → fs.Live (blk + o) → ∀ t, I t →
      Post (visit (blk + o) t) (·.Sat Q I)) (ho : fs.RecordAt blk o) (ht : I t) :
    Post (fs.scanBlock visit blk fuel o t) (·.Sat Q I) := by
  induction fuel generalizing o t with
  | zero => exact Post.pure ht
  | succ fuel ih =>
    unfold scanBlock
    by_cases hlt : o < fs.blockSize
    swap
    · -- the end of the block
      rw [if_neg hlt]
      exact Post.pure ht
    rw [if_pos hlt]
    have hrec := hok o hlt ho
    refine (direntLive_post hrec).bind fun live hlive => ?_
    have hflow : Post (if live = true then visit (blk + o) t else .ok (.next t)) (·.Sat Q I) := by
      by_cases hl : live = true
      · rw [if_pos hl]
        exact hvisit o hlt ho (hlive.1 hl) t ht
      · rw [if_neg hl]
        exact Post.pure ht
    refine hflow.bind fun flow hsat => ?_
    cases flow with
    | ret r => exact Post.pure hsat
    | next t' =>
      have h6 := hrec.fields
      have hlen : fs.direntRecLen (blk + o) = .ok (fs.recLen (blk + o)) := Region.load_ok (by omega)
      simp only
      rw [hlen, ok_bind]
      by_cases h0 : fs.recLen (blk + o) = 0
      · -- a record of length 0 ends the scan
        rw [if_pos h0]
        exact Post.pure hsat
      · -- the scan goes on with the next record
        rw [if_neg h0]
        exact ih (ho.next hlt h0) hsat

/-- Fuel for the rest of the block is enough. -/
theorem scanBlock_fuel {f g : ℕ} (hf : fs.blockSize ≤ o + f) (hg : fs.blockSize ≤ o + g) :
    fs.scanBlock visit blk f o t = fs.scanBlock visit blk g o t := by
  have hle := fs.blockSize_le
  induction f generalizing g o t with
  | zero =>
    cases g with
    | zero => rfl
    | succ g => exact (if_neg (show ¬ o < fs.blockSize by omega)).symm
  | succ f ih =>
    cases g with
    | zero => exact if_neg (show ¬ o < fs.blockSize by omega)
    | succ g =>
      unfold scanBlock
      by_cases hlt : o < fs.blockSize
      swap
      · rw [if_neg hlt, if_neg hlt]
      rw [if_pos hlt, if_pos hlt]
      refine congrArg (fs.direntLive (blk + o) >>= ·) (funext fun live => ?_)
      refine congrArg (_ >>= ·) (funext fun flow => ?_)
      cases flow with
      | ret r => rfl
      | next t' =>
        unfold direntRecLen Region.load
        split_ifs with hfit
        · simp only [ok_bind]
          have hlen : load 2 fs.image.bytes (blk + o + 4) < 256 ^ 2 := load_lt
          split_ifs with h0
          · rfl
          · have hadd : add32 o (load 2 fs.image.bytes (blk + o + 4)) = o + load 2 fs.image.bytes (blk + o + 4) :=
              add32_of_lt (by omega)
            rw [hadd]
            exact ih (by omega) (by omega)
        · rfl

/-- **The loop over the direct blocks.** -/
theorem scanDir_post (hok : fs.DirOK p)
    (hvisit : ∀ d, fs.RecordIn p d → fs.Live d → ∀ t, I t → Post (visit d t) (·.Sat Q I)) (hb : b + k ≤ 12)
    (ht : I t) : Post (fs.scanDir p visit k b t) (·.Sat Q I) := by
  induction k generalizing b t with
  | zero => exact Post.pure ht
  | succ k ih =>
    have h88 := hok.head
    have hptr : fs.inodeBlock p b = .ok (fs.ptr p b) := Region.load_ok (by omega)
    unfold scanDir
    rw [hptr, ok_bind]
    by_cases h0 : fs.ptr p b = 0
    · rw [if_pos h0]
      exact ih (by omega) ht
    rw [if_neg h0, blockPtr_eq]
    by_cases hst : mul32 (fs.ptr p b) fs.blockSize < fs.image.size
    swap
    · rw [if_neg hst]
      exact ih (by omega) ht
    rw [if_pos hst]
    have hin : ∀ o < fs.blockSize, fs.RecordAt (mul32 (fs.ptr p b) fs.blockSize) o →
        fs.RecordIn p (mul32 (fs.ptr p b) fs.blockSize + o) :=
      fun o ho hrec => ⟨b, by omega, ⟨h0, hst⟩, o, ho, hrec, rfl⟩
    have hscan : Post (fs.scanBlock visit (mul32 (fs.ptr p b) fs.blockSize) fs.blockSize 0 t) (·.Sat Q I) :=
      scanBlock_post (fun o ho hrec => hok.records _ (hin o ho hrec))
        (fun o ho hrec hl => hvisit _ (hin o ho hrec) hl) .first ht
    refine hscan.bind fun flow hsat => ?_
    cases flow with
    | ret r => exact Post.pure hsat
    | next t' => exact ih (by omega) hsat

end Scan

/-- The name of a live record is in the image. -/
theorem RecordOK.nameLen_load (h : fs.RecordOK d) (hl : fs.Live d) : fs.direntNameLen d = .ok (fs.recNameLen d) := by
  have h1 := h.nameLen hl.1
  exact Region.load_ok (by omega)

theorem RecordOK.inode_load (h : fs.RecordOK d) : fs.direntInode d = .ok (fs.recInode d) := by
  have h1 := h.fields
  exact Region.load_ok (by omega)

theorem readdirVisit_safe (h : fs.RecordOK d) (hl : fs.Live d) (index seen : ℕ) :
    Post (fs.readdirVisit index d seen) (·.Sat (fun _ => True) fun _ => True) := by
  have hname := h.name hl
  unfold readdirVisit
  split_ifs with hi
  · rw [h.nameLen_load hl, ok_bind]
    have hlen : (if fs.recNameLen d < 255 then fs.recNameLen d else 255) ≤ fs.recNameLen d := by
      split_ifs <;> omega
    refine (Region.slice_post (by omega)).bind fun name _ => ?_
    rw [h.inode_load, ok_bind]
    exact Post.pure trivial
  · exact Post.pure trivial

theorem readdir_safe (hsz : 2048 ≤ fs.image.size) (h : fs.NodeOK n) (index : ℕ) :
    Post (fs.readdir n index) fun _ => True := by
  unfold readdir
  refine (getInode_post hsz h.inode).bind fun r hr => ?_
  cases r with
  | none => exact Post.pure trivial
  | some p =>
    obtain ⟨rfl, hfound, h2⟩ := hr p rfl
    have hmode : fs.inodeMode (fs.inodeAt n) = .ok (load 2 fs.image.bytes (fs.inodeAt n)) := Region.load_ok h2
    simp only
    rw [hmode, ok_bind]
    by_cases hdir : fs.IsDir (fs.inodeAt n)
    swap
    · rw [if_pos (not_not.1 hdir)]
      exact Post.pure trivial
    rw [if_neg hdir]
    have hok := h.dir hfound hdir
    refine (scanDir_post hok (fun d hd hl t _ => readdirVisit_safe (hok.records d hd) hl index t) (by norm_num)
      trivial).bind fun flow _ => ?_
    cases flow with
    | ret r => exact Post.pure trivial
    | next seen =>
      simp only
      split_ifs <;> exact Post.pure trivial

theorem nameEq_safe {a : ℕ} {name : Name} (h : a + name.length ≤ fs.image.size) :
    Post (fs.nameEq a name) fun _ => True := by
  induction name generalizing a with
  | nil => exact Post.pure trivial
  | cons c name ih =>
    rw [List.length_cons] at h
    unfold nameEq
    refine (Region.load_post (by omega)).bind fun x _ => ?_
    split_ifs
    · exact ih (by omega)
    · exact Post.pure trivial

theorem makeNode_post (hsz : 2048 ≤ fs.image.size) (h : fs.InodeOK n 8) (name : Name) :
    Post (fs.makeNode n name) fun r => ∀ node, r = some node → node.inode = n := by
  unfold makeNode
  refine (getInode_post hsz h).bind fun r hr => ?_
  cases r with
  | none => exact Post.pure fun node hnode => by cases hnode
  | some p =>
    obtain ⟨-, -, h8⟩ := hr p rfl
    simp only
    refine (Region.load_post (by omega)).bind fun length _ => ?_
    refine (Region.load_post (by omega)).bind fun mode _ => Post.pure fun node hnode => ?_
    cases hnode
    rfl

theorem finddirVisit_post (hsz : 2048 ≤ fs.image.size) (h : fs.RecordOK d) (hl : fs.Live d)
    (hlisted : fs.Listed (fs.recInode d)) (name : Name) (t : Unit) :
    Post (fs.finddirVisit name d t)
      (·.Sat (fun r => ∀ node, r = some node → fs.Listed node.inode) fun _ => True) := by
  have hname := h.name hl
  unfold finddirVisit
  rw [h.nameLen_load hl, ok_bind]
  split_ifs with hlen
  · refine (nameEq_safe (by omega)).bind fun eq _ => ?_
    split_ifs
    · rw [h.inode_load, ok_bind]
      refine (makeNode_post hsz (h.inode hl) name).bind fun r hr => Post.pure fun node hnode => ?_
      rw [hr node hnode]
      exact hlisted
    · exact Post.pure trivial
  · exact Post.pure trivial

theorem finddir_post (hsz : 2048 ≤ fs.image.size) (hlisted : fs.Listed n) (h : fs.NodeOK n) (name : Name) :
    Post (fs.finddir n name) fun r => ∀ node, r = .node node → fs.Listed node.inode := by
  unfold finddir
  refine (getInode_post hsz h.inode).bind fun r hr => ?_
  cases r with
  | none => exact Post.pure fun node hnode => by cases hnode
  | some p =>
    obtain ⟨rfl, hfound, h2⟩ := hr p rfl
    have hmode : fs.inodeMode (fs.inodeAt n) = .ok (load 2 fs.image.bytes (fs.inodeAt n)) := Region.load_ok h2
    simp only
    rw [hmode, ok_bind]
    by_cases hdir : fs.IsDir (fs.inodeAt n)
    swap
    · rw [if_pos (not_not.1 hdir)]
      exact Post.pure fun node hnode => by cases hnode
    rw [if_neg hdir]
    split_ifs
    · exact Post.pure fun node hnode => by cases hnode
    have hok := h.dir hfound hdir
    refine (scanDir_post hok (fun d hd hl t _ => finddirVisit_post hsz (hok.records d hd) hl
      (hlisted.entry hfound hdir hd hl) name t) (by norm_num) trivial).bind fun flow hsat => ?_
    cases flow with
    | next t => exact Post.pure fun node hnode => by cases hnode
    | ret r =>
      cases r with
      | none => exact Post.pure fun node hnode => by cases hnode
      | some node =>
        refine Post.pure fun node' hnode => ?_
        cases hnode
        exact hsat node rfl

/-! ### Runs -/

/-- `finddir` on a node returns another one. -/
inductive FindStep (fs : Ext2Fs) : Ext2Node → Ext2Node → Prop
  | found {node child : Ext2Node} (name : Name)
      (h : fs.finddir node.inode name = .ok (.node child)) : FindStep fs node child

/-- The operations on a node end without a fault, whatever their arguments are. -/
structure NodeSafe (fs : Ext2Fs) (n : ℕ) : Prop where
  read : ∀ offset < 2 ^ 32, ∀ size < 2 ^ 32, ∀ buffer, Post (fs.read n offset size buffer) fun _ => True
  readdir : ∀ index < 2 ^ 32, Post (fs.readdir n index) fun _ => True
  finddir : ∀ name, Post (fs.finddir n name) fun _ => True

theorem createFs_ok {image : Image} (h : ext2CreateFs image = .ok (some fs)) : 2048 ≤ fs.image.size := by
  unfold ext2CreateFs at h
  by_cases hsz : image.size < 2048
  · rw [if_pos hsz] at h
    cases h
  rw [if_neg hsz] at h
  obtain ⟨magic, -, h⟩ := bind_ok h
  by_cases hmagic : magic ≠ ext2SuperMagic
  · rw [if_pos hmagic] at h
    cases h
  rw [if_neg hmagic] at h
  obtain ⟨log, -, h⟩ := bind_ok h
  obtain ⟨isz, -, h⟩ := bind_ok h
  cases h
  exact Nat.le_of_not_lt hsz

/-- What mounting says about the image and the root. -/
theorem mount_ok {image : Image} {root : Ext2Node} (hm : ext2Mount image = .ok (some (fs, root))) :
    2048 ≤ fs.image.size ∧ root.inode = 2 := by
  unfold ext2Mount at hm
  obtain ⟨mfs, hfs, hm⟩ := bind_ok hm
  cases mfs with
  | none => cases hm
  | some fs' =>
    obtain ⟨ino, -, hm⟩ := bind_ok hm
    cases ino with
    | none =>
      cases hm
      exact ⟨createFs_ok hfs, rfl⟩
    | some p =>
      obtain ⟨length, -, hm⟩ := bind_ok hm
      cases hm
      exact ⟨createFs_ok hfs, rfl⟩

/-- **Images that are read safely.** After an image that meets `ImageOK` was mounted, all operations on all nodes
that `finddir` reaches from the root read only in the image and divide only by numbers that are not zero. -/
theorem image_safe {image : Image} {root node : Ext2Node} (hm : ext2Mount image = .ok (some (fs, root)))
    (hok : fs.ImageOK) (hrun : Relation.ReflTransGen fs.FindStep root node) : fs.NodeSafe node.inode := by
  obtain ⟨hsz, hroot⟩ := mount_ok hm
  have hlisted : fs.Listed node.inode := by
    refine run_inv (I := fun node : Ext2Node => fs.Listed node.inode) (fun a b ha hab => ?_) ?_ hrun
    · obtain ⟨name, h⟩ := hab
      exact (finddir_post hsz ha (hok _ ha) name).of_eq h b rfl
    · rw [hroot]
      exact .root
  have hnode := hok _ hlisted
  refine ⟨fun offset hoff size hsize buffer => ?_, fun index _ => ?_, fun name => ?_⟩
  · exact read_safe hsz hnode hoff hsize buffer
  · exact readdir_safe hsz hnode index
  · exact (finddir_post hsz hlisted hnode name).mono fun _ _ => trivial

/-- A root directory with one entry, for a file of two bytes. -/
def smallImage : Image where
  size := 6144
  bytes i := (List.lookup i [(1064, 8), (1080, 0x53), (1081, 0xEF), (1112, 128), (2056, 3), (3201, 0x40), (3240, 4),
    (3329, 0x80), (3332, 2), (3368, 5), (4096, 3), (4101, 4), (4102, 1), (4104, 97), (5120, 9), (5121, 8)]).getD 0
  size_lt := by norm_num

def smallFs : Ext2Fs := ⟨smallImage, 1024, 128, block_1024, inode_128⟩

theorem small_inodeOK (hn : n = 2 ∨ n = 3) (hk : k ≤ 128) : smallFs.InodeOK n k := by
  have hsize : smallFs.image.size = 6144 := rfl
  rcases hn with rfl | rfl
  · have hat : smallFs.inodeAt 2 = 3200 := by decide +kernel
    exact ⟨fun _ => by decide +kernel, fun _ _ => by decide +kernel, fun _ => by omega⟩
  · have hat : smallFs.inodeAt 3 = 3328 := by decide +kernel
    exact ⟨fun _ => by decide +kernel, fun _ _ => by decide +kernel, fun _ => by omega⟩

/-- The only record is the first one of block 4. -/
theorem small_record (h : smallFs.RecordIn 3200 d) : d = 4096 := by
  obtain ⟨i, hi, hst, o, ho, hrec, rfl⟩ := h
  have hptr : i = 0 := by
    by_contra hne
    have h0 : ∀ j < 12, j ≠ 0 → smallFs.ptr 3200 j = 0 := by decide +kernel
    exact hst.1 (h0 i hi hne)
  subst hptr
  have hmul : mul32 (smallFs.ptr 3200 0) smallFs.blockSize = 4096 := by decide +kernel
  rw [hmul] at hrec ⊢
  have hbs : smallFs.blockSize = 1024 := rfl
  -- the first record fills the block
  have hplace : o = 0 ∨ o = 1024 := by
    induction hrec with
    | first => exact .inl rfl
    | next hrec' ho' hne ih =>
      rcases ih ho' with rfl | rfl
      · right
        decide +kernel
      · omega
  omega

theorem small_listed (h : smallFs.Listed n) : n = 2 ∨ n = 3 := by
  induction h with
  | root => exact .inl rfl
  | entry _ _ hdir hrec _ ih =>
    rcases ih with rfl | rfl
    · have hat : smallFs.inodeAt 2 = 3200 := by decide +kernel
      rw [hat] at hrec
      rw [small_record hrec]
      right
      decide +kernel
    · exact absurd hdir (by unfold IsDir; decide +kernel)

theorem small_ok : smallFs.ImageOK := by
  have hsize : smallFs.image.size = 6144 := rfl
  intro n hn
  rcases small_listed hn with rfl | rfl
  · have hat : smallFs.inodeAt 2 = 3200 := by decide +kernel
    have hdir : smallFs.IsDir (smallFs.inodeAt 2) := by unfold IsDir; decide +kernel
    refine ⟨small_inodeOK (.inl rfl) (by norm_num), fun _ hnot => absurd hdir hnot, fun _ _ =>
      ⟨by omega, fun d hd => ?_⟩⟩
    rw [hat] at hd
    rw [small_record hd]
    have hino : smallFs.recInode 4096 = 3 := by decide +kernel
    have hlen : smallFs.recNameLen 4096 = 1 := by decide +kernel
    refine ⟨by omega, fun _ => by omega, fun _ => by omega, fun _ => ?_⟩
    exact small_inodeOK (.inr hino) (by norm_num)
  · have hat : smallFs.inodeAt 3 = 3328 := by decide +kernel
    have hfile : ¬ smallFs.IsDir (smallFs.inodeAt 3) := by unfold IsDir; decide +kernel
    refine ⟨small_inodeOK (.inr rfl) (by norm_num), fun _ _ => ?_, fun _ hdir => absurd hdir hfile⟩
    rw [hat]
    have h12 : smallFs.ptr 3328 12 = 0 := by decide +kernel
    refine ⟨by omega, fun _ => by decide, fun i _ => ⟨fun hi => by omega, fun _ _ => by omega, fun _ _ hst => ?_⟩,
      fun _ i _ hst => ?_⟩
    · exact absurd h12 hst.1
    · have hfit : ∀ j < 12, smallFs.ptr 3328 j ≠ 0 →
          mul32 (smallFs.ptr 3328 j) smallFs.blockSize + smallFs.blockSize ≤ smallFs.image.size := by decide +kernel
      by_cases hi : i < 12
      · have hb : smallFs.storedBlock 3328 i = smallFs.ptr 3328 i := if_pos hi
        rw [hb] at hst ⊢
        exact hfit i hi hst.1
      · have hb : smallFs.storedBlock 3328 i = 0 := by
          unfold storedBlock
          rw [if_neg hi, if_neg fun hc => hc.2.1 h12]
        exact absurd hb hst.1

/-- The file of this image. -/
theorem image_safe_small : ∃ node, smallFs.finddir 2 [97] = .ok (.node node) ∧ smallFs.NodeSafe node.inode :=
  ⟨⟨3, false, 2, [97]⟩, rfl,
    @image_safe smallFs smallImage (rootNode 0) _ rfl small_ok (.single (.found [97] rfl))⟩

/-- The second record of the root directory begins at the end of the image. -/
def cutImage : Image where
  size := 2100
  bytes i := (List.lookup i [(1064, 8), (1080, 0x53), (1081, 0xEF), (1112, 128), (1153, 0x40), (1192, 2), (2052, 52),
    (2056, 1)]).getD 0
  size_lt := by norm_num

/-- The block size is shifted out of its word. -/
def shiftImage : Image where
  size := 2048
  bytes i := (List.lookup i [(132, 1), (1048, 22), (1064, 8), (1080, 0x53), (1081, 0xEF), (1112, 128)]).getD 0
  size_lt := by norm_num

/-- Both images are mounted; `readdir` leaves the one, and `read` divides by zero on the other. -/
theorem image_unsafe :
    (∃ fs root, ext2Mount cutImage = .ok (some (fs, root)) ∧ fs.readdir root.inode 0 = .error .outside) ∧
      ∃ fs root, ext2Mount shiftImage = .ok (some (fs, root)) ∧
        fs.read root.inode 0 1 (fun _ => 0) = .error .divZero := by
  have hdir : Ext2Fs.readdir ⟨cutImage, 1024, 128, by norm_num, by norm_num⟩ 2 0 = .error .outside := by
    decide +kernel
  exact ⟨⟨_, rootNode 0, rfl, hdir⟩, ⟨shiftImage, 0, 128, by norm_num, by norm_num⟩, rootNode 1, rfl, rfl⟩

end Saynaa.Ext2Fs
