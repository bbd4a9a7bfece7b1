import Saynaa.Dev.Fb

/-!
# The frame buffer device is a file

* `fbImage`: the header followed by the pixels.
* `devFb0Read_eq`: a read returns a slice of it.
* `devFb0Write_eq`: a write replaces a slice of the pixels.
* `fb0_slices`: both; `fb0_negative`: their results as signed words.
-/

namespace Saynaa

open Lib FbDevice

variable {fb : FbDevice} {pixels data : ℕ → UInt8} {buffer offset size : ℕ}

/-- **The contents** of `/dev/fb0`. -/
def fbImage (fb : FbDevice) (pixels : ℕ → UInt8) : List UInt8 := fb.info ++ copyOut pixels 0 (fb.pitch * fb.height)

theorem length_info : fb.info.length = fbdevInfoSize := by
  unfold info
  simp only [List.length_append, length_le]
  rfl

theorem fb0SizeBytes_eq (h : 20 + fb.pitch * fb.height < 2 ^ 32) : fb.fb0SizeBytes = fb.pitch * fb.height := by
  unfold fb0SizeBytes
  split_ifs with h0
  · rcases h0 with h0 | h0
    · rw [h0, zero_mul]
    · rw [h0, mul_zero]
  · exact Nat.mod_eq_of_lt (by omega)

theorem getElem_copyOut (q : ℕ → UInt8) (pos n i : ℕ) (hi : i < (copyOut q pos n).length) :
    (copyOut q pos n)[i] = q (pos + i) := by
  simp only [copyOut, List.getElem_map, List.getElem_range]

/-- A part of what is copied. -/
theorem slice_copyOut (q : ℕ → UInt8) {p n a k : ℕ} (h : a + k ≤ n) :
    ((copyOut q p n).drop a).take k = copyOut q (p + a) k := by
  apply List.ext_getElem
  · rw [List.length_take, List.length_drop, length_copyOut, length_copyOut]
    omega
  · intro i h1 h2
    rw [List.getElem_take, List.getElem_drop, getElem_copyOut, getElem_copyOut, Nat.add_assoc]

/-- **A read** returns the bytes from `offset` on. -/
theorem devFb0Read_eq (h : 20 + fb.pitch * fb.height < 2 ^ 32) (hbuf : buffer ≠ 0) (hsize : size ≠ 0) :
    fb.devFb0Read pixels buffer offset size =
      (toInt32 (((fbImage fb pixels).drop offset).take size).length,
        ((fbImage fb pixels).drop offset).take size) := by
  have hbytes := fb0SizeBytes_eq h
  have hinfo : fb.info.length = 20 := length_info
  have htotal : add32 fbdevInfoSize (fb.pitch * fb.height) = 20 + fb.pitch * fb.height := add32_of_lt h
  have hhdr : fbdevInfoSize = 20 := rfl
  unfold devFb0Read fbImage
  rw [if_neg (not_or.2 ⟨hbuf, hsize⟩)]
  simp only [hbytes, htotal]
  generalize fb.pitch * fb.height = P at h
  by_cases hend : offset ≥ 20 + P
  · rw [if_pos hend, List.drop_eq_nil_of_le (by rw [List.length_append, hinfo, length_copyOut]; omega), List.take_nil]
    rfl
  rw [if_neg hend, sub32_of_le (by omega) (by omega)]
  -- what is left of the file
  obtain ⟨k, hk⟩ : ∃ k, k = (if size > 20 + P - offset then 20 + P - offset else size) := ⟨_, rfl⟩
  have hslice : ((fb.info ++ copyOut pixels 0 P).drop offset).take size =
    ((fb.info ++ copyOut pixels 0 P).drop offset).take k := by
    rw [hk]
    split_ifs with hlong
    · rw [List.take_of_length_le (by rw [List.length_drop, List.length_append, hinfo, length_copyOut]; omega),
        List.take_of_length_le (by rw [List.length_drop, List.length_append, hinfo, length_copyOut])]
    · rfl
  have hk0 : 0 < k := by
    rw [hk]
    split_ifs <;> omega
  have hkP : offset + k ≤ 20 + P := by
    rw [hk]
    split_ifs <;> omega
  rw [← hk, hslice]
  clear hk hslice
  by_cases hhead : offset < 20
  · -- the read starts in the header
    rw [if_pos (⟨hhead, hk0⟩ : offset < fbdevInfoSize ∧ 0 < k)]
    simp only [hhdr]
    rw [List.drop_append_of_le_length (by omega)]
    by_cases hshort : k < 20 - offset
    · rw [if_pos hshort, if_neg (by omega), List.take_append_of_le_length (by rw [List.length_drop]; omega),
        List.length_take, List.length_drop, min_eq_left (by omega)]
    · rw [if_neg hshort]
      have hall : (fb.info.drop offset).take (20 - offset) = fb.info.drop offset :=
        List.take_of_length_le (by rw [List.length_drop]; omega)
      have hpart : (fb.info.drop offset ++ copyOut pixels 0 P).take k = fb.info.drop offset ++ copyOut pixels 0
        (k - (20 - offset)) := by
        have hcut := slice_copyOut pixels (p := 0) (n := P) (a := 0) (k := k - (20 - offset)) (by omega)
        rw [List.take_append, List.take_of_length_le (by rw [List.length_drop]; omega), List.length_drop, hinfo,
          ← hcut]
        rfl
      rw [hall, hpart, List.length_append, List.length_drop, length_copyOut, hinfo]
      by_cases hmore : 20 - offset < k
      · rw [if_pos (by omega), if_neg (by omega), show offset + (20 - offset) - 20 = 0 by omega, Nat.sub_zero]
        split_ifs with hlast
        · rfl
        · rw [show k - (20 - offset) = P by omega]
      · rw [if_neg (by omega), show k - (20 - offset) = 0 by omega]
        simp [copyOut]
  · -- the read starts in the pixels
    have hpix : ¬ (offset < fbdevInfoSize ∧ 0 < k) := fun hc => hhead hc.1
    rw [if_neg hpix]
    simp only [hhdr]
    have hcut : ((fb.info ++ copyOut pixels 0 P).drop offset).take k = copyOut pixels (offset - 20) k := by
      rw [List.drop_append, List.drop_eq_nil_of_le (by omega), List.nil_append, hinfo,
        slice_copyOut pixels (by omega), Nat.zero_add]
    rw [hcut, length_copyOut, if_pos ⟨by omega, hk0⟩, if_neg (by omega), Nat.sub_zero, List.nil_append, Nat.zero_add]
    split_ifs with hlast
    · rfl
    · rw [show P - (offset - 20) = k by omega]

/-- **A write** replaces the pixels from `offset - 20` on. -/
theorem devFb0Write_eq (h : 20 + fb.pitch * fb.height < 2 ^ 32) (hbuf : buffer ≠ 0) (hsize : size ≠ 0)
    (hoff : 20 ≤ offset) : fb.devFb0Write pixels buffer offset size data =
      (toInt32 (min size (fb.pitch * fb.height - (offset - 20))),
        copyIn pixels (offset - 20) (copyOut data 0 (min size (fb.pitch * fb.height - (offset - 20))))) := by
  have hbytes := fb0SizeBytes_eq h
  have hhdr : fbdevInfoSize = 20 := rfl
  unfold devFb0Write
  rw [if_neg (not_or.2 ⟨hbuf, hsize⟩)]
  simp only [hbytes, hhdr]
  rw [if_neg (by omega)]
  generalize fb.pitch * fb.height = P
  by_cases hend : offset - 20 ≥ P
  · -- past the end nothing is written
    rw [if_pos hend, show min size (P - (offset - 20)) = 0 by omega]
    refine Prod.ext rfl ?_
    funext i
    exact (copyIn_out (by rw [length_copyOut]; omega)).symm
  · rw [if_neg hend]
    split_ifs with hlong
    · rw [min_eq_right hlong.le]
    · rw [min_eq_left (by omega)]

/-- What a write leaves at each place. -/
theorem copyIn_copyOut (q data : ℕ → UInt8) (pos n i : ℕ) :
    copyIn q pos (copyOut data 0 n) i = if pos ≤ i ∧ i < pos + n then data (i - pos) else q i := by
  split_ifs with hi
  · have hlen : i - pos < (copyOut data 0 n).length := by
      rw [length_copyOut]
      omega
    rw [copyIn_in hi.1 hlen, getElem_copyOut, Nat.zero_add]
  · exact copyIn_out (by rw [length_copyOut]; omega)

/-- The part of the file that a read behind a write covers. -/
theorem fbImage_written (hoff : 20 ≤ offset) :
    ((fbImage fb (copyIn pixels (offset - 20)
      (copyOut data 0 (min size (fb.pitch * fb.height - (offset - 20)))))).drop offset).take
      size = copyOut data 0 (min size (fb.pitch * fb.height - (offset - 20))) := by
  have hinfo : fb.info.length = 20 := length_info
  unfold fbImage
  generalize fb.pitch * fb.height = P
  obtain ⟨n, hn⟩ : ∃ n, n = min size (P - (offset - 20)) := ⟨_, rfl⟩
  rw [← hn, List.drop_append, List.drop_eq_nil_of_le (by omega), List.nil_append, hinfo]
  have hcut (l : List UInt8) (hl : l.length = P - (offset - 20)) : l.take size = l.take n := by
    rcases le_total size (P - (offset - 20)) with hle | hle
    · rw [hn, min_eq_left hle]
    · rw [List.take_of_length_le (by omega), List.take_of_length_le (by omega)]
  rw [hcut _ (by rw [List.length_drop, length_copyOut])]
  rcases Nat.eq_zero_or_pos n with h0 | hpos
  · rw [h0]
    rfl
  rw [slice_copyOut _ (by omega), Nat.zero_add]
  have hback : copyOut (copyIn pixels (offset - 20) (copyOut data 0 n)) (offset - 20) (copyOut data 0 n).length =
    copyOut data 0 n :=
    copyOut_copyIn
  rwa [length_copyOut] at hback

/-- **`/dev/fb0` is the header followed by the pixels**: a read returns the bytes `[offset, offset + size)` of the
file, as far as there are any. A write from the header's end on changes exactly these bytes, and reading them back
returns the data. -/
theorem fb0_slices (fb : FbDevice) (pixels data : ℕ → UInt8) (buffer offset size : ℕ)
    (h : 20 + fb.pitch * fb.height < 2 ^ 32) (hbuf : buffer ≠ 0) (hsize : size ≠ 0) :
    let part := ((fbImage fb pixels).drop offset).take size
    fb.devFb0Read pixels buffer offset size = (toInt32 part.length, part) ∧
      (20 ≤ offset → ∀ n pixels', n = min size (fb.pitch * fb.height - (offset - 20)) →
        pixels' = (fb.devFb0Write pixels buffer offset size data).2 →
        (fb.devFb0Write pixels buffer offset size data).1 = toInt32 n ∧
        (∀ i, pixels' i = if offset - 20 ≤ i ∧ i < offset - 20 + n then data (i - (offset - 20)) else pixels i) ∧
        fb.devFb0Read pixels' buffer offset size = (toInt32 n, copyOut data 0 n)) := by
  refine ⟨devFb0Read_eq h hbuf hsize, ?_⟩
  intro hoff n pixels' hn hp
  rw [devFb0Write_eq h hbuf hsize hoff] at hp ⊢
  dsimp only at hp
  refine ⟨by rw [hn], ?_, ?_⟩
  · intro i
    rw [hp, hn, copyIn_copyOut]
  · rw [devFb0Read_eq h hbuf hsize, hp, fbImage_written hoff, length_copyOut, hn]

theorem fb0_slices_two : 20 + 8 * 2 < 2 ^ 32 ∧
    (⟨8, 2, 2, 32⟩ : FbDevice).devFb0Read (fun _ => 7) 4096 18 4 = (4, [0, 0, 7, 7]) := by
  refine ⟨by norm_num, ?_⟩
  have h := (fb0_slices ⟨8, 2, 2, 32⟩ (fun _ => 7) (fun _ => 9) 4096 18 4 (by norm_num) (by norm_num) (by norm_num)).1
  exact h

/-- **The number is a `ssize_t`**: a write of `2 ^ 31` bytes returns a negative number. -/
theorem fb0_negative : 20 + 2 ^ 16 * 2 ^ 15 < 2 ^ 32 ∧
    ((⟨2 ^ 16, 2 ^ 14, 2 ^ 15, 32⟩ : FbDevice).devFb0Write (fun _ => 0) 4096 20 (2 ^ 31) (fun _ => 1)).1 = -2 ^ 31 ∧
    min (2 ^ 31) (2 ^ 16 * 2 ^ 15 - (20 - 20)) = 2 ^ 31 := by
  refine ⟨by norm_num, ?_, by norm_num⟩
  rw [devFb0Write_eq (by norm_num) (by norm_num) (by norm_num) le_rfl]
  norm_num [toInt32]

end Saynaa
