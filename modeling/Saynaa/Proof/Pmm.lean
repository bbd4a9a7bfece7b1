import Saynaa.Mem.Pmm

/-!
# Physical frames are exclusive

* `mmapFindFree_spec`, `mmapFindFreeFrame_spec`: a search that finds a block finds
  free blocks.
* `exec_ok`: one call marks what it grants and clears what it frees.
* `frames_exclusive` (every run of calls): a grant consists of free blocks that
  nobody holds, and the bitmap is the initial one plus the held blocks.
-/

namespace Saynaa

open Lib Pmm

variable {p : Pmm}

@[simp] theorem maxBlocks_mmapSet (b : ℕ) : (p.mmapSet b).maxBlocks = p.maxBlocks := rfl

@[simp] theorem maxBlocks_mmapUnset (b : ℕ) : (p.mmapUnset b).maxBlocks = p.maxBlocks := rfl

@[simp] theorem used_mmapSet (b c : ℕ) : (p.mmapSet b).Used c ↔ c = b ∨ p.Used c := by
  simp [Used, mmapSet, getBit_setBit]

@[simp] theorem used_mmapUnset (b c : ℕ) : (p.mmapUnset b).Used c ↔ c ≠ b ∧ p.Used c := by
  simp [Used, mmapUnset, getBit_clearBit]

@[simp] theorem mem_blockRange {first num c : ℕ} :
    c ∈ blockRange first num ↔ first ≤ c ∧ c < first + num := Iff.rfl

theorem used_mmapSetRange (first num c : ℕ) :
    (p.mmapSetRange first num).Used c ↔ c ∈ blockRange first num ∨ p.Used c := by
  induction num with
  | zero => simp [mmapSetRange]
  | succ n ih => simp only [mmapSetRange, used_mmapSet, ih, mem_blockRange]; grind

theorem used_mmapUnsetRange (first num c : ℕ) :
    (p.mmapUnsetRange first num).Used c ↔ c ∉ blockRange first num ∧ p.Used c := by
  induction num with
  | zero => simp [mmapUnsetRange]
  | succ n ih => simp only [mmapUnsetRange, used_mmapUnset, ih, mem_blockRange]; grind

/-- The bit test of the two searches. -/
theorem nthBit_test {i j : ℕ} (hj : j < 32) :
    p.bitmap i &&& nthBit j = 0 ↔ ¬ p.Used (i * 32 + j) := by
  have h1 : (i * 32 + j) / 32 = i := by omega
  have h2 : (i * 32 + j) % 32 = j := by omega
  simp [Used, getBit, nthBit, h1, h2, and_bitMask_eq_zero hj]

/-- **The first free bit** is free and inside the scanned words. -/
theorem mmapFindFree_spec (h : p.mmapFindFree ≠ 0) :
    ¬ p.Used p.mmapFindFree ∧ p.mmapFindFree < p.maxBlocks := by
  have key := forUp_rule (σ := Unit) (ρ := ℕ)
    (f := fun i _ =>
      if p.bitmap i ≠ 0xFFFFFFFF#32 then
        forUp (fun j _ =>
          if p.bitmap i &&& nthBit j = 0 then .ret (i * 32 + j) else .next ()) 0 32 ()
      else .next ())
    (Q := fun b => ¬ p.Used b ∧ b < p.maxBlocks) (I := fun _ _ => True) (p.maxBlocks / 32) 0 ()
    (by
      intro i _ _ hi _
      split_ifs with hw
      · refine (forUp_rule (I := fun _ _ => True) 32 0 () ?_ trivial).mono (fun r hr => hr)
          (fun _ _ => trivial)
        intro j _ _ hj _
        split_ifs with hb
        · exact ⟨(nthBit_test (by omega)).1 hb, by omega⟩
        · trivial
      · trivial)
    trivial
  unfold mmapFindFree at h ⊢
  generalize forUp _ 0 (p.maxBlocks / 32) () = x at key h ⊢
  cases x with
  | next _ => exact absurd rfl h
  | ret b => exact key

/-- The locals of the run search when it is about to look at block `b`: the last
`count` blocks before `b` are free and start at `first`. -/
structure ScanOK (p : Pmm) (b : ℕ) (s : Scan) : Prop where
  idle : s.count = 0 → s.first = 0
  run : 0 < s.count → s.first ≠ 0 ∧ s.first + s.count = b
  free : ∀ c, s.first ≤ c → c < b → 0 < s.count → ¬ p.Used c

/-- A run of `n` free blocks at `r`, in the scanned words. -/
def FreeRun (p : Pmm) (n r : ℕ) : Prop :=
  r + n ≤ p.maxBlocks ∧ ∀ c ∈ blockRange r n, ¬ p.Used c

theorem ScanOK.freeRun {b : ℕ} {s : Scan} (hs : ScanOK p b s) (hb : b ≤ p.maxBlocks)
    (hr : s.first ≠ 0) : FreeRun p s.count s.first := by
  have hc : 0 < s.count := Nat.pos_of_ne_zero fun h => hr (hs.idle h)
  obtain ⟨-, he⟩ := hs.run hc
  exact ⟨by omega, fun c ⟨h1, h2⟩ => hs.free c h1 (by omega) hc⟩

theorem ScanOK.reset (b : ℕ) : ScanOK p b ⟨0, 0⟩ :=
  ⟨fun _ => rfl, fun h => absurd h (lt_irrefl 0), fun _ _ _ h => absurd h (lt_irrefl 0)⟩

/-- Counting a free block keeps the invariant. Block 0 is taken, so 0 is never the
first block of a run. -/
theorem ScanOK.count {b : ℕ} {s : Scan} (hs : ScanOK p b s) (h0 : p.Used 0) (hb : ¬ p.Used b) :
    ScanOK p (b + 1) ⟨if s.first = 0 then b else s.first, s.count + 1⟩ := by
  have hne : b ≠ 0 := fun h => hb (h ▸ h0)
  rcases Nat.eq_zero_or_pos s.count with hc | hc
  · rw [if_pos (hs.idle hc), hc]
    refine ⟨by simp, fun _ => ⟨hne, rfl⟩, fun c h1 h2 _ => ?_⟩
    rwa [show c = b by simp only at h1; omega]
  · obtain ⟨hf, he⟩ := hs.run hc
    rw [if_neg hf]
    refine ⟨by simp, fun _ => ⟨hf, by simp only; omega⟩, fun c h1 h2 _ => ?_⟩
    rcases Nat.lt_or_ge c b with h | h
    · exact hs.free c h1 h hc
    · rwa [show c = b by omega]

/-- One bit of the run search keeps its invariant. -/
theorem scanBit_ok (h0 : p.Used 0) {n i j : ℕ} {s : Scan} (hj : j < 32)
    (hi : i < p.maxBlocks / 32) (hs : ScanOK p (i * 32 + j) s) :
    (p.scanBit n i j s).Sat (fun r => r ≠ 0 → FreeRun p n r) (ScanOK p (i * 32 + (j + 1))) := by
  unfold scanBit
  set s' : Scan := if p.bitmap i &&& nthBit j = 0 then
      ⟨if s.first = 0 then i * 32 + j else s.first, s.count + 1⟩ else ⟨0, 0⟩ with hs'
  have hok : ScanOK p (i * 32 + j + 1) s' := by
    by_cases hb : p.bitmap i &&& nthBit j = 0
    · rw [hs', if_pos hb]; exact hs.count h0 ((nthBit_test hj).1 hb)
    · rw [hs', if_neg hb]; exact ScanOK.reset _
  simp only
  split_ifs with hn
  · intro hr
    rw [← hn]
    exact hok.freeRun (by omega) hr
  · exact hok

/-- **The run search** returns 0 or a run of free blocks. -/
theorem mmapFindFreeFrame_spec (h0 : p.Used 0) {n : ℕ} (h : p.mmapFindFreeFrame n ≠ 0) :
    FreeRun p n (p.mmapFindFreeFrame n) := by
  have key := forUp_rule (Q := fun r => r ≠ 0 → FreeRun p n r)
    (I := fun i s => ScanOK p (i * 32) s)
    (f := fun i s =>
      if p.bitmap i ≠ 0xFFFFFFFF#32 then forUp (p.scanBit n i) 0 32 s else .next ⟨0, 0⟩)
    (p.maxBlocks / 32) 0 ⟨0, 0⟩
    (by
      intro i s _ hi hs
      split_ifs with hw
      · refine (forUp_rule (I := fun j s => ScanOK p (i * 32 + j) s) 32 0 s
          (fun j s _ hj hs => scanBit_ok h0 (by omega) (by omega) hs) hs).mono (fun r hr => hr)
          (fun s hs => ?_)
        rwa [show (i + 1) * 32 = i * 32 + (0 + 32) by omega]
      · exact ScanOK.reset _)
    (ScanOK.reset _)
  unfold mmapFindFreeFrame at h ⊢
  generalize forUp _ 0 (p.maxBlocks / 32) _ = x at key h ⊢
  cases x with
  | next _ => exact absurd rfl h
  | ret b => exact key h

/-! ### Calls -/

@[simp] theorem maxBlocks_mmapSetRange (first num : ℕ) :
    (p.mmapSetRange first num).maxBlocks = p.maxBlocks := by
  induction num with
  | zero => rfl
  | succ n ih => simp [mmapSetRange, ih]

/-- What a call that succeeds has done: it frees the blocks `F`, and grants blocks
`G` that were free. -/
structure CallOK (p p' : Pmm) (F G : Set ℕ) : Prop where
  used : ∀ b, p'.Used b ↔ (p.Used b ∧ b ∉ F) ∨ b ∈ G
  fresh : ∀ b ∈ G, ¬ p.Used b
  lt : ∀ b ∈ G, b < p.maxBlocks

theorem CallOK.refl : CallOK p p ∅ ∅ := ⟨by simp, by simp, by simp⟩

/-- Marking a free run grants it. -/
theorem FreeRun.callOK {n r : ℕ} (h : FreeRun p n r) :
    CallOK p (p.mmapSetRange r n) ∅ (blockRange r n) := by
  refine ⟨fun b => ?_, h.2, fun b hb => ?_⟩
  · rw [used_mmapSetRange]; simp only [Set.mem_empty_iff_false, not_false_eq_true, and_true]
    exact or_comm
  · have := h.1; rw [mem_blockRange] at hb; omega

theorem allocPage_ok {r : ℕ} {p' : Pmm} (h : p.pmmAllocPage = some (r, p')) :
    CallOK p p' ∅ (PmmCall.granted r .allocPage) ∧ r % pmmBlockSize = 0 := by
  simp only [pmmAllocPage] at h
  split_ifs at h with h1 h2
  · cases h; exact ⟨by simpa [PmmCall.granted] using CallOK.refl, rfl⟩
  · cases h
    obtain ⟨hu, hl⟩ := mmapFindFree_spec h2
    have hrun : FreeRun p 1 p.mmapFindFree := by
      refine ⟨by omega, fun c hc => ?_⟩
      rw [mem_blockRange] at hc
      rwa [show c = p.mmapFindFree by omega]
    refine ⟨?_, by simp [pmmBlockSize]⟩
    simpa [PmmCall.granted, h2, pmmBlockSize, mmapSetRange] using hrun.callOK

/-- The call, where the first free block is known. -/
theorem pmmAllocPage_eq {b : ℕ} (h : ¬ sub32 p.maxBlocks p.usedBlocks ≤ 0) (hb : p.mmapFindFree = b) :
    p.pmmAllocPage = if b = 0 then some (0, p) else some (b * pmmBlockSize, p.mmapSet b) := by
  subst hb
  exact if_neg h

/-- A page that was found: a fresh frame, marked as taken. -/
theorem allocPage_frame {r : ℕ} {p' : Pmm} (h : p.pmmAllocPage = some (r, p')) (hr : r ≠ 0) :
    ∃ f, r = f * 4096 ∧ f ≠ 0 ∧ f < 2 ^ 20 ∧ ¬ p.Used f ∧ ∀ b, p'.Used b ↔ p.Used b ∨ b = f := by
  obtain ⟨hc, h4⟩ := allocPage_ok h
  obtain ⟨f, rfl⟩ : ∃ f, r = f * 4096 := ⟨r / 4096, by unfold pmmBlockSize at h4; omega⟩
  have hg : PmmCall.granted (f * 4096) .allocPage = blockRange f 1 := by
    simp [PmmCall.granted, hr, pmmBlockSize]
  rw [hg] at hc
  have hf : f ∈ blockRange f 1 := mem_blockRange.2 ⟨le_rfl, by omega⟩
  refine ⟨f, rfl, by omega, lt_trans (hc.lt f hf) p.maxBlocks_lt, hc.fresh f hf, fun b => ?_⟩
  rw [hc.used, mem_blockRange]
  simp only [Set.mem_empty_iff_false, not_false_eq_true, and_true]
  exact or_congr_right ⟨fun h => by omega, fun h => by omega⟩

theorem allocPages_ok (h0 : p.Used 0) {num r : ℕ} {p' : Pmm} (h : p.pmmAllocPages num = (r, p')) :
    CallOK p p' ∅ (PmmCall.granted r (.allocPages num)) ∧ r % pmmBlockSize = 0 := by
  simp only [pmmAllocPages] at h
  split_ifs at h with h1 h2
  · cases h; exact ⟨by simpa [PmmCall.granted] using CallOK.refl, rfl⟩
  · cases h; exact ⟨by simpa [PmmCall.granted] using CallOK.refl, rfl⟩
  · cases h
    refine ⟨?_, by simp [pmmBlockSize]⟩
    simpa [PmmCall.granted, h2, pmmBlockSize] using (mmapFindFreeFrame_spec h0 h2).callOK

/-- The 4 MiB area lies inside the run of 8 MiB. -/
theorem allocAlignedLargePage_ok (h0 : p.Used 0) {r : ℕ} {p' : Pmm}
    (h : p.pmmAllocAlignedLargePage = (r, p')) :
    CallOK p p' ∅ (PmmCall.granted r .allocAlignedLargePage) ∧
      r % (1024 * pmmBlockSize) = 0 := by
  simp only [pmmAllocAlignedLargePage] at h
  split_ifs at h with h1 h2
  · cases h; exact ⟨by simpa [PmmCall.granted] using CallOK.refl, rfl⟩
  · cases h; exact ⟨by simpa [PmmCall.granted] using CallOK.refl, rfl⟩
  · cases h
    obtain ⟨hle, hfree⟩ := mmapFindFreeFrame_spec h0 h2
    set f := p.mmapFindFreeFrame (2 * 1024) with hf
    have hrun : FreeRun p 1024 ((f / 1024 + 1) * 1024) := by
      refine ⟨by omega, fun c hc => hfree c ?_⟩
      rw [mem_blockRange] at hc ⊢
      omega
    refine ⟨?_, by unfold pmmBlockSize; omega⟩
    have hq : (f / 1024 + 1) * 1024 * 4096 / 4096 = (f / 1024 + 1) * 1024 := by omega
    simpa [PmmCall.granted, pmmBlockSize, hq] using hrun.callOK

/-- **One call.** -/
theorem exec_ok (h0 : p.Used 0) {c : PmmCall} {r : ℕ} {p' : Pmm} (h : c.exec p = some (r, p')) :
    CallOK p p' c.freed (c.granted r) := by
  cases c with
  | allocPage => exact (allocPage_ok h).1
  | allocPages num => exact (allocPages_ok h0 (Option.some.inj h)).1
  | allocAlignedLargePage => exact (allocAlignedLargePage_ok h0 (Option.some.inj h)).1
  | freePage addr =>
    cases h
    refine ⟨fun b => ?_, by simp [PmmCall.granted], by simp [PmmCall.granted]⟩
    simp only [pmmFreePage, used_mmapUnset, PmmCall.freed, PmmCall.granted, mem_blockRange]
    grind
  | freePages addr num =>
    cases h
    refine ⟨fun b => ?_, by simp [PmmCall.granted], by simp [PmmCall.granted]⟩
    simp only [pmmFreePages, used_mmapUnsetRange, PmmCall.freed, PmmCall.granted]
    grind

/-! ### Runs -/

/-- The bitmap is the initial one plus the held blocks, which were free initially. -/
structure HeldOK (p₀ : Pmm) (s : PmmHeld) : Prop where
  used : ∀ b, s.pmm.Used b ↔ p₀.Used b ∨ b ∈ s.held
  held : ∀ b ∈ s.held, ¬ p₀.Used b

theorem heldOK_step {p₀ : Pmm} (h0 : p₀.Used 0) {s t : PmmHeld} (hs : HeldOK p₀ s)
    (h : PmmStep s t) : HeldOK p₀ t := by
  obtain ⟨c, r, p', hfree, hexec⟩ := h
  have hc := exec_ok ((hs.used 0).2 (.inl h0)) hexec
  refine ⟨fun b => ?_, fun b hb => ?_⟩
  · -- a freed block was not taken initially, so clearing it restores the initial bit
    have hF : b ∈ c.freed → ¬ p₀.Used b := fun h => hs.held b (hfree h)
    simp only [hc.used, hs.used, Set.mem_union, Set.mem_sdiff]
    tauto
  · rcases hb with hb | hb
    · exact hs.held b hb.1
    · exact fun hu => hc.fresh b hb ((hs.used b).2 (.inl hu))

/-- The returned address starts a block; a large page is aligned to its size. -/
theorem exec_aligned (h0 : p.Used 0) {c : PmmCall} {r : ℕ} {p' : Pmm}
    (h : c.exec p = some (r, p')) :
    r % pmmBlockSize = 0 ∧ (c = .allocAlignedLargePage → r % (1024 * pmmBlockSize) = 0) := by
  cases c with
  | allocPage => exact ⟨(allocPage_ok h).2, nofun⟩
  | allocPages num => exact ⟨(allocPages_ok h0 (Option.some.inj h)).2, nofun⟩
  | allocAlignedLargePage =>
    have hr := (allocAlignedLargePage_ok h0 (Option.some.inj h)).2
    exact ⟨by unfold pmmBlockSize at hr ⊢; omega, fun _ => hr⟩
  | freePage addr => cases h; exact ⟨rfl, nofun⟩
  | freePages addr num => cases h; exact ⟨rfl, nofun⟩

/-- **Frames are exclusive.** After any run of calls from a bitmap in which block 0
is taken, the bitmap marks exactly the initially taken blocks and the blocks of the
outstanding allocations; and the blocks that any further call grants were free, are
held by nobody and do not include block 0. -/
theorem frames_exclusive {p₀ : Pmm} (h0 : p₀.Used 0) {s : PmmHeld}
    (hr : Relation.ReflTransGen PmmStep ⟨p₀, ∅⟩ s) :
    (∀ b, s.pmm.Used b ↔ p₀.Used b ∨ b ∈ s.held) ∧
      ∀ (c : PmmCall) (r : ℕ) (p' : Pmm), c.freed ⊆ s.held → c.exec s.pmm = some (r, p') →
        (∀ b ∈ c.granted r, ¬ s.pmm.Used b ∧ b ∉ s.held ∧ b ≠ 0) ∧
          r % pmmBlockSize = 0 ∧
          (c = .allocAlignedLargePage → r % (1024 * pmmBlockSize) = 0) := by
  have hs := run_inv (fun _ _ hs h => heldOK_step h0 hs h) (⟨by simp, by simp⟩ : HeldOK p₀ _) hr
  have hu0 : s.pmm.Used 0 := (hs.used 0).2 (.inl h0)
  refine ⟨hs.used, fun c r p' _ hexec => ⟨fun b hb => ?_, exec_aligned hu0 hexec⟩⟩
  have hfree := (exec_ok hu0 hexec).fresh b hb
  exact ⟨hfree, fun hh => hfree ((hs.used b).2 (.inr hh)), fun h => hfree (h ▸ hu0)⟩

theorem blocks_64 : 64 < 2 ^ 20 := by decide

/-- A machine with 64 blocks, of which only block 0 is taken. -/
def pmm64 : Pmm := ⟨fun i => if i = 0 then 1#32 else 0#32, 1, 64, blocks_64⟩

/-- A page, then three pages: the second grant starts behind the first. -/
theorem frames_exclusive_pmm64 :
    ∃ s p', Relation.ReflTransGen PmmStep ⟨pmm64, ∅⟩ s ∧
      (PmmCall.allocPages 3).exec s.pmm = some (2 * 4096, p') ∧
      ∀ b ∈ blockRange 2 3, ¬ s.pmm.Used b ∧ b ∉ s.held ∧ b ≠ 0 := by
  have h1 : PmmCall.allocPage.exec pmm64 = some (4096, pmm64.mmapSet 1) := by
    exact pmmAllocPage_eq (by decide +kernel) (by decide +kernel : pmm64.mmapFindFree = 1)
  have h2 : (PmmCall.allocPages 3).exec (pmm64.mmapSet 1) =
      some (2 * 4096, (pmm64.mmapSet 1).mmapSetRange 2 3) := by
    have hf : (pmm64.mmapSet 1).mmapFindFreeFrame 3 = 2 := by decide +kernel
    have hu : ¬ sub32 (pmm64.mmapSet 1).maxBlocks (pmm64.mmapSet 1).usedBlocks < 3 := by
      decide +kernel
    simp only [PmmCall.exec, pmmAllocPages, hf, hu, pmmBlockSize, if_false]
    rfl
  have hrun := Relation.ReflTransGen.single
    (PmmStep.call ⟨pmm64, ∅⟩ .allocPage 4096 _ (Set.empty_subset _) h1)
  have h := (frames_exclusive (by decide +kernel : pmm64.Used 0) hrun).2 (.allocPages 3) (2 * 4096)
    _ (Set.empty_subset _) h2
  exact ⟨_, _, hrun, h2, fun b hb => h.1 b (by simpa [PmmCall.granted, pmmBlockSize] using hb)⟩

end Saynaa
