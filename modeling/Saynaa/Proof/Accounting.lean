import Saynaa.Proof.Boot
import Saynaa.Proof.FirstFit

/-!
# The count of used blocks

* `setBlocks_mmapSet`, `setBlocks_mmapUnset`: how the number of set bits changes.
* `drift_exec`: calls keep the difference between `used_blocks` and that number.
* `accounting_off`: after `init_pmm` the count is too high, and stays so in every run.
-/

namespace Saynaa

open Lib Pmm

variable {p p' p₀ : Pmm} {b d n : ℕ}

/-- The blocks below `max_blocks` whose bit is set. -/
def Pmm.setBlocks (p : Pmm) : ℕ := ((Finset.range p.maxBlocks).filter fun b => p.Used b).card

theorem setBlocks_le (p : Pmm) : p.setBlocks ≤ p.maxBlocks :=
  (Finset.card_filter_le _ _).trans_eq (Finset.card_range _)

theorem setBlocks_mono (hmax : p'.maxBlocks = p.maxBlocks) (h : ∀ b, p.Used b → p'.Used b) :
    p.setBlocks ≤ p'.setBlocks := by
  unfold setBlocks
  rw [hmax]
  exact Finset.card_le_card (Finset.monotone_filter_right _ fun b _ hb => h b hb)

theorem setBlocks_mmapSet (hb : b < p.maxBlocks) (h : ¬ p.Used b) : (p.mmapSet b).setBlocks = p.setBlocks + 1 := by
  unfold setBlocks
  rw [← Finset.card_insert_of_notMem (a := b) (by simp [h])]
  congr 1
  ext c
  simp only [maxBlocks_mmapSet, used_mmapSet, Finset.mem_filter, Finset.mem_range, Finset.mem_insert]
  constructor
  · rintro ⟨hc, rfl | hu⟩
    · exact .inl rfl
    · exact .inr ⟨hc, hu⟩
  · rintro (rfl | ⟨hc, hu⟩)
    · exact ⟨hb, .inl rfl⟩
    · exact ⟨hc, .inr hu⟩

theorem setBlocks_mmapUnset (hb : b < p.maxBlocks) (h : p.Used b) : (p.mmapUnset b).setBlocks + 1 = p.setBlocks := by
  -- setting the bit again gives the old bits back
  have hback := setBlocks_mmapSet (p := p.mmapUnset b) hb (by simp)
  rw [← hback]
  unfold setBlocks
  congr 1
  ext c
  simp only [maxBlocks_mmapSet, maxBlocks_mmapUnset, used_mmapSet, used_mmapUnset, Finset.mem_filter]
  by_cases hc : c = b
  · subst hc
    simp [h]
  · simp [hc]

/-! ### Drift -/

/-- `used_blocks` is ahead of the number of set bits by `d`. -/
def Drift (d : ℕ) (p : Pmm) : Prop := p.usedBlocks = (p.setBlocks + d) % 2 ^ 32

theorem Drift.mmapSet (h : Drift d p) (hb : b < p.maxBlocks) (hu : ¬ p.Used b) : Drift d (p.mmapSet b) := by
  unfold Drift at h ⊢
  rw [setBlocks_mmapSet hb hu]
  show add32 p.usedBlocks 1 = _
  rw [h]
  unfold add32
  omega

theorem Drift.mmapUnset (h : Drift d p) (hb : b < p.maxBlocks) (hu : p.Used b) : Drift d (p.mmapUnset b) := by
  unfold Drift at h ⊢
  rw [← setBlocks_mmapUnset hb hu] at h
  show sub32 p.usedBlocks 1 = _
  rw [h]
  unfold sub32
  omega

theorem Drift.mmapSetRange (h : Drift d p) (hb : ∀ c ∈ blockRange b n, c < p.maxBlocks ∧ ¬ p.Used c) :
    Drift d (p.mmapSetRange b n) := by
  induction n with
  | zero => exact h
  | succ n ih =>
    have hlast := hb (b + n) (mem_blockRange.2 ⟨by omega, by omega⟩)
    have hfirst := ih fun c hc => hb c (mem_blockRange.2 ⟨hc.1, by have := hc.2; omega⟩)
    refine hfirst.mmapSet (by rw [maxBlocks_mmapSetRange]; exact hlast.1) ?_
    rw [used_mmapSetRange, mem_blockRange, not_or]
    exact ⟨by omega, hlast.2⟩

@[simp] theorem maxBlocks_mmapUnsetRange (b n : ℕ) : (p.mmapUnsetRange b n).maxBlocks = p.maxBlocks := by
  induction n with
  | zero => rfl
  | succ n ih => simp [mmapUnsetRange, ih]

theorem Drift.mmapUnsetRange (h : Drift d p) (hb : ∀ c ∈ blockRange b n, c < p.maxBlocks ∧ p.Used c) :
    Drift d (p.mmapUnsetRange b n) := by
  induction n with
  | zero => exact h
  | succ n ih =>
    have hlast := hb (b + n) (mem_blockRange.2 ⟨by omega, by omega⟩)
    have hfirst := ih fun c hc => hb c (mem_blockRange.2 ⟨hc.1, by have := hc.2; omega⟩)
    refine hfirst.mmapUnset (by rw [maxBlocks_mmapUnsetRange]; exact hlast.1) ?_
    rw [used_mmapUnsetRange, mem_blockRange]
    exact ⟨by omega, hlast.2⟩

/-- **One call** keeps the drift and the number of blocks. -/
theorem drift_exec {c : PmmCall} {r : ℕ} (h0 : p.Used 0) (hfree : ∀ b ∈ c.freed, b < p.maxBlocks ∧ p.Used b)
    (h : c.exec p = some (r, p')) (hd : Drift d p) : Drift d p' ∧ p'.maxBlocks = p.maxBlocks := by
  cases c with
  -- what is taken is counted
  | allocPage =>
    simp only [PmmCall.exec, pmmAllocPage] at h
    split_ifs at h with h1 h2
    · cases h
      exact ⟨hd, rfl⟩
    · cases h
      obtain ⟨hu, hlt⟩ := mmapFindFree_spec h2
      exact ⟨hd.mmapSet hlt hu, rfl⟩
  | allocPages num =>
    simp only [PmmCall.exec, pmmAllocPages] at h
    split_ifs at h with h1 h2
    · cases h
      exact ⟨hd, rfl⟩
    · cases h
      exact ⟨hd, rfl⟩
    · cases h
      obtain ⟨hlt, hu⟩ := mmapFindFreeFrame_spec h0 h2
      exact ⟨hd.mmapSetRange fun c hc => ⟨by have := hc.2; omega, hu c hc⟩, maxBlocks_mmapSetRange ..⟩
  | allocAlignedLargePage =>
    simp only [PmmCall.exec, pmmAllocAlignedLargePage] at h
    split_ifs at h with h1 h2
    · cases h
      exact ⟨hd, rfl⟩
    · cases h
      exact ⟨hd, rfl⟩
    · cases h
      obtain ⟨hlt, hu⟩ := mmapFindFreeFrame_spec h0 h2
      refine ⟨hd.mmapSetRange fun c hc => ?_, maxBlocks_mmapSetRange ..⟩
      obtain ⟨hc1, hc2⟩ := hc
      exact ⟨by omega, hu c ⟨by omega, by omega⟩⟩
  -- the freed block was taken
  | freePage addr =>
    cases h
    obtain ⟨hlt, hu⟩ := hfree (addr / pmmBlockSize) (mem_blockRange.2 ⟨le_rfl, by omega⟩)
    exact ⟨hd.mmapUnset hlt hu, rfl⟩
  | freePages addr num =>
    cases h
    exact ⟨hd.mmapUnsetRange hfree, maxBlocks_mmapUnsetRange ..⟩

/-! ### Runs -/

/-- Nothing changes the drift, and the held blocks are below `max_blocks`. -/
structure AccountOK (d : ℕ) (p₀ : Pmm) (s : PmmHeld) : Prop where
  held : HeldOK p₀ s
  max : s.pmm.maxBlocks = p₀.maxBlocks
  lt : ∀ b ∈ s.held, b < p₀.maxBlocks
  drift : Drift d s.pmm

theorem accountOK_step (h0 : p₀.Used 0) {s t : PmmHeld} (hs : AccountOK d p₀ s) (h : PmmStep s t) :
    AccountOK d p₀ t := by
  have hheld := heldOK_step h0 hs.held h
  obtain ⟨c, r, p', hfree, hexec⟩ := h
  have hu0 : s.pmm.Used 0 := (hs.held.used 0).2 (.inl h0)
  obtain ⟨hdrift, hmax⟩ := drift_exec hu0 (fun b hb => ⟨hs.max ▸ hs.lt b (hfree hb),
    (hs.held.used b).2 (.inr (hfree hb))⟩) hexec hs.drift
  refine ⟨hheld, hmax.trans hs.max, fun b hb => ?_, hdrift⟩
  rcases hb with hb | hb
  · exact hs.lt b hb.1
  · exact hs.max ▸ (exec_ok hu0 hexec).lt b hb

/-- **The count is off.** Whatever the memory map, after `init_pmm` and any allocations and frees of
outstanding allocations `used_blocks` is not the number of set bits: it exceeds even `max_blocks`, and
the guard of the allocators is not the number of free blocks. -/
theorem accounting_off {k : KernelImage} {boot : Mb2} {s : PmmHeld} (hinit : initPmm k boot = .ok p)
    (hrun : Relation.ReflTransGen PmmStep ⟨p, ∅⟩ s) :
    s.pmm.usedBlocks ≠ s.pmm.setBlocks ∧ s.pmm.maxBlocks < s.pmm.usedBlocks ∧
      sub32 s.pmm.maxBlocks s.pmm.usedBlocks ≠ s.pmm.maxBlocks - s.pmm.setBlocks := by
  obtain ⟨entries, hk, hmap, hin⟩ := initPmm_ok hinit
  obtain ⟨q, hq, hused, hgt, hlt, -⟩ := initPmm_spec hk hmap hin
  obtain rfl : q = p := Except.ok.inj (hq.symm.trans hinit)
  have hle := setBlocks_le q
  have hdrift : Drift (q.usedBlocks - q.setBlocks) q := by
    unfold Drift
    omega
  have h0 : q.Used 0 := by
    rw [hused]
    have h1 := le_kernelEnd k boot
    exact .inl (.inl (by omega))
  have hs := run_inv (I := AccountOK (q.usedBlocks - q.setBlocks) q) (fun _ _ hs h => accountOK_step h0 hs h)
    ⟨⟨by simp, by simp⟩, rfl, by simp, hdrift⟩ hrun
  have hmono := setBlocks_mono hs.max fun b hb => (hs.held.used b).2 (.inl hb)
  have hmax := hs.max
  have hcount := hs.drift
  have hle' := setBlocks_le s.pmm
  have hm := q.maxBlocks_lt
  unfold Drift at hcount
  unfold sub32
  omega

/-- Four megabytes of available memory, of which the kernel has the first two. -/
def lowMemory : MmapEntry := ⟨0, 0x400000, mb2MmapAvail, by norm_num, by norm_num⟩

theorem lowMemory_in : ∀ e ∈ [lowMemory], e.Avail → e.InBitmap := by
  intro e he _
  rw [List.mem_singleton.1 he]
  unfold MmapEntry.InBitmap
  decide

/-- A frame of them has been allocated. -/
theorem accounting_off_alloc : ∃ p s, initPmm kernel1M (bootWith [lowMemory]) = .ok p ∧
    Relation.ReflTransGen PmmStep ⟨p, ∅⟩ s ∧ s.held ≠ ∅ ∧
    s.pmm.usedBlocks ≠ s.pmm.setBlocks ∧ s.pmm.maxBlocks < s.pmm.usedBlocks ∧
      sub32 s.pmm.maxBlocks s.pmm.usedBlocks ≠ s.pmm.maxBlocks - s.pmm.setBlocks := by
  obtain ⟨p, hp, hused, hgt, hlt, hmax⟩ := initPmm_spec (by decide : kernel1M.endVirt ≤ kernelEndMap)
    (show (bootWith [lowMemory]).findMmap = some [lowMemory] from rfl) lowMemory_in
  have hblocks : p.maxBlocks = 1024 := hmax
  have h0 : p.Used 0 := (hused 0).2 (.inl (.inl (by rw [kernelEnd_bootWith]; norm_num)))
  have hclear : ¬ p.Used 512 := by
    rw [hused, not_or, not_protected, kernelEnd_bootWith]
    refine ⟨by decide, fun hall => hall lowMemory List.mem_cons_self rfl ?_⟩
    show 512 ∈ blockRange lowMemory.blocks.1 lowMemory.blocks.2
    rw [mem_blockRange]
    decide
  have hfree : RunAt p 1 512 := by
    unfold RunAt scanned
    rw [hblocks]
    refine ⟨by norm_num, fun c h1 h2 => ?_⟩
    obtain rfl : c = 512 := by omega
    exact hclear
  have hfind : p.mmapFindFree ≠ 0 := fun hz => (mmapFindFree_fit h0).none hz 512 hfree
  have hguard : ¬ sub32 p.maxBlocks p.usedBlocks ≤ 0 := by
    unfold sub32
    omega
  have halloc := (pmmAllocPage_eq hguard rfl).trans (if_neg hfind)
  have hrun := Relation.ReflTransGen.single (PmmStep.call ⟨p, ∅⟩ .allocPage _ _ (Set.empty_subset _) halloc)
  refine ⟨p, _, hp, hrun, fun hempty => ?_, accounting_off hp hrun⟩
  have hmem : p.mmapFindFree ∈ PmmCall.granted (p.mmapFindFree * pmmBlockSize) .allocPage := by
    unfold PmmCall.granted
    simp only
    rw [if_neg (Nat.mul_ne_zero hfind (by decide)), Nat.mul_div_cancel _ (by decide), mem_blockRange]
    exact ⟨le_rfl, Nat.lt_succ_self _⟩
  exact Set.notMem_empty _ ((Set.union_empty_iff.1 hempty).2 ▸ hmem)

/-- The count is no count, before any allocation. -/
theorem accounting_wrong : ¬ ∀ (k : KernelImage) (boot : Mb2) (p : Pmm) (s : PmmHeld), initPmm k boot = .ok p →
    Relation.ReflTransGen PmmStep ⟨p, ∅⟩ s → s.pmm.usedBlocks = s.pmm.setBlocks := by
  intro h
  obtain ⟨p, hp, -, hgt, -⟩ := initPmm_spec (by decide : kernel1M.endVirt ≤ kernelEndMap)
    (show (bootWith [halfPage]).findMmap = some [halfPage] from rfl) halfPage_in
  have heq : p.usedBlocks = p.setBlocks := h kernel1M _ p ⟨p, ∅⟩ hp .refl
  have hle := setBlocks_le p
  omega

end Saynaa
