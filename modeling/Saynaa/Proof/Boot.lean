import Mathlib
import Saynaa.Mem.Boot
import Saynaa.Proof.Pmm

/-!
# What `init_pmm` makes of a memory map

* `mem_region`: a region touches the blocks that it overlaps.
* `initPmm_spec`: a block is clear if an available entry touches it and it is not protected.
* `map_safe_iff`: when clear blocks are available memory and nothing else.
* `exposes_edge`: what goes wrong with entries below 4 GiB goes wrong at their two ends.
-/

namespace Saynaa

open Lib Pmm

variable {p p' : Pmm} {k : KernelImage} {boot : Mb2} {entries : List MmapEntry} {addr size b n : ℕ}

/-! ### Loops over blocks -/

theorem mmapSetRange_front (p : Pmm) (b n : ℕ) :
    (p.mmapSet b).mmapSetRange (b + 1) n = p.mmapSetRange b (n + 1) := by
  induction n with
  | zero => rfl
  | succ n ih =>
    unfold mmapSetRange
    rw [ih, show b + 1 + n = b + (n + 1) by omega]

theorem mmapUnsetRange_front (p : Pmm) (b n : ℕ) :
    (p.mmapUnset b).mmapUnsetRange (b + 1) n = p.mmapUnsetRange b (n + 1) := by
  induction n with
  | zero => rfl
  | succ n ih =>
    unfold mmapUnsetRange
    rw [ih, show b + 1 + n = b + (n + 1) by omega]

/-- A loop inside the bitmap is its iterations `F`. -/
theorem blockLoop_eq {f : Pmm → ℕ → Pmm} {F : Pmm → ℕ → ℕ → Pmm} (h0 : ∀ p b, F p b 0 = p)
    (hs : ∀ p b n, F (f p b) (b + 1) n = F p b (n + 1)) (n : ℕ) :
    ∀ b p, b + n ≤ 2 ^ 20 → blockLoop f b n p = .ok (F p b n) := by
  induction n with
  | zero =>
    intro b p _
    rw [h0]
    rfl
  | succ n ih =>
    intro b p hb
    unfold blockLoop
    rw [if_pos (by unfold bitmapWords; omega), ih _ _ (by omega), hs]

theorem blockLoop_error {f : Pmm → ℕ → Pmm} (n : ℕ) :
    ∀ b p, b ≤ 2 ^ 20 → 2 ^ 20 < b + n → blockLoop f b n p = .error .outOfBounds := by
  induction n with
  | zero => intro b p h1 h2; omega
  | succ n ih =>
    intro b p h1 h2
    unfold blockLoop
    split_ifs with hb
    · exact ih _ _ (by unfold bitmapWords at hb; omega) (by omega)
    · rfl

theorem setLoop_eq (p : Pmm) (h : b + n ≤ 2 ^ 20) : blockLoop mmapSet b n p = .ok (p.mmapSetRange b n) :=
  blockLoop_eq (fun _ _ => rfl) mmapSetRange_front n b p h

theorem unsetLoop_eq (p : Pmm) (h : b + n ≤ 2 ^ 20) : blockLoop mmapUnset b n p = .ok (p.mmapUnsetRange b n) :=
  blockLoop_eq (fun _ _ => rfl) mmapUnsetRange_front n b p h

theorem usedBlocks_mmapSetRange (hp : p.usedBlocks < 2 ^ 32) (b n : ℕ) :
    (p.mmapSetRange b n).usedBlocks = (p.usedBlocks + n) % 2 ^ 32 := by
  induction n with
  | zero => exact (Nat.mod_eq_of_lt hp).symm
  | succ n ih =>
    unfold mmapSetRange
    show add32 (p.mmapSetRange b n).usedBlocks 1 = _
    rw [ih]
    unfold add32
    omega

/-! ### Regions -/

/-- The blocks that overlap `[addr, addr + size)`. -/
theorem mem_region (h : size + addr % pmmBlockSize < 2 ^ 32) :
    b ∈ blockRange (regionBlocks addr size).1 (regionBlocks addr size).2 ↔
      addr < (b + 1) * pmmBlockSize ∧ b * pmmBlockSize < addr + size := by
  unfold regionBlocks
  rw [mem_blockRange, add32_of_lt h, divideUp_eq (by decide)]
  unfold pmmBlockSize
  omega

/-- A region that ends below 4 GiB stays inside the bitmap. -/
theorem region_le (h : addr + size < 2 ^ 32) : (regionBlocks addr size).1 + (regionBlocks addr size).2 ≤ 2 ^ 20 := by
  have h1 : size + addr % pmmBlockSize < 2 ^ 32 := by
    unfold pmmBlockSize
    omega
  unfold regionBlocks
  simp only
  rw [add32_of_lt h1, divideUp_eq (by decide)]
  unfold pmmBlockSize
  omega

theorem regionBlocks_fst_lt (h : addr < 2 ^ 32) : (regionBlocks addr size).1 < 2 ^ 20 := by
  unfold regionBlocks pmmBlockSize
  omega

/-! ### Entries -/

namespace MmapEntry

variable (e : MmapEntry)

def Avail : Prop := e.type = mb2MmapAvail

/-- The blocks that are cleared for the entry, whose base and length lose their upper halves. -/
def blocks : ℕ × ℕ := regionBlocks (e.baseAddr % 2 ^ 32) (e.length % 2 ^ 32)

def Spans (b : ℕ) : Prop := b ∈ blockRange e.blocks.1 e.blocks.2

/-- The block lies wholly inside the entry. -/
def Holds (b : ℕ) : Prop :=
  e.baseAddr ≤ b * pmmBlockSize ∧ (b + 1) * pmmBlockSize ≤ e.baseAddr + e.length

/-- A block that is cleared for the entry and does not lie inside it. -/
def Exposes (b : ℕ) : Prop := e.Spans b ∧ ¬ e.Holds b

/-- All cleared bits are in the bitmap. -/
def InBitmap : Prop := e.blocks.1 + e.blocks.2 ≤ 2 ^ 20

end MmapEntry

/-- **Below 4 GiB** only the first and the last block can be exposed, if the entry does not start or
does not end between two blocks. -/
theorem exposes_edge {e : MmapEntry} (hlow : e.baseAddr + e.length ≤ 2 ^ 32) (h : e.Exposes b) :
    b = e.baseAddr / pmmBlockSize ∧ e.baseAddr % pmmBlockSize ≠ 0 ∨
      b = (e.baseAddr + e.length) / pmmBlockSize ∧ (e.baseAddr + e.length) % pmmBlockSize ≠ 0 := by
  obtain ⟨hspan, hnot⟩ := h
  unfold MmapEntry.Spans MmapEntry.blocks regionBlocks at hspan
  unfold MmapEntry.Holds at hnot
  rw [mem_blockRange, divideUp_eq (by decide)] at hspan
  unfold pmmBlockSize add32 at *
  omega

/-- The bytes that the map says are available. -/
def availableBytes (entries : List MmapEntry) (a : ℕ) : ℕ :=
  entries.foldl (fun a e => if e.type = mb2MmapAvail then (a + e.length) % 2 ^ 64 else a) a

/-- The part of the bitmap that `init_pmm` clears, before it protects the kernel, and the bytes that it counts. -/
theorem mapEntries_used (hin : ∀ e ∈ entries, e.Avail → e.InBitmap) :
    ∀ s : Pmm × ℕ, s.1.Used 0 → ∃ s', entries.foldlM mapEntry s = .ok s' ∧
      (∀ b, s'.1.Used b ↔ s.1.Used b ∧ (b = 0 ∨ ∀ e ∈ entries, e.Avail → ¬ e.Spans b)) ∧
      s'.2 = availableBytes entries s.2 := by
  induction entries with
  | nil => exact fun s _ => ⟨s, rfl, fun b => by simp, rfl⟩
  | cons e entries ih =>
    intro s h0
    have ih := ih fun e' he' => hin e' (List.mem_cons_of_mem _ he')
    rw [List.foldlM_cons]
    by_cases ha : e.type = mb2MmapAvail
    · -- available memory becomes free, except block 0
      set p1 := (s.1.mmapUnsetRange e.blocks.1 e.blocks.2).mmapSet 0 with hp1
      have hentry : mapEntry s e = .ok (p1, (s.2 + e.length) % 2 ^ 64) := by
        unfold mapEntry
        rw [if_pos ha]
        unfold pmmInitRegion
        have hloop := unsetLoop_eq s.1 (hin e List.mem_cons_self ha)
        unfold MmapEntry.blocks at hloop
        simp only [hloop]
        rfl
      obtain ⟨s', hs', hused, hbytes⟩ := ih (p1, (s.2 + e.length) % 2 ^ 64) (by simp [hp1])
      have hstep : availableBytes (e :: entries) s.2 = availableBytes entries ((s.2 + e.length) % 2 ^ 64) := by
        unfold availableBytes
        rw [List.foldl_cons, if_pos ha]
      refine ⟨s', by rw [hentry]; exact hs', fun b => ?_, hbytes.trans hstep.symm⟩
      rw [hused]
      simp only [hp1, used_mmapSet, used_mmapUnsetRange, List.forall_mem_cons]
      have hsp : e.Avail → (e.Spans b ↔ b ∈ blockRange e.blocks.1 e.blocks.2) := fun _ => Iff.rfl
      have hav : e.Avail := ha
      by_cases hb0 : b = 0
      · -- block 0 stays taken
        subst hb0
        simp [h0]
      · simp only [hb0, false_or, hav, true_implies, hsp]
        tauto
    · -- other entries change nothing
      have hentry : mapEntry s e = .ok s := if_neg ha
      obtain ⟨s', hs', hused, hbytes⟩ := ih s h0
      have hstep : availableBytes (e :: entries) s.2 = availableBytes entries s.2 := by
        unfold availableBytes
        rw [List.foldl_cons, if_neg ha]
      refine ⟨s', by rw [hentry]; exact hs', fun b => ?_, hbytes.trans hstep.symm⟩
      have hav : ¬ e.Avail := ha
      rw [hused, List.forall_mem_cons]
      tauto

theorem mapEntries_error (hout : ∃ e ∈ entries, e.Avail ∧ ¬ e.InBitmap) :
    ∀ s : Pmm × ℕ, entries.foldlM mapEntry s = .error .outOfBounds := by
  induction entries with
  | nil => simp at hout
  | cons e entries ih =>
    intro s
    rw [List.foldlM_cons]
    have hlt : e.blocks.1 < 2 ^ 20 := regionBlocks_fst_lt (Nat.mod_lt _ (by norm_num))
    by_cases ha : e.type = mb2MmapAvail
    · by_cases hin : e.InBitmap
      · -- this entry is inside the bitmap, so that a later one is not
        have hrest : ∃ e ∈ entries, e.Avail ∧ ¬ e.InBitmap := by
          obtain ⟨e', he', h⟩ := hout
          rcases List.mem_cons.1 he' with rfl | he'
          · exact absurd hin h.2
          · exact ⟨e', he', h⟩
        unfold mapEntry
        rw [if_pos ha]
        unfold pmmInitRegion
        have hloop := unsetLoop_eq s.1 hin
        unfold MmapEntry.blocks at hloop
        simp only [hloop]
        exact ih hrest _
      · -- this one is outside of it
        unfold mapEntry
        rw [if_pos ha]
        unfold pmmInitRegion
        have hloop := blockLoop_error (f := mmapUnset) e.blocks.2 e.blocks.1 s.1 hlt.le (not_le.1 hin)
        unfold MmapEntry.blocks at hloop
        simp only [hloop]
        rfl
    · -- this one is skipped
      have hrest : ∃ e ∈ entries, e.Avail ∧ ¬ e.InBitmap := by
        obtain ⟨e', he', h⟩ := hout
        rcases List.mem_cons.1 he' with rfl | he'
        · exact absurd h.1 ha
        · exact ⟨e', he', h⟩
      have hentry : mapEntry s e = .ok s := if_neg ha
      rw [hentry]
      exact ih hrest s

/-! ### The end of the kernel -/

theorem intMax_lt {a c : ℕ} (ha : a < 2 ^ 32) (hc : c < 2 ^ 32) : intMax a c < 2 ^ 32 := by
  unfold intMax
  split_ifs <;> assumption

theorem kernelEnd_lt (k : KernelImage) (boot : Mb2) : kernelEnd k boot < 2 ^ 32 := by
  have hk := k.fits
  unfold kernelEnd
  simp only
  split_ifs
  · omega
  · -- a module raises the end, other tags leave it
    refine List.foldlRecOn (motive := (· < 2 ^ 32)) boot.tags _ (by norm_num) fun last h tag _ => ?_
    cases tag with
    | module modEnd => exact intMax_lt modEnd.isLt h
    | mmap _ => exact h
    | other => exact h

theorem le_kernelEnd (k : KernelImage) (boot : Mb2) : 0x100000 ≤ kernelEnd k boot := by
  have hk := k.start_le
  unfold kernelEnd
  simp only
  split_ifs with h
  · exact hk
  · omega

/-! ### The whole function -/

/-- The block overlaps the kernel with its modules, or the boot information. -/
def Protected (k : KernelImage) (boot : Mb2) (b : ℕ) : Prop :=
  b * pmmBlockSize < kernelEnd k boot ∨
    boot.addr < (b + 1) * pmmBlockSize ∧ b * pmmBlockSize < boot.addr + boot.totalSize

/-- `init_pmm`, past its two tests. -/
theorem initPmm_eq (hk : k.endVirt ≤ kernelEndMap) (hmap : boot.findMmap = some entries) : initPmm k boot =
    (entries.foldlM mapEntry (allTaken, 0)).bind fun s =>
      ((s.1.setSize s.2).pmmDeinitRegion 0 (kernelEnd k boot)).bind fun p =>
        p.pmmDeinitRegion boot.addr boot.totalSize := by
  unfold initPmm
  rw [if_neg (not_lt.2 hk), hmap]
  rfl

/-- **`init_pmm` inside the bitmap**: which bits it leaves set, its count of used blocks, and the number of blocks. -/
theorem initPmm_spec (hk : k.endVirt ≤ kernelEndMap) (hmap : boot.findMmap = some entries)
    (hin : ∀ e ∈ entries, e.Avail → e.InBitmap) : ∃ p, initPmm k boot = .ok p ∧
      (∀ b, p.Used b ↔ Protected k boot b ∨ ∀ e ∈ entries, e.Avail → ¬ e.Spans b) ∧
      p.maxBlocks < p.usedBlocks ∧ p.usedBlocks < 2 ^ 22 ∧
      p.maxBlocks = availableBytes entries 0 % 2 ^ 32 / pmmBlockSize := by
  obtain ⟨s, hs, hused, hbytes⟩ := mapEntries_used hin (allTaken, 0) (by decide)
  set r0 := regionBlocks 0 (kernelEnd k boot) with hr0
  set r1 := regionBlocks boot.addr boot.totalSize with hr1
  have hlt := kernelEnd_lt k boot
  have hle := le_kernelEnd k boot
  have hb0 : r0.1 + r0.2 ≤ 2 ^ 20 := region_le (by omega)
  have hb1 : r1.1 + r1.2 ≤ 2 ^ 20 := region_le boot.fits
  set p1 := s.1.setSize s.2 with hp1
  have hmax := p1.maxBlocks_lt
  have hcount : p1.usedBlocks = p1.maxBlocks := rfl
  refine ⟨(p1.mmapSetRange r0.1 r0.2).mmapSetRange r1.1 r1.2, ?_, fun b => ?_, ?_⟩
  · rw [initPmm_eq hk hmap, hs]
    show (p1.pmmDeinitRegion 0 (kernelEnd k boot)).bind _ = _
    unfold pmmDeinitRegion
    rw [← hr0, ← hr1]
    simp only
    rw [setLoop_eq _ hb0]
    exact setLoop_eq _ hb1
  · have hall : ∀ b, (allTaken, 0).1.Used b := by
      intro b
      have hm := Nat.mod_lt b (by norm_num : 0 < 32)
      show (0xFFFFFFFF#32).getLsbD (b % 32) = true
      rw [show (0xFFFFFFFF#32) = BitVec.allOnes 32 from rfl, BitVec.getLsbD_allOnes]
      simpa using hm
    have hsize : p1.Used b ↔ s.1.Used b := Iff.rfl
    have hboot : boot.totalSize + boot.addr % pmmBlockSize < 2 ^ 32 := by
      have h := boot.fits
      unfold pmmBlockSize
      omega
    rw [used_mmapSetRange, used_mmapSetRange, mem_region hboot, mem_region (by rw [Nat.zero_mod]; omega), hsize,
      hused]
    have hzero : b = 0 → b * pmmBlockSize < kernelEnd k boot := by
      rintro rfl
      omega
    have hpos : 0 < (b + 1) * pmmBlockSize := by
      unfold pmmBlockSize
      omega
    have h0b := hall b
    unfold Protected
    simp only [zero_add]
    tauto
  · have hr0n : 256 ≤ r0.2 := by
      rw [hr0]
      unfold regionBlocks
      simp only
      rw [add32_of_lt (by rw [Nat.zero_mod]; omega), divideUp_eq (by decide)]
      unfold pmmBlockSize
      omega
    have h1 := usedBlocks_mmapSetRange (p := p1) (by omega) r0.1 r0.2
    have h2 := usedBlocks_mmapSetRange (p := p1.mmapSetRange r0.1 r0.2) (by omega) r1.1 r1.2
    rw [h2, h1, maxBlocks_mmapSetRange, maxBlocks_mmapSetRange]
    have hsize : p1.maxBlocks = availableBytes entries 0 % 2 ^ 32 / pmmBlockSize := by
      rw [hp1, hbytes]
      rfl
    omega

/-- A memory map that leads out of the bitmap. -/
theorem initPmm_error (hk : k.endVirt ≤ kernelEndMap) (hmap : boot.findMmap = some entries)
    (hout : ∃ e ∈ entries, e.Avail ∧ ¬ e.InBitmap) : initPmm k boot = .error .outOfBounds := by
  rw [initPmm_eq hk hmap, mapEntries_error hout]
  rfl

/-- `init_pmm` returns only inside the bitmap. -/
theorem initPmm_ok (h : initPmm k boot = .ok p) : ∃ entries, k.endVirt ≤ kernelEndMap ∧
    boot.findMmap = some entries ∧ ∀ e ∈ entries, e.Avail → e.InBitmap := by
  have hk : k.endVirt ≤ kernelEndMap := by
    by_contra hbig
    unfold initPmm at h
    rw [if_pos (not_le.1 hbig)] at h
    cases h
  cases hmap : boot.findMmap with
  | none =>
    unfold initPmm at h
    rw [if_neg (not_lt.2 hk), hmap] at h
    cases h
  | some entries =>
    refine ⟨entries, hk, rfl, fun e he ha => ?_⟩
    by_contra hout
    rw [initPmm_error hk hmap ⟨e, he, ha, hout⟩] at h
    cases h

/-- The boot map is not over-approximated: `init_pmm` stays inside the bitmap, and a clear block lies
inside an available entry and overlaps neither the kernel nor the boot information. -/
def MapSafe (k : KernelImage) (boot : Mb2) (entries : List MmapEntry) : Prop :=
  initPmm k boot ≠ .error .outOfBounds ∧ ∀ p, initPmm k boot = .ok p → ∀ b < 2 ^ 20, ¬ p.Used b →
    (∃ e ∈ entries, e.Avail ∧ e.Holds b) ∧ kernelEnd k boot ≤ b * pmmBlockSize ∧
      ((b + 1) * pmmBlockSize ≤ boot.addr ∨ boot.addr + boot.totalSize ≤ b * pmmBlockSize)

/-- Available entries stay in the bitmap when truncated, and the blocks that they expose are
protected or inside another one. -/
def MapFits (k : KernelImage) (boot : Mb2) (entries : List MmapEntry) : Prop :=
  ∀ e ∈ entries, e.Avail → e.InBitmap ∧
    ∀ b, e.Exposes b → Protected k boot b ∨ ∃ e' ∈ entries, e'.Avail ∧ e'.Holds b

theorem not_protected {b : ℕ} : ¬ Protected k boot b ↔ kernelEnd k boot ≤ b * pmmBlockSize ∧
    ((b + 1) * pmmBlockSize ≤ boot.addr ∨ boot.addr + boot.totalSize ≤ b * pmmBlockSize) := by
  unfold Protected
  omega

/-- **When the boot map is not over-approximated.** For any map, exactly if no available entry is
truncated to blocks behind the bitmap, and each block that is cut by an end of an available entry or
that truncation moved is protected or lies inside another available entry. -/
theorem map_safe_iff (hk : k.endVirt ≤ kernelEndMap) (hmap : boot.findMmap = some entries) :
    MapSafe k boot entries ↔ MapFits k boot entries := by
  constructor
  · rintro ⟨hbounds, hsafe⟩
    have hin : ∀ e ∈ entries, e.Avail → e.InBitmap := by
      intro e he ha
      by_contra hout
      exact hbounds (initPmm_error hk hmap ⟨e, he, ha, hout⟩)
    obtain ⟨p, hp, hused, -⟩ := initPmm_spec hk hmap hin
    refine fun e he ha => ⟨hin e he ha, fun b hexp => ?_⟩
    by_contra hnot
    rw [not_or] at hnot
    have hlt : b < 2 ^ 20 := lt_of_lt_of_le hexp.1.2 (hin e he ha)
    have hclear : ¬ p.Used b := by
      rw [hused, not_or]
      exact ⟨hnot.1, fun hall => hall e he ha hexp.1⟩
    exact hnot.2 (hsafe p hp b hlt hclear).1
  · intro hfits
    obtain ⟨p, hp, hused, -⟩ := initPmm_spec hk hmap fun e he ha => (hfits e he ha).1
    refine ⟨by rw [hp]; simp, fun p' hp' b _ hclear => ?_⟩
    obtain rfl : p = p' := Except.ok.inj (hp.symm.trans hp')
    rw [hused, not_or] at hclear
    obtain ⟨hprot, hspan⟩ := hclear
    refine ⟨?_, not_protected.1 hprot⟩
    push Not at hspan
    obtain ⟨e, he, ha, hb⟩ := hspan
    by_cases hholds : e.Holds b
    · exact ⟨e, he, ha, hholds⟩
    · exact ((hfits e he ha).2 b ⟨hb, hholds⟩).resolve_left hprot

/-- A kernel of 1 MiB. -/
def kernel1M : KernelImage := ⟨0x200000, by norm_num, by norm_num⟩

/-- One page of available memory, half a page behind 256 MiB. -/
def halfPage : MmapEntry := ⟨0x10000800, 0x1000, mb2MmapAvail, by norm_num, by norm_num⟩

/-- Boot information at 64 KiB with this memory map. -/
def bootWith (entries : List MmapEntry) : Mb2 := ⟨0x10000, 0x1000, [.mmap entries], by norm_num⟩

theorem kernelEnd_bootWith (entries : List MmapEntry) : kernelEnd kernel1M (bootWith entries) = 0x200000 := rfl

theorem halfPage_in : ∀ e ∈ [halfPage], e.Avail → e.InBitmap := by
  intro e he _
  rw [List.mem_singleton.1 he]
  unfold MmapEntry.InBitmap
  decide

/-- The page that starts half a page earlier is handed out. -/
theorem map_unsafe_halfPage : ¬ MapSafe kernel1M (bootWith [halfPage]) [halfPage] := by
  rintro ⟨-, hsafe⟩
  obtain ⟨p, hp, hused, -⟩ := initPmm_spec (by decide : kernel1M.endVirt ≤ kernelEndMap)
    (show (bootWith [halfPage]).findMmap = some [halfPage] from rfl) halfPage_in
  have hclear : ¬ p.Used 0x10000 := by
    rw [hused, not_or, not_protected, kernelEnd_bootWith]
    refine ⟨by decide, fun hall => hall halfPage List.mem_cons_self rfl ?_⟩
    show 0x10000 ∈ blockRange halfPage.blocks.1 halfPage.blocks.2
    rw [mem_blockRange]
    decide
  obtain ⟨e, he, -, hholds⟩ := (hsafe p hp 0x10000 (by norm_num) hclear).1
  rw [List.mem_singleton.1 he] at hholds
  exact absurd hholds.1 (by decide)

/-- A map of whole pages is taken as it is. -/
theorem map_safe_iff_page :
    MapSafe kernel1M (bootWith [⟨0x10000000, 0x1000, mb2MmapAvail, by norm_num, by norm_num⟩])
      [⟨0x10000000, 0x1000, mb2MmapAvail, by norm_num, by norm_num⟩] := by
  rw [map_safe_iff (by decide) rfl]
  intro e he _
  rw [List.mem_singleton.1 he]
  refine ⟨by unfold MmapEntry.InBitmap; decide, fun b hexp => ?_⟩
  rcases exposes_edge (by norm_num) hexp with ⟨-, h⟩ | ⟨-, h⟩ <;> exact absurd h (by decide)

end Saynaa
