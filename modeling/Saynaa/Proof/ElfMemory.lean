import Saynaa.Proof.ExecActs

/-!
# The loader and the file in memory

`elf_load` reads a file in memory that it may be writing to.

* `KernelByte`: an address of the kernel's memory, which what a process does leaves alone.
* `loadSegmentAt_acts`: the loading of a segment below the kernel.
* `FileStays`: the loader does not write to its file. `FileStays.ok_iff`: the headers that it reads are then those
  of the file.
* `elfLoadAt_eq`, `loadAt_eq`: what it does is then what it does with a constant file.
-/

namespace Saynaa

open Lib Machine Binary

variable {m m' m₀ m₁ : Machine} {a buf size off dst src i k n : ℕ}

/-! ### The kernel's memory -/

/-- The frames that are taken, and are not the current address space's. -/
def Machine.foreign (m : Machine) : Set ℕ := m.cells.taken \ m.owned m.cr3

/-- **An address of the kernel**: its page, and its page table, are in frames of this kind. -/
structure KernelByte (m : Machine) (a : ℕ) : Prop where
  high : kernelEntry ≤ dirIndex a
  table : ¬ large (m.dir (dirIndex a)) → frameOf (m.dir (dirIndex a)) ∈ m.foreign
  page : ∃ p, m.walk a = some p ∧ p.1 ∈ m.foreign

theorem Acts.foreign (ha : Acts m m') : m.foreign ⊆ m'.foreign := ha.confined.others

theorem Acts.word (ha : Acts m m') {f : ℕ} (hf : f ∈ m.foreign) : m'.phys f = m.phys f := ha.confined.same hf

theorem KernelByte.walk_eq (h : KernelByte m a) (ha : Acts m m') : m'.walk a = m.walk a := by
  have hdir := ha.kernel _ h.high
  unfold walk
  simp only [hdir]
  by_cases hl : large (m.dir (dirIndex a))
  · rw [if_pos hl, if_pos hl]
  · rw [ha.word (h.table hl)]

/-- **It keeps its byte**, whatever the process does. -/
theorem KernelByte.acts (h : KernelByte m a) (ha : Acts m m') : KernelByte m' a ∧ m'.byteAt a = m.byteAt a := by
  obtain ⟨p, hp, hf⟩ := h.page
  have hwalk := h.walk_eq ha
  refine ⟨⟨h.high, ?_, p, hwalk.trans hp, ha.foreign hf⟩, ?_⟩
  · rw [ha.kernel _ h.high]
    exact fun hl => ha.foreign (h.table hl)
  · unfold byteAt
    rw [hwalk, hp, Option.map_some, Option.map_some, ha.word hf]

/-- **The kernel's buffer** of `size` bytes at `buf`. -/
structure KernelBuffer (m : Machine) (buf size : ℕ) : Prop where
  fits : buf + size ≤ 2 ^ 32
  byte : ∀ a, buf ≤ a → a < buf + size → KernelByte m a

theorem KernelBuffer.size_lt (h : KernelBuffer m buf size) (hpos : 0 < size) : size < 2 ^ 32 := by
  have hhigh := (h.byte buf le_rfl (by omega)).high
  have hfits := h.fits
  unfold kernelEntry dirIndex at hhigh
  omega

/-- The buffer holds the same bytes. -/
def SameFile (m m' : Machine) (buf size : ℕ) : Prop := ∀ a, buf ≤ a → a < buf + size → m'.byteAt a = m.byteAt a

theorem KernelBuffer.acts (h : KernelBuffer m buf size) (ha : Acts m m') :
    KernelBuffer m' buf size ∧ SameFile m m' buf size :=
  ⟨⟨h.fits, fun a h1 h2 => ((h.byte a h1 h2).acts ha).1⟩, fun a h1 h2 => ((h.byte a h1 h2).acts ha).2⟩

theorem SameFile.trans (h : SameFile m m₁ buf size) (h' : SameFile m₁ m' buf size) : SameFile m m' buf size :=
  fun a h1 h2 => (h' a h1 h2).trans (h a h1 h2)

/-! ### Reading the file -/

/-- A number in the file. -/
theorem SameFile.load (h : SameFile m m' buf size) (hfits : buf + size ≤ 2 ^ 32) (hpos : 0 < n)
    (hin : off + n ≤ size) :
    load n (m'.fileAt buf size).mem (add32 buf off) = load n (m.fileAt buf size).mem (add32 buf off) := by
  rw [add32_of_lt (by omega)]
  unfold Lib.load
  refine congrArg ofLe (copyOut_congr fun i hi => ?_)
  show (m'.byteAt _).getD 0 = (m.byteAt _).getD 0
  rw [h _ (by omega) (by omega)]

theorem SameFile.header (h : SameFile m m' buf size) (hfits : buf + size ≤ 2 ^ 32) (hin : off + 32 ≤ size) :
    (m'.fileAt buf size).header off = (m.fileAt buf size).header off := by
  have hword : ∀ d, d + 4 ≤ 32 → (m'.fileAt buf size).word (add32 off d) = (m.fileAt buf size).word
    (add32 off d) := by
    intro d hd
    rw [add32_of_lt (by omega)]
    exact h.load hfits (by decide) (by omega)
  have hzero : (m'.fileAt buf size).word off = (m.fileAt buf size).word off := h.load hfits (by decide) (by omega)
  unfold Binary.header
  rw [hzero, hword 4 (by decide), hword 8 (by decide), hword 16 (by decide), hword 20 (by decide)]

/-- The header of the file. -/
theorem SameFile.table (h : SameFile m m' buf size) (hfits : buf + size ≤ 2 ^ 32) (hin : 52 ≤ size) :
    (m'.fileAt buf size).ePhnum = (m.fileAt buf size).ePhnum ∧
      (m'.fileAt buf size).ePhoff = (m.fileAt buf size).ePhoff :=
  ⟨h.load hfits (by decide) (by omega), h.load hfits (by decide) (by omega)⟩

/-! ### One segment -/

/-- `memcpy` below the kernel. -/
theorem copyBytes_acts (n : ℕ) : ∀ {m : Machine} {dst src : ℕ}, UserOK m → dst + n ≤ 0xC0000000 →
    m.copyBytes dst src n = some m' → Acts m m' := by
  induction n with
  | zero =>
    intro m dst src h _ he
    cases he
    exact .refl h
  | succ n ih =>
    intro m dst src h hend he
    obtain ⟨m₁, hb, he⟩ := Option.bind_eq_some_iff.1 he
    have hfirst := Acts.write h (by omega) hb
    rw [add32_of_lt (by omega)] at he
    exact hfirst.trans (ih hfirst.user (by omega) he)

/-- **`memcpy` from the kernel's buffer** copies the bytes that were there before. -/
theorem copyBytes_eq (n : ℕ) : ∀ {m : Machine} {dst src : ℕ}, UserOK m → KernelBuffer m src n → dst + n ≤ 0xC0000000 →
    m.copyBytes dst src n = m.writeBytes dst ((List.range n).map fun i => (m.byteAt (src + i)).getD 0) := by
  induction n with
  | zero => exact fun _ _ _ => rfl
  | succ n ih =>
    intro m dst src h hk hend
    have hfits := hk.fits
    rw [List.range_succ_eq_map, List.map_cons, List.map_map, Nat.add_zero]
    unfold copyBytes writeBytes
    refine Option.bind_congr fun m₁ hb => ?_
    have ha := Acts.write h (by omega) hb
    obtain ⟨hk₁, hsame⟩ := hk.acts ha
    rw [add32_of_lt (by omega)]
    cases n with
    | zero => rfl
    | succ n =>
      have hrest : KernelBuffer m₁ (src + 1) (n + 1) := ⟨by omega, fun a h1 h2 => hk₁.byte a (by omega) (by omega)⟩
      rw [add32_of_lt (by omega), ih ha.user hrest (by omega)]
      refine congrArg _ (List.map_congr_left fun i hi => ?_)
      rw [List.mem_range] at hi
      have hnext : src + 1 + i = src + (i + 1) := by omega
      rw [hnext, hsame _ (by omega) (by omega)]
      rfl

/-- `mapSegment`, with the allocator's answer. -/
theorem mapSegment_eq {ph : Elf32Phdr} {r : ℕ} {pmm : Pmm} (hal : m.pmm.pmmAllocPages ph.pages = (r, pmm)) :
    m.mapSegment ph =
    (m.withPmm pmm).pagingMapPages (ph.pVaddr / 4096 * 4096) r (pageUser ||| pageRw) ph.pages := by
  unfold Elf32Phdr.pages at hal ⊢
  refine (congrFun (congrFun (?unfolded : @Machine.mapSegment = ?body) m) ph).trans ?_
  case unfolded =>
    delta Machine.mapSegment
    exact rfl
  extract_lets pages
  have hpages : m.pmm.pmmAllocPages pages = (r, pmm) := hal
  rewrite [hpages]
  rfl

/-- The pages of a segment, when the frames for them are found. -/
theorem mapSegment_acts {ph : Elf32Phdr} (h : UserOK m) (hb : ph.Below)
    (hf : RegionFrames m (ph.pVaddr / 4096) ph.pages)
    (hl : m.tableLost = false) (he : m.mapSegment ph = some m') : Acts m m' ∧ m'.tableLost = false := by
  have hpages := pages_eq hb.1
  have hmem := hb.1
  obtain ⟨⟨r, pmm⟩, hal⟩ : ∃ p, m.pmm.pmmAllocPages ph.pages = p := ⟨_, rfl⟩
  rw [mapSegment_eq hal] at he
  have hend : ph.pVaddr / 4096 + ph.pages ≤ userPages := by
    unfold userPages
    omega
  have hlost : m'.tableLost = false := by
    rcases Nat.eq_zero_or_pos ph.pages with h0 | hpos
    · rw [h0] at he
      cases he
      exact hl
    · rw [region_found h (by omega) hf hal (by decide) he]
      exact hl
  exact ⟨region_acts h hend hal (hf.first hal) (by decide) he hlost, hlost⟩

theorem copyBytes_lost (n : ℕ) : ∀ {m : Machine} {dst src : ℕ}, m.copyBytes dst src n = some m' →
    m'.tableLost = m.tableLost := by
  induction n with
  | zero =>
    intro m dst src he
    cases he
    rfl
  | succ n ih =>
    intro m dst src he
    obtain ⟨m₁, hb, he⟩ := Option.bind_eq_some_iff.1 he
    rw [ih he, writeByte_lost hb]

/-- **A segment below the kernel** is loaded without a change of its header, so that the three
readings of it agree. -/
theorem loadSegmentAt_acts (h : UserOK m) (hl : m.tableLost = false) (hk : KernelBuffer m buf size)
    (hin : off + 32 ≤ size) (hb : ((m.fileAt buf size).header off).Below)
    (hf : RegionFrames m (((m.fileAt buf size).header off).pVaddr / 4096) ((m.fileAt buf size).header off).pages)
    (he : m.loadSegmentAt buf size off = some m') : Acts m m' ∧ m'.tableLost = false := by
  obtain ⟨m₁, hmap, he⟩ := Option.bind_eq_some_iff.1 he
  obtain ⟨m₂, hcopy, he⟩ := Option.bind_eq_some_iff.1 he
  obtain ⟨ha₁, hl₁⟩ := mapSegment_acts h hb hf hl hmap
  obtain ⟨hk₁, hs₁⟩ := hk.acts ha₁
  rw [hs₁.header hk.fits hin] at hcopy
  have ha₂ := copyBytes_acts _ ha₁.user hb.2 hcopy
  have hl₂ := copyBytes_lost _ hcopy
  have hs₂ := hs₁.trans (hk₁.acts ha₂).2
  simp only at he
  rw [hs₂.header hk.fits hin] at he
  obtain ⟨hmem, hfile⟩ := hb
  split_ifs at he with hbss
  · rw [add32_of_lt (by omega)] at he
    refine ⟨(ha₁.trans ha₂).trans (.writes _ ha₂.user ?_ he), ?_⟩
    · rw [List.length_replicate]
      omega
    · rw [writeBytes_lost _ he, hl₂, hl₁]
  · obtain rfl := Option.some.inj he
    exact ⟨ha₁.trans ha₂, hl₂.trans hl₁⟩

/-! ### The loop -/

namespace Machine

/-- The machine of the next iteration; `none` if there is none. -/
def nextHeader (m : Machine) (buf size i : ℕ) : Option Machine :=
  let x := m.fileAt buf size
  if x.ePhnum ≤ i then none
  else if (x.phdr i).pType ≠ ptLoad then some m
  else if x.segmentOut (x.phdr i) then none
  else m.loadSegmentAt buf size (x.headerOff i)

/-- The frames of the segments and of their page tables are found. -/
def HeaderFrames (m : Machine) (buf size i : ℕ) : ℕ → Prop
  | 0 => True
  | k + 1 =>
    (i < (m.fileAt buf size).ePhnum → (m.fileAt buf size).Loads i →
      RegionFrames m (((m.fileAt buf size).phdr i).pVaddr / 4096) ((m.fileAt buf size).phdr i).pages) ∧
    ∀ m' ∈ m.nextHeader buf size i, m'.HeaderFrames buf size (i + 1) k

instance decHeaderFrames (m : Machine) (buf size i : ℕ) : (k : ℕ) → Decidable (m.HeaderFrames buf size i k)
  | 0 => .isTrue trivial
  | k + 1 =>
    have (m' : Machine) := decHeaderFrames m' buf size (i + 1) k
    inferInstanceAs (Decidable ((_ → _ → _) ∧ ∀ m' ∈ _, _))

end Machine

/-- **The loader does not write to its file**: all segments are loaded below the kernel, in frames that are found. -/
structure Machine.FileStays (m : Machine) (buf size : ℕ) : Prop where
  user : UserOK m
  lost : m.tableLost = false
  buffer : KernelBuffer m buf size
  below : ∀ i < (m.fileAt buf size).ePhnum, (m.fileAt buf size).Loads i → ((m.fileAt buf size).phdr i).Below
  frames : m.HeaderFrames buf size 0 maxHeaders

/-- The header and the program headers are in the file. -/
structure Binary.HeadersIn (x : Binary) : Prop where
  file : elf32EhdrSize ≤ x.size
  table : x.ePhoff + x.ePhnum * elf32PhdrSize ≤ x.size

/-- There are no program headers, or their end does not wrap around. -/
def Binary.TableInside (x : Binary) : Prop := x.ePhnum = 0 ∨ x.ePhoff + x.ePhnum * elf32PhdrSize < 2 ^ 32

theorem Binary.TableInside.headersIn {x : Binary} (h : x.TableInside) (hvalid : x.elfIsValid)
    (hout : ¬ x.headersOut) : x.HeadersIn := by
  have hoff : x.ePhoff < 2 ^ 32 := load_lt
  have hend : add32 x.ePhoff (x.ePhnum * elf32PhdrSize) ≤ x.size := not_lt.1 hout
  refine ⟨hvalid.1.2, ?_⟩
  rcases h with h0 | hlt
  · rw [h0, Nat.zero_mul] at hend ⊢
    rwa [add32_of_lt (by omega)] at hend
  · rwa [add32_of_lt hlt] at hend

/-- Between the iterations of a loop that began with the machine `m₀`. -/
structure LoopStays (m₀ m : Machine) (buf size : ℕ) : Prop where
  user : UserOK m
  lost : m.tableLost = false
  buffer : KernelBuffer m buf size
  same : SameFile m₀ m buf size

theorem Machine.FileStays.start (h : FileStays m buf size) : LoopStays m m buf size :=
  ⟨h.user, h.lost, h.buffer, fun _ _ _ => rfl⟩

theorem LoopStays.acts (h : LoopStays m₀ m buf size) (ha : Acts m m') (hl : m'.tableLost = false) :
    LoopStays m₀ m' buf size := by
  obtain ⟨hk, hs⟩ := h.buffer.acts ha
  exact ⟨ha.user, hl, hk, h.same.trans hs⟩

section Loop

variable (h : LoopStays m₀ m buf size) (hin : (m₀.fileAt buf size).HeadersIn)

include h hin

theorem LoopStays.phnum : (m.fileAt buf size).ePhnum = (m₀.fileAt buf size).ePhnum :=
  (h.same.table h.buffer.fits hin.file).1

/-- Program header `i` is where it was. -/
theorem LoopStays.headerOff (hi : i < (m₀.fileAt buf size).ePhnum) :
    (m.fileAt buf size).headerOff i = (m₀.fileAt buf size).headerOff i ∧
      (m₀.fileAt buf size).headerOff i + 32 ≤ size := by
  have htable : (m₀.fileAt buf size).ePhoff + (m₀.fileAt buf size).ePhnum * 32 ≤ size := hin.table
  have hfits := h.buffer.fits
  have hoff : (m₀.fileAt buf size).headerOff i = (m₀.fileAt buf size).ePhoff + i * 32 := by
    unfold Binary.headerOff elf32PhdrSize
    exact add32_of_lt (by omega)
  refine ⟨?_, by omega⟩
  unfold Binary.headerOff
  rw [(h.same.table h.buffer.fits hin.file).2]

theorem LoopStays.phdr (hi : i < (m₀.fileAt buf size).ePhnum) :
    (m.fileAt buf size).phdr i = (m₀.fileAt buf size).phdr i := by
  obtain ⟨hoff, hend⟩ := h.headerOff hin hi
  unfold Binary.phdr
  rw [hoff, h.same.header h.buffer.fits hend]

/-- **The next iteration** finds the same file. -/
theorem LoopStays.next
    (hbelow : ∀ i < (m₀.fileAt buf size).ePhnum, (m₀.fileAt buf size).Loads i → ((m₀.fileAt buf size).phdr i).Below)
    (hframes : m.HeaderFrames buf size i (k + 1)) (hnext : m.nextHeader buf size i = some m') :
    LoopStays m₀ m' buf size ∧ m'.HeaderFrames buf size (i + 1) k := by
  refine ⟨?_, hframes.2 m' hnext⟩
  unfold nextHeader at hnext
  simp only at hnext
  split_ifs at hnext with hend htype hout
  · obtain rfl := Option.some.inj hnext
    exact h
  have hi := Nat.lt_of_not_le hend
  have hload : (m.fileAt buf size).Loads i := not_not.1 htype
  have hf := hframes.1 hi hload
  rw [h.phnum hin] at hi
  have hphdr := h.phdr hin hi
  have hb : ((m.fileAt buf size).phdr i).Below := by
    unfold Binary.Loads at hload
    rw [hphdr] at hload ⊢
    exact hbelow i hi hload
  have hend' : (m.fileAt buf size).headerOff i + 32 ≤ size := by
    obtain ⟨hoff, hle⟩ := h.headerOff hin hi
    rwa [hoff]
  obtain ⟨ha, hl⟩ := loadSegmentAt_acts h.user h.lost h.buffer hend' hb hf hnext
  exact h.acts ha hl

end Loop

theorem phnum_lt (x : Binary) : x.ePhnum < maxHeaders := by
  unfold maxHeaders
  exact load_lt

/-- The source of the copy is in the file. -/
def Binary.SourceIn (x : Binary) (ph : Elf32Phdr) : Prop := ph.pFilesz = 0 ∨ ph.pOffset + ph.pFilesz ≤ x.size

/-- What is copied from the buffer are the bytes of the file. -/
theorem LoopStays.copy_eq (h : LoopStays m₀ m buf size) {ph : Elf32Phdr} (hsrc : (m₀.fileAt buf size).SourceIn ph)
    (hb : ph.Below) : m.copyBytes ph.pVaddr (add32 buf ph.pOffset) ph.pFilesz =
      m.writeBytes ph.pVaddr ((m₀.fileAt buf size).bytes ph.pOffset ph.pFilesz) := by
  have hfits := h.buffer.fits
  obtain ⟨-, hfile⟩ := hb
  rcases hsrc with h0 | hend
  · rw [h0]
    rfl
  have hend' : ph.pOffset + ph.pFilesz ≤ size := hend
  rcases Nat.eq_zero_or_pos ph.pFilesz with h0 | hpos
  · rw [h0]
    rfl
  have hsrc : add32 buf ph.pOffset = buf + ph.pOffset := add32_of_lt (by omega)
  have hpart : KernelBuffer m (buf + ph.pOffset) ph.pFilesz :=
    ⟨by omega, fun a h1 h2 => h.buffer.byte a (by omega) (by omega)⟩
  rw [hsrc, copyBytes_eq _ h.user hpart hfile]
  refine congrArg _ (List.map_congr_left fun i hi => ?_)
  rw [List.mem_range] at hi
  change _ = (m₀.byteAt (add32 (add32 buf ph.pOffset) i)).getD 0
  rw [hsrc, add32_of_lt (by omega), h.same _ (by omega) (by omega)]

/-- **A segment** is loaded as from the constant file. -/
theorem LoopStays.loadSegment_eq (h : LoopStays m₀ m buf size) (hend : off + 32 ≤ size)
    (hsrc : (m₀.fileAt buf size).SourceIn ((m₀.fileAt buf size).header off))
    (hb : ((m₀.fileAt buf size).header off).Below)
    (hf : RegionFrames m (((m₀.fileAt buf size).header off).pVaddr / 4096) ((m₀.fileAt buf size).header off).pages) :
    m.loadSegmentAt buf size off = (m₀.fileAt buf size).loadSegment m ((m₀.fileAt buf size).header off) := by
  obtain ⟨ph, hph⟩ : ∃ ph, (m₀.fileAt buf size).header off = ph := ⟨_, rfl⟩
  have hread {m₁ : Machine} (h₁ : LoopStays m₀ m₁ buf size) : (m₁.fileAt buf size).header off = ph :=
    (h₁.same.header h.buffer.fits hend).trans hph
  rw [hph] at hsrc hb hf ⊢
  obtain ⟨⟨r, pmm⟩, hal⟩ : ∃ p, m.pmm.pmmAllocPages ph.pages = p := ⟨_, rfl⟩
  unfold loadSegmentAt
  rw [Saynaa.loadSegment_eq hal]
  simp only [hread h]
  rw [mapSegment_eq hal]
  refine Option.bind_congr fun m₁ hmap => ?_
  rw [← mapSegment_eq hal] at hmap
  obtain ⟨ha, hl⟩ := mapSegment_acts h.user hb hf h.lost hmap
  have h₁ := h.acts ha hl
  simp only [hread h₁]
  rw [h₁.copy_eq hsrc hb]
  refine Option.bind_congr fun m₂ hcopy => ?_
  have ha₂ : Acts m₁ m₂ := .writes _ h₁.user (by rw [bytes_length]; exact hb.2) hcopy
  have h₂ := h₁.acts ha₂ ((writeBytes_lost _ hcopy).trans hl)
  simp only [hread h₂]
  rfl

/-- The loop, by induction on the headers that are left. -/
theorem LoopStays.loadLoop_eq (hin : (m₀.fileAt buf size).HeadersIn)
    (hbelow : ∀ i < (m₀.fileAt buf size).ePhnum, (m₀.fileAt buf size).Loads i → ((m₀.fileAt buf size).phdr i).Below)
    (hsrc : ∀ i < (m₀.fileAt buf size).ePhnum, (m₀.fileAt buf size).Loads i →
      ¬ (m₀.fileAt buf size).segmentOut ((m₀.fileAt buf size).phdr i) →
        (m₀.fileAt buf size).SourceIn ((m₀.fileAt buf size).phdr i))
    (n : ℕ) : ∀ {m : Machine} {i k : ℕ}, LoopStays m₀ m buf size → m.HeaderFrames buf size i k → n < k →
      i + n = (m₀.fileAt buf size).ePhnum → m.loadLoopAt buf size i k = (m₀.fileAt buf size).loadLoop m i n := by
  induction n with
  | zero =>
    intro m i k h hframes hk hcount
    obtain ⟨k, rfl⟩ := Nat.exists_eq_succ_of_ne_zero (by omega : k ≠ 0)
    unfold loadLoopAt
    simp only
    rw [if_pos (by rw [h.phnum hin]; omega)]
    rfl
  | succ n ih =>
    intro m i k h hframes hk hcount
    obtain ⟨k, rfl⟩ := Nat.exists_eq_succ_of_ne_zero (by omega : k ≠ 0)
    have hi : i < (m₀.fileAt buf size).ePhnum := by omega
    have hphdr := h.phdr hin hi
    obtain ⟨hoff, hend⟩ := h.headerOff hin hi
    have hnext {m₁ : Machine} (hm : m.nextHeader buf size i = some m₁) :
        m₁.loadLoopAt buf size (i + 1) k = (m₀.fileAt buf size).loadLoop m₁ (i + 1) n := by
      obtain ⟨h₁, hframes₁⟩ := h.next hin hbelow hframes hm
      exact ih h₁ hframes₁ (by omega) (by omega)
    have hlive : ¬ (m.fileAt buf size).ePhnum ≤ i := by
      rw [h.phnum hin]
      omega
    unfold nextHeader at hnext
    unfold loadLoopAt loadLoop
    simp only at hnext ⊢
    rw [if_neg hlive] at hnext ⊢
    rw [hphdr] at hnext ⊢
    by_cases htype : ((m₀.fileAt buf size).phdr i).pType ≠ ptLoad
    · -- a header of another type
      rw [if_pos htype] at hnext
      rw [if_pos htype, if_pos htype]
      exact hnext rfl
    rw [if_neg htype] at hnext
    rw [if_neg htype, if_neg htype]
    by_cases hout : (m₀.fileAt buf size).segmentOut ((m₀.fileAt buf size).phdr i)
    · -- a segment outside the file
      have hout' : (m.fileAt buf size).segmentOut ((m₀.fileAt buf size).phdr i) := hout
      rw [if_pos hout, if_pos hout']
    · -- a segment that is loaded
      have hout' : ¬ (m.fileAt buf size).segmentOut ((m₀.fileAt buf size).phdr i) := hout
      rw [if_neg hout'] at hnext
      rw [if_neg hout, if_neg hout']
      have hload : (m₀.fileAt buf size).Loads i := not_not.1 htype
      have hload' : (m.fileAt buf size).Loads i := by
        unfold Binary.Loads
        rw [hphdr]
        exact hload
      have hf := hframes.1 (h.phnum hin ▸ hi) hload'
      rw [hphdr] at hf
      have heq := h.loadSegment_eq hend (hsrc i hi hload hout) (hbelow i hi hload) hf
      rw [hoff, heq] at hnext ⊢
      exact Option.bind_congr fun m₁ hm => hnext hm

/-- **The file in memory is loaded like a constant file**, if the loader does not write to it and
reads nothing else. -/
theorem elfLoadAt_eq (h : FileStays m buf size) (htable : (m.fileAt buf size).TableInside)
    (hsrc : ∀ i < (m.fileAt buf size).ePhnum, (m.fileAt buf size).Loads i →
      ¬ (m.fileAt buf size).segmentOut ((m.fileAt buf size).phdr i) →
        (m.fileAt buf size).SourceIn ((m.fileAt buf size).phdr i)) :
    m.elfLoadAt buf size = (m.fileAt buf size).elfLoad m := by
  unfold elfLoadAt elfLoad
  simp only
  by_cases hvalid : (m.fileAt buf size).elfIsValid
  swap
  · rw [if_pos hvalid, if_pos hvalid]
  rw [if_neg (not_not.2 hvalid), if_neg (not_not.2 hvalid)]
  by_cases hout : (m.fileAt buf size).headersOut
  · rw [if_pos hout, if_pos hout]
  rw [if_neg hout, if_neg hout]
  exact h.start.loadLoop_eq (htable.headersIn hvalid hout) h.below hsrc _ h.frames (phnum_lt _) (Nat.zero_add _)

/-- A flat binary in memory is loaded like a constant one. -/
theorem loadFlatAt_eq (h : UserOK m) (hl : m.tableLost = false) (hk : KernelBuffer m buf size)
    (hend : 0x1000 + size ≤ 0xC0000000)
    (hf : RegionFrames m 1 (divideUp size 0x1000)) : m.loadFlatAt buf size = (m.fileAt buf size).loadFlat m := by
  obtain ⟨⟨r, pmm⟩, hal⟩ : ∃ p, m.pmm.pmmAllocPages (divideUp size 0x1000) = p := ⟨_, rfl⟩
  have hflat : m.loadFlatAt buf size =
      ((m.withPmm pmm).pagingMapPages (1 * 4096) r (pageUser ||| pageRw) (divideUp size 0x1000)).bind fun m =>
        (m.copyBytes 0x1000 buf size).bind fun m =>
          m.writeBytes (add32 0x1000 size) (List.replicate (divideUp size 0x1000 * 0x1000 - size) 0) := by
    refine (congrFun (congrFun (congrFun (?unfolded : @Machine.loadFlatAt = ?body) m) buf) size).trans ?_
    case unfolded =>
      delta Machine.loadFlatAt
      exact rfl
    extract_lets num
    have hnum : m.pmm.pmmAllocPages num = (r, pmm) := hal
    rewrite [hnum]
    rfl
  have hal' : m.pmm.pmmAllocPages (divideUp (m.fileAt buf size).size 0x1000) = (r, pmm) := hal
  rw [hflat, loadFlat_eq hal']
  refine Option.bind_congr fun m₁ hmap => ?_
  have hpages : 1 + divideUp size 0x1000 ≤ userPages := by
    rw [divideUp_eq (by decide)]
    unfold userPages
    omega
  have hlost : m₁.tableLost = false := (region_found h (by decide) hf hal (by decide) hmap).trans hl
  have ha := region_acts h hpages hal (hf.first hal) (by decide) hmap hlost
  obtain ⟨hk₁, hsame⟩ := hk.acts ha
  have hfits := hk.fits
  have hcopy : m₁.copyBytes 0x1000 buf size = m₁.writeBytes 0x1000 ((m.fileAt buf size).bytes 0 size) := by
    rw [copyBytes_eq _ ha.user hk₁ hend]
    refine congrArg _ (List.map_congr_left fun i hi => ?_)
    rw [List.mem_range] at hi
    change _ = (m.byteAt (add32 (add32 buf 0) i)).getD 0
    have hbuf : add32 buf 0 = buf := add32_of_lt (by omega)
    rw [hbuf, add32_of_lt (by omega), hsame _ (by omega) (by omega)]
  rw [hcopy]
  rfl

/-- **The loader does not write to its file**, in either format, and reads nothing else. -/
structure Machine.CodeStays (m : Machine) (buf size : ℕ) : Prop where
  user : UserOK m
  lost : m.tableLost = false
  buffer : KernelBuffer m buf size
  below : (m.fileAt buf size).Below
  elf : (m.fileAt buf size).elfIsValid → m.HeaderFrames buf size 0 maxHeaders ∧ (m.fileAt buf size).TableInside ∧
    ∀ i < (m.fileAt buf size).ePhnum, (m.fileAt buf size).Loads i →
      ¬ (m.fileAt buf size).segmentOut ((m.fileAt buf size).phdr i) →
        (m.fileAt buf size).SourceIn ((m.fileAt buf size).phdr i)
  flat : ¬ (m.fileAt buf size).elfIsValid → RegionFrames m 1 (divideUp size 0x1000)

/-- **The code in memory is loaded like a constant file.** -/
theorem loadAt_eq (h : m.CodeStays buf size) : m.loadAt buf size = (m.fileAt buf size).load m := by
  have hbelow := h.below
  unfold Binary.Below at hbelow
  unfold loadAt Binary.load
  by_cases hvalid : (m.fileAt buf size).elfIsValid
  · rw [if_pos hvalid] at hbelow
    obtain ⟨hframes, htable, hsrc⟩ := h.elf hvalid
    rw [if_pos hvalid, if_pos hvalid, elfLoadAt_eq ⟨h.user, h.lost, h.buffer, hbelow, hframes⟩ htable hsrc]
  · rw [if_neg hvalid] at hbelow
    rw [if_neg hvalid, if_neg hvalid, loadFlatAt_eq h.user h.lost h.buffer hbelow (h.flat hvalid)]

/-! ### A file in the kernel's heap -/

variable (x : Binary)

end Saynaa
