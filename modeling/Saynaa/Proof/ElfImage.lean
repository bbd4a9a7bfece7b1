import Saynaa.Proof.UserSpace
import Saynaa.Sys.Elf

/-!
# The image that the ELF loader builds

* `ImageOK`: every loadable segment is in memory, and no other page is mapped or written.
* `SegmentOK`: a segment with its bytes in the file, its copy in its own pages, and its addresses below the kernel.
* `loadLoop_cases`: what one iteration of the loop does.
* `loadSegment_ok`, `segments_loaded`: one segment, and all of them.
* `elf_image`: the loader builds the image of such segments.
-/

namespace Saynaa

open Lib Machine Binary

/-- The pages that the loader maps for a segment. -/
def Elf32Phdr.pages (ph : Elf32Phdr) : ℕ := divideUp (add32 ph.pMemsz (ph.pVaddr % 0x1000)) 0x1000

/-- A page that has an address of the segment. -/
def Elf32Phdr.Meets (ph : Elf32Phdr) (n : ℕ) : Prop := ∃ k < ph.pMemsz, (ph.pVaddr + k) / 4096 = n

/-- **A segment that the loader gets right.** Its end in the file does not wrap around, what is copied fits into
its own pages, it does not occupy a page without having an address there, and it ends below the kernel. -/
structure SegmentOK (ph : Elf32Phdr) : Prop where
  file : ph.pOffset + ph.pFilesz < 2 ^ 32
  copy : ph.pVaddr % 4096 + ph.pFilesz ≤ ph.pages * 4096
  empty : ph.pMemsz = 0 → ph.pVaddr % 4096 = 0
  user : ph.pVaddr + ph.pMemsz ≤ 0xC0000000

namespace Binary

variable (x : Binary)

/-- A segment that is loaded. -/
def Loads (i : ℕ) : Prop := (x.phdr i).pType = ptLoad

/-- **A segment in memory**: the bytes of the file, and zeros. -/
def SegmentAt (m : Machine) (ph : Elf32Phdr) : Prop := ∀ k < ph.pMemsz,
  mapping m ((ph.pVaddr + k) / 4096) ≠ none ∧ (k < ph.pFilesz → ph.pOffset + k < x.size) ∧
    m.byteAt (ph.pVaddr + k) = some (if k < ph.pFilesz then x.mem (x.buf + (ph.pOffset + k)) else 0)

/-- **The image** in `m'` that was built from `m`: the first `n` segments are in memory, other pages are mapped as
before, and the frames that were in use keep their words. -/
structure ImageOK (m m' : Machine) (n : ℕ) : Prop where
  segments : ∀ i < n, x.Loads i → x.SegmentAt m' (x.phdr i)
  pages : ∀ p, (∀ i < n, x.Loads i → ¬ (x.phdr i).Meets p) → mapping m' p = mapping m p
  data : DataKept m m'

/-- The machine of the next iteration; `none` if the loop ends. -/
def headerNext (m : Machine) (i : ℕ) : Option Machine :=
  if (x.phdr i).pType ≠ ptLoad then some m else if x.segmentOut (x.phdr i) then none else x.loadSegment m (x.phdr i)

/-- The frames of the segments and of their page tables are found. -/
def FramesFound (m : Machine) (i : ℕ) : ℕ → Prop
  | 0 => True
  | k + 1 => (x.Loads i → (m.pmm.pmmAllocPages (x.phdr i).pages).1 ≠ 0 ∨ (x.phdr i).pages = 0) ∧
    ∀ m' ∈ x.headerNext m i, m'.tableLost = false ∧ FramesFound m' (i + 1) k

instance (i : ℕ) : Decidable (x.Loads i) := inferInstanceAs (Decidable (_ = _))

instance decFramesFound (m : Machine) (i : ℕ) : (k : ℕ) → Decidable (x.FramesFound m i k)
  | 0 => .isTrue trivial
  | k + 1 =>
    have (m' : Machine) := decFramesFound m' (i + 1) k
    inferInstanceAs (Decidable ((_ → _) ∧ ∀ m' ∈ _, _ ∧ _))

end Binary

variable {x : Binary} {m m' m₀ : Machine} {ph : Elf32Phdr} {a k i n r : ℕ} {pmm : Pmm}

/-! ### One segment -/

theorem pages_eq (h : ph.pVaddr + ph.pMemsz ≤ 0xC0000000) :
    ph.pages = (ph.pMemsz + ph.pVaddr % 4096 + 4095) / 4096 := by
  unfold Elf32Phdr.pages
  rw [add32_of_lt (by omega), divideUp_eq (by decide), Nat.add_sub_assoc (by decide)]

/-- **The pages of a segment** are those that have an address of it. -/
theorem SegmentOK.meets (h : SegmentOK ph) : ph.Meets n ↔ ph.pVaddr / 4096 ≤ n ∧ n < ph.pVaddr / 4096 + ph.pages := by
  have hpages := pages_eq h.user
  have hempty := h.empty
  unfold Elf32Phdr.Meets
  constructor
  · rintro ⟨k, hk, rfl⟩
    omega
  · rintro ⟨hlo, hhi⟩
    rcases Nat.eq_zero_or_pos ph.pMemsz with h0 | hpos
    · have := hempty h0
      omega
    · by_cases hfirst : n = ph.pVaddr / 4096
      · exact ⟨0, hpos, by omega⟩
      · exact ⟨n * 4096 - ph.pVaddr, by omega, by omega⟩

/-- The body of the loop, with the allocator's answer. The definition is unfolded as a function, since its match
on that answer should not be evaluated. -/
theorem loadSegment_eq (hal : m.pmm.pmmAllocPages ph.pages = (r, pmm)) : x.loadSegment m ph =
    ((m.withPmm pmm).pagingMapPages (ph.pVaddr / 4096 * 4096) r (pageUser ||| pageRw) ph.pages).bind fun m =>
      (m.writeBytes ph.pVaddr (x.bytes ph.pOffset ph.pFilesz)).bind fun m =>
        if ph.pMemsz > ph.pFilesz then
          m.writeBytes (add32 ph.pVaddr ph.pFilesz) (List.replicate (ph.pMemsz - ph.pFilesz) 0)
        else some m := by
  unfold Elf32Phdr.pages at hal ⊢
  refine (congrFun (congrFun (congrFun (?unfolded : @Binary.loadSegment = ?body) x) m) ph).trans ?_
  case unfolded =>
    delta Binary.loadSegment
    exact rfl
  extract_lets pageBase pageOff total pages
  have hpages : m.pmm.pmmAllocPages pages = (r, pmm) := hal
  rewrite [hpages]
  rfl

theorem bytes_length (off n : ℕ) : (x.bytes off n).length = n := by
  unfold bytes
  rw [List.length_map, List.length_range]

/-- What is written to the pages of a segment. -/
structure Filled (x : Binary) (ph : Elf32Phdr) (m m' : Machine) : Prop where
  same : SamePages m m'
  inside : ∀ k < ph.pMemsz,
    m'.byteAt (ph.pVaddr + k) = some (if k < ph.pFilesz then x.mem (add32 (add32 x.buf ph.pOffset) k) else 0)
  outside : ∀ a < 0xC0000000, (∀ k < ph.pages, a / 4096 ≠ ph.pVaddr / 4096 + k) → m'.byteAt a = m.byteAt a
  word : ∀ g, (∀ k < ph.pages, mapping m (ph.pVaddr / 4096 + k) ≠ some g) → ∀ j, m'.phys g j = m.phys g j

/-- **Copy and clear**, in the pages of the segment. -/
theorem fill_ok (h : UserOK m) (hs : SegmentOK ph) (hm : ∀ k < ph.pages, mapping m (ph.pVaddr / 4096 + k) ≠ none)
    (he : ((m.writeBytes ph.pVaddr (x.bytes ph.pOffset ph.pFilesz)).bind fun m =>
      if ph.pMemsz > ph.pFilesz then
        m.writeBytes (add32 ph.pVaddr ph.pFilesz) (List.replicate (ph.pMemsz - ph.pFilesz) 0)
      else some m) = some m') : Filled x ph m m' := by
  have hpages := pages_eq hs.user
  have hcopy := hs.copy
  have huser := hs.user
  have hown (a : ℕ) (h1 : ph.pVaddr ≤ a) (h2 : a < ph.pVaddr / 4096 * 4096 + ph.pages * 4096) :
      ∃ k < ph.pages, a / 4096 = ph.pVaddr / 4096 + k := ⟨a / 4096 - ph.pVaddr / 4096, by omega, by omega⟩
  have hmapped (a : ℕ) (h1 : ph.pVaddr ≤ a) (h2 : a < ph.pVaddr / 4096 * 4096 + ph.pages * 4096) : mapping m
    (a / 4096) ≠ none := by
    obtain ⟨k, hk, heq⟩ := hown a h1 h2
    rw [heq]
    exact hm k hk
  obtain ⟨m₁, hw, he⟩ := Option.bind_eq_some_iff.1 he
  obtain ⟨m₁', hw', hsame, hbyte, hword⟩ :=
    writeBytes_ok (x.bytes ph.pOffset ph.pFilesz) h (v := ph.pVaddr) (by rw [bytes_length]; omega) (by
    intro a h1 h2
    rw [bytes_length] at h2
    exact hmapped a h1 (by omega))
  obtain rfl := Option.some.inj (hw'.symm.trans hw)
  rw [bytes_length] at hbyte hword
  have hfile (k : ℕ) (hk : k < ph.pFilesz) :
      (x.bytes ph.pOffset ph.pFilesz)[k]? = some (x.mem (add32 (add32 x.buf ph.pOffset) k)) := by
    unfold bytes
    rw [List.getElem?_map, List.getElem?_range hk]
    rfl
  have hout₁ (a : ℕ) (ha : a < 0xC0000000)
    (hne : ∀ k < ph.pages, a / 4096 ≠ ph.pVaddr / 4096 + k) : m₁'.byteAt a = m.byteAt a := by
    rw [hbyte a ha, if_neg]
    rintro ⟨h1, h2⟩
    obtain ⟨k, hk, heq⟩ := hown a h1 (by omega)
    exact hne k hk heq
  have hword₁ (g : ℕ) (hg : ∀ k < ph.pages, mapping m (ph.pVaddr / 4096 + k) ≠ some g) (j : ℕ) :
      m₁'.phys g j = m.phys g j := by
    refine hword g (fun a h1 h2 => ?_) j
    obtain ⟨k, hk, heq⟩ := hown a h1 (by omega)
    rw [heq]
    exact hg k hk
  by_cases hbss : ph.pMemsz > ph.pFilesz
  swap
  · -- nothing to clear
    rw [if_neg hbss] at he
    obtain rfl := Option.some.inj he
    refine ⟨hsame, fun k hk => ?_, hout₁, hword₁⟩
    rw [hbyte _ (by omega), if_pos (by omega), Nat.add_sub_cancel_left, hfile k (by omega), if_pos (by omega)]
  rw [if_pos hbss, add32_of_lt (by omega)] at he
  obtain ⟨m₂, hw₂, hsame₂, hbyte₂, hword₂⟩ := writeBytes_ok (List.replicate (ph.pMemsz - ph.pFilesz) 0) (hsame.user h)
    (v := ph.pVaddr + ph.pFilesz) (by rw [List.length_replicate]; omega) (by
      intro a h1 h2
      rw [List.length_replicate] at h2
      rw [hsame.mapping]
      exact hmapped a (by omega) (by omega))
  obtain rfl := Option.some.inj (hw₂.symm.trans he)
  rw [List.length_replicate] at hbyte₂ hword₂
  refine ⟨hsame.trans hsame₂, fun k hk => ?_, fun a ha hne => ?_, fun g hg j => ?_⟩
  · rw [hbyte₂ _ (by omega), hbyte _ (by omega)]
    -- the first bytes come from the file, and the others are zero
    by_cases hk' : k < ph.pFilesz
    · rw [if_neg (by omega), if_pos (by omega), Nat.add_sub_cancel_left, hfile k hk', if_pos hk']
    · rw [if_pos (by omega), if_neg hk', List.getElem?_replicate, if_pos (by omega)]
  · rw [hbyte₂ a ha, if_neg, hout₁ a ha hne]
    rintro ⟨h1, h2⟩
    obtain ⟨k, hk, heq⟩ := hown a (by omega) (by omega)
    exact hne k hk heq
  · rw [hword₂ g (fun a h1 h2 => ?_) j, hword₁ g hg j]
    obtain ⟨k, hk, heq⟩ := hown a (by omega) (by omega)
    rw [hsame.mapping, heq]
    exact hg k hk

/-- What the loading of a segment does. -/
structure SegmentLoaded (x : Binary) (ph : Elf32Phdr) (m m' : Machine) : Prop where
  user : UserOK m'
  data : DataKept m m'
  here : x.SegmentAt m' ph
  pages : ∀ p, ¬ ph.Meets p → mapping m' p = mapping m p
  before : ∀ a < 0xC0000000, mapping m (a / 4096) ≠ none → m'.byteAt a = m.byteAt a ∧
    mapping m' (a / 4096) = mapping m (a / 4096)

/-- **One segment.** -/
theorem loadSegment_ok (h : UserOK m) (hs : SegmentOK ph) (hbuf : x.buf + x.size ≤ 2 ^ 32) (hin : ¬ x.segmentOut ph)
    (hframes : (m.pmm.pmmAllocPages ph.pages).1 ≠ 0 ∨ ph.pages = 0) (he : x.loadSegment m ph = some m')
    (hl : m'.tableLost = false) : SegmentLoaded x ph m m' := by
  have hpages := pages_eq hs.user
  have huser := hs.user
  have hflags : ¬ large (pageUser ||| pageRw) := by decide
  obtain ⟨⟨r, pmm⟩, hal⟩ : ∃ p, m.pmm.pmmAllocPages ph.pages = p := ⟨_, rfl⟩
  rw [hal] at hframes
  rw [loadSegment_eq hal] at he
  obtain ⟨m₁, hmap₁, he⟩ := Option.bind_eq_some_iff.1 he
  have hl₁ : m₁.tableLost = false := by
    obtain ⟨m₂, hw, hrest⟩ := Option.bind_eq_some_iff.1 he
    rw [← writeBytes_lost _ hw]
    split_ifs at hrest
    · rw [← writeBytes_lost _ hrest]
      exact hl
    · rw [Option.some.inj hrest]
      exact hl
  have hn : ph.pVaddr / 4096 + ph.pages ≤ userPages := by
    unfold userPages
    omega
  obtain ⟨hu₁, hk₁, hfree, hmap⟩ := mapRegion_ok h hn hal hframes hflags hmap₁ hl₁
  have hown (k : ℕ) (hk : k < ph.pages) : mapping m₁ (ph.pVaddr / 4096 + k) = some (r / 4096 + k) := by
    rw [hmap, if_pos (by omega), Nat.add_sub_cancel_left]
  have hfill := fill_ok hu₁ hs (fun k hk => hown k hk ▸ Option.some_ne_none _) he
  have hother (p : ℕ) (hp : ¬ ph.Meets p) : mapping m' p = mapping m p := by
    rw [hfill.same.mapping, hmap, if_neg fun hc => hp (hs.meets.2 hc)]
  have hnot {p : ℕ} (hp : mapping m p ≠ none) : ∀ k < ph.pages, p ≠ ph.pVaddr / 4096 + k := by
    rintro k hk rfl
    exact hp (hfree k hk).1
  refine ⟨hfill.same.user hu₁, ⟨?_, ?_, ?_⟩, ?_, hother, ?_⟩
  · intro g hg
    rw [hfill.same.pmm]
    exact hk₁.used g hg
  · intro g hg hng
    exact notPaging_congr hfill.same.cr3 hfill.same.dir (hk₁.notPaging g hg hng)
  · intro g hg hng j
    rw [hfill.word g ?_ j, hk₁.word g hg hng j]
    intro k hk heq
    rw [hown k hk] at heq
    exact (hfree k hk).2 (Option.some.inj heq ▸ hg)
  · -- a byte of the segment
    intro k hk
    have hmeets : ph.Meets ((ph.pVaddr + k) / 4096) := ⟨k, hk, rfl⟩
    have hrange := hs.meets.1 hmeets
    have hfile : k < ph.pFilesz → ph.pOffset + k < x.size := by
      intro hkf
      have hend : add32 ph.pOffset ph.pFilesz ≤ x.size := not_lt.1 hin
      rw [add32_of_lt hs.file] at hend
      omega
    refine ⟨?_, hfile, ?_⟩
    · rw [hfill.same.mapping, hmap, if_pos hrange]
      exact Option.some_ne_none _
    · rw [hfill.inside k hk]
      split_ifs with hkf
      · have := hfile hkf
        have hstart : add32 x.buf ph.pOffset = x.buf + ph.pOffset := add32_of_lt (by omega)
        rw [hstart, add32_of_lt (by omega), Nat.add_assoc]
      · rfl
  · -- a byte of a page that is not one of the segment
    intro a ha hm
    have hp : ¬ ph.Meets (a / 4096) := by
      intro hc
      have hrange := hs.meets.1 hc
      exact hnot hm (a / 4096 - ph.pVaddr / 4096) (by omega) (by omega)
    refine ⟨?_, hother _ hp⟩
    rw [hfill.outside a ha (hnot hm)]
    refine hk₁.byteAt h hu₁ ha hm ?_
    rw [hmap, if_neg fun hc => hp (hs.meets.2 hc)]

/-! ### All segments -/

/-- Other headers are skipped. -/
theorem Binary.ImageOK.skip (h : x.ImageOK m₀ m i) (hi : ¬ x.Loads i) : x.ImageOK m₀ m (i + 1) := by
  refine ⟨fun j hj hl => ?_, fun p hp => h.pages p fun j hj => hp j (by omega), h.data⟩
  have hne : j ≠ i := by
    rintro rfl
    exact hi hl
  exact h.segments j (by omega) hl

/-- A segment more; the ones before it stay in memory. -/
theorem Binary.ImageOK.step (h : x.ImageOK m₀ m i) (hseg : ∀ j < i, x.Loads j → SegmentOK (x.phdr j)) (hi : x.Loads i)
    (hs : SegmentLoaded x (x.phdr i) m m') : x.ImageOK m₀ m' (i + 1) := by
  refine ⟨fun j hj hl => ?_, fun p hp => ?_, h.data.trans hs.data⟩
  · rcases Nat.lt_succ_iff_lt_or_eq.1 hj with hlt | rfl
    · intro k hk
      obtain ⟨hm, hfile, hbyte⟩ := h.segments j hlt hl k hk
      have huser := (hseg j hlt hl).user
      obtain ⟨hb, hmap⟩ := hs.before _ (by omega) hm
      exact ⟨by rwa [hmap], hfile, hb.trans hbyte⟩
    · exact hs.here
  · rw [hs.pages p (hp i (Nat.lt_succ_self i) hi)]
    exact h.pages p fun j hj => hp j (by omega)

/-- **One iteration** passes over the header, ends the loop, or loads the segment. -/
theorem loadLoop_cases {ok : Bool} (he : x.loadLoop m i (k + 1) = some (ok, m')) :
    (¬ x.Loads i ∧ x.headerNext m i = some m ∧ x.loadLoop m (i + 1) k = some (ok, m')) ∨
    (ok = false ∧ m' = m) ∨
    (x.Loads i ∧ ¬ x.segmentOut (x.phdr i) ∧ ∃ m₁, x.loadSegment m (x.phdr i) = some m₁ ∧
      x.headerNext m i = some m₁ ∧ x.loadLoop m₁ (i + 1) k = some (ok, m')) := by
  unfold loadLoop at he
  unfold headerNext Loads
  by_cases htype : (x.phdr i).pType ≠ ptLoad
  · rw [if_pos htype] at he ⊢
    exact .inl ⟨htype, rfl, he⟩
  rw [if_neg htype] at he ⊢
  by_cases hout : x.segmentOut (x.phdr i)
  · rw [if_pos hout] at he
    obtain ⟨rfl, rfl⟩ := Prod.mk.inj (Option.some.inj he)
    exact .inr (.inl ⟨rfl, rfl⟩)
  · rw [if_neg hout] at he ⊢
    obtain ⟨m₁, hload, he⟩ := Option.bind_eq_some_iff.1 he
    exact .inr (.inr ⟨not_not.1 htype, hout, m₁, hload, hload, he⟩)

/-- **The loop**, by induction on the headers that are left. -/
theorem segments_loaded (hbuf : x.buf + x.size ≤ 2 ^ 32) (k : ℕ) : ∀ {m : Machine} {i : ℕ}, UserOK m →
    x.ImageOK m₀ m i →
    x.FramesFound m i k → (∀ j < i + k, x.Loads j → SegmentOK (x.phdr j)) → x.loadLoop m i k = some (true, m') →
      x.ImageOK m₀ m' (i + k) := by
  induction k with
  | zero =>
    intro m i _ hi _ _ he
    cases he
    exact hi
  | succ k ih =>
    intro m i h hi hf hseg he
    have hcount : i + (k + 1) = i + 1 + k := by omega
    rw [hcount] at hseg ⊢
    obtain ⟨hframes, hnext⟩ := hf
    rcases loadLoop_cases he with ⟨hl, hn, he⟩ | ⟨hfail, -⟩ | ⟨hl, hout, m₁, hload, hn, he⟩
    · -- a header of another type
      exact ih h (hi.skip hl) (hnext m hn).2 hseg he
    · cases hfail
    obtain ⟨hlost, hf₁⟩ := hnext m₁ hn
    have hs := loadSegment_ok h (hseg i (by omega) hl) hbuf hout (hframes hl) hload hlost
    exact ih hs.user (hi.step (fun j hj => hseg j (by omega)) hl hs) hf₁ hseg he

/-- The same, for a call that succeeds. -/
theorem elfLoad_image (hbuf : x.buf + x.size ≤ 2 ^ 32) (hu : UserOK m) (hframes : x.FramesFound m 0 x.ePhnum)
    (hseg : ∀ i < x.ePhnum, x.Loads i → SegmentOK (x.phdr i)) (hload : x.elfLoad m = some (true, m')) :
    x.ImageOK m m' x.ePhnum := by
  have hstart : x.ImageOK m m 0 := ⟨fun i hi => absurd hi (Nat.not_lt_zero i), fun _ _ => rfl, .refl m⟩
  have himage : x.loadLoop m 0 x.ePhnum = some (true, m') := by
    unfold elfLoad at hload
    split_ifs at hload with hvalid hout
    · cases hload
    · exact hload
    · cases hload
  have hall := segments_loaded hbuf x.ePhnum hu hstart hframes (by rwa [Nat.zero_add]) himage
  rwa [Nat.zero_add] at hall

/-- **The image is built**, where `elf_load` returns 0 and every loadable segment is one that it gets right. -/
theorem elf_image (x : Binary) (hbuf : x.buf + x.size ≤ 2 ^ 32) (hu : UserOK m) (hframes : x.FramesFound m 0 x.ePhnum)
    (hseg : ∀ i < x.ePhnum, x.Loads i → SegmentOK (x.phdr i)) {entry : ℕ}
    (he : x.elfLoadEntry m = some (some entry, m')) :
    x.ImageOK m m' x.ePhnum ∧ entry = x.eEntry := by
  obtain ⟨⟨ok, m₁⟩, hload, hret⟩ := Option.map_eq_some_iff.1 he
  obtain ⟨hentry, rfl⟩ := Prod.mk.inj hret
  cases ok with
  | false => cases hentry
  | true => exact ⟨elfLoad_image hbuf hu hframes hseg hload, (Option.some.inj hentry).symm⟩

/-- A file of a header, these program headers, and nothing else. -/
def elfFile (phs : List Elf32Phdr) : Binary :=
  let bytes := [0x7F, 0x45, 0x4C, 0x46, 1, 1] ++ List.replicate 10 0 ++ le 2 2 ++ le 2 3 ++ le 4 1 ++
    le 4 0x8048000 ++
    le 4 52 ++ List.replicate 12 0 ++ le 2 phs.length ++ List.replicate 6 0 ++ phs.flatMap fun ph =>
      le 4 ph.pType ++ le 4 ph.pOffset ++ le 4 ph.pVaddr ++ le 4 0 ++ le 4 ph.pFilesz ++ le 4 ph.pMemsz ++
        le 4 0 ++ le 4 0
  ⟨fun i => bytes.getD (i - 0xC0500000) 0, 0xC0500000, bytes.length⟩

/-- A directory without page tables maps nothing. -/
theorem mapping_of_noTables (hd : ∀ i < 1023, m.dir i = 0) (n : ℕ) : mapping m n = none := by
  refine mapping_of_not_table fun ht => ?_
  have hp := ht.2.1
  rw [hd _ ht.1] at hp
  exact not_present_zero hp

theorem UserOK.of_noTables (hd : ∀ i < 1023, m.dir i = 0) (h0 : m.pmm.Used 0) (hc : m.pmm.Used m.cr3)
    (hne : m.cr3 ≠ 0) : UserOK m := by
  have hno : ∀ i, ¬ HasTable m i := by
    intro i ht
    have hp := ht.2.1
    rw [hd i ht.1] at hp
    exact not_present_zero hp
  have hmap := mapping_of_noTables hd
  refine ⟨⟨hc, hne, ?_, ?_, ?_, ?_, ?_⟩, h0, fun n hn => ?_, fun n _ f hf => ?_, fun n _ k _ f hf => ?_⟩
  · exact fun i hi => absurd hi (hno i)
  · exact fun i hi => absurd hi (hno i)
  · exact fun i hi => absurd hi (hno i)
  · exact fun i _ hi => absurd hi (hno i)
  · exact fun i hi => absurd hi (hno i)
  · have hi : dirIndex (n * 4096) < 1023 := by
      unfold userPages at hn
      unfold dirIndex
      omega
    refine ⟨hi, fun hp => ?_⟩
    rw [hd _ hi] at hp
    exact absurd hp not_present_zero
  · rw [hmap] at hf
    cases hf
  · rw [hmap] at hf
    cases hf

theorem bareSpace_dir : ∀ i < 1023, bareSpace.dir i = 0 := fun i hi => if_neg fun h => by omega

theorem bareSpace_user : UserOK bareSpace :=
  .of_noTables bareSpace_dir (by decide +kernel) (by decide +kernel) (by decide)

/-- A segment of one byte and a zero. -/
def oneSegment : Binary := elfFile [⟨ptLoad, 0, 0x8048010, 1, 2⟩]

theorem elf_image_one : ∃ m', oneSegment.elfLoadEntry bareSpace = some (some 0x8048000, m') ∧
    oneSegment.ImageOK bareSpace m' oneSegment.ePhnum ∧ 0x8048000 = oneSegment.eEntry := by
  have hrun : (oneSegment.elfLoadEntry bareSpace).map Prod.fst = some (some 0x8048000) := by decide +kernel
  obtain ⟨⟨r, m'⟩, he, rfl⟩ := Option.map_eq_some_iff.1 hrun
  have hnum : oneSegment.ePhnum = 1 := by decide +kernel
  have hseg : ∀ i < oneSegment.ePhnum, oneSegment.Loads i → SegmentOK (oneSegment.phdr i) := by
    intro i hi _
    obtain rfl : i = 0 := by omega
    constructor <;> decide +kernel
  exact ⟨m', he, elf_image oneSegment (by decide) bareSpace_user (by decide +kernel) hseg he⟩

end Saynaa
