import Saynaa.Proof.Sbrk

/-!
# A refused `proc_sbrk`

* `Apart m f`: frame `f` is taken and holds no paging structure. The loop of
  `paging_alloc_pages` keeps this for the frames that it has mapped (`allocLoop_apart`).
* `Untouched`: what a refused call must leave as it is.
* `sbrk_refused`: it does so exactly when it refuses to shrink, or gets no frame at all.
* `sbrk_half_done`: a call that gets one of three frames fails with this one mapped.
-/

namespace Saynaa

open Machine

variable {m m' : Machine} {f : ℕ}

/-- **What a refused call must not change**: the length of the heap, the pages below the kernel,
and the frames in use that hold no paging structure. -/
structure Untouched (m m' : Machine) (p p' : Process) : Prop where
  len : p'.memLen = p.memLen
  pages : ∀ n < 0xC0000, mapping m' n = mapping m n
  frames : ∀ f, m'.pmm.Used f ∧ NotPaging m' f ↔ m.pmm.Used f ∧ NotPaging m f

/-- A taken frame that is neither frame 0 nor holds the directory or one of its tables. -/
structure Apart (m : Machine) (f : ℕ) : Prop where
  used : m.pmm.Used f
  ne_zero : f ≠ 0
  notPaging : NotPaging m f

/-- A directory whose entries are kept, or replaced by ones for other frames. -/
theorem notPaging_of_dir (hf : NotPaging m f) (hc : m'.cr3 = m.cr3)
    (hd : ∀ i, m'.dir i = m.dir i ∨ frameOf (m'.dir i) ≠ f ∨ ¬ present (m'.dir i)) : NotPaging m' f := by
  refine ⟨by rw [hc]; exact hf.1, ?_⟩
  intro i hi
  rcases hd i with h | h | h
  · rw [tableFrame_congr h]
    refine hf.2 i ?_
    unfold HasTable at hi ⊢
    rwa [h] at hi
  · exact fun he => h he.symm
  · exact absurd hi.2.1 h

theorem notPaging_store (hf : NotPaging m f) (q : PagePtr) {e : BitVec 32} (he : frameOf e ≠ f) :
    NotPaging (m.store q e) f := by
  refine notPaging_of_dir hf rfl ?_
  intro i
  unfold Machine.dir Machine.store
  simp only
  split_ifs
  · exact .inr (.inl he)
  · exact .inl rfl

theorem notPaging_zeroFrame (hf : NotPaging m f) (g : ℕ) : NotPaging (m.zeroFrame g) f := by
  refine notPaging_of_dir hf rfl ?_
  intro i
  unfold Machine.dir Machine.zeroFrame
  simp only
  split_ifs
  · exact .inr (.inr not_present_zero)
  · exact .inl rfl

/-- The allocator gives another frame, or none. -/
theorem Apart.allocPage (hf : Apart m f) {r : ℕ} {p : Pmm} (hal : m.pmm.pmmAllocPage = some (r, p)) :
    Apart (m.withPmm p) f ∧ frameOf (BitVec.ofNat 32 r) ≠ f := by
  by_cases hr : r = 0
  · subst hr
    unfold Pmm.pmmAllocPage at hal
    simp only at hal
    split_ifs at hal with h1 h2
    · obtain ⟨-, rfl⟩ := Prod.mk.inj (Option.some.inj hal)
      exact ⟨hf, hf.ne_zero.symm⟩
    · obtain ⟨h3, -⟩ := Prod.mk.inj (Option.some.inj hal)
      unfold pmmBlockSize at h3
      omega
  · obtain ⟨g, rfl, -, hlt, hfree, hused⟩ := allocPage_frame hal hr
    refine ⟨⟨(hused f).2 (.inl hf.used), hf.ne_zero, hf.notPaging⟩, ?_⟩
    rw [frameOf_ofNat hlt]
    rintro rfl
    exact hfree hf.used

/-- An entry with flags has the frame of the page. -/
theorem frameOf_flags {e a b c : BitVec 32} (ha : a &&& pageFrame = 0) (hb : b &&& pageFrame = 0)
    (hc : c &&& pageFrame = 0) : frameOf (e ||| a ||| b ||| c) = frameOf e := by
  rw [frameOf_or hc, frameOf_or hb, frameOf_or ha]

theorem Apart.createTable (hf : Apart m f) {i : ℕ} {flags : BitVec 32} (he : m.createTable i flags = some m') :
    Apart m' f := by
  simp only [Machine.createTable, Option.bind_eq_bind, Option.bind_eq_some_iff] at he
  obtain ⟨⟨r, p⟩, hal, he⟩ := he
  obtain ⟨hp, hr⟩ := hf.allocPage hal
  set m₁ := (m.withPmm p).store ⟨m.cr3, i⟩ (BitVec.ofNat 32 r ||| pagePresent ||| pageRw ||| (flags &&& pageFlags))
  have h₁ : NotPaging m₁ f := by
    refine notPaging_store hp.notPaging _ ?_
    rwa [frameOf_flags (a := pagePresent) (b := pageRw) (by decide) (by decide) (and_flags_frame flags)]
  obtain rfl := Option.some.inj he
  exact ⟨hp.used, hf.ne_zero, notPaging_zeroFrame h₁ _⟩

theorem Apart.getPage (hf : Apart m f) {v : ℕ} {c : Bool} {flags : BitVec 32} {q : Option PagePtr}
    (he : m.pagingGetPage v c flags = some (q, m')) : Apart m' f := by
  obtain ⟨-, rfl | ⟨-, -, hc⟩, -⟩ := getPage_cases he
  · exact hf
  · exact hf.createTable hc

/-- **The loop of `paging_alloc_pages`** uses other frames than those in use. -/
theorem allocLoop_apart {v : ℕ} : ∀ (k : ℕ) {i : ℕ} {m m' : Machine} {ok : Bool}, Apart m f →
    m.pagingAllocLoop v i k = some (ok, m') → Apart m' f := by
  intro k
  induction k with
  | zero =>
    intro i m m' ok hf he
    obtain ⟨-, rfl⟩ := Prod.mk.inj (Option.some.inj he)
    exact hf
  | succ k ih =>
    intro i m m' ok hf he
    simp only [pagingAllocLoop, Option.bind_eq_bind, Option.bind_eq_some_iff] at he
    obtain ⟨⟨r, p⟩, hal, he⟩ := he
    obtain ⟨hp, hr⟩ := hf.allocPage hal
    split_ifs at he with hr0
    · obtain ⟨-, rfl⟩ := Prod.mk.inj (Option.some.inj he)
      exact hp
    · simp only [Option.bind_eq_some_iff] at he
      obtain ⟨⟨q, m₁⟩, hget, ptr, -, he⟩ := he
      have h₁ := hp.getPage hget
      refine ih (m := m₁.store ptr _) ⟨h₁.used, hf.ne_zero, notPaging_store h₁.notPaging _ ?_⟩ he
      rwa [frameOf_flags (a := pagePresent) (b := pageRw) (c := pageUser) (by decide) (by decide) (by decide)]

/-- The table of an ordinary page is not the directory, even where it was lost. -/
theorem getPage_ne_cr3 (h : SpaceOK m) {v : ℕ} (ho : Ordinary m v) {flags : BitVec 32} {q : Option PagePtr}
    {ptr : PagePtr} (he : m.pagingGetPage v true flags = some (q, m')) (hq : q = some ptr) : ptr.frame ≠ m'.cr3 := by
  obtain ⟨-, hm, hptr⟩ := getPage_cases he
  rw [hq] at hptr
  split_ifs at hptr with hp
  obtain rfl := Option.some.inj hptr
  rcases hm with rfl | ⟨habs, -, hc⟩
  · exact h.ne_cr3 _ (ho.hasTable hp)
  · simp only [Machine.createTable, Option.bind_eq_bind, Option.bind_eq_some_iff] at hc
    obtain ⟨⟨r, p⟩, -, hc⟩ := hc
    -- where the new table is the directory, clearing it clears the entry
    set m₁ := (m.withPmm p).store ⟨m.cr3, dirIndex v⟩
      (BitVec.ofNat 32 r ||| pagePresent ||| pageRw ||| (flags &&& pageFlags))
    obtain rfl := Option.some.inj hc
    show frameOf (if m₁.cr3 = m₁.tableFrame (dirIndex v) then 0 else m₁.dir (dirIndex v)) ≠ m₁.cr3
    split_ifs with heq
    · exact h.cr3_ne.symm
    · exact Ne.symm heq

/-- **The first page** that is mapped: its frame was not in use before. -/
theorem allocLoop_first (h : SpaceOK m) {v : ℕ} (hv : v < 2 ^ 32) (ho : Ordinary m v) {k : ℕ} {ok : Bool}
    (he : m.pagingAllocLoop v 0 (k + 1) = some (ok, m')) {r : ℕ} {p : Pmm} (hal : m.pmm.pmmAllocPage = some (r, p))
    (hr : r ≠ 0) : ∃ f, ¬ m.pmm.Used f ∧ Apart m' f := by
  obtain ⟨f, rfl, hf0, hlt, hfree, hused⟩ := allocPage_frame hal hr
  simp only [pagingAllocLoop, hal, Option.bind_eq_bind, Option.bind_some] at he
  rw [if_neg hr] at he
  simp only [Option.bind_eq_some_iff] at he
  obtain ⟨⟨q, m₁⟩, hget, ptr, hq, he⟩ := he
  have hadd : add32 v (0 * 0x1000) = v := by
    unfold add32
    omega
  rw [hadd] at hget
  have hnp : NotPaging m f := by
    constructor
    · rintro rfl
      exact hfree h.cr3
    · rintro i hi rfl
      exact hfree (h.used i hi)
  have hp : Apart (m.withPmm p) f := ⟨(hused f).2 (.inr rfl), hf0, hnp⟩
  have h₁ := hp.getPage hget
  have hspace : SpaceOK (m.withPmm p) := h.withPmm_mono fun b hb => (hused b).2 (.inl hb)
  have hne : ptr.frame ≠ m₁.cr3 := getPage_ne_cr3 hspace ho hget hq
  refine ⟨f, hfree, ?_⟩
  refine allocLoop_apart (m := m₁.store ptr _) k ⟨h₁.used, hf0, ?_⟩ he
  refine notPaging_of_dir h₁.notPaging rfl ?_
  intro i
  left
  unfold Machine.dir Machine.store
  simp only
  rw [if_neg]
  rintro ⟨hc, -⟩
  exact hne hc.symm

/-- A process with room for a page between its heap and the kernel, in whose part of the address
space there are no 4 MiB pages. -/
structure UserSpace (m : Machine) (p : Process) : Prop where
  space : SpaceOK m
  ordinary : ∀ v < 0xC0000000, Ordinary m v
  below : p.brk + 0x1000 ≤ 0xC0000000

/-- **When a refused call leaves no trace**: it is a shrink, or there is no frame at all. -/
def LeavesNoTrace (m : Machine) (size : ℤ) : Prop := size < 0 ∨ m.pmm.pmmAllocPage = some (0, m.pmm)

/-- The allocator does not change when it has no frame. -/
theorem allocPage_zero {p q : Pmm} (h : p.pmmAllocPage = some (0, q)) : q = p := by
  unfold Pmm.pmmAllocPage at h
  simp only at h
  split_ifs at h with h1 h2
  · exact (Prod.mk.inj (Option.some.inj h)).2.symm
  · obtain ⟨h3, -⟩ := Prod.mk.inj (Option.some.inj h)
    unfold pmmBlockSize at h3
    omega

variable {p p' : Process} {size : ℤ}

/-- Rounding up does not make a positive number zero. -/
theorem divideUp_pos {n d : ℕ} (hn : 0 < n) (hd : 0 < d) : 0 < divideUp n d := by
  rw [divideUp_eq hd]
  exact Nat.div_pos (by omega) hd

/-- **What a refused call has done**: nothing, or the loop over the pages behind the break. -/
theorem sbrk_none_cases (hb : p.brk + 0x1000 ≤ 2 ^ 32) (hs : size < 2 ^ 31)
    (he : procSbrk m p size = some (none, m', p')) :
    p' = p ∧ (size < 0 ∧ m' = m ∨
      0 < size ∧ ∃ k ok, m.pagingAllocLoop (p.brkPage * 0x1000) 0 (k + 1) = some (ok, m')) := by
  have hend : (0x1000 + 0x1000 * p.codeLen + p.memLen) % 2 ^ 32 = p.brk := Nat.mod_eq_of_lt (by
    change p.brk < 2 ^ 32
    omega)
  simp only [procSbrk, hend, alignTo_brk hb] at he
  generalize (if p.brk % 0x1000 ≠ 0 then 0x1000 - p.brk % 0x1000 else 0) = R at he
  rcases lt_trichotomy size 0 with hneg | rfl | hpos
  · rw [if_neg (by omega), if_pos hneg] at he
    split_ifs at he
    · cases he
      exact ⟨rfl, .inl ⟨hneg, rfl⟩⟩
    · simp [Option.bind_eq_some_iff] at he
    · cases he
  · -- a request of nothing
    rw [if_neg (by decide), if_neg (by decide)] at he
    cases he
  · rw [if_pos hpos] at he
    split_ifs at he with hrem
    · simp only [Option.bind_eq_bind, Option.bind_eq_some_iff] at he
      obtain ⟨⟨ok, m₁⟩, hal, he⟩ := he
      have hneed : 0 < ofInt (size - R) := by
        unfold ofInt
        omega
      obtain ⟨k, hk⟩ := Nat.exists_eq_succ_of_ne_zero (divideUp_pos hneed (show 0 < 0x1000 by decide)).ne'
      rw [hk] at hal
      split_ifs at he
      · cases he
      · cases he
        exact ⟨rfl, .inr ⟨hpos, k, ok, hal⟩⟩
    · cases he

/-- **A refused `proc_sbrk`** changes nothing exactly when it is a shrink, or gets no frame. -/
theorem sbrk_refused (hu : UserSpace m p) (hs : size < 2 ^ 31) (he : procSbrk m p size = some (none, m', p')) :
    Untouched m m' p p' ↔ LeavesNoTrace m size := by
  have hb := hu.below
  obtain ⟨rfl, ⟨hneg, rfl⟩ | ⟨hpos, k, ok, hloop⟩⟩ := sbrk_none_cases (by omega) hs he
  · exact iff_of_true ⟨rfl, fun _ _ => rfl, fun _ => Iff.rfl⟩ (.inl hneg)
  cases hal : m.pmm.pmmAllocPage with
  | none =>
    simp only [pagingAllocLoop, hal, Option.bind_eq_bind, Option.bind_none] at hloop
    cases hloop
  | some rp =>
    obtain ⟨r, q⟩ := rp
    by_cases hr : r = 0
    · -- no frame was left for the first page
      subst hr
      obtain rfl := allocPage_zero hal
      simp only [pagingAllocLoop, hal, Option.bind_eq_bind, Option.bind_some, if_true] at hloop
      obtain ⟨-, rfl⟩ := Prod.mk.inj (Option.some.inj hloop)
      exact iff_of_true ⟨rfl, fun _ _ => rfl, fun _ => Iff.rfl⟩ (.inr hal)
    · -- the first page stays mapped
      have hpage : p'.brkPage = (p'.brk + 0xFFF) / 0x1000 := rfl
      obtain ⟨f, hfree, hf⟩ := allocLoop_first hu.space (by omega) (hu.ordinary _ (by omega)) hloop hal hr
      refine iff_of_false ?_ ?_
      · intro h
        exact hfree ((h.frames f).1 ⟨hf.used, hf.notPaging⟩).1
      · rintro (hneg | hnone)
        · omega
        · rw [hal] at hnone
          exact hr (Prod.mk.inj (Option.some.inj hnone)).1

/-- `bareSpace` when of the blocks that the allocator looks at only 30 and 31 are free. -/
def twoFrames : Machine :=
  { bareSpace with pmm := ⟨fun i => if i = 0 then 0x3FFFFFFF#32 else 0#32, 30, 40, by decide⟩ }

/-- `twoFrames` after a request for three pages. -/
def halfDone : Machine × Process := ((procSbrk twoFrames emptyProc 0x3000).map Prod.snd).getD (twoFrames, emptyProc)

theorem twoFrames_user : UserSpace twoFrames emptyProc := by
  have hdir : ∀ i < 1023, twoFrames.dir i = 0 := fun i hi => if_neg (by omega)
  have hno : ∀ i, ¬ HasTable twoFrames i := by
    rintro i ⟨hi, hp, -⟩
    rw [hdir i hi] at hp
    exact not_present_zero hp
  refine ⟨⟨by decide +kernel, by decide, ?_, ?_, ?_, ?_, ?_⟩, ?_, by decide⟩
  · exact fun i hi => absurd hi (hno i)
  · exact fun i hi => absurd hi (hno i)
  · exact fun i hi => absurd hi (hno i)
  · exact fun i _ hi => absurd hi (hno i)
  · exact fun i hi => absurd hi (hno i)
  · intro v hv
    have hi : dirIndex v < 1023 := by
      unfold dirIndex
      omega
    refine ⟨hi, ?_⟩
    rw [hdir _ hi]
    exact fun hp => absurd hp not_present_zero

theorem halfDone_eq : procSbrk twoFrames emptyProc 0x3000 = some (none, halfDone.1, halfDone.2) :=
  Lib.eq_getD (by rw [halfDone]) (by decide +kernel)

/-- `sbrk_refused` for that request. -/
theorem sbrk_refused_twoFrames :
    Untouched twoFrames halfDone.1 emptyProc halfDone.2 ↔ LeavesNoTrace twoFrames 0x3000 :=
  sbrk_refused twoFrames_user (by decide) halfDone_eq

/-- **A request fails half done**: it gets one frame for a page and one for a page table, and the page
stays mapped. -/
theorem sbrk_half_done : ∃ m p m' p', UserSpace m p ∧ procSbrk m p 0x3000 = some (none, m', p') ∧
    mapping m 1 = none ∧ mapping m' 1 = some 30 ∧ ¬ Untouched m m' p p' := by
  have h1 : mapping twoFrames 1 = none := by decide +kernel
  have h2 : mapping halfDone.1 1 = some 30 := by decide +kernel
  refine ⟨twoFrames, emptyProc, halfDone.1, halfDone.2, twoFrames_user, halfDone_eq, h1, h2, ?_⟩
  intro h
  have h3 := h.pages 1 (by decide)
  rw [h1, h2] at h3
  exact nomatch h3

end Saynaa
