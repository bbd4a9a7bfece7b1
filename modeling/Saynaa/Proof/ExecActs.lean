import Saynaa.Proof.Acts
import Saynaa.Proof.Arguments

/-!
# What `proc_run_code` does in the new address space

* `region_acts`: pages that are mapped to frames of their own.
* `load_acts`: the program, in either format.
* `stack_acts`: the user stack with the arguments.
-/

namespace Saynaa

open Lib Machine Binary

variable {m m' m₀ m₁ : Machine} {n k f r : ℕ} {x : Binary} {ph : Elf32Phdr} {pmm : Pmm} {texts : List (List UInt8)}

/-! ### Regions -/

/-- **A run of frames** that were free at `m₀` is mapped at the pages `n`, …. -/
theorem mapPages_acts {flags : BitVec 32} (hfl : ¬ large flags) (num : ℕ) : ∀ {m : Machine} {n f : ℕ}, Acts m₀ m →
    n + num ≤ userPages →
    f + num ≤ 2 ^ 20 → (∀ i < num, ¬ m₀.pmm.Used (f + i) ∧ m.pmm.Used (f + i) ∧ NotPaging m (f + i) ∧
      ∀ k < userPages, mapping m k ≠ some (f + i)) →
      m.pagingMapPages (n * 4096) (f * 4096) flags num = some m' → m'.tableLost = false → Acts m₀ m' := by
  induction num with
  | zero =>
    intro m n f h _ _ _ he _
    cases he
    exact h
  | succ num ih =>
    intro m n f h hn hf hframes he hl
    unfold pagingMapPages at he
    obtain ⟨m₁, hmap, he⟩ := Option.bind_eq_some_iff.1 he
    have hl₁ := mapPages_lost he hl
    unfold pagingMapPage at hmap
    obtain ⟨⟨q, m₂⟩, hget, hmap⟩ := Option.bind_eq_some_iff.1 hmap
    simp only [Option.bind_eq_bind] at hmap
    obtain ⟨ptr, hq, hentry⟩ := Option.bind_eq_some_iff.1 hmap
    obtain rfl : q = some ptr := hq
    split_ifs at hentry
    obtain rfl := Option.some.inj hentry
    obtain ⟨hnew, hused, hnot, hown⟩ := hframes 0 (by omega)
    have hpe : present (BitVec.ofNat 32 (f * 4096) ||| pagePresent ||| (flags &&& pageFlags)) := present_or _ _
    have hfe : frameOf (BitVec.ofNat 32 (f * 4096) ||| pagePresent ||| (flags &&& pageFlags)) = f := by
      rw [frameOf_or (and_flags_frame _), frameOf_or (by decide), frameOf_ofNat (by omega)]
    obtain ⟨hstep, hmapping, hmono, hpriv⟩ := h.enter (by omega) hnew hused hnot hown hfl hget hl₁ hpe hfe
    cases num with
    -- the last page
    | zero =>
      cases he
      exact hstep
    | succ num =>
      unfold userPages at hn
      have hv : add32 (n * 4096) 0x1000 = (n + 1) * 4096 := by
        rw [add32_of_lt (by omega)]
        ring
      have hp : add32 (f * 4096) 0x1000 = (f + 1) * 4096 := by
        rw [add32_of_lt (by omega)]
        ring
      rw [hv, hp] at he
      refine ih hstep (by unfold userPages; omega) (by omega) (fun i hi => ?_) he hl
      obtain ⟨h0, h1, h2, h3⟩ := hframes (i + 1) (by omega)
      have hnext : f + 1 + i = f + (i + 1) := by omega
      rw [hnext]
      refine ⟨h0, hmono _ h1, hpriv _ h1 h2, fun k hk => ?_⟩
      rw [hmapping, Function.update_apply]
      split_ifs
      · intro hh
        have := Option.some.inj hh
        omega
      · exact h3 k hk

/-- **A region** of `num` pages, when the frames for it are found. -/
theorem region_acts (h : UserOK m) {num : ℕ} (hn : n + num ≤ userPages) (hal : m.pmm.pmmAllocPages num = (r, pmm))
    (hr : r ≠ 0 ∨ num = 0) {flags : BitVec 32} (hfl : ¬ large flags)
    (he : (m.withPmm pmm).pagingMapPages (n * 4096) r flags num = some m') (hl : m'.tableLost = false) :
    Acts m m' := by
  have hmono : ∀ b, m.pmm.Used b → pmm.Used b := fun b hb => ((allocPages_ok h.zero hal).1.used b).2 (.inl ⟨hb, id⟩)
  have halloc : Acts m (m.withPmm pmm) := .alloc h hmono
  rcases Nat.eq_zero_or_pos num with rfl | hpos
  · cases he
    exact halloc
  obtain ⟨f, rfl, hend, hfresh⟩ := allocPages_fresh h hal (hr.resolve_right (by omega)) hpos
  exact mapPages_acts hfl num halloc hn hend hfresh he hl

/-- **The frames of a region** of `num` pages are found, and those of its page tables. -/
def RegionFrames (m : Machine) (n num : ℕ) : Prop :=
  num = 0 ∨ (m.pmm.pmmAllocPages num).1 ≠ 0 ∧
    (m.pmm.pmmAllocPages num).2.Grants (missing m (tablesAt (n * 4096) 0 num))

instance (m : Machine) (n num : ℕ) : Decidable (RegionFrames m n num) := inferInstanceAs (Decidable (_ ∨ _ ∧ _))

theorem RegionFrames.first {num : ℕ} (h : RegionFrames m n num) (hal : m.pmm.pmmAllocPages num = (r, pmm)) :
    r ≠ 0 ∨ num = 0 := by
  rcases h with h0 | ⟨hr, -⟩
  · exact .inr h0
  · rw [hal] at hr
    exact .inl hr

/-- No page table of the region goes without a frame. -/
theorem region_found (h : UserOK m) {num : ℕ} (hn : n < userPages) (hf : RegionFrames m n num)
    (hal : m.pmm.pmmAllocPages num = (r, pmm)) {flags : BitVec 32} (hfl : ¬ large flags)
    (he : (m.withPmm pmm).pagingMapPages (n * 4096) r flags num = some m') : m'.tableLost = m.tableLost := by
  rcases hf with rfl | ⟨-, hg⟩
  · cases he
    rfl
  rw [hal] at hg
  have hused : (m.withPmm pmm).pmm.Used (m.withPmm pmm).cr3 :=
    ((allocPages_ok h.zero hal).1.used m.cr3).2 (.inl ⟨h.space.cr3, id⟩)
  unfold userPages at hn
  exact mapPages_found (m := m.withPmm pmm) hfl hused (by omega) hg he

/-! ### The program -/

/-- A segment whose copy stays below the kernel. -/
def Elf32Phdr.Below (ph : Elf32Phdr) : Prop :=
  ph.pVaddr + ph.pMemsz ≤ 0xC0000000 ∧ ph.pVaddr + ph.pFilesz ≤ 0xC0000000

instance (ph : Elf32Phdr) : Decidable ph.Below := inferInstanceAs (Decidable (_ ∧ _))

theorem loadSegment_acts (h : UserOK m) (hb : ph.Below)
    (hframes : (m.pmm.pmmAllocPages ph.pages).1 ≠ 0 ∨ ph.pages = 0)
    (he : x.loadSegment m ph = some m') (hl : m'.tableLost = false) : Acts m m' := by
  obtain ⟨hmem, hfile⟩ := hb
  have hpages := pages_eq hmem
  obtain ⟨⟨r, pmm⟩, hal⟩ : ∃ p, m.pmm.pmmAllocPages ph.pages = p := ⟨_, rfl⟩
  rw [hal] at hframes
  rw [loadSegment_eq hal] at he
  obtain ⟨m₁, hmap, he⟩ := Option.bind_eq_some_iff.1 he
  obtain ⟨m₂, hw, he⟩ := Option.bind_eq_some_iff.1 he
  have hl₂ : m₂.tableLost = false := by
    split_ifs at he
    · rw [← writeBytes_lost _ he]
      exact hl
    · rw [Option.some.inj he]
      exact hl
  have hl₁ : m₁.tableLost = false := by
    rw [← writeBytes_lost _ hw]
    exact hl₂
  have hregion := region_acts h (by unfold userPages; omega) hal hframes (by decide) hmap hl₁
  have hcopy : Acts m₁ m₂ := .writes _ hregion.user (by rw [bytes_length]; exact hfile) hw
  refine (hregion.trans hcopy).trans ?_
  split_ifs at he with hbss
  · rw [add32_of_lt (by omega)] at he
    refine .writes _ hcopy.user ?_ he
    rw [List.length_replicate]
    omega
  · rw [Option.some.inj he] at hcopy ⊢
    exact .refl hcopy.user

theorem loadLoop_acts (k : ℕ) : ∀ {m : Machine} {i : ℕ} {ok : Bool}, UserOK m → x.FramesFound m i k →
    (∀ j < i + k, x.Loads j → (x.phdr j).Below) → x.loadLoop m i k = some (ok, m') → Acts m m' := by
  induction k with
  | zero =>
    intro m i ok h _ _ he
    cases he
    exact .refl h
  | succ k ih =>
    intro m i ok h hf hb he
    have hcount : i + (k + 1) = i + 1 + k := by omega
    rw [hcount] at hb
    obtain ⟨hframes, hnext⟩ := hf
    rcases loadLoop_cases he with ⟨hl, hn, he⟩ | ⟨-, rfl⟩ | ⟨hl, -, m₁, hload, hn, he⟩
    · -- a header of another type
      exact ih h (hnext m hn).2 hb he
    · exact .refl h
    obtain ⟨hlost, hf₁⟩ := hnext m₁ hn
    have hstep := loadSegment_acts h (hb i (by omega) hl) (hframes hl) hload hlost
    exact hstep.trans (ih hstep.user hf₁ hb he)

/-- `loadFlat`, with the allocator's answer. -/
theorem loadFlat_eq (hal : m.pmm.pmmAllocPages (divideUp x.size 0x1000) = (r, pmm)) : x.loadFlat m =
    ((m.withPmm pmm).pagingMapPages (1 * 4096) r (pageUser ||| pageRw) (divideUp x.size 0x1000)).bind fun m =>
      (m.writeBytes 0x1000 (x.bytes 0 x.size)).bind fun m =>
        m.writeBytes (add32 0x1000 x.size) (List.replicate (divideUp x.size 0x1000 * 0x1000 - x.size) 0) := by
  refine (congrFun (congrFun (?unfolded : @Binary.loadFlat = ?body) x) m).trans ?_
  case unfolded =>
    delta Binary.loadFlat
    exact rfl
  extract_lets num
  have hnum : m.pmm.pmmAllocPages num = (r, pmm) := hal
  rewrite [hnum]
  rfl

/-- The frames of the program and of its page tables are found. -/
def Binary.LoadFrames (x : Binary) (m : Machine) : Prop :=
  if x.elfIsValid then x.FramesFound m 0 x.ePhnum else RegionFrames m 1 (divideUp x.size 0x1000)

/-- The program stays below the kernel. -/
def Binary.Below (x : Binary) : Prop :=
  if x.elfIsValid then ∀ i < x.ePhnum, x.Loads i → (x.phdr i).Below else 0x1000 + x.size ≤ 0xC0000000

theorem loadLoop_found (k : ℕ) : ∀ {m : Machine} {i : ℕ} {ok : Bool}, m.tableLost = false → x.FramesFound m i k →
    x.loadLoop m i k = some (ok, m') → m'.tableLost = false := by
  induction k with
  | zero =>
    intro m i ok hl _ he
    cases he
    exact hl
  | succ k ih =>
    intro m i ok hl hf he
    obtain ⟨-, hnext⟩ := hf
    rcases loadLoop_cases he with ⟨-, hn, he⟩ | ⟨-, rfl⟩ | ⟨-, -, m₁, -, hn, he⟩
    · exact ih hl (hnext m hn).2 he
    · exact hl
    · exact ih (hnext m₁ hn).1 (hnext m₁ hn).2 he

/-- No page table of the program goes without a frame. -/
theorem load_found {ok : Bool} (h : UserOK m) (hf : x.LoadFrames m) (he : x.load m = some (ok, m'))
    (hl : m.tableLost = false) : m'.tableLost = false := by
  unfold Binary.load at he
  unfold Binary.LoadFrames at hf
  by_cases hvalid : x.elfIsValid
  · rw [if_pos hvalid] at he hf
    unfold elfLoad at he
    rw [if_neg (not_not.2 hvalid)] at he
    split_ifs at he
    · cases he
      exact hl
    · exact loadLoop_found x.ePhnum hl hf he
  rw [if_neg hvalid] at he hf
  obtain ⟨m₃, hflat, hm⟩ := Option.map_eq_some_iff.1 he
  obtain ⟨rfl, rfl⟩ := Prod.mk.inj hm
  obtain ⟨⟨r, pmm⟩, hal⟩ : ∃ p, m.pmm.pmmAllocPages (divideUp x.size 0x1000) = p := ⟨_, rfl⟩
  rw [loadFlat_eq hal] at hflat
  obtain ⟨m₁, hmap, hflat⟩ := Option.bind_eq_some_iff.1 hflat
  obtain ⟨m₂, hw, hbss⟩ := Option.bind_eq_some_iff.1 hflat
  rw [writeBytes_lost _ hbss, writeBytes_lost _ hw, region_found h (by decide) hf hal (by decide) hmap]
  exact hl

/-- **The program**, whether or not it is valid. -/
theorem load_acts {ok : Bool} (h : UserOK m) (hb : x.Below) (hf : x.LoadFrames m) (he : x.load m = some (ok, m'))
    (hl : m'.tableLost = false) : Acts m m' := by
  unfold Binary.load at he
  unfold Binary.Below at hb
  unfold Binary.LoadFrames at hf
  by_cases hvalid : x.elfIsValid
  · rw [if_pos hvalid] at he hb hf
    unfold elfLoad at he
    rw [if_neg (not_not.2 hvalid)] at he
    split_ifs at he
    · cases he
      exact .refl h
    · exact loadLoop_acts x.ePhnum h hf (by rwa [Nat.zero_add]) he
  rw [if_neg hvalid] at he hb hf
  obtain ⟨m₃, hflat, hm⟩ := Option.map_eq_some_iff.1 he
  obtain ⟨rfl, rfl⟩ := Prod.mk.inj hm
  obtain ⟨⟨r, pmm⟩, hal⟩ : ∃ p, m.pmm.pmmAllocPages (divideUp x.size 0x1000) = p := ⟨_, rfl⟩
  rw [loadFlat_eq hal] at hflat
  have hnum : divideUp x.size 0x1000 = (x.size + 0xFFF) / 0x1000 := by
    rw [divideUp_eq (by decide)]
    rfl
  obtain ⟨m₁, hmap, hflat⟩ := Option.bind_eq_some_iff.1 hflat
  obtain ⟨m₂, hw, hbss⟩ := Option.bind_eq_some_iff.1 hflat
  have hl₂ : m₂.tableLost = false := by
    rw [← writeBytes_lost _ hbss]
    exact hl
  have hl₁ : m₁.tableLost = false := by
    rw [← writeBytes_lost _ hw]
    exact hl₂
  have hregion := region_acts h (by unfold userPages; omega) hal (hf.first hal) (by decide) hmap hl₁
  have hcopy : Acts m₁ m₂ := .writes _ hregion.user (by rw [bytes_length]; omega) hw
  refine (hregion.trans hcopy).trans (.writes _ hcopy.user ?_ hbss)
  rw [add32_of_lt (by omega), List.length_replicate]
  omega

/-! ### The stack -/

theorem writeAll_lost (ws : List (ℕ × UInt8)) : ∀ {m : Machine}, m.writeAll ws = some m' →
    m'.tableLost = m.tableLost := by
  induction ws with
  | nil =>
    intro m he
    cases he
    rfl
  | cons w ws ih =>
    intro m he
    unfold writeAll at he
    rw [List.foldlM_cons] at he
    obtain ⟨m₁, hb, hrest⟩ := Option.bind_eq_some_iff.1 he
    have hone : m.writeBytes w.1 [w.2] = some m₁ := by
      unfold writeBytes
      rw [hb]
      rfl
    rw [ih hrest, writeBytes_lost _ hone]

theorem writeAll_acts (ws : List (ℕ × UInt8)) : ∀ {m : Machine}, UserOK m → (∀ w ∈ ws, w.1 < 0xC0000000) →
    m.writeAll ws = some m' → Acts m m' := by
  induction ws with
  | nil =>
    intro m h _ he
    cases he
    exact .refl h
  | cons w ws ih =>
    intro m h hw he
    unfold writeAll at he
    rw [List.foldlM_cons] at he
    obtain ⟨m₁, hb, hrest⟩ := Option.bind_eq_some_iff.1 he
    have hfirst := Acts.write h (hw w List.mem_cons_self) hb
    exact hfirst.trans (ih hfirst.user (fun w' hw' => hw w' (List.mem_cons_of_mem _ hw')) hrest)

/-- No page table of the stack goes without a frame. -/
theorem stack_found (h : UserOK m) (hf : RegionFrames m 0xBFFFC procStackPages) (hstack : m.mapStack = some m₁)
    (hargs : m₁.setupStack texts = some m') : m'.tableLost = m.tableLost := by
  obtain ⟨⟨r, pmm⟩, hal⟩ : ∃ p, m.pmm.pmmAllocPages procStackPages = p := ⟨_, rfl⟩
  rw [mapStack_eq hal] at hstack
  rw [setupStack_eq] at hargs
  rw [writeAll_lost _ hargs, region_found h (by decide) hf hal (by decide) hstack]

/-- **The user stack**, when its frames are found and the arguments fit. -/
theorem stack_acts (h : UserOK m) (hframes : RegionFrames m 0xBFFFC procStackPages) (hstack : m.mapStack = some m₁)
    (hroom : stackRoom texts ≤ 0x4000) (hargs : m₁.setupStack texts = some m') (hl : m'.tableLost = false) :
    Acts m m' := by
  have hnum : 0xBFFFC + procStackPages ≤ userPages := Nat.le_of_ble_eq_true rfl
  obtain ⟨⟨r, pmm⟩, hal⟩ : ∃ p, m.pmm.pmmAllocPages procStackPages = p := ⟨_, rfl⟩
  rw [mapStack_eq hal] at hstack
  rw [setupStack_eq] at hargs
  have hinside : ∀ w ∈ byteRuns (stackBlocks texts), w.1 < 0xC0000000 :=
    fun w hw => (inStack_iff.1 (stack_inside.2 hroom w hw)).2
  have hl₁ : m₁.tableLost = false := by
    rw [← writeAll_lost _ hargs]
    exact hl
  have hregion := region_acts h hnum hal (hframes.first hal) (by decide) hstack hl₁
  exact hregion.trans (writeAll_acts _ hregion.user hinside hargs)

end Saynaa
