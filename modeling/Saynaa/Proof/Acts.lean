import Saynaa.Lib.Confined
import Saynaa.Proof.ElfImage
import Saynaa.Proof.SbrkRefused
import Saynaa.Proof.TableFrames

/-!
# What a process does to the machine

* `Machine.owned`: the frames of an address space.
* `Acts`: a change of the machine that is confined to the current address space, and keeps it sound.
* `Acts.write`, `Acts.enter`, `Acts.unmap`: the changes that everything else is made of.
* `sbrk_found`, `sbrk_acts`: the heap break.
-/

namespace Saynaa

open Lib Machine

/-! ### Frames of an address space -/

/-- The machine, with another directory. -/
def Machine.under (m : Machine) (d : ℕ) : Machine := { m with cr3 := d }

/-- Which frames are taken, and their words. -/
def Machine.cells (m : Machine) : Cells ℕ (ℕ → BitVec 32) := ⟨{f | m.pmm.Used f}, m.phys⟩

/-- The first directory entry of the kernel. -/
def kernelEntry : ℕ := 768

/-- **The frames of the address space** with directory `d`: the directory, the page tables below
the kernel, and the pages. -/
def Machine.owned (m : Machine) (d : ℕ) : Set ℕ :=
  {f | f = d ∨ (∃ i < kernelEntry, HasTable (m.under d) i ∧ (m.under d).tableFrame i = f) ∨
    ∃ n < userPages, mapping (m.under d) n = some f}

variable {m m' m₀ m₁ : Machine} {n k f v a g : ℕ} {b : UInt8} {w e : BitVec 32}

theorem mem_owned : f ∈ m.owned m.cr3 ↔
    f = m.cr3 ∨ (∃ i < kernelEntry, HasTable m i ∧ m.tableFrame i = f) ∨
      ∃ n < userPages, mapping m n = some f := Iff.rfl

/-- The address spaces have the same frames. -/
theorem owned_congr (hc : m'.cr3 = m.cr3) (hd : ∀ i < kernelEntry, m'.dir i = m.dir i)
    (hm : ∀ n < userPages, mapping m' n = mapping m n) : m'.owned m'.cr3 = m.owned m.cr3 := by
  ext f
  rw [mem_owned, mem_owned, hc]
  refine or_congr_right (or_congr (exists_congr fun i => ?_) (exists_congr fun n => ?_))
  · refine and_congr_right fun hi => ?_
    unfold HasTable
    rw [hd i hi, tableFrame_congr (hd i hi)]
  · exact and_congr_right fun hn => by rw [hm n hn]

theorem UserOK.taken (h : UserOK m) : m.owned m.cr3 ⊆ {f | m.pmm.Used f} := by
  intro f hf
  rcases mem_owned.1 hf with rfl | ⟨i, -, hi, rfl⟩ | ⟨n, hn, hm⟩
  · exact h.space.cr3
  · exact h.space.used i hi
  · exact (h.own n hn f hm).1

/-- A directory without page tables below the kernel. -/
theorem mapping_of_kernel (hd : ∀ i < kernelEntry, m.dir i = 0) (hn : n < userPages) : mapping m n = none := by
  refine mapping_of_not_table fun ht => ?_
  have hp := ht.2.1
  rw [hd _ (by unfold userPages at hn; unfold kernelEntry; omega)] at hp
  exact not_present_zero hp

theorem UserOK.of_kernel (hs : SpaceOK m) (h0 : m.pmm.Used 0) (hd : ∀ i < kernelEntry, m.dir i = 0) : UserOK m := by
  have hmap := fun n (hn : n < userPages) => mapping_of_kernel hd hn
  refine ⟨hs, h0, fun n hn => ?_, fun n hn f hf => ?_, fun n hn k _ f hf => ?_⟩
  · have hi : dirIndex (n * 4096) < kernelEntry := by
      unfold userPages at hn
      unfold dirIndex kernelEntry
      omega
    refine ⟨hi.trans (by decide), fun hp => ?_⟩
    rw [hd _ hi] at hp
    exact absurd hp not_present_zero
  · rw [hmap n hn] at hf
    cases hf
  · rw [hmap n hn] at hf
    cases hf

/-- Its address space is the directory. -/
theorem owned_of_kernel (hd : ∀ i < kernelEntry, m.dir i = 0) : m.owned m.cr3 = {m.cr3} := by
  ext f
  rw [mem_owned]
  refine ⟨?_, fun hf => .inl hf⟩
  rintro (rfl | ⟨i, hi, ht, -⟩ | ⟨n, hn, hm⟩)
  · rfl
  · have hp := ht.2.1
    rw [hd i hi] at hp
    exact absurd hp not_present_zero
  · rw [mapping_of_kernel hd hn] at hm
    cases hm

/-- **What a process does**: its address space stays sound, the change is confined to it, and the
kernel's page tables stay. -/
structure Acts (m m' : Machine) : Prop where
  cr3 : m'.cr3 = m.cr3
  user : UserOK m'
  confined : Confined m.cells (m.owned m.cr3) m'.cells (m'.owned m'.cr3)
  kernel : ∀ i, kernelEntry ≤ i → m'.dir i = m.dir i

theorem Acts.refl (h : UserOK m) : Acts m m := ⟨rfl, h, .refl _ _, fun _ _ => rfl⟩

theorem Acts.trans (h : Acts m m₁) (h' : Acts m₁ m') : Acts m m' :=
  ⟨h'.cr3.trans h.cr3, h'.user, h.confined.trans h'.confined, fun i hi => (h'.kernel i hi).trans (h.kernel i hi)⟩

/-! ### Bytes -/

theorem Acts.of_same (h : UserOK m) (hs : SamePages m m')
    (hw : ∀ g, m.pmm.Used g → g ∉ m.owned m.cr3 → m'.phys g = m.phys g) : Acts m m' := by
  have hown : m'.owned m'.cr3 = m.owned m.cr3 :=
    owned_congr hs.cr3 (fun i _ => hs.dir i) fun n _ => by rw [hs.mapping]
  refine ⟨hs.cr3, hs.user h, ⟨?_, ?_, fun g hg => hw g hg.1 hg.2⟩, fun i _ => hs.dir i⟩
  · intro g hg
    change m'.pmm.Used g
    rw [hs.pmm]
    exact hg.1
  · rw [hown]
    exact Set.subset_union_left

/-- A page that the processor finds is mapped. -/
theorem mapped_of_write (h : UserOK m) (hv : v < 0xC0000000) (hw : m.writeByte v b = some m') :
    mapping m (v / 4096) ≠ none := by
  intro hm
  have hnone := h.byteAt_eq hv
  rw [hm] at hnone
  unfold byteAt at hnone
  unfold writeByte at hw
  obtain ⟨p, hp, -⟩ := Option.bind_eq_some_iff.1 hw
  rw [hp] at hnone
  cases hnone

/-- **A byte** that is written below the kernel, if there is no page fault. -/
theorem Acts.write (h : UserOK m) (hv : v < 0xC0000000) (hw : m.writeByte v b = some m') : Acts m m' := by
  have hm := mapped_of_write h hv hw
  obtain ⟨m₂, hw₂, hsame, -⟩ := writeByte_ok h hv hm b
  obtain rfl := Option.some.inj (hw.symm.trans hw₂)
  refine .of_same h hsame fun g _ hg => funext fun j => ?_
  obtain ⟨f, hf⟩ := Option.ne_none_iff_exists'.1 hm
  refine writeByte_word hf hw (fun hgf => hg ?_) j
  have hn : v / 4096 < userPages := by
    unfold userPages
    omega
  exact mem_owned.2 (.inr (.inr ⟨_, hn, hgf ▸ hf⟩))

theorem Acts.writes (l : List UInt8) : ∀ {m : Machine} {v : ℕ}, UserOK m → v + l.length ≤ 0xC0000000 →
    m.writeBytes v l = some m' → Acts m m' := by
  induction l with
  | nil =>
    intro m v h _ hw
    cases hw
    exact .refl h
  | cons b l ih =>
    intro m v h hend hw
    rw [List.length_cons] at hend
    unfold writeBytes at hw
    obtain ⟨m₁, hb, hw⟩ := Option.bind_eq_some_iff.1 hw
    have hfirst := Acts.write h (by omega) hb
    rw [add32_of_lt (by omega)] at hw
    exact hfirst.trans (ih hfirst.user (by omega) hw)

/-! ### Pages -/

/-- Frames are taken. -/
theorem Acts.alloc (h : UserOK m) {p : Pmm} (hp : ∀ b, m.pmm.Used b → p.Used b) : Acts m (m.withPmm p) := by
  refine ⟨rfl, ⟨h.space.withPmm_mono hp, hp 0 h.zero, h.ord, ?_, h.inj⟩,
    ⟨fun g hg => hp g hg.1, ?_, fun _ _ => rfl⟩, fun _ _ => rfl⟩
  · exact fun n hn f hf => ⟨hp f (h.own n hn f hf).1, (h.own n hn f hf).2⟩
  · exact Set.subset_union_left

theorem PageReady.user (h : UserOK m) (hr : PageReady m m' v) : UserOK m' := by
  refine ⟨hr.space, hr.mono 0 h.zero, fun n hn => hr.ordinary _ (h.ord n hn), ?_, ?_⟩
  · intro n hn f hf
    rw [hr.mapping] at hf
    exact ⟨hr.mono f (h.own n hn f hf).1, hr.notPaging f (h.own n hn f hf).1 (h.own n hn f hf).2⟩
  · intro n hn k hk f hf hf'
    rw [hr.mapping] at hf hf'
    exact h.inj n hn k hk f hf hf'

theorem dirIndex_user (hn : n < userPages) : dirIndex (n * 4096) < kernelEntry := by
  unfold userPages at hn
  unfold dirIndex kernelEntry
  omega

/-- **A page table** is looked up for a user page, and made if there is none. -/
theorem Acts.getPage (h : UserOK m) (hn : n < userPages) {flags : BitVec 32} (hfl : ¬ large flags)
    {q : Option PagePtr} (he : m.pagingGetPage (n * 4096) true flags = some (q, m')) (hl : m'.tableLost = false) :
    Acts m m' ∧ q = some ⟨m'.tableFrame (dirIndex (n * 4096)), tableIndex (n * 4096)⟩ ∧
      PageReady m m' (n * 4096) := by
  have hv : n * 4096 % 0x1000 = 0 := by omega
  have hroom := hasRoom_of_getPage hv he hl
  obtain ⟨m₂, he₂, hready⟩ := getPage_ok h.space hv (h.ord n hn) hfl hroom
  obtain ⟨rfl, rfl⟩ := Prod.mk.inj (Option.some.inj (he.symm.trans he₂))
  refine ⟨?_, rfl, hready⟩
  by_cases hp : present (m.dir (dirIndex (n * 4096)))
  · rw [getPage_present hv hp] at he
    obtain ⟨-, rfl⟩ := Prod.mk.inj (Option.some.inj he)
    exact .refl h
  obtain ⟨r, p, hal, hr⟩ := hroom.resolve_left hp
  obtain ⟨m₃, hc, ha, -⟩ := createTable_ok h.space (h.ord n hn).1 hp hfl hal hr
  rw [getPage_create hv hp hc ha.has.2.1] at he
  obtain ⟨-, rfl⟩ := Prod.mk.inj (Option.some.inj he)
  -- only the directory and the new table have other words
  refine ⟨ha.cr3, hready.user h, ⟨fun g hg => ha.mono g hg.1, ?_, ?_⟩, ?_⟩
  · intro g hg
    rcases mem_owned.1 hg with rfl | ⟨i, hi, htab, rfl⟩ | ⟨k, hk, hmap⟩
    · rw [ha.cr3]
      exact .inl (.inl rfl)
    · by_cases hd : i = dirIndex (n * 4096)
      · subst hd
        rw [ha.frame]
        exact .inr ha.fresh
      · have hold := ha.old htab hd
        rw [tableFrame_congr (ha.dir i hd)]
        exact .inl (.inr (.inl ⟨i, hi, hold, rfl⟩))
    · rw [ha.mapping] at hmap
      exact .inl (.inr (.inr ⟨k, hk, hmap⟩))
  · intro g hg
    refine funext fun j => createTable_word hc hl hg.1 (fun hgc => hg.2 ?_) j
    exact .inl hgc
  · intro i hi
    have hlow := dirIndex_user hn
    exact ha.dir i (by omega)

/-- **A page** is entered into the page table of the current address space, with a frame that was free at `m₀`. -/
theorem Acts.enter (h : Acts m₀ m) (hn : n < userPages) (hnew : ¬ m₀.pmm.Used f) (hused : m.pmm.Used f)
    (hnot : NotPaging m f)
    (hown : ∀ k < userPages, mapping m k ≠ some f) {flags : BitVec 32} (hfl : ¬ large flags) {q : PagePtr}
    (hget : m.pagingGetPage (n * 4096) true flags = some (some q, m₁)) (hl : m₁.tableLost = false) (hpe : present e)
    (hfe : frameOf e = f) : Acts m₀ (m₁.store q e) ∧ mapping (m₁.store q e) = Function.update (mapping m) n (some f) ∧
      (∀ b, m.pmm.Used b → (m₁.store q e).pmm.Used b) ∧ ∀ g, m.pmm.Used g → NotPaging m g →
        NotPaging (m₁.store q e) g := by
  obtain ⟨hacts, hq, hready⟩ := Acts.getPage h.user hn hfl hget hl
  have hu₁ := hacts.user
  obtain rfl := Option.some.inj hq
  obtain ⟨hs, hmap⟩ := storeAt_ok hready.space hready.table (.inl hpe)
  have hpage : n * 4096 / 4096 = n := by omega
  rw [if_pos hpe, hfe, hpage, hready.mapping] at hmap
  set q : PagePtr := ⟨m₁.tableFrame (dirIndex (n * 4096)), tableIndex (n * 4096)⟩ with hq
  set m' := m₁.store q e
  have hdir : ∀ i, m'.dir i = m₁.dir i := store_dir hready.space hready.table
  have hcr : m'.cr3 = m₁.cr3 := rfl
  have hpriv : ∀ g, m.pmm.Used g → NotPaging m g → NotPaging m' g :=
    fun g hg hng => notPaging_congr hcr hdir (hready.notPaging g hg hng)
  have hself : mapping m' n = some f := by rw [hmap, Function.update_self]
  have hother : ∀ k, k ≠ n → mapping m' k = mapping m k := fun k hk => by rw [hmap, Function.update_of_ne hk]
  refine ⟨?_, hmap, hready.mono, hpriv⟩
  refine ⟨hcr.trans (hacts.cr3.trans h.cr3), ⟨hs, hready.mono 0 h.user.zero, ?_, ?_, ?_⟩, ?_, ?_⟩
  · exact fun k hk => ordinary_congr hdir (hready.ordinary _ (h.user.ord k hk))
  · intro k hk g hg
    by_cases hkn : k = n
    · -- the new page has the new frame
      subst hkn
      obtain rfl := Option.some.inj (hself.symm.trans hg)
      exact ⟨hready.mono _ hused, hpriv _ hused hnot⟩
    · rw [hother k hkn] at hg
      obtain ⟨hgu, hgn⟩ := h.user.own k hk g hg
      exact ⟨hready.mono g hgu, hpriv g hgu hgn⟩
  · -- two pages share no frame, as the new one was in none
    intro k hk l hl' g hg hg'
    by_cases hkn : k = n <;> by_cases hln : l = n
    · rw [hkn, hln]
    · subst hkn
      rw [hself] at hg
      rw [hother l hln, ← hg] at hg'
      exact absurd hg' (hown l hl')
    · subst hln
      rw [hself] at hg'
      rw [hother k hkn, ← hg'] at hg
      exact absurd hg (hown k hk)
    · rw [hother k hkn] at hg
      rw [hother l hln] at hg'
      exact h.user.inj k hk l hl' g hg hg'
  · have hconf := h.confined.trans hacts.confined
    refine ⟨hconf.kept, ?_, ?_⟩
    · intro g hg
      -- the frames of the space are its directory, its tables and those of its pages
      rcases mem_owned.1 hg with rfl | ⟨i, hi, htab, rfl⟩ | ⟨k, hk, hkm⟩
      · exact hconf.gained (.inl rfl)
      · rw [tableFrame_congr (hdir i)]
        exact hconf.gained (.inr (.inl ⟨i, hi, (hasTable_congr hdir).1 htab, rfl⟩))
      · by_cases hkn : k = n
        · subst hkn
          obtain rfl := Option.some.inj (hself.symm.trans hkm)
          exact .inr hnew
        · rw [hother k hkn, ← hready.mapping] at hkm
          exact hconf.gained (.inr (.inr ⟨k, hk, hkm⟩))
    · intro g hg
      rw [← hconf.same hg]
      refine funext fun j => if_neg fun hh => (hconf.others hg).2 ?_
      exact .inr (.inl ⟨_, dirIndex_user hn, hready.table, hh.1.symm⟩)
  · intro i hi
    rw [hdir, hacts.kernel i hi, h.kernel i hi]

/-- A frame that was free at the beginning is not frame 0. -/
theorem Acts.zero (h : Acts m m') (hz : m.pmm.Used 0) (h0 : 0 ∉ m.owned m.cr3) : 0 ∉ m'.owned m'.cr3 := by
  intro hmem
  rcases h.confined.gained hmem with hown | hfree
  · exact h0 hown
  · exact hfree hz

/-- **A mapped page** is given up, and its frame becomes free. -/
theorem Acts.unmap (h : UserOK m) (h0 : 0 ∉ m.owned m.cr3) (hn : n < userPages) (hm : mapping m n = some f)
    (he : m.pagingUnmapPage (n * 4096) = some m') : Acts m m' ∧ mapping m' = Function.update (mapping m) n none := by
  have hv : n * 4096 % 0x1000 = 0 := by omega
  have hpage : n * 4096 / 4096 = n := by omega
  obtain ⟨ht, -, hfr⟩ := mapped_table (v := n * 4096) (by rwa [hpage])
  have hfn := (h.own n hn f hm).2
  obtain ⟨m₂, he₂, hs, hpmm, hmap, hcr, hdir⟩ := unmap_table h.space hv ht hfr hfn
  obtain rfl := Option.some.inj (he.symm.trans he₂)
  rw [hpage] at hmap
  have hf0 : f ≠ 0 := by
    rintro rfl
    exact h0 (.inr (.inr ⟨n, hn, hm⟩))
  have hused (g : ℕ) : m'.pmm.Used g ↔ g ≠ f ∧ m.pmm.Used g := by
    rw [hpmm]
    exact used_mmapUnset f g
  have hword (g : ℕ) (hg : g ≠ m.tableFrame (dirIndex (n * 4096))) : m'.phys g = m.phys g := by
    unfold pagingUnmapPage at he
    rw [getPage_present hv ht.2.1, Option.bind_eq_bind, Option.bind_some] at he
    obtain rfl := Option.some.inj he
    exact funext fun j => if_neg fun hh => hg hh.1
  have hmapped (k g : ℕ) (hk : mapping m' k = some g) : k ≠ n ∧ mapping m k = some g := by
    rw [hmap] at hk
    by_cases hkn : k = n
    · -- the page itself is gone
      subst hkn
      rw [Function.update_self] at hk
      cases hk
    · rw [Function.update_of_ne hkn] at hk
      exact ⟨hkn, hk⟩
  refine ⟨⟨hcr, ⟨hs, (hused 0).2 ⟨hf0.symm, h.zero⟩, fun k hk => ordinary_congr hdir (h.ord k hk), ?_, ?_⟩,
    ⟨?_, ?_, ?_⟩, fun i _ => hdir i⟩, hmap⟩
  · intro k hk g hg
    obtain ⟨hkn, hkg⟩ := hmapped k g hg
    obtain ⟨hu, hnp⟩ := h.own k hk g hkg
    refine ⟨(hused g).2 ⟨?_, hu⟩, notPaging_congr hcr hdir hnp⟩
    rintro rfl
    exact hkn (h.inj k hk n hn g hkg hm)
  · intro k hk l hl g hg hg'
    exact h.inj k hk l hl g (hmapped k g hg).2 (hmapped l g hg').2
  · intro g hg
    refine (hused g).2 ⟨?_, hg.1⟩
    rintro rfl
    exact hg.2 (.inr (.inr ⟨n, hn, hm⟩))
  · intro g hg
    refine .inl ?_
    rcases mem_owned.1 hg with rfl | ⟨i, hi, htab, rfl⟩ | ⟨k, hk, hkm⟩
    · exact .inl hcr
    · exact .inr (.inl ⟨i, hi, (hasTable_congr hdir).1 htab, (tableFrame_congr (hdir i)).symm⟩)
    · exact .inr (.inr ⟨k, hk, (hmapped k g hkm).2⟩)
  · intro g hg
    refine hword g ?_
    rintro rfl
    exact hg.2 (.inr (.inl ⟨_, dirIndex_user hn, ht, rfl⟩))

/-! ### The heap break -/

theorem entryFlags {r : ℕ} (hr : r < 2 ^ 20) :
    present (BitVec.ofNat 32 (r * 4096) ||| pagePresent ||| pageRw ||| pageUser) ∧
    frameOf (BitVec.ofNat 32 (r * 4096) ||| pagePresent ||| pageRw ||| pageUser) = r := by
  refine ⟨?_, ?_⟩
  · rw [BitVec.or_assoc (_ ||| pagePresent)]
    exact present_or _ _
  · rw [frameOf_flags (by decide) (by decide) (by decide), frameOf_ofNat hr]

/-- **The loop of `paging_alloc_pages`**, on pages below the kernel. -/
theorem allocLoop_acts {n k : ℕ} : ∀ {i : ℕ} {m m' : Machine} {ok : Bool}, UserOK m → n + (i + k) ≤ userPages →
    m.pagingAllocLoop (n * 4096) i k = some (ok, m') → m'.tableLost = false → Acts m m' := by
  induction k with
  | zero =>
    intro i m m' ok h _ he _
    obtain ⟨-, rfl⟩ := Prod.mk.inj (Option.some.inj he)
    exact .refl h
  | succ k ih =>
    intro i m m' ok h hend he hl
    simp only [pagingAllocLoop, Option.bind_eq_bind, Option.bind_eq_some_iff] at he
    obtain ⟨⟨r, p⟩, hal, he⟩ := he
    split_ifs at he with hr
    · -- no frame is left
      obtain ⟨-, rfl⟩ := Prod.mk.inj (Option.some.inj he)
      obtain rfl : r = 0 := hr
      obtain rfl := allocPage_zero hal
      exact .refl h
    simp only [Option.bind_eq_some_iff] at he
    obtain ⟨⟨q, m₁⟩, hget, ptr, hq, he⟩ := he
    obtain ⟨f, rfl, hf0, hlt, hfree, hused⟩ := allocPage_frame hal hr
    have hpage : add32 (n * 4096) (i * 0x1000) = (n + i) * 4096 := by
      unfold userPages at hend
      rw [add32_of_lt (by omega)]
      ring
    obtain rfl : q = some ptr := hq
    rw [hpage] at hget
    have hl₁ : m₁.tableLost = false := allocLoop_lost (m := m₁.store ptr _) k he hl
    have halloc : Acts m (m.withPmm p) := .alloc h fun b hb => (hused b).2 (.inl hb)
    obtain ⟨hpe, hfe⟩ := entryFlags hlt
    -- the new frame is neither a page nor a paging structure
    have hnot : NotPaging m f := ⟨fun hc => hfree (hc ▸ h.space.cr3), fun j hj hc => hfree (hc ▸ h.space.used j hj)⟩
    have hown : ∀ j < userPages, mapping m j ≠ some f := fun j hj hc => hfree (h.own j hj f hc).1
    obtain ⟨hstep, -⟩ := halloc.enter (by omega) hfree ((hused f).2 (.inr rfl)) hnot hown (by decide) hget hl₁ hpe hfe
    exact hstep.trans (ih hstep.user (by omega) he hl)

/-- **The loop of `proc_sbrk`** that gives back mapped pages. -/
theorem unmapLoop_acts {v k : ℕ} (hv : v % 4096 = 0) (hlow : v / 4096 < userPages) :
    ∀ {i : ℕ} {m m' : Machine}, UserOK m → 0 ∉ m.owned m.cr3 →
    i + k ≤ v / 4096 + 1 → (∀ j < k, mapping m (v / 4096 - (i + j)) ≠ none) → m.unmapLoop v i k = some m' →
      Acts m m' := by
  induction k with
  | zero =>
    intro i m m' h _ _ _ he
    cases he
    exact .refl h
  | succ k ih =>
    intro i m m' h h0 hend hm he
    simp only [unmapLoop, Option.bind_eq_bind, Option.bind_eq_some_iff] at he
    obtain ⟨m₁, hun, he⟩ := he
    have hpage : sub32 v (0x1000 * i) = (v / 4096 - i) * 4096 := by
      unfold userPages at hlow
      rw [sub32_of_le (by omega) (by omega)]
      omega
    rw [hpage] at hun
    obtain ⟨f, hf⟩ := Option.ne_none_iff_exists'.1 (hm 0 (by omega))
    rw [Nat.add_zero] at hf
    obtain ⟨hstep, hmap⟩ := Acts.unmap h h0 (by omega) hf hun
    refine hstep.trans (ih hstep.user (hstep.zero h.zero h0) (by omega) (fun j hj => ?_) he)
    have hnext := hm (j + 1) (by omega)
    have hne : v / 4096 - (i + 1 + j) ≠ v / 4096 - i := by omega
    rw [hmap, Function.update_of_ne hne]
    rwa [Nat.add_comm j 1, ← Nat.add_assoc] at hnext

/-- The bytes that are left in the last page of the heap. -/
def Process.remaining (p : Process) : ℕ := if p.brk % 0x1000 ≠ 0 then 0x1000 - p.brk % 0x1000 else 0

/-- The pages that a shrink unmaps, from the page of the break downwards. -/
def Process.freedPages (p : Process) (size : ℤ) : ℕ :=
  if 0x1000 - (p.remaining : ℤ) + size < 0 then divideUp (ofInt (0x1000 - p.remaining - size)) 0x1000 else 0

/-- The pages that a growth asks for. -/
def Process.grownPages (p : Process) (size : ℤ) : ℕ :=
  if p.remaining < size then divideUp (ofInt (size - p.remaining)) 0x1000 else 0

/-- **A call that stays inside the user half**: the heap ends below the kernel, a growth has frames for its page
tables, and a shrink unmaps pages that are mapped. -/
structure SbrkInside (m : Machine) (p : Process) (size : ℤ) : Prop where
  below : p.brk < 0xC0000000
  grow : p.brk + size ≤ 0xC0000000
  frames : FramesFor m (p.brkPage * 0x1000) 0 (p.grownPages size)
  shrink : size < 0 → p.freedPages size ≤ p.brk / 4096 + 1 ∧ ∀ i < p.freedPages size,
    mapping m (p.brk / 4096 - i) ≠ none

/-- **What a call does to the machine**: nothing, or one of the two loops. -/
theorem sbrk_cases {p p' : Process} {size : ℤ} {r : Option ℕ} (hw : SbrkInside m p size)
    (he : procSbrk m p size = some (r, m', p')) : m' = m ∨
      (∃ ok, m.pagingAllocLoop (p.brkPage * 0x1000) 0 (p.grownPages size) = some (ok, m') ∧
        p.brkPage + p.grownPages size ≤ userPages) ∨
        (size < 0 ∧ m.unmapLoop (p.brk - p.brk % 0x1000) 0 (p.freedPages size) = some m') := by
  have hb := hw.below
  have hgrow := hw.grow
  have hend : (0x1000 + 0x1000 * p.codeLen + p.memLen) % 2 ^ 32 = p.brk := Nat.mod_eq_of_lt (by
    change p.brk < 2 ^ 32
    omega)
  have hrem : (if p.brk % 0x1000 ≠ 0 then 0x1000 - p.brk % 0x1000 else 0) = p.remaining := rfl
  have hR : p.brk + p.remaining = p.brkPage * 0x1000 := remaining_eq p
  simp only [procSbrk, hend, alignTo_brk (p := p) (by omega), hrem] at he
  rcases lt_trichotomy size 0 with hneg | rfl | hpos
  · -- a shrink, which may stay in the last page
    rw [if_neg (by omega), if_pos hneg] at he
    split_ifs at he with hlow htaken
    · cases he
      exact .inl rfl
    · have hfreed : p.freedPages size = divideUp (ofInt (0x1000 - p.remaining - size)) 0x1000 := if_pos htaken
      simp only [Option.bind_eq_bind, Option.bind_eq_some_iff] at he
      obtain ⟨m₁, hun, he⟩ := he
      rw [← hfreed] at hun
      cases he
      exact .inr (.inr ⟨hneg, hun⟩)
    · cases he
      exact .inl rfl
  · -- a request of nothing
    rw [if_neg (by decide), if_neg (by decide)] at he
    cases he
    exact .inl rfl
  · -- a growth, which may stay in the last page
    rw [if_pos hpos] at he
    split_ifs at he with hmore
    · have hgrown : p.grownPages size = divideUp (ofInt (size - p.remaining)) 0x1000 := if_pos hmore
      simp only [Option.bind_eq_bind, Option.bind_eq_some_iff] at he
      obtain ⟨⟨ok, m₁⟩, hal, he⟩ := he
      have hm : m₁ = m' := by
        split_ifs at he
        · cases he
          rfl
        · cases he
          rfl
      subst hm
      rw [← hgrown] at hal
      refine .inr (.inl ⟨ok, hal, ?_⟩)
      have hneed : ofInt (size - p.remaining) = (size - p.remaining).toNat := by
        unfold ofInt
        omega
      rw [hgrown, hneed, divideUp_eq (by decide)]
      unfold userPages
      omega
    · cases he
      exact .inl rfl

/-- The loop of a shrink makes no page table. -/
theorem unmapLoop_found {v k : ℕ} : ∀ {i : ℕ} {m m' : Machine}, m.unmapLoop v i k = some m' →
    m'.tableLost = m.tableLost := by
  induction k with
  | zero =>
    intro i m m' he
    cases he
    rfl
  | succ k ih =>
    intro i m m' he
    simp only [unmapLoop, Option.bind_eq_bind, Option.bind_eq_some_iff] at he
    obtain ⟨m₁, hun, he⟩ := he
    unfold pagingUnmapPage at hun
    obtain ⟨⟨q, m₂⟩, hget, hun⟩ := Option.bind_eq_some_iff.1 hun
    obtain ⟨-, rfl | ⟨-, hcreate, -⟩, -⟩ := getPage_cases hget
    · refine (ih he).trans ?_
      cases q with
      | none =>
        cases hun
        rfl
      | some ptr =>
        cases hun
        rfl
    · cases hcreate

/-- No page table goes without a frame. -/
theorem sbrk_found {p p' : Process} {size : ℤ} {r : Option ℕ} (hc : m.pmm.Used m.cr3) (hw : SbrkInside m p size)
    (he : procSbrk m p size = some (r, m', p')) : m'.tableLost = m.tableLost := by
  obtain rfl | ⟨ok, hal, -⟩ | ⟨-, hun⟩ := sbrk_cases hw he
  · rfl
  · exact allocLoop_found hc hw.frames hal
  · exact unmapLoop_found hun

/-- **`proc_sbrk`** acts in the current address space, whether it succeeds or not. -/
theorem sbrk_acts {p p' : Process} {size : ℤ} {r : Option ℕ} (h : UserOK m) (h0 : 0 ∉ m.owned m.cr3)
    (hw : SbrkInside m p size)
    (he : procSbrk m p size = some (r, m', p')) (hl : m'.tableLost = false) : Acts m m' := by
  have hb := hw.below
  obtain rfl | ⟨ok, hal, hnum⟩ | ⟨hneg, hun⟩ := sbrk_cases hw he
  · exact .refl h
  · exact allocLoop_acts h (by omega) hal hl
  · obtain ⟨hnum, hmapped⟩ := hw.shrink hneg
    have hstart : (p.brk - p.brk % 0x1000) / 4096 = p.brk / 4096 := by omega
    refine unmapLoop_acts (by omega) (by unfold userPages; omega) h h0 (by omega) (fun j hj => ?_) hun
    rw [hstart, Nat.zero_add]
    exact hmapped j hj

end Saynaa
