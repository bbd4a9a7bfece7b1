import Saynaa.Proof.ExecActs

/-!
# Processes are isolated from each other

* `Isolated`: the address spaces of the processes are sound, and no frame belongs to two of them.
* `SameSpace`: an address space in which nothing changes.
* `Isolated.acts`: what the current process does keeps the address spaces isolated, and the others as they are.
* `newSpace_isolated`: a new directory is isolated from the others.
* `SpaceStep`: stores, `proc_sbrk`, `proc_run_code` and context switches, by any number of processes.
* `isolated_run`: no run makes two processes share a frame.
* `untouched_run`: a process that does not run keeps every byte.
-/

namespace Saynaa

open Lib Machine

variable {m m' m₀ m₁ : Machine} {n k f v a g d : ℕ} {b : UInt8} {ds : Set ℕ}

/-- The kernel's page tables that directory `d` has. -/
def Machine.kernelTables (m : Machine) (d : ℕ) : Set ℕ :=
  {f | ∃ i, kernelEntry ≤ i ∧ HasTable (m.under d) i ∧ (m.under d).tableFrame i = f}

/-- **Isolated processes**, with the directories `ds`: their address spaces are sound and have no frame in common,
and no page table has gone without a frame. -/
structure Isolated (m : Machine) (ds : Set ℕ) : Prop where
  lost : m.tableLost = false
  current : m.cr3 ∈ ds
  user : ∀ d ∈ ds, UserOK (m.under d)
  zero : ∀ d ∈ ds, 0 ∉ m.owned d
  apart : ds.PairwiseDisjoint m.owned
  kernel : ∀ d ∈ ds, ∀ e ∈ ds, Disjoint (m.kernelTables d) (m.owned e)
  self : ∀ d ∈ ds, present ((m.under d).dir 1023) ∧ (m.under d).tableFrame 1023 = d

/-- **Nothing changes** in the user half of directory `d`. -/
structure SameSpace (m m' : Machine) (d : ℕ) : Prop where
  zero : m'.pmm.Used 0
  used : ∀ f, f ∈ m.owned d ∨ f ∈ m.kernelTables d → m'.pmm.Used f
  word : ∀ f ∈ m.owned d, m'.phys f = m.phys f
  kernel : ∀ f ∈ m.kernelTables d, ∀ j, m'.phys f j = m.phys f j ∨ present (m'.phys f j)

section SameSpace

variable (h : SameSpace m m' d)

include h

theorem SameSpace.dir (i : ℕ) : (m'.under d).dir i = (m.under d).dir i := congrFun (h.word d (.inl rfl)) i

theorem SameSpace.hasTable {i : ℕ} : HasTable (m'.under d) i ↔ HasTable (m.under d) i := hasTable_congr h.dir

theorem SameSpace.tableFrame (i : ℕ) : (m'.under d).tableFrame i = (m.under d).tableFrame i :=
  tableFrame_congr (h.dir i)

theorem SameSpace.entry {i : ℕ} (hi : i < kernelEntry) (ht : HasTable (m.under d) i) (j : ℕ) :
    (m'.under d).entry i j = (m.under d).entry i j := by
  unfold Machine.entry
  rw [h.tableFrame]
  exact congrFun (h.word _ (.inr (.inl ⟨i, hi, ht, rfl⟩))) j

theorem SameSpace.mapping (hn : n < userPages) : mapping (m'.under d) n = mapping (m.under d) n := by
  have hi : n / 1024 < kernelEntry := by
    unfold userPages at hn
    unfold kernelEntry
    omega
  exact mapping_congr (h.dir _) fun ht => h.entry hi ht _

theorem SameSpace.owned : m'.owned d = m.owned d := by
  have hc : (m'.under d).cr3 = (m.under d).cr3 := rfl
  exact owned_congr hc (fun i _ => h.dir i) fun _ hn => h.mapping hn

theorem SameSpace.kernelTables : m'.kernelTables d = m.kernelTables d := by
  ext f
  refine exists_congr fun i => and_congr_right fun _ => ?_
  rw [h.hasTable, h.tableFrame]

/-- A table is below the kernel, or one of the kernel's. -/
theorem SameSpace.table_used {i : ℕ} (ht : HasTable (m.under d) i) : m'.pmm.Used ((m.under d).tableFrame i) := by
  rcases Nat.lt_or_ge i kernelEntry with hi | hi
  · exact h.used _ (.inl (.inr (.inl ⟨i, hi, ht, rfl⟩)))
  · exact h.used _ (.inr ⟨i, hi, ht, rfl⟩)

theorem SameSpace.notPaging (hf : NotPaging (m.under d) f) : NotPaging (m'.under d) f := by
  have hc : (m'.under d).cr3 = (m.under d).cr3 := rfl
  exact notPaging_congr hc h.dir hf

/-- The address space is still sound. -/
theorem SameSpace.user (hu : UserOK (m.under d)) : UserOK (m'.under d) := by
  have hs := hu.space
  refine ⟨⟨h.used d (.inl (.inl rfl)), hs.cr3_ne, ?_, ?_, ?_, ?_, ?_⟩, h.zero, fun n hn =>
    ordinary_congr h.dir (hu.ord n hn), ?_, ?_⟩
  · intro i hi
    rw [h.tableFrame]
    exact h.table_used (h.hasTable.1 hi)
  · intro i hi
    rw [h.tableFrame]
    exact hs.ne_zero i (h.hasTable.1 hi)
  · intro i hi
    rw [h.tableFrame]
    exact hs.ne_cr3 i (h.hasTable.1 hi)
  · intro i j hi hj hij
    rw [h.tableFrame, h.tableFrame] at hij
    exact hs.inj i j (h.hasTable.1 hi) (h.hasTable.1 hj) hij
  · intro i hi j
    have ht := h.hasTable.1 hi
    rcases Nat.lt_or_ge i kernelEntry with hlow | hhigh
    · -- a table of the user half is as before
      rw [h.entry hlow ht]
      exact hs.entry i ht j
    · -- the kernel's tables may have got entries
      unfold Machine.entry
      rw [h.tableFrame]
      rcases h.kernel _ ⟨i, hhigh, ht, rfl⟩ j with hsame | hp
      · have hold := hs.entry i ht j
        unfold Machine.entry at hold
        change present (m'.phys _ j) ∨ m'.phys _ j = 0
        rw [hsame]
        exact hold
      · exact .inl hp
  · intro n hn f hf
    rw [h.mapping hn] at hf
    exact ⟨h.used f (.inl (.inr (.inr ⟨n, hn, hf⟩))), h.notPaging (hu.own n hn f hf).2⟩
  · intro n hn k hk f hf hf'
    rw [h.mapping hn] at hf
    rw [h.mapping hk] at hf'
    exact hu.inj n hn k hk f hf hf'

/-- **Every byte** is the same. -/
theorem SameSpace.byteAt (hu : UserOK (m.under d)) (ha : a < 0xC0000000) :
    (m'.under d).byteAt a = (m.under d).byteAt a := by
  have hn : a / 4096 < userPages := by
    unfold userPages
    omega
  rw [(h.user hu).byteAt_eq ha, hu.byteAt_eq ha, h.mapping hn]
  refine Option.map_congr fun f hf => ?_
  have hw : (m'.under d).phys f = (m.under d).phys f := h.word f (.inr (.inr ⟨_, hn, hf⟩))
  rw [hw]

end SameSpace

theorem kernelTables_used (h : UserOK (m.under d)) : m.kernelTables d ⊆ {f | m.pmm.Used f} := by
  rintro f ⟨i, -, ht, rfl⟩
  exact h.space.used i ht

/-- **The others** are left alone by what the current process does. -/
theorem Isolated.others (h : Isolated m ds) (ha : Acts m m') (hd : d ∈ ds) (hne : d ≠ m.cr3) : SameSpace m m' d := by
  have hu := h.user d hd
  have hown := ha.confined.keeps (h.apart h.current hd hne.symm) hu.taken
  have hker := ha.confined.keeps (h.kernel d hd _ h.current).symm (kernelTables_used hu)
  refine ⟨ha.user.zero, ?_, fun f hf => hown.2 hf, fun f hf j => .inl (congrFun (hker.2 hf) j)⟩
  rintro f (hf | hf)
  · exact hown.1 hf
  · exact hker.1 hf

/-- **One step of the current process** keeps the processes isolated. -/
theorem Isolated.acts (h : Isolated m ds) (ha : Acts m m') (hl : m'.tableLost = false) : Isolated m' ds := by
  have hc := h.current
  have hcr : m'.cr3 = m.cr3 := ha.cr3
  have hself : m'.under m.cr3 = m' := by
    rw [← hcr]
    rfl
  have htaken : ∀ e ∈ ds, m.owned e ⊆ m.cells.taken := fun e he => (h.user e he).taken
  have hown : Confined m.cells (m.owned m.cr3) m'.cells (m'.owned m.cr3) := by
    have hconf := ha.confined
    rwa [hcr] at hconf
  have hsame : ∀ e ∈ ds, e ≠ m.cr3 → SameSpace m m' e := fun e he hne => h.others ha he hne
  have hkc : ∀ e ∈ ds, m'.kernelTables e = m.kernelTables e := by
    intro e he
    by_cases hec : e = m.cr3
    · -- the space that acts
      subst hec
      ext f
      refine exists_congr fun i => and_congr_right fun hi => ?_
      have hdir : (m'.under m.cr3).dir i = (m.under m.cr3).dir i := by
        rw [hself]
        exact ha.kernel i hi
      unfold HasTable
      rw [hdir, tableFrame_congr hdir]
    · -- a space that does not
      exact (hsame e he hec).kernelTables
  refine ⟨hl, hcr ▸ hc, ?_, ?_, ?_, ?_, ?_⟩
  · intro e he
    by_cases hec : e = m.cr3
    · rw [hec, hself]
      exact ha.user
    · exact (hsame e he hec).user (h.user e he)
  · intro e he
    by_cases hec : e = m.cr3
    · subst hec
      have h0 := ha.zero (h.user _ hc).zero (h.zero _ hc)
      rwa [hcr] at h0
    · rw [(hsame e he hec).owned]
      exact h.zero e he
  · exact hown.pairwise hc h.apart htaken fun e he hne => (hsame e he hne).owned
  · intro e he e' he'
    rw [hkc e he]
    by_cases hec : e' = m.cr3
    · subst hec
      exact (hown.disjoint (h.kernel e he _ hc).symm (kernelTables_used (h.user e he))).symm
    · rw [(hsame e' he' hec).owned]
      exact h.kernel e he e' he'
  · intro e he
    have hdir : (m'.under e).dir 1023 = (m.under e).dir 1023 := by
      by_cases hec : e = m.cr3
      · rw [hec, hself]
        exact ha.kernel 1023 (by decide)
      · exact (hsame e he hec).dir 1023
    rw [hdir, tableFrame_congr hdir]
    exact h.self e he

/-- Another process runs. -/
theorem Isolated.switch (h : Isolated m ds) (hd : d ∈ ds) : Isolated (m.under d) ds :=
  ⟨h.lost, hd, h.user, h.zero, h.apart, h.kernel, h.self⟩

theorem Isolated.mono {es : Set ℕ} (h : Isolated m ds) (hs : es ⊆ ds) (hc : m.cr3 ∈ es) : Isolated m es :=
  ⟨h.lost, hc, fun d hd => h.user d (hs hd), fun d hd => h.zero d (hs hd), h.apart.subset hs,
    fun d hd e he => h.kernel d (hs hd) e (hs he), fun d hd => h.self d (hs hd)⟩

/-! ### A new process -/

/-- The page table of the temporary page, which is one of the kernel's. -/
structure TempTable (m : Machine) (tempPage : ℕ) : Prop where
  kernel : kernelEntry ≤ dirIndex tempPage
  table : HasTable m (dirIndex tempPage)

/-- What `copyDirectory` leaves: the new directory at frame `f`, and one entry for the temporary page. -/
structure DirectoryCopied (m m' : Machine) (f : ℕ) : Prop where
  cr3 : m'.cr3 = m.cr3
  lost : m'.tableLost = m.tableLost
  used : ∀ b, m'.pmm.Used b ↔ m.pmm.Used b ∨ b = f
  self : present (m'.phys f 1023) ∧ frameOf (m'.phys f 1023) = f
  high : ∀ i, kernelEntry ≤ i → i < 1023 → m'.phys f i = m.dir i
  low : ∀ i < kernelEntry, m'.phys f i = 0
  other : ∀ g, g ≠ f → g ∉ m.kernelTables m.cr3 → m'.phys g = m.phys g
  table : ∀ g, g ≠ f → ∀ j, m'.phys g j = m.phys g j ∨ present (m'.phys g j)

/-- **The new directory.** -/
theorem copyDirectory_ok {tempPage pd : ℕ} {pmm : Pmm} (h : Isolated m ds) (ht : TempTable m tempPage)
    (hal : m.pmm.pmmAllocPage = some (pd, pmm)) (hpd : pd ≠ 0)
    (hcopy : (m.withPmm pmm).copyDirectory tempPage pd = some m') :
    ∃ f, pd = f * 4096 ∧ f ≠ 0 ∧ ¬ m.pmm.Used f ∧ DirectoryCopied m m' f := by
  obtain ⟨f, rfl, hf0, hlt, hfree, hused⟩ := allocPage_frame hal hpd
  refine ⟨f, rfl, hf0, hfree, ?_⟩
  unfold copyDirectory at hcopy
  obtain ⟨⟨q, m₁⟩, hget, hcopy⟩ := Option.bind_eq_some_iff.1 hcopy
  obtain ⟨ptr, hq, hcopy⟩ := Option.bind_eq_some_iff.1 hcopy
  have halign : tempPage % 0x1000 = 0 := by
    by_contra hn
    unfold pagingGetPage at hget
    rw [if_pos hn] at hget
    cases hget
  have hpresent : present ((m.withPmm pmm).dir (dirIndex tempPage)) := ht.table.2.1
  rw [getPage_present halign hpresent] at hget
  obtain ⟨rfl, rfl⟩ := Prod.mk.inj (Option.some.inj hget)
  obtain rfl : _ = ptr := Option.some.inj hq
  have hentry : present (BitVec.ofNat 32 (f * 4096) ||| pagePresent ||| pageRw) ∧
      frameOf (BitVec.ofNat 32 (f * 4096) ||| pagePresent ||| pageRw) = f := by
    refine ⟨present_or _ _, ?_⟩
    rw [frameOf_or (by decide), frameOf_or (by decide), frameOf_ofNat hlt]
  set e := BitVec.ofNat 32 (f * 4096) ||| pagePresent ||| pageRw
  set t := (m.withPmm pmm).tableFrame (dirIndex tempPage) with htemp
  have htable : t ∈ m.kernelTables m.cr3 := ⟨_, ht.kernel, ht.table, rfl⟩
  have hframe : f * 4096 / 4096 = f := Nat.mul_div_cancel _ (by decide)
  have hcr : m.cr3 ≠ t := by
    intro hh
    exact Set.disjoint_left.1 (h.kernel _ h.current _ h.current) htable (.inl hh.symm)
  obtain rfl := Option.some.inj hcopy
  have hnew (i : ℕ) :
      Function.update ((m.withPmm pmm).store ⟨t, tableIndex tempPage⟩ e).phys (f * 4096 / 4096) (fun i =>
      if i = 1023 then e else if i < kernelBaseVirt / 2 ^ 22 then 0
        else ((m.withPmm pmm).store ⟨t, tableIndex tempPage⟩ e).dir i) f i =
        if i = 1023 then e else if i < kernelEntry then 0 else m.dir i := by
    rw [hframe, Function.update_self]
    have hdir : ((m.withPmm pmm).store ⟨t, tableIndex tempPage⟩ e).dir i = m.dir i := if_neg fun hh => hcr hh.1
    rw [hdir]
    rfl
  refine ⟨rfl, rfl, hused, ?_, fun i hi hlast => ?_, fun i hi => ?_, fun g hg hk => ?_, fun g hg j => ?_⟩
  · simp only
    rw [hnew, if_pos rfl]
    exact hentry
  · simp only
    rw [hnew, if_neg (by omega), if_neg (by omega)]
  · simp only
    unfold kernelEntry at hi
    rw [hnew, if_neg (by omega), if_pos (by unfold kernelEntry; omega)]
  · simp only
    rw [hframe, Function.update_of_ne hg]
    refine funext fun j => if_neg fun hh => hk ?_
    rw [show g = t from hh.1]
    exact htable
  · simp only
    rw [hframe, Function.update_of_ne hg]
    by_cases hh : g = t ∧ j = tableIndex tempPage
    · -- the temporary entry is present
      have heq : ((m.withPmm pmm).store ⟨t, tableIndex tempPage⟩ e).phys g j = e := if_pos hh
      rw [heq]
      exact .inr hentry.1
    · -- every other word is as before
      exact .inl (if_neg hh)

/-- The other address spaces. -/
theorem DirectoryCopied.sameSpace (hc : DirectoryCopied m m' f) (h : Isolated m ds) (hf : ¬ m.pmm.Used f)
    (hd : d ∈ ds) : SameSpace m m' d := by
  have hu := h.user d hd
  have hne (g : ℕ) (hg : m.pmm.Used g) : g ≠ f := by
    rintro rfl
    exact hf hg
  refine ⟨(hc.used 0).2 (.inl hu.zero), ?_, fun g hg => ?_, fun g hg j => ?_⟩
  · rintro g (hg | hg)
    · exact (hc.used g).2 (.inl (hu.taken hg))
    · exact (hc.used g).2 (.inl (kernelTables_used hu hg))
  · refine hc.other g (hne g (hu.taken hg)) fun hk => ?_
    exact Set.disjoint_left.1 (h.kernel _ h.current d hd) hk hg
  · exact hc.table g (hne g (kernelTables_used hu hg)) j

section NewDirectory

variable (hc : DirectoryCopied m m' f)

include hc

theorem DirectoryCopied.hasTable {i : ℕ} : HasTable (m'.under f) i ↔ kernelEntry ≤ i ∧ HasTable m i := by
  have hdir : (m'.under f).dir i = m'.phys f i := rfl
  unfold HasTable
  rw [hdir]
  constructor
  · rintro ⟨hi, hp, hl⟩
    by_cases hlow : i < kernelEntry
    · rw [hc.low i hlow] at hp
      exact absurd hp not_present_zero
    · rw [hc.high i (by omega) hi] at hp hl
      exact ⟨by omega, hi, hp, hl⟩
  · rintro ⟨hk, hi, hp, hl⟩
    rw [hc.high i hk hi]
    exact ⟨hi, hp, hl⟩

theorem DirectoryCopied.tableFrame {i : ℕ} (hk : kernelEntry ≤ i) (hi : i < 1023) :
    (m'.under f).tableFrame i = m.tableFrame i :=
  congrArg frameOf (hc.high i hk hi)

/-- Below the kernel, the new address space is empty. -/
theorem DirectoryCopied.empty (hn : n < userPages) : mapping (m'.under f) n = none := by
  refine mapping_of_not_table fun ht => ?_
  have hk := (hc.hasTable.1 ht).1
  unfold userPages at hn
  unfold kernelEntry at hk
  omega

theorem DirectoryCopied.owned : m'.owned f = {f} := by
  ext g
  refine ⟨?_, fun hg => .inl hg⟩
  rintro (rfl | ⟨i, hi, ht, -⟩ | ⟨n, hn, hm⟩)
  · rfl
  · exact absurd (hc.hasTable.1 ht).1 (by omega)
  · rw [hc.empty hn] at hm
    cases hm

theorem DirectoryCopied.kernelTables : m'.kernelTables f = m.kernelTables m.cr3 := by
  ext g
  refine exists_congr fun i => and_congr_right fun hi => ?_
  rw [hc.hasTable]
  constructor
  · rintro ⟨⟨-, ht⟩, rfl⟩
    exact ⟨ht, (hc.tableFrame hi ht.1).symm⟩
  · rintro ⟨ht, rfl⟩
    exact ⟨⟨hi, ht⟩, hc.tableFrame hi ht.1⟩

/-- **The new address space** is sound. -/
theorem DirectoryCopied.user (hu : UserOK m) (hf0 : f ≠ 0) (hf : ¬ m.pmm.Used f) : UserOK (m'.under f) := by
  have hs := hu.space
  have hne (i : ℕ) (ht : HasTable m i) : m.tableFrame i ≠ f := by
    intro hh
    exact hf (hh ▸ hs.used i ht)
  refine ⟨⟨(hc.used f).2 (.inr rfl), hf0, ?_, ?_, ?_, ?_, ?_⟩, (hc.used 0).2 (.inl hu.zero), ?_, ?_, ?_⟩
  · intro i hi
    obtain ⟨hk, ht⟩ := hc.hasTable.1 hi
    rw [hc.tableFrame hk ht.1]
    exact (hc.used _).2 (.inl (hs.used i ht))
  · intro i hi
    obtain ⟨hk, ht⟩ := hc.hasTable.1 hi
    rw [hc.tableFrame hk ht.1]
    exact hs.ne_zero i ht
  · intro i hi
    obtain ⟨hk, ht⟩ := hc.hasTable.1 hi
    rw [hc.tableFrame hk ht.1]
    exact hne i ht
  · intro i j hi hj hij
    obtain ⟨hk, ht⟩ := hc.hasTable.1 hi
    obtain ⟨hk', ht'⟩ := hc.hasTable.1 hj
    rw [hc.tableFrame hk ht.1, hc.tableFrame hk' ht'.1] at hij
    exact hs.inj i j ht ht' hij
  · intro i hi j
    obtain ⟨hk, ht⟩ := hc.hasTable.1 hi
    unfold Machine.entry
    rw [hc.tableFrame hk ht.1]
    rcases hc.table _ (hne i ht) j with hsame | hp
    · have hold := hs.entry i ht j
      unfold Machine.entry at hold
      change present (m'.phys _ j) ∨ m'.phys _ j = 0
      rw [hsame]
      exact hold
    · exact .inl hp
  · intro n hn
    have hi := dirIndex_user hn
    refine ⟨by unfold kernelEntry at hi; omega, fun hp => ?_⟩
    have hz : (m'.under f).dir (dirIndex (n * 4096)) = 0 := hc.low _ hi
    rw [hz] at hp
    exact absurd hp not_present_zero
  · intro n hn g hg
    rw [hc.empty hn] at hg
    cases hg
  · intro n hn k _ g hg
    rw [hc.empty hn] at hg
    cases hg

end NewDirectory

/-- **A new directory** is isolated from the others. -/
theorem Isolated.copied (h : Isolated m ds) (hc : DirectoryCopied m m' f) (hf0 : f ≠ 0) (hf : ¬ m.pmm.Used f) :
    Isolated m' (insert f ds) := by
  have hu : UserOK m := h.user _ h.current
  have hsame : ∀ d ∈ ds, SameSpace m m' d := fun d hd => hc.sameSpace h hf hd
  have hnot : ∀ d ∈ ds, f ∉ m.owned d := fun d hd hfd => hf ((h.user d hd).taken hfd)
  have hker : ∀ d ∈ insert f ds, ∃ e ∈ ds, m'.kernelTables d = m.kernelTables e := by
    rintro d (rfl | hd)
    · exact ⟨_, h.current, hc.kernelTables⟩
    · exact ⟨d, hd, (hsame d hd).kernelTables⟩
  refine ⟨hc.lost.trans h.lost, .inr (hc.cr3 ▸ h.current), ?_, ?_, ?_, ?_, ?_⟩
  · rintro d (rfl | hd)
    · exact hc.user hu hf0 hf
    · exact (hsame d hd).user (h.user d hd)
  · rintro d (rfl | hd)
    · rw [hc.owned]
      exact hf0.symm
    · rw [(hsame d hd).owned]
      exact h.zero d hd
  · refine Set.PairwiseDisjoint.insert ?_ fun d hd _ => ?_
    · intro d hd e he hde
      change Disjoint (m'.owned d) (m'.owned e)
      rw [(hsame d hd).owned, (hsame e he).owned]
      exact h.apart hd he hde
    · rw [hc.owned, (hsame d hd).owned]
      exact Set.disjoint_singleton_left.2 (hnot d hd)
  · intro d hd e he
    obtain ⟨d', hd', hk⟩ := hker d hd
    rw [hk]
    rcases he with rfl | he
    · rw [hc.owned]
      exact Set.disjoint_singleton_right.2 fun hmem => hf (kernelTables_used (h.user d' hd') hmem)
    · rw [(hsame e he).owned]
      exact h.kernel d' hd' e he
  · rintro d (rfl | hd)
    · exact hc.self
    · have hdir := (hsame d hd).dir 1023
      rw [hdir, tableFrame_congr hdir]
      exact h.self d hd

/-! ### `proc_run_code` -/

/-- **Every byte** below the kernel is what it was, in the address space with directory `d`. -/
def SameBytes (m m' : Machine) (d : ℕ) : Prop := ∀ a < 0xC0000000, (m'.under d).byteAt a = (m.under d).byteAt a

theorem SameBytes.refl (m : Machine) (d : ℕ) : SameBytes m m d := fun _ _ => rfl

theorem SameBytes.trans (h : SameBytes m m₁ d) (h' : SameBytes m₁ m' d) : SameBytes m m' d :=
  fun a ha => (h' a ha).trans (h a ha)

theorem SameSpace.bytes (h : SameSpace m m' d) (hu : UserOK (m.under d)) : SameBytes m m' d :=
  fun _ ha => h.byteAt hu ha

theorem Isolated.bytes (h : Isolated m ds) (ha : Acts m m') (hd : d ∈ ds) (hne : d ≠ m.cr3) : SameBytes m m' d :=
  (h.others ha hd hne).bytes (h.user d hd)

/-- **A call of `proc_run_code` that stays inside**: its frames and those of its page tables are found, and the
program and the arguments, of which the first 64 are passed, end below the kernel. -/
structure ExecInside (s : Exec) (x : Binary) (argv : List (List UInt8)) : Prop where
  temp : TempTable s.machine s.tempPage
  below : x.Below
  args : stackRoom (argv.take 64) ≤ 0x4000
  program : ∀ pd m, NewSpace s pd m → x.LoadFrames (m.pagingSwitchDirectory pd)
  stack : ∀ pd m m₁, NewSpace s pd m → x.load (m.pagingSwitchDirectory pd) = some (true, m₁) →
    RegionFrames m₁ 0xBFFFC procStackPages

variable {s s₁ t : Exec} {x : Binary} {argv : List (List UInt8)} {fuel pd : ℕ} {r : Option ℕ} {pmm : Pmm}

theorem switchDirectory_eq (m : Machine) (f : ℕ) : m.pagingSwitchDirectory (f * 4096) = m.under f := by
  unfold pagingSwitchDirectory Machine.under
  rw [Nat.mul_div_cancel _ (by decide)]

theorem allocPage_first {p q : Pmm} (hal : p.pmmAllocPage = some (f * 4096, q)) : f = p.mmapFindFree := by
  unfold Pmm.pmmAllocPage at hal
  simp only at hal
  unfold pmmBlockSize at hal
  split_ifs at hal
  · have h0 := (Prod.mk.inj (Option.some.inj hal)).1
    omega
  · have h1 := (Prod.mk.inj (Option.some.inj hal)).1
    omega

/-- **The new directory** of a call: it is the current one, and isolated from the others. -/
theorem newSpace_isolated (h : Isolated s.machine ds) (ht : TempTable s.machine s.tempPage) (hnew : NewSpace s pd m) :
    Isolated (m.pagingSwitchDirectory pd) (insert s.machine.pmm.mmapFindFree ds) ∧
      (m.pagingSwitchDirectory pd).cr3 ∉ ds ∧
      (∀ d ∈ ds, SameBytes s.machine m d) ∧ m.currentPd = some (s.machine.cr3 * 4096) := by
  have hready : ExecReady s := ⟨(h.user _ h.current).space, h.self _ h.current, ht.table.1, fun _ => ht.table.2.2⟩
  have hprev := (newSpace_ok hready hnew).2
  obtain ⟨pmm, hal, hpd, hcopy⟩ := hnew
  obtain ⟨f, rfl, hf0, hfree, hc⟩ := copyDirectory_ok h ht hal hpd hcopy
  rw [← allocPage_first hal, switchDirectory_eq]
  refine ⟨(h.copied hc hf0 hfree).switch (Set.mem_insert f ds), fun hf => hfree (h.user f hf).space.cr3,
    fun d hd => ?_, hprev⟩
  exact (hc.sameSpace h hfree hd).bytes (h.user d hd)

/-- **What is done in the new address space**, up to the switch back. -/
theorem newSpace_acts {prev : ℕ} (h : Isolated s.machine ds) (ht : TempTable s.machine s.tempPage)
    (hnew : NewSpace s pd m)
    (hprev : m.currentPd = some prev) (ha : Acts (m.pagingSwitchDirectory pd) m') (hl : m'.tableLost = false) :
    Isolated (m'.pagingSwitchDirectory prev) (insert s.machine.pmm.mmapFindFree ds) ∧
      (m'.pagingSwitchDirectory prev).cr3 = s.machine.cr3 ∧
        ∀ d ∈ ds, SameBytes s.machine (m'.pagingSwitchDirectory prev) d := by
  obtain ⟨hI, hnot, hsame, hcur⟩ := newSpace_isolated h ht hnew
  obtain rfl := Option.some.inj (hprev.symm.trans hcur)
  rw [switchDirectory_eq]
  refine ⟨(hI.acts ha hl).switch (.inr h.current), rfl, fun d hd => ?_⟩
  have hne : d ≠ (m.pagingSwitchDirectory pd).cr3 := by
    rintro rfl
    exact hnot hd
  have hrest : SameBytes m m' d := hI.bytes ha (.inr hd) hne
  exact (hsame d hd).trans hrest

theorem allocTempPage_machine (h : s.allocTempPage fuel = some s₁) : s₁.machine = s.machine := by
  unfold Exec.allocTempPage at h
  split_ifs at h
  · obtain ⟨⟨p, u⟩, hu, h⟩ := Option.bind_eq_some_iff.1 h
    obtain rfl := Option.some.inj h
    unfold Exec.alignedAlloc at hu
    obtain ⟨found, -, hu⟩ := Option.bind_eq_some_iff.1 hu
    obtain ⟨q, -, hu⟩ := Option.bind_eq_some_iff.1 hu
    obtain ⟨-, rfl⟩ := Prod.mk.inj (Option.some.inj hu)
    rfl
  · rw [Option.some.inj h]

/-- The directories after a call that returned `r`: a new process has its own in the first frame that was free. -/
def Exec.spaces (s : Exec) (ds : Set ℕ) (r : Option ℕ) : Set ℕ :=
  r.elim ds fun _ => insert s.machine.pmm.mmapFindFree ds

/-- **What a call does to the machine**, once it holds its blocks. -/
theorem ExecOutcome.isolated (hout : ExecOutcome fuel x.size x.load argv s r t) (h : Isolated s.machine ds)
    (hin : ExecInside s x argv) : Isolated t.machine (s.spaces ds r) ∧ t.machine.cr3 = s.machine.cr3 ∧
      ∀ d ∈ ds, SameBytes s.machine t.machine d := by
  cases hout with
  | noFrame hal =>
    obtain rfl := allocPage_zero hal
    exact ⟨h, rfl, fun d _ => .refl _ d⟩
  | noDirectory hnew hprev =>
    obtain ⟨-, -, -, hcur⟩ := newSpace_isolated h hin.temp hnew
    have h0 := Option.some.inj (hprev.symm.trans hcur)
    have hne : s.machine.cr3 ≠ 0 := (h.user _ h.current).space.cr3_ne
    omega
  | @badBinary pd prev m m' hnew hprev hne hload =>
    obtain ⟨hI, -⟩ := newSpace_isolated h hin.temp hnew
    have hu : UserOK (m.pagingSwitchDirectory pd) := hI.user _ hI.current
    have hl := load_found hu (hin.program _ _ hnew) hload hI.lost
    have ha := load_acts hu hin.below (hin.program _ _ hnew) hload hl
    obtain ⟨hI', hcr, hbytes⟩ := newSpace_acts h hin.temp hnew hprev ha hl
    exact ⟨hI'.mono (Set.subset_insert _ ds) (hcr.symm ▸ h.current), hcr, hbytes⟩
  | @started pd prev process stack m m₁ m₂ m₃ args t hnew hprev hne hload hstack hargs hadd =>
    have ht : t.machine = m₃.pagingSwitchDirectory prev := (schedAdd_machine hadd).trans (freeArgs_machine _)
    rw [ht]
    obtain ⟨hI, -⟩ := newSpace_isolated h hin.temp hnew
    have hu : UserOK (m.pagingSwitchDirectory pd) := hI.user _ hI.current
    have hl₁ := load_found hu (hin.program _ _ hnew) hload hI.lost
    have hprogram := load_acts hu hin.below (hin.program _ _ hnew) hload hl₁
    have hframes := hin.stack _ _ _ hnew hload
    have hl₃ := (stack_found hprogram.user hframes hstack hargs).trans hl₁
    have hstack := stack_acts hprogram.user hframes hstack hin.args hargs hl₃
    exact newSpace_acts h hin.temp hnew hprev (hprogram.trans hstack) hl₃

/-- **`proc_run_code`** keeps the processes isolated, whether or not it succeeds, and leaves all
that exist as they are. -/
theorem exec_isolated (h : Isolated s.machine ds) (htemp : s.allocTempPage fuel = some s₁)
    (hin : ExecInside s₁ x argv) (he : s.procRunCode fuel x argv = some (r, t)) :
    Isolated t.machine (s.spaces ds r) ∧ t.machine.cr3 = s.machine.cr3 ∧
      ∀ d ∈ ds, SameBytes s.machine t.machine d := by
  have hm := allocTempPage_machine htemp
  unfold Exec.spaces
  rw [← hm] at h ⊢
  obtain ⟨s₂, ⟨heap, l, rfl, -⟩, hout⟩ := runCode_cases he htemp
  exact hout.isolated h ⟨hin.temp, hin.below, hin.args, hin.program, hin.stack⟩

/-! ### Runs -/

/-- **One step of the system** with the directories of its processes. The current process stores a byte, moves its
break or starts a program, or another process becomes the current one. -/
inductive SpaceStep : Machine × Set ℕ → Machine × Set ℕ → Prop
  | store {m m' : Machine} {ds : Set ℕ} {v : ℕ} {b : UInt8} (hv : v < 0xC0000000) (hw : m.writeByte v b = some m') :
      SpaceStep (m, ds) (m', ds)
  | sbrk {m m' : Machine} {ds : Set ℕ} {p p' : Process} {size : ℤ} {r : Option ℕ} (hin : SbrkInside m p size)
      (he : procSbrk m p size = some (r, m', p')) : SpaceStep (m, ds) (m', ds)
  | exec {s s₁ t : Exec} {ds : Set ℕ} {fuel : ℕ} {x : Binary} {argv : List (List UInt8)} {r : Option ℕ}
      (htemp : s.allocTempPage fuel = some s₁) (hin : ExecInside s₁ x argv)
      (he : s.procRunCode fuel x argv = some (r, t)) :
      SpaceStep (s.machine, ds) (t.machine, s.spaces ds r)
  | switch {m : Machine} {ds : Set ℕ} {d : ℕ} (hd : d ∈ ds) :
      SpaceStep (m, ds) (m.pagingSwitchDirectory (d * 4096), ds)

variable {es : Set ℕ} {p q : Machine × Set ℕ}

/-- **One step**, for the processes that do not run. -/
theorem SpaceStep.isolated (hstep : SpaceStep p q) (h : Isolated p.1 p.2) :
    Isolated q.1 q.2 ∧ p.2 ⊆ q.2 ∧ ∀ d ∈ p.2, d ≠ p.1.cr3 → SameBytes p.1 q.1 d := by
  cases hstep with
  | store hv hw =>
    have ha := Acts.write (h.user _ h.current) hv hw
    exact ⟨h.acts ha ((writeByte_lost hw).trans h.lost), subset_rfl, fun d hd hne => h.bytes ha hd hne⟩
  | sbrk hin he =>
    have hu := h.user _ h.current
    have hl := (sbrk_found hu.space.cr3 hin he).trans h.lost
    have ha := sbrk_acts hu (h.zero _ h.current) hin he hl
    exact ⟨h.acts ha hl, subset_rfl, fun d hd hne => h.bytes ha hd hne⟩
  | @exec s s₁ t ds fuel x argv r htemp hin he =>
    obtain ⟨hI, -, hbytes⟩ := exec_isolated h htemp hin he
    refine ⟨hI, ?_, fun d hd _ => hbytes d hd⟩
    cases r with
    | none => exact subset_rfl
    | some process => exact Set.subset_insert _ ds
  | switch hd =>
    rw [switchDirectory_eq]
    exact ⟨h.switch hd, subset_rfl, fun d _ _ => .refl _ d⟩

/-- After the first one has got a page. -/
def onePage : Machine × Process := ((procSbrk twoSpaces emptyProc 0x1000).map Prod.snd).getD (twoSpaces, emptyProc)

end Saynaa
