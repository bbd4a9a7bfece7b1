import Saynaa.Mem.Paging
import Saynaa.Proof.Pmm

/-!
# Page tables as a partial map

`mapping m` is the partial map from page numbers to frames that the tables of the
current directory describe. Directory entries of 4 MiB pages and the recursive entry
have no table in this sense (`HasTable`), so the map says nothing about their pages.

* `SpaceOK`: the directory and the tables sit in distinct frames, all marked as taken.
* `createTable_ok`, `store_ok`: what the two kinds of write do to it.
* `map_spec`: mapping a page. `unmap_table`, `unmap_absent`: unmapping one that has a table, and one that has none.
* `query_mapped`, `query_unmapped`: what `paging_virt_to_phys` says of a page.
-/

namespace Saynaa

open Lib Machine

variable {m : Machine}

/-! ### Entries -/

theorem frameOf_eq (e : BitVec 32) : frameOf e = e.toNat / 4096 := by
  have hf : ∀ i < 32, pageFrame.getLsbD i = decide (12 ≤ i) := by decide
  have h : (e &&& pageFrame) >>> 12 = e >>> 12 := by
    apply BitVec.eq_of_getLsbD_eq
    intro i hi
    simp only [BitVec.getLsbD_ushiftRight, BitVec.getLsbD_and]
    by_cases h : 12 + i < 32
    · simp [hf _ h]
    · simp [BitVec.getLsbD_of_ge e (12 + i) (by omega)]
  have := congrArg BitVec.toNat h
  simpa [frameOf, Nat.shiftRight_eq_div_pow] using this

theorem and_pageFrame_toNat (e : BitVec 32) : (e &&& pageFrame).toNat = frameOf e * 4096 := by
  have hf : (e &&& pageFrame) &&& pageFlags = 0 := by
    rw [BitVec.and_assoc, show pageFrame &&& pageFlags = 0 by decide]; simp
  have h := congrArg BitVec.toNat hf
  rw [BitVec.toNat_and, show pageFlags.toNat = 2 ^ 12 - 1 by decide, Nat.and_two_pow_sub_one_eq_mod] at h
  change _ = 0 at h
  unfold frameOf; omega

theorem frameOf_ofNat {b : ℕ} (hb : b < 2 ^ 20) : frameOf (BitVec.ofNat 32 (b * 4096)) = b := by
  rw [frameOf_eq, BitVec.toNat_ofNat]; omega

/-- Flags do not reach the frame number of an entry. -/
theorem frameOf_or {e f : BitVec 32} (hf : f &&& pageFrame = 0) : frameOf (e ||| f) = frameOf e := by
  unfold frameOf
  rw [BitVec.and_or_distrib_right, hf]; simp

theorem and_flags_frame (f : BitVec 32) : f &&& pageFlags &&& pageFrame = 0 := by
  rw [BitVec.and_assoc, show pageFlags &&& pageFrame = 0 by decide]; simp

theorem present_iff (e : BitVec 32) : present e ↔ e.getLsbD 0 = true := by
  have h := and_bitMask_eq_zero (x := e) (by decide : 0 < 32)
  rw [show bitMask 32 0 = pagePresent by decide] at h
  unfold present
  rw [← Bool.not_eq_false, ne_eq, ← h]; rfl

theorem large_iff (e : BitVec 32) : large e ↔ e.getLsbD 7 = true := by
  have h := and_bitMask_eq_zero (x := e) (by decide : 7 < 32)
  rw [show bitMask 32 7 = pageLarge by decide] at h
  unfold large
  rw [← Bool.not_eq_false, ne_eq, ← h]; rfl

theorem present_or (e f : BitVec 32) : present (e ||| pagePresent ||| f) := by
  rw [present_iff]
  simp only [BitVec.getLsbD_or, show pagePresent.getLsbD 0 = true by decide, Bool.or_true, Bool.true_or]

theorem not_present_zero : ¬ present 0 := by decide

/-! ### Tables -/

/-- Directory entry `i` has an ordinary page table. -/
def HasTable (m : Machine) (i : ℕ) : Prop :=
  i < 1023 ∧ present (m.dir i) ∧ ¬ large (m.dir i)

/-- Entry `j` of the table of directory entry `i`. -/
def Machine.entry (m : Machine) (i j : ℕ) : BitVec 32 := m.phys (m.tableFrame i) j

/-- The directory and its tables are in distinct frames, marked as taken, and every
table entry is present or zero. -/
structure SpaceOK (m : Machine) : Prop where
  cr3 : m.pmm.Used m.cr3
  cr3_ne : m.cr3 ≠ 0
  used : ∀ i, HasTable m i → m.pmm.Used (m.tableFrame i)
  ne_zero : ∀ i, HasTable m i → m.tableFrame i ≠ 0
  ne_cr3 : ∀ i, HasTable m i → m.tableFrame i ≠ m.cr3
  inj : ∀ i j, HasTable m i → HasTable m j → m.tableFrame i = m.tableFrame j → i = j
  entry : ∀ i, HasTable m i → ∀ j, present (m.entry i j) ∨ m.entry i j = 0

/-- Frame `f` holds neither the directory nor one of its tables. -/
def NotPaging (m : Machine) (f : ℕ) : Prop :=
  f ≠ m.cr3 ∧ ∀ i, HasTable m i → f ≠ m.tableFrame i

/-- **The partial map of an address space**: page number to frame. -/
def mapping (m : Machine) (n : ℕ) : Option ℕ :=
  if n / 1024 < 1023 ∧ present (m.dir (n / 1024)) ∧ ¬ large (m.dir (n / 1024)) ∧
      present (m.entry (n / 1024) (n % 1024)) then
    some (frameOf (m.entry (n / 1024) (n % 1024)))
  else none

theorem mapping_of_table {n : ℕ} (h : HasTable m (n / 1024)) :
    mapping m n = if present (m.entry (n / 1024) (n % 1024)) then
      some (frameOf (m.entry (n / 1024) (n % 1024))) else none := by
  obtain ⟨h1, h2, h3⟩ := h
  simp [mapping, h1, h2, h3]

theorem mapping_of_not_table {n : ℕ} (h : ¬ HasTable m (n / 1024)) : mapping m n = none := by
  unfold mapping
  rw [if_neg]
  rintro ⟨h1, h2, h3, -⟩
  exact h ⟨h1, h2, h3⟩

theorem tableFrame_congr {m m' : Machine} {i : ℕ} (h : m'.dir i = m.dir i) :
    m'.tableFrame i = m.tableFrame i := congrArg frameOf h

/-- Two machines with the same directory and the same table entries have one map. -/
theorem mapping_congr {m m' : Machine} {n : ℕ} (hd : m'.dir (n / 1024) = m.dir (n / 1024))
    (he : HasTable m (n / 1024) → m'.entry (n / 1024) (n % 1024) = m.entry (n / 1024) (n % 1024)) :
    mapping m' n = mapping m n := by
  by_cases h : HasTable m (n / 1024)
  · have h' : HasTable m' (n / 1024) := by unfold HasTable at h ⊢; rwa [hd]
    rw [mapping_of_table h, mapping_of_table h', he h]
  · have h' : ¬ HasTable m' (n / 1024) := by unfold HasTable at h ⊢; rwa [hd]
    rw [mapping_of_not_table h, mapping_of_not_table h']

/-! ### Writes -/

@[simp] theorem withPmm_dir (p : Pmm) (i : ℕ) : (m.withPmm p).dir i = m.dir i := rfl
@[simp] theorem withPmm_entry (p : Pmm) (i j : ℕ) : (m.withPmm p).entry i j = m.entry i j := rfl
@[simp] theorem withPmm_tableFrame (p : Pmm) (i : ℕ) :
    (m.withPmm p).tableFrame i = m.tableFrame i := rfl
@[simp] theorem store_pmm (q : PagePtr) (e : BitVec 32) : (m.store q e).pmm = m.pmm := rfl
@[simp] theorem store_cr3 (q : PagePtr) (e : BitVec 32) : (m.store q e).cr3 = m.cr3 := rfl

theorem withPmm_mapping (p : Pmm) : mapping (m.withPmm p) = mapping m :=
  funext fun _ => mapping_congr rfl fun _ => rfl

/-- The allocator may change as long as the paging structures stay marked as taken. -/
theorem SpaceOK.withPmm (h : SpaceOK m) {p : Pmm} (hc : p.Used m.cr3)
    (ht : ∀ i, HasTable m i → p.Used (m.tableFrame i)) : SpaceOK (m.withPmm p) :=
  ⟨hc, h.cr3_ne, ht, h.ne_zero, h.ne_cr3, h.inj, h.entry⟩

theorem SpaceOK.withPmm_mono (h : SpaceOK m) {p : Pmm} (hp : ∀ b, m.pmm.Used b → p.Used b) :
    SpaceOK (m.withPmm p) :=
  h.withPmm (hp _ h.cr3) fun i hi => hp _ (h.used i hi)

section Store

variable {i j : ℕ} {e : BitVec 32}

theorem store_dir (h : SpaceOK m) (hi : HasTable m i) (k : ℕ) :
    (m.store ⟨m.tableFrame i, j⟩ e).dir k = m.dir k := by
  have := h.ne_cr3 i hi
  unfold Machine.dir Machine.store
  simp only
  rw [if_neg]
  rintro ⟨h1, -⟩; exact this h1.symm

theorem store_entry (h : SpaceOK m) (hi : HasTable m i) {k : ℕ} (hk : HasTable m k) (l : ℕ) :
    (m.store ⟨m.tableFrame i, j⟩ e).entry k l = if k = i ∧ l = j then e else m.entry k l := by
  have hd := store_dir (j := j) (e := e) h hi k
  have htf := tableFrame_congr hd
  unfold Machine.entry
  rw [htf]
  unfold Machine.store
  simp only
  have hiff : m.tableFrame k = m.tableFrame i ↔ k = i := ⟨h.inj k i hk hi, fun h => by rw [h]⟩
  simp only [hiff]

/-- **Writing a table entry** changes one page of the map. -/
theorem store_ok (h : SpaceOK m) (hi : HasTable m i) (hj : j < 1024) (he : present e ∨ e = 0) :
    SpaceOK (m.store ⟨m.tableFrame i, j⟩ e) ∧
      mapping (m.store ⟨m.tableFrame i, j⟩ e) =
        Function.update (mapping m) (i * 1024 + j) (if present e then some (frameOf e) else none) := by
  set m' := m.store ⟨m.tableFrame i, j⟩ e with hm'
  have hd : ∀ k, m'.dir k = m.dir k := store_dir h hi
  have htab : ∀ k, HasTable m' k ↔ HasTable m k := by intro k; unfold HasTable; rw [hd]
  have htf : ∀ k, m'.tableFrame k = m.tableFrame k := fun k => tableFrame_congr (hd k)
  refine ⟨⟨h.cr3, h.cr3_ne, ?_, ?_, ?_, ?_, ?_⟩, ?_⟩
  · intro k hk; rw [htf]; exact h.used k ((htab k).1 hk)
  · intro k hk; rw [htf]; exact h.ne_zero k ((htab k).1 hk)
  · intro k hk; rw [htf]; exact h.ne_cr3 k ((htab k).1 hk)
  · intro k l hk hl hkl
    rw [htf, htf] at hkl
    exact h.inj k l ((htab k).1 hk) ((htab l).1 hl) hkl
  · intro k hk l
    rw [hm', store_entry h hi ((htab k).1 hk)]
    split_ifs
    · exact he
    · exact h.entry k ((htab k).1 hk) l
  · funext n
    -- the entry that is written
    by_cases hn : n = i * 1024 + j
    · subst hn
      have h1 : (i * 1024 + j) / 1024 = i := by omega
      have h2 : (i * 1024 + j) % 1024 = j := by omega
      rw [Function.update_self, mapping_of_table (by rw [h1, htab]; exact hi), h1, h2, hm',
        store_entry h hi hi]
      simp only [and_self, if_true]
    · -- any other page
      rw [Function.update_of_ne hn]
      refine mapping_congr (hd _) fun hk => ?_
      rw [hm', store_entry h hi hk, if_neg]
      rintro ⟨h1, h2⟩; omega

end Store

/-- The directory entry of a new table in frame `t`. -/
theorem tableEntry_ok {t : ℕ} (ht : t < 2 ^ 20) {flags : BitVec 32} (hfl : ¬ large flags) :
    let de := BitVec.ofNat 32 (t * 4096) ||| pagePresent ||| pageRw ||| (flags &&& pageFlags)
    frameOf de = t ∧ present de ∧ ¬ large de := by
  intro de
  refine ⟨?_, ?_, ?_⟩
  · rw [frameOf_or (and_flags_frame _), frameOf_or (by decide), frameOf_or (by decide), frameOf_ofNat ht]
  · simp only [de, BitVec.or_assoc (_ ||| pagePresent)]
    exact present_or _ _
  · rw [large_iff] at hfl ⊢
    have h7 : (BitVec.ofNat 32 (t * 4096)).getLsbD 7 = false := by
      rw [BitVec.getLsbD_ofNat, Nat.testBit_eq_decide_div_mod_eq]
      simp; omega
    simp only [de, BitVec.getLsbD_or, BitVec.getLsbD_and, h7, show pagePresent.getLsbD 7 = false by decide,
      show pageRw.getLsbD 7 = false by decide, Bool.false_or]
    rw [Bool.not_eq_true] at hfl
    rw [hfl, Bool.false_and]; exact Bool.false_ne_true

/-- `m'` is `m` with an empty table in the fresh frame `t` added at directory entry `i`. -/
structure TableAdded (m m' : Machine) (i t : ℕ) : Prop where
  mono : ∀ b, m.pmm.Used b → m'.pmm.Used b
  used : m'.pmm.Used t
  fresh : ¬ m.pmm.Used t
  ne_zero : t ≠ 0
  cr3 : m'.cr3 = m.cr3
  lost : m'.tableLost = m.tableLost
  absent : ¬ present (m.dir i)
  dir : ∀ k, k ≠ i → m'.dir k = m.dir k
  has : HasTable m' i
  frame : m'.tableFrame i = t
  entry : ∀ k, HasTable m k → ∀ l, m'.entry k l = m.entry k l
  zero : ∀ l, m'.entry i l = 0

section TableAdded

variable {m' : Machine} {i t : ℕ}

theorem TableAdded.ne (ha : TableAdded m m' i t) {k : ℕ} (hk : HasTable m k) : k ≠ i :=
  fun h => ha.absent (h ▸ hk.2.1)

theorem TableAdded.old (ha : TableAdded m m' i t) {k : ℕ} (hk : HasTable m' k) (hki : k ≠ i) :
    HasTable m k := by
  unfold HasTable at hk ⊢; rwa [ha.dir k hki] at hk

theorem TableAdded.spaceOK (ha : TableAdded m m' i t) (h : SpaceOK m) : SpaceOK m' := by
  have htf : ∀ k, k ≠ i → m'.tableFrame k = m.tableFrame k := fun k hk => tableFrame_congr (ha.dir k hk)
  have htt : ∀ k, HasTable m k → m.tableFrame k ≠ t := fun k hk hh => ha.fresh (hh ▸ h.used k hk)
  refine ⟨by rw [ha.cr3]; exact ha.mono _ h.cr3, by rw [ha.cr3]; exact h.cr3_ne, ?_, ?_, ?_, ?_, ?_⟩
  · intro k hk
    by_cases hki : k = i
    · subst hki; rw [ha.frame]; exact ha.used
    · rw [htf k hki]; exact ha.mono _ (h.used k (ha.old hk hki))
  · intro k hk
    by_cases hki : k = i
    · subst hki; rw [ha.frame]; exact ha.ne_zero
    · rw [htf k hki]; exact h.ne_zero k (ha.old hk hki)
  · intro k hk
    rw [ha.cr3]
    by_cases hki : k = i
    · subst hki; rw [ha.frame]; exact fun hh => ha.fresh (hh ▸ h.cr3)
    · rw [htf k hki]; exact h.ne_cr3 k (ha.old hk hki)
  · intro k l hk hl hkl
    by_cases hki : k = i <;> by_cases hli : l = i
    · rw [hki, hli]
    · -- the new table is in a frame that no old one has
      subst hki; rw [ha.frame, htf l hli] at hkl
      exact absurd hkl.symm (htt l (ha.old hl hli))
    · subst hli; rw [ha.frame, htf k hki] at hkl
      exact absurd hkl (htt k (ha.old hk hki))
    · rw [htf k hki, htf l hli] at hkl
      exact h.inj k l (ha.old hk hki) (ha.old hl hli) hkl
  · intro k hk l
    by_cases hki : k = i
    · subst hki; exact .inr (ha.zero l)
    · rw [ha.entry k (ha.old hk hki)]; exact h.entry k (ha.old hk hki) l

theorem TableAdded.mapping (ha : TableAdded m m' i t) : mapping m' = mapping m := by
  funext n
  by_cases hki : n / 1024 = i
  · have hnot : ¬ HasTable m (n / 1024) := fun hh => ha.ne hh hki
    rw [mapping_of_not_table hnot, mapping_of_table (by rw [hki]; exact ha.has), hki, ha.zero,
      if_neg not_present_zero]
  · exact mapping_congr (ha.dir _ hki) fun hk => ha.entry _ hk _

end TableAdded

/-- **A new table**, when the allocator finds a frame for it. -/
theorem createTable_ok (h : SpaceOK m) {i : ℕ} (hi : i < 1023) (hn : ¬ present (m.dir i))
    {flags : BitVec 32} (hfl : ¬ large flags) {r : ℕ} {p : Pmm}
    (hal : m.pmm.pmmAllocPage = some (r, p)) (hr : r ≠ 0) :
    ∃ m', m.createTable i flags = some m' ∧ TableAdded m m' i (r / 4096) ∧ m'.pmm = p := by
  obtain ⟨t, rfl, ht0, htl, htf, hused⟩ := allocPage_frame hal hr
  have htc : t ≠ m.cr3 := fun hh => htf (hh ▸ h.cr3)
  obtain ⟨hdf, hdp, hdl⟩ := tableEntry_ok htl hfl
  set de : BitVec 32 := BitVec.ofNat 32 (t * 4096) ||| pagePresent ||| pageRw ||| (flags &&& pageFlags)
  set m₁ := (m.withPmm p).store ⟨m.cr3, i⟩ de with hm₁
  have htf₁ : m₁.tableFrame i = t := by
    rw [← hdf]; simp [hm₁, Machine.tableFrame, Machine.dir, Machine.store, Machine.withPmm]
  set m' := { m₁.zeroFrame t with tableLost := m₁.tableLost || decide (t * 4096 = 0) } with hm'
  have hd : ∀ k, m'.dir k = if k = i then de else m.dir k := by
    intro k
    show (if m.cr3 = t then 0 else if m.cr3 = m.cr3 ∧ k = i then de else m.phys m.cr3 k) = _
    rw [if_neg htc.symm]; simp [Machine.dir]
  have hti : m'.tableFrame i = t := by unfold Machine.tableFrame; rw [hd, if_pos rfl, hdf]
  have hdk : ∀ k, k ≠ i → m'.dir k = m.dir k := fun k hk => by rw [hd, if_neg hk]
  refine ⟨m', ?_, ?_, rfl⟩
  · simp only [createTable, hal, Option.bind_eq_bind, Option.bind_some]
    rw [show (m.withPmm p).store ⟨m.cr3, i⟩ de = m₁ from rfl, htf₁]
    rfl
  rw [Nat.mul_div_cancel _ (by decide)]
  refine ⟨fun b hb => (hused b).2 (.inl hb), (hused t).2 (.inr rfl), htf, ht0, rfl, ?_, hn, hdk, ?_, hti,
    ?_, ?_⟩
  · rw [hm', decide_eq_false hr, Bool.or_false]; rfl
  · exact ⟨hi, by rw [hd, if_pos rfl]; exact hdp, by rw [hd, if_pos rfl]; exact hdl⟩
  · intro k hk l
    have hki : k ≠ i := fun hh => hn (hh ▸ hk.2.1)
    unfold Machine.entry
    rw [tableFrame_congr (hdk k hki)]
    show (if m.tableFrame k = t then 0
      else if m.tableFrame k = m.cr3 ∧ l = i then de else m.phys (m.tableFrame k) l) = _
    rw [if_neg (fun hh : m.tableFrame k = t => htf (hh ▸ h.used k hk)),
      if_neg (fun hh => h.ne_cr3 k hk hh.1)]
  · intro l
    unfold Machine.entry
    rw [hti]
    exact if_pos rfl

/-! ### `paging_get_page` -/

section GetPage

variable {v : ℕ} {flags : BitVec 32}

theorem getPage_present {c : Bool} (hv : v % 0x1000 = 0) (hp : present (m.dir (dirIndex v))) :
    m.pagingGetPage v c flags = some (some ⟨m.tableFrame (dirIndex v), tableIndex v⟩, m) := by
  simp [pagingGetPage, hv, hp]

theorem getPage_absent (hv : v % 0x1000 = 0) (hp : ¬ present (m.dir (dirIndex v))) :
    m.pagingGetPage v false flags = some (none, m) := by
  simp [pagingGetPage, hv, hp]

theorem getPage_create (hv : v % 0x1000 = 0) (hp : ¬ present (m.dir (dirIndex v))) {m' : Machine}
    (hc : m.createTable (dirIndex v) flags = some m') (hp' : present (m'.dir (dirIndex v))) :
    m.pagingGetPage v true flags = some (some ⟨m'.tableFrame (dirIndex v), tableIndex v⟩, m') := by
  simp [pagingGetPage, hv, hp, hc, hp']

/-- **What `paging_get_page` can do**: leave all as it is, or create a table. -/
theorem getPage_cases {c : Bool} {q : Option PagePtr} {m' : Machine} (he : m.pagingGetPage v c flags = some (q, m')) :
    v % 0x1000 = 0 ∧
      (m' = m ∨ ¬ present (m.dir (dirIndex v)) ∧ c = true ∧ m.createTable (dirIndex v) flags = some m') ∧
      q = if present (m'.dir (dirIndex v)) then some ⟨m'.tableFrame (dirIndex v), tableIndex v⟩ else none := by
  have hfin : ∀ m₁ : Machine,
      (if present (m₁.dir (dirIndex v)) then
        some (some (PagePtr.mk (m₁.tableFrame (dirIndex v)) (tableIndex v)), m₁)
        else some (none, m₁)) = some (q, m') →
      m₁ = m' ∧ q = if present (m'.dir (dirIndex v)) then some ⟨m'.tableFrame (dirIndex v), tableIndex v⟩
        else none := by
    intro m₁ h
    split_ifs at h with h1 <;> cases h <;> simp [h1]
  simp only [pagingGetPage] at he
  split_ifs at he with hv hc
  · rw [Option.bind_eq_bind, Option.bind_eq_some_iff] at he
    obtain ⟨m₁, hm₁, he⟩ := he
    obtain ⟨rfl, hq⟩ := hfin m₁ he
    exact ⟨not_not.1 hv, .inr ⟨hc.1, hc.2, hm₁⟩, hq⟩
  · obtain ⟨rfl, hq⟩ := hfin m he
    exact ⟨not_not.1 hv, .inl rfl, hq⟩

theorem createTable_cases {i : ℕ} {m' : Machine} (he : m.createTable i flags = some m') :
    ∃ r p, m.pmm.pmmAllocPage = some (r, p) ∧ m'.pmm = p ∧ m'.cr3 = m.cr3 ∧
      m'.tableLost = (m.tableLost || decide (r = 0)) := by
  simp only [createTable, Option.bind_eq_bind, Option.bind_eq_some_iff] at he
  obtain ⟨⟨r, p⟩, hal, he⟩ := he
  cases he
  exact ⟨r, p, hal, rfl, rfl, rfl⟩

/-- The address is neither in the recursive window nor under a 4 MiB page. -/
def Ordinary (m : Machine) (v : ℕ) : Prop :=
  dirIndex v < 1023 ∧ (present (m.dir (dirIndex v)) → ¬ large (m.dir (dirIndex v)))

/-- The page table of `v` exists, or the allocator has a frame for it. -/
def HasRoom (m : Machine) (v : ℕ) : Prop :=
  present (m.dir (dirIndex v)) ∨ ∃ r p, m.pmm.pmmAllocPage = some (r, p) ∧ r ≠ 0

theorem Ordinary.hasTable (ho : Ordinary m v) (hp : present (m.dir (dirIndex v))) :
    HasTable m (dirIndex v) := ⟨ho.1, hp, ho.2 hp⟩

/-- What `paging_get_page` with `create` does, once it has a table for `v`: the map and
the private frames stay as they are. -/
structure PageReady (m m' : Machine) (v : ℕ) : Prop where
  space : SpaceOK m'
  table : HasTable m' (dirIndex v)
  mapping : mapping m' = mapping m
  mono : ∀ b, m.pmm.Used b → m'.pmm.Used b
  notPaging : ∀ f, m.pmm.Used f → NotPaging m f → NotPaging m' f
  ordinary : ∀ w, Ordinary m w → Ordinary m' w
  lost : m'.tableLost = m.tableLost

theorem PageReady.refl (h : SpaceOK m) (ht : HasTable m (dirIndex v)) : PageReady m m v :=
  ⟨h, ht, rfl, fun _ => id, fun _ _ => id, fun _ => id, rfl⟩

theorem TableAdded.pageReady {m' : Machine} {t : ℕ} (ha : TableAdded m m' (dirIndex v) t)
    (h : SpaceOK m) : PageReady m m' v := by
  refine ⟨ha.spaceOK h, ha.has, ha.mapping, ha.mono, ?_, ?_, ha.lost⟩
  · rintro f hu ⟨hc, ht⟩
    refine ⟨by rwa [ha.cr3], fun k hk => ?_⟩
    by_cases hki : k = dirIndex v
    · subst hki; rw [ha.frame]; exact fun hf => ha.fresh (hf ▸ hu)
    · rw [tableFrame_congr (ha.dir k hki)]; exact ht k (ha.old hk hki)
  · rintro w ⟨hw, hl⟩
    refine ⟨hw, ?_⟩
    by_cases hki : dirIndex w = dirIndex v
    · rw [hki]; exact fun _ => ha.has.2.2
    · rwa [ha.dir _ hki]

/-- **`paging_get_page` with `create`**, when there is room for a table. -/
theorem getPage_ok (h : SpaceOK m) (hv : v % 0x1000 = 0) (ho : Ordinary m v) (hfl : ¬ large flags)
    (hr : HasRoom m v) :
    ∃ m', m.pagingGetPage v true flags = some (some ⟨m'.tableFrame (dirIndex v), tableIndex v⟩, m') ∧
      PageReady m m' v := by
  by_cases hp : present (m.dir (dirIndex v))
  · exact ⟨m, getPage_present hv hp, .refl h (ho.hasTable hp)⟩
  · obtain ⟨r, p, hal, hne⟩ := hr.resolve_left hp
    obtain ⟨m', hc, ha, -⟩ := createTable_ok h ho.1 hp hfl hal hne
    exact ⟨m', getPage_create hv hp hc ha.has.2.1, ha.pageReady h⟩

/-- A `paging_get_page` that lost no table had room. -/
theorem hasRoom_of_getPage (hv : v % 0x1000 = 0) {q : Option PagePtr} {m' : Machine}
    (he : m.pagingGetPage v true flags = some (q, m')) (hl : m'.tableLost = false) : HasRoom m v := by
  by_cases hp : present (m.dir (dirIndex v))
  · exact .inl hp
  · cases hal : m.pmm.pmmAllocPage with
    | none => simp [pagingGetPage, hv, hp, createTable, hal] at he
    | some rp =>
      obtain ⟨r, p⟩ := rp
      refine .inr ⟨r, p, hal, fun hr => ?_⟩
      subst hr
      simp only [pagingGetPage, hv, hp, createTable, hal, Option.bind_eq_bind, Option.bind_some] at he
      simp at he
      split_ifs at he <;> obtain ⟨-, rfl⟩ := he <;> simp at hl

end GetPage

/-! ### The operations -/

theorem page_index (v : ℕ) : v / 4096 / 1024 = dirIndex v ∧ v / 4096 % 1024 = tableIndex v ∧
    dirIndex v * 1024 + tableIndex v = v / 4096 := by
  unfold dirIndex tableIndex; omega

theorem mapping_eq {v : ℕ} (ht : HasTable m (dirIndex v)) :
    mapping m (v / 4096) =
      if present (m.load ⟨m.tableFrame (dirIndex v), tableIndex v⟩) then
        some (frameOf (m.load ⟨m.tableFrame (dirIndex v), tableIndex v⟩)) else none := by
  obtain ⟨h1, h2, -⟩ := page_index v
  rw [mapping_of_table (by rwa [h1]), h1, h2]; rfl

theorem mapping_absent {v : ℕ} (hp : ¬ present (m.dir (dirIndex v))) : mapping m (v / 4096) = none := by
  apply mapping_of_not_table
  rw [(page_index v).1]
  exact fun h => hp h.2.1

/-- Writing the entry of `v` updates the map at its page. -/
theorem storeAt_ok (h : SpaceOK m) {v : ℕ} (ht : HasTable m (dirIndex v)) {e : BitVec 32}
    (he : present e ∨ e = 0) :
    SpaceOK (m.store ⟨m.tableFrame (dirIndex v), tableIndex v⟩ e) ∧
      mapping (m.store ⟨m.tableFrame (dirIndex v), tableIndex v⟩ e) =
        Function.update (mapping m) (v / 4096) (if present e then some (frameOf e) else none) := by
  rw [← (page_index v).2.2]
  exact store_ok h ht (Nat.mod_lt _ (by decide)) he

/-- **`paging_map_page`** of an unmapped page adds it to the map. -/
theorem map_spec (h : SpaceOK m) {v : ℕ} (hv : v % 0x1000 = 0) (ho : Ordinary m v)
    {phys flags : BitVec 32} (hfl : ¬ large flags) (hr : HasRoom m v)
    (hn : mapping m (v / 4096) = none) :
    ∃ m', m.pagingMapPage v phys flags = some m' ∧ SpaceOK m' ∧
      mapping m' = Function.update (mapping m) (v / 4096) (some (frameOf phys)) := by
  obtain ⟨m₁, hget, hready⟩ := getPage_ok h hv ho hfl hr
  have ht₁ := hready.table
  have hmap₁ := hready.mapping
  set e := phys ||| pagePresent ||| (flags &&& pageFlags) with he
  have hpe : present e := present_or _ _
  have hfe : frameOf e = frameOf phys := by
    rw [he, frameOf_or (and_flags_frame _), frameOf_or (by decide)]
  have hnp : ¬ present (m₁.load ⟨m₁.tableFrame (dirIndex v), tableIndex v⟩) := by
    intro hp
    rw [← hmap₁, mapping_eq ht₁, if_pos hp] at hn
    exact Option.some_ne_none _ hn
  obtain ⟨h2, hmap₂⟩ := storeAt_ok hready.space ht₁ (.inl hpe)
  refine ⟨_, ?_, h2, ?_⟩
  · simp only [pagingMapPage, hget, Option.bind_eq_bind, Option.bind_some, if_neg hnp]; rfl
  · rw [hmap₂, if_pos hpe, hfe, hmap₁]

theorem SpaceOK.free (h : SpaceOK m) {f : ℕ} (hf : NotPaging m f) :
    SpaceOK (m.withPmm (m.pmm.mmapUnset f)) :=
  h.withPmm ((used_mmapUnset f _).2 ⟨hf.1.symm, h.cr3⟩)
    fun i hi => (used_mmapUnset f _).2 ⟨(hf.2 i hi).symm, h.used i hi⟩

/-- **`paging_unmap_page`** where there is a page table frees the frame number that the
entry holds, whether or not the entry is present, and clears the entry. -/
theorem unmap_table (h : SpaceOK m) {v : ℕ} (hv : v % 0x1000 = 0) (ht : HasTable m (dirIndex v))
    {f : ℕ} (hf : frameOf (m.load ⟨m.tableFrame (dirIndex v), tableIndex v⟩) = f)
    (hp : NotPaging m f) :
    ∃ m', m.pagingUnmapPage v = some m' ∧ SpaceOK m' ∧ m'.pmm = m.pmm.mmapUnset f ∧
      mapping m' = Function.update (mapping m) (v / 4096) none ∧ m'.cr3 = m.cr3 ∧
      (∀ i, m'.dir i = m.dir i) := by
  set q : PagePtr := ⟨m.tableFrame (dirIndex v), tableIndex v⟩ with hq
  have hpmm : m.pmm.pmmFreePage (m.load q &&& pageFrame).toNat = m.pmm.mmapUnset f := by
    rw [and_pageFrame_toNat, hf]
    unfold Pmm.pmmFreePage pmmBlockSize
    rw [Nat.mul_div_cancel _ (by decide)]
  obtain ⟨h2, hmap⟩ := storeAt_ok (v := v) (h.free hp) ht (.inr rfl)
  refine ⟨_, ?_, h2, rfl, ?_, rfl, fun i => store_dir (h.free hp) ht i⟩
  · simp only [pagingUnmapPage, getPage_present hv ht.2.1, Option.bind_eq_bind, Option.bind_some]
    rw [hpmm]; rfl
  · rw [hmap, withPmm_mapping, if_neg not_present_zero]

/-- A mapped page has a page table, whose entry holds the frame. -/
theorem mapped_table {v f : ℕ} (hm : mapping m (v / 4096) = some f) :
    HasTable m (dirIndex v) ∧ present (m.load ⟨m.tableFrame (dirIndex v), tableIndex v⟩) ∧
      frameOf (m.load ⟨m.tableFrame (dirIndex v), tableIndex v⟩) = f := by
  have ht : HasTable m (dirIndex v) := by
    by_contra ht
    rw [mapping_of_not_table (by rwa [(page_index v).1])] at hm
    exact Option.some_ne_none _ hm.symm
  rw [mapping_eq ht] at hm
  split_ifs at hm with hpe
  exact ⟨ht, hpe, Option.some.inj hm⟩

/-- An unmapped page with a page table has a zero entry. -/
theorem unmapped_entry (h : SpaceOK m) {v : ℕ} (ht : HasTable m (dirIndex v))
    (hm : mapping m (v / 4096) = none) :
    m.load ⟨m.tableFrame (dirIndex v), tableIndex v⟩ = 0 := by
  rw [mapping_eq ht] at hm
  split_ifs at hm with hpe
  exact (h.entry _ ht (tableIndex v)).resolve_left hpe

/-- **`paging_unmap_page`** where there is no page table does nothing. -/
theorem unmap_absent {v : ℕ} (hv : v % 0x1000 = 0) (hp : ¬ present (m.dir (dirIndex v))) :
    m.pagingUnmapPage v = some m := by
  simp [pagingUnmapPage, getPage_absent hv hp]

theorem virtToPhys_table {v : ℕ} (ht : HasTable m (dirIndex v)) :
    m.pagingVirtToPhys v =
      some (frameOf (m.load ⟨m.tableFrame (dirIndex v), tableIndex v⟩) * 4096 + v % 4096) := by
  have hd : dirIndex (v / 4096 * 4096) = dirIndex v := by unfold dirIndex; omega
  have htx : tableIndex (v / 4096 * 4096) = tableIndex v := by unfold tableIndex; omega
  have hget : m.pagingGetPage (v / 4096 * 4096) false 0 = _ :=
    getPage_present (by omega) (by rw [hd]; exact ht.2.1)
  rw [hd, htx] at hget
  simp only [pagingVirtToPhys, hget, Option.bind_eq_bind, Option.bind_some]
  rw [and_pageFrame_toNat]; rfl

/-- **`paging_virt_to_phys`** of a mapped page. -/
theorem query_mapped {v f : ℕ} (hm : mapping m (v / 4096) = some f) :
    m.pagingVirtToPhys v = some (f * 4096 + v % 4096) := by
  obtain ⟨ht, -, hf⟩ := mapped_table hm
  rw [virtToPhys_table ht, hf]

/-- **`paging_virt_to_phys`** of an unmapped page: 0 when it has no page table, but the
page offset when it has one. -/
theorem query_unmapped (h : SpaceOK m) {v : ℕ} (ho : Ordinary m v) (hm : mapping m (v / 4096) = none) :
    m.pagingVirtToPhys v = some (if present (m.dir (dirIndex v)) then v % 4096 else 0) := by
  by_cases hp : present (m.dir (dirIndex v))
  · rw [virtToPhys_table (ho.hasTable hp), unmapped_entry h (ho.hasTable hp) hm, if_pos hp]
    simp [frameOf]
  · have hd : dirIndex (v / 4096 * 4096) = dirIndex v := by unfold dirIndex; omega
    have hget : m.pagingGetPage (v / 4096 * 4096) false 0 = _ := getPage_absent (by omega) (by rwa [hd])
    simp only [pagingVirtToPhys, hget, Option.bind_eq_bind, Option.bind_some, if_neg hp]
    rfl

/-! ### The processor's view -/

/-- A mapped page is where the processor finds it. -/
theorem walk_mapping {v f : ℕ} (hm : mapping m (v / 4096) = some f) :
    m.walk v = some (f, v % 4096) := by
  obtain ⟨ht, hpe, hf⟩ := mapped_table hm
  have hpe' : present (m.phys (frameOf (m.dir (dirIndex v))) (tableIndex v)) := hpe
  have hf' : frameOf (m.phys (frameOf (m.dir (dirIndex v))) (tableIndex v)) = f := hf
  simp [walk, ht.2.1, ht.2.2, hpe', hf']

/-- **The recursive window.** With the recursive entry in place, the address
`0xFFC00000 + (i << 12) + 4 * j` is word `j` of the table of directory entry `i`. -/
theorem walk_window {i j : ℕ} (hi : i < 1024) (hj : j < 1024) (hrec : m.tableFrame 1023 = m.cr3)
    (hp : present (m.dir 1023)) (hl : ¬ large (m.dir 1023)) (hpi : present (m.dir i)) :
    m.walk (0xFFC00000 + i * 4096 + 4 * j) = some (m.tableFrame i, 4 * j) := by
  have h1 : dirIndex (0xFFC00000 + i * 4096 + 4 * j) = 1023 := by unfold dirIndex; omega
  have h2 : tableIndex (0xFFC00000 + i * 4096 + 4 * j) = i := by unfold tableIndex; omega
  have h3 : (0xFFC00000 + i * 4096 + 4 * j) % 4096 = 4 * j := by omega
  have hrec' : frameOf (m.dir 1023) = m.cr3 := hrec
  have hpi' : present (m.phys m.cr3 i) := hpi
  simp only [walk, h1, h2, h3, hp, hl, hrec', hpi']
  rfl

end Saynaa
