import Saynaa.Proof.Paging

/-!
# Frames for page tables

`paging_get_page` does not check that it got a frame for a new table. What follows is about calls for which it
does get one.

* `Pmm.Grants`: the allocator has so many frames to give.
* `missing`: the directory entries of a range that have no table yet.
* `PresentKept`: words of paging structures that are present stay as they are.
* `getPage_found`: the entry of a page, when there is a frame for each table that is missing.
* `mapPages_found`, `allocLoop_found`: then no page table goes without a frame.
-/

namespace Saynaa

open Machine

variable {m m' m₁ : Machine} {p : Pmm} {e flags : BitVec 32} {i k n v : ℕ} {s : Finset ℕ}

/-! ### Frames to give -/

/-- The next `n` calls of `pmm_alloc_page` find a frame. -/
def Pmm.Grants (p : Pmm) : ℕ → Prop
  | 0 => True
  | n + 1 => ∃ y ∈ p.pmmAllocPage, y.1 ≠ 0 ∧ Grants y.2 n

instance decGrants (p : Pmm) : (n : ℕ) → Decidable (p.Grants n)
  | 0 => .isTrue trivial
  | n + 1 =>
    have (y : ℕ × Pmm) := decGrants y.2 n
    inferInstanceAs (Decidable (∃ y ∈ _, _ ∧ _))

theorem Pmm.Grants.anti (h : p.Grants n) (hk : k ≤ n) : p.Grants k := by
  induction k generalizing p n with
  | zero => trivial
  | succ k ih =>
    cases n with
    | zero => omega
    | succ n =>
      obtain ⟨y, hal, hr, hq⟩ := h
      exact ⟨y, hal, hr, ih hq (by omega)⟩

/-- A call that found a frame leaves the others. -/
theorem Pmm.Grants.next (h : p.Grants (n + 1)) {r : ℕ} {q : Pmm} (hal : p.pmmAllocPage = some (r, q)) :
    r ≠ 0 ∧ q.Grants n := by
  obtain ⟨y, hal', hr, hq⟩ := h
  obtain rfl := Option.some.inj (hal.symm.trans hal')
  exact ⟨hr, hq⟩

/-! ### Tables that are missing -/

/-- How many of the directory entries in `s` have no page table. -/
def missing (m : Machine) (s : Finset ℕ) : ℕ := (s.filter fun i => ¬ present (m.dir i)).card

/-- The directory entries of `n` pages, from page `i` on after the address `v`. -/
def tablesAt (v i n : ℕ) : Finset ℕ := (Finset.range n).image fun j => dirIndex (add32 v ((i + j) * 0x1000))

theorem tablesAt_succ (v i n : ℕ) :
    tablesAt v i (n + 1) = insert (dirIndex (add32 v (i * 0x1000))) (tablesAt v (i + 1) n) := by
  unfold tablesAt
  rw [Finset.range_add_one', Finset.image_insert, Finset.map_eq_image, Finset.image_image, Nat.add_zero]
  refine congrArg _ (Finset.image_congr fun j _ => ?_)
  have hj : i + (j + 1) = i + 1 + j := by omega
  exact congrArg (fun a => dirIndex (add32 v (a * 0x1000))) hj

theorem missing_mono (h : ∀ j ∈ s, present (m.dir j) → present (m'.dir j)) : missing m' s ≤ missing m s := by
  refine Finset.card_le_card fun j hj => ?_
  obtain ⟨hs, hn⟩ := Finset.mem_filter.1 hj
  exact Finset.mem_filter.2 ⟨hs, fun hp => hn (h j hs hp)⟩

theorem missing_le_insert (m : Machine) (i : ℕ) (s : Finset ℕ) : missing m s ≤ missing m (insert i s) :=
  Finset.card_le_card (Finset.filter_subset_filter _ (Finset.subset_insert i s))

theorem missing_pos (hn : ¬ present (m.dir i)) : 0 < missing m (insert i s) :=
  Finset.card_pos.2 ⟨i, Finset.mem_filter.2 ⟨Finset.mem_insert_self i s, hn⟩⟩

/-- A table that was missing, and is there now. -/
theorem missing_created (h : ∀ j, present (m.dir j) → present (m'.dir j)) (hn : ¬ present (m.dir i))
    (hp : present (m'.dir i)) : missing m' s + 1 ≤ missing m (insert i s) := by
  refine Finset.card_lt_card (Finset.ssubset_iff_of_subset (fun j hj => ?_) |>.2 ⟨i, ?_, fun hi => ?_⟩)
  · obtain ⟨hs, hj⟩ := Finset.mem_filter.1 hj
    exact Finset.mem_filter.2 ⟨Finset.mem_insert_of_mem hs, fun hp' => hj (h j hp')⟩
  · exact Finset.mem_filter.2 ⟨Finset.mem_insert_self i s, hn⟩
  · exact (Finset.mem_filter.1 hi).2 hp

/-! ### What stays -/

/-- **Present words of taken frames stay.** -/
structure PresentKept (m m' : Machine) : Prop where
  cr3 : m'.cr3 = m.cr3
  used : ∀ b, m.pmm.Used b → m'.pmm.Used b
  word : ∀ f j, m.pmm.Used f → present (m.phys f j) → m'.phys f j = m.phys f j

theorem PresentKept.refl (m : Machine) : PresentKept m m := ⟨rfl, fun _ => id, fun _ _ _ _ => rfl⟩

theorem PresentKept.trans (h : PresentKept m m₁) (h' : PresentKept m₁ m') : PresentKept m m' := by
  refine ⟨h'.cr3.trans h.cr3, fun b hb => h'.used b (h.used b hb), fun f j hf hp => ?_⟩
  have hw := h.word f j hf hp
  rw [h'.word f j (h.used f hf) (by rwa [hw]), hw]

/-- A store to a word that is not present. -/
theorem PresentKept.store {q : PagePtr} (hq : ¬ present (m.load q)) (e : BitVec 32) :
    PresentKept m (m.store q e) := by
  refine ⟨rfl, fun _ => id, fun f j _ hp => if_neg ?_⟩
  rintro ⟨rfl, rfl⟩
  exact hq hp

theorem PresentKept.dir (hk : PresentKept m m') (hc : m.pmm.Used m.cr3) (hp : present (m.dir i)) :
    m'.dir i = m.dir i := by
  unfold Machine.dir
  rw [hk.cr3]
  exact hk.word _ _ hc hp

theorem PresentKept.missing (hk : PresentKept m m') (hc : m.pmm.Used m.cr3) (s : Finset ℕ) :
    missing m' s ≤ missing m s := by
  refine missing_mono fun j _ hp => ?_
  rw [hk.dir hc hp]
  exact hp

/-- A store of a present word, to a table or to the directory itself. -/
theorem missing_store (hp : present e) (q : PagePtr) (s : Finset ℕ) : missing (m.store q e) s ≤ missing m s := by
  refine missing_mono fun j _ hj => ?_
  by_cases hq : m.cr3 = q.frame ∧ j = q.idx
  · have hdir : (m.store q e).dir j = e := if_pos hq
    rwa [hdir]
  · have hdir : (m.store q e).dir j = m.dir j := if_neg hq
    rwa [hdir]

/-! ### `paging_get_page` -/

/-- **A new table** takes a frame that was free. -/
theorem createTable_found (hc : m.pmm.Used m.cr3) (hfl : ¬ large flags) (hn : ¬ present (m.dir i)) {r : ℕ} {q : Pmm}
    (hal : m.pmm.pmmAllocPage = some (r, q)) (hr : r ≠ 0) (he : m.createTable i flags = some m') :
    PresentKept m m' ∧ present (m'.dir i) ∧ (∀ j, m'.entry i j = 0) ∧ m'.pmm = q ∧ m'.tableLost = m.tableLost := by
  simp only [createTable, hal, Option.bind_eq_bind, Option.bind_some] at he
  obtain ⟨t, rfl, -, htl, htf, hused⟩ := allocPage_frame hal hr
  obtain ⟨hdf, hdp, -⟩ := tableEntry_ok htl hfl
  set de : BitVec 32 := BitVec.ofNat 32 (t * 4096) ||| pagePresent ||| pageRw ||| (flags &&& pageFlags)
  have hct : m.cr3 ≠ t := fun hh => htf (hh ▸ hc)
  have htab : ((m.withPmm q).store ⟨m.cr3, i⟩ de).tableFrame i = t := by
    have hdir : ((m.withPmm q).store ⟨m.cr3, i⟩ de).dir i = de := if_pos ⟨rfl, rfl⟩
    unfold Machine.tableFrame
    rw [hdir, hdf]
  obtain rfl := Option.some.inj he
  have hphys : ∀ f j, (((m.withPmm q).store ⟨m.cr3, i⟩ de).zeroFrame
    (((m.withPmm q).store ⟨m.cr3, i⟩ de).tableFrame i)).phys f j =
      if f = t then 0 else if f = m.cr3 ∧ j = i then de else m.phys f j := by
    intro f j
    rw [htab]
    rfl
  set m₂ := ((m.withPmm q).store ⟨m.cr3, i⟩ de).zeroFrame (((m.withPmm q).store ⟨m.cr3, i⟩ de).tableFrame i)
  have hdir : m₂.phys m.cr3 i = de := by rw [hphys, if_neg hct, if_pos ⟨rfl, rfl⟩]
  refine ⟨⟨rfl, fun b hb => (hused b).2 (.inl hb), fun f j hf hp => ?_⟩, ?_, fun j => ?_, rfl, ?_⟩
  · have hft : f ≠ t := fun hh => htf (hh ▸ hf)
    refine (hphys f j).trans ?_
    rw [if_neg hft, if_neg]
    rintro ⟨rfl, rfl⟩
    exact hn hp
  · show present (m₂.phys m.cr3 i)
    rwa [hdir]
  · show m₂.phys (frameOf (m₂.phys m.cr3 i)) j = 0
    rw [hdir, hdf, hphys, if_pos rfl]
  · show (m.tableLost || decide (t * 4096 = 0)) = m.tableLost
    rw [decide_eq_false hr, Bool.or_false]

/-- What `paging_get_page` with `create` does when it has a frame for a new table, and for `k` things more in `s`. -/
structure PageFound (m m' : Machine) (v k : ℕ) (s : Finset ℕ) : Prop where
  kept : PresentKept m m'
  dir : present (m'.dir (dirIndex v))
  entry : present (m'.load ⟨m'.tableFrame (dirIndex v), tableIndex v⟩) → m' = m ∧ present (m.dir (dirIndex v))
  grants : m'.pmm.Grants (missing m' s + k)
  lost : m'.tableLost = m.tableLost

/-- There is room for the next table. -/
theorem hasRoom_of_grants (hg : m.pmm.Grants (missing m (insert (dirIndex v) s) + k)) : HasRoom m v := by
  by_cases hp : present (m.dir (dirIndex v))
  · exact .inl hp
  · have hpos := missing_pos (s := s) hp
    obtain ⟨⟨r, q⟩, hal, hr, -⟩ := hg.anti (show 0 + 1 ≤ _ by omega)
    exact .inr ⟨r, q, hal, hr⟩

/-- **`paging_get_page` with `create`** finds an entry, which is present only where nothing was created. -/
theorem getPage_found {q : Option PagePtr} (hc : m.pmm.Used m.cr3) (hfl : ¬ large flags)
    (hg : m.pmm.Grants (missing m (insert (dirIndex v) s) + k)) (he : m.pagingGetPage v true flags = some (q, m')) :
    q = some ⟨m'.tableFrame (dirIndex v), tableIndex v⟩ ∧ PageFound m m' v k s := by
  obtain ⟨hv, -, hq⟩ := getPage_cases he
  by_cases hp : present (m.dir (dirIndex v))
  · -- nothing to create
    obtain ⟨-, rfl⟩ := Prod.mk.inj (Option.some.inj ((getPage_present hv hp).symm.trans he))
    have hle := missing_le_insert m (dirIndex v) s
    rw [if_pos hp] at hq
    exact ⟨hq, .refl m, hp, fun _ => ⟨rfl, hp⟩, hg.anti (by omega), rfl⟩
  · obtain ⟨r, p, hal, hr⟩ := (hasRoom_of_grants hg).resolve_left hp
    obtain ⟨m₁, hct⟩ : ∃ m₁, m.createTable (dirIndex v) flags = some m₁ := by
      simp only [createTable, hal, Option.bind_eq_bind, Option.bind_some]
      exact ⟨_, rfl⟩
    obtain ⟨hk, hdir, hz, hpmm, hlost⟩ := createTable_found hc hfl hp hal hr hct
    obtain ⟨-, rfl⟩ := Prod.mk.inj (Option.some.inj ((getPage_create hv hp hct hdir).symm.trans he))
    have hle := missing_created (s := s) (fun j hj => (hk.dir hc hj).symm ▸ hj) hp hdir
    rw [if_pos hdir] at hq
    refine ⟨hq, hk, hdir, fun hpe => ?_, ?_, hlost⟩
    · have h0 : m₁.load ⟨m₁.tableFrame (dirIndex v), tableIndex v⟩ = 0 := hz (tableIndex v)
      rw [h0] at hpe
      exact absurd hpe not_present_zero
    · rw [hpmm]
      exact ((hg.anti (show missing m₁ s + k + 1 ≤ _ by omega)).next hal).2

/-! ### The loops -/

/-- The page behind `v`. -/
theorem tablesAt_next (v i n : ℕ) : tablesAt (add32 v 0x1000) i n = tablesAt v (i + 1) n := by
  refine Finset.image_congr fun j _ => ?_
  have hpage : add32 (add32 v 0x1000) ((i + j) * 0x1000) = add32 v ((i + 1 + j) * 0x1000) := by
    unfold add32
    omega
  exact congrArg dirIndex hpage

/-- **`paging_map_pages`**, with a frame for each table that is missing. -/
theorem mapPages_found (hfl : ¬ large flags) {num : ℕ} : ∀ {m m' : Machine} {virt phys : ℕ}, m.pmm.Used m.cr3 →
    virt < 2 ^ 32 →
    m.pmm.Grants (missing m (tablesAt virt 0 num)) → m.pagingMapPages virt phys flags num = some m' →
      m'.tableLost = m.tableLost := by
  induction num with
  | zero =>
    intro m m' virt phys _ _ _ he
    cases he
    rfl
  | succ num ih =>
    intro m m' virt phys hc hv hg he
    unfold pagingMapPages at he
    obtain ⟨m₁, hmap, he⟩ := Option.bind_eq_some_iff.1 he
    unfold pagingMapPage at hmap
    obtain ⟨⟨q, m₂⟩, hget, hmap⟩ := Option.bind_eq_some_iff.1 hmap
    simp only [Option.bind_eq_bind] at hmap
    obtain ⟨ptr, hq, hentry⟩ := Option.bind_eq_some_iff.1 hmap
    split_ifs at hentry
    obtain rfl := Option.some.inj hentry
    have hstart : add32 virt (0 * 0x1000) = virt := add32_of_lt (by omega)
    rw [tablesAt_succ, hstart, ← tablesAt_next] at hg
    obtain ⟨-, hfound⟩ := getPage_found (k := 0) (s := tablesAt (add32 virt 0x1000) 0 num) hc hfl hg hget
    set e : BitVec 32 := BitVec.ofNat 32 phys ||| pagePresent ||| (flags &&& pageFlags)
    have hle := missing_store (m := m₂) (present_or _ _ : present e) ptr (tablesAt (add32 virt 0x1000) 0 num)
    have hused : (m₂.store ptr e).pmm.Used (m₂.store ptr e).cr3 := by
      have hcr : (m₂.store ptr e).cr3 = m.cr3 := hfound.kept.cr3
      rw [hcr]
      exact hfound.kept.used _ hc
    exact (ih hused (Nat.mod_lt _ (by norm_num)) (hfound.grants.anti hle) he).trans hfound.lost

/-- **Frames for `n` pages** from `v` on and for their tables: no table is missing there, or the allocator has a
frame for each page and each missing table. -/
def FramesFor (m : Machine) (v i n : ℕ) : Prop :=
  missing m (tablesAt v i n) = 0 ∨ m.pmm.Grants (missing m (tablesAt v i n) + n)

instance (m : Machine) (v i n : ℕ) : Decidable (FramesFor m v i n) := inferInstanceAs (Decidable (_ ∨ _))

/-- **The loop of `paging_alloc_pages`**, whether or not it gets all pages. -/
theorem allocLoop_found {v : ℕ} {num : ℕ} : ∀ {m m' : Machine} {i : ℕ} {ok : Bool}, m.pmm.Used m.cr3 →
    FramesFor m v i num → m.pagingAllocLoop v i num = some (ok, m') → m'.tableLost = m.tableLost := by
  induction num with
  | zero =>
    intro m m' i ok _ _ he
    cases he
    rfl
  | succ num ih =>
    intro m m' i ok hc hf he
    simp only [pagingAllocLoop, Option.bind_eq_bind, Option.bind_eq_some_iff] at he
    obtain ⟨⟨r, p⟩, hal, he⟩ := he
    split_ifs at he with hr
    · -- no frame is left for the page
      cases he
      rfl
    simp only [Option.bind_eq_some_iff] at he
    obtain ⟨⟨q, m₁⟩, hget, ptr, hq, he⟩ := he
    obtain ⟨f, rfl, -, -, -, hused⟩ := allocPage_frame hal hr
    have hcp : (m.withPmm p).pmm.Used (m.withPmm p).cr3 := (hused m.cr3).2 (.inl hc)
    set e : BitVec 32 := BitVec.ofNat 32 (f * 4096) ||| pagePresent ||| pageRw ||| pageUser
    have he' : present e := by
      unfold e
      rw [BitVec.or_assoc (_ ||| pagePresent)]
      exact present_or _ _
    have hstore := missing_store (m := m₁) he' ptr (tablesAt v (i + 1) num)
    unfold FramesFor at hf
    rw [tablesAt_succ] at hf
    rcases hf with h0 | hg
    · -- the table is there
      have hp : present ((m.withPmm p).dir (dirIndex (add32 v (i * 0x1000)))) := not_not.1 fun hn => by
        have hpos := missing_pos (m := m) (s := tablesAt v (i + 1) num) hn
        omega
      obtain ⟨halign, -⟩ := getPage_cases hget
      obtain ⟨-, rfl⟩ := Prod.mk.inj (Option.some.inj ((getPage_present halign hp).symm.trans hget))
      have hrest := missing_le_insert (m.withPmm p) (dirIndex (add32 v (i * 0x1000))) (tablesAt v (i + 1) num)
      have hsame : missing (m.withPmm p) (insert (dirIndex (add32 v (i * 0x1000))) (tablesAt v (i + 1) num)) = 0 := h0
      have hnone : missing ((m.withPmm p).store ptr e) (tablesAt v (i + 1) num) = 0 := by omega
      exact ih (m := (m.withPmm p).store ptr e) hcp (.inl hnone) he
    · have hnext : (m.withPmm p).pmm.Grants
        (missing (m.withPmm p) (insert (dirIndex (add32 v (i * 0x1000))) (tablesAt v (i + 1) num)) + num) :=
        (hg.next hal).2
      obtain ⟨-, hfound⟩ := getPage_found hcp (by decide : ¬ large (pageRw ||| pageUser)) hnext hget
      have husedStore : (m₁.store ptr e).pmm.Used (m₁.store ptr e).cr3 := by
        have hcr : (m₁.store ptr e).cr3 = m.cr3 := hfound.kept.cr3
        rw [hcr]
        exact hfound.kept.used _ hcp
      refine (ih husedStore (.inr (hfound.grants.anti ?_)) he).trans hfound.lost
      omega

end Saynaa
