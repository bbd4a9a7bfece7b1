import Saynaa.Proof.Sbrk

/-!
# The user half of an address space

* `UserOK`: the pages below the kernel have frames of their own.
* `writeBytes_ok`: bytes that are written to mapped pages are read again, and nothing else changes.
* `mapPages_ok`: fresh frames that are mapped.
* `allocPages_fresh`: the frames that the allocator finds.
* `mapRegion_ok`: a region of such frames.
-/

namespace Saynaa

open Machine

variable {m m' m₁ : Machine} {n k f v a : ℕ} {b : UInt8} {w : BitVec 32}

/-! ### Bytes -/

theorem getByte_setByte {j : ℕ} (hj : j < 4) (hk : k < 4) (w : BitVec 32) (b : UInt8) :
    getByte (setByte w k b) j = if j = k then b else getByte w j := by
  have hmask : ∀ i, (0xFF#32).getLsbD i = decide (i < 8) := by
    intro i
    by_cases hi : i < 32
    · have hall : ∀ i < 32, (0xFF#32).getLsbD i = decide (i < 8) := by decide
      exact hall i hi
    · rw [BitVec.getLsbD_of_ge _ _ (by omega), decide_eq_false (by omega)]
  have hbyte : ∀ i, (BitVec.ofNat 32 b.toNat).getLsbD i = b.toBitVec.getLsbD i := by
    intro i
    have hb : b.toNat = b.toBitVec.toNat := rfl
    rw [BitVec.getLsbD_ofNat, hb, BitVec.testBit_toNat]
    by_cases hi : i < 32
    · rw [decide_eq_true hi, Bool.true_and]
    · rw [decide_eq_false hi, Bool.false_and, BitVec.getLsbD_of_ge _ _ (by omega)]
  have hbits : ∀ i, i < 8 → (setByte w k b).getLsbD (8 * j + i) = if j = k then b.toBitVec.getLsbD i
    else w.getLsbD (8 * j + i) := by
    intro i hi
    unfold setByte
    rw [BitVec.getLsbD_or, BitVec.getLsbD_and, BitVec.getLsbD_not, BitVec.getLsbD_shiftLeft,
      BitVec.getLsbD_shiftLeft, hmask, hbyte]
    have h32 : 8 * j + i < 32 := by omega
    rw [decide_eq_true h32]
    by_cases hjk : j = k
    · -- the byte that is set
      subst hjk
      have hlow : ¬ 8 * j + i < 8 * j := by omega
      have hi' : 8 * j + i - 8 * j = i := by omega
      rw [if_pos rfl, decide_eq_false hlow, hi', decide_eq_true hi]
      simp only [Bool.true_and, Bool.not_false, Bool.not_true, Bool.and_false, Bool.false_or]
    · -- a byte below or above it
      rw [if_neg hjk]
      by_cases hlt : 8 * j + i < 8 * k
      · rw [decide_eq_true hlt]
        simp only [Bool.not_true, Bool.true_and, Bool.false_and, Bool.not_false, Bool.and_true, Bool.or_false]
      · have hfar : ¬ 8 * j + i - 8 * k < 8 := by omega
        rw [decide_eq_false hlt, decide_eq_false hfar, BitVec.getLsbD_of_ge b.toBitVec _ (by omega)]
        simp only [Bool.not_false, Bool.and_false, Bool.and_true, Bool.or_false]
  have hget : ∀ x : BitVec 32, ∀ i, i < 8 → (getByte x j).toBitVec.getLsbD i = x.getLsbD (8 * j + i) := by
    intro x i hi
    show ((x >>> (8 * j)).setWidth 8).getLsbD i = _
    rw [BitVec.getLsbD_setWidth, BitVec.getLsbD_ushiftRight, decide_eq_true hi, Bool.true_and]
  apply UInt8.toBitVec_inj.1
  apply BitVec.eq_of_getLsbD_eq
  intro i hi
  rw [hget _ i hi, hbits i hi]
  split_ifs with hjk
  · rfl
  · rw [hget w i hi]

/-! ### User pages -/

/-- The pages below the kernel. -/
def userPages : ℕ := 0xC0000

/-- **The user half**: its pages are mapped to taken frames of their own, which hold no paging structures. -/
structure UserOK (m : Machine) : Prop where
  space : SpaceOK m
  zero : m.pmm.Used 0
  ord : ∀ n < userPages, Ordinary m (n * 4096)
  own : ∀ n < userPages, ∀ f, mapping m n = some f → m.pmm.Used f ∧ NotPaging m f
  inj : ∀ n < userPages, ∀ k < userPages, ∀ f, mapping m n = some f → mapping m k = some f → n = k

theorem UserOK.byteAt_eq (h : UserOK m) (hv : v < 0xC0000000) :
    m.byteAt v = (mapping m (v / 4096)).map fun f => getByte (m.phys f (v % 4096 / 4)) (v % 4) := by
  have hpage : v / 4096 < userPages := by
    unfold userPages
    omega
  have hoff : v % 4096 % 4 = v % 4 := by omega
  unfold byteAt
  cases hm : mapping m (v / 4096) with
  -- a mapped page
  | some f =>
    rw [walk_mapping hm]
    simp only [Option.map_some, hoff]
  -- no page: there is no table, or no entry
  | none =>
    have hwalk : m.walk v = none := by
      obtain ⟨h1, h2, -⟩ := page_index v
      have ho := h.ord _ hpage
      have hdir : dirIndex (v / 4096 * 4096) = dirIndex v := by
        unfold dirIndex
        omega
      unfold Ordinary at ho
      rw [hdir] at ho
      unfold walk
      simp only
      by_cases hp : present (m.dir (dirIndex v))
      · have ht : HasTable m (dirIndex v) := ⟨ho.1, hp, ho.2 hp⟩
        rw [mapping_eq ht] at hm
        split_ifs at hm with hpe
        have hpe' : ¬ present (m.phys (frameOf (m.dir (dirIndex v))) (tableIndex v)) := hpe
        rw [if_neg (not_not.2 hp), if_neg (ho.2 hp), if_pos hpe']
      · rw [if_pos hp]
    rw [hwalk]
    rfl

/-- **Nothing of the paging structures changes.** -/
structure SamePages (m m' : Machine) : Prop where
  pmm : m'.pmm = m.pmm
  cr3 : m'.cr3 = m.cr3
  lost : m'.tableLost = m.tableLost
  dir : ∀ i, m'.dir i = m.dir i
  entry : ∀ i, HasTable m i → ∀ j, m'.entry i j = m.entry i j

theorem SamePages.refl (m : Machine) : SamePages m m := ⟨rfl, rfl, rfl, fun _ => rfl, fun _ _ _ => rfl⟩

theorem hasTable_congr {i : ℕ} (hd : ∀ i, m'.dir i = m.dir i) : HasTable m' i ↔ HasTable m i := by
  unfold HasTable
  rw [hd]

theorem SamePages.trans (h : SamePages m m₁) (h' : SamePages m₁ m') : SamePages m m' := by
  refine ⟨h'.pmm.trans h.pmm, h'.cr3.trans h.cr3, h'.lost.trans h.lost, fun i => (h'.dir i).trans (h.dir i), ?_⟩
  intro i hi j
  rw [h'.entry i ((hasTable_congr h.dir).2 hi), h.entry i hi]

theorem SamePages.mapping (h : SamePages m m') : mapping m' = mapping m :=
  funext fun _ => mapping_congr (h.dir _) fun hi => h.entry _ hi _

theorem SamePages.space (h : SamePages m m') (hs : SpaceOK m) : SpaceOK m' := by
  have ht : ∀ i, m'.tableFrame i = m.tableFrame i := fun i => tableFrame_congr (h.dir i)
  have hi := fun i => hasTable_congr (i := i) h.dir
  refine ⟨?_, ?_, ?_, ?_, ?_, ?_, ?_⟩
  · rw [h.pmm, h.cr3]
    exact hs.cr3
  · rw [h.cr3]
    exact hs.cr3_ne
  · intro i hh
    rw [h.pmm, ht]
    exact hs.used i ((hi i).1 hh)
  · intro i hh
    rw [ht]
    exact hs.ne_zero i ((hi i).1 hh)
  · intro i hh
    rw [ht, h.cr3]
    exact hs.ne_cr3 i ((hi i).1 hh)
  · intro i j hh hh' heq
    rw [ht, ht] at heq
    exact hs.inj i j ((hi i).1 hh) ((hi j).1 hh') heq
  · intro i hh j
    rw [h.entry i ((hi i).1 hh)]
    exact hs.entry i ((hi i).1 hh) j

theorem SamePages.user (h : SamePages m m') (hu : UserOK m) : UserOK m' := by
  refine ⟨h.space hu.space, by rw [h.pmm]; exact hu.zero, fun n hn => ordinary_congr h.dir (hu.ord n hn), ?_, ?_⟩
  · intro n hn f hf
    rw [h.mapping] at hf
    rw [h.pmm]
    exact ⟨(hu.own n hn f hf).1, notPaging_congr h.cr3 h.dir (hu.own n hn f hf).2⟩
  · intro n hn k hk f hf hf'
    rw [h.mapping] at hf hf'
    exact hu.inj n hn k hk f hf hf'

/-- A word of a frame that holds no paging structure. -/
theorem store_same (hf : NotPaging m f) (j : ℕ) (e : BitVec 32) : SamePages m (m.store ⟨f, j⟩ e) := by
  have hword : ∀ g i, g ≠ f → (m.store ⟨f, j⟩ e).phys g i = m.phys g i := fun g i hg => if_neg fun hh => hg hh.1
  refine ⟨rfl, rfl, rfl, fun i => hword _ _ (Ne.symm hf.1), ?_⟩
  intro i hi l
  have hdir : (m.store ⟨f, j⟩ e).dir i = m.dir i := hword _ _ (Ne.symm hf.1)
  unfold Machine.entry
  rw [tableFrame_congr hdir]
  exact hword _ _ (Ne.symm (hf.2 i hi))

/-- **A byte** that is written to a mapped page. -/
theorem writeByte_ok (h : UserOK m) (hv : v < 0xC0000000) (hm : mapping m (v / 4096) ≠ none) (b : UInt8) :
    ∃ m', m.writeByte v b = some m' ∧ SamePages m m' ∧
      ∀ a < 0xC0000000, m'.byteAt a = if a = v then some b else m.byteAt a := by
  have hpage : ∀ a, a < 0xC0000000 → a / 4096 < userPages := by
    intro a ha
    unfold userPages
    omega
  obtain ⟨f, hf⟩ := Option.ne_none_iff_exists'.1 hm
  obtain ⟨-, hfn⟩ := h.own _ (hpage v hv) f hf
  have hsame := store_same hfn (v % 4096 / 4) (setByte (m.phys f (v % 4096 / 4)) (v % 4096 % 4) b)
  refine ⟨_, ?_, hsame, ?_⟩
  · unfold writeByte
    rw [walk_mapping hf]
    rfl
  intro a ha
  rw [(hsame.user h).byteAt_eq ha, h.byteAt_eq ha, hsame.mapping]
  cases hg : mapping m (a / 4096) with
  | none =>
    have hne : a ≠ v := by
      rintro rfl
      rw [hf] at hg
      exact nomatch hg
    rw [if_neg hne]
    rfl
  | some g =>
    simp only [Option.map_some]
    have hoff : v % 4096 % 4 = v % 4 := by omega
    by_cases hword : g = f ∧ a % 4096 / 4 = v % 4096 / 4
    · -- the word that is written
      obtain ⟨rfl, hidx⟩ := hword
      have heq : a / 4096 = v / 4096 := h.inj _ (hpage a ha) _ (hpage v hv) g hg hf
      have hphys : (m.store ⟨g, v % 4096 / 4⟩ (setByte (m.phys g (v % 4096 / 4)) (v % 4096 % 4) b)).phys
        g (a % 4096 / 4) =
          setByte (m.phys g (v % 4096 / 4)) (v % 4096 % 4) b := if_pos ⟨rfl, hidx⟩
      rw [hphys, hoff, getByte_setByte (Nat.mod_lt _ (by omega)) (Nat.mod_lt _ (by omega)), hidx]
      by_cases hmod : a % 4 = v % 4
      · rw [if_pos hmod, if_pos (by omega)]
      · rw [if_neg hmod, if_neg (fun hh => hmod (by rw [hh]))]
    · -- another word
      have hne : a ≠ v := by
        rintro rfl
        rw [hf] at hg
        exact hword ⟨(Option.some.inj hg).symm, rfl⟩
      have hphys : (m.store ⟨f, v % 4096 / 4⟩ (setByte (m.phys f (v % 4096 / 4)) (v % 4096 % 4) b)).phys
        g (a % 4096 / 4) =
          m.phys g (a % 4096 / 4) := if_neg hword
      rw [if_neg hne, hphys]

/-- Other frames keep their words. -/
theorem writeByte_word (hf : mapping m (v / 4096) = some f) (hw : m.writeByte v b = some m') {g : ℕ} (hg : g ≠ f)
    (j : ℕ) : m'.phys g j = m.phys g j := by
  unfold writeByte at hw
  rw [walk_mapping hf] at hw
  obtain rfl := Option.some.inj hw
  exact if_neg fun hh => hg hh.1

/-- **Bytes** that are written to mapped pages. -/
theorem writeBytes_ok (l : List UInt8) : ∀ {m : Machine} {v : ℕ}, UserOK m → v + l.length ≤ 0xC0000000 →
    (∀ a, v ≤ a → a < v + l.length → mapping m (a / 4096) ≠ none) →
      ∃ m', m.writeBytes v l = some m' ∧ SamePages m m' ∧
        (∀ a < 0xC0000000, m'.byteAt a = if v ≤ a ∧ a < v + l.length then l[a - v]? else m.byteAt a) ∧
        ∀ g, (∀ a, v ≤ a → a < v + l.length → mapping m (a / 4096) ≠ some g) → ∀ j, m'.phys g j = m.phys g j := by
  induction l with
  | nil =>
    intro m v _ _ _
    refine ⟨m, rfl, .refl m, fun a _ => ?_, fun _ _ _ => rfl⟩
    rw [if_neg]
    rintro ⟨h1, h2⟩
    exact absurd h2 (by simpa using h1)
  | cons b l ih =>
    intro m v h hend hm
    rw [List.length_cons] at hend hm
    obtain ⟨m₁, hw, hsame, hbyte⟩ := writeByte_ok h (by omega) (hm v le_rfl (by omega)) b
    have hnext : add32 v 1 = v + 1 := add32_of_lt (by omega)
    obtain ⟨m₂, hw₂, hsame₂, hbyte₂, hword₂⟩ := ih (m := m₁) (v := v + 1) (hsame.user h) (by omega) (by
      intro a h1 h2
      rw [hsame.mapping]
      exact hm a (by omega) (by omega))
    refine ⟨m₂, ?_, hsame.trans hsame₂, ?_, ?_⟩
    · unfold writeBytes
      rw [hw, Option.bind_eq_bind, Option.bind_some, hnext]
      exact hw₂
    · intro a ha
      rw [hbyte₂ a ha, hbyte a ha, List.length_cons]
      by_cases hlater : v + 1 ≤ a ∧ a < v + 1 + l.length
      · -- a later byte
        rw [if_pos hlater, if_pos (by omega)]
        obtain ⟨d, rfl⟩ := Nat.exists_eq_add_of_le hlater.1
        rw [Nat.add_sub_cancel_left, show v + 1 + d - v = d + 1 by omega]
        rfl
      · -- the first byte, or none of them
        rw [if_neg hlater]
        by_cases hfirst : a = v
        · subst hfirst
          rw [if_pos rfl, if_pos (by omega), Nat.sub_self]
          rfl
        · rw [if_neg hfirst, if_neg (by omega)]
    · intro g hg j
      rw [List.length_cons] at hg
      obtain ⟨f, hf⟩ := Option.ne_none_iff_exists'.1 (hm v le_rfl (by omega))
      have hgf : g ≠ f := by
        rintro rfl
        exact hg v le_rfl (by omega) hf
      rw [hword₂ g (fun a h1 h2 => by rw [hsame.mapping]; exact hg a (by omega) (by omega)) j,
        writeByte_word hf hw hgf]

theorem writeByte_lost {v : ℕ} {b : UInt8} (h : m.writeByte v b = some m') : m'.tableLost = m.tableLost := by
  unfold writeByte at h
  obtain ⟨⟨f, off⟩, -, h⟩ := Option.bind_eq_some_iff.1 h
  obtain rfl := Option.some.inj h
  rfl

theorem writeBytes_lost (l : List UInt8) : ∀ {m : Machine} {v : ℕ}, m.writeBytes v l = some m' →
    m'.tableLost = m.tableLost := by
  induction l with
  | nil =>
    intro m v h
    cases h
    rfl
  | cons b l ih =>
    intro m v h
    unfold writeBytes at h
    obtain ⟨m₁, hw, h⟩ := Option.bind_eq_some_iff.1 h
    rw [ih h, writeByte_lost hw]

/-! ### Mapping -/

/-- **Data stays**: frames that are taken and hold no paging structure keep their words, and stay such. -/
structure DataKept (m m' : Machine) : Prop where
  used : ∀ g, m.pmm.Used g → m'.pmm.Used g
  notPaging : ∀ g, m.pmm.Used g → NotPaging m g → NotPaging m' g
  word : ∀ g, m.pmm.Used g → NotPaging m g → ∀ j, m'.phys g j = m.phys g j

theorem DataKept.refl (m : Machine) : DataKept m m := ⟨fun _ => id, fun _ _ => id, fun _ _ _ _ => rfl⟩

theorem DataKept.trans (h : DataKept m m₁) (h' : DataKept m₁ m') : DataKept m m' := by
  refine ⟨fun g hg => h'.used g (h.used g hg), fun g hg hn => h'.notPaging g (h.used g hg) (h.notPaging g hg hn), ?_⟩
  intro g hg hn j
  rw [h'.word g (h.used g hg) (h.notPaging g hg hn), h.word g hg hn]

/-- A page that stays mapped keeps its bytes. -/
theorem DataKept.byteAt (h : DataKept m m') (hu : UserOK m) (hu' : UserOK m') (ha : a < 0xC0000000)
    (hm : mapping m (a / 4096) ≠ none) (hm' : mapping m' (a / 4096) = mapping m (a / 4096)) :
    m'.byteAt a = m.byteAt a := by
  have hpage : a / 4096 < userPages := by
    unfold userPages
    omega
  obtain ⟨f, hf⟩ := Option.ne_none_iff_exists'.1 hm
  obtain ⟨hused, hn⟩ := hu.own _ hpage f hf
  rw [hu'.byteAt_eq ha, hu.byteAt_eq ha, hm', hf]
  simp only [Option.map_some]
  rw [h.word f hused hn]

/-- A new table takes a frame that was free; of the other ones, only the directory changes. -/
theorem createTable_word {i : ℕ} {flags : BitVec 32} (he : m.createTable i flags = some m')
    (hl : m'.tableLost = false) {g : ℕ} (hg : m.pmm.Used g) (hc : g ≠ m.cr3) (j : ℕ) : m'.phys g j = m.phys g j := by
  simp only [createTable, Option.bind_eq_bind, Option.bind_eq_some_iff] at he
  obtain ⟨⟨r, q⟩, hal, he⟩ := he
  have hr : r ≠ 0 := by
    rintro rfl
    cases he
    simp at hl
  obtain ⟨t, rfl, -, htl, htf, -⟩ := allocPage_frame hal hr
  obtain ⟨hdf, -, -⟩ := tableEntry_ok htl (show ¬ large 0 by decide)
  have hframe : ((m.withPmm q).store ⟨m.cr3, i⟩
    (BitVec.ofNat 32 (t * 4096) ||| pagePresent ||| pageRw ||| (flags &&& pageFlags))).tableFrame i =
      t := by
    have hdir : ((m.withPmm q).store ⟨m.cr3, i⟩
      (BitVec.ofNat 32 (t * 4096) ||| pagePresent ||| pageRw ||| (flags &&& pageFlags))).dir i =
        BitVec.ofNat 32 (t * 4096) ||| pagePresent ||| pageRw ||| (flags &&& pageFlags) := if_pos ⟨rfl, rfl⟩
    unfold Machine.tableFrame
    rw [hdir, frameOf_or (and_flags_frame _), frameOf_or (by decide), frameOf_or (by decide), frameOf_ofNat htl]
  have hgt : g ≠ t := fun hh => htf (hh ▸ hg)
  cases he
  show (if g = _ then _ else _) = _
  rw [hframe, if_neg hgt]
  exact if_neg fun hh => hc hh.1

theorem createTable_data {i : ℕ} {flags : BitVec 32} (he : m.createTable i flags = some m')
    (hl : m'.tableLost = false) {g : ℕ} (hg : m.pmm.Used g) (hn : NotPaging m g) (j : ℕ) : m'.phys g j = m.phys g j :=
  createTable_word he hl hg hn.1 j

/-- **One page** more in the user half. -/
theorem mapPage_ok (h : UserOK m) (hn : n < userPages) (hf : f < 2 ^ 20) (hused : m.pmm.Used f)
    (hnot : NotPaging m f) (hown : ∀ k < userPages, mapping m k ≠ some f) {flags : BitVec 32} (hfl : ¬ large flags)
    (he : m.pagingMapPage (n * 4096) (BitVec.ofNat 32 (f * 4096)) flags = some m') (hl : m'.tableLost = false) :
    UserOK m' ∧ DataKept m m' ∧ mapping m n = none ∧ mapping m' = Function.update (mapping m) n (some f) := by
  have hv : n * 4096 % 0x1000 = 0 := by omega
  have hpage : n * 4096 / 4096 = n := by omega
  have ho := h.ord n hn
  unfold pagingMapPage at he
  obtain ⟨⟨q, m₁⟩, hget, he⟩ := Option.bind_eq_some_iff.1 he
  have hl₁ : m₁.tableLost = false := by
    simp only [Option.bind_eq_bind] at he
    obtain ⟨q', -, he⟩ := Option.bind_eq_some_iff.1 he
    split_ifs at he
    cases he
    exact hl
  obtain ⟨m₂, hget₂, hready⟩ := getPage_ok h.space hv ho hfl (hasRoom_of_getPage hv hget hl₁)
  obtain ⟨rfl, rfl⟩ := Prod.mk.inj (Option.some.inj (hget.symm.trans hget₂))
  have hdata : ∀ g, m.pmm.Used g → NotPaging m g → ∀ j, m₁.phys g j = m.phys g j := by
    obtain ⟨-, hm, -⟩ := getPage_cases hget
    rcases hm with rfl | ⟨-, -, hct⟩
    · exact fun _ _ _ _ => rfl
    · exact fun g hg hng j => createTable_data hct hl₁ hg hng j
  simp only [Option.bind_eq_bind, Option.bind_some] at he
  split_ifs at he with hold
  have hfree : mapping m n = none := by
    have hmap := mapping_eq hready.table
    rw [hpage, hready.mapping] at hmap
    rw [hmap]
    exact if_neg hold
  set e := BitVec.ofNat 32 (f * 4096) ||| pagePresent ||| (flags &&& pageFlags) with hentry
  have hpe : present e := present_or _ _
  have hfe : frameOf e = f := by
    rw [hentry, frameOf_or (and_flags_frame _), frameOf_or (by decide), frameOf_ofNat hf]
  obtain ⟨hs, hmap⟩ := storeAt_ok hready.space hready.table (.inl hpe)
  obtain rfl := Option.some.inj he
  rw [if_pos hpe, hfe, hpage, hready.mapping] at hmap
  set m' := m₁.store ⟨m₁.tableFrame (dirIndex (n * 4096)), tableIndex (n * 4096)⟩ e
  have hdir : ∀ i, m'.dir i = m₁.dir i := store_dir hready.space hready.table
  have hpriv : ∀ g, m.pmm.Used g → NotPaging m g → NotPaging m' g :=
    fun g hg hng => notPaging_congr (show m'.cr3 = m₁.cr3 from rfl) hdir (hready.notPaging g hg hng)
  refine ⟨⟨hs, hready.mono _ h.zero, fun k hk => ordinary_congr hdir (hready.ordinary _ (h.ord k hk)), ?_, ?_⟩,
    ⟨hready.mono, hpriv, ?_⟩, hfree, hmap⟩
  · intro k hk g hg
    rw [hmap] at hg
    by_cases hkn : k = n
    · -- the new page
      subst hkn
      rw [Function.update_self] at hg
      obtain rfl := Option.some.inj hg
      exact ⟨hready.mono _ hused, hpriv _ hused hnot⟩
    · rw [Function.update_of_ne hkn] at hg
      obtain ⟨hgu, hgn⟩ := h.own k hk g hg
      exact ⟨hready.mono _ hgu, hpriv _ hgu hgn⟩
  · intro k hk k' hk' g hg hg'
    rw [hmap] at hg hg'
    -- two pages share no frame
    by_cases hkn : k = n <;> by_cases hkn' : k' = n
    · rw [hkn, hkn']
    · subst hkn
      rw [Function.update_self] at hg
      rw [Function.update_of_ne hkn', ← hg] at hg'
      exact absurd hg' (hown k' hk')
    · subst hkn'
      rw [Function.update_self] at hg'
      rw [Function.update_of_ne hkn, ← hg'] at hg
      exact absurd hg (hown k hk)
    · rw [Function.update_of_ne hkn] at hg
      rw [Function.update_of_ne hkn'] at hg'
      exact h.inj k hk k' hk' g hg hg'
  · intro g hg hng j
    have hne : g ≠ m₁.tableFrame (dirIndex (n * 4096)) := (hready.notPaging g hg hng).2 _ hready.table
    have hword : m'.phys g j = m₁.phys g j := if_neg fun hh => hne hh.1
    rw [hword, hdata g hg hng]

theorem mapPages_lost {flags : BitVec 32} {num : ℕ} : ∀ {m : Machine} {virt phys : ℕ},
    m.pagingMapPages virt phys flags num = some m' → m'.tableLost = false → m.tableLost = false := by
  induction num with
  | zero =>
    intro m virt phys he hl
    cases he
    exact hl
  | succ num ih =>
    intro m virt phys he hl
    unfold pagingMapPages at he
    obtain ⟨m₁, hmap, he⟩ := Option.bind_eq_some_iff.1 he
    have hl₁ := ih he hl
    unfold pagingMapPage at hmap
    obtain ⟨⟨q, m₂⟩, hget, hmap⟩ := Option.bind_eq_some_iff.1 hmap
    simp only [Option.bind_eq_bind] at hmap
    obtain ⟨q', -, hmap⟩ := Option.bind_eq_some_iff.1 hmap
    split_ifs at hmap
    cases hmap
    exact getPage_lost hget hl₁

/-- **A run of fresh frames** `f`, … is mapped at the free pages `n`, …. -/
theorem mapPages_ok {flags : BitVec 32} (hfl : ¬ large flags) (num : ℕ) : ∀ {m : Machine} {n f : ℕ}, UserOK m →
    n + num ≤ userPages → f + num ≤ 2 ^ 20 → (∀ i < num, m.pmm.Used (f + i) ∧ NotPaging m (f + i) ∧
      ∀ k < userPages, mapping m k ≠ some (f + i)) →
      m.pagingMapPages (n * 4096) (f * 4096) flags num = some m' → m'.tableLost = false →
        UserOK m' ∧ DataKept m m' ∧ (∀ i < num, mapping m (n + i) = none) ∧
          ∀ k, mapping m' k = if n ≤ k ∧ k < n + num then some (f + (k - n)) else mapping m k := by
  induction num with
  | zero =>
    intro m n f h _ _ _ he _
    cases he
    refine ⟨h, .refl _, fun i hi => absurd hi (Nat.not_lt_zero i), fun k => ?_⟩
    rw [if_neg (by omega)]
  | succ num ih =>
    intro m n f h hn hf hframes he hl
    unfold pagingMapPages at he
    obtain ⟨m₁, hmap, he⟩ := Option.bind_eq_some_iff.1 he
    have hl₁ := mapPages_lost he hl
    obtain ⟨hused, hnot, hown⟩ := hframes 0 (by omega)
    obtain ⟨hu₁, hk₁, hfree, hmap₁⟩ := mapPage_ok h (by omega) (by omega) hused hnot hown hfl hmap hl₁
    unfold userPages at hn
    have hv : add32 (n * 4096) 0x1000 = (n + 1) * 4096 := by
      rw [add32_of_lt (by omega)]
      ring
    cases num with
    -- the last page
    | zero =>
      cases he
      refine ⟨hu₁, hk₁, ?_, ?_⟩
      · intro i hi
        obtain rfl : i = 0 := by omega
        exact hfree
      · intro k
        rw [hmap₁, Function.update_apply]
        by_cases hk : k = n
        · rw [if_pos hk, if_pos (by omega), hk, Nat.sub_self, Nat.add_zero]
        · rw [if_neg hk, if_neg (by omega)]
    | succ num =>
      have hp : add32 (f * 4096) 0x1000 = (f + 1) * 4096 := by
        rw [add32_of_lt (by omega)]
        ring
      rw [hv, hp] at he
      obtain ⟨hu', hk', hfree', hmap'⟩ := ih hu₁ (by unfold userPages; omega) (by omega) (by
        intro i hi
        obtain ⟨h1, h2, h3⟩ := hframes (i + 1) (by omega)
        rw [show f + 1 + i = f + (i + 1) by omega]
        refine ⟨hk₁.used _ h1, hk₁.notPaging _ h1 h2, fun k hk => ?_⟩
        rw [hmap₁, Function.update_apply]
        split_ifs
        · intro hh
          have := Option.some.inj hh
          omega
        · exact h3 k hk) he hl
      refine ⟨hu', hk₁.trans hk', ?_, ?_⟩
      · intro i hi
        rcases Nat.eq_zero_or_pos i with rfl | hpos
        · exact hfree
        · have := hfree' (i - 1) (by omega)
          rw [hmap₁, show n + 1 + (i - 1) = n + i by omega, Function.update_of_ne (by omega)] at this
          exact this
      · intro k
        rw [hmap', hmap₁, Function.update_apply]
        by_cases hk : n ≤ k ∧ k < n + (num + 1 + 1)
        · rw [if_pos hk]
          by_cases hkn : k = n
          · rw [if_neg (by omega), if_pos hkn, hkn, Nat.sub_self, Nat.add_zero]
          · rw [if_pos (by omega)]
            exact congrArg some (by omega)
        · rw [if_neg hk, if_neg (by omega), if_neg (by omega)]

/-- **The frames of a region** are fresh ones, of no page and no paging structure. -/
theorem allocPages_fresh (h : UserOK m) {num r : ℕ} {pmm : Pmm} (hal : m.pmm.pmmAllocPages num = (r, pmm))
    (hr : r ≠ 0) (hpos : 0 < num) :
    ∃ f, r = f * 4096 ∧ f + num ≤ 2 ^ 20 ∧ ∀ i < num, ¬ m.pmm.Used (f + i) ∧ pmm.Used (f + i) ∧
      NotPaging m (f + i) ∧ ∀ k < userPages, mapping m k ≠ some (f + i) := by
  obtain ⟨hc, h4⟩ := allocPages_ok h.zero hal
  obtain ⟨f, rfl⟩ : ∃ f, r = f * 4096 := ⟨r / 4096, by unfold pmmBlockSize at h4; omega⟩
  have hg : PmmCall.granted (f * 4096) (.allocPages num) = blockRange f num := by
    simp [PmmCall.granted, hr, pmmBlockSize]
  rw [hg] at hc
  have hlast := hc.lt (f + (num - 1)) (mem_blockRange.2 ⟨by omega, by omega⟩)
  have hmax := m.pmm.maxBlocks_lt
  refine ⟨f, rfl, by omega, fun i hi => ?_⟩
  have hmem : f + i ∈ blockRange f num := mem_blockRange.2 ⟨by omega, by omega⟩
  have hfree := hc.fresh _ hmem
  refine ⟨hfree, (hc.used _).2 (.inr hmem), ⟨?_, ?_⟩, ?_⟩
  · exact fun hh => hfree (hh ▸ h.space.cr3)
  · exact fun j hj hh => hfree (hh ▸ h.space.used j hj)
  · exact fun k hk hh => hfree (h.own k hk _ hh).1

/-- **A region**: `num` fresh frames at the pages `n`, …, which were free. -/
theorem mapRegion_ok (h : UserOK m) {num r : ℕ} {pmm : Pmm} (hn : n + num ≤ userPages)
    (hal : m.pmm.pmmAllocPages num = (r, pmm)) (hr : r ≠ 0 ∨ num = 0) {flags : BitVec 32} (hfl : ¬ large flags)
    (he : (m.withPmm pmm).pagingMapPages (n * 4096) r flags num = some m') (hl : m'.tableLost = false) :
    UserOK m' ∧ DataKept m m' ∧ (∀ i < num, mapping m (n + i) = none ∧ ¬ m.pmm.Used (r / 4096 + i)) ∧
      ∀ k, mapping m' k = if n ≤ k ∧ k < n + num then some (r / 4096 + (k - n)) else mapping m k := by
  have hmono : ∀ b, m.pmm.Used b → pmm.Used b := fun b hb => ((allocPages_ok h.zero hal).1.used b).2 (.inl ⟨hb, id⟩)
  have hu : UserOK (m.withPmm pmm) :=
    ⟨h.space.withPmm_mono hmono, hmono 0 h.zero, h.ord, fun n hn f hf =>
      ⟨hmono f (h.own n hn f hf).1, (h.own n hn f hf).2⟩, h.inj⟩
  have hkept : DataKept m (m.withPmm pmm) := ⟨hmono, fun _ _ => id, fun _ _ _ _ => rfl⟩
  rcases Nat.eq_zero_or_pos num with rfl | hpos
  · cases he
    refine ⟨hu, hkept, fun i hi => absurd hi (Nat.not_lt_zero i), fun k => ?_⟩
    rw [if_neg (by omega)]
    rfl
  obtain ⟨f, rfl, hend, hfresh⟩ := allocPages_fresh h hal (hr.resolve_right (by omega)) hpos
  obtain ⟨hu', hk', hfree, hmap⟩ := mapPages_ok hfl num hu hn hend (fun i hi => (hfresh i hi).2) he hl
  rw [Nat.mul_div_cancel _ (by decide)]
  exact ⟨hu', hkept.trans hk', fun i hi => ⟨hfree i hi, (hfresh i hi).1⟩, hmap⟩

end Saynaa
