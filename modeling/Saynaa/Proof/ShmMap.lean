import Saynaa.Proof.Sbrk
import Saynaa.Proof.Shm
import Saynaa.Proof.TableFrames

/-!
# `shm_map`: all or nothing?

* `shmMapLoop_cons`: one iteration.
* `shmMapLoop_ok`, `shmMapLoop_free`: over free pages the loop maps all frames, and it ends well over no others.
* `shm_map_all_or_nothing`: the property holds exactly when the first page is taken or all of them are free,
  inside the region.
-/

namespace Saynaa

open Machine Shm Lib

variable {m m₀ m₁ m' : Machine} {s s' : Shm} {p p' : Process} {i : Fin shmMaxObjects} {base k n next id : ℕ}
  {l : List ℕ} {ok : Bool}

/-! ### What stays -/

/-- A mapped page stays mapped. -/
theorem PresentKept.mapping (hk : PresentKept m m') (h : SpaceOK m) {f : ℕ} (hm : mapping m n = some f) :
    mapping m' n = some f := by
  have ht : HasTable m (n / 1024) := by
    by_contra ht
    rw [mapping_of_not_table ht] at hm
    exact nomatch hm
  have hdir : m'.dir (n / 1024) = m.dir (n / 1024) := hk.dir h.cr3 ht.2.1
  rw [mapping_of_table ht] at hm
  split_ifs at hm with hpe
  have hentry : m'.entry (n / 1024) (n % 1024) = m.entry (n / 1024) (n % 1024) := by
    unfold Machine.entry
    rw [tableFrame_congr hdir]
    exact hk.word _ _ (h.used _ ht) hpe
  have ht' : HasTable m' (n / 1024) := by
    unfold HasTable at ht ⊢
    rwa [hdir]
  rw [mapping_of_table ht', hentry, if_pos hpe, hm]

/-! ### The loop -/

/-- The entry for a frame of an object. -/
def shmEntry (phys : ℕ) : BitVec 32 := (BitVec.ofNat 32 phys &&& pageFrame) ||| pagePresent ||| pageRw ||| pageUser

theorem shmEntry_present (phys : ℕ) : present (shmEntry phys) := by
  unfold shmEntry
  rw [BitVec.or_assoc (_ ||| pagePresent)]
  exact present_or _ _

theorem frameOf_shmEntry {a : ℕ} (ha : a / 4096 < 2 ^ 20) (h4 : a % 4096 = 0) : frameOf (shmEntry a) = a / 4096 := by
  obtain ⟨f, rfl⟩ : ∃ f, a = f * 4096 := ⟨a / 4096, by omega⟩
  rw [Nat.mul_div_cancel _ (by norm_num)] at ha ⊢
  unfold shmEntry
  rw [frameOf_or (by decide), frameOf_or (by decide), frameOf_or (by decide), frameOf_eq, and_pageFrame_toNat,
    frameOf_ofNat ha, Nat.mul_div_cancel _ (by norm_num)]

/-- The address of page `k` after `base`. -/
def shmPage (base k : ℕ) : ℕ := add32 base (k * 0x1000)

/-- **One iteration**, when the allocator has a frame for each table that is missing: the entry is present, and
the loop ends; or it is written, and the loop goes on. -/
theorem shmMapLoop_cons {phys : ℕ} (hc : m.pmm.Used m.cr3)
    (hg : m.pmm.Grants (missing m (tablesAt base k (l.length + 1))))
    (he : m.shmMapLoop base k (phys :: l) = some (ok, m')) :
    ∃ m₁, m.pagingGetPage (shmPage base k) true (pageRw ||| pageUser) =
        some (some ⟨m₁.tableFrame (dirIndex (shmPage base k)), tableIndex (shmPage base k)⟩, m₁) ∧ PresentKept m m₁ ∧
      let q : PagePtr := ⟨m₁.tableFrame (dirIndex (shmPage base k)), tableIndex (shmPage base k)⟩
      let m₂ := m₁.store q (shmEntry phys)
      (present (m.dir (dirIndex (shmPage base k))) ∧ present (m₁.load q) ∧ m₁ = m ∧ ok = false ∧ m' = m ∨
        ¬ present (m₁.load q) ∧ m₂.pmm.Grants (missing m₂ (tablesAt base (k + 1) l.length)) ∧
          m₂.shmMapLoop base (k + 1) l = some (ok, m')) := by
  rw [tablesAt_succ] at hg
  simp only [shmMapLoop, Option.bind_eq_bind, Option.bind_eq_some_iff] at he
  obtain ⟨⟨q, m₁⟩, hget, he⟩ := he
  obtain ⟨rfl, hfound⟩ :=
    getPage_found (k := 0) (s := tablesAt base (k + 1) l.length) hc
      (by decide : ¬ large (pageRw ||| pageUser)) hg hget
  refine ⟨m₁, hget, hfound.kept, ?_⟩
  simp only at he
  split_ifs at he with hp
  · obtain ⟨rfl, hdir⟩ := hfound.entry hp
    cases he
    exact .inl ⟨hdir, hp, rfl, rfl, rfl⟩
  · have hle := missing_store (m := m₁) (shmEntry_present phys)
      ⟨m₁.tableFrame (dirIndex (shmPage base k)), tableIndex (shmPage base k)⟩ (tablesAt base (k + 1) l.length)
    exact .inr ⟨hp, hfound.grants.anti hle, he⟩

theorem hasRoom_of_tables (hg : m.pmm.Grants (missing m (tablesAt base k (n + 1)))) : HasRoom m (shmPage base k) := by
  rw [tablesAt_succ] at hg
  exact hasRoom_of_grants (k := 0) (s := tablesAt base (k + 1) n) hg

theorem shmMapLoop_kept (hc : m.pmm.Used m.cr3) (hg : m.pmm.Grants (missing m (tablesAt base k l.length)))
    (he : m.shmMapLoop base k l = some (ok, m')) : PresentKept m m' := by
  induction l generalizing k m with
  | nil =>
    cases he
    exact .refl _
  | cons phys rest ih =>
    obtain ⟨m₁, -, hk, ⟨-, -, -, -, rfl⟩ | ⟨hnp, hg, he⟩⟩ := shmMapLoop_cons hc hg he
    · exact .refl m'
    · have h1 : PresentKept m _ := hk.trans (PresentKept.store hnp (shmEntry phys))
      exact h1.trans (ih (by rw [h1.cr3]; exact h1.used _ hc) hg he)

/-- A page that is taken stops the loop. -/
theorem shmMapLoop_free (h : SpaceOK m₀) (hk : PresentKept m₀ m)
    (hg : m.pmm.Grants (missing m (tablesAt base k l.length)))
    (he : m.shmMapLoop base k l = some (true, m')) :
    ∀ j < l.length, mapping m₀ (add32 base ((k + j) * 0x1000) / 4096) = none := by
  induction l generalizing k m with
  | nil => exact fun j hj => absurd hj (Nat.not_lt_zero j)
  | cons phys rest ih =>
    have hc : m.pmm.Used m.cr3 := by
      rw [hk.cr3]
      exact hk.used _ h.cr3
    obtain ⟨m₁, -, hk₁, ⟨-, -, -, hok, -⟩ | ⟨hnp, hg, he⟩⟩ := shmMapLoop_cons hc hg he
    · exact nomatch hok
    have hk₂ := hk.trans hk₁
    intro j hj
    cases j with
    | zero =>
      by_contra hne
      obtain ⟨f, hf⟩ := Option.ne_none_iff_exists'.1 hne
      obtain ⟨-, hpe, -⟩ := mapped_table (hk₂.mapping h hf)
      exact hnp hpe
    | succ j =>
      have hrec := ih (hk₂.trans (PresentKept.store hnp _)) hg he j (by simpa using hj)
      rwa [show k + 1 + j = k + (j + 1) by omega] at hrec

/-- **A free, ordinary page** is mapped by one iteration. -/
theorem shmMapLoop_page {phys v : ℕ} (h : SpaceOK m) (hv : v % 0x1000 = 0) (ho : Ordinary m v)
    (hfree : mapping m (v / 4096) = none) (ha : phys / 4096 < 2 ^ 20 ∧ phys % 4096 = 0)
    (hr : HasRoom m v)
    (hget : m.pagingGetPage v true (pageRw ||| pageUser) =
    some (some ⟨m₁.tableFrame (dirIndex v), tableIndex v⟩, m₁)) :
    let m₂ := m₁.store ⟨m₁.tableFrame (dirIndex v), tableIndex v⟩ (shmEntry phys)
    ¬ present (m₁.load ⟨m₁.tableFrame (dirIndex v), tableIndex v⟩) ∧ SpaceOK m₂ ∧
      mapping m₂ = Function.update (mapping m) (v / 4096) (some (phys / 4096)) ∧ ∀ w, Ordinary m w →
        Ordinary m₂ w := by
  obtain ⟨m₃, hget', hready⟩ := getPage_ok h hv ho (by decide : ¬ large (pageRw ||| pageUser)) hr
  obtain ⟨-, rfl⟩ := Prod.mk.inj (Option.some.inj (hget.symm.trans hget'))
  obtain ⟨hs, hmap⟩ := storeAt_ok hready.space hready.table (.inl (shmEntry_present phys))
  rw [if_pos (shmEntry_present phys), frameOf_shmEntry ha.1 ha.2, hready.mapping] at hmap
  refine ⟨fun hp => ?_, hs, hmap, fun w hw => ?_⟩
  · rw [← hready.mapping, mapping_eq hready.table, if_pos hp] at hfree
    exact nomatch hfree
  · exact ordinary_congr (store_dir hready.space hready.table) (hready.ordinary w hw)

/-- **Over free, ordinary pages** the loop maps every frame. -/
theorem shmMapLoop_ok (h : SpaceOK m) (hb : base % 4096 = 0) (hend : base + (k + l.length) * 4096 ≤ 2 ^ 32)
    (hpages : ∀ j < l.length, Ordinary m (base + (k + j) * 4096) ∧ mapping m (base / 4096 + (k + j)) = none)
    (ha : ∀ a ∈ l, a / 4096 < 2 ^ 20 ∧ a % 4096 = 0) (hg : m.pmm.Grants (missing m (tablesAt base k l.length)))
    (he : m.shmMapLoop base k l = some (ok, m')) :
    ok = true ∧ ∀ j (hj : j < l.length), mapping m' (base / 4096 + (k + j)) = some (l[j] / 4096) := by
  induction l generalizing k m with
  | nil =>
    cases he
    exact ⟨rfl, fun j hj => absurd hj (Nat.not_lt_zero j)⟩
  | cons phys rest ih =>
    rw [List.length_cons] at hend
    have hend' : base + (k + 1 + rest.length) * 4096 ≤ 2 ^ 32 := by
      rw [Nat.add_assoc, Nat.add_comm 1]
      exact hend
    have hv : shmPage base k = base + k * 4096 := add32_of_lt (by omega)
    obtain ⟨ho, hfree⟩ := hpages 0 (by simp)
    have hr := hasRoom_of_tables hg
    obtain ⟨m₁, hget, -, hstep⟩ := shmMapLoop_cons h.cr3 hg he
    rw [hv] at hr hget hstep
    rw [Nat.add_zero] at ho hfree
    have hpg : (base + k * 4096) / 4096 = base / 4096 + k := by omega
    obtain ⟨hnp, hs, hmap, hord⟩ :=
      shmMapLoop_page h (by omega) ho (by rwa [hpg]) (ha phys List.mem_cons_self) hr hget
    obtain ⟨-, hp, -⟩ | ⟨-, hg, he⟩ := hstep
    · exact absurd hp hnp
    rw [hpg] at hmap
    have hnext : ∀ j < rest.length, Ordinary (m₁.store ⟨m₁.tableFrame (dirIndex (base + k * 4096)),
          tableIndex (base + k * 4096)⟩ (shmEntry phys)) (base + (k + 1 + j) * 4096) ∧
        mapping (m₁.store ⟨m₁.tableFrame (dirIndex (base + k * 4096)), tableIndex (base + k * 4096)⟩ (shmEntry phys))
          (base / 4096 + (k + 1 + j)) = none := by
      intro j hj
      obtain ⟨ho', hfree'⟩ := hpages (j + 1) (by simpa using hj)
      rw [show k + (j + 1) = k + 1 + j by omega] at ho' hfree'
      refine ⟨hord _ ho', ?_⟩
      rw [hmap, Function.update_of_ne (by omega), hfree']
    have ha' : ∀ a ∈ rest, a / 4096 < 2 ^ 20 ∧ a % 4096 = 0 := fun a hm => ha a (List.mem_cons_of_mem phys hm)
    obtain ⟨hok, hrest⟩ := ih hs hend' hnext ha' hg he
    refine ⟨hok, fun j hj => ?_⟩
    cases j with
    | zero =>
      -- the later iterations keep the entry
      have hkept := shmMapLoop_kept hs.cr3 hg he
      refine hkept.mapping hs ?_
      rw [hmap, Nat.add_zero, Function.update_self]
      rfl
    | succ j =>
      rw [show k + (j + 1) = k + 1 + j by omega]
      exact hrest j (by simpa using hj)

/-! ### `shm_map` -/

/-- Where `shm_map` puts an object of `n` pages. -/
@[irreducible] def shmBase (next n : ℕ) : ℕ := alignTo (sub32 next (n * 0x1000 % 2 ^ 32)) 0x1000

/-- The entry of `v` is present. -/
def Occupied (m : Machine) (v : ℕ) : Prop :=
  present (m.dir (dirIndex v)) ∧ present (m.entry (dirIndex v) (tableIndex v))

instance (m : Machine) (v : ℕ) : Decidable (Occupied m v) := inferInstanceAs (Decidable (_ ∧ _))

/-- **Room for `n` pages below `next`**: they fit above address 0, and all of them are free. -/
structure FreeBelow (m : Machine) (next n : ℕ) : Prop where
  aligned : next % 4096 = 0
  fits : n * 4096 < next
  free : ∀ k < n, Ordinary m (next - n * 4096 + k * 4096) ∧ mapping m ((next - n * 4096) / 4096 + k) = none

/-- The allocator has a frame for each page table that is missing under the `n` pages below `next`. -/
def ShmFrames (m : Machine) (next n : ℕ) : Prop := m.pmm.Grants (missing m (tablesAt (shmBase next n) 0 n))

/-- **The condition**: the region has been set up, and either the first page is taken or there is room, for the
pages and for the page tables that they need. -/
def MapWhen (m : Machine) (next n : ℕ) : Prop :=
  next ≠ 0 ∧ (Occupied m (shmBase next n) ∨ FreeBelow m next n ∧ ShmFrames m next n)

/-- **All or nothing**, for the pointer that `shm_map` returns. -/
structure AllOrNothing (s s' : Shm) (p p' : Process) (o : ShmObj) (ptr : ℕ) : Prop where
  null : ptr = 0 → mapping s'.machine = mapping s.machine ∧ p'.shmNextVirt = p.shmNextVirt ∧
    ∀ j, (s'.objs j).refcount = (s.objs j).refcount
  below : ptr ≠ 0 → ptr + 4096 * o.numPages ≤ p.shmNextVirt
  mapped : ptr ≠ 0 → ∀ k (hk : k < o.frames.length), mapping s'.machine (ptr / 4096 + k) = some (o.frames[k] / 4096)
  next : ptr ≠ 0 → p'.shmNextVirt = ptr

/-- The base of a range below `next`. -/
theorem shmBase_spec (hn : next < 2 ^ 32) (h0 : 0 < n) (hle : n < 2 ^ 20) :
    (shmBase next n ≠ 0 ∧ shmBase next n + 4096 * n ≤ next ↔ next % 4096 = 0 ∧ n * 4096 < next) ∧
      (next % 4096 = 0 → n * 4096 < next → shmBase next n = next - n * 4096) := by
  unfold shmBase sub32 alignTo add32
  rw [Nat.mod_eq_of_lt (show n * 0x1000 < 2 ^ 32 by omega)]
  constructor
  · split_ifs <;> omega
  · intro h1 h2
    split_ifs <;> omega

/-- **What `shm_map` of a live object does** is decided by the loop. -/
theorem shmMap_cases {r : Option ℕ} (hf : s.find id = some i) (hlive : Live s i) (h0 : (s.objs i).numPages ≠ 0)
    (hp : (s.objs i).pagesPhys ≠ 0) (he : s.shmMap p id = some (r, s', p')) :
    let next := if p.shmNextVirt = 0 then 0xB0000000 else p.shmNextVirt
    ∃ ok, s.machine.shmMapLoop (shmBase next (s.objs i).numPages) 0 (s.objs i).frames = some (ok, s'.machine) ∧
      if ok then r = some (shmBase next (s.objs i).numPages) ∧ p'.shmNextVirt = shmBase next (s.objs i).numPages ∧
        (s'.objs i).refcount = add32 (s.objs i).refcount 1
      else r = none ∧ p'.shmNextVirt = next ∧ s'.objs = s.objs := by
  intro next
  have hcond : ¬ ((s.objs i).id = 0 ∨ (s.objs i).numPages = 0 ∨ (s.objs i).pagesPhys = 0) := by
    rintro (hid | hn | hph)
    · exact hlive hid
    · exact h0 hn
    · exact hp hph
  unfold shmMap at he
  rw [hf] at he
  simp only at he
  rw [if_neg hcond, Option.bind_eq_bind, Option.bind_eq_some_iff] at he
  obtain ⟨⟨ok, m⟩, hloop, he⟩ := he
  refine ⟨ok, ?_⟩
  unfold shmBase
  cases ok with
  -- all pages are mapped
  | true =>
    cases he
    exact ⟨hloop, rfl, rfl, congrArg ShmObj.refcount (setObj_self _ i _)⟩
  -- one of them could not be
  | false =>
    cases he
    exact ⟨hloop, rfl, rfl, rfl⟩

/-- An object has fewer pages than there are frames. -/
theorem Frames.length_lt (h : Frames l) : l.length < 2 ^ 20 := by
  have hnd : (l.map (· / 4096)).Nodup := by
    refine List.Nodup.map_on (fun a ha b hb hab => ?_) h.nodup
    have h1 := h.aligned a ha
    have h2 := h.aligned b hb
    omega
  have hsub : (l.map (· / 4096)).toFinset ⊆ Finset.Ioo 0 (2 ^ 20) := by
    intro f hf
    obtain ⟨a, ha, rfl⟩ := List.mem_map.1 (List.mem_toFinset.1 hf)
    have h1 := h.aligned a ha
    have h2 := h.ne_zero a ha
    exact Finset.mem_Ioo.2 ⟨by omega, h.lt a ha⟩
  have hcard := Finset.card_le_card hsub
  rw [List.toFinset_card_of_nodup hnd, List.length_map, Nat.card_Ioo] at hcard
  omega

theorem shmBase_lt (next n : ℕ) : shmBase next n < 2 ^ 32 := by
  unfold shmBase sub32 alignTo add32
  split_ifs <;> omega

/-- **A first page that is taken** stops the loop at once. -/
theorem shmMapLoop_occupied (hne : l ≠ []) (hb : base < 2 ^ 32) (hocc : Occupied m base)
    (he : m.shmMapLoop base 0 l = some (ok, m')) : ok = false ∧ m' = m := by
  obtain ⟨phys, rest, rfl⟩ := List.exists_cons_of_ne_nil hne
  simp only [shmMapLoop, Option.bind_eq_bind, Option.bind_eq_some_iff] at he
  obtain ⟨⟨q, m₁⟩, hget, he⟩ := he
  rw [show add32 base (0 * 0x1000) = base from add32_of_lt (by omega)] at hget
  obtain ⟨hal, -⟩ := getPage_cases hget
  obtain ⟨rfl, rfl⟩ := Prod.mk.inj (Option.some.inj (hget.symm.trans (getPage_present hal hocc.1)))
  have hp : present (m₁.load ⟨m₁.tableFrame (dirIndex base), tableIndex base⟩) := hocc.2
  simp only [if_pos hp] at he
  cases he
  exact ⟨rfl, rfl⟩

/-- **A loop that is stopped later** leaves the first page mapped. -/
theorem shmMapLoop_partial (h : SpaceOK m) (hne : l ≠ []) (hb : base < 2 ^ 32) (ho : Ordinary m base)
    (ha : ∀ a ∈ l, a / 4096 < 2 ^ 20 ∧ a % 4096 = 0) (hg : m.pmm.Grants (missing m (tablesAt base 0 l.length)))
    (he : m.shmMapLoop base 0 l = some (ok, m')) (hocc : ¬ Occupied m base) : mapping m' ≠ mapping m := by
  obtain ⟨phys, rest, rfl⟩ := List.exists_cons_of_ne_nil hne
  have hv : shmPage base 0 = base := add32_of_lt (by omega)
  have hr := hasRoom_of_tables hg
  obtain ⟨m₁, hget, hk, hstep⟩ := shmMapLoop_cons h.cr3 hg he
  rw [hv] at hr hget hstep
  obtain ⟨hal, -⟩ := getPage_cases hget
  obtain ⟨hdir, hp, rfl, -, -⟩ | ⟨hnp, hg, he⟩ := hstep
  · exact absurd ⟨hdir, hp⟩ hocc
  have hfree : mapping m (base / 4096) = none := by
    by_contra hsome
    obtain ⟨f, hf⟩ := Option.ne_none_iff_exists'.1 hsome
    exact hnp (mapped_table (hk.mapping h hf)).2.1
  obtain ⟨-, hs, hmap, -⟩ := shmMapLoop_page h hal ho hfree (ha phys List.mem_cons_self) hr hget
  have hkept := shmMapLoop_kept hs.cr3 hg he
  intro heq
  have hfirst : mapping m' (base / 4096) = some (phys / 4096) :=
    hkept.mapping hs (by rw [hmap, Function.update_self])
  rw [heq, hfree] at hfirst
  exact nomatch hfirst

/-- **`shm_map` of a live object is all or nothing** when the region has been set up and either the first page is
taken or all of them are free in the region, with a frame for each table that is missing there; and where these frames
are found, and the first page lies neither under a 4 MiB page nor in the window of the page tables, only then. -/
theorem shm_map_all_or_nothing {r : Option ℕ} (h : SpaceOK s.machine) (hobj : ObjectsOK s) (hf : s.find id = some i)
    (hlive : Live s i) (h0 : (s.objs i).numPages ≠ 0) (hp : (s.objs i).pagesPhys ≠ 0) (hn : p.shmNextVirt < 2 ^ 32)
    (he : s.shmMap p id = some (r, s', p')) :
    (MapWhen s.machine p.shmNextVirt (s.objs i).numPages → AllOrNothing s s' p p' (s.objs i) (r.getD 0)) ∧
      (Ordinary s.machine (shmBase p.shmNextVirt (s.objs i).numPages) →
        ShmFrames s.machine p.shmNextVirt (s.objs i).numPages → AllOrNothing s s' p p' (s.objs i) (r.getD 0) →
          MapWhen s.machine p.shmNextVirt (s.objs i).numPages) := by
  have hframes := hobj.frames i hlive
  have hlen : (s.objs i).frames.length = (s.objs i).numPages := by
    unfold ShmObj.frames
    rw [List.length_take, hobj.len i hlive, Nat.min_self]
  have hlt := hframes.length_lt
  have hne : (s.objs i).frames ≠ [] := fun hnil => h0 (by rw [← hlen, hnil]; rfl)
  have hfr : ∀ a ∈ (s.objs i).frames, a / 4096 < 2 ^ 20 ∧ a % 4096 = 0 :=
    fun a ha => ⟨hframes.lt a ha, hframes.aligned a ha⟩
  rw [hlen] at hlt
  obtain ⟨hrange, hbase⟩ := shmBase_spec hn (Nat.pos_of_ne_zero h0) hlt
  have hblt := shmBase_lt p.shmNextVirt (s.objs i).numPages
  obtain ⟨ok, hloop, hres⟩ := shmMap_cases hf hlive h0 hp he
  constructor
  · rintro ⟨hn0, hocc | ⟨hfree, hg⟩⟩
    · rw [if_neg hn0] at hloop hres
      obtain ⟨rfl, hm⟩ := shmMapLoop_occupied hne hblt hocc hloop
      obtain ⟨rfl, hp', hobjs⟩ := hres
      exact ⟨fun _ => ⟨by rw [hm], hp', fun j => by rw [hobjs]⟩, fun hc => absurd rfl hc, fun hc => absurd rfl hc,
        fun hc => absurd rfl hc⟩
    · rw [if_neg hn0] at hloop hres
      have hb := hbase hfree.aligned hfree.fits
      have hpos := hfree.fits
      have hal := hfree.aligned
      have hpages : ∀ j < (s.objs i).frames.length,
        Ordinary s.machine (shmBase p.shmNextVirt (s.objs i).numPages + (0 + j) * 4096) ∧
          mapping s.machine (shmBase p.shmNextVirt (s.objs i).numPages / 4096 + (0 + j)) = none := by
        intro j hj
        rw [Nat.zero_add, hb]
        exact hfree.free j (hlen ▸ hj)
      have hbal : shmBase p.shmNextVirt (s.objs i).numPages % 4096 = 0 := by
        rw [hb]
        omega
      have hend : shmBase p.shmNextVirt (s.objs i).numPages + (0 + (s.objs i).frames.length) * 4096 ≤ 2 ^ 32 := by
        rw [hb, hlen]
        omega
      obtain ⟨rfl, hmapped⟩ := shmMapLoop_ok (k := 0) h hbal hend hpages hfr (by rw [hlen]; exact hg) hloop
      obtain ⟨rfl, hp', -⟩ := hres
      rw [Option.getD_some]
      refine ⟨fun hz => ?_, fun _ => ?_, fun _ k hk => ?_, fun _ => hp'⟩
      · exfalso
        omega
      · omega
      · have hk' := hmapped k hk
        rwa [Nat.zero_add] at hk'
  · intro ho hg hP
    have hgl : s.machine.pmm.Grants
      (missing s.machine (tablesAt (shmBase p.shmNextVirt (s.objs i).numPages) 0 (s.objs i).frames.length)) := by
      rw [hlen]
      exact hg
    cases ok with
    | false =>
      obtain ⟨rfl, hp', -⟩ := hres
      obtain ⟨hmap, hnext, -⟩ := hP.null rfl
      have hn0 : p.shmNextVirt ≠ 0 := by
        intro hz
        rw [if_pos hz, hnext, hz] at hp'
        exact absurd hp' (by norm_num)
      rw [if_neg hn0] at hloop
      refine ⟨hn0, .inl ?_⟩
      by_contra hocc
      exact shmMapLoop_partial h hne hblt ho hfr hgl hloop hocc hmap
    | true =>
      obtain ⟨rfl, hp', href⟩ := hres
      rw [Option.getD_some] at hP
      have hb0 : shmBase (if p.shmNextVirt = 0 then 0xB0000000 else p.shmNextVirt) (s.objs i).numPages ≠ 0 := by
        intro hz
        -- NULL was returned, but the object was counted
        obtain ⟨-, -, hcount⟩ := hP.null hz
        rw [hcount i] at href
        unfold add32 at href
        omega
      have hbelow := hP.below hb0
      have hmapped := hP.mapped hb0
      have hn0 : p.shmNextVirt ≠ 0 := by
        intro hz
        rw [hz] at hbelow
        omega
      rw [if_neg hn0] at hloop hb0 hbelow hmapped
      obtain ⟨hal, hfits⟩ := hrange.1 ⟨hb0, hbelow⟩
      have hb := hbase hal hfits
      have hkept := shmMapLoop_kept h.cr3 hgl hloop
      have hfree := shmMapLoop_free h (.refl _) hgl hloop
      rw [hb] at hmapped hfree
      refine ⟨hn0, .inr ⟨⟨hal, hfits, fun k hk => ⟨?_, ?_⟩⟩, hg⟩⟩
      · have hpg : (p.shmNextVirt - (s.objs i).numPages * 4096 + k * 4096) / 4096 =
            (p.shmNextVirt - (s.objs i).numPages * 4096) / 4096 + k := by omega
        have hm := hmapped k (hlen.symm ▸ hk)
        rw [← hpg] at hm
        obtain ⟨ht, -, -⟩ := mapped_table hm
        refine ⟨ht.1, fun hpr => ?_⟩
        rw [← hkept.dir h.cr3 hpr]
        exact ht.2.2
      · have hv := hfree k (hlen.symm ▸ hk)
        rw [Nat.zero_add, add32_of_lt (by omega)] at hv
        rwa [show (p.shmNextVirt - (s.objs i).numPages * 4096 + k * 0x1000) / 4096 =
          (p.shmNextVirt - (s.objs i).numPages * 4096) / 4096 + k by omega] at hv

/-! ### A page that is taken -/

/-- Frames 5 and 6 are taken as well. -/
def twoTaken : Machine := bareSpace.withPmm ((bareSpace.pmm.mmapSet 5).mmapSet 6)

theorem twoTaken_ok : SpaceOK twoTaken :=
  bareSpace_ok.withPmm_mono fun b hb => by simp [hb]

/-- One object, with these two frames. -/
def sharing (m : Machine) : Shm where
  objs i := if i.val = 0 then ⟨1, 0x2000, 2, 0xC0400014, [0x5000, 0x6000], 1⟩ else .zero
  nextId := 2
  heap := ⟨fun _ => 0, 0, 0, 0⟩
  machine := m

theorem sharing_machine (m : Machine) : (sharing m).machine = m := rfl

/-- A process that has not mapped anything. -/
def client : Process := ⟨0, 1, 1, 0x1000, 0, 0, 0, 0xB0000000, 0⟩

theorem sharing_live {j : Fin shmMaxObjects} (hj : Live (sharing m) j) :
    j.val = 0 ∧ (sharing m).objs j = ⟨1, 0x2000, 2, 0xC0400014, [0x5000, 0x6000], 1⟩ := by
  unfold Live sharing at *
  simp only at hj ⊢
  split_ifs at hj ⊢ with h0
  · exact ⟨h0, rfl⟩
  · exact absurd rfl hj

theorem sharing_ok (h5 : m.pmm.Used 5) (h6 : m.pmm.Used 6) : ObjectsOK (sharing m) := by
  have hmem : ∀ a, a ∈ [0x5000, 0x6000] ↔ a = 0x5000 ∨ a = 0x6000 := by simp
  refine ⟨?_, ?_, ?_, ?_⟩
  · intro j hj
    rw [(sharing_live hj).2]
    rfl
  · intro j hj
    rw [(sharing_live hj).2]
    refine ⟨by decide, ?_, ?_, ?_⟩ <;> intro a ha <;> rcases (hmem a).1 ha with rfl | rfl <;> norm_num
  · intro j hj a ha
    rw [(sharing_live hj).2] at ha
    rcases (hmem a).1 ha with rfl | rfl
    · exact h5
    · exact h6
  · intro j k hj hk a _ _
    exact Fin.ext ((sharing_live hj).1.trans (sharing_live hk).1.symm)

/-- Both pages are free: the object is mapped below the region's end. -/
theorem shm_map_all_or_nothing_two : ∃ s' p', (sharing twoTaken).shmMap client 1 = some (some 0xAFFFE000, s', p') ∧
    AllOrNothing (sharing twoTaken) s' client p' ((sharing twoTaken).objs ⟨0, by decide⟩) 0xAFFFE000 := by
  have hrun : ((sharing twoTaken).shmMap client 1).map Prod.fst = some (some 0xAFFFE000) := by decide +kernel
  obtain ⟨⟨r, s', p'⟩, he, rfl⟩ := Option.map_eq_some_iff.1 hrun
  have hlive : Live (sharing twoTaken) ⟨0, by decide⟩ := Nat.one_ne_zero
  have hfree : FreeBelow (sharing twoTaken).machine client.shmNextVirt 2 := by
    refine ⟨by decide, by decide, fun k hk => ?_⟩
    interval_cases k <;> exact ⟨⟨by decide, fun hp => absurd hp (by decide +kernel)⟩, by decide +kernel⟩
  have hgrants : ShmFrames (sharing twoTaken).machine client.shmNextVirt 2 := by
    -- both pages are under the same table
    unfold ShmFrames
    rw [sharing_machine, shmBase]
    decide +kernel
  exact ⟨s', p', he, (shm_map_all_or_nothing twoTaken_ok (sharing_ok (by decide +kernel) (by decide +kernel))
    (by decide +kernel) hlive (by decide) (by decide) (by decide) he).1 ⟨by decide, .inr ⟨hfree, hgrants⟩⟩⟩

/-- The upper one of the two pages is taken, as by a segment of the program. -/
def upperTaken : Machine := (twoTaken.pagingMapPage 0xAFFFF000 0x7000 7).getD twoTaken

theorem upperTaken_ok : SpaceOK upperTaken := by
  have ho : Ordinary twoTaken 0xAFFFF000 := ⟨by decide, fun hp => absurd hp (by decide +kernel)⟩
  have hroom : HasRoom twoTaken 0xAFFFF000 :=
    .inr ⟨2 * 4096, _, pmmAllocPage_eq (by decide +kernel) (by decide +kernel : twoTaken.pmm.mmapFindFree = 2),
      by decide⟩
  have hfree : mapping twoTaken (0xAFFFF000 / 4096) = none := by decide +kernel
  obtain ⟨m, hm, hs, -⟩ := @map_spec _ twoTaken_ok _ (by norm_num) ho 0x7000 7 (by decide) hroom hfree
  have heq : upperTaken = m := congrArg (Option.getD · twoTaken) hm
  rwa [heq]

/-- **A call that fails** leaves the lower page mapped. -/
theorem shm_map_partial : ∃ s' p', SpaceOK (sharing upperTaken).machine ∧ ObjectsOK (sharing upperTaken) ∧
    (sharing upperTaken).shmMap client 1 = some (none, s', p') ∧ mapping upperTaken 0xAFFFE = none ∧
    mapping s'.machine 0xAFFFE = some 5 ∧
    ¬ AllOrNothing (sharing upperTaken) s' client p' ((sharing upperTaken).objs ⟨0, by decide⟩) 0 := by
  have hrun : ((sharing upperTaken).shmMap client 1).map (fun x => (x.1, mapping x.2.1.machine 0xAFFFE)) =
      some (none, some 5) := by decide +kernel
  obtain ⟨⟨r, s', p'⟩, he, hx⟩ := Option.map_eq_some_iff.1 hrun
  obtain ⟨rfl, hmap⟩ := Prod.mk.inj hx
  have hnone : mapping upperTaken 0xAFFFE = none := by decide +kernel
  refine ⟨s', p', ?_, sharing_ok (by decide +kernel) (by decide +kernel), he, hnone, hmap, fun hP => ?_⟩
  · rw [sharing_machine]
    exact upperTaken_ok
  · have hsame := (hP.null rfl).1
    rw [sharing_machine] at hsame
    rw [hsame, hnone] at hmap
    exact nomatch hmap

end Saynaa
