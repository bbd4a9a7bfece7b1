import Saynaa.Proof.AddressSpace
import Saynaa.Sys.Proc

/-!
# The heap break and the page tables

* `HeapPages m h b t`: in the heap area, pages `[h, t)`, exactly the pages `[h, b)` are
  mapped, each to a frame of its own.
* `allocLoop_ok`, `unmapLoop_ok`: the two loops move `b`.
* `sbrk_loses_page`: `proc_sbrk` does not move `b` to the new break. A shrink may unmap a
  page below the new break, leave one above it, or move the break below the heap.
* `sbrk_agrees`: in runs of calls that meet `SbrkWhen` it does.
-/

namespace Saynaa

open Machine

variable {m m' : Machine} {h b t : ℕ}

/-- **The heap area** `[h, t)` with the pages `[h, b)` mapped, to distinct frames that are
taken and hold no paging structure. -/
structure HeapPages (m : Machine) (h b t : ℕ) : Prop where
  space : SpaceOK m
  lo : h ≤ b
  hi : b ≤ t
  ord : ∀ n, h ≤ n → n < t → Ordinary m (n * 4096)
  free : ∀ n, b ≤ n → n < t → mapping m n = none
  own : ∀ n, h ≤ n → n < b → ∃ f, mapping m n = some f ∧ m.pmm.Used f ∧ f ≠ 0 ∧ NotPaging m f
  inj : ∀ n k, h ≤ n → n < b → h ≤ k → k < b → mapping m n = mapping m k → n = k

/-- A change of entries and of the allocator that keeps the directory. -/
theorem notPaging_congr (hc : m'.cr3 = m.cr3) (hd : ∀ i, m'.dir i = m.dir i) {f : ℕ}
    (hf : NotPaging m f) : NotPaging m' f := by
  refine ⟨by rw [hc]; exact hf.1, fun i hi => ?_⟩
  rw [tableFrame_congr (hd i)]
  apply hf.2 i
  unfold HasTable at hi ⊢
  rwa [hd] at hi

theorem ordinary_congr (hd : ∀ i, m'.dir i = m.dir i) {v : ℕ} (hv : Ordinary m v) : Ordinary m' v := by
  unfold Ordinary at hv ⊢; rwa [hd]

/-- **One page more**: an iteration of the loop of `paging_alloc_pages`. -/
theorem HeapPages.alloc (hp : HeapPages m h b t) (hb : b < t) {r : ℕ} {p : Pmm}
    (hal : m.pmm.pmmAllocPage = some (r, p)) (hr : r ≠ 0) {q : Option PagePtr} {m₁ : Machine}
    (hget : (m.withPmm p).pagingGetPage (b * 4096) true (pageRw ||| pageUser) = some (q, m₁))
    (hl : m₁.tableLost = false) :
    ∃ ptr, q = some ptr ∧
      let m' := m₁.store ptr (BitVec.ofNat 32 r ||| pagePresent ||| pageRw ||| pageUser)
      HeapPages m' h (b + 1) t ∧ (∀ n, n ≠ b → mapping m' n = mapping m n) := by
  obtain ⟨f, rfl, hf0, hfl, hff, hused⟩ := allocPage_frame hal hr
  have hmono : ∀ c, m.pmm.Used c → p.Used c := fun c hc => (hused c).2 (.inl hc)
  have hv : b * 4096 % 0x1000 = 0 := by omega
  have hpg : b * 4096 / 4096 = b := by omega
  have ho : Ordinary (m.withPmm p) (b * 4096) := hp.ord b hp.lo hb
  have h₀ : SpaceOK (m.withPmm p) := hp.space.withPmm_mono hmono
  obtain ⟨m₂, hget', hready⟩ := getPage_ok h₀ hv ho (by decide : ¬ large (pageRw ||| pageUser))
    (hasRoom_of_getPage hv hget hl)
  obtain ⟨rfl, rfl⟩ := Prod.mk.inj (Option.some.inj (hget.symm.trans hget'))
  refine ⟨_, rfl, ?_⟩
  intro m'
  set e : BitVec 32 := BitVec.ofNat 32 (f * 4096) ||| pagePresent ||| pageRw ||| pageUser with he
  have hpe : present e := by
    rw [he, BitVec.or_assoc (_ ||| pagePresent)]; exact present_or _ _
  have hfe : frameOf e = f := by
    rw [he, frameOf_or (by decide), frameOf_or (by decide), frameOf_or (by decide), frameOf_ofNat hfl]
  obtain ⟨hs, hmap⟩ := storeAt_ok hready.space hready.table (.inl hpe)
  rw [if_pos hpe, hfe, hpg, hready.mapping, withPmm_mapping] at hmap
  have hdir : ∀ i, m'.dir i = m₁.dir i := store_dir hready.space hready.table
  have hpriv : ∀ g, p.Used g → NotPaging m g → NotPaging m' g :=
    fun g hg hn => notPaging_congr (show m'.cr3 = m₁.cr3 from rfl) hdir (hready.notPaging g hg hn)
  have hfn : NotPaging m f :=
    ⟨fun hh => hff (hh ▸ hp.space.cr3), fun i hi hh => hff (hh ▸ hp.space.used i hi)⟩
  have hne : ∀ n, n ≠ b → mapping m' n = mapping m n := fun n hn => by
    rw [hmap, Function.update_of_ne hn]
  have hbf : mapping m' b = some f := by rw [hmap, Function.update_self]
  have hold : ∀ n, h ≤ n → n < b → ∃ g, mapping m n = some g ∧ g ≠ f := by
    intro n h1 h2
    obtain ⟨g, hg, hu, -⟩ := hp.own n h1 h2
    exact ⟨g, hg, fun hh => hff (hh ▸ hu)⟩
  refine ⟨⟨hs, by have := hp.lo; omega, hb, ?_, ?_, ?_, ?_⟩, hne⟩
  · intro n h1 h2
    exact ordinary_congr hdir (hready.ordinary _ (hp.ord n h1 h2))
  · intro n h1 h2
    rw [hne n (by omega)]; exact hp.free n (by omega) h2
  · intro n h1 h2
    rcases Nat.lt_or_ge n b with hn | hn
    · obtain ⟨g, hg, hu, hg0, hgn⟩ := hp.own n h1 hn
      exact ⟨g, by rw [hne n (by omega)]; exact hg, hready.mono g (hmono g hu), hg0,
        hpriv g (hmono g hu) hgn⟩
    · obtain rfl : n = b := by omega
      exact ⟨f, hbf, hready.mono f ((hused f).2 (.inr rfl)), hf0, hpriv f ((hused f).2 (.inr rfl)) hfn⟩
  · intro n k h1 h2 h3 h4 hnk
    -- the new frame is the only one that was not taken before
    by_cases hn : n = b <;> by_cases hk : k = b
    · omega
    · subst hn
      obtain ⟨g, hg, hgf⟩ := hold k h3 (by omega)
      rw [hbf, hne k hk, hg] at hnk
      exact absurd (Option.some.inj hnk).symm hgf
    · subst hk
      obtain ⟨g, hg, hgf⟩ := hold n h1 (by omega)
      rw [hbf, hne n hn, hg] at hnk
      exact absurd (Option.some.inj hnk) hgf
    · rw [hne n hn, hne k hk] at hnk
      exact hp.inj n k h1 (by omega) h3 (by omega) hnk

/-- **One page less**: `paging_unmap_page` of the last heap page. -/
theorem HeapPages.unmapLast (hp : HeapPages m h b t) (hb : h < b)
    (he : m.pagingUnmapPage ((b - 1) * 4096) = some m') :
    HeapPages m' h (b - 1) t ∧ (∀ n, n ≠ b - 1 → mapping m' n = mapping m n) := by
  have hv : (b - 1) * 4096 % 0x1000 = 0 := by omega
  have hpg : (b - 1) * 4096 / 4096 = b - 1 := by omega
  obtain ⟨f, hf, hu, hf0, hfn⟩ := hp.own (b - 1) (by omega) (by omega)
  rw [← hpg] at hf
  obtain ⟨ht, -, hfr⟩ := mapped_table hf
  obtain ⟨m₂, he₂, hs, hpmm, hmap, hcr, hdir⟩ := unmap_table hp.space hv ht hfr hfn
  obtain rfl := Option.some.inj (he.symm.trans he₂)
  rw [hpg] at hmap hf
  have hne : ∀ n, n ≠ b - 1 → mapping m' n = mapping m n := fun n hn => by
    rw [hmap, Function.update_of_ne hn]
  refine ⟨⟨hs, by omega, by have := hp.hi; omega, ?_, ?_, ?_, ?_⟩, hne⟩
  · intro n h1 h2; exact ordinary_congr hdir (hp.ord n h1 h2)
  · intro n h1 h2
    by_cases hn : n = b - 1
    · -- the unmapped page
      rw [hn, hmap, Function.update_self]
    · rw [hne n hn]; exact hp.free n (by omega) h2
  · intro n h1 h2
    obtain ⟨g, hg, hgu, hg0, hgn⟩ := hp.own n h1 (by omega)
    -- the freed frame is that of no other page
    have hgf : g ≠ f := by
      intro hh
      have := hp.inj n (b - 1) h1 (by omega) (by omega) (by omega) (by rw [hg, hf, hh])
      omega
    refine ⟨g, by rw [hne n (by omega)]; exact hg, ?_, hg0, notPaging_congr hcr hdir hgn⟩
    rw [hpmm]; exact (used_mmapUnset f g).2 ⟨hgf, hgu⟩
  · intro n k h1 h2 h3 h4 hnk
    rw [hne n (by omega), hne k (by omega)] at hnk
    exact hp.inj n k h1 (by omega) h3 (by omega) hnk

/-- `paging_unmap_page` of the page behind the heap: the map stays, though block 0 may be
marked as free. -/
theorem HeapPages.unmapBehind (hp : HeapPages m h b t) (hb : b < t)
    (he : m.pagingUnmapPage (b * 4096) = some m') :
    HeapPages m' h b t ∧ mapping m' = mapping m := by
  have hv : b * 4096 % 0x1000 = 0 := by omega
  have hpg : b * 4096 / 4096 = b := by omega
  have hn : mapping m (b * 4096 / 4096) = none := by rw [hpg]; exact hp.free b le_rfl hb
  by_cases hpr : present (m.dir (dirIndex (b * 4096)))
  · have ht := (hp.ord b hp.lo hb).hasTable hpr
    have h0 : frameOf (m.load ⟨m.tableFrame (dirIndex (b * 4096)), tableIndex (b * 4096)⟩) = 0 := by
      rw [unmapped_entry hp.space ht hn]; rfl
    have hnp : NotPaging m 0 :=
      ⟨hp.space.cr3_ne.symm, fun i hi => (hp.space.ne_zero i hi).symm⟩
    obtain ⟨m₂, he₂, hs, hpmm, hmap, hcr, hdir⟩ := unmap_table hp.space hv ht h0 hnp
    obtain rfl := Option.some.inj (he.symm.trans he₂)
    have hmap' : mapping m' = mapping m := by rw [hmap, ← hn, Function.update_eq_self]
    refine ⟨⟨hs, hp.lo, hp.hi, fun n h1 h2 => ordinary_congr hdir (hp.ord n h1 h2), ?_, ?_, ?_⟩, hmap'⟩
    · rw [hmap']; exact hp.free
    · intro n h1 h2
      obtain ⟨g, hg, hgu, hg0, hgn⟩ := hp.own n h1 h2
      refine ⟨g, by rw [hmap']; exact hg, ?_, hg0, notPaging_congr hcr hdir hgn⟩
      rw [hpmm]; exact (used_mmapUnset 0 g).2 ⟨hg0, hgu⟩
    · rw [hmap']; exact hp.inj
  · obtain rfl := Option.some.inj (he.symm.trans (unmap_absent hv hpr))
    exact ⟨hp, rfl⟩

/-! ### The loops -/

theorem getPage_lost {v : ℕ} {c : Bool} {flags : BitVec 32} {q : Option PagePtr}
    (he : m.pagingGetPage v c flags = some (q, m')) (hl : m'.tableLost = false) :
    m.tableLost = false := by
  obtain ⟨-, rfl | ⟨-, -, hc⟩, -⟩ := getPage_cases he
  · exact hl
  · obtain ⟨r, p, -, -, -, hlost⟩ := createTable_cases hc
    rw [hlost] at hl
    exact (Bool.or_eq_false_iff.1 hl).1

theorem allocLoop_lost {v : ℕ} : ∀ (k : ℕ) {i : ℕ} {m m' : Machine} {ok : Bool},
    m.pagingAllocLoop v i k = some (ok, m') → m'.tableLost = false → m.tableLost = false := by
  intro k
  induction k with
  | zero => intro i m m' ok he hl; cases he; exact hl
  | succ k ih =>
    intro i m m' ok he hl
    simp only [pagingAllocLoop, Option.bind_eq_bind, Option.bind_eq_some_iff] at he
    obtain ⟨⟨r, p⟩, -, he⟩ := he
    split_ifs at he
    · cases he; exact hl
    · simp only [Option.bind_eq_some_iff] at he
      obtain ⟨⟨q, m₁⟩, hget, ptr, -, he⟩ := he
      have hl₁ : m₁.tableLost = false := ih (m := m₁.store ptr _) he hl
      have hl₀ : (m.withPmm p).tableLost = false := getPage_lost hget hl₁
      exact hl₀

/-- `paging_alloc_pages` of `k` pages behind the heap, when no page table is lost. -/
theorem allocLoop_ok {v : ℕ} : ∀ (k : ℕ) {i b : ℕ} {m m' : Machine}, HeapPages m h b t →
    v + i * 0x1000 = b * 4096 → b + k ≤ t → t ≤ 1023 * 1024 →
    m.pagingAllocLoop v i k = some (true, m') → m'.tableLost = false →
    HeapPages m' h (b + k) t ∧ ∀ n, n < b → mapping m' n = mapping m n := by
  intro k
  induction k with
  | zero =>
    intro i b m m' hp _ _ _ he _
    simp only [pagingAllocLoop, Option.some.injEq, Prod.mk.injEq, true_and] at he
    subst he
    exact ⟨hp, fun _ _ => rfl⟩
  | succ k ih =>
    intro i b m m' hp hv hbk ht he hl
    simp only [pagingAllocLoop, Option.bind_eq_bind, Option.bind_eq_some_iff] at he
    obtain ⟨⟨r, p⟩, hal, he⟩ := he
    split_ifs at he with hr
    · simp at he
    simp only [Option.bind_eq_some_iff] at he
    obtain ⟨⟨q, m₁⟩, hget, ptr, hq, he⟩ := he
    have hadd : add32 v (i * 0x1000) = b * 4096 := by unfold add32; omega
    rw [hadd] at hget
    have hl₁ : m₁.tableLost = false := allocLoop_lost (m := m₁.store ptr _) k he hl
    obtain ⟨ptr', hq', hp₁, hm₁⟩ := hp.alloc (by omega) hal hr hget hl₁
    obtain rfl := Option.some.inj (hq.symm.trans hq')
    obtain ⟨hp₂, hm₂⟩ := ih (i := i + 1) hp₁ (by linarith) (by omega) ht he hl
    rw [Nat.add_right_comm] at hp₂
    refine ⟨hp₂, fun n hn => ?_⟩
    rw [hm₂ n (by omega), hm₁ n (by omega)]

/-- Unmapping `k` pages from the last heap page down. -/
theorem unmapLoop_ok {v : ℕ} : ∀ (k : ℕ) {i b : ℕ} {m m' : Machine}, HeapPages m h b t →
    b * 4096 + 0x1000 * i = v + 0x1000 → h + k ≤ b → b + i ≤ 2 ^ 20 →
    m.unmapLoop v i k = some m' →
    HeapPages m' h (b - k) t ∧ ∀ n, n < b - k → mapping m' n = mapping m n := by
  intro k
  induction k with
  | zero =>
    intro i b m m' hp _ _ _ he
    simp only [unmapLoop, Option.some.injEq] at he
    subst he
    exact ⟨hp, fun _ _ => rfl⟩
  | succ k ih =>
    intro i b m m' hp hv hbk hbi he
    simp only [unmapLoop, Option.bind_eq_bind, Option.bind_eq_some_iff] at he
    obtain ⟨m₁, he₁, he₂⟩ := he
    have hsub : sub32 v (0x1000 * i) = (b - 1) * 4096 := by unfold sub32; omega
    rw [hsub] at he₁
    obtain ⟨hp₁, hm₁⟩ := hp.unmapLast (by omega) he₁
    have hv' : (b - 1) * 4096 + 0x1000 * (i + 1) = v + 0x1000 := by
      rw [← hv, Nat.sub_mul, Nat.mul_add]; omega
    obtain ⟨hp₂, hm₂⟩ := ih (i := i + 1) hp₁ hv' (by omega) (by omega) he₂
    rw [Nat.sub_sub, Nat.add_comm] at hp₂
    refine ⟨hp₂, fun n hn => ?_⟩
    rw [hm₂ n (by omega), hm₁ n (by omega)]

/-! ### `proc_sbrk` -/

/-- `H`, where the heap of a process begins. -/
def Process.heapBase (p : Process) : ℕ := 0x1000 + 0x1000 * p.codeLen

/-- The heap break. -/
def Process.brk (p : Process) : ℕ := p.heapBase + p.memLen

/-- The first page that lies behind the break. -/
def Process.brkPage (p : Process) : ℕ := (p.brk + 0xFFF) / 0x1000

/-- The heap of `p` in its area, which ends before page `t`. -/
structure HeapOK (t : ℕ) (m : Machine) (p : Process) : Prop where
  pages : HeapPages m (p.codeLen + 1) p.brkPage t
  fits : p.brk ≤ t * 0x1000
  top : t ≤ 1023 * 1024

/-- What a right call of `proc_sbrk` does. -/
structure SbrkDone (t : ℕ) (m m' : Machine) (p p' : Process) (size : ℤ) (r : ℕ) : Prop where
  ok : HeapOK t m' p'
  ret : r = p.brk
  base : p'.heapBase = p.heapBase
  len : (p'.memLen : ℤ) = p.memLen + size
  keep : ∀ n, n * 0x1000 < p.brk → n * 0x1000 < p'.brk → mapping m' n = mapping m n

/-- **When `proc_sbrk` frees the right pages.** A grow has to stay in the heap area. A
shrink by `s` bytes must not exceed the heap; where the last page holds `e` bytes, it must
stay inside that page and leave it nonempty, or leave it and round `e + s` up to the pages
that it really empties. A break on a page boundary (`e = 0`) needs a shrink by less than a
page, or by two or more whole pages with room for one more page in the area. -/
def SbrkWhen (t : ℕ) (p : Process) (size : ℤ) : Prop :=
  let s := size.natAbs
  let e := p.memLen % 0x1000
  (0 < size → p.brk + s ≤ t * 0x1000) ∧
  (size < 0 → s ≤ p.memLen ∧
    if e ≠ 0 then s < e ∨ e < s ∧ divideUp (e + s) 0x1000 = 1 + (s - e) / 0x1000
    else s < 0x1000 ∨ 0x1000 < s ∧ 0x1000 ∣ s ∧ p.brk < t * 0x1000)

instance (t : ℕ) (p : Process) (size : ℤ) : Decidable (SbrkWhen t p size) :=
  inferInstanceAs (Decidable ((0 < size → _ ≤ _) ∧ (size < 0 → _ ≤ _ ∧ _)))

section Sbrk

variable {p p' : Process} {size : ℤ} {r : ℕ}

theorem HeapOK.brk_le (hp : HeapOK t m p) : p.brk + 0x1000 ≤ 2 ^ 32 := by
  have := hp.fits; have := hp.top; omega

theorem HeapOK.brk_lt (hp : HeapOK t m p) : p.brk < 2 ^ 32 := by
  have := hp.brk_le; omega

theorem HeapOK.endAddr (hp : HeapOK t m p) :
    (0x1000 + 0x1000 * p.codeLen + p.memLen) % 2 ^ 32 = p.brk := Nat.mod_eq_of_lt hp.brk_lt

theorem brk_mod (p : Process) : p.brk % 0x1000 = p.memLen % 0x1000 := by
  unfold Process.brk Process.heapBase; omega

theorem brk_add (hc : p'.codeLen = p.codeLen) (hl : (p'.memLen : ℤ) = p.memLen + size) :
    (p'.brk : ℤ) = p.brk + size := by
  unfold Process.brk Process.heapBase
  rw [hc]
  push_cast
  linarith

/-- The pages follow a break that moved. -/
theorem HeapOK.moved (hp : HeapOK t m p) (hc : p'.codeLen = p.codeLen)
    (hl : (p'.memLen : ℤ) = p.memLen + size) {b : ℕ} (hb : b = (p'.brk + 0xFFF) / 0x1000)
    (hpages : HeapPages m' (p.codeLen + 1) b t)
    (hkeep : ∀ n, n < p.brkPage → n < b → mapping m' n = mapping m n) :
    SbrkDone t m m' p p' size p.brk := by
  have hpage : p.brkPage = (p.brk + 0xFFF) / 0x1000 := rfl
  refine ⟨⟨?_, ?_, hp.top⟩, rfl, by unfold Process.heapBase; rw [hc], hl, ?_⟩
  · rw [hb] at hpages
    rw [hc]
    exact hpages
  · have := hpages.hi
    omega
  · intro n h1 h2
    exact hkeep n (by omega) (by omega)

/-- The bytes that are left in the last page. -/
theorem remaining_eq (p : Process) :
    p.brk + (if p.brk % 0x1000 ≠ 0 then 0x1000 - p.brk % 0x1000 else 0) = p.brkPage * 0x1000 := by
  unfold Process.brkPage
  split_ifs <;> omega

theorem alignTo_brk (hlt : p.brk + 0x1000 ≤ 2 ^ 32) : alignTo p.brk 0x1000 = p.brkPage * 0x1000 := by
  have hadd : ∀ e < 0x1000, add32 p.brk e = p.brk + e := fun e he => add32_of_lt (by omega)
  unfold alignTo Process.brkPage
  split_ifs with h0
  · omega
  · rcases Nat.eq_zero_or_pos (p.brk % 0x1000) with h | h
    · omega
    · rw [hadd _ (by omega)]; omega

/-- **Growing the heap.** -/
theorem sbrk_grow (hp : HeapOK t m p) (hs : 0 < size) (hw : SbrkWhen t p size)
    (he : procSbrk m p size = some (some r, m', p')) (hl : m'.tableLost = false) :
    SbrkDone t m m' p p' size r := by
  obtain ⟨n, rfl⟩ := Int.eq_ofNat_of_zero_le hs.le
  have hroom : p.brk + n ≤ t * 0x1000 := hw.1 hs
  have ht := hp.top
  have hR := remaining_eq p
  have hbase : p.brk = p.heapBase + p.memLen := rfl
  have hpage : p.brkPage = (p.brk + 0xFFF) / 0x1000 := rfl
  have hlen : ofInt (p.memLen + n) = p.memLen + n := by unfold ofInt; omega
  simp only [procSbrk, hp.endAddr, hlen, alignTo_brk hp.brk_le] at he
  rw [if_pos hs] at he
  generalize (if p.brk % 0x1000 ≠ 0 then 0x1000 - p.brk % 0x1000 else 0) = R at he hR
  split_ifs at he with hrem
  · -- new pages are allocated
    simp only [Option.bind_eq_bind, Option.bind_eq_some_iff] at he
    obtain ⟨⟨ok, m₁⟩, hal, he⟩ := he
    split_ifs at he with hok
    · cases he
      set p' : Process := { p with memLen := p.memLen + n } with hp'
      have hbrk : (p'.brk : ℤ) = p.brk + n := brk_add rfl (by simp [hp'])
      set k := divideUp (ofInt (n - R)) 0x1000 with hk
      have hkk : p.brkPage + k = (p'.brk + 0xFFF) / 0x1000 := by
        have hneed : ofInt (n - R) = n - R := by unfold ofInt; omega
        rw [hk, hneed, divideUp_eq (by decide)]
        omega
      have hok' : ok = true := hok.1
      subst hok'
      obtain ⟨hpages, hmap⟩ := allocLoop_ok k hp.pages (Nat.add_zero _) (by omega) ht hal hl
      exact hp.moved rfl (by simp [hp']) hkk hpages fun i hi _ => hmap i hi
    · cases he
  · -- the last page has room for all
    cases he
    set p' : Process := { p with memLen := p.memLen + n } with hp'
    have hbrk : (p'.brk : ℤ) = p.brk + n := brk_add rfl (by simp [hp'])
    exact hp.moved rfl (by simp [hp']) (by omega) hp.pages fun _ _ _ => rfl

/-- **Shrinking the heap.** -/
theorem sbrk_shrink (hp : HeapOK t m p) (hs : size < 0) (hw : SbrkWhen t p size)
    (he : procSbrk m p size = some (some r, m', p')) : SbrkDone t m m' p p' size r := by
  obtain ⟨s, hs'⟩ : ∃ s : ℕ, size = -s := ⟨size.natAbs, by omega⟩
  subst hs'
  obtain ⟨hle, hw⟩ := hw.2 hs
  have hs0 : 0 < s := by omega
  rw [show (-(s : ℤ)).natAbs = s by omega, ← brk_mod] at hw
  rw [show (-(s : ℤ)).natAbs = s by omega] at hle
  have ht := hp.top
  have hfit := hp.fits
  have hR := remaining_eq p
  have hbase : p.brk = 0x1000 + 0x1000 * p.codeLen + p.memLen := rfl
  have hpage : p.brkPage = (p.brk + 0xFFF) / 0x1000 := rfl
  have hlen : ofInt (p.memLen + -s) = p.memLen - s := by unfold ofInt; omega
  simp only [procSbrk, hp.endAddr, hlen] at he
  rw [if_neg (by omega), if_pos hs] at he
  generalize (if p.brk % 0x1000 ≠ 0 then 0x1000 - p.brk % 0x1000 else 0) = R at he hR
  set p₁ : Process := { p with memLen := p.memLen - s } with hp₁
  have hlen₁ : (p₁.memLen : ℤ) = p.memLen + -s := by
    rw [hp₁]; push_cast [hle]; ring
  have hbrk : (p₁.brk : ℤ) = p.brk + -s := brk_add rfl hlen₁
  split_ifs at he with hneg htaken
  · cases he
  · -- at least one page is unmapped
    simp only [Option.bind_eq_bind, Option.bind_eq_some_iff] at he
    obtain ⟨m₁, hun, he⟩ := he
    obtain ⟨rfl, rfl, rfl⟩ : p.brk = r ∧ m₁ = m' ∧ p₁ = p' := by simpa using he
    have hfreed : ofInt (0x1000 - R - -s) = 0x1000 - R + s := by unfold ofInt; omega
    rw [hfreed] at hun
    by_cases h0 : p.brk % 0x1000 = 0
    · -- the loop starts with the page behind the heap
      rw [if_neg (not_not.2 h0)] at hw
      obtain ⟨-, ⟨k, rfl⟩, hlt⟩ := hw.resolve_left (by omega)
      have hnum : divideUp (0x1000 - R + 0x1000 * k) 0x1000 = k + 1 := by
        rw [divideUp_eq (by decide)]; omega
      rw [hnum] at hun
      simp only [unmapLoop, Option.bind_eq_bind, Option.bind_eq_some_iff] at hun
      obtain ⟨m₁, hfst, hun⟩ := hun
      have hsub : sub32 (p.brk - p.brk % 0x1000) (0x1000 * 0) = p.brkPage * 4096 := by
        unfold sub32; omega
      rw [hsub] at hfst
      obtain ⟨hpages, hmap⟩ := hp.pages.unmapBehind (by omega) hfst
      obtain ⟨hpages', hmap'⟩ := unmapLoop_ok k hpages (by omega) (by omega) (by omega) hun
      refine hp.moved rfl hlen₁ (by omega) hpages' fun i _ hi => ?_
      rw [hmap' i hi, hmap]
    · rw [if_pos h0] at hw
      obtain ⟨hes, hnum⟩ := hw.resolve_left (by omega)
      rw [show 0x1000 - R = p.brk % 0x1000 by omega, hnum] at hun
      obtain ⟨hpages, hmap⟩ := unmapLoop_ok _ hp.pages (by omega) (by omega) (by omega) hun
      exact hp.moved rfl hlen₁ (by omega) hpages fun i _ hi => hmap i hi
  · obtain ⟨rfl, rfl, rfl⟩ : p.brk = r ∧ m = m' ∧ p₁ = p' := by simpa using he
    have hin : p.brk % 0x1000 ≠ 0 ∧ s < p.brk % 0x1000 ∨ p.brk % 0x1000 = 0 ∧ s < 0x1000 := by
      split_ifs at hw <;> omega
    exact hp.moved rfl hlen₁ (by omega) hp.pages fun _ _ _ => rfl

/-- A right call keeps the pages and the break in agreement. -/
theorem sbrk_done (hp : HeapOK t m p) (hw : SbrkWhen t p size)
    (he : procSbrk m p size = some (some r, m', p')) (hl : m'.tableLost = false) :
    SbrkDone t m m' p p' size r := by
  rcases lt_trichotomy size 0 with hs | rfl | hs
  · exact sbrk_shrink hp hs hw he
  · have hlt := hp.brk_lt
    have hbase : p.brk = p.heapBase + p.memLen := rfl
    have hlen : ofInt (p.memLen + 0) = p.memLen := by unfold ofInt; omega
    simp only [procSbrk, hp.endAddr, hlen] at he
    rw [if_neg (by decide), if_neg (by decide)] at he
    cases he
    exact hp.moved rfl (by simp) rfl hp.pages fun _ _ _ => rfl
  · exact sbrk_grow hp hs hw he hl

end Sbrk

/-! ### Runs -/

/-- The heap before the first call: it is empty, and no page of its area is mapped. -/
structure HeapStart (t : ℕ) (m : Machine) (p : Process) : Prop where
  space : SpaceOK m
  empty : p.memLen = 0
  lo : p.codeLen + 1 ≤ t
  top : t ≤ 1023 * 1024
  ord : ∀ n, p.codeLen + 1 ≤ n → n < t → Ordinary m (n * 0x1000)
  free : ∀ n, p.codeLen + 1 ≤ n → n < t → mapping m n = none

/-- A successful call, for which the allocator also found every page table. -/
inductive SbrkStep (ok : Process → ℤ → Prop) : Machine × Process → Machine × Process → Prop
  | call (m m' p p') (size : ℤ) (r : ℕ) : -2 ^ 31 ≤ size → size < 2 ^ 31 → ok p size →
      procSbrk m p size = some (some r, m', p') → m'.tableLost = false →
      SbrkStep ok (m, p) (m', p')

/-- **The break and the page tables agree**: the break is not below `H`, and of the heap
area exactly the pages that meet `[H, H + mem_len)` are mapped. -/
structure HeapAgrees (t : ℕ) (m : Machine) (p : Process) : Prop where
  above : p.heapBase ≤ (p.heapBase + p.memLen) % 2 ^ 32
  mapped : ∀ n, p.codeLen + 1 ≤ n → n < t →
    ((mapping m n).isSome ↔ ∃ a, p.heapBase ≤ a ∧ a < p.heapBase + p.memLen ∧ a / 0x1000 = n)

theorem HeapStart.heapOK {p : Process} (h : HeapStart t m p) : HeapOK t m p := by
  have hb : p.brkPage = p.codeLen + 1 := by
    unfold Process.brkPage Process.brk Process.heapBase
    rw [h.empty]; omega
  have hlo := h.lo
  refine ⟨⟨h.space, by omega, by omega, h.ord, ?_, ?_, ?_⟩, ?_, h.top⟩
  · rw [hb]; exact h.free
  · intro n h1 h2; omega
  · intro n k h1 h2; omega
  · unfold Process.brk Process.heapBase
    rw [h.empty]; omega

theorem HeapOK.agrees {p : Process} (h : HeapOK t m p) : HeapAgrees t m p := by
  have hlt := h.brk_lt
  have hbrk : p.brk = p.heapBase + p.memLen := rfl
  have hbase : p.heapBase = (p.codeLen + 1) * 0x1000 := by unfold Process.heapBase; ring
  have hpage : p.brkPage = (p.brk + 0xFFF) / 0x1000 := rfl
  refine ⟨by omega, fun n h1 h2 => ?_⟩
  constructor
  · intro hn
    refine ⟨n * 0x1000, by omega, ?_, by omega⟩
    by_contra hge
    rw [h.pages.free n (by omega) h2] at hn
    exact absurd hn (by decide)
  · rintro ⟨a, h3, h4, rfl⟩
    obtain ⟨f, hf, -⟩ := h.pages.own (a / 0x1000) h1 (by omega)
    rw [hf]; rfl

/-- A process without heap, and the machine after it grew its heap by three pages and then
shrank it by one byte more than one page. -/
def emptyProc : Process := ⟨0, 1, 0, 0, 0, 0, 0, 0, 0⟩

def grown : Machine × Process :=
  ((procSbrk bareSpace emptyProc 0x3000).map Prod.snd).getD (bareSpace, emptyProc)

def shrunk : Machine × Process := ((procSbrk grown.1 grown.2 (-0x1001)).map Prod.snd).getD grown

theorem bareSpace_start : HeapStart 1024 bareSpace emptyProc := by
  have hdir : ∀ n, n < 1024 → ¬ present (bareSpace.dir (dirIndex (n * 0x1000))) := by
    intro n hn
    have h0 : bareSpace.dir (dirIndex (n * 0x1000)) = 0 := if_neg (by unfold dirIndex; omega)
    rw [h0]; exact not_present_zero
  refine ⟨bareSpace_ok, rfl, by decide, by decide, fun n _ hn => ?_, fun n _ hn => ?_⟩
  · exact ⟨by unfold dirIndex; omega, fun hp => absurd hp (hdir n hn)⟩
  · have := mapping_absent (hdir n hn)
    rwa [Nat.mul_div_cancel _ (by decide)] at this

theorem grown_eq : procSbrk bareSpace emptyProc 0x3000 = some (some 0x1000, grown.1, grown.2) :=
  Lib.eq_getD (by rw [grown]) (by decide +kernel)

theorem shrunk_eq :
    procSbrk grown.1 grown.2 (-0x1001) = some (some 0x4000, shrunk.1, shrunk.2) :=
  Lib.eq_getD (by rw [shrunk]) (by decide +kernel)

/-- **`proc_sbrk` unmaps memory that is still in the heap.** Three pages are allocated and
`0x1001` bytes given back; the new break `0x2FFF` is in page 2, which is unmapped. -/
theorem sbrk_loses_page : ∃ t m₀ p₀ m p, HeapStart t m₀ p₀ ∧
    Relation.ReflTransGen (SbrkStep fun _ _ => True) (m₀, p₀) (m, p) ∧ p.brk = 0x2FFF ∧
      mapping m 2 = none ∧ ¬ HeapAgrees t m p := by
  have hm : mapping shrunk.1 2 = none := by decide +kernel
  have hb : shrunk.2.codeLen = 0 ∧ shrunk.2.memLen = 0x1FFF := by decide +kernel
  refine ⟨1024, bareSpace, emptyProc, shrunk.1, shrunk.2, bareSpace_start, ?_, by decide +kernel, hm, ?_⟩
  · exact (Relation.ReflTransGen.single (.call _ _ _ _ 0x3000 _ (by decide) (by decide) trivial grown_eq
      (by decide +kernel))).tail (.call _ _ _ _ (-0x1001) _ (by decide) (by decide) trivial shrunk_eq
      (by decide +kernel))
  · intro h
    have h2 := (h.mapped 2 (by omega) (by decide)).2
      ⟨0x2000, by unfold Process.heapBase; omega, by unfold Process.heapBase; omega, by decide⟩
    rw [hm] at h2
    exact absurd h2 (by decide)

/-- **The heap break and the page tables agree** after every sequence of successful calls
that meet `SbrkWhen`. A further such call returns the old break, moves the break by `size`,
and keeps the page of every byte that is below both breaks. -/
theorem sbrk_agrees {m₀ : Machine} {p₀ p : Process} (h₀ : HeapStart t m₀ p₀)
    (hr : Relation.ReflTransGen (SbrkStep (SbrkWhen t)) (m₀, p₀) (m, p)) :
    HeapAgrees t m p ∧
      ∀ size r m' p', SbrkWhen t p size → procSbrk m p size = some (some r, m', p') →
        m'.tableLost = false →
        r = p.brk ∧ p'.heapBase = p.heapBase ∧ (p'.memLen : ℤ) = p.memLen + size ∧
          ∀ a, a < p.brk → a < p'.brk → mapping m' (a / 0x1000) = mapping m (a / 0x1000) := by
  have hinv : ∀ s u : Machine × Process, HeapOK t s.1 s.2 → SbrkStep (SbrkWhen t) s u →
      HeapOK t u.1 u.2 := by
    rintro s u hs ⟨m, m', p, p', size, r, -, -, hw, he, hl⟩
    exact (sbrk_done hs hw he hl).ok
  have h : HeapOK t m p := Lib.run_inv hinv h₀.heapOK hr
  refine ⟨h.agrees, fun size r m' p' hw he hl => ?_⟩
  have hd := sbrk_done h hw he hl
  exact ⟨hd.ret, hd.base, hd.len, fun a h1 h2 => hd.keep _ (by omega) (by omega)⟩

/-- After growing an empty heap by three pages, two of them can be given back. -/
theorem sbrk_agrees_grown : HeapAgrees 1024 grown.1 grown.2 ∧
    ∃ m p, procSbrk grown.1 grown.2 (-0x2000) = some (some 0x4000, m, p) ∧
      mapping m 1 = mapping grown.1 1 := by
  obtain ⟨h1, h2⟩ := sbrk_agrees bareSpace_start (.single (.call bareSpace grown.1 emptyProc grown.2
    0x3000 _ (by decide) (by decide) (by decide +kernel) grown_eq (by decide +kernel)))
  obtain ⟨s, hs⟩ : ∃ s, s = ((procSbrk grown.1 grown.2 (-0x2000)).map Prod.snd).getD grown := ⟨_, rfl⟩
  have hrun : procSbrk grown.1 grown.2 (-0x2000) = some (some 0x4000, s.1, s.2) :=
    Lib.eq_getD hs (by decide +kernel)
  obtain ⟨-, -, -, hkeep⟩ := h2 (-0x2000) _ _ _ (by decide +kernel) hrun (by rw [hs]; decide +kernel)
  refine ⟨h1, _, _, hrun, ?_⟩
  exact hkeep 0x1000 (by decide +kernel) (by rw [hs]; decide +kernel)

end Saynaa
