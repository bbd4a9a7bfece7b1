import Saynaa.Proof.Paging

/-!
# The paging operations refine a partial map

An address space is used through `paging_map_page`, `paging_unmap_page` and
`paging_virt_to_phys` (`PgCall`). What the three are for is said by `PgCall.spec`, on a
partial map from page numbers to frames.

* `unmap_frees_block_zero`: the source does not meet the specification. Where a page
  table exists but the page is not mapped, `paging_unmap_page` frees block 0 and
  `paging_virt_to_phys` returns the page offset.
* `paging_refines`: in a run whose calls avoid that (`PgCall.HoldsWhen`), it does.
-/

namespace Saynaa

open Machine

/-- A partial map from page numbers to frames. -/
abbrev PMap := ℕ → Option ℕ

/-- A call on the current address space. -/
inductive PgCall where
  | map (virt : ℕ) (phys flags : BitVec 32)
  | unmap (virt : ℕ)
  | query (virt : ℕ)

namespace PgCall

/-- The call in the source: its return value (0 for the two `void` ones) and the new state. -/
def exec (m : Machine) : PgCall → Option (ℕ × Machine)
  | .map virt phys flags => (m.pagingMapPage virt phys flags).map fun m' => (0, m')
  | .unmap virt => (m.pagingUnmapPage virt).map fun m' => (0, m')
  | .query virt => (m.pagingVirtToPhys virt).map fun r => (r, m)

/-- The call on a partial map: its return value and the new map. -/
def spec (M : PMap) : PgCall → ℕ × PMap
  | .map virt phys _ => (0, Function.update M (virt / 4096) (some (frameOf phys)))
  | .unmap virt => (0, Function.update M (virt / 4096) none)
  | .query virt =>
    (match M (virt / 4096) with
      | some f => f * 4096 + virt % 4096
      | none => 0, M)

/-- What an unmap should do to the allocator: free the frame that was mapped. -/
def freeSpec (M : PMap) (virt : ℕ) (p : Pmm) : Pmm :=
  match M (virt / 4096) with
  | some f => p.mmapUnset f
  | none => p

/-- Page-aligned addresses, and only unmapped pages are mapped. -/
def Legal (M : PMap) : PgCall → Prop
  | .map virt _ _ => virt % 4096 = 0 ∧ M (virt / 4096) = none
  | .unmap virt => virt % 4096 = 0
  | .query _ => True

/-- The calls on which the source meets the specification. No call is about the
recursive window or a 4 MiB page. A map that needs a page table finds a frame for it.
An unmap either finds no page table or a mapped page, whose frame is not in use as a
paging structure. A query of an unmapped page finds no page table or is page aligned. -/
def HoldsWhen (m : Machine) : PgCall → Prop
  | .map virt _ flags => Ordinary m virt ∧ ¬ large flags ∧ HasRoom m virt
  | .unmap virt => Ordinary m virt ∧
      (present (m.dir (dirIndex virt)) → ∃ f, mapping m (virt / 4096) = some f ∧ NotPaging m f)
  | .query virt => Ordinary m virt ∧
      (present (m.dir (dirIndex virt)) → mapping m (virt / 4096) ≠ none ∨ virt % 4096 = 0)

end PgCall

/-- One legal call meeting `ok`, in the source and on the map beside it. -/
inductive PgStep (ok : Machine → PgCall → Prop) : Machine × PMap → Machine × PMap → Prop
  | call (m m' : Machine) (M : PMap) (c : PgCall) (r : ℕ) (hlegal : c.Legal M) (hok : ok m c)
      (hexec : c.exec m = some (r, m')) :
      PgStep ok (m, M) (m', (c.spec M).2)

variable {m : Machine}

/-- **One call** meets its specification. -/
theorem exec_spec (h : SpaceOK m) {c : PgCall} (hl : c.Legal (mapping m)) (hw : c.HoldsWhen m) :
    ∃ m', c.exec m = some ((c.spec (mapping m)).1, m') ∧ SpaceOK m' ∧
      mapping m' = (c.spec (mapping m)).2 ∧
      ∀ v, c = .unmap v → m'.pmm = PgCall.freeSpec (mapping m) v m.pmm := by
  cases c with
  | map v phys flags =>
    obtain ⟨ho, hfl, hr⟩ := hw
    obtain ⟨m', he, h', hm⟩ := map_spec h hl.1 ho hfl hr hl.2
    exact ⟨m', by simp [PgCall.exec, he, PgCall.spec], h', hm, nofun⟩
  | unmap v =>
    obtain ⟨ho, hmap⟩ := hw
    by_cases hp : present (m.dir (dirIndex v))
    · -- a page of an existing table: its frame is freed, unless it is block 0
      obtain ⟨f, hf, hnp⟩ := hmap hp
      obtain ⟨ht, -, hfr⟩ := mapped_table hf
      obtain ⟨m', he, h', hpmm, hm, -, -⟩ := unmap_table h hl ht hfr hnp
      refine ⟨m', by simp [PgCall.exec, he, PgCall.spec], h', hm, ?_⟩
      intro w hw'
      cases hw'
      rw [hpmm, PgCall.freeSpec, hf]
    · -- without a table there is nothing to unmap
      have hn : mapping m (v / 4096) = none := mapping_absent hp
      refine ⟨m, by simp [PgCall.exec, unmap_absent hl hp, PgCall.spec], h, ?_, ?_⟩
      · simp only [PgCall.spec]
        rw [← hn, Function.update_eq_self]
      · intro w hw'
        cases hw'
        rw [PgCall.freeSpec, hn]
  | query v =>
    obtain ⟨ho, hmap⟩ := hw
    refine ⟨m, ?_, h, rfl, nofun⟩
    cases hn : mapping m (v / 4096) with
    | some f => simp [PgCall.exec, query_mapped hn, PgCall.spec, hn]
    | none =>
      simp only [PgCall.exec, query_unmapped h ho hn, PgCall.spec, hn, Option.map_some]
      split_ifs with hp
      · rw [(hmap hp).resolve_left (fun hne => hne hn)]
      · rfl

/-- An address space without page tables: the directory is in frame 1, and blocks 0 and 1
of 64 are taken. -/
def bareSpace : Machine :=
  { pmm := ⟨fun i => if i = 0 then 3#32 else 0#32, 2, 64, blocks_64⟩
    phys := fun f i => if f = 1 ∧ i = 1023 then 0x1003#32 else 0#32
    cr3 := 1
    tableLost := false }

theorem bareSpace_ok : SpaceOK bareSpace := by
  have hd : ∀ i, ¬ HasTable bareSpace i := by
    rintro i ⟨hi, hp, -⟩
    have h0 : bareSpace.dir i = 0 := if_neg (by omega)
    rw [h0] at hp
    exact not_present_zero hp
  exact ⟨by decide +kernel, by decide, fun i hi => absurd hi (hd i), fun i hi => absurd hi (hd i),
    fun i hi => absurd hi (hd i), fun i _ hi => absurd hi (hd i), fun i hi => absurd hi (hd i)⟩

/-- Two processes without pages, whose directories are in frames 1 and 2. -/
def twoSpaces : Machine :=
  { pmm := ⟨fun i => if i = 0 then 7#32 else 0#32, 3, 64, blocks_64⟩
    phys := fun f i => if (f = 1 ∨ f = 2) ∧ i = 1023 then BitVec.ofNat 32 (f * 4096) ||| pagePresent ||| pageRw
      else 0#32
    cr3 := 1
    tableLost := false }

/-- `bareSpace` after mapping page 1 to frame 5, which created a table in frame 2. -/
def oneTable : Machine := (bareSpace.pagingMapPage 0x1000 0x5000 7).getD bareSpace

theorem oneTable_eq : (PgCall.map 0x1000 0x5000 7).exec bareSpace = some (0, oneTable) := by
  have h : (bareSpace.pagingMapPage 0x1000 0x5000 7).isSome := by decide +kernel
  obtain ⟨m, hm⟩ := Option.isSome_iff_exists.1 h
  simp only [PgCall.exec, oneTable, hm, Option.map_some, Option.getD_some]

/-- **The source does not refine the map.** After one mapping, page 2 has a page table but
is not mapped: a query inside it returns the page offset, and unmapping it marks block 0,
the allocator's own mark for "nothing found", as free. -/
theorem unmap_frees_block_zero :
    SpaceOK bareSpace ∧ ∃ m M m', Relation.ReflTransGen (PgStep fun _ _ => True)
        (bareSpace, mapping bareSpace) (m, M) ∧
      M 2 = none ∧ m.pagingVirtToPhys 0x2004 = some 4 ∧
      m.pagingUnmapPage 0x2000 = some m' ∧ m.pmm.Used 0 ∧ ¬ m'.pmm.Used 0 := by
  have hM : mapping bareSpace 1 = none := by decide +kernel
  have hstep : PgStep (fun _ _ => True) _ _ := .call bareSpace oneTable (mapping bareSpace)
    (.map 0x1000 0x5000 7) 0 ⟨rfl, hM⟩ trivial oneTable_eq
  have hu : (oneTable.pagingUnmapPage 0x2000).isSome := by decide +kernel
  obtain ⟨m', hm'⟩ := Option.isSome_iff_exists.1 hu
  refine ⟨bareSpace_ok, _, _, m', .single hstep, ?_, by decide +kernel, hm', by decide +kernel, ?_⟩
  · decide +kernel
  · have h : (oneTable.pagingUnmapPage 0x2000).map (fun m => decide (m.pmm.Used 0)) = some false := by
      decide +kernel
    rw [hm'] at h
    simpa using h

/-- **The paging operations refine a partial map**, in every run of calls that meet
`HoldsWhen`: at every point the map is the one the page tables describe, and any further
such call returns what the map says, changes it as the map says, and if it is an unmap,
frees exactly the frame that was mapped. -/
theorem paging_refines {m₀ : Machine} (h₀ : SpaceOK m₀) {m : Machine} {M : PMap}
    (hr : Relation.ReflTransGen (PgStep fun m c => c.HoldsWhen m) (m₀, mapping m₀) (m, M)) :
    M = mapping m ∧
      ∀ c : PgCall, c.Legal M → c.HoldsWhen m →
        ∃ m', c.exec m = some ((c.spec M).1, m') ∧ mapping m' = (c.spec M).2 ∧
          ∀ v, c = .unmap v → m'.pmm = PgCall.freeSpec M v m.pmm := by
  have hinv : ∀ s t : Machine × PMap, SpaceOK s.1 ∧ s.2 = mapping s.1 →
      PgStep (fun m c => c.HoldsWhen m) s t → SpaceOK t.1 ∧ t.2 = mapping t.1 := by
    rintro s t ⟨hs, hM⟩ ⟨m, m', M, c, r, hl, hw, he⟩
    simp only at hs hM
    subst hM
    obtain ⟨m'', he', h', hm, -⟩ := exec_spec hs hl hw
    rw [he] at he'
    cases Option.some.inj he'
    exact ⟨h', hm.symm⟩
  obtain ⟨h, hM⟩ := Lib.run_inv hinv ⟨h₀, rfl⟩ hr
  simp only at h hM
  subst hM
  refine ⟨rfl, fun c hl hw => ?_⟩
  obtain ⟨m', he, -, hm, hf⟩ := exec_spec h hl hw
  exact ⟨m', he, hm, hf⟩

/-- In `oneTable`, reached by such a run, page 1 can be queried and unmapped. -/
theorem paging_refines_oneTable :
    oneTable.pagingVirtToPhys 0x1234 = some 0x5234 ∧
      ∃ m', oneTable.pagingUnmapPage 0x1000 = some m' ∧ m'.pmm = oneTable.pmm.mmapUnset 5 := by
  have hroom : (bareSpace.pmm.pmmAllocPage).map Prod.fst = some 0x2000 := by decide +kernel
  obtain ⟨⟨r, p⟩, hal, hr⟩ := Option.map_eq_some_iff.1 hroom
  have hM : mapping bareSpace 1 = none := by decide +kernel
  have hwhen : (PgCall.map 0x1000 0x5000 7).HoldsWhen bareSpace :=
    ⟨⟨by decide, fun hp => absurd hp (by decide +kernel)⟩, by decide,
      .inr ⟨r, p, hal, fun h => absurd (hr.symm.trans h) (by decide)⟩⟩
  obtain ⟨h1, h2⟩ := paging_refines bareSpace_ok (.single (PgStep.call bareSpace oneTable
    (mapping bareSpace) (.map 0x1000 0x5000 7) 0 ⟨rfl, hM⟩ hwhen oneTable_eq))
  have hmap : mapping oneTable 1 = some 5 := by decide +kernel
  have ho : Ordinary oneTable 0x1000 := ⟨by decide, fun _ => by decide +kernel⟩
  have hnp : NotPaging oneTable 5 := by
    have hall : ∀ i < 1023, 5 ≠ oneTable.tableFrame i := by decide +kernel
    exact ⟨by decide +kernel, fun i hi => hall i hi.1⟩
  obtain ⟨m₁, hq, -, -⟩ := h2 (.query 0x1234) trivial
    ⟨⟨by decide, fun _ => by decide +kernel⟩, fun _ => .inl (by decide +kernel)⟩
  obtain ⟨m₂, hu, -, hf⟩ := h2 (.unmap 0x1000) rfl ⟨ho, fun _ => ⟨5, hmap, hnp⟩⟩
  rw [h1] at hq hu hf
  simp only [PgCall.exec, Option.map_eq_some_iff, Prod.mk.injEq] at hq hu
  obtain ⟨r, hr, hspec, -⟩ := hq
  obtain ⟨m, hm, -, rfl⟩ := hu
  refine ⟨?_, m, hm, ?_⟩
  · rw [hr, hspec]
    decide +kernel
  · rw [hf _ rfl, PgCall.freeSpec, show (0x1000 : ℕ) / 4096 = 1 by decide, hmap]

end Saynaa
