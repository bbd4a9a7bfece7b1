import Saynaa.Mem.Shm
import Saynaa.Proof.AddressSpace

/-!
# Frames of shared memory

* `allocFrames_ok`: an object gets fresh frames, or all of them are free again.
* `getPage_mono`, `shmMapLoop_mono`: mapping only takes frames.
* `ObjectsOK`: live objects own their frames alone. `WorldOK`: what is mapped belongs to them.
* `shm_mapped_live`, `shm_freed_mapped`: closing an object that a process has mapped breaks this, and nothing
  else does.
-/

namespace Saynaa

open Machine Shm Lib

variable {p p' : Pmm} {m m' : Machine} {s s' : Shm} {i j : Fin shmMaxObjects} {id : ℕ}

/-! ### Frames -/

theorem used_freePage (p : Pmm) (a b : ℕ) : (p.pmmFreePage a).Used b ↔ b ≠ a / 4096 ∧ p.Used b := used_mmapUnset _ _

theorem used_freeAll (l : List ℕ) (b : ℕ) : (p.freeAll l).Used b ↔ p.Used b ∧ ∀ a ∈ l, b ≠ a / 4096 := by
  induction l generalizing p with
  | nil => simp [Pmm.freeAll]
  | cons a l ih =>
    have h := ih (p := p.pmmFreePage a)
    rw [used_freePage] at h
    show ((p.pmmFreePage a).freeAll l).Used b ↔ _
    rw [h, List.forall_mem_cons]
    tauto

/-- Addresses of frames of their own. -/
structure Frames (l : List ℕ) : Prop where
  nodup : l.Nodup
  aligned : ∀ a ∈ l, a % 4096 = 0
  ne_zero : ∀ a ∈ l, a ≠ 0
  lt : ∀ a ∈ l, a / 4096 < 2 ^ 20

/-- The frames `l` were free in `p`, and `p'` has taken them. -/
structure Took (p p' : Pmm) (l : List ℕ) : Prop where
  frames : Frames l
  fresh : ∀ a ∈ l, ¬ p.Used (a / 4096)
  used : ∀ b, p'.Used b ↔ p.Used b ∨ ∃ a ∈ l, b = a / 4096

theorem Took.nil (p : Pmm) : Took p p [] :=
  ⟨⟨List.nodup_nil, nofun, nofun, nofun⟩, nofun, by simp⟩

/-- One frame more. -/
theorem Took.alloc {p₀ : Pmm} {l : List ℕ} {r : ℕ} (h : Took p₀ p l) (hal : p.pmmAllocPage = some (r, p'))
    (hr : r ≠ 0) : Took p₀ p' (l ++ [r]) := by
  obtain ⟨f, rfl, hf0, hfl, hff, hused⟩ := allocPage_frame hal hr
  have hdiv : f * 4096 / 4096 = f := by omega
  have hnot : f * 4096 ∉ l := fun hmem => hff ((h.used f).2 (.inr ⟨_, hmem, hdiv.symm⟩))
  have hmem : ∀ a, a ∈ l ++ [f * 4096] ↔ a ∈ l ∨ a = f * 4096 := by simp
  refine ⟨⟨?_, ?_, ?_, ?_⟩, ?_, fun b => ?_⟩
  · rw [List.nodup_append]
    refine ⟨h.frames.nodup, List.nodup_singleton _, ?_⟩
    intro a ha b hb hab
    rw [List.mem_singleton] at hb
    exact hnot (hb ▸ hab ▸ ha)
  · intro a ha
    -- an address that was taken before, or the new one
    rcases (hmem a).1 ha with ha | rfl
    · exact h.frames.aligned a ha
    · omega
  · intro a ha
    rcases (hmem a).1 ha with ha | rfl
    · exact h.frames.ne_zero a ha
    · omega
  · intro a ha
    rcases (hmem a).1 ha with ha | rfl
    · exact h.frames.lt a ha
    · rwa [hdiv]
  · intro a ha
    rcases (hmem a).1 ha with ha | rfl
    · exact h.fresh a ha
    · rw [hdiv]
      exact fun hu => hff ((h.used f).2 (.inl hu))
  · rw [hused, h.used]
    simp only [hmem, or_and_right, exists_or, exists_eq_left, hdiv, or_assoc]

/-- **Frames for an object**, or none. -/
theorem allocFrames_ok {p₀ : Pmm} {k : ℕ} {taken : List ℕ} {r : Option (List ℕ)} (h : Took p₀ p taken)
    (he : p.allocFrames taken k = some (r, p')) :
    (∀ l, r = some l → Took p₀ p' l ∧ l.length = taken.length + k) ∧
      (r = none → ∀ b, p'.Used b ↔ p₀.Used b) := by
  induction k generalizing p taken with
  | zero =>
    cases he
    refine ⟨fun l hl => ?_, fun hn => ?_⟩
    · cases hl
      exact ⟨h, rfl⟩
    · cases hn
  | succ k ih =>
    simp only [Pmm.allocFrames, Option.bind_eq_bind, Option.bind_eq_some_iff] at he
    obtain ⟨⟨phys, p₁⟩, hal, he⟩ := he
    by_cases h0 : phys = 0
    · -- all frames taken so far are given back
      rw [if_pos h0] at he
      cases he
      have hp₁ : ∀ b, p₁.Used b ↔ p.Used b := by
        intro b
        rw [((allocPage_ok hal).1).used b, h0]
        simp [PmmCall.granted]
      refine ⟨fun l hl => ?_, fun _ b => ?_⟩
      · cases hl
      · rw [used_freeAll, hp₁, h.used]
        constructor
        · rintro ⟨hb | ⟨a, ha, rfl⟩, hne⟩
          · exact hb
          · exact absurd rfl (hne a ha)
        · exact fun hb => ⟨.inl hb, fun a ha hab => h.fresh a ha (hab ▸ hb)⟩
    · -- one frame more
      rw [if_neg h0] at he
      have h1 := ih (h.alloc hal h0) he
      rw [List.length_append, List.length_singleton, Nat.add_right_comm] at h1
      exact h1

/-! ### Mapping takes frames only -/

theorem allocPage_mono {r : ℕ} (h : p.pmmAllocPage = some (r, p')) {b : ℕ} (hb : p.Used b) : p'.Used b :=
  (((allocPage_ok h).1).used b).2 (.inl ⟨hb, id⟩)

theorem getPage_mono {v : ℕ} {c : Bool} {flags : BitVec 32} {q : Option PagePtr}
    (he : m.pagingGetPage v c flags = some (q, m')) {b : ℕ} (hb : m.pmm.Used b) : m'.pmm.Used b := by
  obtain ⟨-, rfl | ⟨-, -, hc⟩, -⟩ := getPage_cases he
  · exact hb
  · obtain ⟨r, p, hal, rfl, -, -⟩ := createTable_cases hc
    exact allocPage_mono hal hb

theorem shmMapLoop_mono {base k : ℕ} {l : List ℕ} {ok : Bool} (he : m.shmMapLoop base k l = some (ok, m')) {b : ℕ}
    (hb : m.pmm.Used b) : m'.pmm.Used b := by
  induction l generalizing k m with
  | nil =>
    cases he
    exact hb
  | cons phys rest ih =>
    simp only [shmMapLoop, Option.bind_eq_bind, Option.bind_eq_some_iff] at he
    obtain ⟨⟨q, m₁⟩, hget, he⟩ := he
    have hb₁ := getPage_mono hget hb
    cases q with
    | none =>
      cases he
      exact hb₁
    | some ptr =>
      simp only at he
      split_ifs at he
      · cases he
        exact hb₁
      · exact ih he hb₁

/-! ### Objects -/

theorem setObj_self (s : Shm) (i : Fin shmMaxObjects) (o : ShmObj) : (s.setObj i o).objs i = o :=
  Function.update_self _ _ _

theorem setObj_ne (s : Shm) (h : j ≠ i) (o : ShmObj) : (s.setObj i o).objs j = s.objs j := Function.update_of_ne h _ _

def Live (s : Shm) (i : Fin shmMaxObjects) : Prop := (s.objs i).id ≠ 0

/-- Live objects have frames of their own, which are taken. -/
structure ObjectsOK (s : Shm) : Prop where
  len : ∀ i, Live s i → (s.objs i).pages.length = (s.objs i).numPages
  frames : ∀ i, Live s i → Frames (s.objs i).frames
  used : ∀ i, Live s i → ∀ a ∈ (s.objs i).frames, s.machine.pmm.Used (a / 4096)
  apart : ∀ i j, Live s i → Live s j → ∀ a ∈ (s.objs i).frames, a ∈ (s.objs j).frames → i = j

/-- Two states whose objects differ in their counters only. -/
def Same (s s' : Shm) : Prop := ∀ i, (s'.objs i).id = (s.objs i).id ∧ (s'.objs i).numPages = (s.objs i).numPages ∧
  (s'.objs i).pages = (s.objs i).pages

theorem Same.refl (s : Shm) : Same s s := fun _ => ⟨rfl, rfl, rfl⟩

theorem Same.live (h : Same s s') : Live s' i ↔ Live s i := by
  unfold Live
  rw [(h i).1]

theorem Same.frames (h : Same s s') (i : Fin shmMaxObjects) : (s'.objs i).frames = (s.objs i).frames := by
  unfold ShmObj.frames
  rw [(h i).2.1, (h i).2.2]

/-- Counters may change, and other frames may be taken. -/
theorem ObjectsOK.grow (h : ObjectsOK s) (hs : Same s s')
    (hmono : ∀ b, s.machine.pmm.Used b → s'.machine.pmm.Used b) :
    ObjectsOK s' := by
  refine ⟨fun i hi => ?_, fun i hi => ?_, fun i hi a ha => ?_, fun i j hi hj a ha hb => ?_⟩
  · rw [(hs i).2.1, (hs i).2.2]
    exact h.len i (hs.live.1 hi)
  · rw [hs.frames]
    exact h.frames i (hs.live.1 hi)
  · rw [hs.frames] at ha
    exact hmono _ (h.used i (hs.live.1 hi) a ha)
  · rw [hs.frames] at ha hb
    exact h.apart i j (hs.live.1 hi) (hs.live.1 hj) a ha hb

/-! ### The three calls -/

theorem find_eq (h : s.find id = some i) : (s.objs i).id = id := by
  simpa using List.find?_some h

/-- **What `shm_create` can do**: nothing, or a new object with fresh frames in a free slot. -/
theorem create_cases {fuel size : ℕ} {hasOut : Bool} {r : Option ℕ}
    (he : s.shmCreate fuel hasOut size = some (r, s')) :
    ∃ q, s'.machine = s.machine.withPmm q ∧
      ((r = none ∧ s'.objs = s.objs ∧ s'.nextId = s.nextId ∧ ∀ b, q.Used b ↔ s.machine.pmm.Used b) ∨
        ∃ slot o, ¬ Live s slot ∧ r = some o.id ∧ (o.id, s'.nextId) = s.newId ∧ o.id ≠ 0 ∧
          s'.objs = Function.update s.objs slot o ∧ Took s.machine.pmm q o.pages ∧ o.pages.length = o.numPages ∧
            o.numPages = divideUp size 0x1000 ∧ o.sizeBytes = size ∧ size ≠ 0 ∧ o.pagesPhys ≠ 0 ∧
              o.refcount = 1) := by
  unfold shmCreate at he
  split_ifs at he with h0
  · cases he
    exact ⟨s.machine.pmm, rfl, .inl ⟨rfl, rfl, rfl, fun _ => Iff.rfl⟩⟩
  cases hslot : s.allocSlot with
  -- the table is full
  | none =>
    rw [hslot] at he
    cases he
    exact ⟨s.machine.pmm, rfl, .inl ⟨rfl, rfl, rfl, fun _ => Iff.rfl⟩⟩
  | some slot =>
    rw [hslot] at he
    simp only [Option.bind_eq_bind, Option.bind_eq_some_iff] at he
    obtain ⟨x, -, ⟨pages, heap⟩, -, he⟩ := he
    split_ifs at he with hp
    · cases he
      exact ⟨s.machine.pmm, rfl, .inl ⟨rfl, rfl, rfl, fun _ => Iff.rfl⟩⟩
    simp only [Option.bind_eq_some_iff] at he
    obtain ⟨⟨frames, q⟩, hal, he⟩ := he
    obtain ⟨hsome, hnone⟩ := allocFrames_ok (Took.nil s.machine.pmm) hal
    cases frames with
    -- there are not enough frames
    | none =>
      cases he
      exact ⟨q, rfl, .inl ⟨rfl, rfl, rfl, hnone rfl⟩⟩
    | some l =>
      cases he
      obtain ⟨htook, hlen⟩ := hsome l rfl
      have hfree : ¬ Live s slot := fun hl => hl (by simpa using List.find?_some hslot)
      refine ⟨q, rfl, .inr ⟨slot, _, hfree, rfl, rfl, ?_, rfl, htook, by simpa using hlen, rfl, rfl,
        fun hs => h0 (.inr hs), hp, rfl⟩⟩
      show (newId _).1 ≠ 0
      unfold newId
      split_ifs with hid
      · rw [hid]
        decide
      · exact hid

/-- **What `shm_map` can do**: map nothing or a part of the object, or all of it and count. -/
theorem map_cases {pr pr' : Process} {r : Option ℕ} (he : s.shmMap pr id = some (r, s', pr')) :
    s'.nextId = s.nextId ∧ (∀ b, s.machine.pmm.Used b → s'.machine.pmm.Used b) ∧
      ((r = none ∧ s'.objs = s.objs) ∨ ∃ base i, r = some base ∧ s.find id = some i ∧ Live s i ∧
        s'.objs = Function.update s.objs i { s.objs i with refcount := add32 (s.objs i).refcount 1 }) := by
  unfold shmMap at he
  cases hf : s.find id with
  -- no object has the id
  | none =>
    rw [hf] at he
    cases he
    exact ⟨rfl, fun _ hb => hb, .inl ⟨rfl, rfl⟩⟩
  | some i =>
    rw [hf] at he
    simp only at he
    by_cases h0 : (s.objs i).id = 0 ∨ (s.objs i).numPages = 0 ∨ (s.objs i).pagesPhys = 0
    · -- the object is gone
      rw [if_pos h0] at he
      cases he
      exact ⟨rfl, fun _ hb => hb, .inl ⟨rfl, rfl⟩⟩
    rw [if_neg h0, Option.bind_eq_bind, Option.bind_eq_some_iff] at he
    obtain ⟨⟨ok, m⟩, hloop, he⟩ := he
    have hmono : ∀ b, s.machine.pmm.Used b → m.pmm.Used b := fun b => shmMapLoop_mono hloop
    cases ok with
    -- a page could not be mapped
    | false =>
      cases he
      exact ⟨rfl, hmono, .inl ⟨rfl, rfl⟩⟩
    -- all pages are mapped
    | true =>
      cases he
      exact ⟨rfl, hmono, .inr ⟨_, i, rfl, rfl, fun hid => h0 (.inl hid), rfl⟩⟩

/-- **What `shm_close` can do**: nothing, count down, or free the object. -/
theorem close_cases (s : Shm) (id : ℕ) :
    (s.shmClose id).2.nextId = s.nextId ∧
      (((s.shmClose id).1 = false ∧ (s.shmClose id).2 = s ∧ ∀ i, s.find id = some i → ¬ Live s i) ∨
        ∃ i, (s.shmClose id).1 = true ∧ s.find id = some i ∧ Live s i ∧
          ((1 < (s.objs i).refcount ∧ (s.shmClose id).2.machine = s.machine ∧ (s.shmClose id).2.objs =
              Function.update s.objs i { s.objs i with refcount := (s.objs i).refcount - 1 }) ∨
            ((s.objs i).refcount ≤ 1 ∧ (s.shmClose id).2.objs = Function.update s.objs i .zero ∧
              (∀ b, s.machine.pmm.Used b → (∀ a ∈ (s.objs i).frames, b ≠ a / 4096) →
                (s.shmClose id).2.machine.pmm.Used b) ∧
              ((s.objs i).pagesPhys ≠ 0 → ∀ a ∈ (s.objs i).frames, a ≠ 0 →
                ¬ (s.shmClose id).2.machine.pmm.Used (a / 4096))))) := by
  unfold shmClose
  cases hf : s.find id with
  -- no object has the id
  | none => exact ⟨rfl, .inl ⟨rfl, rfl, nofun⟩⟩
  | some i =>
    simp only
    split_ifs with h0 h1 h2
    · refine ⟨rfl, .inl ⟨rfl, rfl, fun j hj => ?_⟩⟩
      cases hj
      exact not_not.2 h0
    · -- its last user: the frames are freed
      refine ⟨rfl, .inr ⟨i, rfl, rfl, h0, .inr ⟨by omega, rfl, fun b hb hne => ?_, fun _ a ha hne hu => ?_⟩⟩⟩
      · show (s.machine.pmm.freeAll _).Used b
        rw [used_freeAll]
        exact ⟨hb, fun a ha => hne a (List.mem_of_mem_filter ha)⟩
      · change (s.machine.pmm.freeAll _).Used _ at hu
        rw [used_freeAll] at hu
        exact hu.2 a (List.mem_filter.2 ⟨ha, by simpa using hne⟩) rfl
    · exact ⟨rfl, .inr ⟨i, rfl, rfl, h0, .inr ⟨by omega, rfl, fun b hb _ => hb, fun hp => absurd hp h2⟩⟩⟩
    · -- one of several users
      exact ⟨rfl, .inr ⟨i, rfl, rfl, h0, .inl ⟨by omega, rfl, rfl⟩⟩⟩

/-- Some object's counter has changed. -/
theorem Same.of_update {n : ℕ} (h : s'.objs = Function.update s.objs i { s.objs i with refcount := n }) :
    Same s s' := by
  intro j
  rw [h]
  by_cases hj : j = i
  · subst hj
    rw [Function.update_self]
    exact ⟨rfl, rfl, rfl⟩
  · rw [Function.update_of_ne hj]
    exact ⟨rfl, rfl, rfl⟩

theorem Same.of_objs (h : s'.objs = s.objs) : Same s s' := by
  intro j
  rw [h]
  exact ⟨rfl, rfl, rfl⟩

/-- **A new object** has frames of its own. -/
theorem ObjectsOK.insert (h : ObjectsOK s) {slot : Fin shmMaxObjects} {o : ShmObj}
    (hobj : s'.objs = Function.update s.objs slot o) (htook : Took s.machine.pmm s'.machine.pmm o.pages)
    (hlen : o.pages.length = o.numPages) : ObjectsOK s' := by
  have hself : s'.objs slot = o := by rw [hobj, Function.update_self]
  have hother : ∀ i, i ≠ slot → s'.objs i = s.objs i := fun i hi => by
    rw [hobj]
    exact Function.update_of_ne hi _ _
  have hframes : o.frames = o.pages := by
    unfold ShmObj.frames
    rw [← hlen, List.take_length]
  -- the frames of the new object were free, and those of the others were taken
  have hnew : ∀ i, Live s i → ∀ a ∈ (s.objs i).frames, a ∉ o.frames := by
    intro i hi a ha hmem
    rw [hframes] at hmem
    exact htook.fresh a hmem (h.used i hi a ha)
  refine ⟨fun i hi => ?_, fun i hi => ?_, fun i hi a ha => ?_, fun i j hi hj a ha hb => ?_⟩
  · by_cases hs : i = slot
    · rw [hs, hself]
      exact hlen
    · unfold Live at hi
      rw [hother i hs] at hi ⊢
      exact h.len i hi
  · by_cases hs : i = slot
    · rw [hs, hself, hframes]
      exact htook.frames
    · unfold Live at hi
      rw [hother i hs] at hi ⊢
      exact h.frames i hi
  · by_cases hs : i = slot
    · rw [hs, hself, hframes] at ha
      exact (htook.used _).2 (.inr ⟨a, ha, rfl⟩)
    · unfold Live at hi
      rw [hother i hs] at hi ha
      exact (htook.used _).2 (.inl (h.used i hi a ha))
  · unfold Live at hi hj
    by_cases hs : i = slot <;> by_cases ht : j = slot
    · rw [hs, ht]
    · rw [hs, hself] at ha
      rw [hother j ht] at hj hb
      exact absurd ha (hnew j hj a hb)
    · rw [ht, hself] at hb
      rw [hother i hs] at hi ha
      exact absurd hb (hnew i hi a ha)
    · rw [hother i hs] at hi ha
      rw [hother j ht] at hj hb
      exact h.apart i j hi hj a ha hb

/-- **A freed object** leaves the frames of the others alone. -/
theorem ObjectsOK.erase (h : ObjectsOK s) (hlive : Live s i) (hobj : s'.objs = Function.update s.objs i .zero)
    (hused : ∀ b, s.machine.pmm.Used b → (∀ a ∈ (s.objs i).frames, b ≠ a / 4096) → s'.machine.pmm.Used b) :
    ObjectsOK s' ∧ ∀ j, Live s' j ↔ j ≠ i ∧ Live s j := by
  have hself : ¬ Live s' i := by
    unfold Live
    rw [hobj, Function.update_self]
    exact fun h0 => h0 rfl
  have hother : ∀ j, j ≠ i → s'.objs j = s.objs j := fun j hj => by
    rw [hobj]
    exact Function.update_of_ne hj _ _
  have hold : ∀ j, Live s' j ↔ j ≠ i ∧ Live s j := by
    intro j
    by_cases hji : j = i
    · rw [hji]
      exact ⟨fun hl => absurd hl hself, fun hl => absurd rfl hl.1⟩
    · unfold Live
      rw [hother j hji]
      exact ⟨fun hl => ⟨hji, hl⟩, fun hl => hl.2⟩
  refine ⟨⟨fun j hj => ?_, fun j hj => ?_, fun j hj a ha => ?_, fun j k hj hk a ha hb => ?_⟩, hold⟩
  · obtain ⟨hji, hl⟩ := (hold j).1 hj
    rw [hother j hji]
    exact h.len j hl
  · obtain ⟨hji, hl⟩ := (hold j).1 hj
    rw [hother j hji]
    exact h.frames j hl
  · obtain ⟨hji, hl⟩ := (hold j).1 hj
    rw [hother j hji] at ha
    refine hused _ (h.used j hl a ha) fun a' ha' hdiv => ?_
    -- frames of different objects are different
    have h1 := (h.frames j hl).aligned a ha
    have h2 := (h.frames i hlive).aligned a' ha'
    obtain rfl : a = a' := by omega
    exact hji (h.apart j i hl hlive a ha ha')
  · obtain ⟨hji, hl⟩ := (hold j).1 hj
    obtain ⟨hki, hl'⟩ := (hold k).1 hk
    rw [hother j hji] at ha
    rw [hother k hki] at hb
    exact h.apart j k hl hl' a ha hb

/-! ### Processes -/

/-- Processes with page tables of their own, and the pages that successful calls of `shm_map` have mapped:
process, page and frame. -/
structure ShmWorld where
  shm : Shm
  procs : ℕ → Process
  maps : List (ℕ × ℕ × ℕ)

namespace ShmWorld

variable {w w' : ShmWorld} {pid page f : ℕ}

/-- The kernel while the process `pid` runs. -/
def running (w : ShmWorld) (pid : ℕ) : Shm :=
  { w.shm with machine := { w.shm.machine with cr3 := (w.procs pid).directory / 4096 } }

/-- The pages of an object at `base`. -/
def pagesAt (pid base : ℕ) (o : ShmObj) : List (ℕ × ℕ × ℕ) :=
  o.frames.mapIdx fun i a => (pid, add32 base (i * 0x1000) / 4096, a / 4096)

/-- What `shm_map` adds to the list of mapped pages. -/
def newMaps (w : ShmWorld) (pid id : ℕ) : Option ℕ → List (ℕ × ℕ × ℕ)
  | none => []
  | some base =>
    match w.shm.find id with
    | none => []
    | some i => pagesAt pid base (w.shm.objs i)

/-- A call by some process; `C` is about the calls of `shm_close`. -/
inductive Step (C : ShmWorld → ℕ → Prop) : ShmWorld → ShmWorld → Prop
  | create {w : ShmWorld} {s' : Shm} {r : Option ℕ} (pid fuel size : ℕ) (hasOut : Bool)
      (he : (w.running pid).shmCreate fuel hasOut size = some (r, s')) : Step C w { w with shm := s' }
  | map {w : ShmWorld} {s' : Shm} {r : Option ℕ} {p' : Process} (pid id : ℕ)
      (he : (w.running pid).shmMap (w.procs pid) id = some (r, s', p')) :
      Step C w ⟨s', Function.update w.procs pid p', w.maps ++ w.newMaps pid id r⟩
  | close {w : ShmWorld} (pid id : ℕ) (hC : C w id) : Step C w { w with shm := ((w.running pid).shmClose id).2 }

/-- The page table of `pid` maps `page` to the frame `f`, as the result of a successful `shm_map`. -/
def Maps (w : ShmWorld) (pid page f : ℕ) : Prop :=
  (pid, page, f) ∈ w.maps ∧ mapping (w.running pid).machine page = some f

/-- The frame belongs to a live object. -/
def Owned (w : ShmWorld) (f : ℕ) : Prop := ∃ i, Live w.shm i ∧ ∃ a ∈ (w.shm.objs i).frames, f = a / 4096

theorem Owned.same {s' : Shm} {procs : ℕ → Process} {l : List (ℕ × ℕ × ℕ)} (h : w.Owned f) (hs : Same w.shm s') :
    Owned ⟨s', procs, l⟩ f := by
  obtain ⟨i, hi, a, ha, hf⟩ := h
  exact ⟨i, hs.live.2 hi, a, by show a ∈ (s'.objs i).frames; rwa [hs.frames], hf⟩

/-- No object yet. -/
structure Start (w : ShmWorld) : Prop where
  empty : ∀ i, ¬ Live w.shm i
  maps : w.maps = []

/-- **The condition**: a call that frees an object comes only while no process has mapped it. -/
def CloseWhen (w : ShmWorld) (id : ℕ) : Prop := ∀ i, w.shm.find id = some i → (w.shm.objs i).refcount ≤ 1 →
  ∀ x ∈ w.maps, ∀ a ∈ (w.shm.objs i).frames, x.2.2 ≠ a / 4096

/-- What is mapped belongs to live objects. -/
structure WorldOK (w : ShmWorld) : Prop where
  objects : ObjectsOK w.shm
  maps : ∀ x ∈ w.maps, w.Owned x.2.2

theorem WorldOK.create (h : WorldOK w) {fuel size : ℕ} {hasOut : Bool} {r : Option ℕ} {s' : Shm}
    (he : (w.running pid).shmCreate fuel hasOut size = some (r, s')) : WorldOK { w with shm := s' } := by
  obtain ⟨q, hq, ⟨-, hobj, -, hsame⟩ | ⟨slot, o, hfree, -, -, -, hobj, htook, hlen, -⟩⟩ := create_cases he
  · have hs : Same w.shm s' := .of_objs hobj
    have hgrow : ObjectsOK s' := h.objects.grow hs fun b hb => by
      rw [hq]
      exact (hsame b).2 hb
    exact ⟨hgrow, fun x hx => (h.maps x hx).same hs⟩
  have hobj' : s'.objs = Function.update w.shm.objs slot o := hobj
  have htook' : Took w.shm.machine.pmm s'.machine.pmm o.pages := by
    rw [hq]
    exact htook
  refine ⟨h.objects.insert hobj' htook' hlen, fun x hx => ?_⟩
  obtain ⟨i, hi, a, ha, hxa⟩ := h.maps x hx
  have hne : i ≠ slot := by
    rintro rfl
    exact hfree hi
  have hs : s'.objs i = w.shm.objs i := by
    rw [hobj']
    exact Function.update_of_ne hne _ _
  refine ⟨i, ?_, a, ?_, hxa⟩
  · show (s'.objs i).id ≠ 0
    rwa [hs]
  · show a ∈ (s'.objs i).frames
    rwa [hs]

theorem WorldOK.map (h : WorldOK w) {r : Option ℕ} {s' : Shm} {p' : Process}
    (he : (w.running pid).shmMap (w.procs pid) id = some (r, s', p')) :
    WorldOK ⟨s', Function.update w.procs pid p', w.maps ++ w.newMaps pid id r⟩ := by
  obtain ⟨-, hmono, ⟨rfl, hobj⟩ | ⟨base, i, rfl, hf, hlive, hobj⟩⟩ := map_cases he
  · have hs : Same w.shm s' := .of_objs hobj
    refine ⟨h.objects.grow hs hmono, fun x hx => ?_⟩
    rw [newMaps, List.append_nil] at hx
    exact (h.maps x hx).same hs
  · have hs : Same w.shm s' := .of_update (i := i) hobj
    refine ⟨h.objects.grow hs hmono, fun x hx => ?_⟩
    rcases List.mem_append.1 hx with hx | hx
    · exact (h.maps x hx).same hs
    have hf' : w.shm.find id = some i := hf
    simp only [newMaps, hf', pagesAt, List.mem_mapIdx] at hx
    obtain ⟨k, hk, rfl⟩ := hx
    have hown : w.Owned ((w.shm.objs i).frames[k] / 4096) := ⟨i, hlive, _, List.getElem_mem hk, rfl⟩
    exact hown.same hs

theorem WorldOK.close (h : WorldOK w) (hC : CloseWhen w id) :
    WorldOK { w with shm := ((w.running pid).shmClose id).2 } := by
  obtain ⟨-, ⟨-, hs, -⟩ | ⟨i, -, hf, hlive, ⟨-, hm, hobj⟩ | ⟨href, hobj, hused, -⟩⟩⟩ := close_cases (w.running pid) id
  · rw [hs]
    exact ⟨h.objects.grow (.refl _) fun _ hb => hb, h.maps⟩
  · have hs : Same w.shm ((w.running pid).shmClose id).2 := .of_update (i := i) hobj
    refine ⟨h.objects.grow hs fun b hb => ?_, fun x hx => (h.maps x hx).same hs⟩
    rw [hm]
    exact hb
  · obtain ⟨hok, hlive'⟩ := h.objects.erase hlive hobj hused
    refine ⟨hok, fun x hx => ?_⟩
    obtain ⟨j, hj, a, ha, hxa⟩ := h.maps x hx
    have hji : j ≠ i := by
      rintro rfl
      exact hC j hf href x hx a ha hxa
    refine ⟨j, (hlive' j).2 ⟨hji, hj⟩, a, ?_, hxa⟩
    show a ∈ (((w.running pid).shmClose id).2.objs j).frames
    rw [hobj, Function.update_of_ne hji]
    exact ha

/-- **One call.** -/
theorem WorldOK.step (h : WorldOK w) (hstep : Step CloseWhen w w') : WorldOK w' := by
  cases hstep with
  | create pid fuel size hasOut he => exact h.create he
  | map pid id he => exact h.map he
  | close pid id hC => exact h.close hC

/-- **No freed frame stays mapped** in runs whose calls of `shm_close` meet `CloseWhen`: what a process maps
through `shm_map` belongs to a live object and is taken. -/
theorem shm_mapped_live {w₀ : ShmWorld} (h₀ : Start w₀) (hrun : Relation.ReflTransGen (Step CloseWhen) w₀ w) :
    ∀ pid page f, w.Maps pid page f → w.Owned f ∧ w.shm.machine.pmm.Used f := by
  have hstart : WorldOK w₀ := by
    refine ⟨⟨?_, ?_, ?_, ?_⟩, fun x hx => ?_⟩
    · exact fun i hi => absurd hi (h₀.empty i)
    · exact fun i hi => absurd hi (h₀.empty i)
    · exact fun i hi => absurd hi (h₀.empty i)
    · exact fun i _ hi => absurd hi (h₀.empty i)
    · rw [h₀.maps] at hx
      exact absurd hx List.not_mem_nil
  have h := run_inv (I := WorldOK) (fun _ _ ha hab => ha.step hab) hstart hrun
  intro pid page f hmap
  have hown := h.maps _ hmap.1
  obtain ⟨i, hi, a, ha, rfl⟩ := hown
  exact ⟨⟨i, hi, a, ha, rfl⟩, h.objects.used i hi a ha⟩

/-! ### A process that closes an object twice -/

/-- Processes 1 and 2, whose page directories are in frames 1 and 2. -/
def idle : ShmWorld where
  shm := ⟨fun _ => .zero, 1, ⟨fun _ => 0, 0, 0, 0⟩, twoSpaces⟩
  procs pid := ⟨0, pid, 1, pid * 0x1000, 0, 0, 0, 0xB0000000, 0⟩
  maps := []

theorem idle_start : Start idle := ⟨fun _ hi => hi rfl, rfl⟩

/-- Process 1 creates an object of one page. -/
def withObject : ShmWorld :=
  { idle with shm := (((idle.running 1).shmCreate 8 true 0x1000).map Prod.snd).getD idle.shm }

theorem withObject_eq : (idle.running 1).shmCreate 8 true 0x1000 = some (some 1, withObject.shm) :=
  eq_getD (d := idle.shm) rfl (by decide +kernel)

theorem withObject_step (C : ShmWorld → ℕ → Prop) : Step C idle withObject :=
  .create (r := some 1) 1 8 0x1000 true withObject_eq

/-- Process 2 maps it. -/
def withMap : ShmWorld :=
  let s := (((withObject.running 2).shmMap (withObject.procs 2) 1).map Prod.snd).getD
    (withObject.shm, withObject.procs 2)
  ⟨s.1, Function.update withObject.procs 2 s.2, withObject.maps ++ withObject.newMaps 2 1 (some 0xAFFFF000)⟩

theorem withMap_step (C : ShmWorld → ℕ → Prop) : Step C withObject withMap :=
  .map (r := some 0xAFFFF000) 2 1 (eq_getD (d := (withObject.shm, withObject.procs 2)) rfl (by decide +kernel))

/-- Process 1 closes it, twice. -/
def closedOnce : ShmWorld := { withMap with shm := ((withMap.running 1).shmClose 1).2 }

def closedTwice : ShmWorld := { closedOnce with shm := ((closedOnce.running 1).shmClose 1).2 }

/-- After the first close, the object is still there for process 2. -/
theorem shm_mapped_live_once : closedOnce.Maps 2 0xAFFFF 3 ∧ closedOnce.Owned 3 ∧
    closedOnce.shm.machine.pmm.Used 3 := by
  have hC : CloseWhen withMap 1 := by
    intro i hf href
    have hfind : withMap.shm.find 1 = some ⟨0, by decide⟩ := by decide +kernel
    obtain rfl := Option.some.inj (hfind.symm.trans hf)
    exact absurd href (by decide +kernel)
  have hrun : Relation.ReflTransGen (Step CloseWhen) idle closedOnce :=
    ((Relation.ReflTransGen.single (withObject_step _)).tail (withMap_step _)).tail (.close 1 1 hC)
  have hmap : closedOnce.Maps 2 0xAFFFF 3 := ⟨by decide +kernel, by decide +kernel⟩
  exact ⟨hmap, shm_mapped_live idle_start hrun 2 0xAFFFF 3 hmap⟩

/-- After the second one, its frame is free, and process 2 still maps it. -/
theorem shm_freed_mapped : ∃ w₀ w : ShmWorld, Start w₀ ∧ Relation.ReflTransGen (Step fun _ _ => True) w₀ w ∧
    w.Maps 2 0xAFFFF 3 ∧ ¬ w.Owned 3 ∧ ¬ w.shm.machine.pmm.Used 3 := by
  have hrun : Relation.ReflTransGen (Step fun _ _ => True) idle closedTwice :=
    (((Relation.ReflTransGen.single (withObject_step _)).tail (withMap_step _)).tail
      (.close 1 1 trivial)).tail (.close 1 1 trivial)
  have hlive : ∀ i, ¬ Live closedTwice.shm i := by
    unfold Live
    decide +kernel
  refine ⟨idle, closedTwice, idle_start, hrun, ⟨by decide +kernel, by decide +kernel⟩, ?_, by decide +kernel⟩
  rintro ⟨i, hi, -⟩
  exact hlive i hi

end ShmWorld

end Saynaa
