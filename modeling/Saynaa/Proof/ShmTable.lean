import Saynaa.Lib.Slots
import Saynaa.Proof.Shm

/-!
# The table of shared memory objects

* `ShmTable`: the objects, with what has happened to each id and each of its frames so far. Other users of the frame
  allocator may do anything as long as the frames of live objects stay taken.
* `TableOK`: what holds of the table. `TableInv`: what a step preserves.
* `shm_table`: `TableOK` holds in every run in which no object with `2^32 - 1` references is mapped.
* `shm_count_wraps`: one more mapping sets the counter of a live object to 0.
-/

namespace Saynaa

open Machine Shm Lib

/-- The objects and the processes; how many objects were created; for every id how many calls of `shm_map` and of
`shm_close` were successful, and which frames the object got when it was created; and for every id and frame how
often that frame of the object was freed. -/
structure ShmTable where
  shm : Shm
  procs : ℕ → Process
  created : ℕ
  mapped : ℕ → ℕ
  closed : ℕ → ℕ
  owned : ℕ → List ℕ
  freed : ℕ → ℕ → ℕ

/-- The frames of the object `id`. -/
def Shm.framesOf (s : Shm) (id : ℕ) : List ℕ := (s.find id).elim [] fun i => (s.objs i).frames

/-- Between `s` and `s'`, the frame `a` of the live object `id`, which was taken, was freed. -/
def Frees (s s' : Shm) (id a : ℕ) : Prop :=
  ∃ i, Live s i ∧ (s.objs i).id = id ∧ a ∈ (s.objs i).frames ∧ s.machine.pmm.Used (a / 4096) ∧
    ¬ s'.machine.pmm.Used (a / 4096)

instance (s : Shm) (i : Fin shmMaxObjects) : Decidable (Live s i) := inferInstanceAs (Decidable (_ ≠ _))

instance (s s' : Shm) (id a : ℕ) : Decidable (Frees s s' id a) := inferInstanceAs (Decidable (∃ _, _))

/-- `f`, with one more for `id` if `c`. -/
def tick (f : ℕ → ℕ) (id : ℕ) (c : Bool) : ℕ → ℕ := if c then Function.update f id (f id + 1) else f

namespace ShmTable

variable {w w' : ShmTable} {pid id : ℕ} {i j : Fin shmMaxObjects} {s' : Shm}

/-- The kernel while the process `pid` runs. -/
def running (w : ShmTable) (pid : ℕ) : Shm :=
  { w.shm with machine := { w.shm.machine with cr3 := (w.procs pid).directory / 4096 } }

/-- The state after a call that has led to `s'`. -/
def next (w : ShmTable) (s' : Shm) : ShmTable :=
  { w with shm := s', freed := fun id a => w.freed id a + if Frees w.shm s' id a then 1 else 0 }

/-- The state after a call of `shm_create` that has led to `s'` and returned `r`. -/
def nextCreated (w : ShmTable) (s' : Shm) (r : Option ℕ) : ShmTable :=
  { w.next s' with
    created := w.created + r.isSome.toNat
    owned := r.elim w.owned fun id => Function.update w.owned id (s'.framesOf id) }

/-- A call by some process, or a step of another user of the frame allocator; `C` is about the calls of `shm_map`. -/
inductive Step (C : ShmTable → ℕ → Prop) : ShmTable → ShmTable → Prop
  | create {w : ShmTable} {s' : Shm} {r : Option ℕ} (pid fuel size : ℕ) (hasOut : Bool)
      (he : (w.running pid).shmCreate fuel hasOut size = some (r, s')) :
      Step C w (w.nextCreated s' r)
  | map {w : ShmTable} {s' : Shm} {r : Option ℕ} {p' : Process} (pid id : ℕ) (hC : C w id)
      (he : (w.running pid).shmMap (w.procs pid) id = some (r, s', p')) :
      Step C w { w.next s' with procs := Function.update w.procs pid p', mapped := tick w.mapped id r.isSome }
  | close {w : ShmTable} (pid id : ℕ) :
      Step C w { w.next ((w.running pid).shmClose id).2 with
        closed := tick w.closed id ((w.running pid).shmClose id).1 }
  | other {w : ShmTable} (m : Machine) (heap : Heap) (procs : ℕ → Process)
      (hown : ∀ i, Live w.shm i → ∀ a ∈ (w.shm.objs i).frames, m.pmm.Used (a / 4096)) :
      Step C w { w with shm := { w.shm with machine := m, heap := heap }, procs := procs }

/-- No object yet. -/
structure Start (w : ShmTable) : Prop where
  empty : ∀ i, ¬ Live w.shm i
  nextId : w.shm.nextId = 1
  created : w.created = 0
  mapped : ∀ id, w.mapped id = 0
  closed : ∀ id, w.closed id = 0
  freed : ∀ id a, w.freed id a = 0

/-- **The property**: live objects have ids, which differ, and `⌈size / 4096⌉` frames, which differ and are taken;
the counter is 1 more than there were mappings without closes, and at least 1. A live object still has the frames
it was created with, and none of them was freed; of an object that is gone each frame was freed once, when the
closes caught up with the mappings. -/
structure TableOK (w : ShmTable) : Prop where
  ids : ∀ i j, Live w.shm i → Live w.shm j → (w.shm.objs i).id = (w.shm.objs j).id → i = j
  size : ∀ i, Live w.shm i → (w.shm.objs i).frames.length = ((w.shm.objs i).sizeBytes + 4095) / 4096
  frames : ∀ i, Live w.shm i → Frames (w.shm.objs i).frames
  apart : ∀ i j, Live w.shm i → Live w.shm j → ∀ a ∈ (w.shm.objs i).frames, a ∈ (w.shm.objs j).frames → i = j
  used : ∀ i, Live w.shm i → ∀ a ∈ (w.shm.objs i).frames, w.shm.machine.pmm.Used (a / 4096)
  count : ∀ i, Live w.shm i → (w.shm.objs i).refcount + w.closed (w.shm.objs i).id = 1 + w.mapped (w.shm.objs i).id
  pos : ∀ i, Live w.shm i → 1 ≤ (w.shm.objs i).refcount
  kept : ∀ i, Live w.shm i → w.owned (w.shm.objs i).id = (w.shm.objs i).frames ∧ ∀ a, w.freed (w.shm.objs i).id a = 0
  once : ∀ id, 1 ≤ id → id ≤ w.created → (∀ i, Live w.shm i → (w.shm.objs i).id ≠ id) →
    w.owned id ≠ [] ∧ (∀ a ∈ w.owned id, w.freed id a = 1) ∧ w.closed id = 1 + w.mapped id

/-- **The condition**: an object that is mapped has fewer than `2^32 - 1` references. -/
def MapWhen (w : ShmTable) (id : ℕ) : Prop :=
  ∀ i, w.shm.find id = some i → Live w.shm i → (w.shm.objs i).refcount < 2 ^ 32 - 1

/-- What a step preserves of the objects and the counts. -/
structure Counts (objs : Fin shmMaxObjects → ShmObj) (nextId created : ℕ) (mapped closed : ℕ → ℕ) (owned : ℕ → List ℕ)
    (freed : ℕ → ℕ → ℕ) : Prop where
  nextId : nextId = 1 + created
  ids : ∀ i j, (objs i).id ≠ 0 → (objs j).id ≠ 0 → (objs i).id = (objs j).id → i = j
  le : ∀ i, (objs i).id ≠ 0 → (objs i).id ≤ created
  size : ∀ i, (objs i).id ≠ 0 → (objs i).numPages = divideUp (objs i).sizeBytes 0x1000
  some : ∀ i, (objs i).id ≠ 0 → (objs i).sizeBytes ≠ 0 ∧ (objs i).pagesPhys ≠ 0
  count : ∀ i, (objs i).id ≠ 0 → (objs i).refcount + closed (objs i).id = 1 + mapped (objs i).id
  pos : ∀ i, (objs i).id ≠ 0 → 1 ≤ (objs i).refcount
  kept : ∀ i, (objs i).id ≠ 0 → owned (objs i).id = (objs i).frames ∧ ∀ a, freed (objs i).id a = 0
  once : ∀ id, 1 ≤ id → id ≤ created → (∀ i, (objs i).id ≠ id) →
    owned id ≠ [] ∧ (∀ a ∈ owned id, freed id a = 1) ∧ closed id = 1 + mapped id
  later : ∀ id, created < id → mapped id = 0 ∧ closed id = 0 ∧ ∀ a, freed id a = 0

/-- What a step preserves. -/
structure TableInv (w : ShmTable) : Prop where
  objects : ObjectsOK w.shm
  counts : Counts w.shm.objs w.shm.nextId w.created w.mapped w.closed w.owned w.freed

theorem length_frames (h : ObjectsOK w.shm) (hi : Live w.shm i) :
    (w.shm.objs i).frames.length = (w.shm.objs i).numPages := by
  unfold ShmObj.frames
  rw [List.length_take, h.len i hi, Nat.min_self]

theorem TableInv.ok (h : TableInv w) : TableOK w := by
  have hc := h.counts
  refine ⟨hc.ids, fun i hi => ?_, h.objects.frames, h.objects.apart, h.objects.used, hc.count, hc.pos, hc.kept,
    fun id h1 h2 hno => hc.once id h1 h2 fun i hi => ?_⟩
  · rw [length_frames h.objects hi, hc.size i hi, divideUp_eq (by decide)]
    rfl
  · refine hno i (fun h0 => ?_) hi
    rw [h0] at hi
    omega

theorem Start.inv (h : Start w) : TableInv w := by
  have hno : ∀ {P : Fin shmMaxObjects → Prop}, ∀ i, Live w.shm i → P i := fun i hi => absurd hi (h.empty i)
  refine ⟨⟨hno, hno, hno, fun i _ hi => absurd hi (h.empty i)⟩, ?_⟩
  refine ⟨?_, fun i _ hi => absurd hi (h.empty i), hno, hno, hno, hno, hno, hno, fun id h1 h2 => ?_,
    fun id _ => ⟨h.mapped id, h.closed id, h.freed id⟩⟩
  · rw [h.nextId, h.created]
  · rw [h.created] at h2
    omega

/-! ### Steps -/

/-- Nothing is freed where every taken frame stays taken. -/
theorem not_frees (hmono : ∀ b, w.shm.machine.pmm.Used b → s'.machine.pmm.Used b) :
    (w.next s').freed = w.freed := by
  funext id a
  show w.freed id a + _ = _
  rw [if_neg, Nat.add_zero]
  rintro ⟨i, -, -, -, hused, hu⟩
  exact hu (hmono _ hused)

theorem tick_self (f : ℕ → ℕ) (id : ℕ) : tick f id true id = f id + 1 := by
  rw [tick, if_pos rfl, Function.update_self]

theorem tick_ne (f : ℕ → ℕ) {id id' : ℕ} (h : id' ≠ id) (c : Bool) : tick f id c id' = f id' := by
  unfold tick
  split_ifs
  · exact Function.update_of_ne h _ _
  · rfl

@[simp] theorem tick_false (f : ℕ → ℕ) (id : ℕ) : tick f id false = f := rfl

section

variable {objs : Fin shmMaxObjects → ShmObj} {nextId created : ℕ} {mapped closed : ℕ → ℕ} {owned : ℕ → List ℕ}
  {freed : ℕ → ℕ → ℕ} {o : ShmObj}

/-- A new object. -/
theorem Counts.create (h : Counts objs nextId created mapped closed owned freed) (hfree : (objs i).id = 0)
    (hid : o.id = 1 + created) (hsize : o.numPages = divideUp o.sizeBytes 0x1000)
    (hsome : o.sizeBytes ≠ 0 ∧ o.pagesPhys ≠ 0) (href : o.refcount = 1) :
    Counts (Function.update objs i o) (2 + created) (created + 1) mapped closed
      (Function.update owned o.id o.frames) freed := by
  obtain ⟨hm, hcl, hfr⟩ := h.later (1 + created) (by omega)
  have hself : Function.update objs i o i = o := Function.update_self _ _ _
  have hother : ∀ j, j ≠ i → Function.update objs i o j = objs j := fun j hj => Function.update_of_ne hj _ _
  -- what holds of the new object and of the others
  have key : ∀ P : ShmObj → Prop, P o → (∀ j, (objs j).id ≠ 0 → P (objs j)) →
      ∀ j, (Function.update objs i o j).id ≠ 0 → P (Function.update objs i o j) := by
    intro P ho hobjs j hj
    by_cases hji : j = i
    · rwa [hji, hself]
    · rw [hother j hji] at hj ⊢
      exact hobjs j hj
  have hle := key (fun x => x.id ≤ created + 1) (by omega) fun j hj => (h.le j hj).trans (by omega)
  have hsizes := key (fun x => x.numPages = divideUp x.sizeBytes 0x1000) hsize h.size
  have hsomes := key (fun x => x.sizeBytes ≠ 0 ∧ x.pagesPhys ≠ 0) hsome h.some
  have hcount := key (fun x => x.refcount + closed x.id = 1 + mapped x.id) (by rw [hid, hm, hcl, href]) h.count
  have hpos := key (fun x => 1 ≤ x.refcount) (by omega) h.pos
  have hne : ∀ id, id ≤ created → Function.update owned o.id o.frames id = owned id :=
    fun id hle => Function.update_of_ne (by omega) _ _
  have hkept := key (fun x => Function.update owned o.id o.frames x.id = x.frames ∧ ∀ a, freed x.id a = 0)
    ⟨Function.update_self _ _ _, by rwa [hid]⟩ fun j hj => by
      rw [hne _ (h.le j hj)]
      exact h.kept j hj
  refine ⟨by omega, fun j k hj hk hjk => ?_, hle, hsizes, hsomes, hcount, hpos, hkept,
    fun id h1 h2 hno => ?_, fun id hlt => h.later id (by omega)⟩
  · by_cases hji : j = i <;> by_cases hki : k = i
    · rw [hji, hki]
    · rw [hji, hself, hother k hki] at hjk
      rw [hother k hki] at hk
      have := h.le k hk
      omega
    · rw [hki, hself, hother j hji] at hjk
      rw [hother j hji] at hj
      have := h.le j hj
      omega
    · rw [hother j hji] at hj hjk
      rw [hother k hki] at hk hjk
      exact h.ids j k hj hk hjk
  · have hnew : id ≠ 1 + created := by
      have h3 := hno i
      rw [hself, hid] at h3
      exact fun h4 => h3 h4.symm
    rw [hne id (by omega)]
    refine h.once id h1 (by omega) fun j => ?_
    by_cases hji : j = i
    · rw [hji, hfree]
      omega
    · have h3 := hno j
      rwa [hother j hji] at h3

/-- The counter of a live object changes with its mappings or closes. -/
theorem Counts.setRefcount (h : Counts objs nextId created mapped closed owned freed) (hi : (objs i).id ≠ 0)
    {n : ℕ} (hn : 1 ≤ n) {mapped' closed' : ℕ → ℕ} (hm : ∀ id, id ≠ (objs i).id → mapped' id = mapped id)
    (hcl : ∀ id, id ≠ (objs i).id → closed' id = closed id) (hc : n + closed' (objs i).id = 1 + mapped' (objs i).id) :
    Counts (Function.update objs i { objs i with refcount := n }) nextId created mapped' closed' owned freed := by
  set objs' := Function.update objs i { objs i with refcount := n } with ho
  have hself : objs' i = { objs i with refcount := n } := Function.update_self _ _ _
  have hother : ∀ j, j ≠ i → objs' j = objs j := fun j hj => Function.update_of_ne hj _ _
  have hkeep : ∀ j, objs' j = { objs j with refcount := (objs' j).refcount } := fun j => by
    by_cases hj : j = i
    · rw [hj, hself]
    · rw [hother j hj]
  have hid : ∀ j, (objs' j).id = (objs j).id := fun j => by rw [hkeep j]
  have hbytes : ∀ j, (objs' j).sizeBytes = (objs j).sizeBytes := fun j => by rw [hkeep j]
  refine ⟨h.nextId, fun j k hj hk hjk => ?_, fun j hj => ?_, fun j hj => ?_, fun j hj => ?_, fun j hj => ?_,
    fun j hj => ?_, fun j hj => ?_, fun id h1 h2 hno => ?_, fun id hlt => ?_⟩
  · rw [hid] at hj hk
    rw [hid, hid] at hjk
    exact h.ids j k hj hk hjk
  · rw [hid] at hj ⊢
    exact h.le j hj
  · rw [hid] at hj
    have hpages : (objs' j).numPages = (objs j).numPages := by rw [hkeep j]
    rw [hbytes, hpages]
    exact h.size j hj
  · rw [hid] at hj
    have hphys : (objs' j).pagesPhys = (objs j).pagesPhys := by rw [hkeep j]
    rw [hbytes, hphys]
    exact h.some j hj
  · rw [hid] at hj ⊢
    by_cases hji : j = i
    · rw [hji, hself]
      exact hc
    · -- another object has another id
      have hne : (objs j).id ≠ (objs i).id := fun he => hji (h.ids j i hj hi he)
      rw [hother j hji, hm _ hne, hcl _ hne]
      exact h.count j hj
  · rw [hid] at hj
    by_cases hji : j = i
    · rw [hji, hself]
      exact hn
    · rw [hother j hji]
      exact h.pos j hj
  · rw [hid] at hj ⊢
    have hframes : (objs' j).frames = (objs j).frames := by
      rw [hkeep j]
      rfl
    rw [hframes]
    exact h.kept j hj
  · have hne : id ≠ (objs i).id := fun he => hno i ((hid i).trans he.symm)
    rw [hm id hne, hcl id hne]
    exact h.once id h1 h2 fun j => by rw [← hid]; exact hno j
  · have hle := h.le i hi
    rw [hm id (by omega), hcl id (by omega)]
    exact h.later id hlt

/-- The last close, which frees every frame of the object. -/
theorem Counts.erase (h : Counts objs nextId created mapped closed owned freed) (hi : (objs i).id ≠ 0)
    (href : (objs i).refcount ≤ 1) (hne : (objs i).frames ≠ []) {freed' : ℕ → ℕ → ℕ}
    (hfreed : ∀ a ∈ (objs i).frames, freed' (objs i).id a = freed (objs i).id a + 1)
    (hfr : ∀ id, id ≠ (objs i).id → freed' id = freed id) :
    Counts (Function.update objs i .zero) nextId created mapped (tick closed (objs i).id true) owned freed' := by
  set objs' := Function.update objs i .zero with ho
  have hself : objs' i = .zero := Function.update_self _ _ _
  have hother : ∀ j, j ≠ i → objs' j = objs j := fun j hj => Function.update_of_ne hj _ _
  have hlive : ∀ j, (objs' j).id ≠ 0 → j ≠ i ∧ (objs j).id ≠ 0 ∧ (objs j).id ≠ (objs i).id ∧ objs' j = objs j := by
    intro j hj
    have hji : j ≠ i := by
      rintro rfl
      rw [hself] at hj
      exact hj rfl
    rw [hother j hji] at hj
    exact ⟨hji, hj, fun he => hji (h.ids j i hj hi he), hother j hji⟩
  have hcount := h.count i hi
  have hpos := h.pos i hi
  obtain ⟨hown, hkept⟩ := h.kept i hi
  refine ⟨h.nextId, fun j k hj hk hjk => ?_, fun j hj => ?_, fun j hj => ?_, fun j hj => ?_, fun j hj => ?_,
    fun j hj => ?_, fun j hj => ?_, fun id h1 h2 hno => ?_, fun id hlt => ?_⟩
  · obtain ⟨-, hj', -, ej⟩ := hlive j hj
    obtain ⟨-, hk', -, ek⟩ := hlive k hk
    rw [ej, ek] at hjk
    exact h.ids j k hj' hk' hjk
  · obtain ⟨-, hj', -, ej⟩ := hlive j hj
    rw [ej]
    exact h.le j hj'
  · obtain ⟨-, hj', -, ej⟩ := hlive j hj
    rw [ej]
    exact h.size j hj'
  · obtain ⟨-, hj', -, ej⟩ := hlive j hj
    rw [ej]
    exact h.some j hj'
  · obtain ⟨-, hj', hne, ej⟩ := hlive j hj
    rw [ej, tick_ne _ hne]
    exact h.count j hj'
  · obtain ⟨-, hj', -, ej⟩ := hlive j hj
    rw [ej]
    exact h.pos j hj'
  · obtain ⟨-, hj', hne, ej⟩ := hlive j hj
    rw [ej, hfr _ hne]
    exact h.kept j hj'
  · by_cases hid : id = (objs i).id
    · subst hid
      rw [tick_self, hown]
      refine ⟨hne, fun a ha => ?_, by omega⟩
      rw [hfreed a ha, hkept a]
    · rw [tick_ne _ hid, hfr _ hid]
      refine h.once id h1 h2 fun j => ?_
      by_cases hji : j = i
      · rw [hji]
        exact fun he => hid he.symm
      · rw [← hother j hji]
        exact hno j
  · have hle := h.le i hi
    have hne : id ≠ (objs i).id := by omega
    rw [tick_ne _ hne, hfr _ hne]
    exact h.later id hlt

end

/-- The frames of a live object, found by its id. -/
theorem framesOf_eq {s : Shm} (hids : ∀ i j, Live s i → Live s j → (s.objs i).id = (s.objs j).id → i = j)
    (hi : Live s i) : s.framesOf (s.objs i).id = (s.objs i).frames := by
  obtain ⟨j, hj⟩ : ∃ j, s.find (s.objs i).id = some j := by
    refine Option.isSome_iff_exists.1 (List.find?_isSome.2 ⟨i, List.mem_finRange i, ?_⟩)
    exact decide_eq_true rfl
  have hid := find_eq hj
  have hlive : Live s j := by
    unfold Live
    rw [hid]
    exact hi
  unfold Shm.framesOf
  rw [hj, hids j i hlive hi hid]
  rfl

theorem TableInv.create (h : TableInv w) {fuel size : ℕ} {hasOut : Bool} {r : Option ℕ}
    (hc : w.created + r.isSome.toNat < 2 ^ 32 - 1)
    (he : (w.running pid).shmCreate fuel hasOut size = some (r, s')) :
    TableInv (w.nextCreated s' r) := by
  obtain ⟨q, hq, ⟨rfl, hobj, hnext, hsame⟩ |
    ⟨slot, o, hfree, rfl, hid, -, hobj, htook, hlen, hnum, hsize, h0, hpp, href⟩⟩ :=
    create_cases he
  · have hmono : ∀ b, w.shm.machine.pmm.Used b → s'.machine.pmm.Used b := fun b hb => by
      rw [hq]
      exact (hsame b).2 hb
    refine ⟨h.objects.grow (.of_objs hobj) hmono, ?_⟩
    show Counts s'.objs s'.nextId (w.created + 0) _ _ w.owned (w.next s').freed
    rw [not_frees hmono]
    rw [hobj, hnext]
    exact h.counts
  · have hmono : ∀ b, w.shm.machine.pmm.Used b → s'.machine.pmm.Used b := fun b hb => by
      rw [hq]
      exact (htook.used b).2 (.inl hb)
    have htook' : Took w.shm.machine.pmm s'.machine.pmm o.pages := by
      rw [hq]
      exact htook
    have hobj' : s'.objs = Function.update w.shm.objs slot o := hobj
    refine ⟨h.objects.insert hobj' htook' hlen, ?_⟩
    have hc' : w.created + 1 < 2 ^ 32 - 1 := hc
    have hn : (o.id, s'.nextId) = (1 + w.created, 2 + w.created) := by
      rw [hid]
      have hn0 : (w.running pid).nextId = 1 + w.created := h.counts.nextId
      unfold newId
      rw [if_neg (by omega), hn0, add32_of_lt (by omega)]
      exact congrArg _ (by omega)
    obtain ⟨hid', hnext'⟩ := Prod.mk.inj hn
    have hfree' : (w.shm.objs slot).id = 0 := not_not.1 hfree
    have hcreate := h.counts.create hfree' hid' (by rw [hnum, hsize]) ⟨by rwa [hsize], hpp⟩ href
    show Counts s'.objs s'.nextId (w.created + 1) _ _ (Function.update w.owned o.id (s'.framesOf o.id))
      (w.next s').freed
    -- the object is found by its id
    have hself : s'.objs slot = o := by rw [hobj', Function.update_self]
    have hframes : s'.framesOf o.id = o.frames := by
      have hlive : Live s' slot := by
        unfold Live
        rw [hself, hid']
        omega
      rw [← hself]
      refine framesOf_eq (fun i j hi hj => ?_) hlive
      unfold Live at hi hj
      rw [hobj'] at hi hj ⊢
      exact hcreate.ids i j hi hj
    rw [not_frees hmono, hframes, hobj', hnext']
    exact hcreate

theorem TableInv.map (h : TableInv w) (hC : MapWhen w id) {r : Option ℕ} {p' : Process}
    (he : (w.running pid).shmMap (w.procs pid) id = some (r, s', p')) :
    TableInv { w.next s' with procs := Function.update w.procs pid p', mapped := tick w.mapped id r.isSome } := by
  obtain ⟨hnext, hmono, ⟨rfl, hobj⟩ | ⟨base, i, rfl, hf, hlive, hobj⟩⟩ := map_cases he
  · refine ⟨h.objects.grow (.of_objs hobj) hmono, ?_⟩
    rw [not_frees hmono]
    show Counts s'.objs s'.nextId w.created w.mapped _ w.owned _
    rw [hobj, hnext]
    exact h.counts
  · have hid : (w.shm.objs i).id = id := find_eq hf
    have href : (w.shm.objs i).refcount < 2 ^ 32 - 1 := hC i hf hlive
    have hcount := h.counts.count i hlive
    have hobj' : s'.objs = Function.update w.shm.objs i
        { w.shm.objs i with refcount := (w.shm.objs i).refcount + 1 } := by
      rw [hobj, ← add32_of_lt (a := (w.shm.objs i).refcount) (b := 1) (by omega)]
      rfl
    refine ⟨h.objects.grow (.of_update hobj') hmono, ?_⟩
    rw [not_frees hmono]
    show Counts s'.objs s'.nextId w.created (tick w.mapped id true) w.closed w.owned _
    rw [hobj', hnext]
    refine h.counts.setRefcount hlive (by omega) (fun id' hne => tick_ne _ (hid ▸ hne) _) (fun _ _ => rfl) ?_
    rw [hid] at hcount ⊢
    rw [tick_self]
    omega

theorem TableInv.close (h : TableInv w) (pid id : ℕ) : TableInv { w.next ((w.running pid).shmClose id).2 with
    closed := tick w.closed id ((w.running pid).shmClose id).1 } := by
  obtain ⟨hnext, ⟨hr, hs, -⟩ | ⟨i, hr, hf, hlive, hcase⟩⟩ := close_cases (w.running pid) id
  · -- no object has the id
    have hmono : ∀ b, w.shm.machine.pmm.Used b → ((w.running pid).shmClose id).2.machine.pmm.Used b := by
      rw [hs]
      exact fun _ hb => hb
    refine ⟨h.objects.grow (.of_objs (by rw [hs]; rfl)) hmono, ?_⟩
    rw [hr, not_frees hmono]
    show Counts ((w.running pid).shmClose id).2.objs ((w.running pid).shmClose id).2.nextId _ _ w.closed w.owned _
    rw [hs]
    exact h.counts
  · have hid : (w.shm.objs i).id = id := find_eq hf
    have hlive' : Live w.shm i := hlive
    have hcount := h.counts.count i hlive
    rcases hcase with ⟨hgt, hm, hobj⟩ | ⟨hle, hobj, hkeep, hfreed⟩
    · -- others still use it
      have hobj' : ((w.running pid).shmClose id).2.objs = Function.update w.shm.objs i
          { w.shm.objs i with refcount := (w.shm.objs i).refcount - 1 } := hobj
      have hmono : ∀ b, w.shm.machine.pmm.Used b → ((w.running pid).shmClose id).2.machine.pmm.Used b := by
        rw [hm]
        exact fun _ hb => hb
      have hgt' : 1 < (w.shm.objs i).refcount := hgt
      refine ⟨h.objects.grow (.of_update hobj') hmono, ?_⟩
      rw [hr, not_frees hmono]
      show Counts ((w.running pid).shmClose id).2.objs ((w.running pid).shmClose id).2.nextId _ _
        (tick w.closed id true) w.owned _
      rw [hobj', hnext]
      refine h.counts.setRefcount hlive (by omega) (fun _ _ => rfl) (fun id' hne => tick_ne _ (hid ▸ hne) _) ?_
      show (w.shm.objs i).refcount - 1 + tick w.closed id true (w.shm.objs i).id = 1 + w.mapped (w.shm.objs i).id
      rw [hid] at hcount ⊢
      rw [tick_self]
      omega
    · -- its last user closes it
      obtain ⟨hok, -⟩ := h.objects.erase hlive' hobj hkeep
      refine ⟨hok, ?_⟩
      obtain ⟨hsize, hpp⟩ := h.counts.some i hlive
      have hne : (w.shm.objs i).frames ≠ [] := by
        intro hnil
        have hlen := length_frames h.objects hlive
        rw [hnil, h.counts.size i hlive, divideUp_eq (by decide)] at hlen
        simp only [List.length_nil] at hlen
        omega
      show Counts ((w.running pid).shmClose id).2.objs ((w.running pid).shmClose id).2.nextId _ _
        (tick w.closed id ((w.running pid).shmClose id).1) w.owned (w.next ((w.running pid).shmClose id).2).freed
      rw [hr, hobj, hnext, ← hid]
      refine h.counts.erase hlive hle hne (fun a ha => ?_) fun id' hid' => ?_
      · -- every frame of this object is freed
        have hgone := hfreed hpp a ha ((h.objects.frames i hlive).ne_zero a ha)
        exact congrArg (w.freed _ a + ·) (if_pos ⟨i, hlive, rfl, ha, h.objects.used i hlive a ha, hid ▸ hgone⟩)
      · -- and no frame of another one
        funext a
        show w.freed id' a + _ = _
        rw [if_neg, Nat.add_zero]
        rintro ⟨j, hj, hjid, ha, -, hu⟩
        rw [hid] at hu
        refine hu (hkeep _ (h.objects.used j hj a ha) fun a' ha' hdiv => ?_)
        have h1 := (h.objects.frames j hj).aligned a ha
        have h2 := (h.objects.frames i hlive).aligned a' ha'
        obtain rfl : a = a' := by omega
        have hji := h.objects.apart j i hj hlive a ha ha'
        rw [hji] at hjid
        exact hid' hjid.symm

theorem TableInv.other (h : TableInv w) {m : Machine} {heap : Heap} {procs : ℕ → Process}
    (hown : ∀ i, Live w.shm i → ∀ a ∈ (w.shm.objs i).frames, m.pmm.Used (a / 4096)) :
    TableInv { w with shm := { w.shm with machine := m, heap := heap }, procs := procs } :=
  ⟨⟨h.objects.len, h.objects.frames, hown, h.objects.apart⟩, h.counts⟩

theorem Step.created_le {C : ShmTable → ℕ → Prop} (hs : Step C w w') : w.created ≤ w'.created := by
  cases hs with
  | create => exact Nat.le_add_right _ _
  | map => exact le_refl w.created
  | close => exact le_refl w.created
  | other => exact le_refl w.created

/-- **One step.** -/
theorem TableInv.step (h : TableInv w) (hc : w'.created < 2 ^ 32 - 1) (hs : Step MapWhen w w') : TableInv w' := by
  cases hs with
  | create pid fuel size hasOut he => exact h.create hc he
  | map pid id hC he => exact h.map hC he
  | close pid id => exact h.close pid id
  | other m heap procs hown => exact h.other hown

/-- **The table of objects** in every run with fewer than `2^32 - 1` creations in which no object with `2^32 - 1`
references is mapped. -/
theorem shm_table {w₀ : ShmTable} (h₀ : Start w₀) (hrun : Relation.ReflTransGen (Step MapWhen) w₀ w)
    (hc : w.created < 2 ^ 32 - 1) : TableOK w := by
  have key : ∀ u, Relation.ReflTransGen (Step MapWhen) w₀ u → u.created < 2 ^ 32 - 1 → TableInv u := by
    intro u hu
    induction hu with
    | refl => exact fun _ => h₀.inv
    | tail _ hs ih => exact fun hlt => (ih (lt_of_le_of_lt hs.created_le hlt)).step hlt hs
  exact (key w hrun hc).ok

/-! ### A counter that wraps around -/

/-- The table while no object exists, and with an object of one page that process 1 has created. -/
def noObject : ShmTable :=
  ⟨ShmWorld.idle.shm, ShmWorld.idle.procs, 0, fun _ => 0, fun _ => 0, fun _ => [], fun _ _ => 0⟩

def oneObject : ShmTable := noObject.nextCreated ShmWorld.withObject.shm (some 1)

theorem noObject_start : Start noObject := ⟨fun _ hi => hi rfl, rfl, rfl, fun _ => rfl, fun _ => rfl, fun _ _ => rfl⟩

theorem noObject_step (C : ShmTable → ℕ → Prop) : Step C noObject oneObject :=
  .create 1 8 0x1000 true ShmWorld.withObject_eq

/-- Process 2 maps it. -/
def mappedObject : ShmTable :=
  let y := (((oneObject.running 2).shmMap (oneObject.procs 2) 1).map Prod.snd).getD (oneObject.shm, oneObject.procs 2)
  { oneObject.next y.1 with procs := Function.update oneObject.procs 2 y.2, mapped := tick oneObject.mapped 1 true }

/-- Process `pid` closes it. -/
def closeObject (w : ShmTable) (pid : ℕ) : ShmTable :=
  { w.next ((w.running pid).shmClose 1).2 with closed := tick w.closed 1 ((w.running pid).shmClose 1).1 }

/-- After both have closed it, its frame has been freed, once. -/
def goneObject : ShmTable := closeObject (closeObject mappedObject 1) 2

/-- The slot of the object, and what mapping it in process 2 leaves of the machine. -/
def firstSlot : Fin shmMaxObjects := ⟨0, by decide⟩

def theObject : ShmObj := ShmWorld.withObject.shm.objs firstSlot

def mappedMachine : Machine :=
  (((ShmWorld.withObject.running 2).machine.shmMapLoop 0xAFFFF000 0 theObject.frames).map Prod.snd).getD
    ShmWorld.withObject.shm.machine

/-- The object, and what the calls below make of it. -/
structure Sampled : Prop where
  find : ShmWorld.withObject.shm.find 1 = some firstSlot
  one : theObject.id = 1 ∧ theObject.refcount = 1
  frames : theObject.numPages = 1 ∧ theObject.pagesPhys ≠ 0 ∧ theObject.frames = [0x3000]
  used : ShmWorld.withObject.shm.machine.pmm.Used 3
  alone : ∀ i ≠ firstSlot, (ShmWorld.withObject.shm.objs i).id = 0
  mapped : ((oneObject.running 2).shmMap (oneObject.procs 2) 1).map Prod.fst = some (some 0xAFFFF000)
  loop : ((ShmWorld.withObject.running 2).machine.shmMapLoop 0xAFFFF000 0 theObject.frames).map Prod.fst = some true
  gone : goneObject.owned 1 = [0x3000] ∧ ∀ i, (goneObject.shm.objs i).id = 0

theorem sampled : Sampled := by constructor <;> decide +kernel

theorem goneObject_run : Relation.ReflTransGen (Step MapWhen) noObject goneObject := by
  have hwhen : MapWhen oneObject 1 := by
    intro i hf _
    obtain rfl := Option.some.inj (sampled.find.symm.trans hf)
    have hone : (oneObject.shm.objs firstSlot).refcount = 1 := sampled.one.2
    rw [hone]
    decide
  have hmap : Step MapWhen oneObject mappedObject :=
    .map (r := some 0xAFFFF000) 2 1 hwhen (eq_getD (d := (oneObject.shm, oneObject.procs 2)) rfl sampled.mapped)
  exact (((Relation.ReflTransGen.single (noObject_step _)).tail hmap).tail (.close 1 1)).tail (.close 2 1)

theorem shm_table_gone : TableOK goneObject ∧ goneObject.created = 1 ∧ goneObject.owned 1 = [0x3000] ∧
    goneObject.freed 1 0x3000 = 1 ∧ goneObject.closed 1 = 1 + goneObject.mapped 1 := by
  have hcreated : goneObject.created = 1 := rfl
  have hok : TableOK goneObject := shm_table noObject_start goneObject_run (by rw [hcreated]; decide)
  obtain ⟨howned, hnone⟩ := sampled.gone
  obtain ⟨-, hfreed, hclosed⟩ := hok.once 1 (by decide) (by rw [hcreated]) fun i hi => absurd (hnone i) hi
  rw [howned] at hfreed
  exact ⟨hok, hcreated, howned, hfreed 0x3000 List.mem_cons_self, hclosed⟩

/-- The object with `n + 1` references, of which the counter shows what fits. -/
def counted (n : ℕ) : Shm := ShmWorld.withObject.shm.setObj firstSlot { theObject with refcount := (1 + n) % 2 ^ 32 }

theorem counted_zero : counted 0 = ShmWorld.withObject.shm := by
  have hobj : { theObject with refcount := (1 + 0) % 2 ^ 32 } = theObject := by
    have h1 : (1 + 0) % 2 ^ 32 = theObject.refcount := by
      rw [sampled.one.2]
      decide
    rw [h1]
  unfold counted setObj
  rw [hobj, theObject, Function.update_eq_self]

theorem counted_self (n : ℕ) : (counted n).objs firstSlot = { theObject with refcount := (1 + n) % 2 ^ 32 } :=
  setObj_self _ _ _

theorem counted_other (n : ℕ) {i : Fin shmMaxObjects} (hi : i ≠ firstSlot) :
    (counted n).objs i = ShmWorld.withObject.shm.objs i := setObj_ne _ hi _

theorem find_counted (n : ℕ) : (counted n).find 1 = some firstSlot := by
  have hid : ∀ i, ((counted n).objs i).id = (ShmWorld.withObject.shm.objs i).id := by
    intro i
    by_cases hi : i = firstSlot
    · rw [hi, counted_self]
      rfl
    · rw [counted_other n hi]
  have hfind := sampled.find
  unfold Shm.find at hfind ⊢
  simp only [hid]
  exact hfind

/-- One mapping more. -/
theorem map_counted (n : ℕ) : ∃ p', { counted n with machine := (ShmWorld.withObject.running 2).machine }.shmMap
    (noObject.procs 2) 1 = some (some 0xAFFFF000, { counted (n + 1) with machine := mappedMachine }, p') := by
  have hloop : (ShmWorld.withObject.running 2).machine.shmMapLoop 0xAFFFF000 0 theObject.frames =
      some (true, mappedMachine) := eq_getD (d := ShmWorld.withObject.shm.machine) rfl sampled.loop
  have hobj := counted_self n
  obtain ⟨hpages, hphys, -⟩ := sampled.frames
  have h0 : ¬ (theObject.id = 0 ∨ theObject.numPages = 0 ∨ theObject.pagesPhys = 0) := by
    rw [sampled.one.1, hpages]
    omega
  have hbase : alignTo (sub32 0xB0000000 (theObject.numPages * 0x1000 % 2 ^ 32)) 0x1000 = 0xAFFFF000 := by
    rw [hpages]
    decide
  have hnext : add32 ((1 + n) % 2 ^ 32) 1 = (1 + (n + 1)) % 2 ^ 32 := by
    unfold add32
    omega
  have hset : (counted n).setObj firstSlot { theObject with refcount := (1 + (n + 1)) % 2 ^ 32 } =
    counted (n + 1) := by
    unfold counted setObj
    simp only [Function.update_idem]
  have hfind : Shm.find { counted n with machine := (ShmWorld.withObject.running 2).machine } 1 = some firstSlot :=
    find_counted n
  have hframes : ({ theObject with refcount := (1 + n) % 2 ^ 32 } : ShmObj).frames = theObject.frames := rfl
  unfold shmMap
  rw [hfind]
  simp only [hobj]
  rw [if_neg h0, if_neg (by decide : ¬ (noObject.procs 2).shmNextVirt = 0)]
  have hvirt : (noObject.procs 2).shmNextVirt = 0xB0000000 := rfl
  rw [hvirt, hbase, hframes, hloop, hnext, ← hset]
  exact ⟨_, rfl⟩

/-- **`n` mappings by processes that come and go**, whose page tables are theirs. -/
theorem counted_run (n : ℕ) : ∃ w, Relation.ReflTransGen (Step fun _ _ => True) noObject w ∧ w.shm = counted n ∧
    w.procs = noObject.procs ∧ w.created = 1 ∧ w.mapped 1 = n ∧ w.closed 1 = 0 := by
  induction n with
  | zero => exact ⟨oneObject, .single (noObject_step _), counted_zero.symm, rfl, rfl, rfl, rfl⟩
  | succ n ih =>
    obtain ⟨w, hrun, hshm, hprocs, hcr, hm, hcl⟩ := ih
    obtain ⟨p', hmap⟩ := map_counted n
    have hrunning : w.running 2 = { counted n with machine := (ShmWorld.withObject.running 2).machine } := by
      unfold ShmTable.running
      rw [hshm, hprocs]
      rfl
    rw [← hrunning, ← hprocs] at hmap
    have h1 := Step.map (C := fun _ _ => True) 2 1 trivial hmap
    -- the process ends, and the next one has page tables of its own
    have h2 := Step.other (C := fun _ _ => True)
      (w := { w.next { counted (n + 1) with machine := mappedMachine } with
        procs := Function.update w.procs 2 p', mapped := tick w.mapped 1 true })
      ShmWorld.withObject.shm.machine ShmWorld.withObject.shm.heap noObject.procs ?_
    · refine ⟨_, (hrun.tail h1).tail h2, rfl, rfl, hcr, ?_, hcl⟩
      show tick w.mapped 1 true 1 = n + 1
      rw [tick_self, hm]
    · intro i hi a ha
      by_cases hif : i = firstSlot
      · subst hif
        change a ∈ ((counted (n + 1)).objs firstSlot).frames at ha
        have hframe : ({ theObject with refcount := (1 + (n + 1)) % 2 ^ 32 } : ShmObj).frames = [0x3000] :=
          sampled.frames.2.2
        rw [counted_self, hframe, List.mem_singleton] at ha
        rw [ha]
        exact sampled.used
      · change ((counted (n + 1)).objs i).id ≠ 0 at hi
        rw [counted_other _ hif] at hi
        exact absurd (sampled.alone i hif) hi

/-- **`2^32 - 1` mappings set the counter of a live object to 0.** -/
theorem shm_count_wraps : ∃ w₀ w i, Start w₀ ∧ Relation.ReflTransGen (Step fun _ _ => True) w₀ w ∧ w.created = 1 ∧
    Live w.shm i ∧ (w.shm.objs i).refcount = 0 ∧ w.mapped (w.shm.objs i).id = 2 ^ 32 - 1 ∧
      w.closed (w.shm.objs i).id = 0 ∧ ¬ TableOK w := by
  obtain ⟨w, hrun, hshm, -, hcr, hm, hcl⟩ := counted_run (2 ^ 32 - 1)
  have hobj : w.shm.objs firstSlot = { theObject with refcount := 0 } := by
    rw [hshm]
    exact counted_self _
  have hid : (w.shm.objs firstSlot).id = 1 := by
    rw [hobj]
    exact sampled.one.1
  have hlive : Live w.shm firstSlot := by
    unfold Live
    rw [hid]
    decide
  have href : (w.shm.objs firstSlot).refcount = 0 := by rw [hobj]
  refine ⟨noObject, w, firstSlot, noObject_start, hrun, hcr, hlive, href, ?_, ?_, fun hok => ?_⟩
  · rw [hid, hm]
  · rw [hid, hcl]
  · have hpos := hok.pos firstSlot hlive
    rw [href] at hpos
    omega

end ShmTable

end Saynaa
