import Saynaa.Proof.KernelHeap
import Saynaa.Proof.Shm

/-!
# `shm_create` rolls back

* `Delivers`: how many frames the allocator still has.
* `allocFrames_delivers`: the loop over the pages succeeds exactly when it has enough.
* `create_rolls_back`: `shm_create` succeeds exactly when size, slot and frames allow it, and leaves
  everything as it was when it does not.
-/

namespace Saynaa

open Lib Heap Shm Pmm

variable {s s' : Shm} {live : Set ℕ} {size k : ℕ}

/-- **The allocator delivers `k` more frames**, and answers 0 to the request after them. -/
def Pmm.Delivers (p : Pmm) : ℕ → Prop
  | 0 => ∃ q, p.pmmAllocPage = some (0, q)
  | k + 1 => ∃ a q, p.pmmAllocPage = some (a, q) ∧ a ≠ 0 ∧ q.Delivers k

/-- **Nothing has changed** for callers: the objects, the next id, the free frames and the used memory. -/
structure Unchanged (s s' : Shm) : Prop where
  objs : s'.objs = s.objs
  nextId : s'.nextId = s.nextId
  frames : ∀ b, s'.machine.pmm.Used b ↔ s.machine.pmm.Used b
  memory : s'.heap.usedMemory = s.heap.usedMemory

theorem Unchanged.refl (s : Shm) : Unchanged s s := ⟨rfl, rfl, fun _ => Iff.rfl, rfl⟩

/-- **A new object** of `n` pages in a free slot, with the frames that were taken. -/
structure Created (s s' : Shm) (size n new : ℕ) (slot : Fin shmMaxObjects) : Prop where
  free : ¬ Live s slot
  others : s'.objs = Function.update s.objs slot (s'.objs slot)
  ident : (s'.objs slot).id = new
  ident_ne : new ≠ 0
  bytes : (s'.objs slot).sizeBytes = size
  pages : (s'.objs slot).numPages = n
  refcount : (s'.objs slot).refcount = 1
  length : (s'.objs slot).pages.length = n
  took : Took s.machine.pmm s'.machine.pmm (s'.objs slot).pages

/-- **The loop over the pages** ends, and has all frames exactly when there are enough. -/
theorem allocFrames_delivers {n : ℕ} {p : Pmm} {taken : List ℕ} (h : p.Delivers k) :
    ∃ r q, p.allocFrames taken n = some (r, q) ∧ (r.isSome ↔ n ≤ k) := by
  induction n generalizing p taken k with
  | zero => exact ⟨some taken, p, rfl, by simp⟩
  | succ n ih =>
    cases k with
    | zero =>
      obtain ⟨q, hq⟩ := h
      refine ⟨none, q.freeAll taken, ?_, by simp⟩
      unfold Pmm.allocFrames
      rw [hq]
      rfl
    | succ k =>
      obtain ⟨a, q, hq, ha, hk⟩ := h
      obtain ⟨r, q', hrec, hr⟩ := @ih k q (taken ++ [a]) hk
      refine ⟨r, q', ?_, by rw [hr]; omega⟩
      unfold Pmm.allocFrames
      rw [hq]
      show (if a = 0 then _ else _) = _
      rw [if_neg ha]
      exact hrec

theorem allocSlot_none : s.allocSlot = none ↔ ∀ i, Live s i := by
  unfold Shm.allocSlot Live
  simp

/-- The page array is small. -/
theorem divideUp_pages (hs : size < 2 ^ 32) :
    divideUp size 0x1000 = (size + 4095) / 4096 ∧ 4 * divideUp size 0x1000 ≤ kernelHeapSize := by
  have heq : divideUp size 0x1000 = (size + 4095) / 4096 := divideUp_eq (by norm_num)
  refine ⟨heq, ?_⟩
  rw [heq]
  unfold kernelHeapSize
  omega

/-- **The page array** is there, and freeing it restores the counter. -/
theorem pageArray (hx : BlocksReady (s.heap, live)) (hs : size < 2 ^ 32)
    (hroom : ¬ Refused s.heap.setup minAlign (4 * divideUp size 0x1000)) :
    ∃ pages heap N, (∀ fuel, N < fuel → s.heap.kmalloc fuel (4 * divideUp size 0x1000) = some (some (pages, heap))) ∧
      pages ≠ 0 ∧ (heap.kfree pages).usedMemory = s.heap.usedMemory := by
  obtain ⟨-, hle⟩ := divideUp_pages hs
  have hlt : 4 * divideUp size 0x1000 < 2 ^ 32 := lt_of_le_of_lt hle (by norm_num [kernelHeapSize])
  rcases alloc_ready hx alignOK_min hle with hab | ⟨pages, heap, ⟨N, hN⟩, hready, -⟩
  · exact absurd ((aborts_iff hx alignOK_min hlt).1 hab) hroom
  have hin := (hready.inside (Set.mem_insert pages live)).1
  refine ⟨pages, heap, N, hN, ?_, alloc_kfree_account hx alignOK_min hle (hN (N + 1) (Nat.lt_succ_self N))⟩
  unfold kernelHeapBegin at hin
  omega

/-- `shm_create` when there is a slot and a page array: the frames decide. -/
theorem shmCreate_eq {fuel pages : ℕ} {heap : Heap} {slot : Fin shmMaxObjects} {frames : Option (List ℕ)} {q : Pmm}
    (h0 : size ≠ 0) (hslot : s.allocSlot = some slot)
    (hk : s.heap.kmalloc fuel (4 * divideUp size 0x1000) = some (some (pages, heap))) (hp : pages ≠ 0)
    (hal : s.machine.pmm.allocFrames [] (divideUp size 0x1000) = some (frames, q)) :
    s.shmCreate fuel true size = some (frames.elim
      (none, { s with machine := s.machine.withPmm q, heap := heap.kfree pages }) fun l =>
        (some s.newId.1, { s with heap := heap, machine := s.machine.withPmm q, nextId := s.newId.2 }.setObj slot
          ⟨s.newId.1, size, divideUp size 0x1000, pages, l, 1⟩)) := by
  unfold shmCreate
  rw [if_neg (by simp [h0]), hslot]
  simp only [hk, Option.bind_eq_bind, Option.bind_some]
  rw [if_neg hp, hal]
  cases frames <;> rfl

/-- **A call that succeeds** has created an object with the frames it took. -/
theorem created {fuel id : ℕ} {hasOut : Bool} (he : s.shmCreate fuel hasOut size = some (some id, s'))
    (hs : size < 2 ^ 32) : ∃ slot, Created s s' size ((size + 4095) / 4096) id slot := by
  obtain ⟨q, hq, ⟨hno, -⟩ | ⟨slot, o, hfree, hid, -, hne, hobjs, htook, hlen, hpg, hbytes, -, -, href⟩⟩ :=
    create_cases he
  · exact nomatch hno
  have hself : s'.objs slot = o := by rw [hobjs, Function.update_self]
  obtain rfl : id = o.id := Option.some.inj hid
  rw [(divideUp_pages hs).1] at hpg
  refine ⟨slot, hfree, ?_, ?_, hne, ?_, ?_, ?_, ?_, ?_⟩ <;> rw [hself]
  · exact hobjs
  · exact hbytes
  · exact hpg
  · exact href
  · exact hlen.trans hpg
  · rwa [hq]

/-- **`shm_create` rolls back.** With `k` frames left and room for the page array it succeeds exactly when the
size is not 0, a slot is free and `k` frames are enough. When it fails nothing has changed; when it succeeds,
the frames of the new object are those newly taken. -/
theorem create_rolls_back (hx : BlocksReady (s.heap, live)) (hk : s.machine.pmm.Delivers k) (hs : size < 2 ^ 32)
    (hroom : ¬ Refused s.heap.setup minAlign (4 * divideUp size 0x1000)) :
    ∃ r s', Returns (fun fuel => s.shmCreate fuel true size) (r, s') ∧
      (r.isSome ↔ size ≠ 0 ∧ (∃ i, ¬ Live s i) ∧ (size + 4095) / 4096 ≤ k) ∧
      (r = none → Unchanged s s') ∧
      ∀ id, r = some id → ∃ slot, Created s s' size ((size + 4095) / 4096) id slot := by
  obtain ⟨hceil, -⟩ := divideUp_pages hs
  by_cases h0 : size = 0
  · refine ⟨none, s, ⟨0, fun fuel _ => ?_⟩, by simp [h0], fun _ => Unchanged.refl s, nofun⟩
    exact if_pos (.inr h0)
  have hcond : ¬ (true = false ∨ size = 0) := by simp [h0]
  cases hslot : s.allocSlot with
  -- the table is full
  | none =>
    refine ⟨none, s, ⟨0, fun fuel _ => ?_⟩, ?_, fun _ => Unchanged.refl s, nofun⟩
    · show s.shmCreate fuel true size = _
      unfold shmCreate
      rw [if_neg hcond, hslot]
    · refine iff_of_false Bool.false_ne_true ?_
      rintro ⟨-, ⟨i, hi⟩, -⟩
      exact hi (allocSlot_none.1 hslot i)
  | some slot =>
    have hfree : ¬ Live s slot := fun hl => hl (by simpa using List.find?_some hslot)
    obtain ⟨pages, heap, N, hN, hpages, hmem⟩ := pageArray hx hs hroom
    obtain ⟨frames, q, hal, hiff⟩ := @allocFrames_delivers k (divideUp size 0x1000) _ [] hk
    obtain ⟨-, hnone⟩ := allocFrames_ok (Took.nil s.machine.pmm) hal
    have hrun := fun fuel hf => shmCreate_eq h0 hslot (hN fuel hf) hpages hal
    cases frames with
    -- there are not enough frames
    | none =>
      refine ⟨none, _, ⟨N, hrun⟩, ?_, fun _ => ⟨rfl, rfl, hnone rfl, hmem⟩, nofun⟩
      have hno : ¬ divideUp size 0x1000 ≤ k := fun hle => by simpa using hiff.2 hle
      refine iff_of_false Bool.false_ne_true ?_
      rintro ⟨-, -, hle⟩
      exact hno (hceil ▸ hle)
    | some l =>
      refine ⟨some s.newId.1, _, ⟨N, hrun⟩, ?_, nofun, ?_⟩
      · have hyes : divideUp size 0x1000 ≤ k := hiff.1 rfl
        exact iff_of_true rfl ⟨h0, ⟨slot, hfree⟩, hceil ▸ hyes⟩
      · intro id hid
        obtain rfl : s.newId.1 = id := Option.some.inj hid
        exact created (hrun (N + 1) (Nat.lt_succ_self N)) hs

/-- No objects, an empty heap, and two free frames in the words that the allocator looks at. -/
def framesForTwo : Shm :=
  ⟨fun _ => .zero, 1, emptyHeap, ⟨⟨fun _ => 0xFFFFFFF9#32, 1, 33, by decide⟩, fun _ _ => 0, 0, false⟩⟩

theorem framesForTwo_delivers : framesForTwo.machine.pmm.Delivers 2 := by
  set p := framesForTwo.machine.pmm with hp
  refine ⟨1 * pmmBlockSize, p.mmapSet 1, ?_, by decide, 2 * pmmBlockSize, (p.mmapSet 1).mmapSet 2, ?_, by decide,
    (p.mmapSet 1).mmapSet 2, ?_⟩
  · exact pmmAllocPage_eq (by decide +kernel) (by decide +kernel : p.mmapFindFree = 1)
  · exact pmmAllocPage_eq (by decide +kernel) (by decide +kernel : (p.mmapSet 1).mmapFindFree = 2)
  · exact pmmAllocPage_eq (by decide +kernel) (by decide +kernel : ((p.mmapSet 1).mmapSet 2).mmapFindFree = 0)

/-- Two pages are there, three are not. -/
theorem create_rolls_back_two :
    (∃ r s', Returns (fun fuel => framesForTwo.shmCreate fuel true 8192) (r, s') ∧ r.isSome) ∧
      ∃ s', Returns (fun fuel => framesForTwo.shmCreate fuel true 8193) (none, s') ∧ Unchanged framesForTwo s' := by
  have hx : BlocksReady (framesForTwo.heap, ∅) := .inl ⟨rfl, rfl, rfl⟩
  have hfree : ¬ Live framesForTwo ⟨0, by decide⟩ := not_not.2 rfl
  have hroom : ∀ n, ¬ heapEnd < framesForTwo.heap.setup.newEnd minAlign n →
    ¬ Refused framesForTwo.heap.setup minAlign n :=
    fun n hn href => hn href.2
  constructor
  · obtain ⟨r, s', hr, hiff, -⟩ := create_rolls_back hx framesForTwo_delivers (by norm_num : 8192 < 2 ^ 32)
      (hroom _ (by decide +kernel))
    exact ⟨r, s', hr, hiff.2 ⟨by norm_num, ⟨_, hfree⟩, by norm_num⟩⟩
  · obtain ⟨r, s', hr, hiff, hnone, -⟩ := create_rolls_back hx framesForTwo_delivers (by norm_num : 8193 < 2 ^ 32)
      (hroom _ (by decide +kernel))
    have hr0 : r = none := Option.not_isSome_iff_eq_none.1 fun h => absurd (hiff.1 h).2.2 (by norm_num)
    subst hr0
    exact ⟨s', hr, hnone rfl⟩

end Saynaa
