import Saynaa.Proof.Sched

/-!
# What an election and an exit leave of the ring

* `next_reading`: `sched_robin_next` takes the first awake process of the ring, read from behind
  the current node round to it, and moves it to the end of that reading.
* `exit_removes`: `sched_robin_exit` takes its argument out and nothing else, if and only if the
  argument is in the ring or the ring has not exactly one node.
-/

namespace Saynaa

open Lib

variable {s s' : SchedRobin} {q : List ℕ} {x : ℕ}

/-! ### `sched_robin_next` -/

theorem RingIs.head (hr : RingIs s q) {e : ℕ} (he : q.head? = some e) : s.processOf s.processes = some e := by
  obtain ⟨l, hl, hp, rfl⟩ := hr.ring
  cases l with
  | nil => simp at he
  | cons a l =>
    obtain ⟨h, u⟩ := a
    obtain rfl : u = e := by simpa using he
    rw [hp]
    exact hl.head.2

theorem withTicks_sub (t : ℕ → ℕ) (sl : List ℕ) (ht : t = countDown sl s.ticks) (p : ℕ) :
    (s.withTicks t).proc p = (s.proc p).map fun r =>
      { r with sleepTicks := if p ∈ sl then r.sleepTicks - 1 else r.sleepTicks } := by
  subst ht
  cases hp : s.proc p with
  | none => simp [SchedRobin.withTicks, hp]
  | some r =>
    rw [withTicks_proc hp]
    simp [countDown, SchedRobin.ticks, hp]

/-- **The election rule.** The ring is read from the node after the current one round to the
current one. The first process with no ticks left is returned and made current, or the first one
where there is none. Those in front of it, or all, lose a tick, and the new reading is the old one
with the elected process moved to the end. -/
theorem next_reading (hr : RingIs s q) (hq : q ≠ []) :
    ∃ e s' q', Returns (schedRobinNext · s) (e, s') ∧ RingIs s' q' ∧
      chosen s.ticks (reading q) = some e ∧ s'.processOf s'.processes = some e ∧
      (∀ p, s'.proc p = (s.proc p).map fun r =>
        { r with
          sleepTicks := if p ∈ (reading q).takeWhile (0 < s.ticks ·) then r.sleepTicks - 1 else r.sleepTicks }) ∧
      reading q' = (reading q).erase e ++ [e] := by
  obtain ⟨s', hret, hr', hproc⟩ := next_spec hr
  obtain ⟨e, hchosen, hhead, hread, hticks⟩ := elect_reading s.ticks hq
  have he : (elect s.ticks q).1.headD 0 = e := by
    rw [List.headD_eq_head?_getD, hhead]
    rfl
  rw [he] at hret
  refine ⟨e, s', _, ⟨_, hret⟩, hr', hchosen, hr'.head hhead, fun p => ?_, hread⟩
  rw [hproc]
  exact withTicks_sub _ _ hticks p

/-- A ring of two nodes: the current process sleeps for 2 ticks, the other one for 1. -/
def pairRing : SchedRobin :=
  { node := fun a => if a = 0x200 then some ⟨0x100, 0x210⟩ else if a = 0x210 then some ⟨0x110, 0x200⟩ else none
    proc := fun p =>
      if p = 0x100 then some ⟨0xC0FEBABE, 7, 1, 0x5000, 0x9000, 0, 2, 0, 0xC0FEBABE⟩
      else if p = 0x110 then some ⟨0xC0FEBABE, 8, 1, 0x6000, 0xA000, 0, 1, 0, 0xC0FEBABE⟩
      else none
    processes := 0x200 }

theorem pairRing_ring : RingIs pairRing [0x100, 0x110] := by
  refine ⟨⟨[(0x200, 0x100), (0x210, 0x110)], ⟨by decide, by decide, ?_⟩, rfl, rfl⟩, by decide, by decide⟩
  exact ⟨⟨_, rfl, rfl⟩, ⟨_, rfl, rfl⟩, trivial⟩

/-- Both sleep: the process behind the current one is taken, and both lose a tick. -/
theorem next_reading_two : ∃ e s' q', Returns (schedRobinNext · pairRing) (e, s') ∧ RingIs s' q' ∧
    e = 0x110 ∧ s'.processOf s'.processes = some 0x110 ∧ s'.ticks 0x100 = 1 ∧ s'.ticks 0x110 = 0 ∧
    reading q' = [0x100, 0x110] := by
  obtain ⟨e, s', q', hret, hr', hchosen, hcur, hproc, hread⟩ := next_reading pairRing_ring (by decide)
  obtain rfl : e = 0x110 := by
    have h : chosen pairRing.ticks (reading [0x100, 0x110]) = some 0x110 := by decide
    exact Option.some.inj (hchosen.symm.trans h)
  refine ⟨_, s', q', hret, hr', rfl, hcur, ?_, ?_, hread⟩
  · unfold SchedRobin.ticks
    rw [hproc]
    decide
  · unfold SchedRobin.ticks
    rw [hproc]
    decide

/-! ### `sched_robin_exit` -/

theorem leave_rotated {q : List ℕ} (hx : x ∈ q) : leave x q ~r q.erase x := by
  obtain ⟨a, b, rfl, hxa⟩ := List.eq_append_cons_of_mem hx
  rw [leave_append b hxa, List.erase_append_right _ hxa, List.erase_cons_head]
  have hl : lastFirst (b ++ a) ~r b ++ a := by
    rcases List.eq_nil_or_concat (b ++ a) with h | ⟨c, y, h⟩
    · rw [h]
      exact List.IsRotated.refl _
    · rw [h, List.concat_eq_append, lastFirst_append]
      exact List.IsRotated.symm (List.isRotated_concat y c)
  exact hl.trans List.isRotated_append

/-- The search goes once around the ring where no node carries the process. -/
theorem findPrev_absent {start : ℕ} (hl0 : ∀ v, s.processOf start = some v → v ≠ x) :
    ∀ (c : List (ℕ × ℕ)) (p v fuel : ℕ), Linked ProcNode.cell s.node ((p, v) :: c) start →
      s.processOf start ≠ none → start ∉ addrs c → x ∉ c.map Prod.snd → c.length < fuel →
      findPrev s x start fuel p = some none := by
  intro c
  induction c with
  | nil =>
    intro p v fuel hl hst _ _ hf
    obtain ⟨k, rfl⟩ : ∃ k, fuel = k + 1 := ⟨fuel - 1, by omega⟩
    obtain ⟨⟨n, hn, hc⟩, -⟩ := hl
    simp only [ProcNode.cell, Prod.mk.injEq, first_nil] at hc
    obtain ⟨w, hw⟩ := Option.ne_none_iff_exists'.1 hst
    have hnx : s.nextOf p = some start := by simp [SchedRobin.nextOf, hn, hc]
    simp [findPrev, hnx, hw, hl0 w hw]
  | cons b c ih =>
    intro p v fuel hl hst hs hx hf
    obtain ⟨z, w⟩ := b
    obtain ⟨k, rfl⟩ : ∃ k, fuel = k + 1 := ⟨fuel - 1, by omega⟩
    obtain ⟨⟨n, hn, hc⟩, hl⟩ := hl
    simp only [ProcNode.cell, Prod.mk.injEq, first_cons] at hc
    simp only [addrs_cons, List.map_cons, List.mem_cons, not_or] at hs hx
    have hrec := ih z w k hl hst hs.2 hx.2 (by simpa using hf)
    have hpz : s.processOf z = some w := by
      obtain ⟨⟨n', hn', hc'⟩, -⟩ := hl
      simp only [ProcNode.cell, Prod.mk.injEq] at hc'
      simp [SchedRobin.processOf, hn', hc'.1]
    have hnx : s.nextOf p = some z := by simp [SchedRobin.nextOf, hn, hc.2]
    have hwx : w ≠ x := fun hh => hx.1 hh.symm
    have hzs : z ≠ start := fun hh => hs.1 hh.symm
    conv_lhs => unfold findPrev
    simp [hnx, hpz, hwx, hzs, hrec]

/-- **A process that is not in the ring** leaves a ring of two nodes or more, or none, alone. -/
theorem exit_absent (hr : RingIs s q) (hx : x ∉ q) (hq : q.length ≠ 1) : Returns (schedRobinExit · s x) s := by
  obtain ⟨l, hl, hp, rfl⟩ := hr.ring
  cases l with
  | nil =>
    have h0 : s.processes = 0 := hp
    exact ⟨0, fun fuel _ => by simp [schedRobinExit, h0]⟩
  | cons a l =>
    obtain ⟨h, u⟩ := a
    obtain rfl : s.processes = h := hp
    have h0 : s.processes ≠ 0 := fun h0 => hl.ne_nil (by simp [h0])
    obtain ⟨hnx, hpu⟩ := hl.head
    have hlne : l ≠ [] := by
      rintro rfl
      simp at hq
    have hnn : s.processes ≠ first l s.processes := fun hh =>
      (List.nodup_cons.1 hl.nodup).1 (by rw [hh]; exact first_mem hlne)
    simp only [List.map_cons, List.mem_cons, not_or] at hx
    refine ⟨l.length, fun fuel hf => ?_⟩
    have hfind : findPrev s x s.processes fuel s.processes = some none := by
      refine findPrev_absent (fun v hv => ?_) l s.processes u fuel hl.linked (by simp [hpu])
        (List.nodup_cons.1 hl.nodup).1 hx.2 hf
      obtain rfl := Option.some.inj (hpu.symm.trans hv)
      exact Ne.symm hx.1
    simp [schedRobinExit, h0, hnx, hnn, hfind]

/-- In a ring of one node the process is not looked at. -/
theorem exit_single {u : ℕ} (hr : RingIs s [u]) (x : ℕ) :
    ∃ s', Returns (schedRobinExit · s x) s' ∧ s'.processes = 0 ∧ s.processes ≠ 0 := by
  obtain ⟨l, hl, hp, hq⟩ := hr.ring
  obtain ⟨⟨h, w⟩, rfl, -⟩ := List.map_eq_singleton_iff.1 hq
  obtain rfl : s.processes = h := hp
  have h0 : s.processes ≠ 0 := fun h0 => hl.ne_nil (by simp [h0])
  have hnx : s.nextOf s.processes = some s.processes := hl.head.1
  refine ⟨{ s.kfreeNode s.processes with processes := 0 }, ⟨0, fun fuel _ => ?_⟩, rfl, h0⟩
  simp [schedRobinExit, h0, hnx]

/-- The outcome of an exit: the process is gone and the others keep their cyclic order, or it was
not there and nothing has changed. -/
structure ExitOK (s : SchedRobin) (q : List ℕ) (x : ℕ) (s' : SchedRobin) : Prop where
  present : x ∈ q → ∃ q', RingIs s' q' ∧ q' ~r q.erase x
  last : q = [x] → s'.processes = 0
  absent : x ∉ q → s' = s

/-- **`sched_robin_exit` removes exactly its argument**, if and only if it finds it or the ring has
not exactly one node. -/
theorem exit_removes (hr : RingIs s q) (x : ℕ) :
    (∃ s', Returns (schedRobinExit · s x) s' ∧ ExitOK s q x s') ↔ x ∈ q ∨ q.length ≠ 1 := by
  constructor
  · rintro ⟨s', hret, hok⟩
    by_contra hcon
    rw [not_or, not_not] at hcon
    obtain ⟨hx, hlen⟩ := hcon
    obtain ⟨u, rfl⟩ := List.length_eq_one_iff.1 hlen
    obtain ⟨s₁, hret₁, hp, hp0⟩ := exit_single hr x
    obtain rfl := hret.unique hret₁
    rw [hok.absent hx] at hp
    exact hp0 hp
  · intro h
    by_cases hx : x ∈ q
    · obtain ⟨s', hret, hr', -⟩ := exit_spec hr hx
      refine ⟨s', ⟨_, hret⟩, fun _ => ⟨_, hr', leave_rotated hx⟩, ?_, fun hn => absurd hx hn⟩
      rintro rfl
      obtain ⟨s₁, hret₁, hp, -⟩ := exit_single hr x
      obtain rfl := Returns.unique ⟨_, hret⟩ hret₁
      exact hp
    · refine ⟨s, exit_absent hr hx (h.resolve_left hx), fun hm => absurd hm hx, ?_, fun _ => rfl⟩
      rintro rfl
      exact absurd List.mem_cons_self hx

/-- A valid process record at address `0x100`. -/
def oneProc : ℕ → Option Process := fun p =>
  if p = 0x100 then some ⟨0xC0FEBABE, 7, 1, 0x5000, 0x9000, 0, 0, 0, 0xC0FEBABE⟩ else none

/-- A ring of one node, for the process of `oneProc`. -/
def oneRing : SchedRobin := ⟨fun a => if a = 0x200 then some ⟨0x100, 0x200⟩ else none, oneProc, 0x200⟩

theorem oneRing_ring : RingIs oneRing [0x100] :=
  ⟨⟨[(0x200, 0x100)], ⟨by decide, by decide, ⟨_, rfl, rfl⟩, trivial⟩, rfl, rfl⟩, by decide, by decide⟩

theorem exit_removes_two : ∃ s', Returns (schedRobinExit · pairRing 0x110) s' ∧
    ExitOK pairRing [0x100, 0x110] 0x110 s' :=
  (exit_removes pairRing_ring 0x110).2 (.inl (by decide))

/-- **The only process is dropped** when another one exits. -/
theorem exit_drops_other : RingIs oneRing [0x100] ∧ ∃ s', Returns (schedRobinExit · oneRing 0x110) s' ∧
    s'.processes = 0 ∧ ¬ ExitOK oneRing [0x100] 0x110 s' := by
  obtain ⟨s', hret, hp, hp0⟩ := exit_single oneRing_ring 0x110
  refine ⟨oneRing_ring, s', hret, hp, fun hok => ?_⟩
  rw [hok.absent (by decide)] at hp
  exact hp0 hp

end Saynaa
