import Saynaa.Lib.Linked
import Saynaa.Lib.Loop
import Saynaa.Spec.RunQueue
import Saynaa.Sys.Sched

/-!
# The scheduler ring refines the run queue

* `RingIs s q`: `sc->processes` heads a circle of nodes that carry the processes `q`, each
  once and valid.
* `prune_valid`: on such a ring `sched_robin_prune` does nothing.
* `next_spec`, `add_spec`, `exit_spec`: the operations compute `elect`, `enqueue` and
  `leave`.
* `ring_invariant`: runs.
-/

namespace Saynaa

open Lib

/-- A node as the list library reads it. -/
def ProcNode.cell (n : ProcNode) : ℕ × ℕ := (n.process, n.next)

/-- The sleep counters. -/
def SchedRobin.ticks (s : SchedRobin) (p : ℕ) : ℕ := ((s.proc p).map Process.sleepTicks).getD 0

/-- The scheduler with other sleep counters. -/
def SchedRobin.withTicks (s : SchedRobin) (t : ℕ → ℕ) : SchedRobin :=
  { s with proc := fun p => (s.proc p).map fun r => { r with sleepTicks := t p } }

/-- A ring of nodes, starting at `sc->processes`. -/
abbrev Nodes (s : SchedRobin) (l : List (ℕ × ℕ)) : Prop := Ring ProcNode.cell s.node 0 l

/-- **The ring of a run queue** `q`. -/
structure RingIs (s : SchedRobin) (q : List ℕ) : Prop where
  ring : ∃ l, Nodes s l ∧ s.processes = first l 0 ∧ l.map Prod.snd = q
  nodup : q.Nodup
  valid : ∀ p ∈ q, procValid s p = some true

variable {s s' : SchedRobin} {l l₁ l₂ : List (ℕ × ℕ)} {q : List ℕ} {x v : ℕ}

/-! ### Reading and writing nodes -/

theorem Nodes.next (hr : Nodes s (l₁ ++ (x, v) :: l₂)) : s.nextOf x = some (first (l₂ ++ l₁) x) := by
  obtain ⟨n, hn, hp⟩ := hr.node
  simp only [ProcNode.cell, Prod.mk.injEq] at hp
  simp [SchedRobin.nextOf, hn, hp.2]

theorem Nodes.process (hr : Nodes s (l₁ ++ (x, v) :: l₂)) : s.processOf x = some v := by
  obtain ⟨n, hn, hp⟩ := hr.node
  simp only [ProcNode.cell, Prod.mk.injEq] at hp
  simp [SchedRobin.processOf, hn, hp.1]

/-- The first two nodes. -/
theorem Nodes.head {h u : ℕ} (hr : Nodes s ((h, u) :: l)) :
    s.nextOf h = some (first l h) ∧ s.processOf h = some u := by
  have hr' : Nodes s ([] ++ (h, u) :: l) := hr
  have hn := hr'.next
  rw [List.append_nil] at hn
  exact ⟨hn, hr'.process⟩

theorem Nodes.second {h u : ℕ} (hr : Nodes s ((h, u) :: (x, v) :: l)) :
    s.nextOf x = some (first l h) ∧ s.processOf x = some v := by
  have hr' : Nodes s ([(h, u)] ++ (x, v) :: l) := hr
  have hn := hr'.next
  rw [first_append] at hn
  exact ⟨hn, hr'.process⟩

theorem setNext_eq (hp : s.processOf x = some v) (y : ℕ) :
    s.setNext x y = some { s with node := Function.update s.node x (some ⟨v, y⟩) } := by
  simp only [SchedRobin.processOf, Option.map_eq_some_iff] at hp
  obtain ⟨n, hn, rfl⟩ := hp
  simp [SchedRobin.setNext, hn]

theorem processOf_update {a z : ℕ} (h : a ≠ z) (n : Option ProcNode) :
    SchedRobin.processOf { s with node := Function.update s.node z n } a = s.processOf a := by
  simp [SchedRobin.processOf, Function.update_of_ne h]

/-! ### Sleep counters -/

@[simp] theorem withTicks_node (t : ℕ → ℕ) : (s.withTicks t).node = s.node := rfl
@[simp] theorem withTicks_processes (t : ℕ → ℕ) : (s.withTicks t).processes = s.processes := rfl
@[simp] theorem withTicks_nextOf (t : ℕ → ℕ) (a : ℕ) : (s.withTicks t).nextOf a = s.nextOf a := rfl
@[simp] theorem withTicks_processOf (t : ℕ → ℕ) (a : ℕ) :
    (s.withTicks t).processOf a = s.processOf a := rfl

theorem withTicks_proc {r : Process} {p : ℕ} (hr : s.proc p = some r) (t : ℕ → ℕ) :
    (s.withTicks t).proc p = some { r with sleepTicks := t p } := by
  simp [SchedRobin.withTicks, hr]

theorem withTicks_self : s.withTicks s.ticks = s := by
  have hp : (fun p => (s.proc p).map fun r => { r with sleepTicks := s.ticks p }) = s.proc := by
    funext p
    unfold SchedRobin.ticks
    cases s.proc p <;> simp
  unfold SchedRobin.withTicks
  rw [hp]

theorem procValid_withTicks (t : ℕ → ℕ) (p : ℕ) : procValid (s.withTicks t) p = procValid s p := by
  unfold procValid SchedRobin.withTicks
  cases hp : s.proc p <;> simp [hp, Process.valid]

theorem proc_of_valid {p : ℕ} (h : procValid s p = some true) : p ≠ 0 ∧ ∃ r, s.proc p = some r ∧ r.valid := by
  unfold procValid at h
  split_ifs at h with h0
  · exact absurd h (by decide)
  · exact ⟨h0, Option.map_eq_some_iff.1 h⟩

/-- Counting one more process down. -/
theorem setSleep_countDown {vs : List ℕ} (hv : v ∉ vs) :
    (s.withTicks (countDown vs s.ticks)).setSleep v (s.ticks v - 1) =
      s.withTicks (countDown (vs ++ [v]) s.ticks) := by
  unfold SchedRobin.setSleep SchedRobin.withTicks
  simp only [SchedRobin.mk.injEq, true_and, and_true]
  funext p
  by_cases hp : p = v
  · subst hp
    rw [Function.update_self]
    cases s.proc p <;> simp [countDown]
  · rw [Function.update_of_ne hp]
    simp [countDown, hp]

/-! ### `sched_robin_prune` -/

section Prune

variable {h u : ℕ}

theorem pruneRest_valid (hr : Nodes s ((h, u) :: l)) (hh : s.processes = h)
    (hv : ∀ a ∈ l, procValid s a.2 = some true) :
    ∀ (rem : List (ℕ × ℕ)) (fuel prev : ℕ), rem <:+ l → rem.length < fuel →
      pruneRest fuel s prev (first rem h) = some s := by
  intro rem
  induction rem with
  | nil =>
    intro fuel prev _ hf
    obtain ⟨k, rfl⟩ := Nat.exists_eq_add_of_lt hf
    simp [pruneRest, hh]
  | cons a rem ih =>
    intro fuel prev hs hf
    obtain ⟨x, v⟩ := a
    obtain ⟨pre, rfl⟩ := hs
    obtain ⟨k, rfl⟩ := Nat.exists_eq_add_of_lt hf
    have hne : x ≠ h := by
      rintro rfl
      have := (List.nodup_cons.1 hr.nodup).1
      simp at this
    have hr' : Nodes s (((h, u) :: pre) ++ (x, v) :: rem) := hr
    have hn := hr'.next
    have hp := hr'.process
    rw [first_append, first_cons] at hn
    have hval := hv (x, v) (by simp)
    have hrec := ih (rem.length + 1 + k) x ⟨pre ++ [(x, v)], by simp⟩ (by omega)
    simp only [List.length_cons, first_cons]
    unfold pruneRest
    simp only [hh, hne, if_false, hn, hp, hval, Option.bind_eq_bind, Option.bind_some, if_true]
    exact hrec

/-- **On a ring of valid processes `sched_robin_prune` does nothing.** -/
theorem prune_valid (hr : RingIs s q) {fuel : ℕ} (hf : q.length < fuel) :
    schedRobinPrune fuel s = some s := by
  obtain ⟨⟨l, hl, hp, rfl⟩, -, hv⟩ := hr
  obtain ⟨k, rfl⟩ : ∃ k, fuel = k + 1 := ⟨fuel - 1, by omega⟩
  cases l with
  | nil =>
    have h0 : s.processes = 0 := hp
    simp [schedRobinPrune, pruneHead, h0]
  | cons a l =>
    obtain ⟨h, u⟩ := a
    have hh : s.processes = h := hp
    have h0 : h ≠ 0 := fun h0 => hl.ne_nil (by simp [h0])
    obtain ⟨hn, hpr⟩ := hl.head
    have hvu : procValid s u = some true := hv u (by simp)
    have hrest := pruneRest_valid hl hh (fun a ha => hv a.2 (by
      simp only [List.map_cons, List.mem_cons, List.mem_map]
      exact .inr ⟨a, ha, rfl⟩)) l (k + 1) h (List.suffix_refl l) (by simp at hf; omega)
    simp only [schedRobinPrune, pruneHead, hh, h0, if_false, hpr, hvu, Option.bind_eq_bind,
      Option.bind_some, if_true, Option.pure_def, hn]
    exact hrest

end Prune

/-! ### `sched_robin_next` -/

section Next

variable {h u : ℕ}

/-- The scheduler after the processes `vs` were counted down. -/
abbrev SchedRobin.counted (s : SchedRobin) (vs : List ℕ) : SchedRobin :=
  s.withTicks (countDown vs s.ticks)

theorem counted_proc {r : Process} {vs : List ℕ} (hr : s.proc v = some r) (hv : v ∉ vs) :
    (s.counted vs).proc v = some r := by
  have ht : s.ticks v = r.sleepTicks := by simp [SchedRobin.ticks, hr]
  rw [withTicks_proc hr, countDown, if_neg hv, ht]

/-- **Moving the elected node** `x` from behind `p` to behind the head: three writes. -/
theorem relink {node : ℕ → Option ProcNode} {sl rem pre : List (ℕ × ℕ)} {p pv : ℕ}
    (hr : Ring ProcNode.cell node 0 ((h, u) :: sl ++ (x, v) :: rem))
    (hpre : (h, u) :: sl = ((h, u) :: pre) ++ [(p, pv)]) :
    Ring ProcNode.cell (Function.update (Function.update (Function.update node p
      (some ⟨pv, first rem h⟩)) x (some ⟨v, first (sl ++ rem) h⟩)) h (some ⟨u, x⟩)) 0
      ((h, u) :: (x, v) :: (sl ++ rem)) := by
  have hnd := hr.nodup
  have hx0 : x ≠ 0 := fun hh => hr.ne_nil (by simp [hh])
  rw [hpre] at hr hnd
  obtain rfl : sl = pre ++ [(p, pv)] := (List.cons.inj hpre).2
  simp only [addrs_append, addrs_cons, addrs_nil, List.nodup_append, List.nodup_cons, List.mem_cons,
    List.mem_append, List.not_mem_nil, or_false] at hnd
  obtain ⟨⟨-, -, hpp⟩, ⟨hxr, -⟩, hdis⟩ := hnd
  have hxh : x ≠ h := fun hh => hdis h (.inl (.inl rfl)) x (.inl rfl) hh.symm
  have hxp : x ≠ p := fun hh => hdis p (.inr rfl) x (.inl rfl) hh.symm
  have hph : p ≠ h := fun hh => hpp h (.inl rfl) p rfl hh.symm
  -- unlink `x` from behind `p`
  have h1 : Ring ProcNode.cell node 0 ((p, pv) :: (x, v) :: (rem ++ (h, u) :: pre)) := by
    have := Ring.rotate ((h, u) :: pre) ((p, pv) :: (x, v) :: rem) (by simpa using hr)
    simpa using this
  have h2 : Ring ProcNode.cell (Function.update node p (some ⟨pv, first rem h⟩)) 0
      ((p, pv) :: (rem ++ (h, u) :: pre)) := by
    refine h1.remove ⟨_, Function.update_self .., ?_⟩ fun z hz => Function.update_of_ne ?_ ..
    · simp [ProcNode.cell, first_append]
    · rintro rfl
      exact (List.nodup_cons.1 h1.nodup).1 (List.mem_cons_of_mem _ hz)
  have h3 : Ring ProcNode.cell (Function.update node p (some ⟨pv, first rem h⟩)) 0
      ((h, u) :: (pre ++ [(p, pv)] ++ rem)) := by
    have := Ring.rotate ((p, pv) :: rem) ((h, u) :: pre) (by simpa using h2)
    simpa using this
  -- and put it behind the head
  refine h3.insert hx0 ?_ ⟨_, Function.update_self .., rfl⟩ ⟨⟨v, first (pre ++ [(p, pv)] ++ rem) h⟩, ?_, rfl⟩
    fun z hz => ?_
  · simp only [addrs_cons, addrs_append, addrs_nil, List.mem_cons, List.mem_append, List.not_mem_nil,
      or_false, not_or]
    exact ⟨hxh, ⟨fun hh => hdis x (.inl (.inr hh)) x (.inl rfl) rfl, hxp⟩, hxr⟩
  · rw [Function.update_of_ne hxh, Function.update_self]
  · have hzh : z ≠ h := fun hh => (List.nodup_cons.1 h3.nodup).1 (hh ▸ hz)
    have hzx : z ≠ x := by
      rintro rfl
      simp only [addrs_append, addrs_cons, addrs_nil, List.mem_append, List.mem_cons, List.not_mem_nil,
        or_false] at hz
      rcases hz with (hz | hz) | hz
      · exact hdis z (.inl (.inr hz)) z (.inl rfl) rfl
      · exact hxp hz
      · exact hxr hz
    rw [Function.update_of_ne hzh, Function.update_of_ne hzx]

/-- The election loop reaches an awake node `x`, with the sleepers `sl` in front of it. -/
theorem electLoop_awake {sl rem pre : List (ℕ × ℕ)} {p pv : ℕ} {r : Process}
    (hr : Nodes s ((s.processes, u) :: (sl ++ (x, v) :: rem)))
    (hpre : (s.processes, u) :: sl = pre ++ [(p, pv)])
    (hcp : (s.counted (sl.map Prod.snd)).proc v = some r) (h0 : r.sleepTicks = 0) :
    ∃ node, Ring ProcNode.cell node 0 ((s.processes, u) :: (x, v) :: (sl ++ rem)) ∧
      ∀ k, electLoop (k + 1) (s.counted (sl.map Prod.snd)) p =
        some (false, { s.counted (sl.map Prod.snd) with node := node }) := by
  have hr₁ : Nodes s (pre ++ (p, pv) :: (x, v) :: rem) := by
    have := hr
    rwa [← List.cons_append, hpre, List.append_assoc] at this
  have hr₂ : Nodes s (((s.processes, u) :: sl) ++ (x, v) :: rem) := hr
  have hn : s.nextOf p = some x := hr₁.next
  have hp : s.processOf x = some v := hr₂.process
  have hnh : s.nextOf s.processes = some (first (sl ++ (x, v) :: rem) s.processes) := hr.head.1
  have hxh : x ≠ s.processes := by
    intro hh
    exact (List.nodup_cons.1 hr.nodup).1 (by simp [← hh])
  set c := s.counted (sl.map Prod.snd) with hc
  have hcn : c.node = s.node := rfl
  have hch : c.processes = s.processes := rfl
  cases pre with
  | nil =>
    -- `x` is the node behind the head already
    obtain ⟨hhp, rfl⟩ := List.cons.inj hpre
    obtain ⟨rfl, rfl⟩ := Prod.mk.inj hhp
    refine ⟨s.node, hr, fun k => ?_⟩
    have hmoved : c.nextOf c.processes = some x := hn
    have hp' : c.processOf x = some v := hp
    rw [← hch] at hxh ⊢
    simp only [electLoop, hmoved, hp', hcp, h0, hxh, Option.bind_eq_bind, Option.bind_some, gt_iff_lt,
      lt_irrefl, if_false, if_true]
    rfl
  | cons b pre =>
    -- the sleepers stand in front of `x`
    obtain rfl := (List.cons.inj hpre).1
    have hsl : sl = pre ++ [(p, pv)] := (List.cons.inj hpre).2
    set d := s.processes with hd
    have hnd := hr.nodup
    simp only [hsl, addrs_append, addrs_cons, addrs_nil, List.nodup_cons, List.nodup_append, List.mem_cons,
      List.mem_append, List.not_mem_nil, or_false, not_or] at hnd
    obtain ⟨⟨⟨-, hdp⟩, -, -⟩, ⟨-, -, -⟩, -, hdis⟩ := hnd
    have hxp : x ≠ p := fun hh => hdis p (.inr rfl) x (.inl rfl) hh.symm
    have hmv : first (sl ++ (x, v) :: rem) d = first (sl ++ rem) d := by
      rw [hsl, List.append_assoc, List.append_assoc, first_append, @first_append _ _ pre]; rfl
    have hmx : x ≠ first (sl ++ rem) d := by
      intro hh
      have hin : first sl d ∈ addrs sl := first_mem (by rw [hsl]; simp)
      have hf : first (sl ++ rem) d = first sl d := by
        rw [hsl, List.append_assoc, first_append, @first_append _ _ pre]; rfl
      rw [← hf, ← hh, hsl] at hin
      simp only [addrs_append, addrs_cons, addrs_nil, List.mem_append, List.mem_cons, List.not_mem_nil,
        or_false] at hin
      exact hdis x hin x (.inl rfl) rfl
    have hnx : s.nextOf x = some (first rem d) := by
      rw [hr₂.next, first_append, first_cons]
    have hpp : s.processOf p = some pv := hr₁.process
    have hpd : s.processOf d = some u := hr.head.2
    refine ⟨_, relink hr hpre, fun k => ?_⟩
    set c₁ : SchedRobin := { c with node := Function.update c.node p (some ⟨pv, first rem d⟩) } with hc₁
    set c₂ : SchedRobin :=
      { c₁ with node := Function.update c₁.node x (some ⟨v, first (sl ++ rem) d⟩) } with hc₂
    have hw₁ : c.setNext p (first rem d) = some c₁ := setNext_eq (s := c) hpp _
    have hw₂ : c₁.setNext x (first (sl ++ rem) d) = some c₂ := by
      apply setNext_eq
      rw [hc₁, processOf_update hxp]
      exact hp
    have hw₃ : c₂.setNext d x =
        some { c₂ with node := Function.update c₂.node d (some ⟨u, x⟩) } := by
      apply setNext_eq
      rw [hc₂, processOf_update hxh.symm, hc₁, processOf_update hdp]
      exact hpd
    have hd₁ : c₂.processes = d := rfl
    have hcn' : c.nextOf p = some x := hn
    have hcx : c.nextOf x = some (first rem d) := hnx
    have hcd : c.nextOf d = some (first (sl ++ rem) d) := by rw [← hmv]; exact hnh
    have hcp' : c.processOf x = some v := hp
    simp only [electLoop, hcn', hcp', hcp, h0, hch, hxh, hcx, hcd, hmx, hw₁, hw₂, hd₁, hw₃,
      Option.bind_eq_bind, Option.bind_some, gt_iff_lt, lt_irrefl, if_false]
    rfl

/-- What the election loop does from the last node `p` of `sl` on, all of `sl` being
asleep and counted down: the three outcomes of `elect_cases`. -/
theorem electLoop_ok (hr : Nodes s ((s.processes, u) :: l))
    (hnd : (u :: l.map Prod.snd).Nodup) (hv : ∀ p ∈ u :: l.map Prod.snd, ∃ r, s.proc p = some r) :
    ∀ (rem sl pre : List (ℕ × ℕ)) (p pv : ℕ), l = sl ++ rem → (s.processes, u) :: sl = pre ++ [(p, pv)] →
      (∀ a ∈ sl, 0 < s.ticks a.2) →
      (∃ sl' x v post, l = sl' ++ (x, v) :: post ∧ (∀ a ∈ sl', 0 < s.ticks a.2) ∧ s.ticks v = 0 ∧
        ∃ node, Ring ProcNode.cell node 0 ((s.processes, u) :: (x, v) :: (sl' ++ post)) ∧
          ∀ fuel, rem.length < fuel → electLoop fuel (s.counted (sl.map Prod.snd)) p =
            some (false, { s.counted (sl'.map Prod.snd) with node := node })) ∨
      ((∀ a ∈ l, 0 < s.ticks a.2) ∧ s.ticks u = 0 ∧
        ∀ fuel, rem.length < fuel →
          electLoop fuel (s.counted (sl.map Prod.snd)) p = some (true, s.counted (l.map Prod.snd))) ∨
      ((∀ a ∈ l, 0 < s.ticks a.2) ∧ 0 < s.ticks u ∧
        ∀ fuel, rem.length < fuel → electLoop fuel (s.counted (sl.map Prod.snd)) p =
          some (false, s.counted (l.map Prod.snd ++ [u]))) := by
  intro rem
  induction rem with
  | nil =>
    intro sl pre p pv hl hpre hsl
    rw [List.append_nil] at hl
    subst hl
    -- the loop is back at the head
    have hr' : Nodes s (pre ++ (p, pv) :: []) := hpre ▸ hr
    have hn : s.nextOf p = some s.processes := by
      have := congrArg (first · p) hpre
      simp only [first_cons, first_append] at this
      rw [hr'.next, List.nil_append, this]
    have hp : s.processOf s.processes = some u := hr.head.2
    obtain ⟨r, hru⟩ := hv u List.mem_cons_self
    have htu : s.ticks u = r.sleepTicks := by simp [SchedRobin.ticks, hru]
    have hul : u ∉ l.map Prod.snd := (List.nodup_cons.1 hnd).1
    have hcp := counted_proc hru hul
    right
    rcases Nat.eq_zero_or_pos r.sleepTicks with h0 | h0
    · refine .inl ⟨hsl, by omega, fun fuel hf => ?_⟩
      obtain ⟨k, rfl⟩ := Nat.exists_eq_add_of_lt hf
      simp [electLoop, hn, hp, hcp, h0]
    · refine .inr ⟨hsl, by omega, fun fuel hf => ?_⟩
      obtain ⟨k, rfl⟩ := Nat.exists_eq_add_of_lt hf
      have hset := setSleep_countDown (s := s) hul
      rw [htu] at hset
      simp [electLoop, hn, hp, hcp, h0, hset]
  | cons a rem ih =>
    intro sl pre p pv hl hpre hsl
    obtain ⟨x, v⟩ := a
    subst hl
    have hr₁ : Nodes s (pre ++ (p, pv) :: (x, v) :: rem) := by
      have := hr
      rwa [← List.cons_append, hpre, List.append_assoc] at this
    have hr₂ : Nodes s (((s.processes, u) :: sl) ++ (x, v) :: rem) := hr
    have hn : s.nextOf p = some x := hr₁.next
    have hp : s.processOf x = some v := hr₂.process
    obtain ⟨r, hrv⟩ := hv v (by simp)
    have htv : s.ticks v = r.sleepTicks := by simp [SchedRobin.ticks, hrv]
    have hvs : v ∉ sl.map Prod.snd := by
      intro hm
      have := (List.nodup_cons.1 hnd).2
      rw [List.map_append, List.nodup_append] at this
      exact this.2.2 v hm v (by simp) rfl
    have hcp := counted_proc hrv hvs
    have hxh : x ≠ s.processes := by
      intro hh
      exact (List.nodup_cons.1 hr.nodup).1 (by simp [← hh])
    rcases Nat.eq_zero_or_pos r.sleepTicks with h0 | h0
    · -- `x` is awake
      left
      obtain ⟨node, hnode, he⟩ := electLoop_awake hr hpre hcp h0
      refine ⟨sl, x, v, rem, rfl, hsl, by omega, node, hnode, fun fuel hf => ?_⟩
      obtain ⟨k, rfl⟩ := Nat.exists_eq_add_of_lt hf
      exact he _
    · have hset := setSleep_countDown (s := s) hvs
      rw [htv] at hset
      have hstep : ∀ k, electLoop (k + 1) (s.counted (sl.map Prod.snd)) p =
          electLoop k (s.counted ((sl ++ [(x, v)]).map Prod.snd)) x := by
        intro k
        rw [List.map_append]
        conv_lhs => unfold electLoop
        simp [hn, hp, hcp, h0, hxh, hset]
      have hasleep : ∀ a ∈ sl ++ [(x, v)], 0 < s.ticks a.2 := by
        intro a ha
        rcases List.mem_append.1 ha with ha | ha
        · exact hsl a ha
        · rw [List.mem_singleton.1 ha]
          show 0 < s.ticks v
          omega
      have hrun : ∀ {b : Bool} {s' : SchedRobin}, (∀ fuel, rem.length < fuel →
          electLoop fuel (s.counted ((sl ++ [(x, v)]).map Prod.snd)) x = some (b, s')) →
          ∀ fuel, ((x, v) :: rem).length < fuel →
            electLoop fuel (s.counted (sl.map Prod.snd)) p = some (b, s') := by
        intro b s' h fuel hf
        obtain ⟨k, rfl⟩ : ∃ k, fuel = k + 1 := ⟨fuel - 1, by omega⟩
        rw [hstep]
        exact h k (by simpa using hf)
      rcases ih (sl ++ [(x, v)]) ((s.processes, u) :: sl) x v (by simp) rfl hasleep with
        ⟨sl', y, w, post, h1, h2, h3, node, h4, h5⟩ | ⟨h1, h2, h3⟩ | ⟨h1, h2, h3⟩
      · exact .inl ⟨sl', y, w, post, h1, h2, h3, node, h4, hrun h5⟩
      · exact .inr (.inl ⟨h1, h2, hrun h3⟩)
      · exact .inr (.inr ⟨h1, h2, hrun h3⟩)

theorem counted_nil : s.counted [] = s := by
  have h : countDown [] s.ticks = s.ticks := by funext a; simp [countDown]
  rw [SchedRobin.counted, h, withTicks_self]

/-- A rearranged ring with other sleep counters. -/
theorem RingIs.withNodes (hr : RingIs s q) (t : ℕ → ℕ) {node : ℕ → Option ProcNode} {a : ℕ}
    (hl : Ring ProcNode.cell node 0 l) (ha : a = first l 0) (hp : (l.map Prod.snd).Perm q) :
    RingIs { s.withTicks t with node := node, processes := a } (l.map Prod.snd) := by
  refine ⟨⟨l, hl, ha, rfl⟩, hp.nodup_iff.2 hr.nodup, fun p hm => ?_⟩
  have := hr.valid p (hp.subset hm)
  rw [← procValid_withTicks t] at this
  exact this

/-- **`sched_robin_next` is the election.** -/
theorem next_spec (hr : RingIs s q) :
    ∃ s', (∀ fuel, q.length < fuel →
        schedRobinNext fuel s = some ((elect s.ticks q).1.headD 0, s')) ∧
      RingIs s' (elect s.ticks q).1 ∧ s'.proc = (s.withTicks (elect s.ticks q).2).proc := by
  have hprune : ∀ fuel, q.length < fuel → schedRobinPrune fuel s = some s := fun _ => prune_valid hr
  obtain ⟨l, hl, hp, hq⟩ := hr.ring
  cases l with
  | nil =>
    have h0 : s.processes = 0 := hp
    obtain rfl : [] = q := hq
    refine ⟨s, fun fuel hf => ?_, hr, by simp [elect, withTicks_self]⟩
    simp [schedRobinNext, hprune fuel hf, h0, elect]
  | cons a l =>
    obtain ⟨h, u⟩ := a
    obtain rfl : s.processes = h := hp
    have h0 : s.processes ≠ 0 := fun h0 => hl.ne_nil (by simp [h0])
    simp only [List.map_cons] at hq
    subst hq
    have hproc : ∀ p ∈ u :: l.map Prod.snd, ∃ r, s.proc p = some r := by
      intro p hm
      obtain ⟨_, r, hp, -⟩ := proc_of_valid (hr.valid p hm)
      exact ⟨r, hp⟩
    obtain ⟨hnext, hpu⟩ := hl.head
    have hlen : ∀ fuel, (u :: l.map Prod.snd).length < fuel → l.length < fuel := by
      intro fuel hf
      simp only [List.length_cons, List.length_map] at hf
      omega
    have hloop := electLoop_ok hl hr.nodup hproc l [] [] s.processes u rfl rfl (by simp)
    simp only [List.map_nil, counted_nil] at hloop
    rcases hloop with ⟨sl, x, v, post, rfl, hsl, hv, node, hnode, he⟩ | ⟨hall, h1, he⟩ | ⟨hall, h1, he⟩
    · -- an awake process behind the head
      have helect : elect s.ticks (u :: (sl ++ (x, v) :: post).map Prod.snd) =
          (v :: sl.map Prod.snd ++ post.map Prod.snd ++ [u], countDown (sl.map Prod.snd) s.ticks) := by
        rw [List.map_append, List.map_cons]
        exact elect_awake _ (by simpa using fun b a hab => hsl (a, b) hab) hv
      have hring : Ring ProcNode.cell node 0 (((x, v) :: (sl ++ post)) ++ [(s.processes, u)]) :=
        Ring.rotate [(s.processes, u)] _ hnode
      have hperm := elect_perm s.ticks (u :: (sl ++ (x, v) :: post).map Prod.snd)
      rw [helect] at hperm ⊢
      have hmap : (((x, v) :: (sl ++ post)) ++ [(s.processes, u)]).map Prod.snd =
          v :: sl.map Prod.snd ++ post.map Prod.snd ++ [u] := by simp
      rw [← hmap] at hperm ⊢
      refine ⟨_, fun fuel hf => ?_, hr.withNodes (countDown (sl.map Prod.snd) s.ticks) hring rfl hperm,
        rfl⟩
      set c : SchedRobin := { s.counted (sl.map Prod.snd) with node := node } with hc
      have hc' : Nodes c ((s.processes, u) :: (x, v) :: (sl ++ post)) := hnode
      have hn : c.nextOf c.processes = some x := hc'.head.1
      have hx : c.processOf x = some v := hc'.second.2
      have hx' : SchedRobin.processOf { c with processes := x } x = some v := hx
      simp only [schedRobinNext, hprune fuel hf, h0, he fuel (hlen fuel hf), hn, hx', Option.bind_eq_bind,
        Option.bind_some, if_false]
      rfl
    · -- the head alone is awake
      have helect : elect s.ticks (u :: l.map Prod.snd) =
          (u :: l.map Prod.snd, countDown (l.map Prod.snd) s.ticks) := by
        rw [elect_asleep (by simpa using fun b a hab => hall (a, b) hab), if_pos h1]
      rw [helect]
      refine ⟨_, fun fuel hf => ?_, hr.withNodes (countDown (l.map Prod.snd) s.ticks) hl rfl (.refl _), rfl⟩
      simp only [schedRobinNext, hprune fuel hf, h0, he fuel (hlen fuel hf), withTicks_processOf,
        withTicks_processes, hpu, Option.bind_eq_bind, Option.bind_some, if_false, if_true]
      rfl
    · -- all are asleep
      have helect : elect s.ticks (u :: l.map Prod.snd) =
          (l.map Prod.snd ++ [u], countDown (l.map Prod.snd ++ [u]) s.ticks) := by
        rw [elect_asleep (by simpa using fun b a hab => hall (a, b) hab), if_neg (by omega)]
      have hmap : (l ++ [(s.processes, u)]).map Prod.snd = l.map Prod.snd ++ [u] := by simp
      have hperm := elect_perm s.ticks (u :: l.map Prod.snd)
      rw [helect, ← hmap] at hperm
      rw [helect, ← hmap]
      refine ⟨_, fun fuel hf => ?_, hr.withNodes (countDown ((l ++ [(s.processes, u)]).map Prod.snd)
        s.ticks) hl.rotate_one rfl hperm, rfl⟩
      rw [← hmap] at he
      set vs := (l ++ [(s.processes, u)]).map Prod.snd with hvs
      have hproc' : SchedRobin.processOf { s.counted vs with processes := first l s.processes }
          (first l s.processes) = some (vs.headD 0) := by
        rw [hmap]
        cases l with
        | nil => exact hpu
        | cons b l => exact hl.second.2
      simp only [schedRobinNext, hprune fuel hf, h0,
        he fuel (hlen fuel hf), withTicks_nextOf, withTicks_processes, hnext, hproc',
        Option.bind_eq_bind, Option.bind_some, if_false]
      rw [first_append]
      rfl

end Next

/-! ### `sched_robin_add`, `sched_robin_get_current`, `sched_robin_exists` -/

theorem Nodes.allocated (hl : Nodes s l) {a : ℕ} (ha : a ∈ addrs l) : s.node a ≠ none := by
  obtain ⟨⟨x, v⟩, hm, rfl⟩ := List.mem_map.1 ha
  obtain ⟨l₁, l₂, rfl⟩ := List.append_of_mem hm
  obtain ⟨n, hn, -⟩ := hl.node
  simp [hn]

/-- **`sched_robin_add` puts a new valid process behind the head.** -/
theorem add_spec (hr : RingIs s q) {p new : ℕ} (hv : procValid s p = some true) (hp : p ∉ q)
    (h0 : new ≠ 0) (hfree : s.node new = none) :
    ∃ s', (∀ fuel, q.length < fuel → schedRobinAdd fuel s p new = some s') ∧
      RingIs s' (enqueue p q) ∧ s'.proc = s.proc := by
  have hprune : ∀ fuel, q.length < fuel → schedRobinPrune fuel s = some s := fun _ => prune_valid hr
  obtain ⟨hp0, r, hrp, hrv⟩ := proc_of_valid hv
  have hacc : ¬ (r.directory = 0 ∨ r.savedKernelStack = 0) := by
    simp only [Process.valid, decide_eq_true_eq] at hrv
    exact not_or.2 ⟨hrv.1, hrv.2.1⟩
  obtain ⟨l, hl, hpr, hq⟩ := hr.ring
  cases l with
  -- the ring was empty
  | nil =>
    have hn0 : s.processes = 0 := hpr
    obtain rfl : [] = q := hq
    refine ⟨{ s with node := Function.update s.node new (some ⟨p, new⟩), processes := new },
      fun fuel hf => ?_, ?_, rfl⟩
    · simp [schedRobinAdd, hp0, hrp, hacc, hprune fuel hf, h0, hn0]
    · refine ⟨⟨[(new, p)], ⟨by simp, by simpa using h0.symm, ⟨_, Function.update_self .., rfl⟩, trivial⟩,
        rfl, rfl⟩, by simp [enqueue], fun v hm => ?_⟩
      rw [List.mem_singleton.1 hm]
      exact hv
  -- the new process comes behind the head
  | cons a l =>
    obtain ⟨h, u⟩ := a
    obtain rfl : s.processes = h := hpr
    obtain rfl : u :: l.map Prod.snd = q := hq
    have hn0 : s.processes ≠ 0 := fun hh => hl.ne_nil (by simp [hh])
    obtain ⟨hnext, hpu⟩ := hl.head
    have hnew : new ∉ addrs ((s.processes, u) :: l) := fun hm => hl.allocated hm hfree
    have hne : new ≠ s.processes ∧ new ∉ addrs l := by simpa using hnew
    have hw := setNext_eq hpu new
    set node := Function.update (Function.update s.node s.processes (some ⟨u, new⟩)) new
      (some ⟨p, first l s.processes⟩) with hnode
    refine ⟨{ s with node := node }, fun fuel hf => ?_,
      ⟨⟨(s.processes, u) :: (new, p) :: l, ?_, rfl, rfl⟩, ?_, ?_⟩, rfl⟩
    · simp [hnode, schedRobinAdd, hp0, hrp, hacc, hprune fuel hf, h0, hn0, hnext, hw]
    · refine hl.insert h0 hnew ⟨⟨u, new⟩, ?_, rfl⟩ ⟨_, Function.update_self .., rfl⟩ fun z hz => ?_
      · show node s.processes = _
        rw [hnode, Function.update_of_ne hne.1.symm, Function.update_self]
      · have hz₁ : z ≠ new := fun hh => hne.2 (hh ▸ hz)
        have hz₂ : z ≠ s.processes := fun hh => (List.nodup_cons.1 hl.nodup).1 (hh ▸ hz)
        show node z = _
        rw [hnode, Function.update_of_ne hz₁, Function.update_of_ne hz₂]
    · have := hr.nodup
      simp only [enqueue, List.nodup_cons, List.mem_cons, not_or] at this hp ⊢
      exact ⟨⟨hp.1 ∘ Eq.symm, this.1⟩, hp.2, this.2⟩
    · intro v hm
      simp only [enqueue, List.mem_cons] at hm
      rcases hm with rfl | rfl | hm
      · exact hr.valid v List.mem_cons_self
      · exact hv
      · exact hr.valid v (List.mem_cons_of_mem _ hm)

/-- **`sched_robin_get_current` is the head.** -/
theorem getCurrent_spec (hr : RingIs s q) {fuel : ℕ} (hf : q.length < fuel) :
    schedRobinGetCurrent fuel s = some (q.headD 0, s) := by
  have hprune := prune_valid hr hf
  obtain ⟨l, hl, hp, rfl⟩ := hr.ring
  cases l with
  | nil =>
    have h0 : s.processes = 0 := hp
    simp [schedRobinGetCurrent, hprune, h0]
  | cons a l =>
    obtain ⟨h, u⟩ := a
    obtain rfl : s.processes = h := hp
    have h0 : s.processes ≠ 0 := fun h0 => hl.ne_nil (by simp [h0])
    simp [schedRobinGetCurrent, hprune, h0, hl.head.2]

/-- The pid of process `p`. -/
def SchedRobin.pid (s : SchedRobin) (p : ℕ) : ℕ := ((s.proc p).map Process.pid).getD 0

theorem existsLoop_ok {pid start : ℕ} : ∀ (c : List (ℕ × ℕ)) (a v fuel : ℕ),
    Linked ProcNode.cell s.node ((a, v) :: c) start → start ∉ addrs c → 0 ∉ addrs c →
    (∀ p ∈ v :: c.map Prod.snd, procValid s p = some true) → c.length < fuel →
    existsLoop s pid start fuel a = some ((v :: c.map Prod.snd).any (s.pid · = pid)) := by
  intro c
  induction c with
  | nil =>
    intro a v fuel hl _ _ hv hf
    obtain ⟨k, rfl⟩ : ∃ k, fuel = k + 1 := ⟨fuel - 1, by omega⟩
    obtain ⟨⟨n, hn, hc⟩, -⟩ := hl
    simp only [ProcNode.cell, Prod.mk.injEq, first_nil] at hc
    obtain ⟨hp0, r, hr, -⟩ := proc_of_valid (hv v List.mem_cons_self)
    by_cases hpid : r.pid = pid <;>
      simp [existsLoop, SchedRobin.processOf, SchedRobin.nextOf, hn, hc, hp0, hr, hpid, SchedRobin.pid]
  | cons b c ih =>
    intro a v fuel hl hs h0 hv hf
    obtain ⟨k, rfl⟩ : ∃ k, fuel = k + 1 := ⟨fuel - 1, by omega⟩
    obtain ⟨y, w⟩ := b
    obtain ⟨⟨n, hn, hc⟩, hl⟩ := hl
    simp only [ProcNode.cell, Prod.mk.injEq, first_cons] at hc
    simp only [addrs_cons, List.mem_cons, not_or] at hs h0
    obtain ⟨hp0, r, hr, -⟩ := proc_of_valid (hv v List.mem_cons_self)
    have hrec := ih y w k hl hs.2 h0.2 (fun p hp => hv p (List.mem_cons_of_mem _ hp))
      (by simpa using hf)
    by_cases hpid : r.pid = pid
    · -- the current node has the process
      simp [existsLoop, SchedRobin.processOf, hn, hc, hp0, hr, hpid, SchedRobin.pid]
    · -- the search goes on with the next node
      have hs' : y ≠ start := fun hh => hs.1 hh.symm
      have h0' : y ≠ 0 := fun hh => h0.1 hh.symm
      have hpid' : s.pid v ≠ pid := by simpa [SchedRobin.pid, hr] using hpid
      rw [List.map_cons, List.any_cons, decide_eq_false hpid', Bool.false_or, ← hrec]
      conv_lhs => unfold existsLoop
      simp [SchedRobin.processOf, SchedRobin.nextOf, hn, hc, hp0, hr, hpid, hs', h0']

/-- **`sched_robin_exists` looks for the pid in the queue.** -/
theorem exists_spec (hr : RingIs s q) {fuel : ℕ} (hf : q.length < fuel) (pid : ℕ) :
    schedRobinExists fuel s pid = some (q.any (s.pid · = pid)) := by
  obtain ⟨l, hl, hp, rfl⟩ := hr.ring
  cases l with
  | nil =>
    have h0 : s.processes = 0 := hp
    simp [schedRobinExists, h0]
  | cons a l =>
    obtain ⟨h, u⟩ := a
    obtain rfl : s.processes = h := hp
    have hne := hl.ne_nil
    simp only [addrs_cons, List.mem_cons, not_or] at hne
    rw [schedRobinExists, if_neg (Ne.symm hne.1)]
    exact existsLoop_ok l _ u fuel hl.linked (List.nodup_cons.1 hl.nodup).1 hne.2 hr.valid
      (by simp at hf; omega)

/-! ### `sched_robin_exit` -/

/-- The search stops at the last node of a chain that ends at the node of `x`. -/
theorem findPrev_ok {a start : ℕ} (ha : s.processOf a = some x) : ∀ (c : List (ℕ × ℕ)) (p v : ℕ),
    Linked ProcNode.cell s.node ((p, v) :: c) a → start ∉ addrs c → x ∉ c.map Prod.snd →
    ∃ y w c', (p, v) :: c = c' ++ [(y, w)] ∧
      ∀ fuel, c.length < fuel → findPrev s x start fuel p = some (some y) := by
  intro c
  induction c with
  | nil =>
    intro p v hl _ _
    obtain ⟨⟨n, hn, hc⟩, -⟩ := hl
    simp only [ProcNode.cell, Prod.mk.injEq, first_nil] at hc
    refine ⟨p, v, [], rfl, fun fuel hf => ?_⟩
    obtain ⟨k, rfl⟩ := Nat.exists_eq_add_of_lt hf
    simp [findPrev, SchedRobin.nextOf, hn, hc, ha]
  | cons b c ih =>
    intro p v hl hs hx
    obtain ⟨z, w⟩ := b
    obtain ⟨⟨n, hn, hc⟩, hl⟩ := hl
    simp only [ProcNode.cell, Prod.mk.injEq, first_cons] at hc
    simp only [addrs_cons, List.map_cons, List.mem_cons, not_or] at hs hx
    obtain ⟨y, w', c', hcc, he⟩ := ih z w hl hs.2 hx.2
    refine ⟨y, w', (p, v) :: c', by rw [hcc]; rfl, fun fuel hf => ?_⟩
    obtain ⟨k, rfl⟩ : ∃ k, fuel = k + 1 := ⟨fuel - 1, by omega⟩
    have hpz : s.processOf z = some w := by
      obtain ⟨⟨n', hn', hc'⟩, -⟩ := hl
      simp only [ProcNode.cell, Prod.mk.injEq] at hc'
      simp [SchedRobin.processOf, hn', hc'.1]
    have hz : z ≠ start := fun hh => hs.1 hh.symm
    have hw : w ≠ x := fun hh => hx.1 hh.symm
    have hn' : s.nextOf p = some z := by simp [SchedRobin.nextOf, hn, hc.2]
    rw [← he k (by simpa using hf)]
    conv_lhs => unfold findPrev
    simp [hn', hpz, hw, hz]

/-- The node in front of the one that leaves, in a ring of two nodes or more. -/
theorem findPrev_ring {A B : List (ℕ × ℕ)} {a : ℕ} (hl : Nodes s (A ++ (a, x) :: B))
    (hp : s.processes = first (A ++ (a, x) :: B) 0) (hnd : ((A ++ (a, x) :: B).map Prod.snd).Nodup)
    (hne : B ++ A ≠ []) :
    ∃ y w M, B ++ A = M ++ [(y, w)] ∧ ∀ fuel, (A ++ (a, x) :: B).length < fuel →
      findPrev s x s.processes fuel s.processes = some (some y) := by
  have ha : s.processOf a = some x := hl.process
  rw [List.map_append, List.map_cons, List.nodup_append, List.nodup_cons] at hnd
  obtain ⟨-, ⟨hxB, -⟩, hdis⟩ := hnd
  rw [List.length_append, List.length_cons]
  cases A with
  | nil =>
    -- the head leaves: the search goes once around
    have hpa : s.processes = a := hp
    obtain ⟨y, w, c, hc, he⟩ := findPrev_ok ha B a x hl.linked (List.nodup_cons.1 hl.nodup).1 hxB
    cases c with
    | nil =>
      rw [List.append_nil] at hne
      exact absurd (List.cons.inj hc).2 hne
    | cons b c =>
      rw [hpa]
      exact ⟨y, w, c, by rw [List.append_nil]; exact (List.cons.inj hc).2, fun fuel hf => he fuel (by omega)⟩
  | cons b A =>
    obtain ⟨h, u⟩ := b
    have hph : s.processes = h := hp
    have hA : Linked ProcNode.cell s.node ((h, u) :: A) a := (linked_append.1 hl.linked).1
    have hhA : h ∉ addrs A := by
      have hn := hl.nodup
      rw [List.cons_append, addrs_cons, addrs_append, List.nodup_cons] at hn
      exact fun hm => hn.1 (List.mem_append_left _ hm)
    have hxA : x ∉ A.map Prod.snd := fun hm =>
      hdis x (by rw [List.map_cons]; exact List.mem_cons_of_mem _ hm) x List.mem_cons_self rfl
    obtain ⟨y, w, c, hc, he⟩ := findPrev_ok ha A h u hA hhA hxA
    rw [hph, hc]
    refine ⟨y, w, B ++ c, by rw [List.append_assoc], fun fuel hf => he fuel ?_⟩
    rw [← hc, List.length_cons] at hf
    omega

/-- Taking the node `a` out from behind the node `y`. -/
theorem unlink_ok {y w a k : ℕ} {M : List (ℕ × ℕ)} (hl : Nodes s ((y, w) :: (a, x) :: M))
    (hp0 : s.processes ≠ 0) {n : ℕ} (hn : s.nextOf s.processes = some n) (hne : s.processes ≠ n)
    (he : ∀ fuel, k < fuel → findPrev s x s.processes fuel s.processes = some (some y)) :
    ∃ s', (∀ fuel, k < fuel → schedRobinExit fuel s x = some s') ∧ Nodes s' ((y, w) :: M) ∧
      s'.processes = y ∧ s'.proc = s.proc := by
  obtain ⟨hny, hpy⟩ := hl.head
  have hna : s.nextOf a = some (first M y) := hl.second.1
  have hnd := hl.nodup
  simp only [addrs_cons, List.nodup_cons, List.mem_cons, not_or] at hnd
  have hw := setNext_eq hpy (first M y)
  rw [first_cons] at hny
  set node := Function.update (Function.update s.node y (some ⟨w, first M y⟩)) a none with hnode
  refine ⟨{ s with node := node, processes := y }, fun fuel hf => ?_,
    hl.remove ⟨⟨w, first M y⟩, ?_, rfl⟩ fun z hz => ?_, rfl, rfl⟩
  · simp only [schedRobinExit, hp0, hn, hne, he fuel hf, hny, hna, hw, Option.bind_eq_bind, Option.bind_some,
      if_false]
    rfl
  · show node y = _
    rw [hnode, Function.update_of_ne hnd.1.1, Function.update_self]
  · have hza : z ≠ a := fun hh => hnd.2.1 (hh ▸ hz)
    have hzy : z ≠ y := fun hh => hnd.1.2 (hh ▸ hz)
    show node z = _
    rw [hnode, Function.update_of_ne hza, Function.update_of_ne hzy]

/-- **`sched_robin_exit` takes the process out**, and the one in front of it becomes the
head. -/
theorem exit_spec (hr : RingIs s q) (hx : x ∈ q) :
    ∃ s', (∀ fuel, q.length < fuel → schedRobinExit fuel s x = some s') ∧ RingIs s' (leave x q) ∧
      s'.proc = s.proc := by
  have hperm := leave_perm hx
  have hnd' : (leave x q).Nodup := hperm.nodup_iff.2 (hr.nodup.erase x)
  have hval : ∀ p ∈ leave x q, procValid s p = some true := fun p hp =>
    hr.valid p (List.mem_of_mem_erase (hperm.subset hp))
  obtain ⟨l, hl, hp, hq⟩ := hr.ring
  have hxl : x ∈ l.map Prod.snd := hq ▸ hx
  obtain ⟨⟨a, x'⟩, hm, rfl⟩ := List.mem_map.1 hxl
  obtain ⟨A, B, rfl⟩ := List.append_of_mem hm
  have hlen : q.length = (A ++ (a, x') :: B).length := by rw [← hq, List.length_map]
  have hnd := hr.nodup
  rw [← hq] at hnd
  have hxA : x' ∉ A.map Prod.snd := by
    rw [List.map_append, List.nodup_append] at hnd
    exact fun hm => hnd.2.2 x' hm x' (by simp) rfl
  have hleave : leave x' q = lastFirst ((B ++ A).map Prod.snd) := by
    rw [← hq, List.map_append, List.map_cons, leave_append _ hxA, List.map_append]
  obtain ⟨⟨h, u⟩, T, hT⟩ := List.exists_cons_of_ne_nil (List.append_ne_nil_of_right_ne_nil A
    (List.cons_ne_nil (a, x') B))
  have hlT : Nodes s ((h, u) :: T) := hT ▸ hl
  obtain rfl : s.processes = h := by rw [hp, hT]; rfl
  have hp0 : s.processes ≠ 0 := fun h0 => hlT.ne_nil (by simp [h0])
  have hnx := hlT.head.1
  by_cases hne : B ++ A = []
  · -- the only process leaves
    obtain ⟨rfl, rfl⟩ := List.append_eq_nil_iff.1 hne
    obtain ⟨-, rfl⟩ := List.cons.inj hT
    refine ⟨{ s.kfreeNode s.processes with processes := 0 }, fun _ _ => ?_, ?_, rfl⟩
    · simp only [schedRobinExit, hp0, hnx, first_nil, Option.bind_eq_bind, Option.bind_some, if_false,
        if_true]
      rfl
    · rw [hleave]
      exact ⟨⟨[], .empty, rfl, rfl⟩, List.nodup_nil, by simp [lastFirst]⟩
  · -- another process stays
    obtain ⟨y, w, M, hM, he⟩ := findPrev_ring hl hp hnd hne
    rw [← hlen] at he
    have hring : Nodes s ((y, w) :: (a, x') :: M) := by
      have h1 : Nodes s ((a, x') :: (M ++ [(y, w)])) := by
        rw [← hM]
        exact Ring.rotate A _ hl
      exact Ring.rotate ((a, x') :: M) [(y, w)] h1
    have hTne : T ≠ [] := by
      rintro rfl
      have := congrArg List.length hT
      have hlen := List.length_pos_iff.2 hne
      simp only [List.length_append, List.length_cons, List.length_nil] at this hlen
      omega
    have hnn : s.processes ≠ first T s.processes := fun hh =>
      (List.nodup_cons.1 hlT.nodup).1 (by rw [hh]; exact first_mem hTne)
    obtain ⟨s', hs', hl', hp', hproc⟩ := unlink_ok hring hp0 hnx hnn he
    have hval' : leave x' q = ((y, w) :: M).map Prod.snd := by
      rw [hleave, hM, List.map_append, List.map_cons, List.map_nil, lastFirst_append]
      rfl
    refine ⟨s', hs', ⟨⟨_, hl', hp', hval'.symm⟩, hnd', fun p hpm => ?_⟩, hproc⟩
    have := hval p hpm
    unfold procValid at this ⊢
    rwa [hproc]

/-! ### Runs -/

/-- The calls of the scheduler interface, beside the set of the processes that were added
and did not exit. Between the calls sleep counters may change in any way, and so may
records that belong to no such process. -/
inductive SchedStep : SchedRobin × Finset ℕ → SchedRobin × Finset ℕ → Prop
  | add (s s' live) (p new : ℕ) : procValid s p = some true → p ∉ live → new ≠ 0 → s.node new = none →
      Returns (schedRobinAdd · s p new) s' → SchedStep (s, live) (s', insert p live)
  | next (s s' live) (r : ℕ) : Returns (schedRobinNext · s) (r, s') → SchedStep (s, live) (s', live)
  | getCurrent (s s' live) (r : ℕ) : Returns (schedRobinGetCurrent · s) (r, s') →
      SchedStep (s, live) (s', live)
  | exit (s s' live) (p : ℕ) : p ∈ live → Returns (schedRobinExit · s p) s' →
      SchedStep (s, live) (s', live.erase p)
  | sleep (s live) (p t : ℕ) : SchedStep (s, live) (s.setSleep p t, live)
  | record (s live) (p : ℕ) (r : Option Process) : p ∉ live →
      SchedStep (s, live) ({ s with proc := Function.update s.proc p r }, live)

/-- The ring carries exactly the processes `live`, each once. -/
structure RingOf (s : SchedRobin) (live : Finset ℕ) : Prop where
  null : s.processes = 0 ↔ live = ∅
  ring : ∃ l, Ring ProcNode.cell s.node 0 l ∧ s.processes = first l 0 ∧ (l.map Prod.snd).Nodup ∧
    ∀ p, p ∈ l.map Prod.snd ↔ p ∈ live

theorem RingIs.ringOf {live : Finset ℕ} (hr : RingIs s q) (hq : ∀ p, p ∈ q ↔ p ∈ live) : RingOf s live := by
  obtain ⟨l, hl, hp, rfl⟩ := hr.ring
  refine ⟨?_, l, hl, hp, hr.nodup, hq⟩
  rw [hp, Finset.eq_empty_iff_forall_notMem]
  cases l with
  | nil => exact ⟨fun _ p hm => absurd ((hq p).2 hm) (by simp), fun _ => rfl⟩
  | cons a l =>
    constructor
    · intro h0
      exact absurd (h0 ▸ first_mem (by simp)) hl.ne_nil
    · intro h0
      exact absurd ((hq a.2).1 (by simp)) (h0 a.2)

/-- Records outside the queue do not matter. -/
theorem RingIs.congr (hr : RingIs s q) (hn : s'.node = s.node) (hp : s'.processes = s.processes)
    (hv : ∀ p ∈ q, procValid s' p = procValid s p) : RingIs s' q := by
  obtain ⟨l, hl, hpl, hq⟩ := hr.ring
  refine ⟨⟨l, ?_, hp.trans hpl, hq⟩, hr.nodup, fun p hm => (hv p hm).trans (hr.valid p hm)⟩
  rw [Nodes, hn]
  exact hl

theorem procValid_setSleep (p t k : ℕ) : procValid (s.setSleep p t) k = procValid s k := by
  unfold procValid SchedRobin.setSleep
  by_cases hk : k = p
  · subst hk
    cases s.proc k <;> simp [Process.valid]
  · simp [hk]

/-- **One call** keeps a ring of the processes that are left. -/
theorem ringIs_step {live live' : Finset ℕ} (hr : RingIs s q) (hq : ∀ p, p ∈ q ↔ p ∈ live)
    (hs : SchedStep (s, live) (s', live')) : ∃ q', RingIs s' q' ∧ ∀ p, p ∈ q' ↔ p ∈ live' := by
  cases hs with
  | add _ _ _ p new hv hp h0 hfree he =>
    obtain ⟨s₁, hret, hr', -⟩ := add_spec hr hv (fun hm => hp ((hq p).1 hm)) h0 hfree
    obtain rfl := he.unique ⟨_, hret⟩
    refine ⟨_, hr', fun k => ?_⟩
    rw [(enqueue_perm p q).mem_iff, List.mem_cons, hq, Finset.mem_insert]
  | next _ _ _ r he =>
    obtain ⟨s₁, hret, hr', -⟩ := next_spec hr
    obtain ⟨-, rfl⟩ := Prod.mk.inj (he.unique ⟨_, hret⟩)
    exact ⟨_, hr', fun k => by rw [(elect_perm ..).mem_iff, hq]⟩
  | getCurrent _ _ _ r he =>
    obtain ⟨-, rfl⟩ := Prod.mk.inj (he.unique ⟨q.length, fun _ => getCurrent_spec hr⟩)
    exact ⟨q, hr, hq⟩
  | exit _ _ _ p hp he =>
    obtain ⟨s₁, hret, hr', -⟩ := exit_spec hr ((hq p).2 hp)
    obtain rfl := he.unique ⟨_, hret⟩
    refine ⟨_, hr', fun k => ?_⟩
    rw [(leave_perm ((hq p).2 hp)).mem_iff, hr.nodup.mem_erase_iff, Finset.mem_erase, hq]
  | sleep _ _ p t => exact ⟨q, hr.congr rfl rfl fun k _ => procValid_setSleep p t k, hq⟩
  | record _ _ p r hp =>
    refine ⟨q, hr.congr rfl rfl fun k hk => ?_, hq⟩
    have hkp : k ≠ p := fun hh => hp ((hq p).1 (hh ▸ hk))
    simp [procValid, hkp]

theorem schedRobin_ringIs (proc : ℕ → Option Process) : RingIs (schedRobin proc) [] :=
  ⟨⟨[], .empty, rfl, rfl⟩, List.nodup_nil, by simp⟩

/-- **The ring invariant.** After any calls `sc->processes` heads a circle of exactly the
processes that were added and did not exit, each once, and is `NULL` when there is none.
Every further call terminates without a fault, and `sched_robin_exists` answers for
exactly the pids of these processes. -/
theorem ring_invariant {proc : ℕ → Option Process} {live : Finset ℕ}
    (hr : Relation.ReflTransGen SchedStep (schedRobin proc, ∅) (s, live)) :
    RingOf s live ∧
      (∀ pid, ∃ b, Returns (schedRobinExists · s pid) b ∧
        (b = true ↔ ∃ p ∈ live, (s.proc p).map Process.pid = some pid)) ∧
      (∃ r, Returns (schedRobinNext · s) r) ∧ (∃ r, Returns (schedRobinGetCurrent · s) r) ∧
      (∀ p ∈ live, ∃ r, Returns (schedRobinExit · s p) r) ∧
      ∀ p new, procValid s p = some true → p ∉ live → new ≠ 0 → s.node new = none →
        ∃ r, Returns (schedRobinAdd · s p new) r := by
  have hinv : ∀ x y : SchedRobin × Finset ℕ, (∃ q, RingIs x.1 q ∧ ∀ p, p ∈ q ↔ p ∈ x.2) →
      SchedStep x y → ∃ q, RingIs y.1 q ∧ ∀ p, p ∈ q ↔ p ∈ y.2 := by
    rintro ⟨s, live⟩ ⟨s', live'⟩ ⟨q, hq, hm⟩ hs
    exact ringIs_step hq hm hs
  obtain ⟨q, hq, hm⟩ : ∃ q, RingIs s q ∧ ∀ p, p ∈ q ↔ p ∈ live :=
    Lib.run_inv hinv ⟨[], schedRobin_ringIs proc, by simp⟩ hr
  refine ⟨hq.ringOf hm, fun pid => ⟨_, ⟨_, fun _ hf => exists_spec hq hf pid⟩, ?_⟩, ?_, ?_, ?_, ?_⟩
  · simp only [List.any_eq_true, decide_eq_true_eq]
    have hpid : ∀ p ∈ q, (s.pid p = pid ↔ (s.proc p).map Process.pid = some pid) := by
      intro p hp
      obtain ⟨-, r, hrp, -⟩ := proc_of_valid (hq.valid p hp)
      simp [SchedRobin.pid, hrp]
    constructor
    · rintro ⟨p, hp, hpp⟩
      exact ⟨p, (hm p).1 hp, (hpid p hp).1 hpp⟩
    · rintro ⟨p, hp, hpp⟩
      exact ⟨p, (hm p).2 hp, (hpid p ((hm p).2 hp)).2 hpp⟩
  · obtain ⟨s', h, -⟩ := next_spec hq
    exact ⟨_, _, h⟩
  · exact ⟨_, _, fun _ => getCurrent_spec hq⟩
  · intro p hp
    obtain ⟨s', h, -⟩ := exit_spec hq ((hm p).2 hp)
    exact ⟨_, _, h⟩
  · intro p new hv hp h0 hfree
    obtain ⟨s', h, -⟩ := add_spec hq hv (fun h => hp ((hm p).1 h)) h0 hfree
    exact ⟨_, _, h⟩

/-- Valid process records at the addresses `0x100` and `0x300`, which are their pids. -/
def twoProcs : ℕ → Option Process := fun p =>
  if p = 0x100 ∨ p = 0x300 then some ⟨0xC0FEBABE, p, 1, 0x5000, 0x9000, 0, 0, 0, 0xC0FEBABE⟩ else none

/-- Two processes are added, one of them is elected, and the other one exits. -/
theorem ring_invariant_left : ∃ s, RingOf s {0x100} ∧ (∃ b, Returns (schedRobinExists · s 0x100) b ∧ b = true) ∧
    ∃ b, Returns (schedRobinExists · s 0x300) b ∧ ¬ b = true := by
  obtain ⟨s₁, h₁, hr₁, hp₁⟩ := add_spec (p := 0x100) (schedRobin_ringIs twoProcs) (by decide) (by decide)
    (by decide : 0x200 ≠ 0) rfl
  -- the second node is still free
  have hnode : s₁.node 0x400 = none := by
    have hfree : (schedRobinAdd 9 (schedRobin twoProcs) 0x100 0x200).map (fun s => (s.node 0x400).isNone) =
      some true := by
      decide
    rw [h₁ 9 (by decide)] at hfree
    exact Option.isNone_iff_eq_none.1 (Option.some.inj hfree)
  have hvalid : procValid s₁ 0x300 = some true := by
    unfold procValid
    rw [hp₁]
    rfl
  obtain ⟨s₂, h₂, hr₂, hp₂⟩ := add_spec (p := 0x300) hr₁ hvalid (by decide) (by decide : 0x400 ≠ 0) hnode
  obtain ⟨s₃, h₃, hr₃, hp₃⟩ := next_spec hr₂
  have hin : 0x300 ∈ (elect s₂.ticks (enqueue 0x300 (enqueue 0x100 []))).1 := by
    rw [(elect_perm ..).mem_iff]
    decide
  obtain ⟨s₄, h₄, -, hp₄⟩ := exit_spec hr₃ hin
  have hrun := (((Relation.ReflTransGen.single
    (SchedStep.add _ s₁ ∅ 0x100 0x200 (by decide) (by decide) (by decide) rfl
    ⟨_, h₁⟩)).tail (.add _ s₂ _ 0x300 0x400 hvalid (by decide) (by decide) hnode ⟨_, h₂⟩)).tail
    (.next _ s₃ _ _ ⟨_, h₃⟩)).tail (.exit _ s₄ _ 0x300 (by decide) ⟨_, h₄⟩)
  obtain ⟨hring, hexists, -⟩ := ring_invariant hrun
  have hlive : (insert 0x300 (insert 0x100 (∅ : Finset ℕ))).erase 0x300 = {0x100} := by decide
  rw [hlive] at hring hexists
  have hpid : (s₄.proc 0x100).map Process.pid = some 0x100 := by
    have hrec : s₂.proc 0x100 = some ⟨0xC0FEBABE, 0x100, 1, 0x5000, 0x9000, 0, 0, 0, 0xC0FEBABE⟩ := by
      rw [hp₂, hp₁]
      rfl
    rw [hp₄, hp₃, withTicks_proc hrec]
    rfl
  obtain ⟨b, hb, hiff⟩ := hexists 0x100
  obtain ⟨b', hb', hiff'⟩ := hexists 0x300
  refine ⟨s₄, hring, ⟨b, hb, hiff.2 ⟨0x100, Finset.mem_singleton_self _, hpid⟩⟩, b', hb', fun hh => ?_⟩
  obtain ⟨p, hp, hmap⟩ := hiff'.1 hh
  rw [Finset.mem_singleton.1 hp, hpid] at hmap
  exact absurd (Option.some.inj hmap) (by decide)

end Saynaa
