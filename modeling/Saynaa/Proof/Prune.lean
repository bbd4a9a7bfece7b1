import Saynaa.Proof.Sched

/-!
# Pruning the scheduler ring

* `pruneHeadFreed`, `pruneRestFreed`, `schedRobinPruneFreed`: `sched_robin_prune`, which also lists the nodes that
  it frees.
* `pruneHead_ok`, `pruneRest_ok`: the two loops.
* `prune_exact`: the nodes with valid processes stay, in their order; each of the others is freed once.
-/

namespace Saynaa

open Lib

variable {s s' : SchedRobin} {l l₁ l₂ pre rem : List (ℕ × ℕ)} {x v h u fuel : ℕ}

/-! ### The nodes that are freed -/

/-- `pruneHead`, and what it frees. -/
def pruneHeadFreed : ℕ → SchedRobin → Option (List ℕ × SchedRobin)
  | 0, _ => none
  | fuel + 1, s =>
    if s.processes = 0 then some ([], s)
    else do
      let head := s.processes
      if ← procValid s (← s.processOf head) then return ([], s)
      let next ← s.nextOf head
      if next = head then return ([head], { s.kfreeNode head with processes := 0 })
      let tail ← findTail s head (fuel + 1) head
      let s ← s.setNext tail next
      (pruneHeadFreed fuel ({ s with processes := next }.kfreeNode head)).map fun r => (head :: r.1, r.2)

/-- `pruneRest`, and what it frees. -/
def pruneRestFreed : ℕ → SchedRobin → ℕ → ℕ → Option (List ℕ × SchedRobin)
  | 0, _, _, _ => none
  | fuel + 1, s, prev, cur =>
    if cur = s.processes then some ([], s)
    else do
      let next ← s.nextOf cur
      if ← procValid s (← s.processOf cur) then pruneRestFreed fuel s cur next
      else
        let s := (← s.setNext prev next).kfreeNode cur
        (pruneRestFreed fuel s prev (← s.nextOf prev)).map fun r => (cur :: r.1, r.2)

/-- `schedRobinPrune`, and what it frees. -/
def schedRobinPruneFreed (fuel : ℕ) (s : SchedRobin) : Option (List ℕ × SchedRobin) := do
  let (freed, s) ← pruneHeadFreed fuel s
  if s.processes = 0 then return (freed, s)
  (pruneRestFreed fuel s s.processes (← s.nextOf s.processes)).map fun r => (freed ++ r.1, r.2)

theorem map_bind_of {α β γ : Type*} {x : Option α} {f : α → Option β} {g : β → γ} {f' : α → Option γ}
    (h : ∀ a, (f a).map g = f' a) : (x.bind f).map g = x.bind f' := by
  cases x with
  | none => rfl
  | some a => exact h a

theorem pruneHeadFreed_snd (fuel : ℕ) (s : SchedRobin) : (pruneHeadFreed fuel s).map Prod.snd = pruneHead fuel s := by
  induction fuel generalizing s with
  | zero => rfl
  | succ fuel ih =>
    unfold pruneHeadFreed pruneHead
    simp only [Option.bind_eq_bind, Option.pure_def]
    split_ifs
    · rfl
    · refine map_bind_of fun p => map_bind_of fun valid => ?_
      split_ifs
      · rfl
      · refine map_bind_of fun next => ?_
        split_ifs
        · rfl
        · refine map_bind_of fun tail => map_bind_of fun s => ?_
          rw [← ih, Option.map_map]
          rfl

theorem pruneRestFreed_snd (fuel : ℕ) (s : SchedRobin) (prev cur : ℕ) :
    (pruneRestFreed fuel s prev cur).map Prod.snd = pruneRest fuel s prev cur := by
  induction fuel generalizing s prev cur with
  | zero => rfl
  | succ fuel ih =>
    unfold pruneRestFreed pruneRest
    simp only [Option.bind_eq_bind]
    split_ifs
    · rfl
    · refine map_bind_of fun next => map_bind_of fun p => map_bind_of fun valid => ?_
      split_ifs
      · exact ih s cur next
      · refine map_bind_of fun s => map_bind_of fun a => ?_
        rw [← ih, Option.map_map]
        rfl

/-- **The list of freed nodes** does not change what is computed. -/
theorem schedRobinPruneFreed_snd (fuel : ℕ) (s : SchedRobin) :
    (schedRobinPruneFreed fuel s).map Prod.snd = schedRobinPrune fuel s := by
  unfold schedRobinPruneFreed schedRobinPrune
  simp only [Option.bind_eq_bind, Option.pure_def]
  rw [← pruneHeadFreed_snd]
  cases pruneHeadFreed fuel s with
  | none => rfl
  | some r =>
    simp only [Option.bind_some, Option.map_some]
    split_ifs
    · rfl
    · refine map_bind_of fun next => ?_
      rw [← pruneRestFreed_snd, Option.map_map]
      rfl

/-! ### The loops -/

/-- What a node carries is `NULL` or a process record. -/
def Readable (s : SchedRobin) (l : List (ℕ × ℕ)) : Prop := ∀ a ∈ l, a.2 = 0 ∨ (s.proc a.2).isSome

/-- A node with a valid process. -/
def keeps (s : SchedRobin) (a : ℕ × ℕ) : Bool := decide (procValid s a.2 = some true)

theorem Readable.valid {a : ℕ × ℕ} (h : Readable s l) (ha : a ∈ l) : procValid s a.2 = some (keeps s a) := by
  have hsome : (procValid s a.2).isSome := by
    unfold procValid
    split_ifs with h0
    · rfl
    · rw [Option.isSome_map]
      exact (h a ha).resolve_left h0
  obtain ⟨b, hb⟩ := Option.isSome_iff_exists.1 hsome
  unfold keeps
  rw [hb]
  cases b <;> rfl

theorem procValid_congr (h : s'.proc = s.proc) (p : ℕ) : procValid s' p = procValid s p := by
  unfold procValid
  rw [h]

theorem keeps_congr (h : s'.proc = s.proc) : keeps s' = keeps s := by
  funext a
  unfold keeps
  rw [procValid_congr h]

/-- **The search for the tail** ends at the last node. -/
theorem findTail_eq {t w : ℕ} (hl : Linked ProcNode.cell s.node ((x, v) :: (l ++ [(t, w)])) h)
    (hh : h ∉ addrs (l ++ [(t, w)])) (hf : l.length + 2 ≤ fuel) : findTail s h fuel x = some t := by
  induction l generalizing x v fuel with
  | nil =>
    obtain ⟨k, rfl⟩ := Nat.exists_eq_add_of_le hf
    obtain ⟨⟨n, hn, hc⟩, ⟨n', hn', hc'⟩, -⟩ := hl
    simp only [ProcNode.cell, Prod.mk.injEq, List.nil_append, first_cons, first_nil] at hc hc'
    have hx : s.nextOf x = some t := by simp [SchedRobin.nextOf, hn, hc.2]
    have ht : s.nextOf t = some h := by simp [SchedRobin.nextOf, hn', hc'.2]
    have hne : t ≠ h := fun heq => hh (by simp [heq])
    rw [show [].length + 2 + k = (k + 1) + 1 by simp only [List.length_nil]; omega]
    unfold findTail
    simp only [hx, Option.bind_eq_bind, Option.bind_some]
    rw [if_pos hne]
    unfold findTail
    simp only [ht, Option.bind_eq_bind, Option.bind_some]
    rw [if_neg (not_not.2 rfl)]
    rfl
  | cons a l ih =>
    obtain ⟨z, c⟩ := a
    obtain ⟨k, rfl⟩ := Nat.exists_eq_add_of_le hf
    obtain ⟨⟨n, hn, hc⟩, hl⟩ := hl
    simp only [ProcNode.cell, Prod.mk.injEq, List.cons_append, first_cons] at hc
    have hx : s.nextOf x = some z := by simp [SchedRobin.nextOf, hn, hc.2]
    rw [List.cons_append, addrs_cons, List.mem_cons, not_or] at hh
    have hrest := @ih z c (l.length + 2 + k) hl hh.2 (by omega)
    rw [show ((z, c) :: l).length + 2 + k = (l.length + 2 + k) + 1 by rw [List.length_cons]; omega]
    unfold findTail
    simp only [hx, Option.bind_eq_bind, Option.bind_some]
    rw [if_pos (Ne.symm hh.1)]
    exact hrest

/-- What a pruning loop leaves: the ring `l'`, where the nodes `freed` are gone. -/
structure Pruned (s s' : SchedRobin) (l l' : List (ℕ × ℕ)) (freed : List ℕ) : Prop where
  ring : Nodes s' l'
  head : s'.processes = first l' 0
  proc : s'.proc = s.proc
  gone : ∀ a ∈ freed, s'.node a = none
  frame : ∀ a, a ∉ addrs l → s'.node a = s.node a

/-- **The first loop** frees the invalid nodes at the head. -/
theorem pruneHead_ok (hr : Nodes s l) (hp : s.processes = first l 0) (hv : Readable s l) (hf : l.length < fuel) :
    ∃ s', pruneHeadFreed fuel s = some (addrs (l.takeWhile fun a => !keeps s a), s') ∧
      Pruned s s' l (l.dropWhile fun a => !keeps s a) (addrs (l.takeWhile fun a => !keeps s a)) := by
  induction l generalizing s fuel with
  | nil =>
    obtain ⟨k, rfl⟩ := Nat.exists_eq_add_of_lt hf
    refine ⟨s, ?_, hr, hp, rfl, fun a ha => absurd ha List.not_mem_nil, fun a _ => rfl⟩
    unfold pruneHeadFreed
    rw [if_pos (show s.processes = 0 from hp)]
    rfl
  | cons a l ih =>
    obtain ⟨h, u⟩ := a
    obtain ⟨k, rfl⟩ : ∃ k, fuel = k + 1 := ⟨fuel - 1, by omega⟩
    have hh : s.processes = h := hp
    have h0 : h ≠ 0 := fun h0 => hr.ne_nil (by simp [h0])
    obtain ⟨hn, hpr⟩ := hr.head
    have hval := hv.valid (a := (h, u)) List.mem_cons_self
    unfold pruneHeadFreed
    rw [if_neg (by rw [hh]; exact h0)]
    simp only [hh, hpr, hval, hn, Option.bind_eq_bind, Option.bind_some, Option.pure_def]
    by_cases hkeep : keeps s (h, u)
    · -- the head is valid
      have hstop : ¬ (!keeps s (h, u)) = true := by simp [hkeep]
      rw [if_pos hkeep, List.takeWhile_cons_of_neg (p := fun a => !keeps s a) hstop,
        List.dropWhile_cons_of_neg (p := fun a => !keeps s a) hstop]
      exact ⟨s, rfl, hr, hp, rfl, fun a ha => absurd ha List.not_mem_nil, fun a _ => rfl⟩
    have hgo : (!keeps s (h, u)) = true := by simp [hkeep]
    rw [if_neg hkeep, List.takeWhile_cons_of_pos (p := fun a => !keeps s a) hgo,
      List.dropWhile_cons_of_pos (p := fun a => !keeps s a) hgo, addrs_cons]
    have hcons : h ∉ addrs l ∧ (addrs l).Nodup := List.nodup_cons.1 hr.nodup
    obtain ⟨hnotin, hnd⟩ := hcons
    rcases List.eq_nil_or_concat l with rfl | ⟨pre, ⟨t, w⟩, hlast⟩
    · -- the last node
      rw [first_nil, if_pos rfl]
      refine ⟨_, rfl, Ring.empty, rfl, rfl, ?_, ?_⟩
      · intro a ha
        obtain rfl : a = h := List.mem_singleton.1 ha
        exact Function.update_self ..
      · intro a ha
        exact Function.update_of_ne (fun heq => ha (by simp [heq])) ..
    rw [List.concat_eq_append] at hlast
    subst hlast
    have hth : t ≠ h := fun heq => hnotin (by simp [heq])
    have hnext : first (pre ++ [(t, w)]) h = first (pre ++ [(t, w)]) 0 := by
      cases pre <;> rfl
    have hne : first (pre ++ [(t, w)]) h ≠ h := fun heq => hnotin (heq ▸ first_mem (by simp))
    have hlen : pre.length + 2 ≤ k := by
      rw [List.length_cons, List.length_append, List.length_singleton] at hf
      omega
    have hlinked : Linked ProcNode.cell s.node ((h, u) :: (pre ++ [(t, w)])) h := hr.linked
    rw [if_neg hne, findTail_eq hlinked hnotin (by omega)]
    have hproc : s.processOf t = some w := by
      have hr' : Nodes s (((h, u) :: pre) ++ (t, w) :: []) := hr
      exact hr'.process
    simp only [Option.bind_some]
    rw [setNext_eq hproc]
    simp only [Option.bind_some]
    -- the ring without its head
    generalize hs₂ : SchedRobin.kfreeNode { s with
      node := Function.update s.node t (some ⟨w, first (pre ++ [(t, w)]) h⟩)
      processes := first (pre ++ [(t, w)]) h } h = s₂
    have hnode : s₂.node =
      Function.update (Function.update s.node t (some ⟨w, first (pre ++ [(t, w)]) h⟩)) h none := by
      rw [← hs₂]
      rfl
    have hproc₂ : s₂.proc = s.proc := by
      rw [← hs₂]
      rfl
    have hr₂ : Nodes s₂ (pre ++ [(t, w)]) := by
      refine Ring.remove_first hr ⟨⟨w, first (pre ++ [(t, w)]) 0⟩, ?_, rfl⟩ ?_
      · rw [hnode, Function.update_of_ne hth, Function.update_self, hnext]
      · intro z hz
        have hzh : z ≠ h := by
          rintro rfl
          rw [addrs_append, List.mem_append] at hnotin
          exact hnotin (.inl hz)
        have hzt : z ≠ t := by
          rintro rfl
          rw [addrs_append, addrs_cons, addrs_nil] at hnd
          exact (List.nodup_append.1 hnd).2.2 z hz z List.mem_cons_self rfl
        rw [hnode, Function.update_of_ne hzh, Function.update_of_ne hzt]
    have hp₂ : s₂.processes = first (pre ++ [(t, w)]) 0 := by
      rw [← hs₂, ← hnext]
      rfl
    have hv₂ : Readable s₂ (pre ++ [(t, w)]) := by
      intro a ha
      rw [hproc₂]
      exact hv a (List.mem_cons_of_mem _ ha)
    obtain ⟨s', heq, hP⟩ := @ih s₂ k hr₂ hp₂ hv₂ (by rw [List.length_append, List.length_singleton]; omega)
    rw [keeps_congr hproc₂] at heq hP
    rw [heq]
    refine ⟨s', rfl, hP.ring, hP.head, hP.proc.trans hproc₂, ?_, ?_⟩
    · intro a ha
      rcases List.mem_cons.1 ha with rfl | ha
      · rw [hP.frame _ hnotin, hnode, Function.update_self]
      · exact hP.gone a ha
    · intro a ha
      rw [addrs_cons, List.mem_cons, not_or] at ha
      have hat : a ≠ t := fun heq => ha.2 (by simp [heq])
      rw [hP.frame a ha.2, hnode, Function.update_of_ne ha.1, Function.update_of_ne hat]

/-- **The second loop** frees the other invalid nodes. -/
theorem pruneRest_ok {d rem : List (ℕ × ℕ)} {p pv : ℕ} (hr : Nodes s (d ++ (p, pv) :: rem))
    (hp : s.processes = first (d ++ (p, pv) :: rem) 0) (hv : Readable s rem) (hf : rem.length < fuel) :
    ∃ s', pruneRestFreed fuel s p (first rem s.processes) = some (addrs (rem.filter fun a => !keeps s a), s') ∧
      Pruned s s' (d ++ (p, pv) :: rem) (d ++ (p, pv) :: rem.filter (keeps s))
        (addrs (rem.filter fun a => !keeps s a)) := by
  induction rem generalizing s d p pv fuel with
  | nil =>
    obtain ⟨k, rfl⟩ := Nat.exists_eq_add_of_lt hf
    refine ⟨s, ?_, hr, hp, rfl, fun a ha => absurd ha List.not_mem_nil, fun a _ => rfl⟩
    unfold pruneRestFreed
    rw [first_nil, if_pos rfl]
    rfl
  | cons a rem ih =>
    obtain ⟨x, v⟩ := a
    obtain ⟨k, rfl⟩ : ∃ k, fuel = k + 1 := ⟨fuel - 1, by omega⟩
    have hsplit : d ++ (p, pv) :: (x, v) :: rem = (d ++ [(p, pv)]) ++ (x, v) :: rem := by simp
    have hrx : Nodes s ((d ++ [(p, pv)]) ++ (x, v) :: rem) := hsplit ▸ hr
    have hnd := hrx.nodup
    simp only [addrs_append, addrs_cons, addrs_nil, List.nodup_append, List.nodup_cons, List.mem_append,
      List.mem_cons, List.not_mem_nil, or_false] at hnd
    obtain ⟨⟨-, -, hdp⟩, ⟨hxrem, -⟩, hdis⟩ := hnd
    have hhead : s.processes = first (d ++ [(p, pv)]) x := by
      rw [hp]
      cases d <;> rfl
    have hxh : x ≠ s.processes := by
      rw [hhead]
      intro heq
      have hmem : x ∈ addrs (d ++ [(p, pv)]) := by
        have hfirst := first_mem (b := x) (l := d ++ [(p, pv)]) (by simp)
        rwa [← heq] at hfirst
      simp only [addrs_append, addrs_cons, addrs_nil, List.mem_append, List.mem_singleton] at hmem
      exact hdis x hmem x (.inl rfl) rfl
    have hxp : x ≠ p := fun heq => hdis p (.inr rfl) x (.inl rfl) heq.symm
    have hn : s.nextOf x = some (first rem s.processes) := by
      rw [hrx.next, first_append, hhead]
    have hval := hv.valid (a := (x, v)) List.mem_cons_self
    have hv' : Readable s rem := fun a ha => hv a (List.mem_cons_of_mem _ ha)
    unfold pruneRestFreed
    rw [first_cons, if_neg hxh]
    simp only [hn, hrx.process, hval, Option.bind_eq_bind, Option.bind_some]
    by_cases hkeep : keeps s (x, v)
    · -- a valid node stays
      rw [if_pos hkeep, List.filter_cons_of_neg (p := fun a => !keeps s a) (by simp [hkeep]),
        List.filter_cons_of_pos hkeep]
      obtain ⟨s', heq, hP⟩ := @ih s k _ x v hrx (by rw [hp, hsplit]) hv' (by rw [List.length_cons] at hf; omega)
      rw [heq]
      refine ⟨s', rfl, ?_, ?_, hP.proc, hP.gone, ?_⟩
      · have hring := hP.ring
        rwa [List.append_assoc] at hring
      · rw [hP.head, List.append_assoc]
        rfl
      · intro a ha
        exact hP.frame a (hsplit ▸ ha)
    -- an invalid one is taken out
    rw [if_neg hkeep, List.filter_cons_of_pos (p := fun a => !keeps s a) (by simp [hkeep]),
      List.filter_cons_of_neg hkeep, addrs_cons]
    rw [setNext_eq hr.process]
    simp only [Option.bind_some]
    generalize hs₂ : SchedRobin.kfreeNode
      { s with node := Function.update s.node p (some ⟨pv, first rem s.processes⟩) } x = s₂
    have hnode : s₂.node = Function.update (Function.update s.node p (some ⟨pv, first rem s.processes⟩)) x none := by
      rw [← hs₂]
      rfl
    have hproc₂ : s₂.proc = s.proc := by
      rw [← hs₂]
      rfl
    have hhead₂ : s₂.processes = s.processes := by
      rw [← hs₂]
      rfl
    have hp₂ : s₂.node p = some ⟨pv, first rem s.processes⟩ := by
      rw [hnode, Function.update_of_ne hxp.symm, Function.update_self]
    have hother (z : ℕ) (hzx : z ≠ x) (hzp : z ≠ p) : s₂.node z = s.node z := by
      rw [hnode, Function.update_of_ne hzx, Function.update_of_ne hzp]
    have hr₂ : Nodes s₂ (d ++ (p, pv) :: rem) := by
      refine Ring.remove_at hr ⟨_, hp₂, ?_⟩ ?_
      · rw [first_append]
        have hlink : first d p = s.processes := by
          rw [hhead, first_append]
          rfl
        rw [hlink]
        rfl
      · intro z hz
        rw [addrs_append, List.mem_append] at hz
        refine hother z ?_ ?_
        · rintro rfl
          rcases hz with hz | hz
          · exact hdis z (.inl hz) z (.inl rfl) rfl
          · exact hxrem hz
        · rintro rfl
          rcases hz with hz | hz
          · exact hdp z hz z rfl rfl
          · exact hdis z (.inr rfl) z (.inr hz) rfl
    have hnext₂ : s₂.nextOf p = some (first rem s₂.processes) := by
      unfold SchedRobin.nextOf
      rw [hp₂, hhead₂]
      rfl
    have hfirst₂ : s₂.processes = first (d ++ (p, pv) :: rem) 0 := by
      rw [hhead₂, hp]
      cases d <;> rfl
    have hv₂ : Readable s₂ rem := by
      intro a ha
      rw [hproc₂]
      exact hv' a ha
    obtain ⟨s', heq, hP⟩ := @ih s₂ k d p pv hr₂ hfirst₂ hv₂ (by rw [List.length_cons] at hf; omega)
    rw [hnext₂]
    simp only [Option.bind_some]
    rw [keeps_congr hproc₂] at heq hP
    rw [heq]
    have hxnot : x ∉ addrs (d ++ (p, pv) :: rem) := by
      simp only [addrs_append, addrs_cons, List.mem_append, List.mem_cons, not_or]
      exact ⟨fun hz => hdis x (.inl hz) x (.inl rfl) rfl, hxp, hxrem⟩
    refine ⟨s', rfl, hP.ring, hP.head, hP.proc.trans hproc₂, ?_, ?_⟩
    · intro a ha
      rcases List.mem_cons.1 ha with rfl | ha
      · rw [hP.frame _ hxnot, hnode, Function.update_self]
      · exact hP.gone a ha
    · intro a ha
      simp only [addrs_append, addrs_cons, List.mem_append, List.mem_cons, not_or] at ha
      obtain ⟨had, hap, hax, harem⟩ := ha
      rw [hP.frame a, hother a hax hap]
      simp only [addrs_append, addrs_cons, List.mem_append, List.mem_cons, not_or]
      exact ⟨had, hap, harem⟩

/-! ### The whole ring -/

/-- The invalid nodes in front do not matter for what stays. -/
theorem filter_dropWhile {α : Type*} (p : α → Bool) (l : List α) :
    (l.dropWhile fun a => !p a).filter p = l.filter p := by
  induction l with
  | nil => rfl
  | cons a l ih =>
    by_cases ha : p a
    · rw [List.dropWhile_cons_of_neg (by simp [ha])]
    · rw [List.dropWhile_cons_of_pos (by simp [ha]), List.filter_cons_of_neg ha, ih]

theorem filter_split {α : Type*} (p : α → Bool) (l : List α) :
    l.takeWhile p ++ (l.dropWhile p).filter p = l.filter p := by
  induction l with
  | nil => rfl
  | cons a l ih =>
    by_cases ha : p a
    · rw [List.takeWhile_cons_of_pos ha, List.dropWhile_cons_of_pos ha, List.filter_cons_of_pos ha,
        List.cons_append, ih]
    · rw [List.takeWhile_cons_of_neg ha, List.dropWhile_cons_of_neg ha, List.nil_append]

theorem Pruned.trans {s₁ s₂ : SchedRobin} {l' l'' : List (ℕ × ℕ)} {freed freed' : List ℕ} (h : Pruned s s₁ l l' freed)
    (h' : Pruned s₁ s₂ l' l'' freed') (hsub : ∀ a ∈ addrs l', a ∈ addrs l) (hnew : ∀ a ∈ freed, a ∉ addrs l') :
    Pruned s s₂ l l'' (freed ++ freed') := by
  refine ⟨h'.ring, h'.head, h'.proc.trans h.proc, ?_, ?_⟩
  · intro a ha
    rcases List.mem_append.1 ha with ha | ha
    · rw [h'.frame a (hnew a ha)]
      exact h.gone a ha
    · exact h'.gone a ha
  · intro a ha
    rw [h'.frame a fun hin => ha (hsub a hin)]
    exact h.frame a ha

theorem schedRobinPruneFreed_ok (fuel : ℕ) (hr : Nodes s l) (hp : s.processes = first l 0) (hv : Readable s l)
    (hf : l.length < fuel) :
    ∃ s', schedRobinPruneFreed fuel s = some (addrs (l.filter fun a => !keeps s a), s') ∧
      Pruned s s' l (l.filter (keeps s)) (addrs (l.filter fun a => !keeps s a)) := by
  obtain ⟨s₁, heq₁, hP₁⟩ := pruneHead_ok hr hp hv hf
  have hkeeps := keeps_congr hP₁.proc
  have hstay := filter_dropWhile (keeps s) l
  have hfreed := filter_split (fun a => !keeps s a) l
  have hcut : l.takeWhile (fun a => !keeps s a) ++ l.dropWhile (fun a => !keeps s a) = l :=
    List.takeWhile_append_dropWhile
  generalize l.takeWhile (fun a => !keeps s a) = gone at heq₁ hP₁ hfreed hcut
  have hstart : ∀ a ∈ (l.dropWhile fun a => !keeps s a).head?, keeps s a := by
    intro a ha
    have hnot := List.head?_dropWhile_not (fun a => !keeps s a) l
    rw [Option.mem_def.1 ha] at hnot
    simpa using hnot
  generalize l.dropWhile (fun a => !keeps s a) = l' at heq₁ hP₁ hfreed hcut hstay hstart
  unfold schedRobinPruneFreed
  rw [heq₁, ← hfreed, ← hstay]
  simp only [Option.bind_eq_bind, Option.bind_some, Option.pure_def]
  cases l' with
  | nil =>
    -- no valid process is left
    rw [if_pos (show s₁.processes = 0 from hP₁.head), List.filter_nil, List.filter_nil, List.append_nil]
    exact ⟨s₁, rfl, hP₁⟩
  | cons a rem =>
    obtain ⟨h, u⟩ := a
    have hhead : s₁.processes = h := hP₁.head
    have h0 : h ≠ 0 := fun h0 => hP₁.ring.ne_nil (by simp [h0])
    have hkeep : keeps s (h, u) = true := hstart _ rfl
    have hnext : s₁.nextOf h = some (first rem h) := hP₁.ring.head.1
    have hv₁ : Readable s₁ rem := by
      intro a ha
      rw [hP₁.proc]
      refine hv a ?_
      rw [← hcut]
      exact List.mem_append_right _ (List.mem_cons_of_mem _ ha)
    have hlen : rem.length < fuel := by
      have hsum := congrArg List.length hcut
      rw [List.length_append, List.length_cons] at hsum
      omega
    obtain ⟨s₂, heq₂, hP₂⟩ := @pruneRest_ok s₁ fuel [] rem h u hP₁.ring hP₁.head hv₁ hlen
    rw [hhead] at heq₂ ⊢
    rw [if_neg h0, hnext]
    simp only [Option.bind_some]
    rw [heq₂, hkeeps, List.filter_cons_of_pos hkeep, List.filter_cons_of_neg (p := fun a => !keeps s a)
      (by simp [hkeep]), addrs_append]
    rw [hkeeps] at hP₂
    have hnd := hr.nodup
    rw [← hcut, addrs_append] at hnd
    refine ⟨s₂, rfl, hP₁.trans hP₂ ?_ ?_⟩
    · intro a ha
      rw [← hcut, addrs_append]
      exact List.mem_append_right _ ha
    · intro a ha hin
      exact (List.nodup_append.1 hnd).2.2 a ha a hin rfl

/-- The state behind pruning is determined by the ring that is left. -/
theorem Pruned.unique {s₁ s₂ : SchedRobin} {l' : List (ℕ × ℕ)} {freed : List ℕ} (h₁ : Pruned s s₁ l l' freed)
    (h₂ : Pruned s s₂ l l' freed) (hall : ∀ a ∈ addrs l, a ∈ addrs l' ∨ a ∈ freed) : s₁ = s₂ := by
  have hnode : s₁.node = s₂.node := by
    funext a
    by_cases ha : a ∈ addrs l
    · rcases hall a ha with hkept | hgone
      · obtain ⟨⟨x, v⟩, hmem, rfl⟩ := List.mem_map.1 hkept
        obtain ⟨l₁, l₂, rfl⟩ := List.append_of_mem hmem
        obtain ⟨n₁, hn₁, hc₁⟩ := h₁.ring.node
        obtain ⟨n₂, hn₂, hc₂⟩ := h₂.ring.node
        obtain ⟨hprocess, hnext⟩ := Prod.mk.inj (hc₁.trans hc₂.symm)
        obtain ⟨process₁, next₁⟩ := n₁
        obtain rfl : process₁ = _ := hprocess
        obtain rfl : next₁ = _ := hnext
        exact hn₁.trans hn₂.symm
      · rw [h₁.gone a hgone, h₂.gone a hgone]
    · rw [h₁.frame a ha, h₂.frame a ha]
  obtain ⟨node₁, proc₁, head₁⟩ := s₁
  obtain ⟨node₂, proc₂, head₂⟩ := s₂
  obtain rfl : node₁ = node₂ := hnode
  obtain rfl : proc₁ = proc₂ := h₁.proc.trans h₂.proc.symm
  obtain rfl : head₁ = head₂ := h₁.head.trans h₂.head.symm
  rfl

/-- Every node is kept or freed. -/
theorem kept_or_freed (p : ℕ × ℕ → Bool) {a : ℕ} (ha : a ∈ addrs l) :
    a ∈ addrs (l.filter p) ∨ a ∈ addrs (l.filter fun b => !p b) := by
  obtain ⟨b, hb, rfl⟩ := List.mem_map.1 ha
  by_cases hp : p b
  · exact .inl (List.mem_map_of_mem (List.mem_filter.2 ⟨hb, hp⟩))
  · exact .inr (List.mem_map_of_mem (List.mem_filter.2 ⟨hb, by simp [hp]⟩))

/-- **Pruning keeps exactly the valid processes.** On any ring `sched_robin_prune` terminates without reading a
node that it freed. It leaves the ring of the nodes whose processes are valid, in their order, headed by the first
one of them, or `NULL`. Each of the other nodes is freed once, and nothing else changes. -/
theorem prune_exact (s : SchedRobin) (l : List (ℕ × ℕ)) (hr : Nodes s l) (hp : s.processes = first l 0)
    (hv : Readable s l) :
    ∃ s' freed, Returns (schedRobinPrune · s) s' ∧ Returns (schedRobinPruneFreed · s) (freed, s') ∧
      Pruned s s' l (l.filter (keeps s)) freed ∧ freed = addrs (l.filter fun a => !keeps s a) ∧ freed.Nodup := by
  obtain ⟨s', -, hP⟩ := schedRobinPruneFreed_ok (l.length + 1) hr hp hv (by omega)
  have hret : ∀ fuel, l.length < fuel →
    schedRobinPruneFreed fuel s = some (addrs (l.filter fun a => !keeps s a), s') := by
    intro fuel hf
    obtain ⟨s₂, heq₂, hP₂⟩ := schedRobinPruneFreed_ok fuel hr hp hv hf
    rw [heq₂, hP₂.unique hP fun a ha => kept_or_freed (keeps s) ha]
  refine ⟨s', _, ⟨l.length, ?_⟩, ⟨l.length, hret⟩, hP, rfl, ?_⟩
  · intro fuel hf
    show schedRobinPrune fuel s = some s'
    rw [← schedRobinPruneFreed_snd, hret fuel hf]
    rfl
  · exact (List.filter_sublist.map Prod.fst).nodup hr.nodup

/-- A ring with an empty node at its head, a valid one and a corrupted one. -/
def mixedRing : SchedRobin :=
  { node := fun a =>
      if a = 0x200 then some ⟨0, 0x210⟩ else if a = 0x210 then some ⟨0x100, 0x220⟩
      else if a = 0x220 then some ⟨0x110, 0x200⟩ else none
    proc := fun p =>
      if p = 0x100 then some ⟨0xC0FEBABE, 7, 1, 0x5000, 0x9000, 0, 0, 0, 0xC0FEBABE⟩
      else if p = 0x110 then some ⟨0xC0FEBABE, 8, 1, 0x6000, 0xA000, 0, 0, 0, 0xDEAD⟩
      else none
    processes := 0x200 }

theorem prune_exact_mixed : ∃ s' freed, Returns (schedRobinPrune · mixedRing) s' ∧ freed = [0x200, 0x220] ∧
    s'.processes = 0x210 ∧ Nodes s' [(0x210, 0x100)] := by
  have hr : Nodes mixedRing [(0x200, 0), (0x210, 0x100), (0x220, 0x110)] :=
    ⟨by decide, by decide, ⟨_, rfl, rfl⟩, ⟨_, rfl, rfl⟩, ⟨_, rfl, rfl⟩, trivial⟩
  obtain ⟨s', freed, hret, -, hP, hfreed, -⟩ := prune_exact mixedRing _ hr rfl (by unfold Readable; decide)
  exact ⟨s', freed, hret, hfreed, hP.head, hP.ring⟩

end Saynaa
