import Saynaa.Proof.Sched

/-!
# No overtaking

In a run of the scheduler, `s k` is the state before event `k`.

* `RunEvent.Step`: elections, additions, exits of the running process, and the running
  process setting its own sleep counter.
* `ahead_step`: an event that does not elect `Q` keeps `Q` ahead of `P` and does not elect
  `P` either.
* `no_overtaking`: between two elections of `P` every process that is awake is elected.
-/

namespace Saynaa

open Lib

/-- An event of a run; `next` carries the process that was elected. -/
inductive RunEvent where
  | next (elected : ℕ)
  | add (p new : ℕ)
  | exit
  | sleep (ticks : ℕ)

/-- The current process, as `sched_robin_get_current` returns it. -/
def IsCurrent (s : SchedRobin) (c : ℕ) : Prop := Returns (schedRobinGetCurrent · s) (c, s) ∧ c ≠ 0

/-- What an event does. -/
def RunEvent.Step (s s' : SchedRobin) : RunEvent → Prop
  | next r => Returns (schedRobinNext · s) (r, s')
  | add p new => procValid s p = some true ∧ new ≠ 0 ∧ s.node new = none ∧
      Returns (schedRobinAdd · s p new) s'
  | exit => ∃ c, IsCurrent s c ∧ Returns (schedRobinExit · s c) s'
  | sleep t => ∃ c, IsCurrent s c ∧ s' = s.setSleep c t

/-- Process `p` is in the ring. -/
def Queued (s : SchedRobin) (p : ℕ) : Prop := ∃ q, RingIs s q ∧ p ∈ q

variable {s s' : SchedRobin} {q : List ℕ} {P Q : ℕ}

/-- A ring carries one queue only. -/
theorem RingIs.unique {q' : List ℕ} (h : RingIs s q) (h' : RingIs s q') : q = q' := by
  obtain ⟨l, hl, hp, rfl⟩ := h.ring
  obtain ⟨l', hl', hp', rfl⟩ := h'.ring
  rw [Ring.unique hl hl' (hp.symm.trans hp')]

theorem Queued.mem (hQ : Queued s Q) (hr : RingIs s q) : Q ∈ q := by
  obtain ⟨q', hr', hm⟩ := hQ
  rwa [hr.unique hr']

theorem IsCurrent.head {c : ℕ} (hc : IsCurrent s c) (hr : RingIs s q) : ∃ rest, q = c :: rest := by
  obtain ⟨hret, h0⟩ := hc
  have hc := (Prod.mk.inj (hret.unique ⟨_, fun _ => getCurrent_spec hr⟩)).1
  cases q with
  | nil => exact absurd hc h0
  | cons h rest => exact ⟨rest, by rw [hc]; rfl⟩

/-- Every event keeps a valid ring, as long as only new processes are added. -/
theorem ringIs_event {e : RunEvent} (hr : RingIs s q) (hs : e.Step s s')
    (hnew : ∀ p new, e = .add p new → ¬ Queued s p) : ∃ q', RingIs s' q' := by
  cases e with
  | next r =>
    obtain ⟨s₁, hret, hr', -⟩ := next_spec hr
    obtain ⟨-, rfl⟩ := Prod.mk.inj (Returns.unique hs ⟨_, hret⟩)
    exact ⟨_, hr'⟩
  | add p new =>
    obtain ⟨hv, h0, hfree, hret'⟩ := hs
    obtain ⟨s₁, hret, hr', -⟩ := add_spec hr hv (fun hm => hnew p new rfl ⟨q, hr, hm⟩) h0 hfree
    obtain rfl := hret'.unique ⟨_, hret⟩
    exact ⟨_, hr'⟩
  | exit =>
    obtain ⟨c, hc, hret'⟩ := hs
    obtain ⟨rest, rfl⟩ := hc.head hr
    obtain ⟨s₁, hret, hr', -⟩ := exit_spec hr List.mem_cons_self
    obtain rfl := hret'.unique ⟨_, hret⟩
    exact ⟨_, hr'⟩
  | sleep t =>
    obtain ⟨c, -, rfl⟩ := hs
    exact ⟨q, hr.congr rfl rfl fun k _ => procValid_setSleep c t k⟩

/-- `Q` runs before `P` does again. -/
def AheadIn (s : SchedRobin) (Q P : ℕ) : Prop := ∃ q, RingIs s q ∧ Ahead Q P q

/-- **One event** after an election of `P`: it elects `Q`, or it does not elect `P` and
leaves `Q` ahead. -/
theorem ahead_step {e : RunEvent} (ha : AheadIn s Q P) (hQ : Queued s Q) (ht : s.ticks Q = 0)
    (hne : Q ≠ P) (hs : e.Step s s') (hnew : ∀ p new, e = .add p new → ¬ Queued s p ∧ p ≠ P) :
    e = .next Q ∨ e ≠ .next P ∧ AheadIn s' Q P := by
  obtain ⟨q, hr, ha⟩ := ha
  have hm := hQ.mem hr
  cases e with
  | next r =>
    obtain ⟨s₁, hret, hr', -⟩ := next_spec hr
    obtain ⟨hrr, rfl⟩ := Prod.mk.inj (Returns.unique hs ⟨_, hret⟩)
    obtain ⟨n, q', he⟩ := List.exists_cons_of_ne_nil (l := (elect s.ticks q).1) (by
      intro h0
      have := (elect_perm s.ticks q).mem_iff.2 hm
      rw [h0] at this
      exact absurd this List.not_mem_nil)
    rw [he] at hrr hr'
    obtain rfl : r = n := hrr
    rcases ahead_elect hr.nodup hm hne ht ha he with rfl | ⟨hnP, ha'⟩
    · -- `Q` runs
      exact .inl rfl
    · -- another one runs, and `P` is still behind `Q`
      exact .inr ⟨fun hh => hnP (RunEvent.next.inj hh), _, hr', ha'⟩
  | add p new =>
    obtain ⟨hv, h0, hfree, hret'⟩ := hs
    obtain ⟨hnq, hnP⟩ := hnew p new rfl
    obtain ⟨s₁, hret, hr', -⟩ := add_spec hr hv (fun hm => hnq ⟨q, hr, hm⟩) h0 hfree
    obtain rfl := hret'.unique ⟨_, hret⟩
    exact .inr ⟨nofun, _, hr', ahead_enqueue hm ha hnP⟩
  | exit =>
    obtain ⟨c, hc, hret'⟩ := hs
    obtain ⟨rest, rfl⟩ := hc.head hr
    obtain ⟨s₁, hret, hr', -⟩ := exit_spec hr List.mem_cons_self
    obtain rfl := hret'.unique ⟨_, hret⟩
    exact .inr ⟨nofun, _, hr', ahead_leave hr.nodup ha⟩
  | sleep t =>
    obtain ⟨c, -, rfl⟩ := hs
    exact .inr ⟨nofun, q, hr.congr rfl rfl fun k _ => procValid_setSleep c t k, ha⟩

/-- An election of `P` leaves `P` at the head. -/
theorem ahead_of_elected (hr : RingIs s q) (hs : (RunEvent.next P).Step s s') (hQ : Queued s' Q) :
    AheadIn s' Q P ∧ Queued s' P := by
  obtain ⟨s₁, hret, hr', -⟩ := next_spec hr
  obtain ⟨hP, rfl⟩ := Prod.mk.inj (Returns.unique hs ⟨_, hret⟩)
  cases he : (elect s.ticks q).1 with
  | nil =>
    rw [he] at hr'
    exact absurd (hQ.mem hr') List.not_mem_nil
  | cons n q' =>
    rw [he] at hP hr'
    obtain rfl : P = n := hP
    exact ⟨⟨_, hr', .inr (.inl ⟨q', rfl⟩)⟩, _, hr', List.mem_cons_self⟩

/-- **No overtaking.** In a run of `n` events from a valid ring, in which every added
process is new, let `P` be elected by event `i` and again by event `j`. A process `Q ≠ P`
that is in the ring and awake all the time in between is elected in between. -/
theorem no_overtaking {s : ℕ → SchedRobin} {e : ℕ → RunEvent} {n : ℕ} (h₀ : ∃ q, RingIs (s 0) q)
    (hstep : ∀ k < n, (e k).Step (s k) (s (k + 1)))
    (hnew : ∀ k < n, ∀ p new, e k = .add p new → ∀ m ≤ k, ¬ Queued (s m) p)
    {i j : ℕ} (hij : i < j) (hjn : j < n) (hi : e i = .next P) (hj : e j = .next P) (hne : Q ≠ P)
    (hQ : ∀ k, i < k → k ≤ j → Queued (s k) Q ∧ (s k).ticks Q = 0) :
    ∃ k, i < k ∧ k < j ∧ e k = .next Q := by
  have hring : ∀ k, k ≤ n → ∃ q, RingIs (s k) q := by
    intro k
    induction k with
    | zero => exact fun _ => h₀
    | succ k ih =>
      intro hk
      obtain ⟨q, hq⟩ := ih (by omega)
      exact ringIs_event hq (hstep k (by omega)) fun p new he => hnew k (by omega) p new he k le_rfl
  obtain ⟨q, hq⟩ := hring i (by omega)
  obtain ⟨hstart, hP⟩ := ahead_of_elected hq (hi ▸ hstep i (by omega)) (hQ (i + 1) (by omega) (by omega)).1
  have hadd : ∀ k, i < k → k < n → ∀ p new, e k = .add p new → ¬ Queued (s k) p ∧ p ≠ P := by
    intro k hik hk p new he
    refine ⟨hnew k hk p new he k le_rfl, ?_⟩
    rintro rfl
    exact hnew k hk p new he (i + 1) (by omega) hP
  -- the run up to event `k`: `Q` was elected, or is still ahead
  have hrun : ∀ d, i + 1 + d ≤ j →
      (∃ k, i < k ∧ k < i + 1 + d ∧ e k = .next Q) ∨ AheadIn (s (i + 1 + d)) Q P := by
    intro d
    induction d with
    | zero => exact fun _ => .inr hstart
    | succ d ih =>
      intro hd
      rcases ih (by omega) with ⟨k, h1, h2, h3⟩ | ha
      · exact .inl ⟨k, h1, by omega, h3⟩
      · obtain ⟨hq, ht⟩ := hQ (i + 1 + d) (by omega) (by omega)
        rcases ahead_step ha hq ht hne (hstep _ (by omega)) (hadd _ (by omega) (by omega)) with he | ⟨-, ha'⟩
        · exact .inl ⟨i + 1 + d, by omega, by omega, he⟩
        · exact .inr ha'
  have hdj : i + 1 + (j - i - 1) = j := by omega
  have hlast := hrun (j - i - 1) (by omega)
  rw [hdj] at hlast
  rcases hlast with h | ha
  · exact h
  · obtain ⟨hq, ht⟩ := hQ j hij le_rfl
    rcases ahead_step ha hq ht hne (hstep j hjn) (hadd j hij hjn) with he | ⟨he, -⟩
    · rw [hj] at he
      exact absurd (RunEvent.next.inj he).symm hne
    · exact absurd hj he

/-- Two processes that are awake take turns. -/
theorem take_turns {a b : ℕ} (hr : RingIs s [a, b]) (ha : s.ticks a = 0) (hb : s.ticks b = 0) :
    ∃ s', (RunEvent.next b).Step s s' ∧ RingIs s' [b, a] ∧ s'.ticks b = 0 ∧ s'.ticks a = 0 := by
  obtain ⟨s', hret, hr', hp⟩ := next_spec hr
  have he : elect s.ticks [a, b] = ([b, a], countDown [] s.ticks) := elect_awake [] (by simp) hb
  rw [he] at hret hr' hp
  have ht : ∀ p ∈ [a, b], s.ticks p = 0 → s'.ticks p = 0 := by
    intro p hm h0
    obtain ⟨-, r, hrp, -⟩ := proc_of_valid (hr.valid p hm)
    have hc := counted_proc hrp (List.not_mem_nil (a := p))
    unfold SchedRobin.ticks at h0 ⊢
    rw [hp, hc, ← hrp]
    exact h0
  exact ⟨s', ⟨_, hret⟩, hr', ht b (by simp) hb, ht a (by simp) ha⟩

/-- A ring of two processes that are awake. -/
def twoRing : SchedRobin :=
  { node := fun a => if a = 0x200 then some ⟨0x100, 0x400⟩ else if a = 0x400 then some ⟨0x300, 0x200⟩ else none
    proc := fun p => if p = 0x100 ∨ p = 0x300 then
      some ⟨0xC0FEBABE, p, 1, 0x5000, 0x9000, 0, 0, 0, 0xC0FEBABE⟩ else none
    processes := 0x200 }

theorem twoRing_ringIs : RingIs twoRing [0x100, 0x300] := by
  refine ⟨⟨[(0x200, 0x100), (0x400, 0x300)], ⟨by decide, by decide, ?_⟩, rfl, rfl⟩, by decide, ?_⟩
  · exact ⟨⟨_, rfl, rfl⟩, ⟨_, rfl, rfl⟩, trivial⟩
  · intro p hp
    simp only [List.mem_cons, List.not_mem_nil, or_false] at hp
    rcases hp with rfl | rfl <;> decide

/-- From `twoRing`, four elections take `0x300`, `0x100`, `0x300` and `0x100`. -/
theorem no_overtaking_twoRing : ∃ (s : ℕ → SchedRobin) (e : ℕ → RunEvent), s 0 = twoRing ∧
    (∀ k < 4, (e k).Step (s k) (s (k + 1))) ∧ e 1 = .next 0x100 ∧ e 3 = .next 0x100 ∧
      ∃ k, 1 < k ∧ k < 3 ∧ e k = .next 0x300 := by
  obtain ⟨s₁, h₁, hr₁, ht₁, ht₁'⟩ := take_turns twoRing_ringIs rfl rfl
  obtain ⟨s₂, h₂, hr₂, ht₂, ht₂'⟩ := take_turns hr₁ ht₁ ht₁'
  obtain ⟨s₃, h₃, hr₃, ht₃, ht₃'⟩ := take_turns hr₂ ht₂ ht₂'
  obtain ⟨s₄, h₄, -⟩ := take_turns hr₃ ht₃ ht₃'
  set s : ℕ → SchedRobin := fun k => match k with
    | 0 => twoRing | 1 => s₁ | 2 => s₂ | 3 => s₃ | _ => s₄ with hs
  set e : ℕ → RunEvent := fun k => if k % 2 = 0 then .next 0x300 else .next 0x100 with he
  have hstep : ∀ k < 4, (e k).Step (s k) (s (k + 1)) := by
    intro k hk
    obtain rfl | rfl | rfl | rfl : k = 0 ∨ k = 1 ∨ k = 2 ∨ k = 3 := by omega
    · exact h₁
    · exact h₂
    · exact h₃
    · exact h₄
  refine ⟨s, e, rfl, hstep, rfl, rfl, ?_⟩
  refine no_overtaking (n := 4) ⟨_, twoRing_ringIs⟩ hstep ?_ (by decide) (by decide) rfl rfl
    (by decide : 0x300 ≠ 0x100) ?_
  · intro k _ p new hk
    rw [he] at hk
    simp only at hk
    split_ifs at hk
  · intro k h1 h2
    obtain rfl | rfl : k = 2 ∨ k = 3 := by omega
    · exact ⟨⟨_, hr₂, by simp⟩, ht₂'⟩
    · exact ⟨⟨_, hr₃, by simp⟩, ht₃⟩

end Saynaa
