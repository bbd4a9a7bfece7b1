import Saynaa.Proof.Fair
import Saynaa.Sys.Schedule

/-!
# How long a sleep lasts

* `schedule_spec`: one call of the scheduler, with what it does to the sleep counters.
* `sleep_returns_early`: a sleep may end before its time in timer ticks. A process that is
  alone, or all of whose companions sleep, is taken all the same; calls of the scheduler
  that no timer tick made count; and the conversion from milliseconds wraps around.
* `sleep_lasts`: counted in scheduler calls a sleep is as long as asked, unless everybody
  sleeps.
-/

namespace Saynaa

open Lib

/-- Timer ticks and system calls of the running process; processes may be created. -/
inductive KernelStep : Kernel → Kernel → Prop
  | tick (k k') : Returns (timerCallback · k) k' → KernelStep k k'
  | yield (k k') : Returns (syscallYield · k) k' → KernelStep k k'
  | waitpid (k k') (pid : ℕ) : Returns (syscallWaitpid · k pid) k' → KernelStep k k'
  | sleep (k k') (ms : ℕ) : ms < 2 ^ 32 → Returns (procSleep · k ms) k' → KernelStep k k'
  | exit (k k') : Returns (procExit · k) k' → KernelStep k k'
  | add (k s) (p new : ℕ) : procValid k.sched p = some true → ¬ Queued k.sched p → new ≠ 0 →
      k.sched.node new = none → Returns (schedRobinAdd · k.sched p new) s →
      KernelStep k { k with sched := s }
  | record (k) (p : ℕ) (r : Option Process) : ¬ Queued k.sched p →
      KernelStep k { k with sched := { k.sched with proc := Function.update k.sched.proc p r } }

/-- The ring is valid and the running process is in it. -/
def KernelOK (k : Kernel) : Prop := ∃ q, RingIs k.sched q ∧ (k.current ≠ 0 → k.current ∈ q)

/-- Every process in the ring sleeps. -/
def AllAsleep (s : SchedRobin) : Prop := ∀ p, Queued s p → 0 < s.ticks p

variable {k k' : Kernel} {q : List ℕ} {P : ℕ}

/-- The kernel after a scheduler call. -/
theorem schedule_eq (hr : RingIs k.sched q) :
    ∃ s', Returns (procSchedule · k) ⟨s', (elect k.sched.ticks q).1.headD 0, k.tick,
        k.elections ++ [⟨(elect k.sched.ticks q).1.headD 0, k.sched, k.tick⟩]⟩ ∧
      RingIs s' (elect k.sched.ticks q).1 ∧ ∀ p ∈ q, s'.ticks p = (elect k.sched.ticks q).2 p := by
  obtain ⟨s', hnext, hr', hproc⟩ := next_spec hr
  refine ⟨s', ⟨q.length, fun fuel hf => ?_⟩, hr', fun p hp => ?_⟩
  · simp only [procSchedule, hnext fuel hf, Option.bind_eq_bind, Option.bind_some]
    split_ifs with h0 hc
    · rw [h0]; rfl
    · rw [hc]; rfl
    · rfl
  · obtain ⟨-, rec, hrec, -⟩ := proc_of_valid (hr.valid p hp)
    unfold SchedRobin.ticks
    rw [hproc, withTicks_proc hrec]
    rfl

/-- **A scheduler call**: it returns an awake process or meets only sleepers, and counts
every process down by one at most. -/
theorem schedule_spec (hr : RingIs k.sched q) (hret : Returns (procSchedule · k) k') :
    ∃ r q', RingIs k'.sched q' ∧ q'.Perm q ∧ (r ≠ 0 → r ∈ q) ∧ k'.current = r ∧
      k'.elections = k.elections ++ [⟨r, k.sched, k.tick⟩] ∧
      (r ∈ q → k.sched.ticks r = 0 ∨ AllAsleep k.sched) ∧
      ∀ p ∈ q, k.sched.ticks p ≤ k'.sched.ticks p + 1 := by
  obtain ⟨s', hret', hr', hticks⟩ := schedule_eq hr
  obtain rfl := hret.unique hret'
  have hperm := elect_perm k.sched.ticks q
  set r := (elect k.sched.ticks q).1.headD 0 with hrr
  have hhead : r ≠ 0 → ∃ q', (elect k.sched.ticks q).1 = r :: q' := by
    intro h0
    cases he : (elect k.sched.ticks q).1 with
    | nil => rw [he] at hrr; exact absurd hrr h0
    | cons n q' => rw [he] at hrr; exact ⟨q', by rw [hrr]; rfl⟩
  refine ⟨r, _, hr', hperm, ?_, rfl, rfl, ?_, ?_⟩
  · intro h0
    obtain ⟨q', he⟩ := hhead h0
    exact hperm.subset (by rw [he]; exact List.mem_cons_self)
  · intro hm
    have h0 : r ≠ 0 := (proc_of_valid (hr.valid r hm)).1
    obtain ⟨q', he⟩ := hhead h0
    rcases elect_head he with h | h
    · exact .inl h
    · exact .inr fun p hp => h p (hp.mem hr)
  · intro p hp
    show k.sched.ticks p ≤ s'.ticks p + 1
    rw [hticks p hp]
    exact (elect_ticks k.sched.ticks q p).1

theorem ticks_setSleep_of_ne {s : SchedRobin} {c p : ℕ} (hne : p ≠ c) (t : ℕ) :
    (s.setSleep c t).ticks p = s.ticks p := by
  simp [SchedRobin.ticks, SchedRobin.setSleep, hne]

theorem ticks_setSleep {s : SchedRobin} {p : ℕ} (hp : procValid s p = some true) (t : ℕ) :
    (s.setSleep p t).ticks p = t := by
  obtain ⟨-, r, hr, -⟩ := proc_of_valid hp
  simp [SchedRobin.ticks, SchedRobin.setSleep, hr]

theorem RingIs.setSleep {s : SchedRobin} (hr : RingIs s q) (p t : ℕ) : RingIs (s.setSleep p t) q :=
  hr.congr rfl rfl fun k _ => procValid_setSleep p t k

/-- **What an event is**: a change that concerns no process but the running one, and then
a scheduler call or none. -/
theorem kernelStep_cases (hr : RingIs k.sched q) (hcur : k.current ≠ 0 → k.current ∈ q)
    (hs : KernelStep k k') :
    ∃ k₁ q₁, k₁.elections = k.elections ∧ RingIs k₁.sched q₁ ∧
      (∀ p ∈ q, p ≠ k.current → p ∈ q₁ ∧ k₁.sched.ticks p = k.sched.ticks p) ∧
      (Returns (procSchedule · k₁) k' ∨
        k' = k₁ ∧ k₁.current = k.current ∧ (k.current ∈ q → k.current ∈ q₁)) := by
  cases hs with
  | tick _ he => exact ⟨{ k with tick := k.tick + 1 }, q, rfl, hr, fun _ hp _ => ⟨hp, rfl⟩, .inl he⟩
  | yield _ he => exact ⟨k, q, rfl, hr, fun _ hp _ => ⟨hp, rfl⟩, .inl he⟩
  | waitpid _ pid he =>
    refine ⟨k, q, rfl, hr, fun _ hp _ => ⟨hp, rfl⟩, ?_⟩
    obtain ⟨N, hN⟩ := he
    have hex : ∀ fuel, q.length < fuel → schedRobinExists fuel k.sched pid = _ := fun _ hf =>
      exists_spec hr hf pid
    by_cases hb : q.any (k.sched.pid · = pid)
    · -- the awaited process is there, and another one is elected
      refine .inl ⟨N + q.length, fun fuel hf => ?_⟩
      have := hN fuel (by omega)
      simpa [syscallWaitpid, hex fuel (by omega), hb] using this
    · -- it is gone
      refine .inr ⟨?_, rfl, id⟩
      have := hN (N + q.length + 1) (by omega)
      simp only [syscallWaitpid, hex _ (by omega : q.length < N + q.length + 1), hb] at this
      exact (Option.some.inj this).symm
  | sleep _ ms hms he =>
    by_cases h0 : k.current = 0
    · -- nobody runs
      refine ⟨k, q, rfl, hr, fun _ hp _ => ⟨hp, rfl⟩, .inr ⟨?_, rfl, id⟩⟩
      exact he.unique ⟨0, fun fuel _ => by simp [procSleep, h0]⟩
    · -- the current process is put to sleep
      refine ⟨{ k with sched := k.sched.setSleep k.current (sleepTicks ms) }, q, rfl, hr.setSleep _ _,
        fun p hp hne => ⟨hp, ticks_setSleep_of_ne hne _⟩, .inl ?_⟩
      obtain ⟨N, hN⟩ := he
      refine ⟨N, fun fuel hf => ?_⟩
      have := hN fuel hf
      simpa only [procSleep, h0, if_false] using this
  | exit _ he =>
    obtain ⟨N, hN⟩ := he
    have h0 : k.current ≠ 0 := by
      intro h0
      have := hN (N + 1) (by omega)
      simp [procExit, h0] at this
    obtain ⟨s', hret, hr', hproc⟩ := exit_spec hr (hcur h0)
    refine ⟨{ k with sched := s' }, _, rfl, hr', fun p hp hne => ⟨?_, ?_⟩, .inl ⟨N + q.length, ?_⟩⟩
    · rw [(leave_perm (hcur h0)).mem_iff, hr.nodup.mem_erase_iff]
      exact ⟨hne, hp⟩
    · unfold SchedRobin.ticks
      rw [hproc]
    · intro fuel hf
      have := hN fuel (by omega)
      simpa [procExit, h0, hret fuel (by omega)] using this
  | add s p new hv hnq h0 hfree he =>
    obtain ⟨s', hret, hr', hproc⟩ := add_spec hr hv (fun hm => hnq ⟨q, hr, hm⟩) h0 hfree
    obtain rfl := he.unique ⟨_, hret⟩
    have hmem : ∀ c ∈ q, c ∈ enqueue p q := fun c hc => by
      rw [(enqueue_perm p q).mem_iff]
      exact List.mem_cons_of_mem _ hc
    refine ⟨{ k with sched := s }, _, rfl, hr', fun c hc _ => ⟨hmem c hc, ?_⟩, .inr ⟨rfl, rfl, hmem _⟩⟩
    unfold SchedRobin.ticks
    rw [hproc]
  | record p r hnq =>
    have hne : ∀ c ∈ q, c ≠ p := fun c hc hh => hnq (hh ▸ ⟨q, hr, hc⟩)
    refine ⟨{ k with sched := { k.sched with proc := Function.update k.sched.proc p r } }, q, rfl,
      hr.congr rfl rfl fun c hc => ?_, fun c hc _ => ⟨hc, ?_⟩, .inr ⟨rfl, rfl, id⟩⟩
    · simp [procValid, hne c hc]
    · simp [SchedRobin.ticks, hne c hc]

/-- **The running process stays in the ring.** -/
theorem kernelOK_step (hk : KernelOK k) (hs : KernelStep k k') : KernelOK k' := by
  obtain ⟨q, hr, hcur⟩ := hk
  obtain ⟨k₁, q₁, -, hr₁, -, hcall | ⟨rfl, hc, hmem⟩⟩ := kernelStep_cases hr hcur hs
  · obtain ⟨r, q', hr', hperm, hrq, hcr, -⟩ := schedule_spec hr₁ hcall
    exact ⟨q', hr', fun h0 => hperm.symm.subset (hcr ▸ hrq (hcr ▸ h0))⟩
  · exact ⟨q₁, hr₁, fun h0 => hc ▸ hmem (hcur (hc ▸ h0))⟩

/-! ### Sleeping -/

/-- In the elections `since`, the first return of `P` comes after `T` others, or when
everybody sleeps. -/
def NotEarly (P T : ℕ) (since : List Election) : Prop :=
  ∀ mid el post, since = mid ++ el :: post → el.process = P → (∀ e ∈ mid, e.process ≠ P) →
    T ≤ mid.length ∨ AllAsleep el.sched

/-- A process that has not been returned yet has enough of its counter left. -/
def Waiting (P T : ℕ) (since : List Election) (s : SchedRobin) (q : List ℕ) : Prop :=
  (∃ e ∈ since, e.process = P) ∨ P ∈ q ∧ T ≤ s.ticks P + since.length

theorem NotEarly.snoc {P T : ℕ} {since : List Election} {e : Election} (hn : NotEarly P T since)
    (he : e.process = P → (∃ e ∈ since, e.process = P) ∨ T ≤ since.length ∨ AllAsleep e.sched) :
    NotEarly P T (since ++ [e]) := by
  intro mid el post hsplit hP hmid
  rcases List.eq_nil_or_concat post with rfl | ⟨post, e', rfl⟩
  · obtain ⟨rfl, hee⟩ := List.append_inj' hsplit rfl
    obtain rfl := (List.cons.inj hee).1
    rcases he hP with ⟨e', he', hp'⟩ | h
    · exact absurd hp' (hmid e' he')
    · exact h
  · rw [List.concat_eq_append, ← List.cons_append, ← List.append_assoc] at hsplit
    exact hn mid el post (List.append_inj' hsplit rfl).1 hP hmid

/-- What holds since `P` fell asleep in kernel `k₀`. -/
structure SleepOK (k₀ : Kernel) (P T : ℕ) (k : Kernel) (since : List Election) (q : List ℕ) : Prop where
  elections : k.elections = k₀.elections ++ since
  ring : RingIs k.sched q
  notEarly : NotEarly P T since
  waiting : Waiting P T since k.sched q

/-- **A scheduler call** while `P` sleeps. -/
theorem SleepOK.call {k₀ : Kernel} {T : ℕ} {since : List Election} (h : SleepOK k₀ P T k since q)
    (hcall : Returns (procSchedule · k) k') :
    ∃ since' q', SleepOK k₀ P T k' since' q' ∧ (k'.current ≠ 0 → k'.current ∈ q') ∧
      ((∃ e ∈ since', e.process = P) ∨ k'.current ≠ P) := by
  obtain ⟨r, q', hr', hperm, hrq, hcr, hel, hawake, hticks⟩ := schedule_spec h.ring hcall
  refine ⟨since ++ [⟨r, k.sched, k.tick⟩], q', ⟨?_, hr', ?_, ?_⟩, ?_, ?_⟩
  · rw [hel, h.elections, List.append_assoc]
  · refine h.notEarly.snoc fun hP => ?_
    obtain rfl : r = P := hP
    rcases h.waiting with hret | ⟨hm, hT⟩
    · exact .inl hret
    · right
      rcases hawake hm with h0 | hall
      · left; omega
      · exact .inr hall
  · rcases h.waiting with ⟨e, he, hP⟩ | ⟨hm, hT⟩
    · exact .inl ⟨e, List.mem_append_left _ he, hP⟩
    · right
      have := hticks P hm
      refine ⟨hperm.symm.subset hm, ?_⟩
      rw [List.length_append, List.length_singleton]
      omega
  · rw [hcr]
    exact fun h0 => hperm.symm.subset (hrq h0)
  · by_cases hP : r = P
    · exact .inl ⟨_, List.mem_append_right _ (List.mem_singleton_self _), hP⟩
    · exact .inr (hcr ▸ hP)

/-- **One event** while `P` sleeps. -/
theorem sleepOK_step {k₀ : Kernel} {T : ℕ} {since : List Election} (h : SleepOK k₀ P T k since q)
    (hcur : k.current ≠ 0 → k.current ∈ q) (hne : (∃ e ∈ since, e.process = P) ∨ k.current ≠ P)
    (hs : KernelStep k k') :
    ∃ since' q', SleepOK k₀ P T k' since' q' ∧ (k'.current ≠ 0 → k'.current ∈ q') ∧
      ((∃ e ∈ since', e.process = P) ∨ k'.current ≠ P) := by
  obtain ⟨k₁, q₁, hel, hr₁, hkeep, hout⟩ := kernelStep_cases h.ring hcur hs
  have h₁ : SleepOK k₀ P T k₁ since q₁ := by
    refine ⟨hel.trans h.elections, hr₁, h.notEarly, ?_⟩
    rcases h.waiting with hret | ⟨hm, hT⟩
    · exact .inl hret
    · rcases hne with hret | hne
      · exact .inl hret
      · obtain ⟨hm', ht⟩ := hkeep P hm hne.symm
        exact .inr ⟨hm', by rw [ht]; exact hT⟩
  rcases hout with hcall | ⟨rfl, hc, hmem⟩
  · exact h₁.call hcall
  · exact ⟨since, q₁, h₁, fun h0 => hc ▸ hmem (hcur (hc ▸ h0)), by rwa [hc]⟩

/-- `ceil(ms * TIMER_FREQ / 1000)`. -/
def askedTicks (ms : ℕ) : ℕ := (ms * timerFreq + 999) / 1000

theorem sleepTicks_eq {ms : ℕ} (h : ms * timerFreq + 999 < 2 ^ 32) : sleepTicks ms = askedTicks ms := by
  unfold sleepTicks askedTicks add32
  unfold timerFreq at h ⊢
  rw [Nat.mod_eq_of_lt (by omega : ms * 100 < 2 ^ 32), Nat.mod_eq_of_lt h]
  simp only
  split_ifs <;> omega

/-- The running process calls `proc_sleep(ms)` and is returned again by call `el`, before
`ceil(ms * TIMER_FREQ / 1000)` timer ticks have happened. -/
def ReturnsEarly (k : Kernel) (ms : ℕ) (el : Election) : Prop :=
  KernelOK k ∧ k.current ≠ 0 ∧ ∃ k₁ k₂ mid post, Returns (procSleep · k ms) k₁ ∧
    Relation.ReflTransGen KernelStep k₁ k₂ ∧ k₂.elections = k.elections ++ (mid ++ el :: post) ∧
    el.process = k.current ∧ (∀ e ∈ mid, e.process ≠ k.current) ∧ el.tick - k.tick < askedTicks ms

/-- A process that is alone. -/
def lonely : Kernel :=
  ⟨{ twoRing with node := fun a => if a = 0x200 then some ⟨0x100, 0x200⟩ else none }, 0x100, 0, []⟩

theorem lonely_ringIs : RingIs lonely.sched [0x100] := by
  refine ⟨⟨[(0x200, 0x100)], ⟨by decide, by decide, ⟨_, rfl, rfl⟩, trivial⟩, rfl, rfl⟩, by decide, ?_⟩
  intro p hp
  rw [List.mem_singleton.1 hp]
  decide

/-- Two processes, and `0x100` is running. -/
def couple : Kernel := ⟨twoRing, 0x100, 0, []⟩

/-- `0x100` sleeps for 10 ms, which is one tick. Its companion yields twice, which counts
it down and then elects it, and no timer tick happens. -/
theorem couple_nap : ∃ k₁ k₂ mid el, Returns (procSleep · couple 10) k₁ ∧
    Relation.ReflTransGen KernelStep k₁ k₂ ∧ k₂.elections = [] ++ (mid ++ el :: []) ∧
      el.process = 0x100 ∧ (∀ e ∈ mid, e.process ≠ 0x100) ∧ el.tick = 0 ∧ ¬ AllAsleep el.sched := by
  have hr₀ := twoRing_ringIs.setSleep 0x100 1
  obtain ⟨s₁, h₁, hr₁, ht₁⟩ := schedule_eq (k := ⟨twoRing.setSleep 0x100 1, 0x100, 0, []⟩) hr₀
  have he₁ : elect (twoRing.setSleep 0x100 1).ticks [0x100, 0x300] =
      ([0x300, 0x100], countDown [] (twoRing.setSleep 0x100 1).ticks) := elect_awake [] (by simp) rfl
  simp only [he₁] at h₁ hr₁ ht₁
  have hb₁ : s₁.ticks 0x300 = 0 := ht₁ 0x300 (by simp)
  have ha₁ : s₁.ticks 0x100 = 1 := ht₁ 0x100 (by simp)
  obtain ⟨s₂, h₂, hr₂, ht₂⟩ := schedule_eq (k := ⟨s₁, 0x300, 0, [⟨0x300, twoRing.setSleep 0x100 1, 0⟩]⟩) hr₁
  have he₂ : elect s₁.ticks [0x300, 0x100] = ([0x300, 0x100], countDown [0x100] s₁.ticks) := by
    rw [elect_asleep (by simp [ha₁]), if_pos hb₁]
  simp only [he₂] at h₂ hr₂ ht₂
  have hb₂ : s₂.ticks 0x300 = 0 := by
    rw [ht₂ 0x300 (by simp)]
    simp [countDown, hb₁]
  have ha₂ : s₂.ticks 0x100 = 0 := by
    rw [ht₂ 0x100 (by simp)]
    simp [countDown, ha₁]
  obtain ⟨s₃, h₃, -⟩ := schedule_eq (k := ⟨s₂, 0x300, 0,
    [⟨0x300, twoRing.setSleep 0x100 1, 0⟩, ⟨0x300, s₁, 0⟩]⟩) hr₂
  have he₃ : elect s₂.ticks [0x300, 0x100] = ([0x100, 0x300], countDown [] s₂.ticks) :=
    elect_awake [] (by simp) ha₂
  simp only [he₃] at h₃
  have hsleep : Returns (procSleep · couple 10) _ := h₁
  refine ⟨_, _, [⟨0x300, twoRing.setSleep 0x100 1, 0⟩, ⟨0x300, s₁, 0⟩], ⟨0x100, s₂, 0⟩, hsleep,
    (Relation.ReflTransGen.single (.yield _ _ h₂)).tail (.yield _ _ h₃), rfl, rfl, by simp, rfl, ?_⟩
  intro hall
  have := hall 0x300 ⟨_, hr₂, by simp⟩
  exact absurd hb₂ this.ne'

/-- **A sleep may end before its time in timer ticks**: at once when nobody else is awake;
without a timer tick when another process yields, though that one is awake; and the
conversion of 42949673 ms gives one tick. -/
theorem sleep_returns_early : (∃ el, ReturnsEarly lonely 1000 el) ∧
    (∃ el, ReturnsEarly couple 10 el ∧ ¬ AllAsleep el.sched) ∧
      sleepTicks 42949673 = 1 ∧ askedTicks 42949673 = 4294968 := by
  refine ⟨?_, ?_, by decide, by decide⟩
  · have hr := lonely_ringIs.setSleep 0x100 100
    obtain ⟨s', hret, -⟩ := schedule_eq (k := ⟨lonely.sched.setSleep 0x100 100, 0x100, 0, []⟩) hr
    have he : elect (lonely.sched.setSleep 0x100 100).ticks [0x100] =
        ([0x100], countDown [0x100] (lonely.sched.setSleep 0x100 100).ticks) := by
      rw [elect_asleep (by simp), if_neg (by decide)]
      rfl
    simp only [he] at hret
    have hsleep : Returns (procSleep · lonely 1000) _ := hret
    exact ⟨_, ⟨_, lonely_ringIs, fun _ => by decide⟩, by decide, _, _, [], [], hsleep, .refl, rfl, rfl,
      fun _ he => absurd he List.not_mem_nil, by decide⟩
  · obtain ⟨k₁, k₂, mid, el, h1, h2, h3, h4, h5, h6, h7⟩ := couple_nap
    exact ⟨el, ⟨⟨_, twoRing_ringIs, fun _ => by decide⟩, by decide, k₁, k₂, mid, [], h1, h2, h3, h4, h5,
      by rw [h6]; decide⟩, h7⟩

/-- **A sleep lasts as long as asked, counted in scheduler calls.** Let the running process
`P` call `proc_sleep(ms)`, where the conversion does not wrap around. In every run from
there, at least `ceil(ms * TIMER_FREQ / 1000)` calls of `sched_robin_next` come before the
first one that returns `P`, the one of `proc_sleep` included, unless every process in the
ring sleeps at that call. -/
theorem sleep_lasts {kb k k₁ k₂ : Kernel} (hb : KernelOK kb) (hrun : Relation.ReflTransGen KernelStep kb k)
    (hP : k.current ≠ 0) {ms : ℕ} (hms : ms * timerFreq + 999 < 2 ^ 32)
    (hsleep : Returns (procSleep · k ms) k₁) (hrun₂ : Relation.ReflTransGen KernelStep k₁ k₂) :
    ∀ mid el post, k₂.elections = k.elections ++ (mid ++ el :: post) → el.process = k.current →
      (∀ e ∈ mid, e.process ≠ k.current) → askedTicks ms ≤ mid.length ∨ AllAsleep el.sched := by
  obtain ⟨q, hr, hcur⟩ := Lib.run_inv (I := KernelOK) (fun _ _ => kernelOK_step) hb hrun
  set P := k.current with hPdef
  have hm : P ∈ q := hcur hP
  -- the counter is set, and the first scheduler call is the one of `proc_sleep`
  have h₀ : SleepOK k P (askedTicks ms) { k with sched := k.sched.setSleep P (sleepTicks ms) } [] q := by
    refine ⟨(List.append_nil _).symm, hr.setSleep _ _, ?_, .inr ⟨hm, ?_⟩⟩
    · intro mid el post hsplit
      exact absurd hsplit.symm (by simp)
    · rw [ticks_setSleep (hr.valid P hm), sleepTicks_eq hms]
      exact Nat.le_add_right _ _
  have hcall : Returns (procSchedule · { k with sched := k.sched.setSleep P (sleepTicks ms) }) k₁ := by
    obtain ⟨N, hN⟩ := hsleep
    refine ⟨N, fun fuel hf => ?_⟩
    have := hN fuel hf
    simpa only [procSleep, ← hPdef, hP, if_false] using this
  have hinv : ∀ x y : Kernel, (∃ since q, SleepOK k P (askedTicks ms) x since q ∧
      (x.current ≠ 0 → x.current ∈ q) ∧ ((∃ e ∈ since, e.process = P) ∨ x.current ≠ P)) →
      KernelStep x y → ∃ since q, SleepOK k P (askedTicks ms) y since q ∧
      (y.current ≠ 0 → y.current ∈ q) ∧ ((∃ e ∈ since, e.process = P) ∨ y.current ≠ P) := by
    rintro x y ⟨since, q, h, hc, hne⟩ hs
    exact sleepOK_step h hc hne hs
  obtain ⟨since, q₂, h₂, -⟩ := Lib.run_inv hinv (h₀.call hcall) hrun₂
  intro mid el post hel
  rw [h₂.elections] at hel
  exact h₂.notEarly mid el post (List.append_cancel_left hel)

/-- In the run of `couple_nap` one other call comes first. -/
theorem sleep_lasts_couple : ∃ (k₂ : Kernel) (mid : List Election) (el : Election), k₂.elections =
    couple.elections ++ (mid ++ el :: []) ∧ el.process = 0x100 ∧ (1 ≤ mid.length ∨ AllAsleep el.sched) := by
  obtain ⟨k₁, k₂, mid, el, h1, h2, h3, h4, h5, -, -⟩ := couple_nap
  exact ⟨k₂, mid, el, h3, h4, sleep_lasts ⟨_, twoRing_ringIs, fun _ => by decide⟩ .refl (by decide) (by decide)
    h1 h2 mid el [] h3 h4 h5⟩

end Saynaa
