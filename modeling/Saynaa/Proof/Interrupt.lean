import Saynaa.Sys.Interrupt
import Saynaa.Proof.Sleep
import Saynaa.Lib.Loop

/-!
# Who acknowledges the timer interrupt

A handler that is switched away from is acknowledged by whoever runs next: a process that
is resumed in a handler writes the EOI when that handler returns. A process that runs for
the first time returns into `irq_handler_end`, behind the EOI.

* `switch_cases`, `step_moves`: what an election and an action can do.
* `PicFits`: what is in service, by the code that runs.
* `timer_acknowledged`: user mode is free of the timer interrupt in exactly the runs in
  which no process runs for the first time while it is in service.
* `first_tick`: after the first `exec` the next tick breaks this.
-/

namespace Saynaa

open Lib

variable {F : Type} {c c' : Cpu F} {a : CpuAct F} {fuel : ℕ}

/-- The steps of a system call that call the scheduler. -/
def CpuAct.Calls : CpuAct F → Prop
  | .yield | .sleep _ | .waitpid _ | .exit => True
  | _ => False

namespace Cpu

/-- The election that led to `k` elects a process other than the one that runs. -/
def Elects (c : Cpu F) (k : Kernel) : Prop := k.current ≠ 0 ∧ k.current ≠ c.kernel.current

theorem switch_cases {n : ℕ} {k : Kernel} (h : c.switch n k = some c') :
    (¬ c.Elects k ∧ c' = { c with kernel := k, mode := .handler n }) ∨
    (c.Elects k ∧ c.kernel.current ≠ 0 ∧ c'.kernel = k ∧ c'.pic = c.pic ∧ c'.fpu = c.fpu ∧
      c'.stack = Function.update c.stack c.kernel.current (.handler n) ∧ c'.mode = (c.stack k.current).mode) := by
  unfold switch at h
  simp only at h
  split_ifs at h with hstay hnull
  · refine .inl ⟨?_, (Option.some.inj h).symm⟩
    rintro ⟨h0, hne⟩
    exact hstay.elim h0 hne
  · have hel : c.Elects k := ⟨fun h0 => hstay (.inl h0), fun he => hstay (.inr he)⟩
    refine .inr ⟨hel, hnull, ?_⟩
    obtain rfl := Option.some.inj h
    refine ⟨rfl, rfl, rfl, rfl, ?_⟩
    unfold procSwitchProcess
    simp only [Function.update_of_ne hel.2]
    rfl

/-- What an action does to the processor. -/
inductive Moves (fuel : ℕ) (c : Cpu F) : CpuAct F → Cpu F → Prop where
  | irq (n : ℕ) (k : Kernel) (d : Cpu F) : c.mode = .user → n < 16 → c.pic.inService n = false →
      (CpuAct.irq n : CpuAct F).schedule fuel c.kernel = some k →
      { c with pic := c.pic.deliver n }.switch (32 + n) k = some d → Moves fuel c (.irq n) d
  | syscall : c.mode = .user → Moves fuel c .syscall { c with mode := .handler 48 }
  | exec (p new : ℕ) (r : Process) (d : Cpu F) : c.mode = .handler 48 → p ≠ 0 → d.mode = c.mode →
      d.pic = c.pic → d.fpu = c.fpu → d.kernel.current = c.kernel.current →
      d.stack = Function.update c.stack p .irqHandlerEnd → Moves fuel c (.exec p new r) d
  | call (a : CpuAct F) (k : Kernel) (d e : Cpu F) : c.mode = .handler 48 → a.Calls →
      a.schedule fuel c.kernel = some k → c.switch 48 k = some d →
        e = d ∨ (d.kernel.current = 0 ∧ e = { d with mode := .halted }) →
      Moves fuel c a e
  | iret (n : ℕ) : c.mode = .handler n →
      Moves fuel c .iret { c with pic := c.pic.pic8259Eoi n, mode := .user }
  | x87 (v : F) : c.mode = .user → Moves fuel c (.x87 v) { c with fpu := v }

theorem inSyscall_moves (h : c.inSyscall fuel a = some c') :
    c.mode = .handler 48 ∧ ∃ k, a.schedule fuel c.kernel = some k ∧ c.switch 48 k = some c' := by
  unfold inSyscall at h
  split_ifs at h with hm
  obtain ⟨k, hk, hs⟩ := Option.bind_eq_some_iff.1 h
  exact ⟨hm, k, hk, hs⟩

theorem step_moves [Zero F] (h : c.step fuel a = some c') : Moves fuel c a c' := by
  unfold step at h
  cases a with
  | irq n =>
    simp only at h
    split_ifs at h with hg
    obtain ⟨k, hk, hs⟩ := Option.bind_eq_some_iff.1 h
    exact .irq n k c' hg.1 hg.2.1 hg.2.2 hk hs
  | syscall =>
    simp only at h
    split_ifs at h with hm
    obtain rfl := Option.some.inj h
    exact .syscall hm
  | exec p new r =>
    simp only at h
    split_ifs at h with hg
    unfold addProcess at h
    obtain ⟨s, -, hs⟩ := Option.bind_eq_some_iff.1 h
    obtain rfl := Option.some.inj hs
    exact .exec p new r _ hg.1 hg.2.1 rfl rfl rfl rfl rfl
  | yield | sleep _ | waitpid _ =>
    obtain ⟨hm, k, hk, hs⟩ := inSyscall_moves h
    exact .call _ k c' c' hm trivial hk hs (.inl rfl)
  | exit =>
    obtain ⟨d, hd, he⟩ := Option.bind_eq_some_iff.1 h
    obtain ⟨hm, k, hk, hs⟩ := inSyscall_moves hd
    refine .call _ k d c' hm trivial hk hs ?_
    have he := Option.some.inj he
    split_ifs at he with h0
    · exact .inr ⟨h0, he.symm⟩
    · exact .inl he.symm
  | iret =>
    simp only at h
    split at h
    · rename_i n hm
      obtain rfl := Option.some.inj h
      exact .iret n hm
    · cases h
  | x87 v =>
    simp only at h
    split_ifs at h with hm
    obtain rfl := Option.some.inj h
    exact .x87 v hm

/-- What may be in service while the given code runs: in a handler that the scheduler may
have left and resumed, the timer. -/
inductive PicFits : Mode → Pic → Prop where
  | user : PicFits .user ⟨0, 0⟩
  | quiet (n : ℕ) : n = 32 ∨ n = 48 → PicFits (.handler n) ⟨0, 0⟩
  | timer (n : ℕ) : n = 32 ∨ n = 48 → PicFits (.handler n) (Pic.deliver ⟨0, 0⟩ 0)
  | device (n : ℕ) : n ≠ 0 → n < 16 → PicFits (.handler (32 + n)) (Pic.deliver ⟨0, 0⟩ n)
  | halted (p : Pic) : PicFits .halted p

/-- A saved kernel stack returns into the handler of the timer or of a system call, if it
does not start its process. -/
def StackFits : SavedStack → Prop
  | .irqHandlerEnd => True
  | .handler n => n = 32 ∨ n = 48

/-- **What is in service fits the code that runs.** -/
structure ServiceOK (c : Cpu F) : Prop where
  pic : PicFits c.mode c.pic
  stack : ∀ p, StackFits (c.stack p)

/-- The action makes a process run for the first time, with the timer interrupt in service:
it is the tick of that interrupt, or a switch in a handler that was resumed by one. -/
def StartsUnacknowledged (fuel : ℕ) (c : Cpu F) (a : CpuAct F) : Prop :=
  ∃ k, a.schedule fuel c.kernel = some k ∧ c.Elects k ∧ c.stack k.current = .irqHandlerEnd ∧
    (a = .irq 0 ∨ c.pic.inService 0 = true)

instance decidableTick : ∀ a : CpuAct F, Decidable (a = .irq 0)
  | .irq n => decidable_of_iff (n = 0) ⟨congrArg CpuAct.irq, CpuAct.irq.inj⟩
  | .syscall | .exec .. | .yield | .sleep _ | .exit | .waitpid _ | .iret | .x87 _ => isFalse nofun

instance (a : CpuAct F) : Decidable (c.StartsUnacknowledged fuel a) :=
  match h : a.schedule fuel c.kernel with
  | none => isFalse fun ⟨_, hk, _⟩ => nomatch h.symm.trans hk
  | some k =>
    have : Decidable (c.Elects k) := inferInstanceAs (Decidable (_ ∧ _))
    decidable_of_iff (c.Elects k ∧ c.stack k.current = .irqHandlerEnd ∧ (a = .irq 0 ∨ c.pic.inService 0 = true))
      ⟨fun hs => ⟨k, h, hs⟩, fun ⟨_, hk, hs⟩ => Option.some.inj (h.symm.trans hk) ▸ hs⟩

/-- In user mode the timer interrupt is not in service. -/
def TimerAcknowledged (c : Cpu F) : Prop := c.mode = .user → c.pic.inService 0 = false

/-- The state in which `proc_enter_usermode` enters the first process. -/
structure Entered (c : Cpu F) : Prop where
  mode : c.mode = .user
  current : c.kernel.current ≠ 0
  pic : c.pic = ⟨0, 0⟩
  stack : ∀ p, c.stack p = .irqHandlerEnd

theorem Entered.serviceOK (h : c.Entered) : c.ServiceOK := by
  refine ⟨?_, ?_⟩
  · rw [h.mode, h.pic]
    exact .user
  · intro p
    rw [h.stack p]
    trivial

theorem ServiceOK.acknowledged (h : c.ServiceOK) : c.TimerAcknowledged := by
  intro hm
  have hp := h.pic
  rw [hm] at hp
  generalize c.pic = p at hp ⊢
  cases hp
  rfl

/-- The EOI of a handler leaves nothing in service. -/
theorem PicFits.eoi {n : ℕ} {p : Pic} (h : PicFits (.handler n) p) : p.pic8259Eoi n = ⟨0, 0⟩ := by
  generalize hm : Mode.handler n = m at h
  cases h with
  | quiet m hn =>
    obtain rfl := Mode.handler.inj hm
    rcases hn with rfl | rfl <;> rfl
  | timer m hn =>
    obtain rfl := Mode.handler.inj hm
    rcases hn with rfl | rfl <;> rfl
  | device m h0 h16 =>
    obtain rfl := Mode.handler.inj hm
    interval_cases m
    · exact absurd rfl h0
    all_goals rfl
  | _ => cases hm

theorem stackFits_update {n p : ℕ} (hn : n = 32 ∨ n = 48) (h : ∀ p, StackFits (c.stack p)) (q : ℕ) :
    StackFits (Function.update c.stack p (.handler n) q) := by
  by_cases hq : q = p
  · rw [hq, Function.update_self]
    exact hn
  · rw [Function.update_of_ne hq]
    exact h q

/-- A switch keeps a handler's interrupts, for a process that resumes a handler. -/
theorem picFits_resume {s : SavedStack} {p : Pic} (hs : StackFits s)
    (hp : p = ⟨0, 0⟩ ∨ (p = Pic.deliver ⟨0, 0⟩ 0 ∧ s ≠ .irqHandlerEnd)) : PicFits s.mode p := by
  cases s with
  | irqHandlerEnd =>
    rcases hp with rfl | ⟨-, h⟩
    · exact .user
    · exact absurd rfl h
  | handler n =>
    rcases hp with rfl | ⟨rfl, -⟩
    · exact .quiet n hs
    · exact .timer n hs

/-- An election in the handler of the timer or of a system call. -/
theorem switch_serviceOK {n : ℕ} {k : Kernel} (hn : n = 32 ∨ n = 48) (hst : ∀ p, StackFits (c.stack p))
    (hp : c.pic = ⟨0, 0⟩ ∨
      (c.pic = Pic.deliver ⟨0, 0⟩ 0 ∧ (c.Elects k → c.stack k.current ≠ .irqHandlerEnd)))
    (h : c.switch n k = some c') : c'.ServiceOK := by
  rcases switch_cases h with ⟨-, rfl⟩ | ⟨hel, -, -, hpic, -, hstack, hmode⟩
  · refine ⟨?_, hst⟩
    rcases hp with hp | ⟨hp, -⟩
    · simp only [hp]
      exact .quiet n hn
    · simp only [hp]
      exact .timer n hn
  · refine ⟨?_, ?_⟩
    · rw [hmode, hpic]
      apply picFits_resume (hst k.current)
      exact hp.imp id fun h => ⟨h.1, h.2 hel⟩
    · intro p
      rw [hstack]
      exact stackFits_update hn hst p

/-- In the handler of a system call only the timer interrupt may be in service. -/
theorem PicFits.of_syscall {p : Pic} (h : PicFits (.handler 48) p) :
    p = ⟨0, 0⟩ ∨ p = Pic.deliver ⟨0, 0⟩ 0 := by
  generalize hm : Mode.handler 48 = m at h
  cases h with
  | quiet m hn => exact .inl rfl
  | timer m hn => exact .inr rfl
  | device m h0 h16 =>
    have := Mode.handler.inj hm
    omega
  | _ => cases hm

/-- **A step that starts no process behind an open timer interrupt keeps the services in order.** -/
theorem moves_serviceOK (hc : c.ServiceOK) (h : Moves fuel c a c') (hgood : ¬ c.StartsUnacknowledged fuel a) :
    c'.ServiceOK := by
  cases h with
  | irq n k d hm hn hfree hk hs =>
    have hpic := hc.pic
    rw [hm] at hpic
    obtain hp : c.pic = ⟨0, 0⟩ := by
      generalize c.pic = p at hpic ⊢
      cases hpic
      rfl
    by_cases h0 : n = 0
    · subst h0
      refine switch_serviceOK (c := { c with pic := c.pic.deliver 0 }) (.inl rfl) hc.stack ?_ hs
      refine .inr ⟨congrArg (Pic.deliver · 0) hp, ?_⟩
      intro hel hfirst
      exact hgood ⟨k, hk, hel, hfirst, .inl rfl⟩
    · -- the handler of a device elects nobody
      have hsame : k = c.kernel := by
        cases n with
        | zero => exact absurd rfl h0
        | succ n => exact (Option.some.inj hk).symm
      rcases switch_cases hs with ⟨-, rfl⟩ | ⟨⟨-, hne⟩, -⟩
      · refine ⟨?_, hc.stack⟩
        simp only [hp]
        exact .device n h0 hn
      · exact absurd (congrArg Kernel.current hsame) hne
  | syscall hm =>
    refine ⟨?_, hc.stack⟩
    have hpic := hc.pic
    rw [hm] at hpic
    generalize c.pic = p at hpic
    cases hpic
    exact .quiet 48 (.inr rfl)
  | exec p new r d hm hp0 hdm hdp hdf hdc hds =>
    refine ⟨by rw [hdm, hdp]; exact hc.pic, ?_⟩
    intro q
    rw [hds]
    by_cases hq : q = p
    · rw [hq, Function.update_self]
      trivial
    · rw [Function.update_of_ne hq]
      exact hc.stack q
  | call a k d e hm hcall hk hs he =>
    have hpic := hc.pic
    rw [hm] at hpic
    have hd : d.ServiceOK := by
      apply switch_serviceOK (.inr rfl) hc.stack ?_ hs
      rcases hpic.of_syscall with hp | hp
      · exact .inl hp
      · refine .inr ⟨hp, ?_⟩
        intro hel hfirst
        exact hgood ⟨k, hk, hel, hfirst, .inr (by rw [hp]; rfl)⟩
    rcases he with rfl | ⟨-, rfl⟩
    · exact hd
    · exact ⟨.halted _, hd.stack⟩
  | iret n hm =>
    refine ⟨?_, hc.stack⟩
    have hpic := hc.pic
    rw [hm] at hpic
    simp only [hpic.eoi]
    exact .user
  | x87 v hm => exact ⟨hc.pic, hc.stack⟩

/-- A process that starts behind an open timer interrupt runs in user mode with it in service. -/
theorem moves_unacknowledged (h : Moves fuel c a c') (hbad : c.StartsUnacknowledged fuel a) :
    ¬ c'.TimerAcknowledged := by
  obtain ⟨k, hk, hel, hfirst, hopen⟩ := hbad
  intro hack
  cases h with
  | irq n k' d hm hn hfree hk' hs =>
    obtain rfl := Option.some.inj (hk.symm.trans hk')
    rcases switch_cases hs with ⟨hno, -⟩ | ⟨-, -, -, hpic, -, -, hmode⟩
    · exact hno hel
    · have hin := hack (by rw [hmode, hfirst]; rfl)
      rw [hpic] at hin
      rcases hopen with h0 | hopen
      · obtain rfl : n = 0 := by simpa using h0
        simp [Pic.deliver, Pic.inService] at hin
      · unfold Pic.inService at hopen
        unfold Pic.deliver Pic.inService at hin
        split_ifs at hin <;> simp_all
  | call a k' d e hm hcall hk' hs he =>
    obtain rfl := Option.some.inj (hk.symm.trans hk')
    rcases switch_cases hs with ⟨hno, -⟩ | ⟨-, -, hkern, hpic, -, -, hmode⟩
    · exact hno hel
    · have hde : c' = d := by
        rcases he with he | ⟨h0, -⟩
        · exact he
        · rw [hkern] at h0
          exact absurd h0 hel.1
      rw [hde] at hack
      have hin := hack (by rw [hmode, hfirst]; rfl)
      rw [hpic] at hin
      rcases hopen with rfl | hopen
      · exact hcall.elim
      · rw [hopen] at hin
        cases hin
  | _ =>
    -- no other action elects
    obtain rfl := Option.some.inj hk
    exact hel.2 rfl

/-- **The timer interrupt is never left in service in user mode** by exactly the runs in
which no process is started while it is in service. -/
theorem timer_acknowledged [Zero F] (hc : c.Entered) (acts : List (CpuAct F)) :
    AllStates (Cpu.step fuel) TimerAcknowledged c acts ↔
      AllSteps (Cpu.step fuel) (fun c a _ => ¬ c.StartsUnacknowledged fuel a) c acts := by
  refine allStates_iff (I := ServiceOK) (C := fun c a => ¬ c.StartsUnacknowledged fuel a)
    (fun _ h => h.acknowledged) ?_ ?_ hc.serviceOK acts
  · intro s a t hs ht hgood
    exact moves_serviceOK hs (step_moves ht) hgood
  · intro s a t hs ht hbad
    exact moves_unacknowledged (step_moves ht) (not_not.1 hbad)

/-- The shell runs alone. -/
def shell : Cpu ℕ :=
  ⟨lonely, ⟨0, 0⟩, .user, fun _ => .irqHandlerEnd, 0, 0, fun _ => 0⟩

theorem shell_entered : shell.Entered := ⟨rfl, by decide, rfl, fun _ => rfl⟩

/-- A second process, which the shell starts. -/
def child : CpuAct ℕ := .exec 0x500 0x600 ⟨0xC0FEBABE, 2, 1, 0x6000, 0xA000, 0, 0, 0, 0xC0FEBABE⟩

/-- The shell starts a process and yields to it, and the next tick goes back to the shell. -/
theorem timer_acknowledged_yield :
    AllStates (Cpu.step 9) TimerAcknowledged shell [.syscall, child, .yield, .irq 0, .iret] ∧
      (([.syscall, child, .yield, .irq 0, .iret] : List (CpuAct ℕ)).foldlM (Cpu.step 9) shell).map
        (fun c => (c.kernel.current, c.mode)) = some (0x100, .user) :=
  ⟨(timer_acknowledged shell_entered _).2 (by decide +kernel), by decide +kernel⟩

/-- **The first tick after an `exec` is left in service** when it elects the new process. -/
theorem first_tick : shell.Entered ∧
    ¬ AllStates (Cpu.step 9) TimerAcknowledged shell [.syscall, child, .iret, .irq 0] := by
  refine ⟨shell_entered, ?_⟩
  intro h
  have hrun : (([.syscall, child, .iret, .irq 0] : List (CpuAct ℕ)).foldlM (Cpu.step 9) shell).map
      (fun c => (c.mode, c.pic.inService 0)) = some (.user, true) := by decide +kernel
  obtain ⟨c, hc, hpair⟩ := Option.map_eq_some_iff.1 hrun
  have hack := h.last hc (congrArg Prod.fst hpair)
  rw [show c.pic.inService 0 = true from congrArg Prod.snd hpair] at hack
  cases hack

end Cpu

end Saynaa
