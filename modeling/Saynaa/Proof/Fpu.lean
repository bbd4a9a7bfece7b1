import Saynaa.Proof.Interrupt

/-!
# Whose x87 registers a process finds

`fpu_switch` moves save areas, but nothing moves the registers: they hold what the last
instruction of any process left in them.

* `FpuRun`: a run with, for each process, what it left in the registers when it was last
  switched away, and what was last written since.
* `fpu_kept`: a process finds its own contents exactly when the last write since it left,
  if there was one, wrote those.
* `fpu_leaks`: a process that resumes finds what another one computed.
-/

namespace Saynaa

open Lib

variable {F : Type} {fuel : ℕ}

/-- The processor with two history variables: the contents of the registers when the process
was last switched away, and the contents last written since then. -/
structure FpuRun (F : Type) where
  cpu : Cpu F
  left : ℕ → Option F
  written : ℕ → Option F

namespace FpuRun

/-- `current_process` changes hands. -/
def Switched (c c' : Cpu F) : Prop := c'.kernel.current ≠ 0 ∧ c'.kernel.current ≠ c.kernel.current

instance (c c' : Cpu F) : Decidable (Switched c c') := inferInstanceAs (Decidable (_ ∧ _))

/-- The history after an action, when no process is switched away. -/
def note (s : FpuRun F) : CpuAct F → FpuRun F
  | .exec p _ _ => { s with left := Function.update s.left p none }
  | .x87 v => { s with written := fun _ => some v }
  | _ => s

/-- What an action leaves in the registers. -/
def writes : CpuAct F → Option F
  | .x87 v => some v
  | _ => none

def step [Zero F] (fuel : ℕ) (s : FpuRun F) (a : CpuAct F) : Option (FpuRun F) :=
  (s.cpu.step fuel a).map fun c =>
    let noted := s.note a
    let prev := s.cpu.kernel.current
    { cpu := c
      left := if Switched s.cpu c then Function.update noted.left prev (some s.cpu.fpu) else noted.left
      written := if Switched s.cpu c then Function.update noted.written prev none else noted.written }

/-- No process was switched away yet. -/
def start (c : Cpu F) : FpuRun F := ⟨c, fun _ => none, fun _ => none⟩

/-- A process that is switched to finds what it left. -/
def Kept (s : FpuRun F) (_ : CpuAct F) (t : FpuRun F) : Prop :=
  ∀ v, Switched s.cpu t.cpu → s.left t.cpu.kernel.current = some v → t.cpu.fpu = v

/-- Since the process that is switched to left, the registers were not written, or last with
what it left. -/
def Undisturbed (s : FpuRun F) (_ : CpuAct F) (t : FpuRun F) : Prop :=
  ∀ v, Switched s.cpu t.cpu → s.left t.cpu.kernel.current = some v →
    ∀ w, s.written t.cpu.kernel.current = some w → w = v

/-- The registers hold what was last written since a process left, else what it left. -/
def Holds (s : FpuRun F) : Prop := ∀ p v, s.left p = some v → s.cpu.fpu = (s.written p).getD v

theorem switch_fpu {c c' : Cpu F} {n : ℕ} {k : Kernel} (h : c.switch n k = some c') : c'.fpu = c.fpu := by
  rcases Cpu.switch_cases h with ⟨-, rfl⟩ | ⟨-, -, -, -, hf, -⟩
  · rfl
  · exact hf

/-- **Only a process writes the registers.** -/
theorem step_fpu [Zero F] {c c' : Cpu F} {a : CpuAct F} (h : c.step fuel a = some c') :
    c'.fpu = (writes a).getD c.fpu := by
  cases Cpu.step_moves h with
  | irq n k _ hm hn hfree hk hs =>
    have hf := switch_fpu hs
    exact hf
  | syscall hm => rfl
  | exec p new r _ hm hp0 hdm hdp hdf hdc hds => exact hdf
  | call _ k d _ hm hcall hk hs he =>
    have hw : writes a = none := by
      cases a with
      | x87 v => exact hcall.elim
      | _ => rfl
    rw [hw]
    have hf := switch_fpu hs
    rcases he with rfl | ⟨-, rfl⟩
    · exact hf
    · exact hf
  | iret n hm => rfl
  | x87 v hm => rfl

theorem note_left {s : FpuRun F} {a : CpuAct F} {p : ℕ} {v : F} (h : (s.note a).left p = some v) :
    s.left p = some v := by
  cases a with
  | exec q new r =>
    by_cases hp : p = q
    · simp [note, hp] at h
    · simpa [note, hp] using h
  | _ => exact h

theorem note_written (s : FpuRun F) (a : CpuAct F) (p : ℕ) :
    (s.note a).written p = (writes a).or (s.written p) := by
  cases a with
  | _ => rfl

/-- The process that runs an x87 instruction goes on. -/
theorem writes_of_switched [Zero F] {c c' : Cpu F} {a : CpuAct F} (h : c.step fuel a = some c')
    (hsw : Switched c c') : writes a = none := by
  cases a with
  | x87 v =>
    cases Cpu.step_moves h with
    | x87 _ hm => exact absurd rfl hsw.2
    | call _ k d _ hm hcall hk hs he => exact hcall.elim
  | _ => rfl

/-- **What the registers hold**, after any step. -/
theorem step_holds [Zero F] {s t : FpuRun F} {a : CpuAct F} (hs : s.Holds) (h : s.step fuel a = some t) :
    t.Holds := by
  obtain ⟨c, hc, rfl⟩ := Option.map_eq_some_iff.1 h
  have hnoted : ∀ p v, (s.note a).left p = some v → c.fpu = ((s.note a).written p).getD v := by
    intro p v hv
    rw [step_fpu hc, note_written, hs p v (note_left hv)]
    cases writes a <;> rfl
  intro p v hv
  by_cases hsw : Switched s.cpu c
  · simp only [if_pos hsw] at hv ⊢
    by_cases hp : p = s.cpu.kernel.current
    · rw [hp, Function.update_self] at hv ⊢
      rw [step_fpu hc, writes_of_switched hc hsw]
      exact Option.some.inj hv
    · rw [Function.update_of_ne hp] at hv ⊢
      exact hnoted p v hv
  · simp only [if_neg hsw] at hv ⊢
    exact hnoted p v hv

/-- **A process finds its own registers** in exactly the switches before which, since it
left, nobody wrote them, or the last write restored what it had. -/
theorem fpu_kept [Zero F] (c : Cpu F) (acts : List (CpuAct F)) :
    AllSteps (FpuRun.step fuel) Kept (start c) acts ↔ AllSteps (FpuRun.step fuel) Undisturbed (start c) acts := by
  apply allSteps_congr (I := Holds) (fun s a t hs h => step_holds hs h) ?_ (fun p v hv => by cases hv)
  intro s a t hs h
  have hfpu : ∀ hsw : Switched s.cpu t.cpu, t.cpu.fpu = s.cpu.fpu := by
    intro hsw
    obtain ⟨c', hc, rfl⟩ := Option.map_eq_some_iff.1 h
    have hw := writes_of_switched hc hsw
    change c'.fpu = s.cpu.fpu
    rw [step_fpu hc, hw]
    rfl
  constructor
  · intro hk v hsw hv w hw
    have := hs _ _ hv
    rw [hw, ← hfpu hsw, hk v hsw hv] at this
    exact this.symm
  · intro hu v hsw hv
    rw [hfpu hsw, hs _ _ hv]
    cases hw : s.written t.cpu.kernel.current with
    | none => rfl
    | some w => exact hu v hsw hv w hw

/-- The shell computes, starts a child and is preempted; the child computes and yields. -/
def twoComputing : List (CpuAct ℕ) := [.x87 1, .syscall, Cpu.child, .iret, .irq 0, .x87 2, .syscall]

/-- **A process resumes with the registers of another one**: the shell left 1 and finds 2. -/
theorem fpu_leaks : ¬ AllSteps (FpuRun.step 9) Kept (start Cpu.shell) (twoComputing ++ [.yield]) := by
  intro h
  have hrun : ((twoComputing.foldlM (FpuRun.step 9) (start Cpu.shell)).bind fun s =>
      (s.step 9 .yield).map fun t => (decide (Switched s.cpu t.cpu), s.left t.cpu.kernel.current, t.cpu.fpu)) =
        some (true, some 1, 2) := by decide +kernel
  obtain ⟨s, hs, hlast⟩ := Option.bind_eq_some_iff.1 hrun
  obtain ⟨t, ht, htriple⟩ := Option.map_eq_some_iff.1 hlast
  simp only [Prod.mk.injEq, decide_eq_true_eq] at htriple
  obtain ⟨hsw, hleft, hfpu⟩ := htriple
  have hkept := h.last hs ht 1 hsw hleft
  omega

end FpuRun

end Saynaa
