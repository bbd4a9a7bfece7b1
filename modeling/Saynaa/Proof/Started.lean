import Saynaa.Proof.Isolation

/-!
# A program that is started

* `ProgramAt`: a program in memory, with its stack.
* `stack_image`: the stack comes on top of the image, and changes nothing of it.
* `schedAdd_proc`: the record of the new process is in the run queue.
* `program_started`: what the address space of a new process holds, and nothing else.
-/

namespace Saynaa

open Lib Machine

variable {m m' m₀ m₁ m₂ : Machine} {x : Binary} {s s₁ t : Exec} {argv texts : List (List UInt8)} {ds : Set ℕ}
  {fuel process n a : ℕ}

/-! ### The image and the stack -/

/-- **A program in memory**, from an empty address space: its segments, its stack, and no other page. -/
structure ProgramAt (x : Binary) (texts : List (List UInt8)) (m : Machine) : Prop where
  segments : ∀ i < x.ePhnum, x.Loads i → x.SegmentAt m (x.phdr i)
  args : ∀ a l, StackHolds (byteRuns (stackBlocks texts)) a l → ∀ i (hi : i < l.length), m.byteAt (a + i) = some l[i]
  pages : ∀ p < userPages, mapping m p ≠ none ↔ (0xBFFFC ≤ p ∨ ∃ i < x.ePhnum, x.Loads i ∧ (x.phdr i).Meets p)

/-- A page of the image is mapped. -/
theorem Binary.ImageOK.mapped (h : x.ImageOK m₀ m n) {i : ℕ} (hi : i < n) (hl : x.Loads i) {p : ℕ}
    (hm : (x.phdr i).Meets p) : mapping m p ≠ none := by
  obtain ⟨k, hk, rfl⟩ := hm
  exact (h.segments i hi hl k hk).1

/-- **The stack** is in pages of its own. -/
theorem stack_image (hu : UserOK m₁) (himage : x.ImageOK m₀ m₁ x.ePhnum)
    (hempty : ∀ p < userPages, mapping m₀ p = none)
    (hseg : ∀ i < x.ePhnum, x.Loads i → SegmentOK (x.phdr i)) (hframes : RegionFrames m₁ 0xBFFFC procStackPages)
    (hstack : m₁.mapStack = some m₂) (hroom : stackRoom texts ≤ 0x4000) (hargs : m₂.setupStack texts = some m)
    (hl : m.tableLost = false) : ProgramAt x texts m ∧ m.cr3 = m₂.cr3 := by
  have hnum : 0xBFFFC + procStackPages ≤ userPages := Nat.le_of_ble_eq_true rfl
  have hpages : procStackPages = 4 := rfl
  have hflags : ¬ large (pageUser ||| pageRw) := by decide
  obtain ⟨⟨r, pmm⟩, hal⟩ : ∃ y, m₁.pmm.pmmAllocPages procStackPages = y := ⟨_, rfl⟩
  rw [mapStack_eq hal] at hstack
  rw [setupStack_eq] at hargs
  have hl₂ : m₂.tableLost = false := by
    rw [← writeAll_lost _ hargs]
    exact hl
  obtain ⟨hu₂, hkept, hfree, hmap⟩ := mapRegion_ok hu hnum hal (hframes.first hal) hflags hstack hl₂
  obtain ⟨m', hw, hsame, hbyte⟩ := writeAll_ok (byteRuns (stackBlocks texts)) hu₂ (by
    intro w hw
    have hin := inStack_iff.1 (stack_inside.2 hroom w hw)
    refine ⟨hin.2, ?_⟩
    rw [hmap, if_pos (by omega)]
    exact Option.some_ne_none _)
  obtain rfl : m' = m := Option.some.inj (hw.symm.trans hargs)
  -- the pages of the image are not those of the stack
  have hnot : ∀ p, mapping m₁ p ≠ none → ¬ (0xBFFFC ≤ p ∧ p < 0xBFFFC + procStackPages) := by
    intro p hp hin
    have hnone := (hfree (p - 0xBFFFC) (by omega)).1
    rw [show 0xBFFFC + (p - 0xBFFFC) = p by omega] at hnone
    exact hp hnone
  refine ⟨⟨fun i hi hload k hk => ?_, fun a l hholds i hi => ?_, fun p hp => ?_⟩, hsame.cr3⟩
  · obtain ⟨hm, hfile, hb⟩ := himage.segments i hi hload k hk
    have huser := (hseg i hi hload).user
    have hmap₂ : mapping m₂ (((x.phdr i).pVaddr + k) / 4096) = mapping m₁ (((x.phdr i).pVaddr + k) / 4096) := by
      rw [hmap, if_neg (hnot _ hm)]
    refine ⟨?_, hfile, ?_⟩
    · rw [hsame.mapping, hmap₂]
      exact hm
    · rw [(hbyte _ (by omega)).2 ?_, hkept.byteAt hu hu₂ (by omega) hm hmap₂, hb]
      intro w hw heq
      have hin := inStack_iff.1 (stack_inside.2 hroom w hw)
      exact hnot _ hm (by omega)
  · obtain ⟨w, hw, heq⟩ := hholds.written hi
    have hin := inStack_iff.1 (stack_inside.2 hroom w hw)
    rw [(hbyte (a + i) (by omega)).1 ⟨w, hw, heq⟩ fun _ => 0, hholds]
  · rw [hsame.mapping, hmap]
    unfold userPages at hp
    by_cases hin : 0xBFFFC ≤ p
    · rw [if_pos (by omega)]
      exact iff_of_true (Option.some_ne_none _) (.inl hin)
    · rw [if_neg (by omega)]
      constructor
      · intro hm
        by_contra hno
        push Not at hno
        refine hm ?_
        rw [himage.pages p fun i hi hload hmeets => hno.2 i hi hload hmeets]
        exact hempty p (by unfold userPages; omega)
      · rintro (h | ⟨i, hi, hload, hmeets⟩)
        · exact absurd h hin
        · exact himage.mapped hi hload hmeets

/-! ### The run queue -/

section Ring

variable {r r' : SchedRobin}

theorem setNext_proc {a v : ℕ} (h : r.setNext a v = some r') : r'.proc = r.proc := by
  obtain ⟨n, -, rfl⟩ := Option.map_eq_some_iff.1 h
  rfl

theorem pruneHead_proc (fuel : ℕ) : ∀ {r r' : SchedRobin}, pruneHead fuel r = some r' → r'.proc = r.proc := by
  induction fuel with
  | zero =>
    intro r r' h
    cases h
  | succ fuel ih =>
    intro r r' h
    unfold pruneHead at h
    split_ifs at h with h0
    · rw [Option.some.inj h]
    obtain ⟨p, -, h⟩ := Option.bind_eq_some_iff.1 h
    obtain ⟨ok, -, h⟩ := Option.bind_eq_some_iff.1 h
    cases ok with
    | true => rw [Option.some.inj h]
    | false =>
      obtain ⟨next, -, h⟩ := Option.bind_eq_some_iff.1 h
      by_cases hlast : next = r.processes
      · simp only [hlast] at h
        rw [← Option.some.inj h]
        rfl
      · simp only [if_neg hlast] at h
        obtain ⟨tail, -, h⟩ := Option.bind_eq_some_iff.1 h
        obtain ⟨u, hu, h⟩ := Option.bind_eq_some_iff.1 h
        have hproc : u.proc = r.proc := setNext_proc hu
        exact (ih h).trans hproc

theorem pruneRest_proc (fuel : ℕ) : ∀ {r r' : SchedRobin} {prev cur : ℕ}, pruneRest fuel r prev cur = some r' →
    r'.proc = r.proc := by
  induction fuel with
  | zero =>
    intro r r' prev cur h
    cases h
  | succ fuel ih =>
    intro r r' prev cur h
    unfold pruneRest at h
    split_ifs at h with hend
    · rw [Option.some.inj h]
    obtain ⟨next, -, h⟩ := Option.bind_eq_some_iff.1 h
    obtain ⟨p, -, h⟩ := Option.bind_eq_some_iff.1 h
    obtain ⟨ok, -, h⟩ := Option.bind_eq_some_iff.1 h
    cases ok with
    | true => exact ih h
    | false =>
      obtain ⟨u, hu, h⟩ := Option.bind_eq_some_iff.1 h
      obtain ⟨after, -, h⟩ := Option.bind_eq_some_iff.1 h
      have hproc : u.proc = r.proc := setNext_proc hu
      exact (ih h).trans hproc

theorem schedRobinPrune_proc {fuel : ℕ} (h : schedRobinPrune fuel r = some r') : r'.proc = r.proc := by
  obtain ⟨u, hu, h⟩ := Option.bind_eq_some_iff.1 h
  have hhead := pruneHead_proc fuel hu
  split_ifs at h with h0
  · rw [← Option.some.inj h]
    exact hhead
  · obtain ⟨next, -, h⟩ := Option.bind_eq_some_iff.1 h
    exact (pruneRest_proc fuel h).trans hhead

theorem schedRobinAdd_proc {fuel p new : ℕ} (h : schedRobinAdd fuel r p new = some r') : r'.proc = r.proc := by
  unfold schedRobinAdd at h
  by_cases h0 : p = 0
  · -- no process
    rw [if_pos h0] at h
    rw [← Option.some.inj h]
  rw [if_neg h0] at h
  obtain ⟨q, -, h⟩ := Option.bind_eq_some_iff.1 h
  by_cases hdir : q.directory = 0 ∨ q.savedKernelStack = 0
  · rw [if_pos hdir] at h
    rw [← Option.some.inj h]
  rw [if_neg hdir] at h
  obtain ⟨u, hu, h⟩ := Option.bind_eq_some_iff.1 h
  have hprune := schedRobinPrune_proc hu
  by_cases hnew : new = 0
  · rw [if_pos hnew] at h
    cases h
  rw [if_neg hnew] at h
  by_cases hempty : u.processes = 0
  · -- the first process
    rw [if_pos hempty] at h
    rw [← Option.some.inj h]
    exact hprune
  · -- behind the current one
    rw [if_neg hempty] at h
    obtain ⟨next, -, h⟩ := Option.bind_eq_some_iff.1 h
    obtain ⟨v, hv, h⟩ := Option.bind_eq_some_iff.1 h
    rw [← Option.some.inj h]
    exact (setNext_proc hv).trans hprune

end Ring

/-- **The record** of the new process. -/
theorem schedAdd_proc {r : Process} (h : s.schedAdd fuel process r = some t) : t.ring.proc process = some r := by
  unfold Exec.schedAdd at h
  obtain ⟨⟨node, u⟩, -, h⟩ := Option.bind_eq_some_iff.1 h
  obtain ⟨ring, hring, h⟩ := Option.bind_eq_some_iff.1 h
  obtain rfl := Option.some.inj h
  show ring.proc process = some r
  rw [schedRobinAdd_proc hring]
  exact Function.update_self _ _ _

/-! ### The new process -/

/-- The new address space is empty below the kernel. -/
theorem newSpace_empty {pd : ℕ} (h : Isolated s.machine ds) (ht : TempTable s.machine s.tempPage)
    (hnew : NewSpace s pd m) :
    pd = s.machine.pmm.mmapFindFree * 4096 ∧ ∀ p < userPages, mapping (m.pagingSwitchDirectory pd) p = none := by
  obtain ⟨pmm, hal, hpd, hcopy⟩ := hnew
  obtain ⟨f, rfl, hf0, hfree, hc⟩ := copyDirectory_ok h ht hal hpd hcopy
  rw [← allocPage_first hal, switchDirectory_eq]
  exact ⟨rfl, fun p hp => hc.empty hp⟩

/-- **What starts**: `d` is the directory of the new process. -/
structure ProgramStarted (s t : Exec) (x : Binary) (texts : List (List UInt8)) (ds : Set ℕ) (process d : ℕ) :
    Prop where
  fresh : d ∉ ds
  directory : (t.ring.proc process).map Process.directory = some (d * 4096)
  isolated : Isolated t.machine (insert d ds)
  program : ProgramAt x texts (t.machine.under d)
  others : ∀ e ∈ ds, SameBytes s.machine t.machine e

theorem ExecOutcome.program (hout : ExecOutcome fuel x.size x.load argv s (some process) t)
    (h : Isolated s.machine ds)
    (hin : ExecInside s x argv) (hbuf : x.buf + x.size ≤ 2 ^ 32) (hvalid : x.elfIsValid)
    (hseg : ∀ i < x.ePhnum, x.Loads i → SegmentOK (x.phdr i)) :
    ProgramStarted s t x (argv.take 64) ds process s.machine.pmm.mmapFindFree := by
  obtain ⟨hI, -, hbytes⟩ := hout.isolated h hin
  generalize hr : some process = r at hout
  cases hout with
  | noFrame => cases hr
  | noDirectory => cases hr
  | badBinary => cases hr
  | @started pd prev process' stack m m₁ m₂ m₃ args t hnew hprev hne hload hstack hargs hadd =>
    cases hr
    have hm : t.machine = m₃.pagingSwitchDirectory prev := (schedAdd_machine hadd).trans (freeArgs_machine _)
    obtain ⟨hI₁, hnot, -⟩ := newSpace_isolated h hin.temp hnew
    obtain ⟨hpd, hempty⟩ := newSpace_empty h hin.temp hnew
    have hu : UserOK (m.pagingSwitchDirectory pd) := hI₁.user _ hI₁.current
    have hl₁ := load_found hu (hin.program _ _ hnew) hload hI₁.lost
    have hacts := load_acts hu hin.below (hin.program _ _ hnew) hload hl₁
    have hstackFrames := hin.stack _ _ _ hnew hload
    have hl := (stack_found hacts.user hstackFrames hstack hargs).trans hl₁
    have helf : x.elfLoad (m.pagingSwitchDirectory pd) = some (true, m₁) := by
      unfold Binary.load at hload
      rwa [if_pos hvalid] at hload
    have hframes : x.FramesFound (m.pagingSwitchDirectory pd) 0 x.ePhnum := by
      have hf := hin.program _ _ hnew
      unfold Binary.LoadFrames at hf
      rwa [if_pos hvalid] at hf
    have himage := elfLoad_image hbuf hu hframes hseg helf
    have hstackActs := stack_acts hacts.user hstackFrames hstack hin.args hargs hl
    obtain ⟨hprogram, -⟩ := stack_image hacts.user himage hempty hseg hstackFrames hstack hin.args hargs hl
    have hcr : m₃.cr3 = s.machine.pmm.mmapFindFree := by
      have h₀ : (m.pagingSwitchDirectory pd).cr3 = s.machine.pmm.mmapFindFree := by
        rw [hpd, switchDirectory_eq]
        rfl
      rw [hstackActs.cr3, hacts.cr3, h₀]
    have hback : t.machine.under s.machine.pmm.mmapFindFree = m₃ := by
      rw [hm, ← hcr]
      rfl
    refine ⟨?_, ?_, hI, ?_, hbytes⟩
    · rw [← hcr, hstackActs.cr3, hacts.cr3]
      exact hnot
    · rw [schedAdd_proc hadd, ← hpd]
      rfl
    · rw [hback]
      exact hprogram

/-- **A program that is started.** In any system of isolated processes, a call of `proc_run_code` that succeeds
makes one more of them, whose address space holds the segments of the file, the arguments on a stack of four
pages, and nothing else; the address spaces that were there keep every byte. -/
theorem program_started (h : Isolated s.machine ds) (htemp : s.allocTempPage fuel = some s₁)
    (hin : ExecInside s₁ x argv)
    (hbuf : x.buf + x.size ≤ 2 ^ 32) (hvalid : x.elfIsValid) (hseg : ∀ i < x.ePhnum, x.Loads i → SegmentOK (x.phdr i))
    (he : s.procRunCode fuel x argv = some (some process, t)) :
    ProgramStarted s t x (argv.take 64) ds process s.machine.pmm.mmapFindFree := by
  have hm := allocTempPage_machine htemp
  rw [← hm] at h
  obtain ⟨s₂, ⟨heap, l, rfl, -⟩, hout⟩ := runCode_cases he htemp
  have hout' := hout.program h ⟨hin.temp, hin.below, hin.args, hin.program, hin.stack⟩ hbuf hvalid hseg
  rw [← hm]
  exact ⟨hout'.fresh, hout'.directory, hout'.isolated, hout'.program, fun e he =>
    by rw [← hm]; exact hout'.others e he⟩

end Saynaa
