import Saynaa.Proof.Malloc
import Saynaa.Sys.Stdout

/-!
# Captured output lives as long as its processes

* `users s p`: how many live processes point to the buffer `p`.
* `Counted`: the buffers in use are live blocks of the heap with this number in their counter, and
  every buffer that was made was freed once, or is in use.
* `FreedAtLast`: what a step frees are the buffers whose last process exits.
* `StdoutInv`: the invariant; `exec_inv`, `maketty_inv`, `exit_inv` and `other_inv` are its steps.
* `stdout_counted`: every run from the empty heap.
-/

namespace Saynaa

open Lib Heap

namespace StdoutSys

variable {h h' : Heap} {s t : StdoutSys} {live : Set ℕ} {p q out : ℕ}

/-- How many live processes point to `p`. -/
def users (s : StdoutSys) (p : ℕ) : ℕ := s.procs.countP fun q => s.stdout q = p

theorem inUse_iff : s.InUse p ↔ p ≠ 0 ∧ 0 < s.users p := by
  unfold InUse users
  rw [List.countP_pos_iff]
  simp only [decide_eq_true_eq]

/-- **The buffers in a state**: live blocks with the right counter, and each one that was made was freed
once, or is in use. -/
structure Counted (s : StdoutSys) : Prop where
  ready : BlocksReady (s.heap, s.live)
  alive : ∀ p, s.InUse p → p ∈ s.live
  count : ∀ p, s.InUse p → s.heap.refcount p = s.users p
  once : ∀ p, s.made.count p = s.freed.count p + if s.InUse p then 1 else 0

/-- **What a step frees**: the buffers that come out of use, by the exit of a process that points there. -/
structure FreedAtLast (s : StdoutSys) (c : StdoutCall) (t : StdoutSys) : Prop where
  freed : ∀ p, t.freed.count p = s.freed.count p + if s.InUse p ∧ ¬ t.InUse p then 1 else 0
  exits : ∀ p, s.InUse p → ¬ t.InUse p → ∃ q ∈ s.procs, c = .exit q ∧ s.stdout q = p

/-- The invariant: buffers have room for their fields and are no processes. -/
structure StdoutInv (s : StdoutSys) : Prop extends Counted s where
  procs : ∀ q ∈ s.procs, q ∈ s.live ∧ ¬ s.InUse q
  nodup : s.procs.Nodup
  room : ∀ p, s.InUse p → procStdoutSize ≤ s.heap.payload p

/-! ### The counter -/

theorem refcount_kept (hk : KeptIn live h h') (hp : p ∈ live) (hroom : procStdoutSize ≤ h.payload p) :
    h'.refcount p = h.refcount p ∧ procStdoutSize ≤ h'.payload p := by
  obtain ⟨hpay, hmem⟩ := hk p hp
  unfold procStdoutSize at *
  exact ⟨load_congr fun i hi => hmem i (by omega), by omega⟩

/-- **Writing the counter** of a live buffer. -/
theorem setRefcount_ready {v : ℕ} (hx : BlocksReady (h, live)) (hp : p ∈ live) (hroom : procStdoutSize ≤ h.payload p)
    (hv : v < 2 ^ 32) : BlocksReady (h.setRefcount p v, live) ∧ KeptIn (live \ {p}) h (h.setRefcount p v) ∧
      (h.setRefcount p v).refcount p = v ∧ procStdoutSize ≤ (h.setRefcount p v).payload p := by
  have hlen : (le 4 v).length = 4 := length_le 4 v
  have hset : h.setRefcount p v = { h with mem := copyIn h.mem (p + 0) (le 4 v) } := rfl
  obtain ⟨hready, hkept, hpay⟩ := write_ready hx hp (le 4 v) (i := 0) (by unfold procStdoutSize at hroom; omega)
  rw [← hset] at hready hkept hpay
  exact ⟨hready, hkept, load_store (by omega), hroom.trans hpay.ge⟩

/-- There are fewer processes than addresses. -/
theorem StdoutInv.procs_lt (hs : StdoutInv s) : s.procs.length + 1 < 2 ^ 32 := by
  have hsub : s.procs ⊆ List.range (heapEnd + 1) := by
    intro q hq
    obtain ⟨hlo, hhi⟩ := hs.ready.inside (hs.procs q hq).1
    exact List.mem_range.2 (by omega)
  have hle := (hs.nodup.subperm hsub).length_le
  rw [List.length_range] at hle
  have hend : heapEnd + 2 < 2 ^ 32 := by decide
  omega

theorem users_le (s : StdoutSys) (p : ℕ) : s.users p ≤ s.procs.length := List.countP_le_length

/-- `NULL` is no block. -/
theorem ne_zero_of_live (hx : BlocksReady (h, live)) (hp : p ∈ live) : p ≠ 0 := by
  have hin := (hx.inside hp).1
  unfold kernelHeapBegin at hin
  omega

/-! ### The rest of the kernel -/

/-- **A change of the heap** that keeps the processes and the counters. -/
theorem StdoutInv.heap (hs : StdoutInv s) {L : Finset ℕ} (hready : BlocksReady (h', L))
    (hprocs : ∀ q ∈ s.procs, q ∈ L)
    (hbuf : ∀ p, s.InUse p → p ∈ L ∧ h'.refcount p = s.heap.refcount p ∧ procStdoutSize ≤ h'.payload p) :
    StdoutInv { s with heap := h', live := L } where
  ready := hready
  alive := fun p hp => (hbuf p hp).1
  count := fun p hp => (hbuf p hp).2.1.trans (hs.count p hp)
  once := hs.once
  procs := fun q hq => ⟨hprocs q hq, (hs.procs q hq).2⟩
  nodup := hs.nodup
  room := fun p hp => (hbuf p hp).2.2

theorem kmalloc_cases {align size : ℕ} (h : s.kmalloc align size = some (p, t)) :
    ∃ h', Heap.alignedAlloc searchFuel s.heap align size = some (some (p, h')) ∧
      t = { s with heap := h', live := insert p s.live } := by
  unfold kmalloc at h
  obtain ⟨⟨q, h'⟩, hr, heq⟩ := Option.map_eq_some_iff.1 h
  obtain ⟨rfl, rfl⟩ := Prod.mk.inj heq
  exact ⟨h', Option.join_eq_some_iff.1 hr, rfl⟩

/-- **An allocation** keeps the invariant and gives a new block. -/
theorem kmalloc_inv (hs : StdoutInv s) {align size : ℕ} (ha : AlignOK align) (hsz : size ≤ kernelHeapSize)
    (h : s.kmalloc align size = some (p, t)) :
    StdoutInv t ∧ p ∉ s.live ∧ size ≤ t.heap.payload p ∧ t.live = insert p s.live ∧ t.procs = s.procs ∧
      t.stdout = s.stdout ∧ t.made = s.made ∧ t.freed = s.freed := by
  obtain ⟨h', hr, rfl⟩ := kmalloc_cases h
  obtain ⟨hready, hfresh, hfit, hkept⟩ := alloc_kept hs.ready ha hsz hr
  refine ⟨hs.heap (by rw [Finset.coe_insert]; exact hready) ?_ ?_, hfresh, hfit, rfl, rfl, rfl, rfl, rfl⟩
  · intro q hq
    exact Finset.mem_insert_of_mem (hs.procs q hq).1
  · intro q hq
    exact ⟨Finset.mem_insert_of_mem (hs.alive q hq), refcount_kept hkept (hs.alive q hq) (hs.room q hq)⟩

theorem other_inv (hs : StdoutInv s) {op : HeapOther} (h : s.other op = some t) :
    StdoutInv t ∧ t.procs = s.procs ∧ t.stdout = s.stdout ∧ t.made = s.made ∧ t.freed = s.freed := by
  cases op with
  | alloc align size =>
    unfold other at h
    simp only at h
    split_ifs at h with hg
    obtain ⟨⟨p, s₁⟩, hk, rfl⟩ := Option.map_eq_some_iff.1 h
    obtain ⟨hi, -, -, -, hrest⟩ := kmalloc_inv hs ⟨hg.1.1, hg.1.2.1, hg.1.2.2⟩ hg.2 hk
    exact ⟨hi, hrest⟩
  | free p =>
    unfold other at h
    simp only at h
    split_ifs at h with hg
    obtain rfl := Option.some.inj h
    obtain ⟨hp, hproc, huse⟩ := hg
    obtain ⟨hready, hkept⟩ := kfree_kept hs.ready hp
    refine ⟨hs.heap (by rw [Finset.coe_erase]; exact hready) ?_ ?_, rfl, rfl, rfl, rfl⟩
    · intro q hq
      refine Finset.mem_erase.2 ⟨?_, (hs.procs q hq).1⟩
      rintro rfl
      exact hproc hq
    · intro q hq
      have hne : q ≠ p := by
        rintro rfl
        exact huse hq
      exact ⟨Finset.mem_erase.2 ⟨hne, hs.alive q hq⟩, refcount_kept hkept ⟨hs.alive q hq, hne⟩ (hs.room q hq)⟩
  | write p i data =>
    unfold other at h
    simp only at h
    split_ifs at h with hg
    obtain rfl := Option.some.inj h
    obtain ⟨hp, hfit, huse⟩ := hg
    obtain ⟨hready, hkept, hpay⟩ := write_ready hs.ready hp data (i := i) hfit
    refine ⟨hs.heap hready (fun q hq => (hs.procs q hq).1) ?_, rfl, rfl, rfl, rfl⟩
    intro q hq
    refine ⟨hs.alive q hq, ?_⟩
    by_cases hqp : q = p
    · -- the counter is in front of what is written
      subst hqp
      have h4 := huse hq
      exact ⟨load_congr fun j hj => copyIn_out (by omega), (hs.room q hq).trans hpay.ge⟩
    · exact refcount_kept hkept ⟨hs.alive q hq, hqp⟩ (hs.room q hq)

/-! ### Starting a process -/

/-- A new process and what it points to. -/
theorem users_cons (hq : q ∉ s.procs) : ({ s with procs := q :: s.procs, stdout := Function.update s.stdout q out } :
    StdoutSys).users p = s.users p + if out = p then 1 else 0 := by
  unfold users
  rw [List.countP_cons]
  have hcongr : s.procs.countP (fun r => Function.update s.stdout q out r = p) = s.procs.countP fun r =>
    s.stdout r = p := by
    apply List.countP_congr
    intro r hr
    rw [Function.update_of_ne (ne_of_mem_of_not_mem hr hq)]
  simp only [hcongr, Function.update_self, decide_eq_true_eq]

/-- A step after which all buffers are still in use. -/
theorem FreedAtLast.of_grow {c : StdoutCall} (hf : t.freed = s.freed) (hu : ∀ p, s.InUse p → t.InUse p) :
    FreedAtLast s c t where
  freed := by
    intro p
    rw [hf, if_neg fun hp => hp.2 (hu p hp.1)]
    rfl
  exits := fun p hs ht => absurd (hu p hs) ht

/-- **`proc_run_code`** shares the buffer of the parent. -/
theorem exec_inv (hs : StdoutInv s) {c : StdoutCall} {parent : Option ℕ} (hpar : ∀ q ∈ parent, q ∈ s.procs)
    (h : s.procRunCode parent = some t) : StdoutInv t ∧ FreedAtLast s c t := by
  obtain ⟨⟨process, s₁⟩, hk, h⟩ := Option.bind_eq_some_iff.1 h
  obtain ⟨hi, hfresh, -, hlive, hprocs, hstdout, hmade, hfreed⟩ := kmalloc_inv hs (by decide) (by decide) hk
  simp only [Option.pure_def, Option.some.injEq] at h
  set out := (parent.map s₁.stdout).getD 0 with hout
  set s₂ : StdoutSys :=
    { s₁ with procs := process :: s₁.procs, stdout := Function.update s₁.stdout process out } with hs₂
  have hnew : process ∉ s₁.procs := by
    rw [hprocs]
    exact fun hp => hfresh (hs.procs process hp).1
  have hsame : ∀ p, s₁.InUse p ↔ s.InUse p := by
    intro p
    unfold InUse
    rw [hprocs, hstdout]
  have hused : out ≠ 0 → s₁.InUse out := by
    intro h0
    cases hp : parent with
    | none =>
      rw [hout, hp] at h0
      exact absurd rfl h0
    | some q =>
      refine ⟨h0, q, hprocs ▸ hpar q hp, ?_⟩
      rw [hout, hp]
      rfl
  have husers : ∀ p, s₂.users p = s₁.users p + if out = p then 1 else 0 := fun p => users_cons hnew
  have huse : ∀ p, s₂.InUse p ↔ s₁.InUse p := by
    intro p
    by_cases hp : out = p
    · -- one process more writes into it
      subst hp
      refine ⟨fun h => hused h.1, fun h => inUse_iff.2 ⟨h.1, ?_⟩⟩
      rw [husers]
      exact Nat.lt_add_left _ (by rw [if_pos rfl]; exact Nat.one_pos)
    · rw [inUse_iff, inUse_iff, husers, if_neg hp, Nat.add_zero]
  have hproc₂ : ∀ q ∈ s₂.procs, q ∈ s₁.live ∧ ¬ s₂.InUse q := by
    intro q hq
    rw [huse]
    rcases List.mem_cons.1 hq with rfl | hq
    · refine ⟨hlive ▸ Finset.mem_insert_self q s.live, ?_⟩
      rw [hsame]
      exact fun hp => hfresh (hs.alive q hp)
    · exact hi.procs q hq
  have honce : ∀ p, s₂.made.count p = s₂.freed.count p + if s₂.InUse p then 1 else 0 := by
    intro p
    have h1 := hi.once p
    simp only [huse p]
    exact h1
  have hnodup : s₂.procs.Nodup := List.nodup_cons.2 ⟨hnew, hi.nodup⟩
  refine ⟨?_, .of_grow ?_ ?_⟩
  · rw [← h]
    unfold procStdoutRetain
    by_cases h0 : out = 0
    · -- nothing is captured
      rw [if_neg (not_not.2 h0)]
      refine ⟨⟨hi.ready, fun p hp => hi.alive p ((huse p).1 hp), ?_, honce⟩, hproc₂, hnodup,
        fun p hp => hi.room p ((huse p).1 hp)⟩
      intro p hp
      rw [husers, if_neg (by rw [h0]; exact hp.1.symm)]
      exact hi.count p ((huse p).1 hp)
    · rw [if_pos h0]
      have hbuf := hused h0
      have hcount := hi.count out hbuf
      have hlt := hi.procs_lt
      have hle := users_le s₁ out
      have hadd : add32 (s₁.heap.refcount out) 1 = s₁.users out + 1 := by
        rw [hcount]
        exact add32_of_lt (by omega)
      obtain ⟨hready, hkept, hval, hroom⟩ :=
        setRefcount_ready hi.ready (hi.alive out hbuf) (hi.room out hbuf) (show s₁.users out + 1 < 2 ^ 32 by omega)
      have hother : ∀ p, s₂.InUse p → p ≠ out → (s₁.heap.setRefcount out (s₁.users out + 1)).refcount p = s₁.users p ∧
          procStdoutSize ≤ (s₁.heap.setRefcount out (s₁.users out + 1)).payload p := by
        intro p hp hne
        have hp₁ := (huse p).1 hp
        obtain ⟨hcnt, hrm⟩ := refcount_kept hkept ⟨hi.alive p hp₁, hne⟩ (hi.room p hp₁)
        exact ⟨hcnt.trans (hi.count p hp₁), hrm⟩
      have hheap : s₂.heap.setRefcount out (add32 (s₂.heap.refcount out) 1) = s₁.heap.setRefcount out
        (s₁.users out + 1) :=
        congrArg _ hadd
      rw [hheap]
      refine ⟨⟨hready, fun p hp => hi.alive p ((huse p).1 hp), ?_, honce⟩, hproc₂, hnodup, ?_⟩
      · intro p hp
        show Heap.refcount _ p = s₂.users p
        rw [husers]
        by_cases hpo : p = out
        · subst hpo
          rw [if_pos rfl]
          exact hval
        · rw [if_neg (Ne.symm hpo)]
          exact (hother p hp hpo).1
      · intro p hp
        by_cases hpo : p = out
        · subst hpo
          exact hroom
        · exact (hother p hp hpo).2
  · rw [← h, ← hfreed]
    unfold procStdoutRetain
    split_ifs <;> rfl
  · intro p hp
    rw [← h]
    have hp₂ : s₂.InUse p := (huse p).2 ((hsame p).2 hp)
    unfold procStdoutRetain
    split_ifs <;> exact hp₂

/-! ### A buffer for a process -/

/-- The users of a buffer, without one process. -/
theorem users_erase (hq : q ∈ s.procs) :
    s.users p = ((s.procs.erase q).countP fun r => s.stdout r = p) + if s.stdout q = p then 1 else 0 := by
  unfold users
  rw [(List.perm_cons_erase hq).countP_eq, List.countP_cons]
  simp only [decide_eq_true_eq]

/-- What one process points to does not matter for the others. -/
theorem countP_erase (hn : s.procs.Nodup) : ((s.procs.erase q).countP fun r => Function.update s.stdout q out r = p) =
    (s.procs.erase q).countP fun r => s.stdout r = p := by
  apply List.countP_congr
  intro r hr
  have hne : r ≠ q := (hn.mem_erase_iff.1 hr).1
  rw [Function.update_of_ne hne]

/-- A process without a buffer gets one. -/
theorem users_update (hn : s.procs.Nodup) (hq : q ∈ s.procs) (h0 : s.stdout q = 0) (hp : p ≠ 0) :
    ({ s with stdout := Function.update s.stdout q out } : StdoutSys).users p =
      s.users p + if out = p then 1 else 0 := by
  have hleft : ({ s with stdout := Function.update s.stdout q out } : StdoutSys).users p =
      ((s.procs.erase q).countP fun r => Function.update s.stdout q out r = p) +
        if Function.update s.stdout q out q = p then 1 else 0 :=
    users_erase (s := { s with stdout := Function.update s.stdout q out }) hq
  rw [hleft, countP_erase hn, Function.update_self, users_erase hq, h0, if_neg (Ne.symm hp), Nat.add_zero]

/-- **`syscall_maketty`** makes a buffer with one user. -/
theorem maketty_inv (hs : StdoutInv s) {c : StdoutCall} (hq : q ∈ s.procs) (h : s.syscallMaketty q = some t) :
    StdoutInv t ∧ FreedAtLast s c t := by
  unfold syscallMaketty at h
  by_cases h0 : s.stdout q = 0
  · rw [if_neg (not_not.2 h0)] at h
    obtain ⟨⟨out, s₁⟩, hk, h⟩ := Option.bind_eq_some_iff.1 h
    obtain ⟨hi, hfresh, hfit, hlive, hprocs, hstdout, hmade, hfreed⟩ := kmalloc_inv hs (by decide) (by decide) hk
    simp only [Option.pure_def, Option.some.injEq] at h
    have hout : out ∈ s₁.live := hlive ▸ Finset.mem_insert_self out s.live
    have hout0 : out ≠ 0 := ne_zero_of_live hi.ready hout
    have hsame : ∀ p, s₁.InUse p ↔ s.InUse p := by
      intro p
      unfold InUse
      rw [hprocs, hstdout]
    have hunused : ¬ s₁.InUse out := by
      rw [hsame]
      exact fun hp => hfresh (hs.alive out hp)
    -- the new buffer is cleared, and its counter is set
    set h₂ : Heap := { s₁.heap with mem := copyIn s₁.heap.mem out (List.replicate procStdoutSize 0) } with hh₂
    obtain ⟨hready₂, hkept₂, hpay₂⟩ := write_ready hi.ready hout (List.replicate procStdoutSize 0) (i := 0) (by
      rw [List.length_replicate]
      omega)
    rw [Nat.add_zero, ← hh₂] at hready₂ hkept₂ hpay₂
    obtain ⟨hready, hkept, hval, hroom⟩ :=
      setRefcount_ready hready₂ hout (hfit.trans hpay₂.ge) (show 1 < 2 ^ 32 by norm_num)
    have hother : ∀ p, s₁.InUse p → (h₂.setRefcount out 1).refcount p = s₁.users p ∧
        procStdoutSize ≤ (h₂.setRefcount out 1).payload p := by
      intro p hp
      have hne : p ≠ out := by
        rintro rfl
        exact hunused hp
      obtain ⟨hcnt, hrm⟩ := refcount_kept (hkept₂.trans hkept) ⟨hi.alive p hp, hne⟩ (hi.room p hp)
      exact ⟨hcnt.trans (hi.count p hp), hrm⟩
    have husers : ∀ p, p ≠ 0 → t.users p = s₁.users p + if out = p then 1 else 0 := by
      intro p hp
      rw [← h]
      exact users_update hi.nodup (hprocs ▸ hq) (by rw [hstdout]; exact h0) hp
    have huse : ∀ p, t.InUse p ↔ s₁.InUse p ∨ p = out := by
      intro p
      rw [inUse_iff, inUse_iff]
      by_cases hp : p = 0
      · exact iff_of_false (fun hu => hu.1 hp) (fun hu => hu.elim (fun h => h.1 hp) fun h => hout0 (h ▸ hp))
      · rw [husers p hp]
        by_cases hpo : out = p
        · rw [if_pos hpo]
          exact iff_of_true ⟨hp, Nat.succ_pos _⟩ (.inr hpo.symm)
        · rw [if_neg hpo, Nat.add_zero, or_iff_left fun h => hpo h.symm]
    have htheap : t.heap = h₂.setRefcount out 1 := by rw [← h]
    have htlive : t.live = s₁.live := by rw [← h]
    have htprocs : t.procs = s₁.procs := by rw [← h]
    have htmade : t.made = out :: s₁.made := by rw [← h]
    have htfreed : t.freed = s₁.freed := by rw [← h]
    refine ⟨⟨⟨?_, ?_, ?_, ?_⟩, ?_, htprocs ▸ hi.nodup, ?_⟩, .of_grow (htfreed.trans hfreed) ?_⟩
    · rw [htheap, htlive]
      exact hready
    · intro p hp
      rw [htlive]
      rcases (huse p).1 hp with hp | rfl
      · exact hi.alive p hp
      · exact hout
    · intro p hp
      rw [htheap, husers p hp.1]
      rcases (huse p).1 hp with hp | rfl
      · have hne : out ≠ p := by
          rintro rfl
          exact hunused hp
        rw [if_neg hne, Nat.add_zero]
        exact (hother p hp).1
      · have hzero : s₁.users p = 0 := by
          by_contra hpos
          exact hunused (inUse_iff.2 ⟨hout0, Nat.pos_of_ne_zero hpos⟩)
        rw [if_pos rfl, hzero]
        exact hval
    · intro p
      have honce := hi.once p
      rw [htmade, htfreed, List.count_cons]
      simp only [huse p, beq_iff_eq]
      by_cases hpo : out = p
      · subst hpo
        rw [if_neg hunused] at honce
        rw [if_pos rfl, if_pos (.inr rfl)]
        omega
      · rw [if_neg hpo]
        simp only [or_iff_left (Ne.symm hpo)]
        omega
    · intro r hr
      rw [htprocs] at hr
      obtain ⟨hrl, hru⟩ := hi.procs r hr
      refine ⟨htlive ▸ hrl, fun hu => ?_⟩
      rcases (huse r).1 hu with hu | rfl
      · exact hru hu
      · rw [hprocs] at hr
        exact hfresh (hs.procs r hr).1
    · intro p hp
      rw [htheap]
      rcases (huse p).1 hp with hp | rfl
      · exact (hother p hp).2
      · exact hroom
    · intro p hp
      exact (huse p).2 (.inl ((hsame p).2 hp))
  · rw [if_pos h0] at h
    obtain rfl := Option.some.inj h
    exact ⟨hs, .of_grow rfl fun _ hp => hp⟩

/-! ### The exit of a process -/

/-- **`proc_stdout_release`** of a buffer in use: it is freed if there is one user, else it has one less. -/
theorem release_cases (hs : StdoutInv s) (hu : s.InUse out) :
    ∃ h', KeptIn (↑s.live \ {out}) s.heap h' ∧
      ((s.users out = 1 ∧ BlocksReady (h', ↑(s.live.erase out)) ∧
          s.procStdoutRelease out = { s with heap := h', live := s.live.erase out, freed := out :: s.freed }) ∨
        (1 < s.users out ∧ BlocksReady (h', ↑s.live) ∧ h'.refcount out = s.users out - 1 ∧
          procStdoutSize ≤ h'.payload out ∧ s.procStdoutRelease out = { s with heap := h' })) := by
  obtain ⟨h0, hpos⟩ := inUse_iff.1 hu
  have hcount := hs.count out hu
  have hlt := hs.procs_lt
  have hle := users_le s out
  obtain ⟨hready, hkept, hval, hroom⟩ :=
    setRefcount_ready hs.ready (hs.alive out hu) (hs.room out hu) (show s.users out - 1 < 2 ^ 32 by omega)
  set h₁ := s.heap.setRefcount out (s.users out - 1) with hh₁
  have hrelease : s.procStdoutRelease out =
      if s.users out - 1 = 0 then { s with heap := h₁.kfree out, live := s.live.erase out, freed := out :: s.freed }
      else { s with heap := h₁ } := by
    unfold procStdoutRelease
    simp only [if_neg h0, hcount]
    rw [if_pos hpos]
    simp only [← hh₁, hval]
  rw [hrelease]
  by_cases h1 : s.users out - 1 = 0
  · obtain ⟨hready', hkept'⟩ := kfree_kept hready (hs.alive out hu)
    rw [if_pos h1]
    refine ⟨h₁.kfree out, hkept.trans hkept', .inl ⟨by omega, ?_, rfl⟩⟩
    rw [Finset.coe_erase]
    exact hready'
  · rw [if_neg h1]
    exact ⟨h₁, hkept, .inr ⟨by omega, hready, hval, hroom, rfl⟩⟩

/-- The users of the buffers when `q` has gone. -/
theorem users_gone (hn : s.procs.Nodup) (hq : q ∈ s.procs) {s₁ : StdoutSys} (hp₁ : s₁.procs = s.procs)
    (hs₁ : s₁.stdout = s.stdout) :
    s.users p = ({ s₁ with procs := s₁.procs.erase q, stdout := Function.update s₁.stdout q 0 } : StdoutSys).users p +
      if s.stdout q = p then 1 else 0 := by
  rw [users_erase hq]
  congr 1
  unfold users
  simp only [hp₁, hs₁]
  rw [countP_erase hn]

/-- **`proc_exit`** frees the buffer whose last process this was. -/
theorem exit_inv (hs : StdoutInv s) (hq : q ∈ s.procs) :
    StdoutInv (s.procExit q) ∧ FreedAtLast s (.exit q) (s.procExit q) := by
  have hexit : s.procExit q = { s.procStdoutRelease (s.stdout q) with
      procs := (s.procStdoutRelease (s.stdout q)).procs.erase q
      stdout := Function.update (s.procStdoutRelease (s.stdout q)).stdout q 0 } := rfl
  have hsub : ∀ {r : ℕ}, r ∈ s.procs.erase q → r ∈ s.procs := fun hr => List.mem_of_mem_erase hr
  by_cases h0 : s.stdout q = 0
  · have hsame : s.procStdoutRelease (s.stdout q) = s := if_pos h0
    rw [hsame] at hexit
    rw [hexit]
    have husers : ∀ p, p ≠ 0 →
        s.users p =
          ({ s with procs := s.procs.erase q, stdout := Function.update s.stdout q 0 } : StdoutSys).users p := by
      intro p hp
      have h1 := users_gone (p := p) hs.nodup hq (rfl : s.procs = s.procs) rfl
      rwa [h0, if_neg (Ne.symm hp), Nat.add_zero] at h1
    have huse : ∀ p, InUse { s with procs := s.procs.erase q, stdout := Function.update s.stdout q 0 } p ↔
      s.InUse p := by
      intro p
      rw [inUse_iff, inUse_iff]
      exact and_congr_right fun hp => by rw [husers p hp]
    refine ⟨⟨⟨hs.ready, fun p hp => hs.alive p ((huse p).1 hp), ?_, ?_⟩, ?_, hs.nodup.erase q,
      fun p hp => hs.room p ((huse p).1 hp)⟩, .of_grow rfl fun p hp => (huse p).2 hp⟩
    · intro p hp
      rw [← husers p hp.1]
      exact hs.count p ((huse p).1 hp)
    · intro p
      simp only [huse p]
      exact hs.once p
    · intro r hr
      rw [huse]
      exact hs.procs r (hsub hr)
  have hu : s.InUse (s.stdout q) := ⟨h0, q, hq, rfl⟩
  set out := s.stdout q with hout
  obtain ⟨h', hkept, hcases⟩ := release_cases hs hu
  have hother : ∀ p, s.InUse p → p ≠ out → h'.refcount p = s.users p ∧ procStdoutSize ≤ h'.payload p := by
    intro p hp hne
    obtain ⟨hcnt, hrm⟩ := refcount_kept hkept ⟨hs.alive p hp, hne⟩ (hs.room p hp)
    exact ⟨hcnt.trans (hs.count p hp), hrm⟩
  -- the processes afterwards
  set t := s.procExit q with ht
  obtain ⟨hrp, hrs, hrm⟩ : (s.procStdoutRelease out).procs = s.procs ∧ (s.procStdoutRelease out).stdout = s.stdout ∧
      (s.procStdoutRelease out).made = s.made := by
    rcases hcases with ⟨-, -, heq⟩ | ⟨-, -, -, -, heq⟩ <;> rw [heq] <;> exact ⟨rfl, rfl, rfl⟩
  have husers : ∀ p, s.users p = t.users p + if out = p then 1 else 0 := by
    intro p
    rw [hexit]
    exact users_gone hs.nodup hq hrp hrs
  have hshrink : ∀ p, t.InUse p → s.InUse p := by
    intro p hp
    obtain ⟨hp0, hpos⟩ := inUse_iff.1 hp
    refine inUse_iff.2 ⟨hp0, ?_⟩
    rw [husers]
    exact Nat.lt_add_right _ hpos
  have hstay : ∀ p, p ≠ out → (t.InUse p ↔ s.InUse p) := by
    intro p hne
    rw [inUse_iff, inUse_iff, husers p, if_neg (Ne.symm hne), Nat.add_zero]
  have htprocs : t.procs = s.procs.erase q := by
    rw [hexit]
    show (s.procStdoutRelease out).procs.erase q = _
    rw [hrp]
  have htmade : t.made = s.made := by
    rw [hexit]
    exact hrm
  have hnodup : t.procs.Nodup := htprocs ▸ hs.nodup.erase q
  have hexits : ∀ p, s.InUse p → ¬ t.InUse p → ∃ r ∈ s.procs, StdoutCall.exit q = .exit r ∧ s.stdout r = p := by
    intro p hp hnot
    refine ⟨q, hq, rfl, ?_⟩
    by_contra hne
    exact hnot ((hstay p (Ne.symm hne)).2 hp)
  rcases hcases with ⟨hone, hready, heq⟩ | ⟨hmore, hready, hval, hroom, heq⟩
  · have hgone : ¬ t.InUse out := by
      rw [inUse_iff]
      have h1 := husers out
      rw [if_pos rfl] at h1
      omega
    have htheap : t.heap = h' := by rw [hexit, heq]
    have htlive : t.live = s.live.erase out := by rw [hexit, heq]
    have htfreed : t.freed = out :: s.freed := by rw [hexit, heq]
    have hne : ∀ {p}, t.InUse p → p ≠ out := by
      rintro p hp rfl
      exact hgone hp
    refine ⟨⟨⟨?_, ?_, ?_, ?_⟩, ?_, hnodup, ?_⟩, ⟨?_, hexits⟩⟩
    · rw [htheap, htlive]
      exact hready
    · intro p hp
      rw [htlive]
      exact Finset.mem_erase.2 ⟨hne hp, hs.alive p (hshrink p hp)⟩
    · intro p hp
      rw [htheap, (hother p (hshrink p hp) (hne hp)).1, husers p, if_neg (Ne.symm (hne hp)), Nat.add_zero]
    · intro p
      have honce := hs.once p
      rw [htmade, htfreed, List.count_cons]
      simp only [beq_iff_eq]
      by_cases hpo : out = p
      · subst hpo
        rw [if_pos hu] at honce
        rw [if_pos rfl, if_neg hgone]
        omega
      · simp only [hstay p (Ne.symm hpo)]
        rw [if_neg hpo]
        omega
    · intro r hr
      rw [htprocs] at hr
      obtain ⟨hrl, hru⟩ := hs.procs r (hsub hr)
      refine ⟨?_, fun hp => hru (hshrink r hp)⟩
      rw [htlive]
      refine Finset.mem_erase.2 ⟨?_, hrl⟩
      rintro rfl
      exact hru hu
    · intro p hp
      rw [htheap]
      exact (hother p (hshrink p hp) (hne hp)).2
    · intro p
      rw [htfreed, List.count_cons]
      simp only [beq_iff_eq]
      by_cases hpo : out = p
      · subst hpo
        rw [if_pos rfl, if_pos ⟨hu, hgone⟩]
      · have hstill : ¬ (s.InUse p ∧ ¬ t.InUse p) := by
          rw [hstay p (Ne.symm hpo)]
          exact and_not_self
        rw [if_neg hpo, if_neg hstill]
  · have hstill : ∀ p, t.InUse p ↔ s.InUse p := by
      intro p
      by_cases hpo : out = p
      · subst hpo
        refine iff_of_true (inUse_iff.2 ⟨h0, ?_⟩) hu
        have h1 := husers out
        rw [if_pos rfl] at h1
        omega
      · exact hstay p (Ne.symm hpo)
    have htheap : t.heap = h' := by rw [hexit, heq]
    have htlive : t.live = s.live := by rw [hexit, heq]
    have htfreed : t.freed = s.freed := by rw [hexit, heq]
    refine ⟨⟨⟨?_, ?_, ?_, ?_⟩, ?_, hnodup, ?_⟩, .of_grow htfreed fun p hp => (hstill p).2 hp⟩
    · rw [htheap, htlive]
      exact hready
    · intro p hp
      rw [htlive]
      exact hs.alive p (hshrink p hp)
    · intro p hp
      rw [htheap]
      have h1 := husers p
      by_cases hpo : out = p
      · subst hpo
        rw [if_pos rfl] at h1
        omega
      · rw [if_neg hpo] at h1
        rw [(hother p (hshrink p hp) (Ne.symm hpo)).1, h1, Nat.add_zero]
    · intro p
      rw [htmade, htfreed]
      simp only [hstill p]
      exact hs.once p
    · intro r hr
      rw [htprocs] at hr
      obtain ⟨hrl, hru⟩ := hs.procs r (hsub hr)
      exact ⟨htlive ▸ hrl, fun hp => hru (hshrink r hp)⟩
    · intro p hp
      rw [htheap]
      by_cases hpo : p = out
      · rw [hpo]
        exact hroom
      · exact (hother p (hshrink p hp) hpo).2

/-! ### Runs -/

theorem step_inv {c : StdoutCall} (hs : StdoutInv s) (h : s.step c = some t) : StdoutInv t ∧ FreedAtLast s c t := by
  cases c with
  | other op =>
    obtain ⟨hi, hprocs, hstdout, -, hfreed⟩ := other_inv hs h
    refine ⟨hi, .of_grow hfreed fun p hp => ?_⟩
    unfold InUse at hp ⊢
    rwa [hprocs, hstdout]
  | exec parent =>
    unfold step at h
    simp only at h
    split_ifs at h with hpar
    exact exec_inv hs hpar h
  | maketty q =>
    unfold step at h
    simp only at h
    split_ifs at h with hq
    exact maketty_inv hs hq h
  | exit q =>
    unfold step at h
    simp only at h
    split_ifs at h with hq
    obtain rfl := Option.some.inj h
    exact exit_inv hs hq

/-- The kernel before the first allocation. -/
def start (m : ℕ → UInt8) : StdoutSys := ⟨⟨m, 0, 0, 0⟩, [], fun _ => 0, ∅, [], []⟩

theorem start_inv (m : ℕ → UInt8) : StdoutInv (start m) := by
  have hnone : ∀ p, ¬ (start m).InUse p := by
    rintro p ⟨-, q, hq, -⟩
    exact absurd hq List.not_mem_nil
  refine ⟨⟨.inl ⟨rfl, rfl, Finset.coe_empty⟩, fun p hp => absurd hp (hnone p), fun p hp => absurd hp (hnone p),
    ?_⟩, ?_, List.nodup_nil, fun p hp => absurd hp (hnone p)⟩
  · intro p
    rw [if_neg (hnone p)]
    rfl
  · intro q hq
    exact absurd hq List.not_mem_nil

/-- **Captured output lives as long as its processes.** In every run, after every step: the buffer of a live
process is a live block whose counter is the number of live processes that point to it, each buffer
that was made was freed once or is in use, and a step frees the buffers whose last process exits. -/
theorem stdout_counted (m : ℕ → UInt8) (calls : List StdoutCall) :
    AllSteps StdoutSys.step (fun s c t => Counted t ∧ FreedAtLast s c t) (start m) calls :=
  allSteps_of (I := StdoutInv) (fun _ _ _ hs h =>
    ⟨(step_inv hs h).1, (step_inv hs h).1.toCounted, (step_inv hs h).2⟩) (start_inv m) calls

/-- A process makes a buffer that its child shares; both exit. -/
example : ([.exec none, .maketty 0xC0400014, .exec (some 0xC0400014), .exit 0xC0400014, .exit 0xC0401574].foldlM
    StdoutSys.step (start fun _ => 0)).map (fun t => (t.procs, t.made, t.freed)) =
      some ([], [0xC0400558], [0xC0400558]) := by decide +kernel

end StdoutSys

end Saynaa
