import Saynaa.Proof.UserMalloc

/-!
# A process and its heap

* `HeapRun.step`: one call, or a byte written into a live payload. Requests and the break
  stay below `2^31`.
* `GoodPtr`: what a caller may expect of a pointer it holds; `Meets`: what a call promises.
* `user_heap`: every call of a run keeps its promises exactly when every request finds a free
  block, or the kernel tells where the break is and the end of the new block is below `2^32`.
* `user_heap_wraps`: two requests below `2^31`, of which the second gets memory behind the break.
-/

namespace Saynaa

open Lib Heap UserHeap

/-- What a caller asked for. -/
structure Request where
  align : ℕ
  size : ℕ
  deriving DecidableEq

/-- A process: its heap, what it asked for the pointers that are live, and the last result. -/
structure HeapRun where
  u : UserHeap
  live : ℕ → Option Request
  result : ℕ

/-- A call, where `malloc` is the one with `MIN_ALIGN`, or a byte that the process writes. -/
inductive HeapCall where
  | alignedAlloc (g : Grants) (align size : ℕ)
  | free (p : ℕ)
  | realloc (g : Grants) (p size : ℕ)
  | write (p i : ℕ) (v : UInt8)

namespace HeapRun

/-- The pointers that are live. -/
def held (s : HeapRun) : Set ℕ := {p | (s.live p).isSome}

/-- Any result but `NULL` is live. -/
def give (live : ℕ → Option Request) (r : Request) (x : ℕ × UserHeap) : Option HeapRun :=
  if x.2.brk < 2 ^ 31 then some ⟨x.2, if x.1 = 0 then live else Function.update live x.1 (some r), x.1⟩ else none

def step (s : HeapRun) : HeapCall → Option HeapRun
  | .alignedAlloc g align size =>
    if AlignOK align ∧ size < 2 ^ 31 then (s.u.alignedAlloc g align size).bind (give s.live ⟨align, size⟩) else none
  | .free p => if (s.live p).isSome then some ⟨s.u.free p, Function.update s.live p none, 0⟩ else none
  | .realloc g p size =>
    if (p = 0 ∨ (s.live p).isSome) ∧ size < 2 ^ 31 then
      (s.u.realloc g p size).bind fun x =>
        give (if x.1 ≠ 0 ∨ size = 0 then Function.update s.live p none else s.live) ⟨minAlign, size⟩ x
    else none
  | .write p i v =>
    if (s.live p).isSome ∧ i < s.u.heap.payload p then
      some { s with u := { s.u with heap := { s.u.heap with mem := copyIn s.u.heap.mem (p + i) [v] } }, result := 0 }
    else none

/-- **A pointer that serves its request**, in a heap from the first break `lo` to the break. -/
structure GoodPtr (lo : ℕ) (s : HeapRun) (p : ℕ) (r : Request) : Prop where
  aligned : p % r.align = 0
  enough : r.size ≤ s.u.heap.payload p
  first_le : lo ≤ p
  le_brk : p + s.u.heap.payload p ≤ s.u.brk
  apart : ∀ q ∈ s.held, q ≠ p → p + s.u.heap.payload p ≤ q ∨ q + s.u.heap.payload q ≤ p
  headers : ∀ a, Relation.ReflTransGen (fun x y => s.u.heap.next x = y ∧ y ≠ 0) s.u.heap.bottom a →
    p + s.u.heap.payload p ≤ a ∨ a + headerSize ≤ p

/-- **What a call promises**: good pointers, a result that was not live, payloads that stay as
they are, and the old bytes behind the result of `realloc`. -/
structure Meets (lo : ℕ) (s : HeapRun) (c : HeapCall) (t : HeapRun) : Prop where
  good : ∀ p r, t.live p = some r → GoodPtr lo t p r
  fresh : t.result ≠ 0 → s.live t.result = none
  kept : ∀ p i, p ∈ s.held → p ∈ t.held → i < s.u.heap.payload p → (∀ v, c ≠ .write p i v) →
    t.u.heap.mem (p + i) = s.u.heap.mem (p + i)
  moved : ∀ g p size, c = .realloc g p size → p ≠ 0 → t.result ≠ 0 →
    ∀ i < min (s.u.heap.payload p) size, t.u.heap.mem (t.result + i) = s.u.heap.mem (p + i)

/-- The request of a call is granted, if it makes one. -/
def Granted (s : HeapRun) : HeapCall → Prop
  | .alignedAlloc g align size => s.u.Granted g align size
  | .realloc g p size => (p ≠ 0 ∧ size = 0) ∨ s.u.Granted g minAlign size
  | _ => True

/-- The heap of a run. -/
structure HeapOK (lo : ℕ) (s : HeapRun) : Prop where
  has : HasIn lo s.u s.held
  low : s.u.brk < 2 ^ 31
  fits : ∀ p r, s.live p = some r → p % r.align = 0 ∧ r.size ≤ s.u.heap.payload p

/-- A process before its first call. -/
structure Started (lo : ℕ) (s : HeapRun) : Prop where
  first : FirstBreak lo
  brk : s.u.brk = lo
  top : s.u.heap.top = 0
  live : ∀ p, s.live p = none

variable {lo : ℕ} {s t : HeapRun} {c : HeapCall}

theorem Started.ok (h : Started lo s) : HeapOK lo s := by
  refine ⟨.inl ⟨h.top, h.brk, Set.eq_empty_iff_forall_notMem.2 ?_⟩, ?_, ?_⟩
  · intro p hp
    unfold held at hp
    rw [Set.mem_ofPred_eq, h.live p] at hp
    exact nomatch hp
  · rw [h.brk]
    exact Nat.lt_of_add_right_lt h.first.2
  · intro p r hp
    rw [h.live p] at hp
    exact nomatch hp

theorem HeapOK.good (h : HeapOK lo s) {p : ℕ} {r : Request} (hp : s.live p = some r) : GoodPtr lo s p r := by
  have hheld : p ∈ s.held := Option.isSome_iff_exists.2 ⟨r, hp⟩
  obtain ⟨hal, hfit⟩ := h.fits p r hp
  obtain ⟨hlo, hbrk⟩ := h.has.inside hheld
  exact ⟨hal, hfit, hlo, hbrk, fun q hq hne => h.has.apart hheld hq hne, fun a ha => h.has.headers hheld ha⟩

theorem mem_held {p : ℕ} : p ∈ s.held ↔ s.live p ≠ none := by
  unfold held
  rw [Set.mem_ofPred_eq, Option.isSome_iff_ne_none]

/-- The pointers behind a change of one entry. -/
theorem held_update (live : ℕ → Option Request) (u u' : UserHeap) (p n m : ℕ) :
    (∀ r, held ⟨u, Function.update live p (some r), n⟩ = insert p (held ⟨u', live, m⟩)) ∧
      held ⟨u, Function.update live p none, n⟩ = held ⟨u', live, m⟩ \ {p} := by
  constructor
  · intro r
    ext q
    rw [mem_held, Set.mem_insert_iff, mem_held]
    by_cases hq : q = p <;> simp [hq]
  · ext q
    rw [mem_held, Set.mem_sdiff, mem_held, Set.mem_singleton_iff]
    by_cases hq : q = p <;> simp [hq]

theorem of_update_none {live : ℕ → Option Request} {p q : ℕ} {r : Request}
    (h : Function.update live p none q = some r) : live q = some r := by
  by_cases hq : q = p
  · rw [hq, Function.update_self] at h
    exact nomatch h
  · rwa [Function.update_of_ne hq] at h

theorem give_cases {live : ℕ → Option Request} {r : Request} {x : ℕ × UserHeap} (h : give live r x = some t) :
    x.2.brk < 2 ^ 31 ∧ t = ⟨x.2, if x.1 = 0 then live else Function.update live x.1 (some r), x.1⟩ := by
  unfold give at h
  by_cases hlow : x.2.brk < 2 ^ 31
  · rw [if_pos hlow] at h
    exact ⟨hlow, (Option.some.inj h).symm⟩
  · rw [if_neg hlow] at h
    exact nomatch h

/-- A step with its promises, from what it does to the heap. -/
theorem meets_of (ht : HeapOK lo t) (hfresh : t.result ≠ 0 → s.live t.result = none)
    (hkept : KeptIn (s.held ∩ t.held) s.u.heap t.u.heap)
    (hc : ∀ g p size, c = .realloc g p size → p ≠ 0 → t.result = 0) : HeapOK lo t ∧ Meets lo s c t :=
  ⟨ht, fun _ _ hp => ht.good hp, hfresh, fun p i hs ht hi _ => (hkept p ⟨hs, ht⟩).2 i hi,
    fun g p size h hp h0 => absurd (hc g p size h hp) h0⟩

/-- What was asked for is there as long as payloads stay as they are. -/
theorem HeapOK.fits_kept (hs : HeapOK lo s) {live : ℕ → Option Request} {u' : UserHeap} {n : ℕ}
    (hsub : ∀ p r, live p = some r → s.live p = some r)
    (hkept : KeptIn (held ⟨u', live, n⟩) s.u.heap u'.heap) (p : ℕ) (r : Request) (hp : live p = some r) :
    p % r.align = 0 ∧ r.size ≤ u'.heap.payload p := by
  have hmem : p ∈ held ⟨u', live, n⟩ := Option.isSome_iff_exists.2 ⟨r, hp⟩
  rw [(hkept p hmem).1]
  exact hs.fits p r (hsub p r hp)

/-- **A result that is given** to the caller, next to pointers that it keeps. -/
theorem HeapOK.give (hs : HeapOK lo s) (live : ℕ → Option Request) {r : Request} {x : ℕ × UserHeap}
    (hsub : ∀ p r, live p = some r → s.live p = some r)
    (hkept : KeptIn (held ⟨x.2, live, 0⟩) s.u.heap x.2.heap)
    (hlow : x.2.brk < 2 ^ 31) (hx : (x.1 = 0 ∧ HasIn lo x.2 (held ⟨x.2, live, 0⟩)) ∨
      (x.1 ≠ 0 ∧ HasIn lo x.2 (insert x.1 (held ⟨x.2, live, 0⟩)) ∧ x.1 % r.align = 0 ∧
        r.size ≤ x.2.heap.payload x.1)) :
    HeapOK lo ⟨x.2, if x.1 = 0 then live else Function.update live x.1 (some r), x.1⟩ := by
  rcases hx with ⟨h0, hh⟩ | ⟨h0, hh, hal, hfit⟩
  · rw [if_pos h0]
    exact ⟨hh, hlow, hs.fits_kept hsub hkept⟩
  · rw [if_neg h0]
    refine ⟨?_, hlow, ?_⟩
    · rw [(held_update live x.2 x.2 x.1 x.1 0).1 r]
      exact hh
    · intro p r' hp
      change Function.update live x.1 (some r) p = some r' at hp
      by_cases hpx : p = x.1
      · rw [hpx, Function.update_self] at hp
        obtain rfl := Option.some.inj hp
        rw [hpx]
        exact ⟨hal, hfit⟩
      · rw [Function.update_of_ne hpx] at hp
        exact hs.fits_kept hsub hkept p r' hp

/-- **A granted `aligned_alloc`.** -/
theorem HeapOK.alloc (hlo : FirstBreak lo) (hs : HeapOK lo s) {g : Grants} {align size p : ℕ} {u' : UserHeap}
    (ha : AlignOK align) (hsz : size < 2 ^ 31) (hg : s.u.Granted g align size)
    (h : s.u.alignedAlloc g align size = some (p, u')) (hlow : u'.brk < 2 ^ 31) :
    HeapOK lo ⟨u', if p = 0 then s.live else Function.update s.live p (some ⟨align, size⟩), p⟩ ∧
      (p ≠ 0 → s.live p = none) ∧ KeptIn s.held s.u.heap u'.heap := by
  obtain ⟨hkept, hres⟩ := alloc_has hlo hs.has hs.low ha hsz hg h hlow
  refine ⟨hs.give s.live (x := (p, u')) (r := ⟨align, size⟩) (fun _ _ h => h) hkept hlow ?_, ?_, hkept⟩
  · rcases hres with ⟨h0, hh⟩ | ⟨h0, hh, -, hal, hfit⟩
    · exact .inl ⟨h0, hh⟩
    · exact .inr ⟨h0, hh, hal, hfit⟩
  · intro h0
    rcases hres with ⟨h0', -⟩ | ⟨-, -, hfresh, -⟩
    · exact absurd h0' h0
    · exact not_not.1 fun hn => hfresh (mem_held.2 hn)

theorem alloc_meets (hlo : FirstBreak lo) (hs : HeapOK lo s) {g : Grants} {align size : ℕ}
    (h : s.step (.alignedAlloc g align size) = some t) (hg : s.u.Granted g align size) :
    HeapOK lo t ∧ Meets lo s (.alignedAlloc g align size) t := by
  unfold step at h
  simp only at h
  split_ifs at h with hreq
  obtain ⟨⟨p, u'⟩, ha, hgive⟩ := Option.bind_eq_some_iff.1 h
  obtain ⟨hlow, rfl⟩ := give_cases hgive
  obtain ⟨hok, hfresh, hkept⟩ := hs.alloc hlo hreq.1 hreq.2 hg ha hlow
  exact meets_of hok hfresh (hkept.mono Set.inter_subset_left) (by simp)

/-- **`free`** of a live pointer. -/
theorem HeapOK.free (hs : HeapOK lo s) {p : ℕ} (hp : (s.live p).isSome) :
    HeapOK lo ⟨s.u.free p, Function.update s.live p none, 0⟩ ∧
      KeptIn (held ⟨s.u.free p, Function.update s.live p none, 0⟩) s.u.heap (s.u.free p).heap := by
  obtain ⟨hh, hkept⟩ := hs.has.free hp
  have hheld := (held_update s.live (s.u.free p) s.u p 0 s.result).2
  rw [hheld]
  refine ⟨⟨?_, (free_brk s.u p).trans_lt hs.low, hs.fits_kept (fun q r hq => of_update_none hq) (n := 0) ?_⟩, hkept⟩
  · rw [hheld]
    exact hh
  · rw [hheld]
    exact hkept

theorem free_meets (hs : HeapOK lo s) {p : ℕ} (h : s.step (.free p) = some t) :
    HeapOK lo t ∧ Meets lo s (.free p) t := by
  unfold step at h
  simp only at h
  split_ifs at h with hp
  obtain rfl := Option.some.inj h
  obtain ⟨hok, hkept⟩ := hs.free hp
  exact meets_of hok (fun h0 => absurd rfl h0) (hkept.mono Set.inter_subset_right) (by simp)

/-- **A byte written** into a live payload. -/
theorem write_meets (hs : HeapOK lo s) {p i : ℕ} {v : UInt8} (h : s.step (.write p i v) = some t) :
    HeapOK lo t ∧ Meets lo s (.write p i v) t := by
  unfold step at h
  simp only at h
  split_ifs at h with hg
  obtain rfl := Option.some.inj h
  obtain ⟨hh, hkept, hpay⟩ := hs.has.write (show p ∈ s.held from hg.1) [v] (i := i) hg.2 rfl
  have ht : HeapOK lo { s with
      u := { s.u with heap := { s.u.heap with mem := copyIn s.u.heap.mem (p + i) [v] } }, result := 0 } := by
    refine ⟨hh, hs.low, ?_⟩
    intro q r hq
    by_cases hqp : q = p
    · -- the block that is written
      subst hqp
      show _ ∧ r.size ≤ Heap.payload _ q
      rw [hpay]
      exact hs.fits q r hq
    · -- another block
      have hq' : q ∈ s.held \ {p} := ⟨Option.isSome_iff_exists.2 ⟨r, hq⟩, hqp⟩
      show _ ∧ r.size ≤ Heap.payload _ q
      rw [(hkept q hq').1]
      exact hs.fits q r hq
  refine ⟨ht, fun _ _ hq => ht.good hq, fun h0 => absurd rfl h0, ?_, by simp⟩
  intro q j hq _ hj hne
  by_cases hqp : q = p
  · subst hqp
    apply copyIn_out
    have hji : j ≠ i := by
      rintro rfl
      exact hne v rfl
    simp only [List.length_singleton]
    omega
  · exact (hkept q ⟨hq, hqp⟩).2 j hj

/-- `NULL` is not live. -/
theorem HeapOK.null (hs : HeapOK lo s) : s.live 0 = none := by
  by_contra hn
  exact hs.has.ne_zero (mem_held.2 hn) rfl

/-- **`realloc`**, when its request is granted. -/
theorem realloc_meets (hlo : FirstBreak lo) (hs : HeapOK lo s) {g : Grants} {p size : ℕ}
    (h : s.step (.realloc g p size) = some t) (hg : s.Granted (.realloc g p size)) :
    HeapOK lo t ∧ Meets lo s (.realloc g p size) t := by
  have ha : AlignOK minAlign := ⟨by decide, by decide, by decide⟩
  unfold step at h
  simp only at h
  split_ifs at h with hreq
  obtain ⟨⟨q, u'⟩, hr, hgive⟩ := Option.bind_eq_some_iff.1 h
  obtain ⟨hlow, rfl⟩ := give_cases hgive
  simp only at hlow
  by_cases hp0 : p = 0
  · -- `realloc(NULL, size)` is `malloc(size)`
    subst hp0
    have hlive : (if q ≠ 0 ∨ size = 0 then Function.update s.live 0 none else s.live) = s.live := by
      rw [← hs.null, Function.update_eq_self, ite_self]
    simp only [hlive]
    have hm : s.u.alignedAlloc g minAlign size = some (q, u') := hr
    obtain ⟨hok, hfresh, hkept⟩ := hs.alloc hlo ha hreq.2 (hg.resolve_left fun h => h.1 rfl) hm hlow
    refine meets_of hok hfresh (hkept.mono Set.inter_subset_left) ?_
    intro g' p' size' hc hp'
    cases hc
    exact absurd rfl hp'
  have hp : (s.live p).isSome := hreq.1.resolve_left hp0
  by_cases hs0 : size = 0
  · -- `realloc(ptr, 0)` is `free(ptr)`
    have hfree : s.u.realloc g p size = some (0, s.u.free p) := by
      unfold realloc
      rw [if_neg hp0, if_pos hs0]
    rw [hfree] at hr
    obtain ⟨rfl, rfl⟩ := Prod.mk.inj (Option.some.inj hr)
    simp only [hs0, or_true, if_true]
    obtain ⟨hok, hkept⟩ := hs.free hp
    exact meets_of hok (fun h0 => absurd rfl h0) (hkept.mono Set.inter_subset_right) (fun _ _ _ _ _ => rfl)
  have hgr : s.u.Granted g minAlign size := hg.resolve_left fun h => hs0 h.2
  obtain ⟨hkept, ⟨rfl, hh, hkept'⟩ | ⟨hq0, hh, hfresh, hal, hfit, hmoved⟩⟩ :=
    realloc_has hlo hs.has hs.low hp hreq.2 hs0 hgr hr hlow
  · simp only [hs0, ne_eq, not_true_eq_false, or_false, if_false, if_true]
    have hok : HeapOK lo ⟨u', s.live, 0⟩ := ⟨hh, hlow, hs.fits_kept (fun _ _ h => h) (n := 0) hkept'⟩
    exact meets_of hok (fun h0 => absurd rfl h0) (hkept'.mono Set.inter_subset_left) (fun _ _ _ _ _ => rfl)
  · simp only [hq0, ne_eq, not_false_eq_true, true_or, if_true, if_false]
    have hheld := (held_update s.live u' s.u p 0 s.result).2
    have hok := hs.give (Function.update s.live p none) (x := (q, u')) (r := ⟨minAlign, size⟩)
      (fun _ _ h => of_update_none h) (by rw [hheld]; exact hkept) hlow
        (.inr ⟨hq0, by rw [hheld]; exact hh, hal, hfit⟩)
    simp only [hq0, if_false] at hok
    refine ⟨hok, fun _ _ hq => hok.good hq, fun _ => not_not.1 fun hn => hfresh (mem_held.2 hn), ?_, ?_⟩
    · intro r i hold hnew hi _
      refine (hkept r ⟨hold, ?_⟩).2 i hi
      rintro rfl
      rw [mem_held] at hnew
      have hrq : r ≠ q := by
        rintro rfl
        exact hfresh hold
      exact hnew (by simp [hrq])
    · intro g' p' size' hc _ _
      cases hc
      exact hmoved

/-- **A granted step keeps the heap and its promises.** -/
theorem step_meets (hlo : FirstBreak lo) (hs : HeapOK lo s) (h : s.step c = some t) (hg : s.Granted c) :
    HeapOK lo t ∧ Meets lo s c t := by
  cases c with
  | alignedAlloc g align size => exact alloc_meets hlo hs h hg
  | free p => exact free_meets hs h
  | realloc g p size => exact realloc_meets hlo hs h hg
  | write p i v => exact write_meets hs h

/-- A result behind the break serves nobody. -/
theorem not_meets_of {p : ℕ} {r : Request} (hlive : t.live p = some r) (hbrk : t.u.brk < p) : ¬ Meets lo s c t := by
  intro hm
  have h1 := (hm.good p r hlive).le_brk
  omega

/-- **A step that is not granted** gives memory behind the break. -/
theorem step_breaks (hlo : FirstBreak lo) (hs : HeapOK lo s) (h : s.step c = some t) (hg : ¬ s.Granted c) :
    ¬ Meets lo s c t := by
  have ha : AlignOK minAlign := ⟨by decide, by decide, by decide⟩
  have hgiven : ∀ {live : ℕ → Option Request} {r : Request} {q : ℕ} {u' : UserHeap}, u'.brk < q →
      ¬ Meets lo s c ⟨u', if q = 0 then live else Function.update live q (some r), q⟩ := by
    intro live r q u' hlt
    have hq0 : q ≠ 0 := by omega
    exact not_meets_of (p := q) (r := r) (by simp [hq0]) hlt
  cases c with
  | alignedAlloc g align size =>
    unfold step at h
    simp only at h
    split_ifs at h with hreq
    obtain ⟨⟨q, u'⟩, hal, hgive⟩ := Option.bind_eq_some_iff.1 h
    obtain ⟨-, rfl⟩ := give_cases hgive
    exact hgiven (alloc_behind hlo hs.has hs.low hreq.1 hreq.2 hg hal)
  | realloc g p size =>
    unfold step at h
    simp only at h
    split_ifs at h with hreq
    obtain ⟨⟨q, u'⟩, hr, hgive⟩ := Option.bind_eq_some_iff.1 h
    obtain ⟨-, rfl⟩ := give_cases hgive
    obtain ⟨hsome, hno⟩ := not_or.1 hg
    apply hgiven
    by_cases hp0 : p = 0
    · subst hp0
      exact alloc_behind hlo hs.has hs.low ha hreq.2 hno hr
    · exact realloc_behind hlo hs.has hs.low (hreq.1.resolve_left hp0) hreq.2 (fun hs0 => hsome ⟨hp0, hs0⟩) hno hr
  | free p => exact absurd trivial hg
  | write p i v => exact absurd trivial hg

/-- **The heap of a process keeps its promises** in exactly the runs in which every request is granted. -/
theorem user_heap (h : Started lo s) (calls : List HeapCall) :
    AllSteps HeapRun.step (Meets lo) s calls ↔ AllSteps HeapRun.step (fun s c _ => s.Granted c) s calls :=
  allSteps_iff (I := HeapOK lo) (C := Granted) (fun _ _ _ hs => step_meets h.first hs)
    (fun _ _ _ hs => step_breaks h.first hs) h.ok calls

/-- A process whose program is one page. -/
def onePage : HeapRun := ⟨⟨⟨fun _ => 0, 0, 0, 0⟩, 0x2000⟩, fun _ => none, 0⟩

theorem onePage_started : Started 0x2000 onePage := ⟨by unfold FirstBreak headerSize; omega, rfl, rfl, fun _ => rfl⟩

def yes : Grants := ⟨true, true, true⟩

/-- `user_heap` for a process that allocates 10 bytes, makes them 20 and frees them. -/
theorem user_heap_onePage : AllSteps HeapRun.step (Meets 0x2000) onePage
    [.alignedAlloc yes 4 10, .realloc yes 0x2014 20, .free 0x2030] ↔
      AllSteps HeapRun.step (fun s c _ => s.Granted c) onePage
        [.alignedAlloc yes 4 10, .realloc yes 0x2014 20, .free 0x2030] :=
  user_heap onePage_started _

/-- **Two requests below `2^31`.** The first one moves the break to `0x7FFFFFFC`; the end of the second
is `8` in 32 bits, and its payload is behind the break, which stays. -/
theorem user_heap_wraps : Started 0x2000 onePage ∧ ¬ AllSteps HeapRun.step (Meets 0x2000) onePage
    ([.alignedAlloc yes 4 0x7FFFDFE8] ++ [.alignedAlloc yes 4 0x7FFFFFFF]) := by
  refine ⟨onePage_started, ?_⟩
  intro h
  have hrun : (([.alignedAlloc yes 4 0x7FFFDFE8].foldlM step onePage).bind fun s =>
      (s.step (.alignedAlloc yes 4 0x7FFFFFFF)).map fun t => (t.live 0x80000008, t.u.brk)) =
        some (some ⟨4, 0x7FFFFFFF⟩, 0x7FFFFFFC) := by decide +kernel
  obtain ⟨s, hs, hlast⟩ := Option.bind_eq_some_iff.1 hrun
  obtain ⟨t, ht, hpair⟩ := Option.map_eq_some_iff.1 hlast
  obtain ⟨hlive, hbrk⟩ := Prod.mk.inj hpair
  exact not_meets_of hlive (by omega) (h.last hs ht)

end HeapRun

end Saynaa
