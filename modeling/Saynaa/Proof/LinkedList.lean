import Saynaa.Lib.Doubly
import Saynaa.Lib.Loop
import Saynaa.Spec.Lists

/-!
# The kernel's lists are sequences

* `ListsOK h L`: the heads and elements of `L` are circles of links in both directions, apart from each other.
* `listAdd_ok`, `listAddFront_ok`, `listDel_ok`, `listMove_ok`, `listSplice_ok`: the operations compute `Lists.Step`.
* `forEachLoop_ok`, `forEachSafeLoop_ok`: what the loops visit.
* `lists_refine`: runs.
-/

namespace Saynaa

open Lib

variable {h h' : ListHeap} {L L' : Lists} {l l₁ l₂ ls : List (ℕ × ℕ)}
  {a x v w d e p q y z list head data new entry : ℕ}

namespace ListHeap

/-- The links forwards. -/
def forward (h : ListHeap) (a : ℕ) : Option (ℕ × ℕ) := (h a).map fun n => (n.data, n.next)

/-- The links backwards. -/
def backward (h : ListHeap) (a : ℕ) : Option (ℕ × ℕ) := (h a).map fun n => (n.data, n.prev)

end ListHeap

/-- **The list of a sequence.** -/
def ListIs (h : ListHeap) (hd : ℕ) (l : List (ℕ × ℕ)) : Prop := ∃ v, Doubly h.forward h.backward 0 (hd, v) l

/-- **The lists of some sequences**, apart from each other. -/
structure ListsOK (h : ListHeap) (L : Lists) : Prop where
  lists : ∀ hd l, L hd = some l → ListIs h hd l
  apart : ∀ hd hd' l l', L hd = some l → L hd' = some l' → hd ≠ hd' → List.Disjoint (hd :: addrs l) (hd' :: addrs l')

/-! ### Reading and writing nodes -/

theorem dataOf_forward (hf : h.forward a = some (d, x)) : h.dataOf a = some d := by
  obtain ⟨n, hn, hp⟩ := Option.map_eq_some_iff.1 hf
  unfold ListHeap.dataOf
  rw [hn, ← (Prod.mk.inj hp).1]
  rfl

theorem nextOf_eq (hf : h.forward a = some (d, x)) : h.nextOf a = some x := by
  obtain ⟨n, hn, hp⟩ := Option.map_eq_some_iff.1 hf
  unfold ListHeap.nextOf
  rw [hn, ← (Prod.mk.inj hp).2]
  rfl

theorem prevOf_eq (hb : h.backward a = some (d, x)) : h.prevOf a = some x := by
  obtain ⟨n, hn, hp⟩ := Option.map_eq_some_iff.1 hb
  unfold ListHeap.prevOf
  rw [hn, ← (Prod.mk.inj hp).2]
  rfl

/-- The new heap has these links, and the values of the old one. -/
structure Relinked (h h' : ListHeap) (f b : ℕ → Option (ℕ × ℕ)) : Prop where
  forward : h'.forward = f
  backward : h'.backward = b
  data : h'.dataOf = h.dataOf

theorem map_update {γ : Type*} (g : ListNode → γ) (h : ListHeap) (a : ℕ) (n : Option ListNode) :
    (fun z => (Function.update h a n z).map g) = Function.update (fun z => (h z).map g) a (n.map g) := by
  funext z
  by_cases hz : z = a
  · rw [hz, Function.update_self, Function.update_self]
  · rw [Function.update_of_ne hz, Function.update_of_ne hz]

theorem forward_update (h : ListHeap) (a : ℕ) (n : Option ListNode) :
    ListHeap.forward (Function.update h a n) = Function.update h.forward a (n.map fun n => (n.data, n.next)) :=
      map_update _ h a n

theorem backward_update (h : ListHeap) (a : ℕ) (n : Option ListNode) :
    ListHeap.backward (Function.update h a n) = Function.update h.backward a (n.map fun n => (n.data, n.prev)) :=
      map_update _ h a n

theorem dataOf_update (h : ListHeap) (a : ℕ) (n : Option ListNode) :
    ListHeap.dataOf (Function.update h a n) = Function.update h.dataOf a (n.map ListNode.data) := map_update _ h a n

theorem setNext_ok (hd : h.dataOf a = some d) (x : ℕ) :
    ∃ h', h.setNext a x = some h' ∧ Relinked h h' (Function.update h.forward a (some (d, x))) h.backward := by
  obtain ⟨n, hn, rfl⟩ := Option.map_eq_some_iff.1 hd
  refine ⟨Function.update h a (some { n with next := x }), ?_, forward_update .., ?_, ?_⟩
  · unfold ListHeap.setNext
    rw [hn]
    rfl
  · -- the link backwards is written as it was
    refine (backward_update ..).trans (Function.update_eq_self_iff.2 ?_)
    unfold ListHeap.backward
    rw [hn]
    rfl
  · refine (dataOf_update ..).trans (Function.update_eq_self_iff.2 ?_)
    rw [hd]
    rfl

theorem setPrev_ok (hd : h.dataOf a = some d) (x : ℕ) :
    ∃ h', h.setPrev a x = some h' ∧ Relinked h h' h.forward (Function.update h.backward a (some (d, x))) := by
  obtain ⟨n, hn, rfl⟩ := Option.map_eq_some_iff.1 hd
  refine ⟨Function.update h a (some { n with prev := x }), ?_, ?_, backward_update .., ?_⟩
  · unfold ListHeap.setPrev
    rw [hn]
    rfl
  · refine (forward_update ..).trans (Function.update_eq_self_iff.2 ?_)
    unfold ListHeap.forward
    rw [hn]
    rfl
  · refine (dataOf_update ..).trans (Function.update_eq_self_iff.2 ?_)
    rw [hd]
    rfl

/-- **`__list_add`** links `new` between two nodes. -/
theorem listAddBetween_ok (hn : h.dataOf new = some w) (hp : h.dataOf p = some d) (hq : h.dataOf q = some e) :
    ∃ h', listAddBetween h new p q = some h' ∧
      Relinked h h' (Function.update (Function.update h.forward new (some (w, q))) p (some (d, new)))
        (Function.update (Function.update h.backward q (some (e, new))) new (some (w, p))) := by
  obtain ⟨h₁, he₁, hr₁⟩ := setPrev_ok hq new
  obtain ⟨h₂, he₂, hr₂⟩ := setNext_ok (hr₁.data ▸ hn) q
  obtain ⟨h₃, he₃, hr₃⟩ := setPrev_ok (hr₂.data ▸ hr₁.data ▸ hn) p
  obtain ⟨h₄, he₄, hr₄⟩ := setNext_ok (hr₃.data ▸ hr₂.data ▸ hr₁.data ▸ hp) new
  refine ⟨h₄, ?_, ?_, ?_, ?_⟩
  · unfold listAddBetween
    simp only [he₁, he₂, he₃, he₄, Option.bind_eq_bind, Option.bind_some]
  · rw [hr₄.forward, hr₃.forward, hr₂.forward, hr₁.forward]
  · rw [hr₄.backward, hr₃.backward, hr₂.backward, hr₁.backward]
  · rw [hr₄.data, hr₃.data, hr₂.data, hr₁.data]

/-! ### Operations -/

theorem ListsOK.update (hOK : ListsOK h L) (hnew : ListIs h' list l) (hout : ∀ hd l', hd ≠ list → L hd = some l' →
    ∀ z ∈ hd :: addrs l', z ∉ list :: addrs l ∧ h'.forward z = h.forward z ∧ h'.backward z = h.backward z) :
    ListsOK h' (Function.update L list (some l)) := by
  constructor
  · intro hd l' hl'
    by_cases heq : hd = list
    · subst heq
      rw [Function.update_self] at hl'
      rw [← Option.some.inj hl']
      exact hnew
    · rw [Function.update_of_ne heq] at hl'
      obtain ⟨v, hD⟩ := hOK.lists hd l' hl'
      exact ⟨v, hD.congr (fun z hz => (hout hd l' heq hl' z hz).2.1) fun z hz => (hout hd l' heq hl' z hz).2.2⟩
  · intro hd hd' l₁ l₂ h₁ h₂ hne
    by_cases heq : hd = list
    · subst heq
      rw [Function.update_self] at h₁
      rw [Function.update_of_ne hne.symm] at h₂
      rw [← Option.some.inj h₁]
      exact fun z hz hz' => (hout hd' l₂ hne.symm h₂ z hz').1 hz
    rw [Function.update_of_ne heq] at h₁
    by_cases heq' : hd' = list
    · subst heq'
      rw [Function.update_self] at h₂
      rw [← Option.some.inj h₂]
      exact fun z hz hz' => (hout hd l₁ heq h₁ z hz).1 hz'
    · rw [Function.update_of_ne heq'] at h₂
      exact hOK.apart hd hd' l₁ l₂ h₁ h₂ hne

/-- A head or an element is a node. -/
theorem ListIs.node (h₀ : ListIs h list l) (hz : z ∈ list :: addrs l) : h z ≠ none := by
  obtain ⟨v, hD⟩ := h₀
  have hmem : z ∈ addrs ((list, v) :: l) := hz
  obtain ⟨⟨z, d⟩, hin, rfl⟩ := List.mem_map.1 hmem
  obtain ⟨t, ht⟩ := hD.payload hin
  obtain ⟨n, hn, -⟩ := Option.map_eq_some_iff.1 ht
  rw [hn]
  exact Option.some_ne_none n

/-- **A new node** between `p` and `q`. -/
theorem listInsert_ok (data : ℕ) (l' : List (ℕ × ℕ)) (hOK : ListsOK h L) (hl : L list = some l) (hnew : h new = none)
    (hD : Doubly h.forward h.backward 0 (list, v) l) (hp : (p, d) ∈ (list, v) :: l) (hq : (q, e) ∈ (list, v) :: l)
    (hsub : ∀ z ∈ addrs l', z = new ∨ z ∈ addrs l)
    (hpush : ∀ f b, f p = some (d, new) → f new = some (data, q) → b q = some (e, new) → b new = some (data, p) →
      (∀ z, z ≠ p → z ≠ new → f z = h.forward z) → (∀ z, z ≠ q → z ≠ new → b z = h.backward z) →
        Doubly f b 0 (list, v) l') :
    ∃ h', listAddBetween (Function.update h new (some ⟨data, 0, 0⟩)) new p q = some h' ∧
      ListsOK h' (Function.update L list (some l')) := by
  have hIs := hOK.lists list l hl
  have hnode {z d : ℕ} (hz : (z, d) ∈ (list, v) :: l) : z ∈ list :: addrs l ∧ z ≠ new ∧ h.dataOf z = some d := by
    have hin : z ∈ list :: addrs l := List.mem_map_of_mem (f := Prod.fst) hz
    obtain ⟨t, ht⟩ := hD.payload hz
    exact ⟨hin, fun heq => hIs.node hin (heq ▸ hnew), dataOf_forward ht⟩
  obtain ⟨hpin, hpn, hpd⟩ := hnode hp
  obtain ⟨hqin, hqn, hqd⟩ := hnode hq
  have hdata {z : ℕ} (hz : z ≠ new) : ListHeap.dataOf (Function.update h new (some ⟨data, 0, 0⟩)) z = h.dataOf z := by
    rw [dataOf_update, Function.update_of_ne hz]
  have hdnew : ListHeap.dataOf (Function.update h new (some ⟨data, 0, 0⟩)) new = some data := by
    rw [dataOf_update, Function.update_self]
    rfl
  obtain ⟨h', heq, hr⟩ := listAddBetween_ok hdnew ((hdata hpn).trans hpd) ((hdata hqn).trans hqd)
  have hf (z : ℕ) (hzp : z ≠ p) (hzn : z ≠ new) : h'.forward z = h.forward z := by
    rw [hr.forward, Function.update_of_ne hzp, Function.update_of_ne hzn, forward_update, Function.update_of_ne hzn]
  have hb (z : ℕ) (hzq : z ≠ q) (hzn : z ≠ new) : h'.backward z = h.backward z := by
    rw [hr.backward, Function.update_of_ne hzn, Function.update_of_ne hzq, backward_update, Function.update_of_ne hzn]
  refine ⟨h', heq, hOK.update ⟨v, hpush _ _ ?_ ?_ ?_ ?_ hf hb⟩ ?_⟩
  · rw [hr.forward, Function.update_self]
  · rw [hr.forward, Function.update_of_ne hpn.symm, Function.update_self]
  · rw [hr.backward, Function.update_of_ne hqn, Function.update_self]
  · rw [hr.backward, Function.update_self]
  · -- the other lists have none of the changed nodes
    intro hd m hne hm z hz
    have hzl : z ∉ list :: addrs l := hOK.apart hd list m l hm hl hne hz
    have hzn : z ≠ new := fun heq => (hOK.lists hd m hm).node hz (heq ▸ hnew)
    refine ⟨?_, hf z (fun heq => hzl (heq ▸ hpin)) hzn, hb z (fun heq => hzl (heq ▸ hqin)) hzn⟩
    intro hin
    rcases List.mem_cons.1 hin with heq | hin
    · exact hzl (List.mem_cons.2 (.inl heq))
    · exact (hsub z hin).elim hzn fun hin => hzl (List.mem_cons_of_mem _ hin)

/-- The last node of a list. -/
theorem exists_last (hD : Doubly h.forward h.backward 0 (list, v) l) :
    ∃ r p d, (list, v) :: l = r ++ [(p, d)] ∧ h.backward list = some (v, p) := by
  obtain ⟨r, ⟨p, d⟩, hp⟩ : ∃ r a, (list, v) :: l = r ++ [a] := by
    rcases List.eq_nil_or_concat ((list, v) :: l) with hnil | ⟨r, a, hr⟩
    · exact absurd hnil (List.cons_ne_nil _ _)
    · exact ⟨r, a, hr.trans (List.concat_eq_append)⟩
  refine ⟨r, p, d, hp, ?_⟩
  have hp' : l.reverse ++ [(list, v)] = (p, d) :: r.reverse := by
    have hrev := congrArg List.reverse hp
    rwa [List.reverse_cons, List.reverse_append] at hrev
  rw [hD.prev_head, first_of_split hp']

/-- The first node of a list. -/
theorem exists_first (hD : Doubly h.forward h.backward 0 (list, v) l) :
    ∃ q e r, l ++ [(list, v)] = (q, e) :: r ∧ h.forward list = some (v, q) := by
  obtain ⟨⟨q, e⟩, r, hq⟩ : ∃ a r, l ++ [(list, v)] = a :: r := by
    cases l with
    | nil => exact ⟨_, _, rfl⟩
    | cons a l => exact ⟨_, _, rfl⟩
  refine ⟨q, e, r, hq, ?_⟩
  rw [hD.next_head, first_of_split hq]

theorem listAdd_ok (hOK : ListsOK h L) (hl : L list = some l) (hn0 : new ≠ 0) (hnew : h new = none) (data : ℕ) :
    ∃ h', listAdd h list data new = some (list, h') ∧
      ListsOK h' (Function.update L list (some (l ++ [(new, data)]))) := by
  obtain ⟨v, hD⟩ := hOK.lists list l hl
  obtain ⟨r, p, d, hp, hback⟩ := exists_last hD
  have hIs : ListIs h list l := ⟨v, hD⟩
  have hny : new ∉ addrs ((list, v) :: l) := fun hin => hIs.node hin hnew
  obtain ⟨h', heq, hOK'⟩ := listInsert_ok data (l ++ [(new, data)]) hOK hl hnew hD
    (hp ▸ List.mem_append_right r List.mem_cons_self) List.mem_cons_self
    (by
      intro z hz
      rw [addrs_append, List.mem_append] at hz
      exact hz.symm.imp_left List.mem_singleton.1)
    fun f b hfp hfn hbq hbn hf hb => hD.push_back hn0 hny hp hfp hfn hbq hbn hf hb
  refine ⟨h', ?_, hOK'⟩
  have hln : list ≠ new := fun heq => hny (heq ▸ List.mem_cons_self)
  have hprev : ListHeap.prevOf (Function.update h new (some ⟨data, 0, 0⟩)) list = some p := by
    refine prevOf_eq (d := v) ?_
    rw [backward_update, Function.update_of_ne hln, hback]
  unfold listAdd listNodeNew
  rw [if_neg hn0]
  simp only [Option.bind_eq_bind, Option.pure_def]
  rw [if_neg hn0, hprev, Option.bind_some, heq]
  rfl

theorem listAddFront_ok (hOK : ListsOK h L) (hl : L list = some l) (hn0 : new ≠ 0) (hnew : h new = none) (data : ℕ) :
    ∃ h', listAddFront h list data new = some (list, h') ∧
      ListsOK h' (Function.update L list (some ((new, data) :: l))) := by
  obtain ⟨v, hD⟩ := hOK.lists list l hl
  obtain ⟨q, e, r, hq, hforw⟩ := exists_first hD
  have hIs : ListIs h list l := ⟨v, hD⟩
  have hny : new ∉ addrs ((list, v) :: l) := fun hin => hIs.node hin hnew
  have hqin : (q, e) ∈ (list, v) :: l := by
    have hin : (q, e) ∈ l ++ [(list, v)] := hq ▸ List.mem_cons_self
    exact List.mem_cons.2 ((List.mem_append.1 hin).symm.imp_left List.mem_singleton.1)
  obtain ⟨h', heq, hOK'⟩ := listInsert_ok data ((new, data) :: l) hOK hl hnew hD List.mem_cons_self hqin
    (fun z hz => List.mem_cons.1 hz) fun f b hfp hfn hbq hbn hf hb => hD.push_front hn0 hny hq hfp hfn hbq hbn hf hb
  refine ⟨h', ?_, hOK'⟩
  have hln : list ≠ new := fun heq => hny (heq ▸ List.mem_cons_self)
  have hnext : ListHeap.nextOf (Function.update h new (some ⟨data, 0, 0⟩)) list = some q := by
    refine nextOf_eq (d := v) ?_
    rw [forward_update, Function.update_of_ne hln, hforw]
  unfold listAddFront listNodeNew
  rw [if_neg hn0]
  simp only [Option.bind_eq_bind, Option.pure_def]
  rw [if_neg hn0, hnext, Option.bind_some, heq]
  rfl

/-- **`__list_del`** links two nodes to each other. -/
theorem listDelBetween_ok (hp : h.dataOf p = some d) (hq : h.dataOf q = some e) :
    ∃ h', listDelBetween h p q = some h' ∧
      Relinked h h' (Function.update h.forward p (some (d, q))) (Function.update h.backward q (some (e, p))) := by
  obtain ⟨h₁, he₁, hr₁⟩ := setPrev_ok hq p
  obtain ⟨h₂, he₂, hr₂⟩ := setNext_ok (hr₁.data ▸ hp) q
  refine ⟨h₂, ?_, ?_, ?_, ?_⟩
  · unfold listDelBetween
    simp only [he₁, he₂, Option.bind_eq_bind, Option.bind_some]
  · rw [hr₂.forward, hr₁.forward]
  · rw [hr₂.backward, hr₁.backward]
  · rw [hr₂.data, hr₁.data]

theorem listDel_ok (hOK : ListsOK h L) (hl : L list = some (l₁ ++ (entry, data) :: l₂)) :
    ∃ h', listDel h entry = some h' ∧ ListsOK h' (Function.update L list (some (l₁ ++ l₂))) := by
  have hIs := hOK.lists list _ hl
  obtain ⟨v, hD⟩ := hIs
  -- the neighbours, which may be the head
  obtain ⟨⟨p, d⟩, m, hpr⟩ : ∃ a m, l₁.reverse ++ [(list, v)] = a :: m := by
    cases l₁.reverse with
    | nil => exact ⟨_, _, rfl⟩
    | cons a l => exact ⟨_, _, rfl⟩
  obtain ⟨⟨q, e⟩, r, hq⟩ : ∃ a r, l₂ ++ [(list, v)] = a :: r := by
    cases l₂ with
    | nil => exact ⟨_, _, rfl⟩
    | cons a l => exact ⟨_, _, rfl⟩
  have hp : (list, v) :: l₁ = m.reverse ++ [(p, d)] := by
    have hrev := reverse_split hpr
    rwa [List.reverse_reverse] at hrev
  have hprev : h.prevOf entry = some p := prevOf_eq (by rw [hD.prev_at, first_of_split hpr])
  have hnext : h.nextOf entry = some q := nextOf_eq (by rw [hD.next_at, first_of_split hq])
  have hentry : h.dataOf entry = some data := dataOf_forward hD.next_at
  have hnd := hD.forward.nodup
  rw [addrs_cons, addrs_append, addrs_cons, List.nodup_cons, List.nodup_append, List.nodup_cons, List.mem_append,
    List.mem_cons, not_or, not_or] at hnd
  obtain ⟨⟨hx1, hxe, hx2⟩, -, ⟨he2, -⟩, hdis⟩ := hnd
  have hpin : (p, d) ∈ (list, v) :: l₁ := hp ▸ List.mem_append_right _ List.mem_cons_self
  have hqin : (q, e) ∈ (list, v) :: l₂ := by
    have hin : (q, e) ∈ l₂ ++ [(list, v)] := hq ▸ List.mem_cons_self
    exact List.mem_cons.2 ((List.mem_append.1 hin).symm.imp_left List.mem_singleton.1)
  have hpe : p ≠ entry := by
    rcases List.mem_cons.1 hpin with heq | hin
    · rw [(Prod.mk.inj heq).1]
      exact hxe
    · exact hdis p (List.mem_map_of_mem (f := Prod.fst) hin) entry List.mem_cons_self
  have hqe : q ≠ entry := by
    rcases List.mem_cons.1 hqin with heq | hin
    · rw [(Prod.mk.inj heq).1]
      exact hxe
    · rintro rfl
      exact he2 (List.mem_map_of_mem (f := Prod.fst) hin)
  have hsub {a : ℕ × ℕ} (ha : a ∈ (list, v) :: l₁ ∨ a ∈ (list, v) :: l₂) : a ∈ (list, v) ::
    (l₁ ++ (entry, data) :: l₂) := by
    simp only [List.mem_cons, List.mem_append] at ha ⊢
    tauto
  obtain ⟨t, ht⟩ := hD.payload (hsub (.inl hpin))
  obtain ⟨t', ht'⟩ := hD.payload (hsub (.inr hqin))
  obtain ⟨h₁, he₁, hr₁⟩ := listDelBetween_ok (dataOf_forward ht) (dataOf_forward ht')
  obtain ⟨h₂, he₂, hr₂⟩ := setNext_ok (hr₁.data ▸ hentry) 0
  obtain ⟨h₃, he₃, hr₃⟩ := setPrev_ok (hr₂.data ▸ hr₁.data ▸ hentry) 0
  have hf (z : ℕ) (hz : z ≠ entry) :
      ListHeap.forward (Function.update h₃ entry none) z = Function.update h.forward p (some (d, q)) z := by
    rw [forward_update, Function.update_of_ne hz, hr₃.forward, hr₂.forward, Function.update_of_ne hz, hr₁.forward]
  have hb (z : ℕ) (hz : z ≠ entry) :
      ListHeap.backward (Function.update h₃ entry none) z = Function.update h.backward q (some (e, p)) z := by
    rw [backward_update, Function.update_of_ne hz, hr₃.backward, Function.update_of_ne hz, hr₂.backward, hr₁.backward]
  refine ⟨Function.update h₃ entry none, ?_, hOK.update ⟨v, hD.remove hp hq ?_ ?_ ?_ ?_⟩ ?_⟩
  · unfold listDel
    simp only [hprev, hnext, he₁, he₂, he₃, Option.bind_eq_bind, Option.bind_some, Option.pure_def]
  · rw [hf p hpe, Function.update_self]
  · rw [hb q hqe, Function.update_self]
  · intro z hzp hze
    rw [hf z hze, Function.update_of_ne hzp]
  · intro z hzq hze
    rw [hb z hze, Function.update_of_ne hzq]
  · intro hd m hne hm z hz
    have hzl := hOK.apart hd list m _ hm hl hne hz
    have hzin {a : ℕ × ℕ} (ha : a ∈ (list, v) :: (l₁ ++ (entry, data) :: l₂)) : z ≠ a.1 := by
      rintro rfl
      exact hzl (List.mem_map_of_mem (f := Prod.fst) ha)
    have hze : z ≠ entry := hzin (a := (entry, data)) (by simp)
    refine ⟨?_, ?_, ?_⟩
    · intro hin
      refine hzl ?_
      rw [addrs_append] at hin ⊢
      simp only [addrs_cons, List.mem_cons, List.mem_append] at hin ⊢
      tauto
    · rw [hf z hze, Function.update_of_ne (hzin (hsub (.inl hpin)))]
    · rw [hb z hze, Function.update_of_ne (hzin (hsub (.inr hqin)))]

theorem listMove_ok (hOK : ListsOK h L) {head : ℕ} (hs : L list = some (l₁ ++ (entry, data) :: l₂))
    (hl : Function.update L list (some (l₁ ++ l₂)) head = some l) (hn0 : new ≠ 0) (hnew : h new = none) :
    ∃ h', listMove h entry head new = some h' ∧
      ListsOK h' (Function.update (Function.update L list (some (l₁ ++ l₂))) head (some ((new, data) :: l))) := by
  have hdata : h.dataOf entry = some data := by
    obtain ⟨v, hD⟩ := hOK.lists list _ hs
    exact dataOf_forward hD.next_at
  unfold listMove
  rw [hdata]
  simp only [Option.bind_eq_bind, Option.bind_some]
  by_cases hne : head = list
  · -- within one list
    subst hne
    rw [Function.update_self] at hl
    obtain rfl := Option.some.inj hl
    obtain ⟨h₁, he₁, hOK₁⟩ := listAddFront_ok hOK hs hn0 hnew data
    rw [he₁]
    have hs₁ : Function.update L head (some ((new, data) :: (l₁ ++ (entry, data) :: l₂))) head =
        some (((new, data) :: l₁) ++ (entry, data) :: l₂) := Function.update_self ..
    obtain ⟨h₂, he₂, hOK₂⟩ := listDel_ok hOK₁ hs₁
    refine ⟨h₂, he₂, ?_⟩
    rw [Function.update_idem] at hOK₂ ⊢
    exact hOK₂
  · rw [Function.update_of_ne hne] at hl
    obtain ⟨h₁, he₁, hOK₁⟩ := listAddFront_ok hOK hl hn0 hnew data
    rw [he₁]
    obtain ⟨h₂, he₂, hOK₂⟩ := listDel_ok hOK₁ ((Function.update_of_ne (Ne.symm hne) _ _).trans hs)
    refine ⟨h₂, he₂, ?_⟩
    rw [Function.update_comm hne] at hOK₂
    exact hOK₂

theorem ListsOK.drop (hOK : ListsOK h L) (list : ℕ) : ListsOK h (Function.update L list none) := by
  have hsome {hd : ℕ} {l : List (ℕ × ℕ)} (hl : Function.update L list none hd = some l) : L hd = some l := by
    by_cases heq : hd = list
    · rw [heq, Function.update_self] at hl
      exact absurd hl (Option.some_ne_none l).symm
    · rwa [Function.update_of_ne heq] at hl
  exact ⟨fun hd l hl => hOK.lists hd l (hsome hl), fun hd hd' l l' hl hl' => hOK.apart hd hd' l l' (hsome hl)
    (hsome hl')⟩

theorem listSplice_ok (hOK : ListsOK h L) {head : ℕ} (hne : list ≠ head) (hs : L list = some ls)
    (hl : L head = some l) : ∃ h', listSplice h list head = some h' ∧
      ListsOK h' (Function.update (Function.update L list none) head (some (ls ++ l))) := by
  have hOK₁ := hOK.drop list
  have hl₁ : Function.update L list none head = some l := (Function.update_of_ne hne.symm _ _).trans hl
  obtain ⟨vs, hS⟩ := hOK.lists list ls hs
  obtain ⟨v, hD⟩ := hOK.lists head l hl
  have hapart : List.Disjoint (list :: addrs ls) (head :: addrs l) := hOK.apart list head ls l hs hl hne
  cases ls with
  | nil =>
    have hnext : h.nextOf list = some list := nextOf_eq hS.next_head
    refine ⟨h, ?_, ?_⟩
    · unfold listSplice
      simp only [hnext, Option.bind_eq_bind, Option.bind_some, Option.pure_def]
      rw [if_neg (not_not.2 rfl)]
    · rw [List.nil_append, ← hl₁, Function.update_eq_self]
      exact hOK₁
  | cons a r =>
    obtain ⟨p, d⟩ := a
    obtain ⟨r', ⟨q, e⟩, hq⟩ : ∃ r' b, (p, d) :: r = r' ++ [b] := by
      rcases List.eq_nil_or_concat ((p, d) :: r) with hnil | ⟨r', b, hr⟩
      · exact absurd hnil (List.cons_ne_nil _ _)
      · exact ⟨r', b, hr.trans List.concat_eq_append⟩
    obtain ⟨z, u, t, hz, hforw⟩ := exists_first hD
    have hfirst : h.nextOf list = some p := nextOf_eq hS.next_head
    have hlast : h.prevOf list = some q := by
      refine prevOf_eq (d := vs) (hS.prev_head.trans ?_)
      rw [hq, List.reverse_append]
      rfl
    have hat : h.nextOf head = some z := nextOf_eq hforw
    have hqin : (q, e) ∈ (p, d) :: r := hq ▸ List.mem_append_right _ List.mem_cons_self
    have hzin : (z, u) ∈ (head, v) :: l := by
      have hin : (z, u) ∈ l ++ [(head, v)] := hz ▸ List.mem_cons_self
      exact List.mem_cons.2 ((List.mem_append.1 hin).symm.imp_left List.mem_singleton.1)
    have hpl : p ≠ list := fun heq => (List.nodup_cons.1 hS.forward.nodup).1 (by simp [heq])
    obtain ⟨_, hpd⟩ := hS.payload (List.mem_cons_of_mem _ List.mem_cons_self : (p, d) ∈ (list, vs) :: (p, d) :: r)
    obtain ⟨_, hqd⟩ := hS.payload (List.mem_cons_of_mem _ hqin)
    obtain ⟨_, hzd⟩ := hD.payload hzin
    have hheadd := dataOf_forward hforw
    -- the four writes
    obtain ⟨h₁, he₁, hr₁⟩ := setPrev_ok (dataOf_forward hpd) head
    obtain ⟨h₂, he₂, hr₂⟩ := setNext_ok (hr₁.data ▸ hheadd) p
    obtain ⟨h₃, he₃, hr₃⟩ := setNext_ok (hr₂.data ▸ hr₁.data ▸ dataOf_forward hqd) z
    obtain ⟨h₄, he₄, hr₄⟩ := setPrev_ok (hr₃.data ▸ hr₂.data ▸ hr₁.data ▸ dataOf_forward hzd) q
    have hforward : h₄.forward = Function.update (Function.update h.forward head (some (v, p))) q (some (e, z)) := by
      rw [hr₄.forward, hr₃.forward, hr₂.forward, hr₁.forward]
    have hbackward : h₄.backward = Function.update (Function.update h.backward p (some (d, head))) z
      (some (u, q)) := by
      rw [hr₄.backward, hr₃.backward, hr₂.backward, hr₁.backward]
    -- the source and the target do not meet
    have hsrc {a : ℕ × ℕ} (ha : a ∈ (p, d) :: r) : a.1 ∈ list :: addrs ((p, d) :: r) :=
      List.mem_cons_of_mem _ (List.mem_map_of_mem (f := Prod.fst) ha)
    have hdst {a : ℕ × ℕ} (ha : a ∈ (head, v) :: l) : a.1 ∈ head :: addrs l := List.mem_map_of_mem (f := Prod.fst) ha
    have hmeet {a b : ℕ × ℕ} (ha : a ∈ (p, d) :: r) (hb : b ∈ (head, v) :: l) : a.1 ≠ b.1 := fun heq =>
      hapart (hsrc ha) (heq ▸ hdst hb)
    have hqhead : q ≠ head := hmeet hqin (List.mem_cons_self (a := (head, v)))
    have hpz : p ≠ z := hmeet (List.mem_cons_self (a := (p, d))) hzin
    have hdis : List.Disjoint (addrs ((p, d) :: r)) (addrs ((head, v) :: l)) := fun c hc hc' =>
      hapart (List.mem_cons_of_mem _ hc) hc'
    refine ⟨h₄, ?_, hOK₁.update ⟨v, hD.splice hS hdis rfl hq hz ?_ ?_ ?_ ?_ ?_ ?_⟩ ?_⟩
    · unfold listSplice
      simp only [hfirst, hlast, hat, Option.bind_eq_bind, Option.bind_some]
      rw [if_pos hpl]
      simp only [he₁, he₂, he₃, he₄, Option.bind_some]
    · rw [hforward, Function.update_of_ne hqhead.symm, Function.update_self]
    · rw [hforward, Function.update_self]
    · rw [hbackward, Function.update_of_ne hpz, Function.update_self]
    · rw [hbackward, Function.update_self]
    · intro c hch hcq
      rw [hforward, Function.update_of_ne hcq, Function.update_of_ne hch]
    · intro c hcp hcz
      rw [hbackward, Function.update_of_ne hcz, Function.update_of_ne hcp]
    · intro hd m hhd hm c hc
      have hdl : hd ≠ list := by
        rintro rfl
        rw [Function.update_self] at hm
        exact absurd hm (Option.some_ne_none m).symm
      rw [Function.update_of_ne hdl] at hm
      have hcs := hOK.apart hd list m _ hm hs hdl hc
      have hct := hOK.apart hd head m _ hm hl hhd hc
      have hcsrc {a : ℕ × ℕ} (ha : a ∈ (p, d) :: r) : c ≠ a.1 := fun heq => hcs (heq ▸ hsrc ha)
      have hcdst {a : ℕ × ℕ} (ha : a ∈ (head, v) :: l) : c ≠ a.1 := fun heq => hct (heq ▸ hdst ha)
      refine ⟨?_, ?_, ?_⟩
      · intro hin
        rw [addrs_append, List.mem_cons, List.mem_append] at hin
        rcases hin with hin | hin | hin
        · exact hct (List.mem_cons.2 (.inl hin))
        · exact hcs (List.mem_cons_of_mem _ hin)
        · exact hct (List.mem_cons_of_mem _ hin)
      · rw [hforward, Function.update_of_ne (hcsrc hqin),
          Function.update_of_ne (hcdst (List.mem_cons_self (a := (head, v))))]
      · rw [hbackward, Function.update_of_ne (hcdst hzin),
          Function.update_of_ne (hcsrc (List.mem_cons_self (a := (p, d))))]

/-! ### Iteration -/

theorem forEachLoop_ok {link : ListNode → ℕ} {m : List (ℕ × ℕ)} {fuel : ℕ}
    (hm : Linked id (fun a => (h a).map fun n => (n.data, link n)) m list) (hnot : list ∉ addrs m)
    (hlist : h list ≠ none) (hf : m.length < fuel) : forEachLoop h link list fuel (first m list) = some m := by
  induction m generalizing fuel with
  | nil =>
    obtain ⟨k, rfl⟩ := Nat.exists_eq_add_of_lt hf
    obtain ⟨n, hn⟩ := Option.ne_none_iff_exists'.1 hlist
    unfold forEachLoop
    rw [first_nil, hn, Option.bind_eq_bind, Option.bind_some, if_pos rfl]
    rfl
  | cons a m ih =>
    obtain ⟨x, d⟩ := a
    obtain ⟨k, rfl⟩ : ∃ k, fuel = k + 1 := ⟨fuel - 1, by omega⟩
    obtain ⟨⟨_, hx, hp⟩, hm⟩ := hm
    obtain ⟨n, hn, rfl⟩ := Option.map_eq_some_iff.1 hx
    obtain ⟨hdata, hlink⟩ := Prod.mk.inj hp
    rw [addrs_cons, List.mem_cons, not_or] at hnot
    have hrest := @ih k hm hnot.2 (by rw [List.length_cons] at hf; omega)
    unfold forEachLoop
    rw [first_cons, hn, Option.bind_eq_bind, Option.bind_some, if_neg (Ne.symm hnot.1), hlink, hrest]
    rw [← hdata]
    rfl

theorem forEachSafeLoop_ok {m : List (ℕ × ℕ)} {fuel n : ℕ} (hm : Linked id h.forward m list) (hnot : list ∉ addrs m)
    (hlist : h.nextOf list ≠ none) (hn : h.nextOf (first m list) = some n) (hf : m.length < fuel) :
    forEachSafeLoop h list fuel (first m list) n = some (addrs m) := by
  induction m generalizing fuel n with
  | nil =>
    obtain ⟨k, rfl⟩ := Nat.exists_eq_add_of_lt hf
    unfold forEachSafeLoop
    rw [first_nil, if_pos rfl]
    rfl
  | cons a m ih =>
    obtain ⟨x, d⟩ := a
    obtain ⟨k, rfl⟩ : ∃ k, fuel = k + 1 := ⟨fuel - 1, by omega⟩
    obtain ⟨⟨_, hx, rfl⟩, hm⟩ := hm
    obtain rfl : first m list = n := Option.some.inj ((nextOf_eq hx).symm.trans hn)
    rw [addrs_cons, List.mem_cons, not_or] at hnot
    obtain ⟨n', hn'⟩ : ∃ n', h.nextOf (first m list) = some n' := by
      cases m with
      | nil => exact Option.ne_none_iff_exists'.1 hlist
      | cons b m =>
        obtain ⟨⟨_, hb, rfl⟩, -⟩ := hm
        exact ⟨_, nextOf_eq hb⟩
    have hrest := @ih k n' hm hnot.2 hn' (by rw [List.length_cons] at hf; omega)
    unfold forEachSafeLoop
    rw [first_cons, if_neg (Ne.symm hnot.1), hn']
    simp only [Option.bind_eq_bind, Option.bind_some, Option.pure_def]
    rw [hrest]
    rfl

/-- **What a list shows**: its sequence forwards, backwards, and where the loop body may delete. -/
structure Shows (h : ListHeap) (list : ℕ) (l : List (ℕ × ℕ)) : Prop where
  forward : Returns (listForEach h list) l
  backward : Returns (listForEachEntryRev h list) l.reverse
  safe : Returns (listForEachSafe h list) (addrs l)
  empty : listEmpty h list = some (decide (l = []))

theorem ListIs.shows (h₀ : ListIs h list l) : Shows h list l := by
  have hnode : h list ≠ none := h₀.node List.mem_cons_self
  obtain ⟨v, hD⟩ := h₀
  have hnot : list ∉ addrs l := (List.nodup_cons.1 hD.forward.nodup).1
  have hnot' : list ∉ addrs l.reverse := (List.nodup_cons.1 hD.backward.nodup).1
  have hnext := nextOf_eq hD.next_head
  have hprev := prevOf_eq hD.prev_head
  refine ⟨⟨l.length, ?_⟩, ⟨l.length, ?_⟩, ⟨l.length, ?_⟩, ?_⟩
  · -- forwards
    intro fuel hf
    unfold listForEach
    rw [hnext]
    exact forEachLoop_ok hD.forward.linked.2 hnot hnode hf
  · -- backwards
    intro fuel hf
    unfold listForEachEntryRev
    rw [hprev]
    exact forEachLoop_ok hD.backward.linked.2 hnot' hnode (by rwa [List.length_reverse])
  · -- the entry after the current one is found before the current one is handled
    intro fuel hf
    obtain ⟨n, hn⟩ : ∃ n, h.nextOf (first l list) = some n := by
      cases l with
      | nil => exact ⟨_, hnext⟩
      | cons a l =>
        have hD' : Doubly h.forward h.backward 0 (list, v) ([] ++ a :: l) := hD
        exact ⟨_, nextOf_eq hD'.next_at⟩
    unfold listForEachSafe
    rw [hnext]
    simp only [Option.bind_eq_bind, Option.bind_some]
    rw [hn]
    exact forEachSafeLoop_ok hD.forward.linked.2 hnot (hnext ▸ Option.some_ne_none _) hn hf
  · unfold listEmpty
    rw [hnext, Option.map_some]
    refine congrArg some (decide_eq_decide.2 ?_)
    cases l with
    | nil => exact iff_of_true rfl rfl
    | cons a l => exact iff_of_false (fun heq => hnot (heq ▸ List.mem_cons_self)) (List.cons_ne_nil a l)

/-! ### Runs -/

/-- `kmalloc` returns an address that is not in use. -/
def ListOp.Fresh (h : ListHeap) : ListOp → Prop
  | .add _ _ new | .addFront _ _ new | .move _ _ new => new ≠ 0 ∧ h new = none
  | _ => True

/-- So it does in every call. -/
def ListOp.FreshAll (h : ListHeap) : List ListOp → Prop
  | [] => True
  | op :: ops => op.Fresh h ∧ ∀ h', op.run h = some h' → FreshAll h' ops

variable {op : ListOp} {ops : List ListOp}

/-- **One call** does on the nodes what it does on the sequences. -/
theorem listOp_step (hOK : ListsOK h L) (hstep : L.Step op L') (hfresh : op.Fresh h) :
    ∃ h', op.run h = some h' ∧ ListsOK h' L' := by
  cases hstep with
  | @add list data new l hl =>
    obtain ⟨h', heq, hOK'⟩ := listAdd_ok hOK hl hfresh.1 hfresh.2 data
    exact ⟨h', congrArg (Option.map Prod.snd) heq, hOK'⟩
  | @addFront list data new l hl =>
    obtain ⟨h', heq, hOK'⟩ := listAddFront_ok hOK hl hfresh.1 hfresh.2 data
    exact ⟨h', congrArg (Option.map Prod.snd) heq, hOK'⟩
  | del hl => exact listDel_ok hOK hl
  | move hs hl => exact listMove_ok hOK hs hl hfresh.1 hfresh.2
  | splice hne hs hl => exact listSplice_ok hOK hne hs hl

theorem listOp_run (hrun : Lists.Run L ops L') (hOK : ListsOK h L) (hfresh : ListOp.FreshAll h ops) :
    ∃ h', ListOp.runAll h ops = some h' ∧ ListsOK h' L' := by
  induction hrun generalizing h with
  | nil L => exact ⟨h, rfl, hOK⟩
  | @cons L L₁ L₂ op ops hstep _ ih =>
    obtain ⟨h₁, heq₁, hOK₁⟩ := listOp_step hOK hstep hfresh.1
    obtain ⟨h₂, heq₂, hOK₂⟩ := ih hOK₁ (hfresh.2 h₁ heq₁)
    refine ⟨h₂, ?_, hOK₂⟩
    unfold ListOp.runAll
    rw [heq₁]
    exact heq₂

/-- **The kernel's lists are sequences.** From any well-formed lists, every run of calls goes through without a
fault. The lists are well formed again and show, forwards and backwards, the sequences that the calls lead to. Of
the values none is lost and none is duplicated: those that are there behind the run, and one for each deletion,
are those from before and the ones that were added. -/
theorem lists_refine (h : ListHeap) (L L' : Lists) (ops : List ListOp) (hOK : ListsOK h L) (hrun : Lists.Run L ops L')
    (hfresh : ListOp.FreshAll h ops) : ∃ h', ListOp.runAll h ops = some h' ∧ ListsOK h' L' ∧
      (∀ list l, L' list = some l → Shows h' list l) ∧
      ∀ S : Finset ℕ, (∀ hd, L hd ≠ none → hd ∈ S) → ∃ gone : Multiset ℕ,
        L'.values S + gone = L.values S + (ops.map ListOp.added).sum ∧ gone.card = (ops.map ListOp.deleted).sum := by
  obtain ⟨h', heq, hOK'⟩ := listOp_run hrun hOK hfresh
  exact ⟨h', heq, hOK', fun list l hl => (hOK'.lists list l hl).shows, fun S hS => hrun.values hS⟩

/-- Two empty lists. -/
def twoHeads : ListHeap := fun a =>
  if a = 0x100 then some ⟨0, 0x100, 0x100⟩ else if a = 0x200 then some ⟨0, 0x200, 0x200⟩ else none

/-- Their sequences. -/
def twoEmpty : Lists := fun a => if a = 0x100 then some [] else if a = 0x200 then some [] else none

theorem twoHeads_ok : ListsOK twoHeads twoEmpty := by
  have hcases {hd : ℕ} {l : List (ℕ × ℕ)} (hl : twoEmpty hd = some l) : (hd = 0x100 ∨ hd = 0x200) ∧ l = [] := by
    unfold twoEmpty at hl
    split_ifs at hl with h1 h2
    · exact ⟨.inl h1, (Option.some.inj hl).symm⟩
    · exact ⟨.inr h2, (Option.some.inj hl).symm⟩
  constructor
  · intro hd l hl
    obtain ⟨hd | hd, rfl⟩ := hcases hl
    · subst hd
      exact ⟨0, ⟨by decide, by decide, ⟨_, rfl, rfl⟩, trivial⟩, ⟨by decide, by decide, ⟨_, rfl, rfl⟩, trivial⟩⟩
    · subst hd
      exact ⟨0, ⟨by decide, by decide, ⟨_, rfl, rfl⟩, trivial⟩, ⟨by decide, by decide, ⟨_, rfl, rfl⟩, trivial⟩⟩
  · intro hd hd' l l' hl hl' hne
    obtain ⟨-, rfl⟩ := hcases hl
    obtain ⟨-, rfl⟩ := hcases hl'
    exact fun z hz hz' => hne ((List.mem_singleton.1 hz).symm.trans (List.mem_singleton.1 hz'))

/-- An element is added to one list and moved to the other one. -/
theorem lists_refine_two : ∃ h', ListOp.runAll twoHeads [.add 0x100 7 0x300, .move 0x300 0x200 0x310] = some h' ∧
    Shows h' 0x100 [] ∧ Shows h' 0x200 [(0x310, 7)] := by
  have hadd : twoEmpty 0x100 = some [] := rfl
  have hmid : Function.update twoEmpty 0x100 (some ([] ++ [(0x300, 7)])) 0x100 = some ([] ++ (0x300, 7) :: []) :=
    Function.update_self ..
  have hother : Function.update (Function.update twoEmpty 0x100 (some ([] ++ [(0x300, 7)]))) 0x100
    (some ([] ++ [])) 0x200 = some [] := rfl
  have hrun : Lists.Run twoEmpty [.add 0x100 7 0x300, .move 0x300 0x200 0x310] _ :=
    .cons (.add hadd) (.cons (.move hmid hother) (.nil _))
  have hfresh : ListOp.FreshAll twoHeads [.add 0x100 7 0x300, .move 0x300 0x200 0x310] := by
    refine ⟨⟨by decide, rfl⟩, fun h' hh' => ⟨⟨by decide, ?_⟩, fun _ _ => trivial⟩⟩
    have hfree : ((ListOp.add 0x100 7 0x300).run twoHeads).map (· 0x310) = some none := rfl
    rw [hh'] at hfree
    exact Option.some.inj hfree
  obtain ⟨h', heq, -, hshows, -⟩ := lists_refine twoHeads twoEmpty _ _ twoHeads_ok hrun hfresh
  exact ⟨h', heq, hshows _ _ rfl, hshows _ _ rfl⟩

end Saynaa
