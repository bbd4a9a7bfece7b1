import Mathlib.Tactic
import Mathlib.Data.List.Nodup

/-!
# Circular singly linked lists

A heap `h : α → Option ν` maps addresses to nodes, and `π` reads the payload and the link
of a node. Lists of pairs (address, payload) describe what a chain of links runs through.

* `Linked π h l b`: the nodes of `l`, each linked to the next one and the last to `b`.
* `Ring π h nil l`: `l` is a circle of distinct nodes.
* `Ring.rotate`, `Ring.insert`, `Ring.remove`: moving the start, inserting behind the
  first node, removing the second one.
* `Ring.remove_first`, `Ring.remove_at`: removing the first node, or any other one.
* `Ring.insert_last`, `Ring.splice`, `Ring.splice_last`: inserting behind the last node, one node or a chain.
-/

namespace Lib

variable {α β ν : Type*} {π : ν → β × α} {h h' : α → Option ν}

/-- The first address of `l`, or `b` if there is none. -/
def first : List (α × β) → α → α
  | [], b => b
  | (x, _) :: _, _ => x

/-- The addresses of `l`. -/
def addrs (l : List (α × β)) : List α := l.map Prod.fst

/-- **A chain of links** through the nodes of `l`, ending at `b`. -/
def Linked (π : ν → β × α) (h : α → Option ν) : List (α × β) → α → Prop
  | [], _ => True
  | (x, v) :: l, b => (∃ n, h x = some n ∧ π n = (v, first l b)) ∧ Linked π h l b

variable {l l₁ l₂ m : List (α × β)} {b x y nil : α} {v w : β}

@[simp] theorem first_nil : first ([] : List (α × β)) b = b := rfl
@[simp] theorem first_cons : first ((x, v) :: l) b = x := rfl

theorem first_append : first (l₁ ++ l₂) b = first l₁ (first l₂ b) := by cases l₁ <;> rfl

@[simp] theorem addrs_nil : addrs ([] : List (α × β)) = [] := rfl
@[simp] theorem addrs_cons : addrs ((x, v) :: l) = x :: addrs l := rfl
@[simp] theorem addrs_append : addrs (l₁ ++ l₂) = addrs l₁ ++ addrs l₂ := List.map_append

theorem first_mem (hl : l ≠ []) : first l b ∈ addrs l := by
  cases l with
  | nil => exact absurd rfl hl
  | cons a l => exact List.mem_cons_self

theorem linked_append : Linked π h (l₁ ++ l₂) b ↔ Linked π h l₁ (first l₂ b) ∧ Linked π h l₂ b := by
  induction l₁ with
  | nil => simp [Linked]
  | cons a l ih =>
    obtain ⟨x, v⟩ := a
    simp only [List.cons_append, Linked, first_append, ih, and_assoc]

/-- A chain depends on its own nodes only. -/
theorem Linked.congr (hl : Linked π h l b) (hf : ∀ z ∈ addrs l, h' z = h z) : Linked π h' l b := by
  induction l with
  | nil => trivial
  | cons a l ih =>
    obtain ⟨x, v⟩ := a
    obtain ⟨hx, hl⟩ := hl
    refine ⟨?_, ih hl fun z hz => hf z (List.mem_cons_of_mem _ hz)⟩
    rw [hf x List.mem_cons_self]
    exact hx

/-- A chain that does not run through its end is determined by its start. -/
theorem Linked.unique (hl₁ : Linked π h l₁ b) (hl₂ : Linked π h l₂ b) (hb₁ : b ∉ addrs l₁)
    (hb₂ : b ∉ addrs l₂) (hf : first l₁ b = first l₂ b) : l₁ = l₂ := by
  induction l₁ generalizing l₂ with
  | nil =>
    cases l₂ with
    | nil => rfl
    | cons c l₂ =>
      rw [first_nil] at hf
      exact absurd (hf ▸ first_mem (List.cons_ne_nil c l₂)) hb₂
  | cons a l₁ ih =>
    cases l₂ with
    | nil =>
      rw [first_nil] at hf
      exact absurd (hf ▸ first_mem (List.cons_ne_nil a l₁)) hb₁
    | cons c l₂ =>
      obtain ⟨x, v⟩ := a
      obtain ⟨y, w⟩ := c
      obtain rfl : x = y := hf
      obtain ⟨⟨n, hn, hp⟩, hl₁⟩ := hl₁
      obtain ⟨⟨n', hn', hp'⟩, hl₂⟩ := hl₂
      obtain rfl := Option.some.inj (hn.symm.trans hn')
      obtain ⟨rfl, hf'⟩ := Prod.mk.inj (hp.symm.trans hp')
      rw [addrs_cons, List.mem_cons, not_or] at hb₁ hb₂
      rw [ih hl₁ hl₂ hb₁.2 hb₂.2 hf']

/-- **A circle** of distinct nodes, none of them at address `nil`. -/
structure Ring (π : ν → β × α) (h : α → Option ν) (nil : α) (l : List (α × β)) : Prop where
  nodup : (addrs l).Nodup
  ne_nil : nil ∉ addrs l
  linked : Linked π h l (first l nil)

theorem Ring.empty : Ring π h nil [] := ⟨List.nodup_nil, List.not_mem_nil, trivial⟩

/-- The node of `(x, v)` links to the node after it, the last one to the first. -/
theorem Ring.node (hr : Ring π h nil (l₁ ++ (x, v) :: l₂)) :
    ∃ n, h x = some n ∧ π n = (v, first (l₂ ++ l₁) x) := by
  obtain ⟨n, hn, hp⟩ := (linked_append.1 hr.linked).2.1
  refine ⟨n, hn, ?_⟩
  rw [hp]
  cases l₂ with
  | nil => simp [first_append]
  | cons a l₂ => rfl

theorem Ring.rotate_one (hr : Ring π h nil ((x, v) :: l)) : Ring π h nil (l ++ [(x, v)]) := by
  have hperm : (addrs (l ++ [(x, v)])).Perm (addrs ((x, v) :: l)) := by simp
  obtain ⟨hx, hl⟩ := hr.linked
  refine ⟨hperm.nodup_iff.2 hr.nodup, fun hm => hr.ne_nil (hperm.subset hm), ?_⟩
  rw [first_append, first_cons, linked_append]
  exact ⟨hl, hx, trivial⟩

/-- A circle is determined by its start. -/
theorem Ring.unique (hr₁ : Ring π h nil l₁) (hr₂ : Ring π h nil l₂) (hf : first l₁ nil = first l₂ nil) :
    l₁ = l₂ := by
  cases l₁ with
  | nil =>
    cases l₂ with
    | nil => rfl
    | cons c l₂ =>
      have hm : first (c :: l₂) nil ∈ addrs (c :: l₂) := first_mem (List.cons_ne_nil c l₂)
      rw [← hf] at hm
      exact absurd hm hr₂.ne_nil
  | cons a l₁ =>
    cases l₂ with
    | nil =>
      have hm : first (a :: l₁) nil ∈ addrs (a :: l₁) := first_mem (List.cons_ne_nil a l₁)
      rw [hf] at hm
      exact absurd hm hr₁.ne_nil
    | cons c l₂ =>
      obtain ⟨x, v⟩ := a
      obtain ⟨y, w⟩ := c
      obtain rfl : x = y := hf
      obtain ⟨⟨n, hn, hp⟩, hl₁⟩ := hr₁.linked
      obtain ⟨⟨n', hn', hp'⟩, hl₂⟩ := hr₂.linked
      obtain rfl := Option.some.inj (hn.symm.trans hn')
      obtain ⟨rfl, hf'⟩ := Prod.mk.inj (hp.symm.trans hp')
      rw [hl₁.unique hl₂ (List.nodup_cons.1 hr₁.nodup).1 (List.nodup_cons.1 hr₂.nodup).1 hf']

/-- **A circle has no distinguished start.** -/
theorem Ring.rotate (l₁ l₂ : List (α × β)) (hr : Ring π h nil (l₁ ++ l₂)) :
    Ring π h nil (l₂ ++ l₁) := by
  induction l₁ generalizing l₂ with
  | nil => simpa using hr
  | cons a l ih =>
    obtain ⟨x, v⟩ := a
    have h1 : Ring π h nil (l ++ (l₂ ++ [(x, v)])) := by
      rw [← List.append_assoc]
      exact Ring.rotate_one hr
    have h2 := ih _ h1
    rwa [List.append_assoc] at h2

/-- **Insertion** of a new node behind the first one. -/
theorem Ring.insert (hr : Ring π h nil ((x, v) :: l)) (hy : y ≠ nil) (hny : y ∉ addrs ((x, v) :: l))
    (hx' : ∃ n, h' x = some n ∧ π n = (v, y)) (hy' : ∃ n, h' y = some n ∧ π n = (w, first l x))
    (hf : ∀ z ∈ addrs l, h' z = h z) : Ring π h' nil ((x, v) :: (y, w) :: l) := by
  have hnd := List.nodup_cons.1 hr.nodup
  have hyx : y ≠ x ∧ y ∉ addrs l := by simpa using hny
  refine ⟨?_, ?_, hx', hy', hr.linked.2.congr hf⟩
  · simp only [addrs_cons, List.nodup_cons, List.mem_cons, not_or]
    exact ⟨⟨hyx.1.symm, hnd.1⟩, hyx.2, hnd.2⟩
  · have := hr.ne_nil
    simp only [addrs_cons, List.mem_cons, not_or] at this ⊢
    exact ⟨this.1, hy.symm, this.2⟩

/-- **Removal** of the second node. -/
theorem Ring.remove (hr : Ring π h nil ((x, v) :: (y, w) :: l))
    (hx' : ∃ n, h' x = some n ∧ π n = (v, first l x)) (hf : ∀ z ∈ addrs l, h' z = h z) :
    Ring π h' nil ((x, v) :: l) := by
  have hnd := hr.nodup
  have hne := hr.ne_nil
  simp only [addrs_cons, List.nodup_cons, List.mem_cons, not_or] at hnd hne
  refine ⟨?_, ?_, hx', hr.linked.2.2.congr hf⟩
  · exact List.nodup_cons.2 ⟨hnd.1.2, hnd.2.2⟩
  · simp only [addrs_cons, List.mem_cons, not_or]
    exact ⟨hne.1, hne.2.2⟩

/-- **Removal** of the first node: the last one links to the second one. -/
theorem Ring.remove_first (hr : Ring π h nil ((x, v) :: (l ++ [(y, w)])))
    (hy : ∃ n, h' y = some n ∧ π n = (w, first (l ++ [(y, w)]) nil)) (hf : ∀ z ∈ addrs l, h' z = h z) :
    Ring π h' nil (l ++ [(y, w)]) := by
  have hne := hr.ne_nil
  rw [addrs_cons, List.mem_cons, not_or] at hne
  refine ⟨(List.nodup_cons.1 hr.nodup).2, hne.2, ?_⟩
  have hl := linked_append.1 hr.linked.2
  exact linked_append.2 ⟨hl.1.congr hf, hy, trivial⟩

/-- **Removal** of any node but the first. -/
theorem Ring.remove_at (hr : Ring π h nil (l₁ ++ (x, v) :: (y, w) :: l₂))
    (hx : ∃ n, h' x = some n ∧ π n = (v, first (l₂ ++ l₁) x)) (hf : ∀ z ∈ addrs (l₁ ++ l₂), h' z = h z) :
    Ring π h' nil (l₁ ++ (x, v) :: l₂) := by
  have hrot : Ring π h nil ((x, v) :: (y, w) :: (l₂ ++ l₁)) := Ring.rotate l₁ ((x, v) :: (y, w) :: l₂) hr
  refine Ring.rotate ((x, v) :: l₂) l₁ (hrot.remove hx fun z hz => hf z ?_)
  rw [addrs_append, List.mem_append] at hz ⊢
  exact hz.symm

theorem Ring.congr (hr : Ring π h nil l) (hf : ∀ z ∈ addrs l, h' z = h z) : Ring π h' nil l :=
  ⟨hr.nodup, hr.ne_nil, hr.linked.congr hf⟩

/-- **Insertion** of a new node behind the last one. -/
theorem Ring.insert_last (hr : Ring π h nil (l ++ [(x, v)])) (hy : y ≠ nil) (hny : y ∉ addrs (l ++ [(x, v)]))
    (hx' : ∃ n, h' x = some n ∧ π n = (v, y)) (hy' : ∃ n, h' y = some n ∧ π n = (w, first (l ++ [(x, v)]) nil))
    (hf : ∀ z ∈ addrs l, h' z = h z) : Ring π h' nil (l ++ [(x, v), (y, w)]) := by
  have hrot : Ring π h nil ((x, v) :: l) := Ring.rotate l [(x, v)] hr
  rw [first_append, first_cons] at hy'
  refine Ring.rotate [(x, v), (y, w)] l (hrot.insert hy ?_ hx' hy' hf)
  intro hin
  rw [addrs_cons, List.mem_cons] at hin
  rw [addrs_append, List.mem_append] at hny
  exact hny (hin.elim (fun heq => .inr (List.mem_singleton.2 heq)) .inl)

/-- **Splicing**: a chain of other nodes comes behind the first one. -/
theorem Ring.splice (hr : Ring π h nil ((x, v) :: l)) (hm : Linked π h (m ++ [(y, w)]) b)
    (hnd : (addrs (m ++ [(y, w)])).Nodup)
    (hne : nil ∉ addrs (m ++ [(y, w)])) (hdis : List.Disjoint (addrs (m ++ [(y, w)])) (addrs ((x, v) :: l)))
    (hx' : ∃ n, h' x = some n ∧ π n = (v, first (m ++ [(y, w)]) x)) (hy' : ∃ n, h' y = some n ∧ π n = (w, first l x))
    (hf : ∀ z, z ≠ x → z ≠ y → h' z = h z) : Ring π h' nil ((x, v) :: ((m ++ [(y, w)]) ++ l)) := by
  have hf' : (∀ z ∈ addrs m, h' z = h z) ∧ ∀ z ∈ addrs l, h' z = h z := by
    have hxl : x ∉ addrs l := (List.nodup_cons.1 hr.nodup).1
    rw [addrs_append] at hdis hnd
    constructor
    · intro z hz
      refine hf z ?_ fun heq => (List.nodup_append.1 hnd).2.2 z hz y List.mem_cons_self heq
      rintro rfl
      exact hdis (List.mem_append_left _ hz) List.mem_cons_self
    · intro z hz
      refine hf z (fun heq => hxl (heq ▸ hz)) ?_
      rintro rfl
      exact hdis (List.mem_append_right _ List.mem_cons_self) (List.mem_cons_of_mem _ hz)
  refine ⟨?_, ?_, ?_, ?_⟩
  · -- no address is met twice
    have hperm : (addrs ((x, v) :: ((m ++ [(y, w)]) ++ l))).Perm (addrs (m ++ [(y, w)]) ++ addrs ((x, v) :: l)) := by
      rw [addrs_cons, addrs_cons, addrs_append]
      exact List.perm_middle.symm
    rw [hperm.nodup_iff]
    exact hnd.append hr.nodup hdis
  · have hxl := hr.ne_nil
    rw [addrs_cons, List.mem_cons, not_or] at hxl
    rw [addrs_cons, addrs_append, List.mem_cons, List.mem_append]
    rintro (heq | hin | hin)
    · exact hxl.1 heq
    · exact hne hin
    · exact hxl.2 hin
  · rw [first_cons, first_append]
    obtain ⟨n, hn, hp⟩ := hx'
    refine ⟨n, hn, ?_⟩
    rw [hp]
    cases m <;> rfl
  · -- the links lead into the spliced list, and out of it to the old first element
    rw [first_cons, linked_append, linked_append]
    refine ⟨⟨(linked_append.1 hm).1.congr hf'.1, hy', trivial⟩, hr.linked.2.congr hf'.2⟩

/-- **Splicing** behind the last node. -/
theorem Ring.splice_last (hr : Ring π h nil (l ++ [(x, v)])) (hm : Linked π h (m ++ [(y, w)]) b)
    (hnd : (addrs (m ++ [(y, w)])).Nodup) (hne : nil ∉ addrs (m ++ [(y, w)]))
    (hdis : List.Disjoint (addrs (m ++ [(y, w)])) (addrs (l ++ [(x, v)])))
    (hx' : ∃ n, h' x = some n ∧ π n = (v, first (m ++ [(y, w)]) x))
    (hy' : ∃ n, h' y = some n ∧ π n = (w, first (l ++ [(x, v)]) nil)) (hf : ∀ z, z ≠ x → z ≠ y → h' z = h z) :
    Ring π h' nil ((l ++ [(x, v)]) ++ (m ++ [(y, w)])) := by
  have hrot : Ring π h nil ((x, v) :: l) := Ring.rotate l [(x, v)] hr
  have hdis' : List.Disjoint (addrs (m ++ [(y, w)])) (addrs ((x, v) :: l)) := by
    intro z hz hz'
    refine hdis hz ?_
    rw [addrs_append]
    exact List.mem_append.2 ((List.mem_cons.1 hz').elim (fun heq => .inr (List.mem_singleton.2 heq)) .inl)
  rw [first_append, first_cons] at hy'
  have hall := Ring.rotate ((x, v) :: (m ++ [(y, w)])) l (hrot.splice hm hnd hne hdis' hx' hy' hf)
  rwa [List.append_cons] at hall

end Lib
