import Saynaa.Lib.Linked

/-!
# Circular doubly linked lists

The links forwards and those backwards are read as two circles of the same nodes: `f` and `b` map an address to a
payload and a link. A list has a head, which carries no element.

* `Doubly f b nil a l`: the elements `l` behind the head `a`, in both directions.
* `Doubly.symm`: turning around.
* `Doubly.next_head`, `Doubly.next_at`, `Doubly.prev_head`, `Doubly.prev_at`: the links.
* `Doubly.push_front`, `Doubly.push_back`, `Doubly.remove`, `Doubly.splice`: the links that each change needs.
-/

namespace Lib

variable {α β : Type*} {f b f' b' : α → Option (β × α)} {nil : α} {a : α × β} {l l₁ l₂ m r : List (α × β)}
variable {x y z p q : α} {v w d e : β}

/-- **A list behind a head**, forwards and backwards. -/
structure Doubly (f b : α → Option (β × α)) (nil : α) (a : α × β) (l : List (α × β)) : Prop where
  forward : Ring id f nil (a :: l)
  backward : Ring id b nil (a :: l.reverse)

/-- **Turning around.** -/
theorem Doubly.symm (h : Doubly f b nil a l) : Doubly b f nil a l.reverse := by
  refine ⟨h.backward, ?_⟩
  rw [List.reverse_reverse]
  exact h.forward

theorem Doubly.congr (h : Doubly f b nil a l) (hf : ∀ z ∈ addrs (a :: l), f' z = f z)
    (hb : ∀ z ∈ addrs (a :: l), b' z = b z) : Doubly f' b' nil a l := by
  refine ⟨h.forward.congr hf, h.backward.congr fun z hz => hb z ?_⟩
  unfold addrs at hz ⊢
  rw [List.map_cons, List.map_reverse, List.mem_cons, List.mem_reverse] at hz
  exact List.mem_cons.2 hz

theorem mem_addrs_reverse : z ∈ addrs l.reverse ↔ z ∈ addrs l := by
  unfold addrs
  rw [List.map_reverse, List.mem_reverse]

/-- What stands behind the elements in the other direction. -/
theorem reverse_split (hq : l ++ [(x, v)] = (q, e) :: r) : (x, v) :: l.reverse = r.reverse ++ [(q, e)] := by
  have hrev := congrArg List.reverse hq
  rwa [List.reverse_append, List.reverse_singleton, List.reverse_cons] at hrev

theorem first_of_split (hq : l ++ [(x, v)] = (q, e) :: r) : first l x = q := by
  have hfirst := congrArg (first · x) hq
  rwa [first_append] at hfirst

theorem Doubly.next_head (h : Doubly f b nil (x, v) l) : f x = some (v, first l x) := by
  have hr : Ring id f nil ([] ++ (x, v) :: l) := h.forward
  obtain ⟨n, hn, hp⟩ := hr.node
  rw [List.append_nil] at hp
  rw [hn, ← hp]
  rfl

theorem Doubly.prev_head (h : Doubly f b nil (x, v) l) : b x = some (v, first l.reverse x) := h.symm.next_head

theorem Doubly.next_at (h : Doubly f b nil (x, v) (l₁ ++ (y, w) :: l₂)) : f y = some (w, first l₂ x) := by
  have hr : Ring id f nil (((x, v) :: l₁) ++ (y, w) :: l₂) := h.forward
  obtain ⟨n, hn, hp⟩ := hr.node
  rw [first_append, first_cons] at hp
  rw [hn, ← hp]
  rfl

theorem Doubly.prev_at (h : Doubly f b nil (x, v) (l₁ ++ (y, w) :: l₂)) : b y = some (w, first l₁.reverse x) := by
  have hsymm := h.symm
  rw [List.reverse_append, List.reverse_cons, List.append_assoc] at hsymm
  exact hsymm.next_at

/-- The head and the elements have their payloads. -/
theorem Doubly.payload (h : Doubly f b nil (x, v) l) (hz : (z, d) ∈ (x, v) :: l) : ∃ t, f z = some (d, t) := by
  rcases List.mem_cons.1 hz with heq | hz
  · obtain ⟨rfl, rfl⟩ := Prod.mk.inj heq
    exact ⟨_, h.next_head⟩
  · obtain ⟨l₁, l₂, rfl⟩ := List.append_of_mem hz
    exact ⟨_, h.next_at⟩

/-- **A new first element** `y`, in front of `q`. -/
theorem Doubly.push_front (h : Doubly f b nil (x, v) l) (hy : y ≠ nil) (hny : y ∉ addrs ((x, v) :: l))
    (hq : l ++ [(x, v)] = (q, e) :: r) (hfx : f' x = some (v, y)) (hfy : f' y = some (w, q))
    (hbq : b' q = some (e, y))
    (hby : b' y = some (w, x)) (hf : ∀ z, z ≠ x → z ≠ y → f' z = f z) (hb : ∀ z, z ≠ q → z ≠ y → b' z = b z) :
    Doubly f' b' nil (x, v) ((y, w) :: l) := by
  have hny' : y ≠ x ∧ y ∉ addrs l := by rwa [addrs_cons, List.mem_cons, not_or] at hny
  constructor
  · refine h.forward.insert hy hny ⟨_, hfx, rfl⟩ ⟨_, hfy, ?_⟩ ?_
    · rw [first_of_split hq]
      rfl
    · intro z hz
      refine hf z ?_ fun heq => hny'.2 (heq ▸ hz)
      rintro rfl
      exact (List.nodup_cons.1 h.forward.nodup).1 hz
  · have hback := h.backward
    have hyr : y ∉ addrs ((x, v) :: l.reverse) := by
      rw [addrs_cons, List.mem_cons, mem_addrs_reverse, not_or]
      exact hny'
    rw [reverse_split hq] at hback hyr
    have hnew : (x, v) :: ((y, w) :: l).reverse = r.reverse ++ [(q, e), (y, w)] := by
      rw [List.reverse_cons, ← List.cons_append, reverse_split hq, List.append_assoc]
      rfl
    rw [hnew]
    refine hback.insert_last hy hyr ⟨_, hbq, rfl⟩ ⟨_, hby, ?_⟩ ?_
    · rw [← reverse_split hq]
      rfl
    · intro z hz
      have hnd := hback.nodup
      rw [addrs_append, addrs_cons, addrs_nil, List.nodup_append] at hnd
      refine hb z (hnd.2.2 z hz q List.mem_cons_self) ?_
      rintro rfl
      rw [addrs_append] at hyr
      exact hyr (List.mem_append_left _ hz)

/-- **A new last element** `y`, behind `p`. -/
theorem Doubly.push_back (h : Doubly f b nil (x, v) l) (hy : y ≠ nil) (hny : y ∉ addrs ((x, v) :: l))
    (hp : (x, v) :: l = r ++ [(p, d)]) (hfp : f' p = some (d, y)) (hfy : f' y = some (w, x))
    (hbx : b' x = some (v, y))
    (hby : b' y = some (w, p)) (hf : ∀ z, z ≠ p → z ≠ y → f' z = f z) (hb : ∀ z, z ≠ x → z ≠ y → b' z = b z) :
    Doubly f' b' nil (x, v) (l ++ [(y, w)]) := by
  have hp' : l.reverse ++ [(x, v)] = (p, d) :: r.reverse := by
    have hrev := congrArg List.reverse hp
    rwa [List.reverse_cons, List.reverse_append] at hrev
  have hny' : y ∉ addrs ((x, v) :: l.reverse) := by
    rwa [addrs_cons, List.mem_cons, mem_addrs_reverse, ← List.mem_cons, ← addrs_cons]
  have hrev := (h.symm.push_front hy hny' hp' hbx hby hfp hfy hb hf).symm
  rwa [List.reverse_cons, List.reverse_reverse] at hrev

/-- One direction of taking out an element. -/
theorem ring_remove (h : Ring id f nil ((x, v) :: (l₁ ++ (y, w) :: l₂))) (hp : (x, v) :: l₁ = m ++ [(p, d)])
    (hq : first l₂ x = q)
    (hfp : f' p = some (d, q)) (hf : ∀ z, z ≠ p → z ≠ y → f' z = f z) : Ring id f' nil ((x, v) :: (l₁ ++ l₂)) := by
  rw [← List.cons_append, hp, List.append_assoc] at h
  rw [← List.cons_append, hp, List.append_assoc]
  have hnd := h.nodup
  simp only [List.singleton_append, addrs_append, addrs_cons, List.nodup_append, List.nodup_cons,
    List.mem_cons] at hnd
  obtain ⟨-, ⟨hpn, hyn, -⟩, hdis⟩ := hnd
  refine h.remove_at ⟨_, hfp, ?_⟩ ?_
  · have hm : first m p = x := first_of_split (x := p) (v := d) hp.symm
    rw [first_append, hm, hq]
    rfl
  · intro z hz
    rw [addrs_append, List.mem_append] at hz
    refine hf z ?_ ?_
    · rintro rfl
      rcases hz with hz | hz
      · exact hdis z hz z (.inl rfl) rfl
      · exact hpn (.inr hz)
    · rintro rfl
      rcases hz with hz | hz
      · exact hdis z hz z (.inr (.inl rfl)) rfl
      · exact hyn hz

/-- **Taking out** the element `y` between `p` and `q`. -/
theorem Doubly.remove (h : Doubly f b nil (x, v) (l₁ ++ (y, w) :: l₂)) (hp : (x, v) :: l₁ = m ++ [(p, d)])
    (hq : l₂ ++ [(x, v)] = (q, e) :: r) (hfp : f' p = some (d, q)) (hbq : b' q = some (e, p))
    (hf : ∀ z, z ≠ p → z ≠ y → f' z = f z) (hb : ∀ z, z ≠ q → z ≠ y → b' z = b z) :
    Doubly f' b' nil (x, v) (l₁ ++ l₂) := by
  refine ⟨ring_remove h.forward hp (first_of_split hq) hfp hf, ?_⟩
  have hpr : l₁.reverse ++ [(x, v)] = (p, d) :: m.reverse := by
    have hrev := congrArg List.reverse hp
    rwa [List.reverse_cons, List.reverse_append] at hrev
  have hback := h.backward
  rw [List.reverse_append, List.reverse_cons, List.append_assoc] at hback
  rw [List.reverse_append]
  exact ring_remove hback (reverse_split hq) (first_of_split hpr) hbq hb

/-- **Splicing** the elements `m` of another list in front of those of a list: `p` is the first of them, `q` the
last one, and `z` the first that was there before. -/
theorem Doubly.splice {u : β} {r' t : List (α × β)} (ht : Doubly f b nil (x, v) l) (hs : Doubly f b nil a m)
    (hdis : List.Disjoint (addrs m) (addrs ((x, v) :: l))) (hp : m = (p, d) :: r) (hq : m = r' ++ [(q, e)])
    (hz : l ++ [(x, v)] = (z, u) :: t) (hfx : f' x = some (v, p)) (hfq : f' q = some (e, z))
    (hbp : b' p = some (d, x))
    (hbz : b' z = some (u, q)) (hf : ∀ c, c ≠ x → c ≠ q → f' c = f c) (hb : ∀ c, c ≠ p → c ≠ z → b' c = b c) :
    Doubly f' b' nil (x, v) (m ++ l) := by
  have hnd := (List.nodup_cons.1 hs.forward.nodup).2
  have hne := hs.forward.ne_nil
  rw [addrs_cons, List.mem_cons, not_or] at hne
  constructor
  · -- forwards, the spliced list follows the head
    have hlink := hs.forward.linked.2
    have hfirst : first m x = p := by rw [hp, first_cons]
    rw [hq] at hlink hdis hne hnd hfirst ⊢
    refine ht.forward.splice hlink hnd hne.2 hdis ⟨_, hfx, ?_⟩ ⟨_, hfq, ?_⟩ hf
    · rw [hfirst]
      rfl
    · rw [first_of_split hz]
      rfl
  · -- backwards, its reverse comes between the old list and the head
    have hlink := hs.backward.linked.2
    have hback := ht.backward
    have hrev : m.reverse = r.reverse ++ [(p, d)] := by rw [hp, List.reverse_cons]
    have hfirst : first m.reverse z = q := by
      rw [hq, List.reverse_append]
      rfl
    have hdis' : List.Disjoint (addrs m.reverse) (addrs ((x, v) :: l.reverse)) := by
      intro c hc hc'
      rw [addrs_cons, List.mem_cons, mem_addrs_reverse] at hc'
      exact hdis (mem_addrs_reverse.1 hc) (List.mem_cons.2 hc')
    have hnd' : (addrs m.reverse).Nodup := by
      unfold addrs
      rw [List.map_reverse, List.nodup_reverse]
      exact hnd
    have hne' : nil ∉ addrs m.reverse := fun hin => hne.2 (mem_addrs_reverse.1 hin)
    have hall : (x, v) :: (m ++ l).reverse = (t.reverse ++ [(z, u)]) ++ m.reverse := by
      rw [List.reverse_append, ← List.cons_append, reverse_split hz]
    rw [hall]
    rw [reverse_split hz] at hback hdis'
    rw [hrev] at hlink hfirst hdis' hnd' hne' ⊢
    refine hback.splice_last hlink hnd' hne' hdis' ⟨_, hbz, ?_⟩ ⟨_, hbp, ?_⟩ fun c hcz hcp => hb c hcp hcz
    · rw [hfirst]
      rfl
    · rw [← reverse_split hz]
      rfl

end Lib
