import Saynaa.Mem.Malloc
import Saynaa.Lib.Linked
import Saynaa.Lib.Loop

/-!
# Chains of heap blocks

What the kernel's allocator and the one of the C library share: blocks one behind the
other between two addresses.

* `Layout lo hi`: blocks between `lo` and `hi`, of which the first is the empty used one.
* `ChainIs lo hi h bs e`: the chain from `bottom` to `top` runs through the blocks `bs`.
* `findLoop_ok`, `memFindBlock_chain`: the search returns the first block that fits.
* `ChainIs.setUsed`, `ChainIs.push`, `memNewBlock_chain`: flipping a used flag and appending.
* `livePtrs`: the pointers that callers hold.
-/

namespace Saynaa

open Lib Heap

/-- A block without its link. -/
structure Block where
  addr : ℕ
  size : ℕ
  used : Bool
  deriving DecidableEq

namespace Block

/-- Where the payload ends. -/
def stop (b : Block) : ℕ := b.addr + headerSize + b.size

/-- The size word. -/
def word (b : Block) : ℕ := b.size + if b.used then 1 else 0

/-- Address and size word. -/
def entry (b : Block) : ℕ × ℕ := (b.addr, b.word)

/-- What the search looks for. -/
def fits (size align : ℕ) (b : Block) : Bool :=
  size ≤ b.size ∧ b.used = false ∧ memIsAligned b.addr align

end Block

/-- The size word and the link at an address. -/
def Heap.cell (h : Heap) (a : ℕ) : Option (ℕ × ℕ) := some (h.size a, h.next a)

/-- **Blocks between two addresses**, each behind the one before it; the first one is the empty
used block. Alignments up to a page stay in the address space. -/
structure Layout (lo hi : ℕ) (bs : List Block) : Prop where
  pos : 0 < lo
  small : hi + 8192 ≤ 2 ^ 32
  spaced : bs.Pairwise fun b c => b.addr + memBlockStruct + b.size ≤ c.addr
  inside : ∀ b ∈ bs, lo ≤ b.addr ∧ b.stop ≤ hi
  sizes : ∀ b ∈ bs, b.size % 4 = 0
  aligned : ∀ b ∈ bs.tail, b.addr % 4 = 0
  bottom : ∃ bs', bs = ⟨lo, 0, true⟩ :: bs'

/-- **The chain of blocks from `bottom` to `top`**, where the last link is `e`. -/
structure ChainIs (lo hi : ℕ) (h : Heap) (bs : List Block) (e : ℕ) : Prop extends Layout lo hi bs where
  bottom_eq : h.bottom = lo
  linked : Linked id h.cell (bs.map Block.entry) e
  top_eq : (bs.map Block.addr).getLast? = some h.top

variable {lo hi : ℕ} {h h' : Heap} {bs l l₁ l₂ : List Block} {b t : Block} {size align e e' : ℕ}

/-! ### Lists of blocks -/

theorem Layout.addr_le (hs : Layout lo hi bs) (hb : b ∈ bs) : b.addr + 8 + b.size ≤ hi := (hs.inside b hb).2

/-- Changing a used flag keeps the layout. -/
theorem Layout.setUsed (hs : Layout lo hi (l₁ ++ b :: l₂)) (hne : l₁ ≠ []) (u : Bool) :
    Layout lo hi (l₁ ++ { b with used := u } :: l₂) := by
  have hsplit : ∀ {P : Block → Prop}, (P b → P { b with used := u }) → (∀ c ∈ l₁ ++ b :: l₂, P c) →
      ∀ c ∈ l₁ ++ { b with used := u } :: l₂, P c := by
    intro P hP hall c hc
    rcases List.mem_append.1 hc with hc | hc
    · exact hall c (List.mem_append_left _ hc)
    rcases List.mem_cons.1 hc with rfl | hc
    · exact hP (hall b (by simp))
    · exact hall c (by simp [hc])
  refine ⟨hs.pos, hs.small, ?_, hsplit id hs.inside, hsplit id hs.sizes, ?_, ?_⟩
  · have h1 := hs.spaced
    rw [List.pairwise_append, List.pairwise_cons] at h1 ⊢
    obtain ⟨p1, ⟨p2, p3⟩, p4⟩ := h1
    refine ⟨p1, ⟨p2, p3⟩, fun c hc d hd => ?_⟩
    rcases List.mem_cons.1 hd with rfl | hd
    · exact p4 c hc b List.mem_cons_self
    · exact p4 c hc d (List.mem_cons_of_mem _ hd)
  · have h1 := hs.aligned
    rw [List.tail_append_of_ne_nil hne] at h1 ⊢
    intro c hc
    rcases List.mem_append.1 hc with hc | hc
    · exact h1 c (List.mem_append_left _ hc)
    rcases List.mem_cons.1 hc with rfl | hc
    · exact h1 b (by simp)
    · exact h1 c (by simp [hc])
  · obtain ⟨bs', h4⟩ := hs.bottom
    cases l₁ with
    | nil => exact absurd rfl hne
    | cons c l₁ =>
      obtain ⟨rfl, -⟩ := List.cons.inj h4
      exact ⟨_, rfl⟩

/-- Appending a block. -/
theorem Layout.append (hs : Layout lo hi (l ++ [t])) (h1 : t.addr + memBlockStruct + t.size ≤ b.addr)
    (h2 : b.stop ≤ hi) (h3 : b.addr % 4 = 0 ∧ b.size % 4 = 0) : Layout lo hi (l ++ [t] ++ [b]) := by
  have hall : ∀ c ∈ l ++ [t], c.addr + memBlockStruct + c.size ≤ b.addr := by
    intro c hc
    rcases List.mem_append.1 hc with hl | ht
    · have h5 := (List.pairwise_append.1 hs.spaced).2.2 c hl t (List.mem_singleton_self t)
      omega
    · rwa [List.mem_singleton.1 ht]
  refine ⟨hs.pos, hs.small, ?_, ?_, ?_, ?_, ?_⟩
  · rw [List.pairwise_append]
    exact ⟨hs.spaced, List.pairwise_singleton _ _, fun c hc d hd => List.mem_singleton.1 hd ▸ hall c hc⟩
  · intro c hc
    rcases List.mem_append.1 hc with hc | hc
    · exact hs.inside c hc
    · rw [List.mem_singleton.1 hc]
      have h6 := (hs.inside t (by simp)).1
      exact ⟨by omega, h2⟩
  · intro c hc
    rcases List.mem_append.1 hc with hc | hc
    · exact hs.sizes c hc
    · rw [List.mem_singleton.1 hc]
      exact h3.2
  · intro c hc
    rw [List.tail_append_of_ne_nil (by simp)] at hc
    rcases List.mem_append.1 hc with hc | hc
    · exact hs.aligned c hc
    · rw [List.mem_singleton.1 hc]
      exact h3.1
  · obtain ⟨bs', h4⟩ := hs.bottom
    exact ⟨bs' ++ [b], by rw [h4]; rfl⟩

theorem Layout.mono {hi' : ℕ} (hs : Layout lo hi bs) (hle : hi ≤ hi') (hsmall : hi' + 8192 ≤ 2 ^ 32) :
    Layout lo hi' bs :=
  { hs with
    small := hsmall
    inside := fun b hb => ⟨(hs.inside b hb).1, (hs.inside b hb).2.trans hle⟩ }

/-- Two blocks of a chain are the same or apart. -/
theorem Layout.apart (hs : Layout lo hi bs) {b c : Block} (hb : b ∈ bs) (hc : c ∈ bs) :
    b = c ∨ b.addr + memBlockStruct + b.size ≤ c.addr ∨ c.addr + memBlockStruct + c.size ≤ b.addr := by
  by_cases hbc : b = c
  · exact .inl hbc
  · have h1 : bs.Pairwise fun b c =>
        b.addr + memBlockStruct + b.size ≤ c.addr ∨ c.addr + memBlockStruct + c.size ≤ b.addr :=
      hs.spaced.imp Or.inl
    have : Std.Symm fun b c : Block =>
        b.addr + memBlockStruct + b.size ≤ c.addr ∨ c.addr + memBlockStruct + c.size ≤ b.addr := ⟨fun _ _ => Or.symm⟩
    exact .inr (h1.forall hb hc hbc)

/-- There are no more blocks than addresses. -/
theorem Layout.length_le (hs : Layout lo hi bs) : bs.length ≤ 2 ^ 32 := by
  have hnodup : (bs.map Block.addr).Nodup := by
    rw [List.Nodup, List.pairwise_map]
    refine hs.spaced.imp ?_
    intro b c hbc
    unfold memBlockStruct at hbc
    omega
  have hsub : bs.map Block.addr ⊆ List.range (2 ^ 32) := by
    intro a ha
    obtain ⟨b, hb, rfl⟩ := List.mem_map.1 ha
    have h1 := hs.addr_le hb
    have h2 := hs.small
    exact List.mem_range.2 (by omega)
  simpa using (hnodup.subperm hsub).length_le

/-- Everything in the chain ends before the block behind the top. -/
theorem Layout.before (hs : Layout lo hi (l ++ [t])) :
    ∀ c ∈ l ++ [t], c.addr + 12 + c.size ≤ t.addr + 12 + t.size := by
  intro c hc
  have hms : memBlockStruct = 12 := rfl
  rcases List.mem_append.1 hc with hc | hc
  · have h1 := (List.pairwise_append.1 hs.spaced).2.2 c hc t (List.mem_singleton_self t)
    omega
  · rw [List.mem_singleton.1 hc]

/-! ### Words of the heap -/

theorem clearFlag_word (hb : b.size % 4 = 0) : clearFlag b.word = b.size := by
  unfold clearFlag Block.word
  split_ifs <;> omega

theorem setFlag_word (hb : b.size % 4 = 0) : setFlag b.word = ({ b with used := true } : Block).word := by
  unfold setFlag Block.word
  simp only [if_true]
  split_ifs <;> omega

theorem cell_setNext (a : ℕ) {v : ℕ} (hv : v < 2 ^ 32) : (h.setNext a v).cell a = some (h.size a, v) := by
  have h256 : (256 : ℕ) ^ 4 = 2 ^ 32 := by norm_num
  unfold Heap.cell Heap.size Heap.next Heap.setNext
  simp only
  rw [load_store (by omega), load_store_ne (by omega)]

theorem cell_setSize (a : ℕ) {v : ℕ} (hv : v < 2 ^ 32) : (h.setSize a v).cell a = some (v, h.next a) := by
  have h256 : (256 : ℕ) ^ 4 = 2 ^ 32 := by norm_num
  unfold Heap.cell Heap.size Heap.next Heap.setSize
  simp only
  rw [load_store (by omega), load_store_ne (by omega)]

theorem cell_setNext_ne {a c : ℕ} (v : ℕ) (hac : c + 8 ≤ a ∨ a + 8 ≤ c) :
    (h.setNext a v).cell c = h.cell c := by
  unfold Heap.cell Heap.size Heap.next Heap.setNext
  simp only
  rw [load_store_ne (by omega), load_store_ne (by omega)]

theorem cell_setSize_ne {a c : ℕ} (v : ℕ) (hac : c + 8 ≤ a ∨ a + 8 ≤ c) :
    (h.setSize a v).cell c = h.cell c := by
  unfold Heap.cell Heap.size Heap.next Heap.setSize
  simp only
  rw [load_store_ne (by omega), load_store_ne (by omega)]

/-- A cell depends on the eight bytes of the header. -/
theorem cell_congr {a : ℕ} {m : ℕ → UInt8} (hm : ∀ i < 8, m (a + i) = h.mem (a + i)) :
    ({ h with mem := m } : Heap).cell a = h.cell a := by
  have hsize : load 4 m (a + 4) = load 4 h.mem (a + 4) := by
    refine load_congr fun i hi => ?_
    rw [Nat.add_assoc]
    exact hm (4 + i) (by omega)
  have hnext : load 4 m a = load 4 h.mem a := load_congr fun i hi => hm i (by omega)
  exact congrArg some (Prod.ext hsize hnext)

theorem setNext_out {a x v : ℕ} (hx : x < a ∨ a + 4 ≤ x) : (h.setNext a v).mem x = h.mem x := store_out hx

theorem setSize_out {a x v : ℕ} (hx : x < a + 4 ∨ a + 8 ≤ x) : (h.setSize a v).mem x = h.mem x :=
  store_out (by omega)

theorem pushTop_out {x v : ℕ} (hx : x < h.top ∨ h.top + 4 ≤ x) : (h.pushTop v).mem x = h.mem x := setNext_out hx

/-- The words of a block in the chain. -/
theorem Linked.cell (hl : Linked id h.cell ((l₁ ++ b :: l₂).map Block.entry) e) :
    h.size b.addr = b.word ∧ h.next b.addr = first (l₂.map Block.entry) e := by
  rw [List.map_append, List.map_cons, linked_append] at hl
  obtain ⟨-, ⟨n, hn, hp⟩, -⟩ := hl
  have h1 : (h.size b.addr, h.next b.addr) = n := Option.some.inj hn
  rw [← h1] at hp
  exact Prod.mk.inj hp

/-! ### The search -/

/-- **The first block that fits**, if there is one. -/
theorem findLoop_ok (hb : ∀ b ∈ bs, b.addr ≠ 0 ∧ b.size % 4 = 0) (hne : bs ≠ [])
    (hl : Linked id h.cell (bs.map Block.entry) 0) {fuel : ℕ} (hf : bs.length ≤ fuel) :
    h.findLoop size align fuel (first (bs.map Block.entry) 0) =
      some ((bs.find? (Block.fits size align)).map Block.addr) := by
  induction bs generalizing fuel with
  | nil => exact absurd rfl hne
  | cons b bs ih =>
    obtain ⟨k, rfl⟩ : ∃ k, fuel = k + 1 := ⟨fuel - 1, by simp at hf; omega⟩
    obtain ⟨hw, hn⟩ := Linked.cell (show Linked id h.cell (([] ++ b :: bs).map Block.entry) 0 from hl)
    obtain ⟨hb0, hb4⟩ := hb b List.mem_cons_self
    have hused : b.word % 2 = 1 ↔ b.used = true := by
      unfold Block.word
      cases b.used <;> simp <;> omega
    have hfit : (clearFlag b.word < size ∨ b.word % 2 = 1 ∨ ¬ memIsAligned b.addr align) ↔
        b.fits size align = false := by
      rw [clearFlag_word hb4, hused]
      simp only [Block.fits, decide_eq_false_iff_not, not_and_or, not_le, Bool.not_eq_false]
    have hfirst : first ((b :: bs).map Block.entry) 0 = b.addr := rfl
    rw [hfirst]
    unfold Heap.findLoop
    rw [hw, hn, List.find?_cons]
    by_cases hfb : b.fits size align = false
    · -- the block is used, too small or not aligned, and the search goes on
      rw [if_pos (hfit.2 hfb), hfb]
      cases bs with
      | nil => rfl
      | cons c bs =>
        have hc0 := (hb c (by simp)).1
        have hcf : first ((c :: bs).map Block.entry) 0 = c.addr := rfl
        rw [if_neg (by rw [hcf]; exact hc0)]
        exact ih (fun d hd => hb d (List.mem_cons_of_mem _ hd)) (List.cons_ne_nil _ _) hl.2 (by simpa using hf)
    · -- it fits
      rw [if_neg (fun hn => hfb (hfit.1 hn))]
      rw [Bool.not_eq_false] at hfb
      rw [hfb]
      rfl

/-! ### Blocks change -/

theorem mem_addrs {z : ℕ} : z ∈ addrs (l.map Block.entry) ↔ ∃ c ∈ l, c.addr = z := by
  simp [addrs, Block.entry]

/-- The last block of the chain. -/
theorem ChainIs.last (hc : ChainIs lo hi h bs e) : ∃ l t, bs = l ++ [t] ∧ t.addr = h.top := by
  obtain ⟨ys, hys⟩ := List.getLast?_eq_some_iff.1 hc.top_eq
  obtain ⟨l, l', rfl, -, h2⟩ := List.map_eq_append_iff.1 hys
  obtain ⟨t, rfl, ht⟩ := List.map_eq_singleton_iff.1 h2
  exact ⟨l, t, rfl, ht⟩

/-- **A used flag changes.** -/
theorem ChainIs.setUsed (hc : ChainIs lo hi h (l₁ ++ b :: l₂) e) (hne : l₁ ≠ []) (u : Bool) :
    ChainIs lo hi (h.setSize b.addr ({ b with used := u } : Block).word) (l₁ ++ { b with used := u } :: l₂) e := by
  have hbnd := hc.addr_le (b := b) (by simp)
  have hsmall := hc.small
  have hw : ({ b with used := u } : Block).word < 2 ^ 32 := by
    unfold Block.word
    simp only
    split_ifs <;> omega
  have hsp := List.pairwise_append.1 hc.spaced
  unfold memBlockStruct at hsp
  refine { hc.toLayout.setUsed hne u with bottom_eq := hc.bottom_eq, linked := ?_, top_eq := ?_ }
  · have hl := hc.linked
    rw [List.map_append, List.map_cons, linked_append] at hl ⊢
    obtain ⟨hl1, ⟨n, hn, hp⟩, hl2⟩ := hl
    refine ⟨hl1.congr fun z hz => ?_, ⟨⟨_, cell_setSize _ hw, ?_⟩, hl2.congr fun z hz => ?_⟩⟩
    · obtain ⟨c, hc, rfl⟩ := mem_addrs.1 hz
      have h1 := hsp.2.2 c hc b List.mem_cons_self
      exact cell_setSize_ne _ (by omega)
    · have h1 : (h.size b.addr, h.next b.addr) = n := Option.some.inj hn
      rw [← h1] at hp
      exact Prod.ext rfl (Prod.mk.inj hp).2
    · obtain ⟨c, hc, rfl⟩ := mem_addrs.1 hz
      have h1 := (List.pairwise_cons.1 hsp.2.1).1 c hc
      exact cell_setSize_ne _ (by omega)
  · have h1 := hc.top_eq
    simp only [List.map_append, List.map_cons] at h1 ⊢
    exact h1

theorem cell_pushTop {w e x : ℕ} (hc : h.cell h.top = some (w, e)) (hx : x < 2 ^ 32) :
    (h.pushTop x).cell h.top = some (w, x) := by
  have h1 : (h.pushTop x).cell h.top = some (h.size h.top, x) := cell_setNext h.top hx
  rw [h1, (Prod.mk.inj (Option.some.inj hc)).1]

theorem cell_pushTop_ne {c : ℕ} (x : ℕ) (hc : c + 8 ≤ h.top ∨ h.top + 8 ≤ c) :
    (h.pushTop x).cell c = h.cell c := cell_setNext_ne x hc

/-- A chain depends on its blocks. -/
theorem ChainIs.congr (hc : ChainIs lo hi h bs e) (hcell : ∀ c ∈ bs, h'.cell c.addr = h.cell c.addr)
    (hb : h'.bottom = h.bottom) (ht : h'.top = h.top) : ChainIs lo hi h' bs e := by
  refine { hc.toLayout with bottom_eq := hb.trans hc.bottom_eq, linked := ?_, top_eq := ht ▸ hc.top_eq }
  refine hc.linked.congr fun z hz => ?_
  obtain ⟨c, hcb, rfl⟩ := mem_addrs.1 hz
  exact hcell c hcb

theorem ChainIs.mono {hi' : ℕ} (hc : ChainIs lo hi h bs e) (hle : hi ≤ hi') (hsmall : hi' + 8192 ≤ 2 ^ 32) :
    ChainIs lo hi' h bs e := { hc.toLayout.mono hle hsmall with
  bottom_eq := hc.bottom_eq, linked := hc.linked, top_eq := hc.top_eq }

/-- **Linking a block behind the top.** -/
theorem ChainIs.push (hc : ChainIs lo hi h (l ++ [t]) e) (h1 : t.addr + memBlockStruct + t.size ≤ b.addr)
    (h2 : b.stop ≤ hi) (h3 : b.addr % 4 = 0 ∧ b.size % 4 = 0)
    (hcell : h.cell b.addr = some (b.word, e')) : ChainIs lo hi (h.pushTop b.addr) (l ++ [t] ++ [b]) e' := by
  have hms : memBlockStruct = 12 := rfl
  have hsmall := hc.small
  have hb : b.addr < 2 ^ 32 := by
    unfold Block.stop headerSize at h2
    omega
  have ht : h.top = t.addr := by simpa using hc.top_eq.symm
  refine { hc.toLayout.append h1 h2 h3 with bottom_eq := hc.bottom_eq, linked := ?_, top_eq := by simp; rfl }
  have hl := hc.linked
  rw [List.map_append, linked_append] at hl
  rw [List.map_append, List.map_append, linked_append, linked_append]
  obtain ⟨hl1, ⟨⟨n, hn, hp⟩, -⟩⟩ := hl
  refine ⟨⟨hl1.congr fun z hz => ?_, ⟨⟨_, ?_, rfl⟩, trivial⟩⟩, ⟨⟨_, ?_, rfl⟩, trivial⟩⟩
  · obtain ⟨c, hcl, rfl⟩ := mem_addrs.1 hz
    have h4 := (List.pairwise_append.1 hc.spaced).2.2 c hcl t (List.mem_singleton_self t)
    exact cell_pushTop_ne _ (by omega)
  · have hp' : n = (t.word, e) := hp
    rw [hp', ← ht] at hn
    rw [← ht]
    exact cell_pushTop hn hb
  · rw [cell_pushTop_ne _ (by omega)]
    exact hcell

/-! ### Appending -/

/-- The powers of two from 4 to 4096 are such alignments. -/
structure AlignOK (align : ℕ) : Prop where
  pos : 0 < align
  four : align % 4 = 0
  max : align ≤ 4096

instance (align : ℕ) : Decidable (AlignOK align) :=
  decidable_of_iff (0 < align ∧ align % 4 = 0 ∧ align ≤ 4096)
    ⟨fun h => ⟨h.1, h.2.1, h.2.2⟩, fun h => ⟨h.pos, h.four, h.max⟩⟩

/-- The size of the block at the top. -/
theorem ChainIs.memBlockSize_top (hc : ChainIs lo hi h (l ++ [t]) e) :
    t.addr = h.top ∧ h.memBlockSize h.top = 12 + t.size := by
  have ht : t.addr = h.top := by simpa using hc.top_eq
  have hbnd := hc.addr_le (b := t) (by simp)
  have hsmall := hc.small
  refine ⟨ht, ?_⟩
  unfold memBlockSize
  rw [← ht, (Linked.cell hc.linked).1, clearFlag_word (hc.sizes t (by simp))]
  exact add32_of_lt (by unfold memBlockStruct; omega)

/-- **Where a new block comes to lie.** -/
theorem newBlock_addr (size : ℕ) (hc : ChainIs lo hi h (l ++ [t]) e) (ha : AlignOK align) :
    ∃ n1, t.addr + 12 + t.size ≤ n1 ∧ n1 < t.addr + 12 + t.size + align ∧ (n1 + headerSize) % align = 0 ∧ n1 % 4 = 0 ∧
      alignTo (h.top + h.memBlockSize h.top + headerSize) align = n1 + headerSize ∧
      add32 h.top (h.memBlockSize h.top) = t.addr + 12 + t.size ∧ (h.memNewBlock size align).1 = n1 := by
  have hbnd := hc.addr_le (b := t) (by simp)
  have hsmall := hc.small
  have hhs : headerSize = 8 := rfl
  have hmax := ha.max
  obtain ⟨htop, hsize⟩ := hc.memBlockSize_top
  set n0 := t.addr + 12 + t.size with hn0
  obtain ⟨hdvd, hle, hlt⟩ := alignTo_spec ha.pos (show n0 + headerSize + align ≤ 2 ^ 32 by omega)
  obtain ⟨n1, hn1⟩ : ∃ n1, alignTo (n0 + headerSize) align = n1 + headerSize :=
    ⟨alignTo (n0 + headerSize) align - headerSize, by omega⟩
  rw [hn1] at hdvd hle hlt
  have h14 := (Nat.dvd_of_mod_eq_zero ha.four).trans hdvd
  have hadd : add32 h.top (h.memBlockSize h.top) = n0 := by
    rw [hsize, ← htop, add32_of_lt (by omega)]
    omega
  refine ⟨n1, by omega, by omega, Nat.mod_eq_zero_of_dvd hdvd, by omega, ?_, hadd, ?_⟩
  · rw [hsize, ← htop, ← Nat.add_assoc]
    exact hn1
  · have hblock : (h.memNewBlock size align).1 = sub32 (alignTo (add32 n0 headerSize) align) headerSize := by
      rw [← hadd]
      rfl
    rw [hblock, add32_of_lt (by omega), hn1, sub32_of_le (by omega) (by omega), Nat.add_sub_cancel]

/-- **Appending a block.** Between the old top and the new block there may be a free one. -/
theorem memNewBlock_chain (hc : ChainIs lo hi h bs 0) (ha : AlignOK align) (hs : size % 4 = 0)
    (hfit : alignTo (h.top + h.memBlockSize h.top + headerSize) align + size ≤ hi) :
    ∃ fill b, (∀ f ∈ fill, f.used = false) ∧ b.size = size ∧ b.used = true ∧
      (b.addr + headerSize) % align = 0 ∧ (h.memNewBlock size align).1 = b.addr ∧
      ChainIs lo hi (h.memNewBlock size align).2 (bs ++ fill ++ [b]) 0 ∧
      (h.memNewBlock size align).2.usedMemory = h.usedMemory ∧
      ∀ a < h.top + h.memBlockSize h.top, a < h.top ∨ h.top + 8 ≤ a →
        (h.memNewBlock size align).2.mem a = h.mem a := by
  obtain ⟨l, t, rfl, -⟩ := hc.last
  have hbnd := hc.addr_le (b := t) (by simp)
  have hsmall := hc.small
  have hms : memBlockStruct = 12 := rfl
  have hhs : headerSize = 8 := rfl
  have hma : minAlign = 4 := rfl
  have hmax := ha.max
  obtain ⟨htop, hsize⟩ := hc.memBlockSize_top
  obtain ⟨n1, hle, hlt, hmod, h14, hround, hadd, hfst⟩ := newBlock_addr size hc ha
  rw [hround] at hfit
  rw [hfst]
  -- `n2` is where a free block may begin, behind the old top, and `n1` the new block
  obtain ⟨hdvd4, hle4, hlt4⟩ := alignTo_spec (show 0 < minAlign by decide)
    (show t.addr + 12 + t.size + headerSize + minAlign ≤ 2 ^ 32 by omega)
  obtain ⟨n2, hn2⟩ : ∃ n2, alignTo (t.addr + 12 + t.size + headerSize) minAlign = n2 + headerSize :=
    ⟨alignTo (t.addr + 12 + t.size + headerSize) minAlign - headerSize, by omega⟩
  rw [hn2, hma] at hdvd4
  rw [hn2] at hle4 hlt4
  have h21 : n2 ≤ n1 := by omega
  set h2 := (h.setSize n1 (setFlag size)).setNext n1 0 with hh2
  have heq : h.memNewBlock size align = (n1, (if n1 - n2 > memBlockStruct + minAlign then
      (h2.setSize n2 (n1 - n2 - memBlockStruct)).pushTop n2 else h2).pushTop n1) := by
    have e3 : ∀ n ≤ n1, sub32 (n + headerSize) headerSize = n := by
      intro n hn
      rw [sub32_of_le (by omega) (by omega)]
      omega
    have e5 : sub32 n1 n2 = n1 - n2 := sub32_of_le (by omega) (by omega)
    have e2 : add32 (t.addr + 12 + t.size) headerSize = t.addr + 12 + t.size + headerSize := add32_of_lt (by omega)
    have e6 : alignTo (t.addr + 12 + t.size + headerSize) align = n1 + headerSize := by
      rw [← hround, hsize, ← htop, ← Nat.add_assoc]
    unfold memNewBlock
    simp only [hadd, e2, e6, e3 n1 le_rfl, hn2, e3 n2 h21, e5, ← hh2]
    split_ifs with h16
    · rw [sub32_of_le (by omega) (by omega)]
    · rfl
  rw [heq]
  set b : Block := ⟨n1, size, true⟩ with hb
  have hbaddr : b.addr = n1 := rfl
  have hbsize : b.size = size := rfl
  have hstop : b.stop ≤ hi := hfit
  -- both words of the new block are written before it is linked
  have hnew : h2.cell n1 = some (b.word, 0) := by
    have hflag : setFlag size = b.word := by
      unfold setFlag Block.word
      rw [hb]
      simp only [if_true]
      omega
    obtain ⟨h1, -⟩ := Prod.mk.inj (Option.some.inj (cell_setSize (h := h) n1 (show setFlag size < 2 ^ 32 by
      unfold setFlag
      omega)))
    rw [hh2, cell_setNext _ (by omega), h1, hflag]
  have h2i : ChainIs lo hi h2 (l ++ [t]) 0 := by
    refine hc.congr (fun c hcb => ?_) rfl rfl
    have h1 := hc.toLayout.before c hcb
    rw [hh2, cell_setNext_ne _ (by omega), cell_setSize_ne _ (by omega)]
  have h2top : h2.top = h.top := rfl
  have h2mem : ∀ a < t.addr + 12 + t.size, h2.mem a = h.mem a := by
    intro a ha
    rw [hh2, setNext_out (by omega), setSize_out (by omega)]
  split_ifs with h16
  · set f : Block := ⟨n2, n1 - n2 - memBlockStruct, false⟩ with hf
    have hfaddr : f.addr = n2 := rfl
    have hfsize : f.size = n1 - n2 - memBlockStruct := rfl
    have h3i : ChainIs lo hi (h2.setSize n2 (n1 - n2 - memBlockStruct)) (l ++ [t]) 0 := by
      refine h2i.congr (fun c hcb => ?_) rfl rfl
      have h1 := hc.toLayout.before c hcb
      exact cell_setSize_ne _ (by omega)
    have h4i := h3i.push (b := f) (by omega) (by unfold Block.stop; omega) ⟨by omega, by omega⟩
      (cell_setSize n2 (by omega))
    have hcell : ((h2.setSize n2 (n1 - n2 - memBlockStruct)).pushTop f.addr).cell n1 = some (b.word, 0) := by
      have htop3 : (h2.setSize n2 (n1 - n2 - memBlockStruct)).top = t.addr := htop.symm
      rw [cell_pushTop_ne _ (by omega), cell_setSize_ne _ (by omega)]
      exact hnew
    refine ⟨[f], b, ?_, rfl, rfl, hmod, rfl, h4i.push (by omega) hstop ⟨h14, hs⟩ hcell, rfl, ?_⟩
    · intro x hx
      rw [List.mem_singleton.1 hx]
    · intro a halt hout
      have htop3 : (h2.setSize n2 (n1 - n2 - memBlockStruct)).top = h.top := rfl
      have htop4 : ((h2.setSize n2 (n1 - n2 - memBlockStruct)).pushTop n2).top = n2 := rfl
      rw [pushTop_out (by omega), pushTop_out (by omega), setSize_out (by omega)]
      exact h2mem a (by omega)
  · refine ⟨[], b, by simp, rfl, rfl, hmod, rfl, ?_, rfl, ?_⟩
    · rw [List.append_nil]
      exact h2i.push (show t.addr + memBlockStruct + t.size ≤ n1 by omega) hstop ⟨h14, hs⟩ hnew
    · intro a halt hout
      rw [pushTop_out (by omega)]
      exact h2mem a (by omega)

/-! ### Callers -/

/-- The pointers to the used blocks behind the first one. -/
def livePtrs (bs : List Block) : Set ℕ := {p | ∃ b ∈ bs.tail, b.used = true ∧ p = b.addr + headerSize}

theorem mem_livePtrs {c : Block} {p : ℕ} : p ∈ livePtrs (c :: (l₁ ++ b :: l₂)) ↔
    p ∈ livePtrs (c :: (l₁ ++ l₂)) ∨ b.used = true ∧ p = b.addr + headerSize := by
  simp only [livePtrs, List.tail_cons, List.mem_append, List.mem_cons, Set.mem_ofPred_eq]
  constructor
  · rintro ⟨d, hd | rfl | hd, hu⟩
    · exact .inl ⟨d, .inl hd, hu⟩
    · exact .inr hu
    · exact .inl ⟨d, .inr hd, hu⟩
  · rintro (⟨d, hd | hd, hu⟩ | hu)
    · exact ⟨d, .inl hd, hu⟩
    · exact ⟨d, .inr (.inr hd), hu⟩
    · exact ⟨b, .inr (.inl rfl), hu⟩

theorem ChainIs.bottom_ne (hc : ChainIs lo hi h bs e) : h.bottom ≠ 0 := by
  rw [hc.bottom_eq]
  exact hc.pos.ne'

theorem ChainIs.top_ne (hc : ChainIs lo hi h bs e) : h.top ≠ 0 := by
  obtain ⟨l, t, rfl, ht⟩ := hc.last
  have h1 := (hc.inside t (by simp)).1
  have h2 := hc.pos
  omega

/-- The search over the whole heap. -/
theorem memFindBlock_chain (hc : ChainIs lo hi h bs 0) {fuel : ℕ} (hf : bs.length ≤ fuel) :
    memFindBlock fuel h size align = some ((bs.find? (Block.fits size align)).map Block.addr) := by
  obtain ⟨bs', hbs⟩ := hc.bottom
  have hfirst : first (bs.map Block.entry) 0 = h.bottom := by
    rw [hc.bottom_eq, hbs]
    rfl
  unfold memFindBlock
  rw [if_neg hc.bottom_ne, ← hfirst]
  refine findLoop_ok (fun b hb => ⟨?_, hc.sizes b hb⟩) (by rw [hbs]; simp) hc.linked hf
  have h1 := (hc.inside b hb).1
  have h2 := hc.pos
  omega

/-- A block's used flag decides whether its pointer is live. -/
theorem livePtrs_setUsed (hs : Layout lo hi (l₁ ++ b :: l₂)) (hne : l₁ ≠ []) :
    livePtrs (l₁ ++ { b with used := true } :: l₂) = insert (b.addr + headerSize) (livePtrs (l₁ ++ b :: l₂)) ∧
      livePtrs (l₁ ++ { b with used := false } :: l₂) = livePtrs (l₁ ++ b :: l₂) \ {b.addr + headerSize} := by
  have hms : memBlockStruct = 12 := rfl
  have hne' : ∀ c ∈ l₁ ++ l₂, c.addr ≠ b.addr := by
    have h1 := hs.spaced
    rw [List.pairwise_append, List.pairwise_cons] at h1
    intro c hc
    rcases List.mem_append.1 hc with hc | hc
    · have h2 := h1.2.2 c hc b List.mem_cons_self
      omega
    · have h2 := h1.2.1.1 c hc
      omega
  cases l₁ with
  | nil => exact absurd rfl hne
  | cons c l₁ =>
    refine ⟨Set.ext fun p => ?_, Set.ext fun p => ?_⟩
    · simp only [List.cons_append, mem_livePtrs, Set.mem_insert_iff]
      tauto
    · have hrest : p ∈ livePtrs (c :: (l₁ ++ l₂)) → p ≠ b.addr + headerSize := by
        rintro ⟨d, hd, -, rfl⟩
        have h1 := hne' d (List.mem_cons_of_mem _ hd)
        omega
      simp only [List.cons_append, mem_livePtrs, Set.mem_sdiff, Set.mem_singleton_iff, Bool.false_eq_true,
        false_and, or_false]
      tauto

/-- The payload size of the block of `pointer`. -/
def Heap.payload (h : Heap) (pointer : ℕ) : ℕ := clearFlag (h.size (memGetBlock pointer))

theorem memGetBlock_eq {a : ℕ} (ha : a + headerSize < 2 ^ 32) : memGetBlock (a + headerSize) = a := by
  unfold memGetBlock sub32 add32 memBlockStruct
  unfold headerSize at *
  omega

/-- What a pointer behind a header gives back. -/
theorem ChainIs.payload_eq (hc : ChainIs lo hi h bs e) (hb : b ∈ bs) :
    memGetBlock (b.addr + headerSize) = b.addr ∧ h.size b.addr = b.word ∧ h.payload (b.addr + headerSize) =
      b.size := by
  have hbnd := hc.addr_le hb
  have hsmall := hc.small
  have hget : memGetBlock (b.addr + headerSize) = b.addr := by
    refine memGetBlock_eq ?_
    unfold headerSize
    omega
  obtain ⟨l₁, l₂, rfl⟩ := List.append_of_mem hb
  have hw := (Linked.cell hc.linked).1
  refine ⟨hget, hw, ?_⟩
  unfold Heap.payload
  rw [hget, hw, clearFlag_word (hc.sizes b hb)]

/-- A header is apart from every payload. -/
theorem Layout.header_out (hs : Layout lo hi bs) {b c : Block} (hb : b ∈ bs) (hc : c ∈ bs) :
    c.addr + headerSize + c.size ≤ b.addr ∨ b.addr + headerSize ≤ c.addr + headerSize := by
  have hms : memBlockStruct = 12 := rfl
  have hhs : headerSize = 8 := rfl
  rcases hs.apart hb hc with rfl | h1 | h1
  · exact .inr le_rfl
  · exact .inr (by omega)
  · exact .inl (by omega)

/-- Live pointers belong to used blocks, each to one. -/
theorem Layout.live (hs : Layout lo hi bs) (hb : b ∈ bs) (hp : b.addr + headerSize ∈ livePtrs bs) :
    b.used = true := by
  have hms : memBlockStruct = 12 := rfl
  obtain ⟨c, hc, hu, hcp⟩ := hp
  rcases hs.apart hb (List.mem_of_mem_tail hc) with rfl | h1 | h1
  · exact hu
  · omega
  · omega

/-- **Reusing a free block.** -/
theorem ChainIs.reuse (hc : ChainIs lo hi h (l₁ ++ b :: l₂) e) (hu : b.used = false) :
    ChainIs lo hi (h.setSize b.addr (setFlag (h.size b.addr))) (l₁ ++ { b with used := true } :: l₂) e ∧
      livePtrs (l₁ ++ { b with used := true } :: l₂) = insert (b.addr + headerSize) (livePtrs (l₁ ++ b :: l₂)) := by
  obtain ⟨bs', hbot⟩ := hc.bottom
  have hne : l₁ ≠ [] := by
    rintro rfl
    obtain ⟨rfl, -⟩ := List.cons.inj hbot
    exact nomatch hu
  rw [(Linked.cell hc.linked).1, setFlag_word (hc.sizes b (by simp))]
  exact ⟨hc.setUsed hne true, (livePtrs_setUsed hc.toLayout hne).1⟩

/-- **Freeing the block** of a live pointer. -/
theorem ChainIs.release (hc : ChainIs lo hi h bs e) {p : ℕ} (hp : p ∈ livePtrs bs) :
    ∃ l₁ b l₂, bs = l₁ ++ b :: l₂ ∧ b.used = true ∧ p = b.addr + headerSize ∧ memGetBlock p = b.addr ∧
      h.size b.addr = b.word ∧ clearFlag (h.size b.addr) = b.size ∧
      ChainIs lo hi (h.setSize b.addr (clearFlag (h.size b.addr))) (l₁ ++ { b with used := false } :: l₂) e ∧
      livePtrs (l₁ ++ { b with used := false } :: l₂) = livePtrs bs \ {p} := by
  obtain ⟨bs', hbot⟩ := hc.bottom
  obtain ⟨b, hb, hu, rfl⟩ := hp
  obtain ⟨l₁, l₂, rfl, hne⟩ : ∃ l₁ l₂, bs = l₁ ++ b :: l₂ ∧ l₁ ≠ [] := by
    rw [hbot, List.tail_cons] at hb
    obtain ⟨l₁, l₂, rfl⟩ := List.append_of_mem hb
    exact ⟨_ :: l₁, l₂, hbot, List.cons_ne_nil _ _⟩
  have hmem : b ∈ l₁ ++ b :: l₂ := by simp
  obtain ⟨hget, hw, -⟩ := hc.payload_eq hmem
  have hclear : clearFlag (h.size b.addr) = b.size := by rw [hw, clearFlag_word (hc.sizes b hmem)]
  refine ⟨l₁, b, l₂, rfl, hu, rfl, hget, hw, hclear, ?_, (livePtrs_setUsed hc.toLayout hne).2⟩
  rw [hclear]
  exact hc.setUsed hne false

/-- **Writes to payloads** of live pointers are the callers' own. -/
theorem ChainIs.write (hc : ChainIs lo hi h bs e) {m : ℕ → UInt8}
    (hm : ∀ a, (∀ p ∈ livePtrs bs, ¬ (p ≤ a ∧ a < p + h.payload p)) → m a = h.mem a) :
    ChainIs lo hi { h with mem := m } bs e := by
  have hms : memBlockStruct = 12 := rfl
  have hhs : headerSize = 8 := rfl
  refine hc.congr (fun c hcb => ?_) rfl rfl
  have hheader : ∀ i < 8, m (c.addr + i) = h.mem (c.addr + i) := by
    intro i hlt
    refine hm _ ?_
    rintro p ⟨b, hb, -, rfl⟩ ⟨h1, h2⟩
    have hb' := List.mem_of_mem_tail hb
    rw [(hc.payload_eq hb').2.2] at h2
    rcases hc.toLayout.apart hb' hcb with rfl | h3 | h3
    · omega
    · omega
    · omega
  exact cell_congr hheader

/-- The pointer of a new used block, behind free ones. -/
theorem livePtrs_append (hc : ChainIs lo hi h (bs ++ l ++ [b]) e) (hne : bs ≠ []) (hl : ∀ f ∈ l, f.used = false)
    (hu : b.used = true) :
    livePtrs (bs ++ l ++ [b]) = insert (b.addr + headerSize) (livePtrs bs) ∧
      b.addr + headerSize ∉ livePtrs bs := by
  have hms : memBlockStruct = 12 := rfl
  constructor
  · refine Set.ext fun p => ?_
    simp only [livePtrs, List.append_assoc, List.tail_append_of_ne_nil hne, List.mem_append, List.mem_singleton,
      Set.mem_ofPred_eq, Set.mem_insert_iff]
    constructor
    · rintro ⟨d, hd | hd | rfl, hdu, hp⟩
      · exact .inr ⟨d, hd, hdu, hp⟩
      · rw [hl d hd] at hdu
        exact nomatch hdu
      · exact .inl hp
    · rintro (rfl | ⟨d, hd, hdu, hp⟩)
      · exact ⟨b, .inr (.inr rfl), hu, rfl⟩
      · exact ⟨d, .inl hd, hdu, hp⟩
  · rintro ⟨c, hcb, -, hp⟩
    have h1 := (List.pairwise_append.1 hc.spaced).2.2 c (List.mem_append_left _ (List.mem_of_mem_tail hcb)) b
      (List.mem_singleton_self b)
    omega

/-! ### Payloads that stay -/

/-- The payloads of `live` are the same. -/
def KeptIn (live : Set ℕ) (h h' : Heap) : Prop :=
  ∀ q ∈ live, h'.payload q = h.payload q ∧ ∀ i < h.payload q, h'.mem (q + i) = h.mem (q + i)

variable {hi' : ℕ} {bs' : List Block} {live : Set ℕ}

/-- Payloads are the same where the blocks and their bytes are. -/
theorem ChainIs.kept (hc : ChainIs lo hi h bs e) (hc' : ChainIs lo hi' h' bs' e')
    (hb : ∀ b ∈ bs, b.used = true → b ∈ bs')
    (hm : ∀ b ∈ bs, b.used = true → ∀ i < b.size, h'.mem (b.addr + headerSize + i) =
    h.mem (b.addr + headerSize + i)) :
    KeptIn (livePtrs bs) h h' := by
  rintro q ⟨b, hmem, hu, rfl⟩
  have hb1 := List.mem_of_mem_tail hmem
  rw [(hc.payload_eq hb1).2.2, (hc'.payload_eq (hb b hb1 hu)).2.2]
  exact ⟨rfl, hm b hb1 hu⟩

theorem KeptIn.trans {h'' : Heap} (h1 : KeptIn live h h') (h2 : KeptIn live h' h'') : KeptIn live h h'' := by
  intro q hq
  obtain ⟨p1, m1⟩ := h1 q hq
  obtain ⟨p2, m2⟩ := h2 q hq
  refine ⟨p2.trans p1, ?_⟩
  intro i hi
  rw [m2 i (by rwa [p1]), m1 i hi]

theorem KeptIn.mono {live' : Set ℕ} (h1 : KeptIn live h h') (hsub : live' ⊆ live) : KeptIn live' h h' :=
  fun q hq => h1 q (hsub hq)

/-- A size word is no part of a payload. -/
theorem ChainIs.setSize_kept (hc : ChainIs lo hi h bs e) (hb : b ∈ bs) {c : Block} (hcb : c ∈ bs) (v : ℕ) :
    ∀ i < c.size, (h.setSize b.addr v).mem (c.addr + headerSize + i) = h.mem (c.addr + headerSize + i) := by
  intro i hi
  have hhs : headerSize = 8 := rfl
  apply setSize_out
  rcases hc.toLayout.header_out hb hcb with h1 | h1
  · exact .inl (by omega)
  · exact .inr (by omega)

/-- Using a free block again keeps the payloads. -/
theorem ChainIs.reuse_kept (hc : ChainIs lo hi h (l₁ ++ b :: l₂) e) (hu : b.used = false) :
    KeptIn (livePtrs (l₁ ++ b :: l₂)) h (h.setSize b.addr (setFlag (h.size b.addr))) := by
  apply hc.kept (hc.reuse hu).1
  · intro c hcb hcu
    rcases List.mem_append.1 hcb with hcb | hcb
    · simp [hcb]
    rcases List.mem_cons.1 hcb with rfl | hcb
    · rw [hu] at hcu
      exact nomatch hcu
    · simp [hcb]
  · intro c hcb _
    exact hc.setSize_kept (by simp) hcb _

/-- New blocks behind the old top keep the payloads. -/
theorem ChainIs.new_kept (hc : ChainIs lo hi h bs e) (hc' : ChainIs lo hi' h' (bs ++ l) e')
    (hm : ∀ a < h.top + h.memBlockSize h.top, a < h.top ∨ h.top + 8 ≤ a → h'.mem a = h.mem a) :
    KeptIn (livePtrs bs) h h' := by
  have hhs : headerSize = 8 := rfl
  apply hc.kept hc'
  · intro c hcb _
    exact List.mem_append_left _ hcb
  · intro c hcb _ i hi
    obtain ⟨l₀, t, rfl, -⟩ := hc.last
    obtain ⟨ht, hsize⟩ := hc.memBlockSize_top
    have h1 := hc.toLayout.before c hcb
    have h2 := hc.toLayout.header_out (b := t) (by simp) hcb
    apply hm
    · omega
    · omega

/-- **Freeing a live pointer** keeps the other payloads. -/
theorem ChainIs.release_kept (hc : ChainIs lo hi h bs e) {p : ℕ} (hp : p ∈ livePtrs bs) :
    KeptIn (livePtrs bs \ {p}) h (h.setSize (memGetBlock p) (clearFlag (h.size (memGetBlock p)))) := by
  obtain ⟨l₁, b, l₂, rfl, -, -, hget, -, -, hc', hlive⟩ := hc.release hp
  rw [hget, ← hlive]
  rintro q ⟨c, hcb, hcu, rfl⟩
  have hc1 := List.mem_of_mem_tail hcb
  have hc2 : c ∈ l₁ ++ b :: l₂ := by
    rcases List.mem_append.1 hc1 with hc1 | hc1
    · simp [hc1]
    rcases List.mem_cons.1 hc1 with rfl | hc1
    · exact nomatch hcu
    · simp [hc1]
  rw [(hc.payload_eq hc2).2.2, (hc'.payload_eq hc1).2.2]
  exact ⟨rfl, hc.setSize_kept (by simp) hc2 _⟩

/-- Live payloads are apart. -/
theorem ChainIs.apart_live (hc : ChainIs lo hi h bs e) {p q : ℕ} (hp : p ∈ livePtrs bs) (hq : q ∈ livePtrs bs)
    (hne : q ≠ p) : p + h.payload p ≤ q ∨ q + h.payload q ≤ p := by
  obtain ⟨b, hb, -, rfl⟩ := hp
  obtain ⟨c, hcb, -, rfl⟩ := hq
  have hms : memBlockStruct = 12 := rfl
  have hb' := List.mem_of_mem_tail hb
  have hc' := List.mem_of_mem_tail hcb
  rw [(hc.payload_eq hb').2.2, (hc.payload_eq hc').2.2]
  rcases hc.toLayout.apart hb' hc' with rfl | h1 | h1
  · exact absurd rfl hne
  · exact .inl (by omega)
  · exact .inr (by omega)

/-- **Writing into a live payload** keeps the chain and the other payloads. -/
theorem ChainIs.write_kept (hc : ChainIs lo hi h bs e) {p i : ℕ} (hp : p ∈ livePtrs bs) (data : List UInt8)
    (hfit : i + data.length ≤ h.payload p) :
    ChainIs lo hi { h with mem := copyIn h.mem (p + i) data } bs e ∧
      KeptIn (livePtrs bs \ {p}) h { h with mem := copyIn h.mem (p + i) data } ∧
      ({ h with mem := copyIn h.mem (p + i) data } : Heap).payload p = h.payload p := by
  have hc' : ChainIs lo hi { h with mem := copyIn h.mem (p + i) data } bs e := by
    apply hc.write
    intro a ha
    apply copyIn_out
    have h1 := ha p hp
    omega
  have hsame : ∀ q ∈ livePtrs bs, ({ h with mem := copyIn h.mem (p + i) data } : Heap).payload q = h.payload q := by
    rintro q ⟨c, hcb, -, rfl⟩
    have hc1 := List.mem_of_mem_tail hcb
    rw [(hc.payload_eq hc1).2.2, (hc'.payload_eq hc1).2.2]
  refine ⟨hc', ?_, hsame p hp⟩
  rintro q ⟨hq, hne⟩
  refine ⟨hsame q hq, ?_⟩
  intro j hj
  apply copyIn_out
  have h1 := hc.apart_live hp hq hne
  omega

end Saynaa
