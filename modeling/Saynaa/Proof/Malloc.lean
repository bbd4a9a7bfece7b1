import Saynaa.Proof.Blocks

/-!
# The blocks of the kernel heap

* `Spaced`: blocks one behind the other inside the heap; `usedSize` is what is in use.
* `HeapIs h bs e`: the chain from `bottom` to `top` runs through the blocks `bs`.
* `BlocksOK`: and the counter is right, which the three calls keep.
* `heap_blocks`: the invariant along every run.
-/

namespace Saynaa

open Lib Heap

def heapEnd : ℕ := kernelHeapBegin + kernelHeapSize

/-- The bytes in use. -/
def usedSize (bs : List Block) : ℕ := ((bs.filter Block.used).map Block.size).sum

/-- **Blocks in the heap**, each behind the one before it; the first one is the empty used block. -/
structure Spaced (bs : List Block) : Prop where
  spaced : bs.Pairwise fun b c => b.addr + memBlockStruct + b.size ≤ c.addr
  inside : ∀ b ∈ bs, kernelHeapBegin ≤ b.addr ∧ b.stop ≤ heapEnd
  words : ∀ b ∈ bs, b.addr % 4 = 0 ∧ b.size % 4 = 0
  bottom : ∃ bs', bs = ⟨kernelHeapBegin, 0, true⟩ :: bs'

/-- **The chain of blocks from `bottom` to `top`**, where the last link is `e`. -/
structure HeapIs (h : Heap) (bs : List Block) (e : ℕ) : Prop extends Spaced bs where
  bottom_eq : h.bottom = kernelHeapBegin
  linked : Linked id h.cell (bs.map Block.entry) e
  top_eq : (bs.map Block.addr).getLast? = some h.top

variable {h h' : Heap} {bs l l₁ l₂ : List Block} {b : Block} {size align e : ℕ}

theorem Spaced.layout (hs : Spaced bs) : Layout kernelHeapBegin heapEnd bs where
  pos := by decide
  small := by decide
  spaced := hs.spaced
  inside := hs.inside
  sizes := fun b hb => (hs.words b hb).2
  aligned := fun b hb => (hs.words b (List.mem_of_mem_tail hb)).1
  bottom := hs.bottom

theorem Layout.spaced_kernel (hs : Layout kernelHeapBegin heapEnd bs) : Spaced bs := by
  refine ⟨hs.spaced, hs.inside, ?_, hs.bottom⟩
  intro b hb
  refine ⟨?_, hs.sizes b hb⟩
  obtain ⟨bs', rfl⟩ := hs.bottom
  rcases List.mem_cons.1 hb with rfl | hb
  · decide
  · exact hs.aligned b hb

/-- The kernel's heap is a chain between its two ends. -/
theorem heapIs_iff : HeapIs h bs e ↔ ChainIs kernelHeapBegin heapEnd h bs e :=
  ⟨fun hi => { hi.toSpaced.layout with bottom_eq := hi.bottom_eq, linked := hi.linked, top_eq := hi.top_eq },
    fun hc => { hc.toLayout.spaced_kernel with bottom_eq := hc.bottom_eq, linked := hc.linked, top_eq := hc.top_eq }⟩

theorem HeapIs.chain (hi : HeapIs h bs e) : ChainIs kernelHeapBegin heapEnd h bs e := heapIs_iff.1 hi

theorem ChainIs.heap (hc : ChainIs kernelHeapBegin heapEnd h bs e) : HeapIs h bs e := heapIs_iff.2 hc

/-- The accounting is not part of the chain. -/
theorem ChainIs.account {lo hi : ℕ} (hc : ChainIs lo hi h bs e) (used : ℕ) :
    ChainIs lo hi { h with usedMemory := used } bs e := hc.congr (fun _ _ => rfl) rfl rfl

theorem KeptIn.account {live : Set ℕ} (hk : KeptIn live h h') (used : ℕ) :
    KeptIn live h { h' with usedMemory := used } := hk

/-! ### What is in use -/

theorem usedSize_append : usedSize (l₁ ++ l₂) = usedSize l₁ + usedSize l₂ := by
  simp [usedSize]

theorem usedSize_cons : usedSize (b :: l) = (if b.used then b.size else 0) + usedSize l := by
  unfold usedSize
  cases hb : b.used <;> simp [hb]

/-- Blocks between two addresses do not use more than what is there. -/
theorem usedSize_le {lo hi : ℕ} (hs : l.Pairwise fun b c => b.addr + memBlockStruct + b.size ≤ c.addr)
    (hin : ∀ b ∈ l, lo ≤ b.addr ∧ b.stop ≤ hi) (hlo : lo ≤ hi) : usedSize l + lo ≤ hi := by
  induction l generalizing lo with
  | nil => simpa [usedSize] using hlo
  | cons b l ih =>
    obtain ⟨hb, hs⟩ := List.pairwise_cons.1 hs
    obtain ⟨h1, h2⟩ := hin b List.mem_cons_self
    have h3 : usedSize l + b.stop ≤ hi := ih hs (fun c hc => ⟨?_, (hin c (List.mem_cons_of_mem _ hc)).2⟩) h2
    · rw [usedSize_cons]
      unfold Block.stop at h3
      split_ifs <;> omega
    · have h4 := hb c hc
      unfold Block.stop
      unfold memBlockStruct at h4
      unfold headerSize
      omega

theorem Spaced.usedSize_le (hs : Spaced bs) : usedSize bs ≤ kernelHeapSize := by
  have h1 := Saynaa.usedSize_le hs.spaced hs.inside (Nat.le_add_right _ _)
  unfold heapEnd at h1
  omega

theorem usedSize_used (hu : b.used = true) :
    usedSize (l₁ ++ b :: l₂) = usedSize (l₁ ++ { b with used := false } :: l₂) + b.size := by
  rw [usedSize_append, usedSize_append, usedSize_cons, usedSize_cons, hu]
  simp only [if_true, Bool.false_eq_true, if_false]
  omega

/-! ### The three calls -/

/-- **The blocks of a heap in use.** -/
structure BlocksOK (h : Heap) (bs : List Block) : Prop extends HeapIs h bs 0 where
  used_eq : h.usedMemory = usedSize bs

theorem setup_eq (hi : HeapIs h bs e) : h.setup = h := if_neg hi.chain.top_ne

/-- The first block list. -/
theorem setup_ok (ht : h.top = 0) (hu : h.usedMemory = 0) : BlocksOK h.setup [⟨kernelHeapBegin, 0, true⟩] := by
  have hs : h.setup = (({ h with bottom := kernelHeapBegin, top := kernelHeapBegin } : Heap).setSize
      kernelHeapBegin 1).setNext kernelHeapBegin 0 := if_pos ht
  rw [hs]
  refine ⟨⟨⟨List.pairwise_singleton _ _, ?_, ?_, ⟨[], rfl⟩⟩, rfl,
    ⟨⟨_, cell_setNext _ (by norm_num), ?_⟩, trivial⟩, rfl⟩, hu⟩
  · intro b hb
    rw [List.mem_singleton.1 hb]
    decide
  · intro b hb
    rw [List.mem_singleton.1 hb]
    decide
  · obtain ⟨h1, -⟩ := Prod.mk.inj (Option.some.inj (cell_setSize
      (h := { h with bottom := kernelHeapBegin, top := kernelHeapBegin }) kernelHeapBegin (by norm_num : 1 < 2 ^ 32)))
    rw [h1]
    rfl

/-- The counter after a block came into use. -/
theorem BlocksOK.add_used (hi : BlocksOK h bs) {bs' : List Block} (hi' : HeapIs h' bs' 0) {n : ℕ}
    (hsum : usedSize bs' = usedSize bs + n) : BlocksOK { h' with usedMemory := add32 h.usedMemory n } bs' := by
  refine ⟨(hi'.chain.account _).heap, ?_⟩
  have hmax := hi'.toSpaced.usedSize_le
  unfold kernelHeapSize at hmax
  rw [hsum, ← hi.used_eq] at hmax ⊢
  exact add32_of_lt (lt_of_le_of_lt hmax (by norm_num))

/-- **Reusing a free block.** -/
theorem reuse_ok (hi : BlocksOK h (l₁ ++ b :: l₂)) (hu : b.used = false) :
    BlocksOK { h.setSize b.addr (setFlag (h.size b.addr)) with usedMemory := add32 h.usedMemory (h.size b.addr) }
        (l₁ ++ { b with used := true } :: l₂) ∧
      livePtrs (l₁ ++ { b with used := true } :: l₂) = insert (b.addr + headerSize) (livePtrs (l₁ ++ b :: l₂)) := by
  obtain ⟨hc', hlive⟩ := hi.chain.reuse hu
  have hfree : { b with used := false } = b := by
    rw [← hu]
  have hword : h.size b.addr = b.size := by
    rw [(Linked.cell hi.linked).1]
    unfold Block.word
    rw [hu]
    rfl
  have hsum : usedSize (l₁ ++ { b with used := true } :: l₂) = usedSize (l₁ ++ b :: l₂) + h.size b.addr := by
    rw [usedSize_used rfl, hfree, hword]
  exact ⟨hi.add_used hc'.heap hsum, hlive⟩

/-- The block of a live pointer becomes free. -/
theorem kfree_blocks (hi : BlocksOK h bs) {p : ℕ} (hp : p ∈ livePtrs bs) :
    ∃ l₁ b l₂, bs = l₁ ++ b :: l₂ ∧ b.used = true ∧ p = b.addr + headerSize ∧
      BlocksOK (h.kfree p) (l₁ ++ { b with used := false } :: l₂) ∧
      livePtrs (l₁ ++ { b with used := false } :: l₂) = livePtrs bs \ {p} := by
  obtain ⟨l₁, b, l₂, rfl, hu, rfl, hget, -, hclear, hc', hlive⟩ := hi.chain.release hp
  have hnew : (h.setSize b.addr (clearFlag (h.size b.addr))).size b.addr = b.size :=
    (hc'.payload_eq (b := { b with used := false }) (by simp)).2.1
  have hfree : h.kfree (b.addr + headerSize) =
      { h.setSize b.addr (clearFlag (h.size b.addr)) with usedMemory := sub32 h.usedMemory b.size } := by
    have h0 : b.addr + headerSize ≠ 0 := Nat.succ_ne_zero _
    unfold kfree
    rw [if_neg h0, hget]
    simp only [hnew]
    rfl
  refine ⟨l₁, b, l₂, rfl, hu, rfl, ?_, hlive⟩
  rw [hfree]
  refine ⟨(hc'.account _).heap, ?_⟩
  have hsum : usedSize (l₁ ++ b :: l₂) = _ := usedSize_used hu
  have hmax := hi.toSpaced.usedSize_le
  unfold kernelHeapSize at hmax
  rw [hsum] at hmax
  show sub32 h.usedMemory b.size = _
  rw [hi.used_eq, hsum, sub32_of_le (Nat.le_add_left _ _) (lt_of_le_of_lt hmax (by norm_num)), Nat.add_sub_cancel]

/-- **Freeing a live pointer.** -/
theorem kfree_ok (hi : BlocksOK h bs) {p : ℕ} (hp : p ∈ livePtrs bs) :
    ∃ bs', BlocksOK (h.kfree p) bs' ∧ livePtrs bs' = livePtrs bs \ {p} := by
  obtain ⟨l₁, b, l₂, -, -, -, hok, hlive⟩ := kfree_blocks hi hp
  exact ⟨_, hok, hlive⟩

/-- The counter goes down by the payload. -/
theorem kfree_account (hi : BlocksOK h bs) {p : ℕ} (hp : p ∈ livePtrs bs) :
    (h.kfree p).usedMemory + h.payload p = h.usedMemory := by
  obtain ⟨l₁, b, l₂, rfl, hu, rfl, hok, -⟩ := kfree_blocks hi hp
  rw [hok.used_eq, (hi.chain.payload_eq (by simp)).2.2, hi.used_eq, usedSize_used hu]

theorem usedSize_new {fill : List Block} (hfill : ∀ f ∈ fill, f.used = false) (hu : b.used = true) :
    usedSize (bs ++ fill ++ [b]) = usedSize bs + b.size := by
  have hf : usedSize fill = 0 := by
    unfold usedSize
    rw [List.filter_eq_nil_iff.2 fun f hf => by rw [hfill f hf]; simp]
    rfl
  have hb : usedSize [b] = b.size := by
    rw [usedSize_cons, hu]
    rfl
  rw [usedSize_append, usedSize_append, hf, hb]
  rfl

/-- **Using new blocks.** -/
theorem append_ok (hi : BlocksOK h bs) {fill : List Block} (hfill : ∀ f ∈ fill, f.used = false) (hu : b.used = true)
    (hi' : HeapIs h' (bs ++ fill ++ [b]) 0) (hm : h'.usedMemory = h.usedMemory) :
    BlocksOK { h' with usedMemory := add32 h'.usedMemory b.size } (bs ++ fill ++ [b]) := by
  rw [hm]
  exact hi.add_used hi' (usedSize_new hfill hu)

/-- Where a new block would end, in 32 bits. -/
def Heap.newEnd (h : Heap) (align size : ℕ) : ℕ :=
  add32 (alignTo (h.top + h.memBlockSize h.top + headerSize) align) (alignTo size 8)

/-- **A free block fits** the request. -/
theorem alignedAlloc_found (hi : HeapIs h bs 0) (ha : AlignOK align) (hs : size < 2 ^ 32)
    (hb : bs.find? (Block.fits (alignTo size 8) align) = some b) :
    Returns (fun fuel => alignedAlloc fuel h align size) (some (b.addr + headerSize,
      { h.setSize b.addr (setFlag (h.size b.addr)) with usedMemory := add32 h.usedMemory (h.size b.addr) })) := by
  have hmod : align % 2 ^ 32 = align := Nat.mod_eq_of_lt (lt_of_le_of_lt ha.max (by norm_num))
  refine ⟨bs.length, fun fuel hf => ?_⟩
  unfold alignedAlloc
  simp only
  rw [setup_eq hi, hmod, Nat.mod_eq_of_lt hs, memFindBlock_chain hi.chain hf.le, hb]
  rfl

/-- **No free block fits** the request: it is refused, or gets a new block. -/
theorem alignedAlloc_new (hi : HeapIs h bs 0) (ha : AlignOK align) (hs : size < 2 ^ 32)
    (hb : bs.find? (Block.fits (alignTo size 8) align) = none) :
    Returns (fun fuel => alignedAlloc fuel h align size)
      (if heapEnd < h.newEnd align size then none
      else some ((h.memNewBlock (alignTo size 8) align).1 + headerSize,
        { (h.memNewBlock (alignTo size 8) align).2 with
          usedMemory := add32 (h.memNewBlock (alignTo size 8) align).2.usedMemory (alignTo size 8) })) := by
  have hhs : headerSize = 8 := rfl
  have hhe : heapEnd = 3256877056 := rfl
  have hmod : align % 2 ^ 32 = align := Nat.mod_eq_of_lt (lt_of_le_of_lt ha.max (by norm_num))
  obtain ⟨l, t, hbs, -⟩ := hi.chain.last
  have hbnd := hi.chain.addr_le (b := t) (by rw [hbs]; simp)
  obtain ⟨ht, hsize⟩ := (hbs ▸ hi.chain : ChainIs _ _ h (l ++ [t]) 0).memBlockSize_top
  have hstop : add32 (add32 h.top (h.memBlockSize h.top)) headerSize = h.top + h.memBlockSize h.top + headerSize := by
    rw [hsize, ← ht, add32_of_lt (show t.addr + (12 + t.size) < 2 ^ 32 by omega), add32_of_lt (by omega)]
  refine ⟨bs.length, fun fuel hf => ?_⟩
  unfold alignedAlloc
  simp only
  rw [setup_eq hi, hmod, Nat.mod_eq_of_lt hs, memFindBlock_chain hi.chain hf.le, hb]
  simp only [Option.map_none, Option.bind_eq_bind, Option.bind_some]
  rw [hstop]
  change (if heapEnd < h.newEnd align size then _ else _) = _
  split_ifs <;> rfl

/-- **Where a request comes to lie**: in the block `b`, which is the first free one that fits, or the last
one. -/
structure Placed (h : Heap) (bs : List Block) (align size p : ℕ) (h' : Heap) (l₁ : List Block) (b : Block)
    (l₂ : List Block) : Prop where
  ok : BlocksOK h' (l₁ ++ b :: l₂)
  ptr : p = b.addr + headerSize
  enough : size ≤ b.size
  aligned : p % align = 0
  live : livePtrs (l₁ ++ b :: l₂) = insert p (livePtrs bs)
  fresh : p ∉ livePtrs bs
  kept : KeptIn (livePtrs bs) h h'
  behind : l₂ = [] ∨ bs = l₁ ++ { b with used := false } :: l₂ ∧
    bs.find? (Block.fits (alignTo size 8) align) = some { b with used := false }

theorem Placed.payload_eq (hp : Placed h bs align size p h' l₁ b l₂) : h'.payload p = b.size := by
  rw [hp.ptr]
  exact (hp.ok.chain.payload_eq (by simp)).2.2

/-- **`aligned_alloc`** aborts or returns a pointer that was not live, and counts its block. -/
theorem alignedAlloc_placed (hi : BlocksOK h bs) (ha : AlignOK align) (hs : size ≤ kernelHeapSize) :
    Returns (fun fuel => alignedAlloc fuel h align size) none ∨
      ∃ p h' l₁ b l₂, Returns (fun fuel => alignedAlloc fuel h align size) (some (p, h')) ∧
        Placed h bs align size p h' l₁ b l₂ ∧ usedSize (l₁ ++ b :: l₂) = usedSize bs + b.size := by
  have hhs : headerSize = 8 := rfl
  have hks : kernelHeapSize = 31457280 := rfl
  have hhe : heapEnd = 3256877056 := rfl
  have hamax := ha.max
  obtain ⟨hs8, hle, hlt⟩ := alignTo_spec (by norm_num) (show size + 8 ≤ 2 ^ 32 by omega)
  have hs32 : size < 2 ^ 32 := by omega
  cases hb : bs.find? (Block.fits (alignTo size 8) align) with
  -- a free block fits
  | some b =>
    have hret := alignedAlloc_found hi.toHeapIs ha hs32 hb
    obtain ⟨hfit, l₁, l₂, rfl, -⟩ := List.find?_eq_some_iff_append.1 hb
    simp only [Block.fits, decide_eq_true_eq] at hfit
    obtain ⟨hbs, hu, hal⟩ := hfit
    obtain ⟨hok, hlive⟩ := reuse_ok hi hu
    have hfree : { b with used := false } = b := by rw [← hu]
    refine .inr ⟨_, _, l₁, { b with used := true }, l₂, hret, ⟨hok, rfl, hle.trans hbs, hal, hlive, ?_,
      (hi.chain.reuse_kept hu).account _, .inr ⟨?_, ?_⟩⟩, ?_⟩
    · intro hp
      have hlu := hi.chain.live (by simp) hp
      rw [hu] at hlu
      cases hlu
    · rw [← hfree]
    · exact hb.trans (congrArg some hfree.symm)
    · rw [usedSize_used rfl, hfree]
  | none =>
    have hret := alignedAlloc_new hi.toHeapIs ha hs32 hb
    by_cases hfull : heapEnd < h.newEnd align size
    · -- the heap is full
      rw [if_pos hfull] at hret
      exact .inl hret
    · -- a new block at the end
      rw [if_neg hfull] at hret
      obtain ⟨l, t, hbs, -⟩ := hi.chain.last
      have hbnd := hi.chain.addr_le (b := t) (by rw [hbs]; simp)
      obtain ⟨ht, hsize⟩ := (hbs ▸ hi.chain : ChainIs _ _ h (l ++ [t]) 0).memBlockSize_top
      have hround := alignTo_spec ha.pos (show h.top + h.memBlockSize h.top + headerSize + align ≤ 2 ^ 32 by omega)
      have hsum : h.newEnd align size = alignTo (h.top + h.memBlockSize h.top + headerSize) align + alignTo size 8 :=
        add32_of_lt (by omega)
      obtain ⟨fill, b, hfill, hbs', hu, hal, haddr, hnew, hmem, hframe⟩ := memNewBlock_chain hi.chain ha
        (show alignTo size 8 % 4 = 0 by omega) (hsum ▸ not_lt.1 hfull)
      have hok := append_ok hi hfill hu hnew.heap hmem
      obtain ⟨hlive, hnot⟩ := livePtrs_append hnew (by rw [hbs]; simp) hfill hu
      have hkept := hi.chain.new_kept (l := fill ++ [b]) (by rw [← List.append_assoc]; exact hnew) hframe
      rw [hbs'] at hok
      rw [haddr] at hret
      exact .inr ⟨_, _, bs ++ fill, b, [], hret, ⟨hok, rfl, hle.trans hbs'.ge, hal, hlive, hnot,
        hkept.account _, .inl rfl⟩, usedSize_new hfill hu⟩

theorem alignedAlloc_ok (hi : BlocksOK h bs) (ha : AlignOK align) (hs : size ≤ kernelHeapSize) :
    Returns (fun fuel => alignedAlloc fuel h align size) none ∨
      ∃ p h' l₁ b l₂, Returns (fun fuel => alignedAlloc fuel h align size) (some (p, h')) ∧
        Placed h bs align size p h' l₁ b l₂ := by
  rcases alignedAlloc_placed hi ha hs with hab | ⟨p, h', l₁, b, l₂, hr, hp, -⟩
  · exact .inl hab
  · exact .inr ⟨p, h', l₁, b, l₂, hr, hp⟩

/-! ### Runs -/

/-- One call, or a write of a caller to payloads it holds; the set has the live pointers. -/
inductive HeapStep : Heap × Set ℕ → Heap × Set ℕ → Prop
  | alloc {h h' : Heap} {live : Set ℕ} {align size p : ℕ} (ha : AlignOK align) (hs : size ≤ kernelHeapSize)
      (hr : Returns (fun fuel => alignedAlloc fuel h align size) (some (p, h'))) :
      HeapStep (h, live) (h', insert p live)
  | free {h : Heap} {live : Set ℕ} {p : ℕ} (hp : p ∈ live) : HeapStep (h, live) (h.kfree p, live \ {p})
  | write {h : Heap} {live : Set ℕ} {m : ℕ → UInt8}
      (hm : ∀ a, (∀ p ∈ live, ¬ (p ≤ a ∧ a < p + h.payload p)) → m a = h.mem a) :
      HeapStep (h, live) ({ h with mem := m }, live)

/-- Before the first allocation, or with blocks. -/
def BlocksReady (x : Heap × Set ℕ) : Prop :=
  x.1.top = 0 ∧ x.1.usedMemory = 0 ∧ x.2 = ∅ ∨ ∃ bs, BlocksOK x.1 bs ∧ x.2 = livePtrs bs

/-- The first allocation sets the list up. -/
theorem alignedAlloc_setup (h : Heap) (fuel align size : ℕ) :
    alignedAlloc fuel h.setup align size = alignedAlloc fuel h align size := by
  have hidem : h.setup.setup = h.setup := by
    by_cases ht : h.top = 0
    · have hset : h.setup.top = kernelHeapBegin := by
        unfold setup
        rw [if_pos ht]
        rfl
      exact if_neg (by rw [hset]; decide)
    · exact congrArg setup (if_neg ht)
  unfold alignedAlloc
  rw [hidem]

/-- After `setup` there are blocks. -/
theorem BlocksReady.setup {live : Set ℕ} (hx : BlocksReady (h, live)) :
    ∃ bs, BlocksOK h.setup bs ∧ live = livePtrs bs := by
  rcases hx with ⟨ht, hu, hl⟩ | ⟨bs, hok, hl⟩
  · refine ⟨_, setup_ok ht hu, hl.trans (Set.eq_empty_iff_forall_notMem.2 ?_).symm⟩
    rintro p ⟨b, hb, -⟩
    exact List.not_mem_nil hb
  · refine ⟨bs, ?_, hl⟩
    rw [setup_eq hok.toHeapIs]
    exact hok

theorem alloc_ready {live : Set ℕ} (hx : BlocksReady (h, live)) (ha : AlignOK align) (hs : size ≤ kernelHeapSize) :
    Returns (fun fuel => alignedAlloc fuel h align size) none ∨
      ∃ p h', Returns (fun fuel => alignedAlloc fuel h align size) (some (p, h')) ∧
        BlocksReady (h', insert p live) ∧ p ∉ live ∧ p % align = 0 ∧ size ≤ h'.payload p := by
  obtain ⟨bs, hok, rfl⟩ := hx.setup
  rw [← funext fun fuel => alignedAlloc_setup h fuel align size]
  rcases alignedAlloc_ok hok ha hs with hab | ⟨p, h', l₁, b, l₂, hr, hp⟩
  · exact .inl hab
  · exact .inr ⟨p, h', hr, .inr ⟨_, hp.ok, hp.live.symm⟩, hp.fresh, hp.aligned, hp.enough.trans hp.payload_eq.ge⟩

/-- More fuel does not change what the search finds. -/
theorem findLoop_mono {fuel fuel' : ℕ} (hle : fuel ≤ fuel') : ∀ {block : ℕ} {r : Option ℕ},
    h.findLoop size align fuel block = some r → h.findLoop size align fuel' block = some r := by
  induction fuel generalizing fuel' with
  | zero =>
    intro block r hr
    exact nomatch hr
  | succ fuel ih =>
    intro block r hr
    obtain ⟨k, rfl⟩ : ∃ k, fuel' = k + 1 := ⟨fuel' - 1, by omega⟩
    unfold Heap.findLoop at hr ⊢
    by_cases hskip : clearFlag (h.size block) < size ∨ h.size block % 2 = 1 ∨ ¬ memIsAligned block align
    · rw [if_pos hskip] at hr ⊢
      by_cases hend : h.next block = 0
      · rw [if_pos hend] at hr ⊢
        exact hr
      · rw [if_neg hend] at hr ⊢
        exact ih (by omega) hr
    · rw [if_neg hskip] at hr ⊢
      exact hr

theorem memFindBlock_mono {fuel fuel' : ℕ} (hle : fuel ≤ fuel') {r : Option ℕ}
    (hr : h.memFindBlock fuel size align = some r) : h.memFindBlock fuel' size align = some r := by
  unfold memFindBlock at hr ⊢
  split_ifs at hr ⊢
  · exact hr
  · exact findLoop_mono hle hr

theorem alignedAlloc_mono {fuel fuel' : ℕ} (hle : fuel ≤ fuel') {r : Option (ℕ × Heap)}
    (hr : alignedAlloc fuel h align size = some r) : alignedAlloc fuel' h align size = some r := by
  unfold alignedAlloc at hr ⊢
  obtain ⟨found, hf, hr⟩ := Option.bind_eq_some_iff.1 hr
  exact Option.bind_eq_some_iff.2 ⟨found, memFindBlock_mono hle hf, hr⟩

/-- An answer is the answer for all larger fuels. -/
theorem alignedAlloc_returns {fuel : ℕ} {r : Option (ℕ × Heap)} (hr : alignedAlloc fuel h align size = some r) :
    Returns (fun fuel => alignedAlloc fuel h align size) r :=
  ⟨fuel, fun _ hlt => alignedAlloc_mono hlt.le hr⟩

theorem alloc_ready_of {live : Set ℕ} (hx : BlocksReady (h, live)) (ha : AlignOK align) (hs : size ≤ kernelHeapSize)
    {fuel p : ℕ} (hr : alignedAlloc fuel h align size = some (some (p, h'))) :
    BlocksReady (h', insert p live) ∧ p ∉ live := by
  have hret := alignedAlloc_returns hr
  rcases alloc_ready hx ha hs with hab | ⟨q, h₁, hr', hok, hq, -⟩
  · exact nomatch hret.unique hab
  · obtain ⟨rfl, rfl⟩ := Prod.mk.inj (Option.some.inj (hret.unique hr'))
    exact ⟨hok, hq⟩

theorem heapStep_ready {x y : Heap × Set ℕ} (hx : BlocksReady x) (hs : HeapStep x y) : BlocksReady y := by
  cases hs with
  | @alloc h h' live align size p ha hsz hr =>
    obtain ⟨N, hN⟩ := hr
    exact (alloc_ready_of hx ha hsz (hN (N + 1) (Nat.lt_succ_self N))).1
  | @free h live p hp =>
    rcases hx with ⟨-, -, hl⟩ | ⟨bs, hok, hl⟩
    · simp only at hl
      rw [hl] at hp
      exact absurd hp (Set.notMem_empty p)
    · simp only at hl
      subst hl
      obtain ⟨bs', hok', hl'⟩ := kfree_ok hok hp
      exact .inr ⟨bs', hok', hl'.symm⟩
  | @write h live m hm =>
    rcases hx with ⟨ht, hu, hl⟩ | ⟨bs, hok, hl⟩
    · exact .inl ⟨ht, hu, hl⟩
    · simp only at hl
      subst hl
      exact .inr ⟨bs, ⟨(hok.chain.write hm).heap, hok.used_eq⟩, rfl⟩

/-- A live pointer means that there are blocks. -/
theorem BlocksReady.blocks {live : Set ℕ} (hx : BlocksReady (h, live)) {ptr : ℕ} (hp : ptr ∈ live) :
    ∃ bs, BlocksOK h bs ∧ live = livePtrs bs := by
  rcases hx with ⟨-, -, rfl⟩ | hbs
  · exact absurd hp (Set.notMem_empty ptr)
  · exact hbs

/-- A live payload lies in the heap. -/
theorem BlocksReady.inside {live : Set ℕ} (hx : BlocksReady (h, live)) {p : ℕ} (hp : p ∈ live) :
    kernelHeapBegin ≤ p ∧ p + h.payload p ≤ heapEnd := by
  rcases hx with ⟨-, -, rfl⟩ | ⟨bs, hok, hl⟩
  · exact absurd hp (Set.notMem_empty p)
  · simp only at hl
    subst hl
    obtain ⟨b, hb, -, rfl⟩ := hp
    have hb' := List.mem_of_mem_tail hb
    obtain ⟨h1, h2⟩ := hok.inside b hb'
    rw [(hok.chain.payload_eq hb').2.2]
    exact ⟨Nat.le_add_right_of_le h1, h2⟩

/-- What `kfree` does to the memory. -/
theorem kfree_mem {ptr : ℕ} (h0 : ptr ≠ 0) :
    (h.kfree ptr).mem = store 4 h.mem (memGetBlock ptr + 4) (clearFlag (h.size (memGetBlock ptr))) := by
  unfold kfree
  rw [if_neg h0]
  rfl

theorem kfree_out {a ptr : ℕ} (h0 : ptr ≠ 0) (ha : a < memGetBlock ptr + 4 ∨ memGetBlock ptr + 8 ≤ a) :
    (h.kfree ptr).mem a = h.mem a := by
  rw [kfree_mem h0]
  exact store_out (by omega)

/-- **What a caller gets** from the allocator. -/
theorem alloc_kept {live : Set ℕ} (hx : BlocksReady (h, live)) (ha : AlignOK align) (hs : size ≤ kernelHeapSize)
    {fuel p : ℕ} (hr : alignedAlloc fuel h align size = some (some (p, h'))) :
    BlocksReady (h', insert p live) ∧ p ∉ live ∧ size ≤ h'.payload p ∧ KeptIn live h h' := by
  have hret := alignedAlloc_returns hr
  obtain ⟨bs, hok, rfl⟩ := hx.setup
  rw [← funext fun fuel => alignedAlloc_setup h fuel align size] at hret
  rcases alignedAlloc_ok hok ha hs with hab | ⟨q, h₁, l₁, b, l₂, hr', hp⟩
  · exact nomatch hret.unique hab
  obtain ⟨rfl, rfl⟩ := Prod.mk.inj (Option.some.inj (hret.unique hr'))
  refine ⟨.inr ⟨_, hp.ok, hp.live.symm⟩, hp.fresh, hp.enough.trans hp.payload_eq.ge, ?_⟩
  intro q hq
  -- a live pointer means that the list was there before
  obtain ⟨bs₀, hok₀, -⟩ := hx.blocks hq
  have hkept := hp.kept q hq
  rwa [setup_eq hok₀.toHeapIs] at hkept

theorem usedMemory_setup (h : Heap) : h.setup.usedMemory = h.usedMemory := by
  unfold Heap.setup
  split_ifs <;> rfl

/-- The counter goes up by the payload. -/
theorem alloc_account {live : Set ℕ} (hx : BlocksReady (h, live)) (ha : AlignOK align) (hs : size ≤ kernelHeapSize)
    {fuel p : ℕ} (hr : alignedAlloc fuel h align size = some (some (p, h'))) :
    h'.usedMemory = h.usedMemory + h'.payload p := by
  have hret := alignedAlloc_returns hr
  obtain ⟨bs, hok, rfl⟩ := hx.setup
  rw [← funext fun fuel => alignedAlloc_setup h fuel align size] at hret
  rcases alignedAlloc_placed hok ha hs with hab | ⟨q, h₁, l₁, b, l₂, hr', hp, hsum⟩
  · exact nomatch hret.unique hab
  obtain ⟨rfl, rfl⟩ := Prod.mk.inj (Option.some.inj (hret.unique hr'))
  rw [hp.ok.used_eq, hsum, hp.payload_eq, ← hok.used_eq, usedMemory_setup]

/-- **Allocating and freeing** leaves the counter as it was. -/
theorem alloc_kfree_account {live : Set ℕ} (hx : BlocksReady (h, live)) (ha : AlignOK align)
    (hs : size ≤ kernelHeapSize) {fuel p : ℕ} (hr : alignedAlloc fuel h align size = some (some (p, h'))) :
    (h'.kfree p).usedMemory = h.usedMemory := by
  have hup := alloc_account hx ha hs hr
  obtain ⟨hready, -⟩ := alloc_ready_of hx ha hs hr
  obtain ⟨bs, hok, hlive⟩ := hready.blocks (Set.mem_insert p live)
  have hdown := kfree_account hok (p := p) (hlive ▸ Set.mem_insert p live)
  omega

/-- **Freeing a live pointer** keeps the other payloads. -/
theorem kfree_kept {live : Set ℕ} (hx : BlocksReady (h, live)) {p : ℕ} (hp : p ∈ live) :
    BlocksReady (h.kfree p, live \ {p}) ∧ KeptIn (live \ {p}) h (h.kfree p) := by
  refine ⟨heapStep_ready hx (.free hp), ?_⟩
  have h0 : p ≠ 0 := by
    have hin := (hx.inside hp).1
    unfold kernelHeapBegin at hin
    omega
  obtain ⟨bs, hok, rfl⟩ := hx.blocks hp
  have hkept := hok.chain.release_kept hp
  unfold kfree
  rw [if_neg h0]
  exact hkept.account _

/-- **Writing into a live payload** keeps the other ones. -/
theorem write_ready {live : Set ℕ} (hx : BlocksReady (h, live)) {p i : ℕ} (hp : p ∈ live) (data : List UInt8)
    (hfit : i + data.length ≤ h.payload p) :
    BlocksReady ({ h with mem := copyIn h.mem (p + i) data }, live) ∧
      KeptIn (live \ {p}) h { h with mem := copyIn h.mem (p + i) data } ∧
      ({ h with mem := copyIn h.mem (p + i) data } : Heap).payload p = h.payload p := by
  obtain ⟨bs, hok, rfl⟩ := hx.blocks hp
  obtain ⟨hc, hrest⟩ := hok.chain.write_kept hp data hfit
  exact ⟨.inr ⟨bs, ⟨hc.heap, hok.used_eq⟩, rfl⟩, hrest⟩

/-- **The kernel heap.** In every run there are no blocks yet, or the list from `bottom` to `top`
runs through blocks one behind the other in the heap; live payloads are apart, and the counter is
the sum of the used payloads. A further allocation aborts or returns what was asked for. -/
theorem heap_blocks {m : ℕ → UInt8} {live : Set ℕ}
    (hrun : Relation.ReflTransGen HeapStep (⟨m, 0, 0, 0⟩, ∅) (h, live)) :
    (h.top = 0 ∧ h.memoryUsage = 0 ∧ live = ∅ ∨
      ∃ bs, HeapIs h bs 0 ∧ live = livePtrs bs ∧ h.memoryUsage = usedSize bs) ∧
    (∀ p ∈ live, ∀ q ∈ live, p ≠ q → p + h.payload p ≤ q ∨ q + h.payload q ≤ p) ∧
    ∀ align size, AlignOK align → size ≤ kernelHeapSize →
      Returns (fun fuel => alignedAlloc fuel h align size) none ∨
        ∃ p h', Returns (fun fuel => alignedAlloc fuel h align size) (some (p, h')) ∧
          p ∉ live ∧ p % align = 0 ∧ size ≤ h'.payload p := by
  have hready : BlocksReady (h, live) :=
    run_inv (I := BlocksReady) (fun _ _ => heapStep_ready) (.inl ⟨rfl, rfl, rfl⟩) hrun
  refine ⟨?_, ?_, fun align size ha hs => ?_⟩
  · rcases hready with ⟨ht, hu, hl⟩ | ⟨bs, hok, hl⟩
    · exact .inl ⟨ht, hu, hl⟩
    · exact .inr ⟨bs, hok.toHeapIs, hl, hok.used_eq⟩
  · rcases hready with ⟨-, -, hl⟩ | ⟨bs, hok, hl⟩
    · simp only at hl
      rw [hl]
      intro p hp
      exact absurd hp (Set.notMem_empty p)
    · simp only at hl
      subst hl
      rintro p ⟨b, hb, -, rfl⟩ q ⟨c, hc, -, rfl⟩ hne
      have hms : memBlockStruct = 12 := rfl
      have hb' := List.mem_of_mem_tail hb
      have hc' := List.mem_of_mem_tail hc
      rw [(hok.chain.payload_eq hb').2.2, (hok.chain.payload_eq hc').2.2]
      -- the same block, or one in front of the other
      rcases hok.chain.apart hb' hc' with rfl | h1 | h1
      · exact absurd rfl hne
      · omega
      · omega
  · rcases alloc_ready hready ha hs with hab | ⟨p, h', hr, -, hp, hal, hpay⟩
    · exact .inl hab
    · exact .inr ⟨p, h', hr, hp, hal, hpay⟩

/-- Two allocations, of which the first is released. -/
theorem heap_blocks_second : ∃ h p q, p ≠ q ∧ Relation.ReflTransGen HeapStep (⟨fun _ => 0, 0, 0, 0⟩, ∅) (h, {q}) ∧
    ∃ bs, HeapIs h bs 0 ∧ {q} = livePtrs bs ∧ h.memoryUsage = usedSize bs := by
  have h4 : AlignOK 4 := ⟨by norm_num, rfl, by norm_num⟩
  have h16 : AlignOK 16 := ⟨by norm_num, rfl, by norm_num⟩
  have hsome : ((alignedAlloc 9 ⟨fun _ => 0, 0, 0, 0⟩ 4 5).bind fun r => r.bind fun x =>
      (alignedAlloc 9 x.2 16 100).bind fun r' => r'.map fun y => decide (x.1 ≠ y.1)) = some true := by
    decide +kernel
  obtain ⟨r, hr, hsome⟩ := Option.bind_eq_some_iff.1 hsome
  obtain ⟨⟨p, h₁⟩, rfl, hnext⟩ := Option.bind_eq_some_iff.1 hsome
  obtain ⟨r', hr', hmap⟩ := Option.bind_eq_some_iff.1 hnext
  obtain ⟨⟨q, h₂⟩, rfl, hne⟩ := Option.map_eq_some_iff.1 hmap
  have hpq : p ≠ q := of_decide_eq_true hne
  have hfirst : HeapStep (⟨fun _ => 0, 0, 0, 0⟩, ∅) (h₁, insert p ∅) :=
    .alloc h4 (by decide) (alignedAlloc_returns hr)
  have hrun := ((Relation.ReflTransGen.single hfirst).tail
    (.alloc h16 (by decide) (alignedAlloc_returns hr'))).tail
    (.free (Set.mem_insert_of_mem q (Set.mem_insert p ∅)))
  have hlive : insert q (insert p (∅ : Set ℕ)) \ {p} = {q} := by
    rw [insert_empty_eq, Set.insert_sdiff_of_notMem _ (by simpa using hpq.symm), Set.sdiff_self, insert_empty_eq]
  rw [hlive] at hrun
  refine ⟨_, p, q, hpq, hrun, ?_⟩
  rcases (heap_blocks hrun).1 with ⟨-, -, hl⟩ | hbs
  · exact absurd hl (Set.singleton_ne_empty q)
  · exact hbs

end Saynaa
