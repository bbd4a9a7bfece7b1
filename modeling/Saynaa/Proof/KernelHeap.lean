import Saynaa.Proof.Malloc

/-!
# Requests of any size, and `krealloc`

* `InRange`: the requests that are answered within 32 bits; `Bounded` is a right answer.
* `Room`: the old payload fits in front of the block behind the new one; `Contained` is what
  `krealloc` promises.
* `KmallocStep`: the calls and the writes of callers, each within these conditions.
* `kmalloc_bounded`, `krealloc_contained`: after runs of such steps, the next request is answered
  rightly exactly when it is in range, and `krealloc` is contained exactly when there is room.
-/

namespace Saynaa

open Lib Heap

variable {h h₁ h' : Heap} {bs l₁ l₂ : List Block} {b : Block} {live : Set ℕ} {align size p ptr : ℕ}

/-! ### Sizes -/

/-- No free block fits the request, and the end of a new one, in 32 bits, is behind the heap. -/
def Refused (h : Heap) (align size : ℕ) : Prop :=
  (∃ fuel, h.memFindBlock fuel (alignTo size 8) align = some none) ∧ heapEnd < h.newEnd align size

/-- **The requests within 32 bits**: they are not larger than the heap, or refused. -/
def InRange (h : Heap) (align size : ℕ) : Prop := size ≤ kernelHeapSize ∨ Refused h.setup align size

/-- **A right answer**: the payload is large enough, and the memory lies in the heap. -/
structure Bounded (h : Heap) (size p : ℕ) : Prop where
  payload : size ≤ h.payload p
  lower : kernelHeapBegin ≤ p
  upper : p + size ≤ heapEnd

/-- `aligned_alloc` aborts, or gives a right answer. -/
def Answered (h : Heap) (align size : ℕ) : Prop :=
  Returns (fun fuel => alignedAlloc fuel h align size) none ∨
    ∃ p h', Returns (fun fuel => alignedAlloc fuel h align size) (some (p, h')) ∧ Bounded h' size p

/-- A refused request aborts, and no other one does. -/
theorem aborts_iff (hx : BlocksReady (h, live)) (ha : AlignOK align) (hs : size < 2 ^ 32) :
    Returns (fun fuel => alignedAlloc fuel h align size) none ↔ Refused h.setup align size := by
  obtain ⟨bs, hok, -⟩ := hx.setup
  have hfind : ∀ {r : Option Block}, bs.find? (Block.fits (alignTo size 8) align) = r →
      ∀ fuel, bs.length ≤ fuel → h.setup.memFindBlock fuel (alignTo size 8) align = some (r.map Block.addr) := by
    intro r hr fuel hf
    rw [memFindBlock_chain hok.chain hf, hr]
  rw [← funext fun fuel => alignedAlloc_setup h fuel align size]
  cases hb : bs.find? (Block.fits (alignTo size 8) align) with
  | some b =>
    refine iff_of_false ?_ ?_
    · intro hret
      exact nomatch hret.unique (alignedAlloc_found hok.toHeapIs ha hs hb)
    · rintro ⟨⟨fuel, hn⟩, -⟩
      have hmono := memFindBlock_mono (Nat.le_add_right fuel bs.length) hn
      rw [hfind hb _ (Nat.le_add_left _ _)] at hmono
      exact nomatch Option.some.inj hmono
  | none =>
    have hret := alignedAlloc_new hok.toHeapIs ha hs hb
    constructor
    · intro hab
      refine ⟨⟨bs.length, hfind hb _ le_rfl⟩, ?_⟩
      by_contra hfit
      rw [if_neg hfit] at hret
      exact nomatch hab.unique hret
    · rintro ⟨-, hend⟩
      rwa [if_pos hend] at hret

theorem answered_iff (hx : BlocksReady (h, live)) (ha : AlignOK align) (hs : size < 2 ^ 32) :
    Answered h align size ↔ InRange h align size := by
  constructor
  · rintro (hab | ⟨p, h', -, hp⟩)
    · exact .inr ((aborts_iff hx ha hs).1 hab)
    · left
      have h1 := hp.lower
      have h2 := hp.upper
      unfold heapEnd at h2
      omega
  · rintro (hle | href)
    · rcases alloc_ready hx ha hle with hab | ⟨p, h', hr, hready, -, -, hpay⟩
      · exact .inl hab
      · obtain ⟨hlo, hhi⟩ := hready.inside (Set.mem_insert p live)
        exact .inr ⟨p, h', hr, hpay, hlo, by omega⟩
    · exact .inl ((aborts_iff hx ha hs).2 href)

/-! ### `krealloc` -/

/-- **There is room for the copy**: a free block that fits is the last one, or the old payload ends
before the block behind it begins. -/
def Room (h : Heap) (ptr size : ℕ) : Prop :=
  ∀ fuel block, h.memFindBlock fuel (alignTo size 8) minAlign = some (some block) →
    h.next block = 0 ∨ block + headerSize + h.payload ptr ≤ h.next block

/-- **What `krealloc` promises**: the old bytes are at the result, the old pointer is freed, all headers are
as `kmalloc` and `kfree` leave them, and no other payload changes. -/
structure Contained (h : Heap) (live : Set ℕ) (ptr size p : ℕ) (h' : Heap) : Prop where
  copied : ∀ i < min (h.payload ptr) size, h'.mem (p + i) = h.mem (ptr + i)
  freed : BlocksReady (h', insert p live \ {ptr})
  fresh : p ∉ live
  headers : ∀ fuel h₁, kmalloc fuel h size = some (some (p, h₁)) → ∀ bs, HeapIs h₁ bs 0 →
    ∀ b ∈ bs, ∀ i < headerSize, h'.mem (b.addr + i) = (h₁.kfree ptr).mem (b.addr + i)
  kept : ∀ q ∈ live, q ≠ ptr → ∀ i < h.payload q, h'.mem (q + i) = h.mem (q + i)

theorem alignOK_min : AlignOK minAlign := ⟨by decide, by decide, by decide⟩

/-- `Room` in the list of blocks, for `n` bytes. -/
def RoomIn (bs : List Block) (n size : ℕ) : Prop :=
  ∀ l₁ b l₂, bs = l₁ ++ b :: l₂ → bs.find? (Block.fits (alignTo size 8) minAlign) = some b →
    ∀ c ∈ l₂, b.addr + headerSize + n ≤ c.addr

theorem room_iff (hi : HeapIs h bs 0) : Room h ptr size ↔ RoomIn bs (h.payload ptr) size := by
  have hne : ∀ c ∈ bs, c.addr ≠ 0 := by
    intro c hc
    have h1 := (hi.inside c hc).1
    unfold kernelHeapBegin at h1
    omega
  constructor
  · intro hroom l₁ b l₂ hbs hb c hc
    have hfind := hroom bs.length b.addr (by rw [memFindBlock_chain hi.chain le_rfl, hb]; rfl)
    subst hbs
    rw [(Linked.cell hi.linked).2] at hfind
    cases l₂ with
    | nil => exact absurd hc List.not_mem_nil
    | cons d l₂ =>
      have hd : first ((d :: l₂).map Block.entry) 0 = d.addr := rfl
      have h2 := hfind.resolve_left (by rw [hd]; exact hne d (by simp))
      rw [hd] at h2
      -- the blocks behind `d` are farther away
      rcases List.mem_cons.1 hc with rfl | hc
      · exact h2
      · have h3 := (List.pairwise_append.1 hi.spaced).2.1
        have h4 := (List.pairwise_cons.1 (List.pairwise_cons.1 h3).2).1 c hc
        omega
  · intro hroom fuel block hfind
    have hmono := memFindBlock_mono (Nat.le_add_right fuel bs.length) hfind
    rw [memFindBlock_chain hi.chain (Nat.le_add_left _ _)] at hmono
    obtain ⟨b, hb, rfl⟩ := Option.map_eq_some_iff.1 (Option.some.inj hmono)
    obtain ⟨-, l₁, l₂, rfl, -⟩ := List.find?_eq_some_iff_append.1 hb
    rw [(Linked.cell hi.linked).2]
    cases l₂ with
    | nil => exact .inl rfl
    | cons d l₂ => exact .inr (hroom l₁ b (d :: l₂) rfl hb d (by simp))

/-- A live pointer, its block, and what they give back of each other. -/
theorem BlocksOK.live_block (hok : BlocksOK h bs) (hp : ptr ∈ livePtrs bs) :
    ∃ o ∈ bs, ptr = o.addr + headerSize ∧ ptr ≠ 0 ∧ memGetBlock ptr = o.addr ∧ h.payload ptr = o.size := by
  obtain ⟨o, ho, -, rfl⟩ := hp
  have ho' := List.mem_of_mem_tail ho
  obtain ⟨hget, -, hpay⟩ := hok.chain.payload_eq ho'
  exact ⟨o, ho', rfl, Nat.succ_ne_zero _, hget, hpay⟩

/-- **The three parts of `krealloc`**, for a live pointer. -/
theorem krealloc_cases (hok : BlocksOK h bs) (hp : ptr ∈ livePtrs bs) (h0 : 0 < size) (hs : size ≤ kernelHeapSize)
    {fuel : ℕ} (hr : krealloc fuel h ptr size = some (some (p, h'))) :
    ∃ h₁ l₁ b l₂, kmalloc fuel h size = some (some (p, h₁)) ∧ Placed h bs minAlign size p h₁ l₁ b l₂ ∧
      h' = ({ h₁ with mem := copyIn h₁.mem p (copyOut h.mem ptr (h.payload ptr)) } : Heap).kfree ptr := by
  obtain ⟨-, -, -, hp0, -⟩ := hok.live_block hp
  unfold krealloc at hr
  rw [if_neg hp0, if_neg h0.ne'] at hr
  obtain ⟨found, hm, hr⟩ := Option.bind_eq_some_iff.1 hr
  cases found with
  | none => exact nomatch Option.some.inj hr
  | some ph =>
    obtain ⟨q, h₁⟩ := ph
    simp only at hr
    obtain ⟨rfl, rfl⟩ := Prod.mk.inj (Option.some.inj (Option.some.inj hr))
    have hret := alignedAlloc_returns hm
    rcases alignedAlloc_ok hok alignOK_min hs with hab | ⟨q', h₁', l₁, b, l₂, hr', hplaced⟩
    · exact nomatch hret.unique hab
    · obtain ⟨rfl, rfl⟩ := Prod.mk.inj (Option.some.inj (hret.unique hr'))
      refine ⟨h₁, l₁, b, l₂, hm, hplaced, ?_⟩
      obtain ⟨hpay, hbytes⟩ := hplaced.kept ptr hp
      have hsize : clearFlag (h₁.size (memGetBlock ptr)) = h.payload ptr := hpay
      rw [hsize, copyOut_congr hbytes]

/-- A heap determines where its blocks lie. -/
theorem HeapIs.addr_mem {bs' : List Block} (hi : HeapIs h bs 0) (hi' : HeapIs h bs' 0) (hb : b ∈ bs) :
    ∃ c ∈ bs', c.addr = b.addr := by
  have hzero : ∀ {bs : List Block}, HeapIs h bs 0 → 0 ∉ addrs (bs.map Block.entry) := by
    intro bs hi h0
    obtain ⟨c, hc, hc0⟩ := mem_addrs.1 h0
    have h1 := (hi.inside c hc).1
    unfold kernelHeapBegin at h1
    omega
  have hfirst : ∀ {bs : List Block}, HeapIs h bs 0 → first (bs.map Block.entry) 0 = kernelHeapBegin := by
    intro bs hi
    obtain ⟨bs₀, rfl⟩ := hi.bottom
    rfl
  have heq : bs.map Block.entry = bs'.map Block.entry :=
    hi.linked.unique hi'.linked (hzero hi) (hzero hi') ((hfirst hi).trans (hfirst hi').symm)
  rw [← mem_addrs, ← heq]
  exact mem_addrs.2 ⟨b, hb, rfl⟩

/-- **A copy that ends before the blocks behind** changes no header and no other payload. -/
theorem copy_out (hok : BlocksOK h (l₁ ++ b :: l₂)) {data : List UInt8}
    (hroom : ∀ c ∈ l₂, b.addr + headerSize + data.length ≤ c.addr) :
    (∀ c ∈ l₁ ++ b :: l₂, ∀ i < headerSize, copyIn h.mem (b.addr + headerSize) data (c.addr + i) =
      h.mem (c.addr + i)) ∧ ∀ c ∈ l₁ ++ b :: l₂, c ≠ b → ∀ i < c.size,
        copyIn h.mem (b.addr + headerSize) data (c.addr + headerSize + i) = h.mem (c.addr + headerSize + i) := by
  have hms : memBlockStruct = 12 := rfl
  have hhs : headerSize = 8 := rfl
  have hsp := List.pairwise_append.1 hok.spaced
  have hwhere : ∀ c ∈ l₁ ++ b :: l₂, c ≠ b →
      c.addr + 12 + c.size ≤ b.addr ∨ b.addr + headerSize + data.length ≤ c.addr := by
    intro c hc hne
    rcases List.mem_append.1 hc with hc | hc
    · exact .inl (hsp.2.2 c hc b List.mem_cons_self)
    rcases List.mem_cons.1 hc with rfl | hc
    · exact absurd rfl hne
    · exact .inr (hroom c hc)
  constructor
  · intro c hc i hi
    apply copyIn_out
    by_cases hcb : c = b
    · rw [hcb]
      exact .inl (by omega)
    · rcases hwhere c hc hcb with h1 | h1
      · exact .inl (by omega)
      · exact .inr (by omega)
  · intro c hc hcb i hi
    apply copyIn_out
    rcases hwhere c hc hcb with h1 | h1
    · exact .inl (by omega)
    · exact .inr (by omega)

/-- **With room for the copy, `krealloc` is contained.** -/
theorem contained_of_room (hok : BlocksOK h bs) (hp : ptr ∈ livePtrs bs) (h0 : 0 < size) (hs : size ≤ kernelHeapSize)
    (hroom : RoomIn bs (h.payload ptr) size) {fuel : ℕ} (hr : krealloc fuel h ptr size = some (some (p, h'))) :
    Contained h (livePtrs bs) ptr size p h' := by
  obtain ⟨h₁, l₁, b, l₂, hm, hplaced, rfl⟩ := krealloc_cases hok hp h0 hs hr
  have hhs : headerSize = 8 := rfl
  have hok₁ := hplaced.ok
  have hptr := hplaced.ptr
  set data := copyOut h.mem ptr (h.payload ptr) with hdata
  have hlen : data.length = h.payload ptr := length_copyOut _ _ _
  have hbehind : ∀ c ∈ l₂, b.addr + headerSize + data.length ≤ c.addr := by
    rcases hplaced.behind with rfl | ⟨hbs, hfind⟩
    · exact fun c hc => absurd hc List.not_mem_nil
    · rw [hlen]
      exact hroom l₁ { b with used := false } l₂ hbs hfind
  obtain ⟨hhead, hpay⟩ := copy_out hok₁ hbehind
  rw [← hptr] at hhead hpay
  set h₂ : Heap := { h₁ with mem := copyIn h₁.mem p data } with hh₂
  have hcell : ∀ c ∈ l₁ ++ b :: l₂, h₂.cell c.addr = h₁.cell c.addr := fun c hc => cell_congr (hhead c hc)
  have hok₂ : BlocksOK h₂ (l₁ ++ b :: l₂) := ⟨(hok₁.chain.congr hcell rfl rfl).heap, hok₁.used_eq⟩
  -- the block of the old pointer
  have hlive : ptr ∈ livePtrs (l₁ ++ b :: l₂) := by
    rw [hplaced.live]
    exact Set.mem_insert_of_mem p hp
  obtain ⟨bs', hok', hfreed⟩ := kfree_ok hok₂ hlive
  obtain ⟨o, ho', hoptr, hp0, hget, -⟩ := hok₂.live_block hlive
  have hmem : ∀ a, ¬ (o.addr + 4 ≤ a ∧ a < o.addr + 8) → (h₂.kfree ptr).mem a = h₂.mem a := by
    intro a ha
    apply kfree_out hp0
    rw [hget]
    omega
  have hout : ∀ c ∈ l₁ ++ b :: l₂, ∀ i < c.size,
    ¬ (o.addr + 4 ≤ c.addr + headerSize + i ∧ c.addr + headerSize + i < o.addr + 8) := by
    intro c hc i hi
    have h1 := hok₂.chain.toLayout.header_out ho' hc
    omega
  refine ⟨?_, .inr ⟨bs', hok', ?_⟩, hplaced.fresh, ?_, ?_⟩
  · intro i hi
    have hb := hplaced.enough
    rw [hptr, hmem _ (hout b (by simp) i (by omega)), ← hptr]
    show copyIn h₁.mem p data (p + i) = _
    rw [copyIn_in (by omega) (by omega)]
    simp only [hdata, copyOut, List.getElem_map, List.getElem_range, Nat.add_sub_cancel_left]
  · rw [hfreed, hplaced.live]
  · intro fuel' h₁' hm' bs₁ hbs₁ c hc i hi
    -- the two results of `kmalloc` are the same, and so are their blocks
    obtain ⟨-, rfl⟩ := Prod.mk.inj (Option.some.inj ((alignedAlloc_returns hm').unique (alignedAlloc_returns hm)))
    obtain ⟨d, hd, hdc⟩ := hbs₁.addr_mem hok₁.toHeapIs hc
    rw [← hdc, kfree_mem hp0, kfree_mem hp0, hget, (Prod.mk.inj (Option.some.inj (hcell o ho'))).1]
    exact store_congr (hhead d hd i hi)
  · intro q hq hne i hi
    have hq₁ : q ∈ livePtrs (l₁ ++ b :: l₂) := by
      rw [hplaced.live]
      exact Set.mem_insert_of_mem p hq
    obtain ⟨c, hc, -, rfl⟩ := hq₁
    have hc' := List.mem_of_mem_tail hc
    obtain ⟨hsame, hbytes⟩ := hplaced.kept _ hq
    rw [(hok₁.chain.payload_eq hc').2.2] at hsame
    have hcb : c ≠ b := by
      rintro rfl
      exact hplaced.fresh (hptr ▸ hq)
    rw [hmem _ (hout c hc' i (by omega))]
    show copyIn h₁.mem p data _ = _
    rw [hpay c hc' hcb i (by omega), hbytes i hi]

/-- The payload of a live pointer with other contents. -/
theorem BlocksOK.contents (hok : BlocksOK h bs) (hp : ptr ∈ livePtrs bs) {m : ℕ → UInt8}
    (hm : ∀ a, ¬ (ptr ≤ a ∧ a < ptr + h.payload ptr) → m a = h.mem a) :
    BlocksOK { h with mem := m } bs ∧ ({ h with mem := m } : Heap).payload ptr = h.payload ptr := by
  have hc : ChainIs kernelHeapBegin heapEnd { h with mem := m } bs 0 := hok.chain.write fun a ha => hm a (ha ptr hp)
  refine ⟨⟨hc.heap, hok.used_eq⟩, ?_⟩
  obtain ⟨o, ho, rfl, -, -, hpay⟩ := hok.live_block hp
  rw [(hc.payload_eq ho).2.2, hpay]

/-- **Without room the copy reaches a header**: for other contents of the old payload, the first byte of
the header behind the new block is not what it was. -/
theorem not_contained (hok : BlocksOK h bs) (hp : ptr ∈ livePtrs bs) (h0 : 0 < size) (hs : size ≤ kernelHeapSize)
    (hroom : ¬ RoomIn bs (h.payload ptr) size) :
    ∃ m, (∀ a, ¬ (ptr ≤ a ∧ a < ptr + h.payload ptr) → m a = h.mem a) ∧
      ∃ fuel p h', krealloc fuel { h with mem := m } ptr size = some (some (p, h')) ∧
        ¬ Contained { h with mem := m } (livePtrs bs) ptr size p h' := by
  have hms : memBlockStruct = 12 := rfl
  have hhs : headerSize = 8 := rfl
  unfold RoomIn at hroom
  push Not at hroom
  obtain ⟨l₁, b, l₂, rfl, hfind, c, hc, hlt⟩ := hroom
  have hcm : c ∈ l₁ ++ b :: l₂ := by simp [hc]
  have hbc := (List.pairwise_cons.1 (List.pairwise_append.1 hok.spaced).2.1).1 c hc
  -- the byte of the payload that is copied to the header of `c`
  set j := c.addr - (b.addr + headerSize) with hj
  set m := Function.update h.mem (ptr + j) (h.mem c.addr + 1) with hm
  have hother : ∀ a, ¬ (ptr ≤ a ∧ a < ptr + h.payload ptr) → m a = h.mem a := by
    intro a ha
    rw [hm, Function.update_of_ne]
    omega
  obtain ⟨hok', hpay⟩ := hok.contents hp hother
  set hm' : Heap := { h with mem := m } with hhm
  have hret := alignedAlloc_found hok'.toHeapIs alignOK_min
    (show size < 2 ^ 32 by unfold kernelHeapSize at hs; omega) hfind
  obtain ⟨N, hN⟩ := hret
  have hmal : kmalloc (N + 1) hm' size = _ := hN (N + 1) (Nat.lt_succ_self N)
  obtain ⟨o, ho', hoptr, hp0, hget, hopay⟩ := hok.live_block hp
  obtain ⟨h', hr⟩ : ∃ h', krealloc (N + 1) hm' ptr size = some (some (b.addr + headerSize, h')) := by
    unfold krealloc
    rw [if_neg hp0, if_neg h0.ne', hmal]
    exact ⟨_, rfl⟩
  refine ⟨m, hother, N + 1, _, h', hr, ?_⟩
  intro hcon
  obtain ⟨h₁, l₁', b', l₂', hmal', -, rfl⟩ := krealloc_cases hok' hp h0 hs hr
  obtain ⟨-, rfl⟩ := Prod.mk.inj (Option.some.inj (Option.some.inj (hmal.symm.trans hmal')))
  have hu : b.used = false := by
    have hfit := List.find?_some hfind
    simp only [Block.fits, decide_eq_true_eq] at hfit
    exact hfit.2.1
  have hok₁ := (reuse_ok hok' hu).1
  have hhead := hcon.headers _ _ hmal' _ hok₁.toHeapIs c (by simp [hc]) 0 (by decide)
  have happart := hok.chain.apart ho' hcm
  have hfree : ∀ x : Heap, (x.kfree ptr).mem c.addr = x.mem c.addr := by
    intro x
    apply kfree_out hp0
    rw [hget]
    rcases happart with rfl | h1 | h1
    · exact .inl (by omega)
    · exact .inr (by omega)
    · exact .inl (by omega)
  rw [Nat.add_zero, hfree, hfree] at hhead
  have hlhs : copyIn (hm'.setSize b.addr (setFlag (hm'.size b.addr))).mem (b.addr + headerSize)
      (copyOut m ptr (h.payload ptr)) c.addr = h.mem c.addr + 1 := by
    rw [copyIn_in (by omega) (by rw [length_copyOut]; omega)]
    simp only [copyOut, List.getElem_map, List.getElem_range, ← hj]
    rw [hm, Function.update_self]
  have hrhs : (hm'.setSize b.addr (setFlag (hm'.size b.addr))).mem c.addr = h.mem c.addr := by
    rw [setSize_out (by omega)]
    apply hother
    rw [hopay, hoptr]
    have h1 := hok.chain.toLayout.header_out hcm ho'
    omega
  rw [hpay] at hhead
  have hbyte : h.mem c.addr + 1 = h.mem c.addr := hlhs.symm.trans (hhead.trans hrhs)
  simp at hbyte

/-! ### Runs -/

/-- One call that meets its condition, or a write of a caller to payloads it holds; the set has the live
pointers. -/
inductive KmallocStep : Heap × Set ℕ → Heap × Set ℕ → Prop
  | alloc {h h' : Heap} {live : Set ℕ} {align size p : ℕ} (ha : AlignOK align) (hs : size < 2 ^ 32)
      (hin : InRange h align size) (hr : Returns (fun fuel => alignedAlloc fuel h align size) (some (p, h'))) :
      KmallocStep (h, live) (h', insert p live)
  | free {h : Heap} {live : Set ℕ} {p : ℕ} (hp : p ∈ live) : KmallocStep (h, live) (h.kfree p, live \ {p})
  | realloc {h h' : Heap} {live : Set ℕ} {ptr size fuel p : ℕ} (hp : ptr ∈ live) (h0 : 0 < size)
      (hs : size ≤ kernelHeapSize) (hroom : Room h ptr size) (hr : krealloc fuel h ptr size = some (some (p, h'))) :
      KmallocStep (h, live) (h', insert p live \ {ptr})
  | write {h : Heap} {live : Set ℕ} {m : ℕ → UInt8}
      (hm : ∀ a, (∀ p ∈ live, ¬ (p ≤ a ∧ a < p + h.payload p)) → m a = h.mem a) :
      KmallocStep (h, live) ({ h with mem := m }, live)

theorem kmallocStep_ready {x y : Heap × Set ℕ} (hx : BlocksReady x) (hs : KmallocStep x y) : BlocksReady y := by
  cases hs with
  | @alloc h h' live align size p ha hsz hin hr =>
    rcases hin with hle | href
    · exact heapStep_ready hx (.alloc ha hle hr)
    · exact nomatch hr.unique ((aborts_iff hx ha hsz).2 href)
  | free hp => exact heapStep_ready hx (.free hp)
  | @realloc h h' live ptr size fuel p hp h0 hle hroom hr =>
    obtain ⟨bs, hok, rfl⟩ := hx.blocks hp
    exact (contained_of_room hok hp h0 hle ((room_iff hok.toHeapIs).1 hroom) hr).freed
  | write hm => exact heapStep_ready hx (.write hm)

/-- The heap before the first allocation. -/
def emptyHeap : Heap := ⟨fun _ => 0, 0, 0, 0⟩

theorem kernel_ready {m : ℕ → UInt8} (hrun : Relation.ReflTransGen KmallocStep (⟨m, 0, 0, 0⟩, ∅) (h, live)) :
    BlocksReady (h, live) :=
  run_inv (I := BlocksReady) (fun _ _ => kmallocStep_ready) (.inl ⟨rfl, rfl, rfl⟩) hrun

/-- **`kmalloc` does not under-allocate** exactly for the requests in range. -/
theorem kmalloc_bounded {m : ℕ → UInt8} (hrun : Relation.ReflTransGen KmallocStep (⟨m, 0, 0, 0⟩, ∅) (h, live))
    (ha : AlignOK align) (hs : size < 2 ^ 32) : Answered h align size ↔ InRange h align size :=
  answered_iff (kernel_ready hrun) ha hs

/-- Behind a first request, and behind its release, a second one is answered rightly. -/
theorem kmalloc_bounded_second : ∃ h p, Relation.ReflTransGen KmallocStep (emptyHeap, ∅) (h, {p}) ∧
    Answered h 4096 1000 ∧ Answered (h.kfree p) 16 50 := by
  have hsome : ((alignedAlloc 9 emptyHeap 16 100).map Option.isSome) = some true := by decide +kernel
  obtain ⟨r, hr, hbool⟩ := Option.map_eq_some_iff.1 hsome
  obtain ⟨⟨p, h⟩, rfl⟩ := Option.isSome_iff_exists.1 hbool
  have hrun : Relation.ReflTransGen KmallocStep (emptyHeap, ∅) (h, {p}) := by
    have hs : KmallocStep (emptyHeap, ∅) _ :=
      .alloc (by decide) (by norm_num) (.inl (by decide)) (alignedAlloc_returns hr)
    rw [insert_empty_eq] at hs
    exact .single hs
  exact ⟨h, p, hrun, (kmalloc_bounded hrun (by decide) (by norm_num)).2 (.inl (by decide)),
    (kmalloc_bounded (hrun.tail (.free (Set.mem_singleton p))) (by decide) (by norm_num)).2 (.inl (by decide))⟩

/-- **The largest size is rounded to 0**: the request gets a block without payload. -/
theorem kmalloc_rounds_to_zero :
    ∃ p h', Returns (fun fuel => alignedAlloc fuel emptyHeap 4 (2 ^ 32 - 1)) (some (p, h')) ∧
    h'.payload p = 0 ∧ ¬ Answered emptyHeap 4 (2 ^ 32 - 1) := by
  have hsome : ((alignedAlloc 9 emptyHeap 4 (2 ^ 32 - 1)).map fun r => r.map fun x => x.2.payload x.1) =
    some (some 0) := by
    decide +kernel
  obtain ⟨r, hr, hpay⟩ := Option.map_eq_some_iff.1 hsome
  obtain ⟨⟨p, h'⟩, rfl, hpay⟩ := Option.map_eq_some_iff.1 hpay
  have hret := alignedAlloc_returns hr
  replace hpay : h'.payload p = 0 := Option.some.inj hpay
  refine ⟨p, h', hret, hpay, ?_⟩
  rintro (hab | ⟨q, h₁, hq, hbnd⟩)
  · exact nomatch hab.unique hret
  · obtain ⟨rfl, rfl⟩ := Prod.mk.inj (Option.some.inj (hq.unique hret))
    have h1 := hbnd.payload
    omega

/-- **`krealloc` is contained**, for all contents of the old payload, exactly when there is room for the
copy. -/
theorem krealloc_contained {m₀ : ℕ → UInt8} (hrun : Relation.ReflTransGen KmallocStep (⟨m₀, 0, 0, 0⟩, ∅) (h, live))
    (hp : ptr ∈ live) (h0 : 0 < size) (hs : size ≤ kernelHeapSize) :
    (∀ m, (∀ a, ¬ (ptr ≤ a ∧ a < ptr + h.payload ptr) → m a = h.mem a) →
      ∀ fuel p h', krealloc fuel { h with mem := m } ptr size = some (some (p, h')) →
        Contained { h with mem := m } live ptr size p h') ↔ Room h ptr size := by
  obtain ⟨bs, hok, rfl⟩ := (kernel_ready hrun).blocks hp
  rw [room_iff hok.toHeapIs]
  constructor
  · intro hall
    by_contra hroom
    obtain ⟨m, hm, fuel, p, h', hr, hnot⟩ := not_contained hok hp h0 hs hroom
    exact hnot (hall m hm fuel p h' hr)
  · intro hroom m hm fuel p h' hr
    obtain ⟨hok', hpay⟩ := hok.contents hp hm
    rw [← hpay] at hroom
    exact contained_of_room hok' hp h0 hs hroom hr

/-- The heap after a request that is granted, and its pointer. -/
def granted (h : Heap) (size : ℕ) : ℕ × Heap := ((alignedAlloc 9 h minAlign size).join).getD (0, h)

/-- A granted request is a step. -/
theorem granted_step (hs : size ≤ kernelHeapSize)
    (hp : (alignedAlloc 9 h minAlign size).map (·.map Prod.fst) = some (some p)) :
    KmallocStep (h, live) ((granted h size).2, insert p live) := by
  obtain ⟨r, hr, hp⟩ := Option.map_eq_some_iff.1 hp
  obtain ⟨⟨q, h'⟩, rfl, rfl⟩ := Option.map_eq_some_iff.1 hp
  have hg : granted h size = (q, h') := by
    unfold granted
    rw [hr]
    rfl
  rw [hg]
  have hlt : size < 2 ^ 32 := by
    unfold kernelHeapSize at hs
    omega
  exact .alloc alignOK_min hlt (.inl hs) (alignedAlloc_returns hr)

/-- Three payloads of 8, 8 and 64 bytes. -/
def threeBlocks : Heap := (granted (granted (granted emptyHeap 8).2 8).2 64).2

def threePtrs : Set ℕ := insert 0xC040003C (insert 0xC0400028 (insert 0xC0400014 ∅))

theorem threeBlocks_run : Relation.ReflTransGen KmallocStep (emptyHeap, ∅) (threeBlocks, threePtrs) :=
  ((Relation.ReflTransGen.single (granted_step (by decide) (by decide +kernel))).tail
    (granted_step (by decide) (by decide +kernel))).tail (granted_step (by decide) (by decide +kernel))

/-- `krealloc_contained` for the second payload, which grows. -/
theorem krealloc_contained_three :
    (∀ m, (∀ a, ¬ (0xC0400028 ≤ a ∧ a < 0xC0400028 + threeBlocks.payload 0xC0400028) → m a = threeBlocks.mem a) →
      ∀ fuel p h', krealloc fuel { threeBlocks with mem := m } 0xC0400028 16 = some (some (p, h')) →
        Contained { threeBlocks with mem := m } threePtrs 0xC0400028 16 p h') ↔ Room threeBlocks 0xC0400028 16 :=
  krealloc_contained threeBlocks_run (.inr (.inl rfl)) (by decide) (by decide)

/-- The first payload is freed, and a byte of the third one is 1. -/
def holed : Heap :=
  { threeBlocks.kfree 0xC0400014 with mem := Function.update (threeBlocks.kfree 0xC0400014).mem 0xC0400050 1 }

def holedPtrs : Set ℕ := threePtrs \ {0xC0400014}

theorem holed_run : Relation.ReflTransGen KmallocStep (emptyHeap, ∅) (holed, holedPtrs) := by
  refine (threeBlocks_run.tail (.free (.inr (.inr (.inl rfl))))).tail (.write ?_)
  intro a ha
  have hpay : (threeBlocks.kfree 0xC0400014).payload 0xC040003C = 64 := by decide +kernel
  have h1 := ha 0xC040003C ⟨.inl rfl, by simp⟩
  rw [hpay] at h1
  apply Function.update_of_ne
  omega

/-- **Shrinking 64 bytes to 8** finds the free block of 8 bytes, and the copy of 64 bytes reaches the payload
behind it. -/
theorem krealloc_overruns : ∃ h live fuel p h', Relation.ReflTransGen KmallocStep (emptyHeap, ∅) (h, live) ∧
    0xC040003C ∈ live ∧ krealloc fuel h 0xC040003C 8 = some (some (p, h')) ∧
      ¬ Contained h live 0xC040003C 8 p h' := by
  have hrun : ((krealloc 9 holed 0xC040003C 8).map fun r => r.map fun x => x.2.mem 0xC0400028) = some (some 1) := by
    decide +kernel
  obtain ⟨r, hr, hbyte⟩ := Option.map_eq_some_iff.1 hrun
  obtain ⟨⟨p, h'⟩, rfl, hbyte⟩ := Option.map_eq_some_iff.1 hbyte
  refine ⟨holed, holedPtrs, 9, p, h', holed_run, ⟨.inl rfl, by simp⟩, hr, ?_⟩
  intro hcon
  have hkept := hcon.kept 0xC0400028 ⟨.inr (.inl rfl), by simp⟩ (by decide) 0 (by decide +kernel)
  have hold : holed.mem 0xC0400028 = 0 := by decide +kernel
  have hnew : h'.mem 0xC0400028 = 1 := Option.some.inj hbyte
  rw [Nat.add_zero, hold, hnew] at hkept
  exact absurd hkept (by decide)

end Saynaa
