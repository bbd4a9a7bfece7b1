import Saynaa.Libc.Malloc
import Saynaa.Proof.Blocks

/-!
# The heap of a process

The allocator computes where the requested block will end and asks the kernel for what is
missing up to there. The sum is not checked for overflow, nor is the answer to the question
where the break is.

* `Tiled`: the blocks between the first break and the break, where the last one ends.
* `Gives`: what `aligned_alloc` gives its caller.
* `alloc_served`, `alloc_unserved`: what `aligned_alloc` returns, with a break below `2^31`.
* `HasIn`: the heap of a process from the first call on, with `free`, `write` and `move`.
* `alloc_has`, `realloc_has`: the calls that may move the break, below `2^31`.
-/

namespace Saynaa

open Lib Heap

variable {h h' : Heap} {lo hi hi' p q : ℕ} {bs bs' l₁ l₂ : List Block} {b : Block} {size align e : ℕ} {live : Set ℕ}

namespace UserHeap

variable {u u' : UserHeap} {g : Grants}

/-- The break as it is computed for a request, without the wrap around. -/
def needed (u : UserHeap) (align size : ℕ) : ℕ :=
  alignTo (u.heap.top + u.heap.memBlockSize u.heap.top + headerSize) align + alignTo size 8

/-- A request finds a free block, or the break is known and the end of the block an address. -/
def Served (u : UserHeap) (g : Grants) (align size : ℕ) : Prop :=
  u.heap.memFindBlock searchFuel (alignTo size 8) align ≠ some none ∨
    g.query = true ∧ u.needed align size < 2 ^ 32

theorem sbrk_zero (hbrk : u.brk < 2 ^ 32) (granted : Bool) :
    u.sbrkLocal granted 0 = (if granted then u.brk else sbrkFailed, u) := by
  have hb : ofInt ((u.brk : ℤ) + 0) = u.brk := by
    unfold ofInt
    omega
  unfold sbrkLocal
  cases granted with
  | true =>
    simp only [hb]
    rfl
  | false => rfl

/-- The break is moved up to `stop`. -/
theorem sbrk_grow {stop : ℕ} (hle : u.brk ≤ stop) (hlt : stop < 2 ^ 32) (granted : Bool) :
    u.sbrkLocal granted (toInt32 (sub32 stop u.brk)) =
      if granted then (u.brk, { u with brk := stop }) else (sbrkFailed, u) := by
  have hmove : ofInt (u.brk + toInt32 (sub32 stop u.brk)) = stop := by
    unfold ofInt toInt32 sub32
    split_ifs <;> omega
  unfold sbrkLocal
  rw [hmove]

/-- **The blocks of a process**: a chain from the first break to the break, where the last block
ends. -/
structure Tiled (lo : ℕ) (u : UserHeap) (bs : List Block) : Prop extends ChainIs lo u.brk u.heap bs 0 where
  tight : (bs.map Block.stop).getLast? = some u.brk

theorem Tiled.setup_eq (hr : Tiled lo u bs) : u.setup g = some u := if_neg hr.top_ne

theorem Tiled.find_eq (hr : Tiled lo u bs) :
    u.heap.memFindBlock searchFuel size align = some ((bs.find? (Block.fits size align)).map Block.addr) := by
  apply memFindBlock_chain hr.toChainIs
  unfold searchFuel
  exact hr.length_le

/-- The last block ends at the break. -/
theorem Tiled.top (hr : Tiled lo u bs) : ∃ l t, bs = l ++ [t] ∧ t.addr = u.heap.top ∧ t.stop = u.brk ∧
    u.heap.memBlockSize u.heap.top = 12 + t.size := by
  obtain ⟨l, t, rfl, -⟩ := hr.last
  obtain ⟨ht, hsize⟩ := hr.toChainIs.memBlockSize_top
  have htight : t.stop = u.brk := by simpa using hr.tight
  exact ⟨l, t, rfl, ht, htight, hsize⟩

/-- What `aligned_alloc` gives its caller. -/
structure Gives (lo : ℕ) (u : UserHeap) (bs : List Block) (align size p : ℕ) (u' : UserHeap)
    (bs' : List Block) : Prop where
  tiled : Tiled lo u' bs'
  live : livePtrs bs' = insert p (livePtrs bs)
  fresh : p ∉ livePtrs bs
  aligned : p % align = 0
  enough : size ≤ u'.heap.payload p
  kept : KeptIn (livePtrs bs) u.heap u'.heap

/-- **A free block is used again.** -/
theorem Tiled.reuse (hr : Tiled lo u bs) (hb : bs.find? (Block.fits size align) = some b) :
    ∃ bs', Gives lo u bs align size (b.addr + headerSize)
      { u with heap := u.heap.setSize b.addr (setFlag (u.heap.size b.addr)) } bs' := by
  obtain ⟨hfit, l₁, l₂, rfl, -⟩ := List.find?_eq_some_iff_append.1 hb
  simp only [Block.fits, decide_eq_true_eq] at hfit
  obtain ⟨hbs, hu, hal⟩ := hfit
  obtain ⟨hc', hlive⟩ := hr.toChainIs.reuse hu
  have hpay := (hc'.payload_eq (b := { b with used := true }) (by simp)).2.2
  refine ⟨l₁ ++ { b with used := true } :: l₂, { hc' with tight := ?_ }, hlive, ?_, hal, ?_, ?_⟩
  · have h1 := hr.tight
    simp only [List.map_append, List.map_cons] at h1 ⊢
    exact h1
  · intro hp
    have hlu := hr.live (by simp) hp
    rw [hu] at hlu
    cases hlu
  · exact hbs.trans hpay.ge
  · exact hr.toChainIs.reuse_kept hu

/-- Where the payload of a new block begins. -/
theorem Tiled.round (hr : Tiled lo u bs) (ha : AlignOK align) :
    u.brk + 12 ≤ alignTo (u.heap.top + u.heap.memBlockSize u.heap.top + headerSize) align ∧
      alignTo (u.heap.top + u.heap.memBlockSize u.heap.top + headerSize) align < u.brk + 12 + align := by
  obtain ⟨l, t, -, ht, hstop, hsize⟩ := hr.top
  have hsmall := hr.small
  have hmax := ha.max
  have hround := alignTo_spec ha.pos
    (show u.heap.top + u.heap.memBlockSize u.heap.top + headerSize + align ≤ 2 ^ 32 by
    unfold Block.stop at hstop
    omega)
  unfold Block.stop at hstop
  omega

/-- **A new block is placed** behind the last one, below a break that was moved for it. -/
theorem Tiled.place (hr : Tiled lo u bs) (ha : AlignOK align) (hsmall : u.needed align size + 8192 ≤ 2 ^ 32)
    (hs8 : alignTo size 8 % 4 = 0) :
    ∃ p u' bs', { u with brk := u.needed align size }.place (alignTo size 8) align = (p, u') ∧
      u'.brk = u.needed align size ∧ Gives lo u bs align (alignTo size 8) p u' bs' := by
  obtain ⟨l, t, hbs, ht, hstop, hsize⟩ := hr.top
  have hgrow : u.brk ≤ u.needed align size := by
    have hround := hr.round ha
    unfold needed
    omega
  have hc := hr.toChainIs.mono hgrow hsmall
  obtain ⟨fill, b, hfill, hbsz, hu, hal, haddr, hnew, -, hframe⟩ := memNewBlock_chain hc ha hs8 (le_of_eq rfl)
  obtain ⟨hlive, hnot⟩ := livePtrs_append hnew (by rw [hbs]; simp) hfill hu
  have hpay := (hnew.payload_eq (b := b) (by simp)).2.2
  refine ⟨b.addr + headerSize, { heap := (u.heap.memNewBlock (alignTo size 8) align).2, brk := u.needed align size },
    bs ++ fill ++ [b], ?_, rfl, { hnew with tight := ?_ }, hlive, hnot, hal, ?_, ?_⟩
  · exact Prod.ext (congrArg (· + headerSize) haddr) rfl
  · have hn1 : b.stop = u.needed align size := by
      obtain ⟨n1, -, -, -, -, hround, -, hfst⟩ := newBlock_addr (alignTo size 8) (hbs ▸ hc) ha
      unfold needed Block.stop
      rw [hround, ← haddr, hfst, hbsz]
    simp [hn1]
  · rw [hpay, hbsz]
  · rw [List.append_assoc] at hnew
    exact hc.new_kept hnew hframe

/-- A rounded 32-bit size. -/
theorem alignTo_eight {n : ℕ} (hn : n < 2 ^ 32) : alignTo n 8 % 8 = 0 ∧ alignTo n 8 ≤ 2 ^ 32 - 8 ∧
    (n ≤ 2 ^ 32 - 8 → n ≤ alignTo n 8) := by
  unfold alignTo add32
  split_ifs <;> omega

/-- **A request that no free block fits**: the 32-bit end of a new block is compared with the break. -/
theorem Tiled.alloc_new (hr : Tiled lo u bs) (ha : AlignOK align)
    (hfind : u.heap.memFindBlock searchFuel (alignTo (size % 2 ^ 32) 8) align = some none) :
    u.alignedAlloc g align size = some (
      if u.needed align (size % 2 ^ 32) % 2 ^ 32 ≤ (if g.query then u.brk else sbrkFailed) then
        u.place (alignTo (size % 2 ^ 32) 8) align
      else if g.grow then
        { u with brk := u.needed align (size % 2 ^ 32) % 2 ^ 32 }.place (alignTo (size % 2 ^ 32) 8) align
      else (0, u)) := by
  have hmax := ha.max
  have hsmall := hr.small
  have hhs : headerSize = 8 := rfl
  have hal : align % 2 ^ 32 = align := Nat.mod_eq_of_lt (by omega)
  obtain ⟨hlo, hhi⟩ := hr.round ha
  obtain ⟨-, hreq, -⟩ := alignTo_eight (Nat.mod_lt size (show 0 < 2 ^ 32 by norm_num))
  have hstop : add32 (alignTo (add32 (add32 u.heap.top (u.heap.memBlockSize u.heap.top)) headerSize) align)
      (alignTo (size % 2 ^ 32) 8) = u.needed align (size % 2 ^ 32) % 2 ^ 32 := by
    obtain ⟨l, t, -, ht, hstop, hsize⟩ := hr.top
    unfold Block.stop at hstop
    have hsum : add32 (u.heap.top + u.heap.memBlockSize u.heap.top) headerSize =
        u.heap.top + u.heap.memBlockSize u.heap.top + headerSize := add32_of_lt (by omega)
    rw [add32_of_lt (show u.heap.top + u.heap.memBlockSize u.heap.top < 2 ^ 32 by omega), hsum]
    rfl
  have hfail : u.brk ≠ sbrkFailed := by
    unfold sbrkFailed
    omega
  unfold alignedAlloc
  simp only [hr.setup_eq, hal, hfind, Option.bind_eq_bind, Option.bind_some, hstop,
    sbrk_zero (show u.brk < 2 ^ 32 by omega)]
  set stop := u.needed align (size % 2 ^ 32) % 2 ^ 32
  set brk := if g.query then u.brk else sbrkFailed
  have hlt : stop < 2 ^ 32 := Nat.mod_lt _ (by norm_num)
  by_cases hle : stop ≤ brk
  · -- no growth is asked for
    rw [if_neg (by omega), if_pos hle]
    rw [Option.pure_def]
  · -- the heap has to grow
    have hquery : brk = u.brk := by
      cases hq : g.query with
      | true => simp only [brk, hq, if_true]
      | false =>
        simp only [brk, hq, Bool.false_eq_true, if_false, sbrkFailed] at hle
        omega
    rw [if_pos (by omega), if_neg hle, hquery, sbrk_grow (by omega) hlt]
    cases g.grow with
    | true =>
      simp only [if_true]
      rw [if_neg hfail, Option.pure_def]
    | false =>
      simp only [if_true, Bool.false_eq_true, if_false]
      rw [Option.pure_def]

/-- The sizes of a request below `2^31`. -/
theorem Tiled.sums (hr : Tiled lo u bs) (ha : AlignOK align) (hsz : size < 2 ^ 31) :
    size % 2 ^ 32 = size ∧ alignTo size 8 % 8 = 0 ∧ size ≤ alignTo size 8 ∧ align % 2 ^ 32 = align ∧
      u.brk + 12 ≤ u.needed align size ∧ u.needed align size < u.brk + 2 ^ 31 + 8192 := by
  have hmax := ha.max
  have hmod : size % 2 ^ 32 = size := Nat.mod_eq_of_lt (by omega)
  obtain ⟨h8, hle, hlt⟩ := alignTo_spec (show 0 < 8 by norm_num) (show size + 8 ≤ 2 ^ 32 by omega)
  have hround := hr.round ha
  refine ⟨hmod, Nat.mod_eq_zero_of_dvd h8, hle, Nat.mod_eq_of_lt (by omega), ?_, ?_⟩
  · unfold needed
    omega
  · unfold needed
    omega

/-- **A request that no free block fits.** -/
theorem alloc_none (hr : Tiled lo u bs) (hlow : u.brk < 2 ^ 31) (ha : AlignOK align) (hsz : size < 2 ^ 31)
    (hfind : u.heap.memFindBlock searchFuel (alignTo size 8) align = some none) :
    u.alignedAlloc g align size = some (
      if g.query = true ∧ u.needed align size < 2 ^ 32 then
        if g.grow then { u with brk := u.needed align size }.place (alignTo size 8) align else (0, u)
      else u.place (alignTo size 8) align) := by
  obtain ⟨hmod, -, -, -, hgt, hlt⟩ := hr.sums ha hsz
  have hnew := hr.alloc_new (g := g) ha (by rw [hmod]; exact hfind)
  rw [hmod] at hnew
  rw [hnew]
  congr 1
  cases hq : g.query with
  | true =>
    simp only [if_true, true_and]
    by_cases hfit : u.needed align size < 2 ^ 32
    · rw [Nat.mod_eq_of_lt hfit, if_neg (by omega), if_pos hfit]
    · -- the sum wraps around to an address below the break
      rw [if_pos (by omega), if_neg hfit]
  | false =>
    have hstop : u.needed align size % 2 ^ 32 ≤ sbrkFailed := by
      unfold sbrkFailed
      omega
    simp only [Bool.false_eq_true, if_false, false_and]
    rw [if_pos hstop]

/-- **A served request**: `NULL`, or a pointer to a new payload. -/
theorem alloc_served (hr : Tiled lo u bs) (hlow : u.brk < 2 ^ 31) (ha : AlignOK align) (hsz : size < 2 ^ 31)
    (hs : u.Served g align size) (h : u.alignedAlloc g align size = some (p, u')) (hlow' : u'.brk < 2 ^ 31) :
    (p = 0 ∧ u' = u) ∨ ∃ bs', Gives lo u bs align (alignTo size 8) p u' bs' := by
  obtain ⟨hmod, h8, -, hal, -⟩ := hr.sums ha hsz
  cases hb : bs.find? (Block.fits (alignTo size 8) align) with
  -- a free block fits
  | some b =>
    refine .inr ?_
    unfold alignedAlloc at h
    simp only [hr.setup_eq, hmod, hal, hr.find_eq, hb, Option.map_some, Option.bind_eq_bind, Option.bind_some] at h
    obtain ⟨rfl, rfl⟩ := Prod.mk.inj (Option.some.inj h)
    exact hr.reuse hb
  -- a new block
  | none =>
    have hfind : u.heap.memFindBlock searchFuel (alignTo size 8) align = some none := by
      simp only [hr.find_eq, hb, Option.map_none]
    have hneeded := hs.resolve_left (not_not.2 hfind)
    rw [alloc_none hr hlow ha hsz hfind, if_pos hneeded] at h
    by_cases hg : g.grow = true
    · -- the heap grows
      rw [if_pos hg] at h
      refine .inr ?_
      have hbrk : u.needed align size = u'.brk := by
        rw [← (Prod.mk.inj (Option.some.inj h)).2]
      obtain ⟨p', u₁, bs', hplace, -, hgives⟩ := hr.place ha
        (show u.needed align size + 8192 ≤ 2 ^ 32 by omega) (show alignTo size 8 % 4 = 0 by omega)
      rw [hplace] at h
      obtain ⟨rfl, rfl⟩ := Prod.mk.inj (Option.some.inj h)
      exact ⟨bs', hgives⟩
    · -- the growth is refused
      rw [if_neg hg] at h
      obtain ⟨rfl, rfl⟩ := Prod.mk.inj (Option.some.inj h)
      exact .inl ⟨rfl, rfl⟩

/-- **Any other request** is answered with a pointer behind the break, which stays where it is. -/
theorem alloc_unserved (hr : Tiled lo u bs) (hlow : u.brk < 2 ^ 31) (ha : AlignOK align) (hsz : size < 2 ^ 31)
    (hs : ¬ u.Served g align size) : ∃ p u', u.alignedAlloc g align size = some (p, u') ∧ u'.brk = u.brk ∧
    u.brk < p := by
  obtain ⟨hfind, hneeded⟩ := not_or.1 hs
  obtain ⟨l, t, rfl, ht, hstop, -⟩ := hr.top
  obtain ⟨n1, hle, -, -, -, -, -, hfst⟩ := newBlock_addr (alignTo size 8) hr.toChainIs ha
  obtain ⟨p, u', hplace, hbrk, hp⟩ : ∃ p u', u.place (alignTo size 8) align = (p, u') ∧ u'.brk = u.brk ∧
      p = n1 + headerSize := ⟨_, _, rfl, rfl, congrArg (· + headerSize) hfst⟩
  have heq := alloc_none (g := g) hr hlow ha hsz (not_not.1 hfind)
  rw [if_neg hneeded, hplace] at heq
  refine ⟨p, u', heq, hbrk, ?_⟩
  unfold Block.stop headerSize at *
  omega

/-! ### From the first call on -/

/-- **The heap of a process** whose first break is `lo`, and the pointers that are live. -/
def HasIn (lo : ℕ) (u : UserHeap) (live : Set ℕ) : Prop :=
  (u.heap.top = 0 ∧ u.brk = lo ∧ live = ∅) ∨ ∃ bs, Tiled lo u bs ∧ live = livePtrs bs

/-- The first request is served by the heap that `setup` leaves. -/
def Granted (u : UserHeap) (g : Grants) (align size : ℕ) : Prop :=
  ∀ u₁, u.setup g = some u₁ → u₁.Served g align size

/-- The first break: behind the program, with room for the empty block. -/
def FirstBreak (lo : ℕ) : Prop := 0x1000 ≤ lo ∧ lo + headerSize < 2 ^ 31

theorem setup_tiled (hlo : FirstBreak u.brk) (ht : u.heap.top = 0) {u₁ : UserHeap} (h : u.setup g = some u₁) :
    Tiled u.brk u₁ [⟨u.brk, 0, true⟩] ∧ u₁.brk = u.brk + headerSize := by
  have hhs : headerSize = 8 := rfl
  obtain ⟨h0, h8⟩ := hlo
  have hbrk : ofInt ((u.brk : ℤ) + headerSize) = u.brk + 8 := by
    unfold ofInt
    omega
  unfold setup at h
  rw [if_pos ht] at h
  unfold sbrkLocal at h
  cases hg : g.first with
  -- nothing is granted
  | false => simp [hg, sbrkFailed] at h
  | true =>
    simp only [hg, if_true, hbrk] at h
    rw [if_neg (by unfold sbrkFailed; omega)] at h
    obtain rfl := Option.some.inj h
    refine ⟨⟨⟨⟨by omega, ?_, List.pairwise_singleton _ _, ?_, ?_, ?_, ⟨[], rfl⟩⟩, rfl,
      ⟨⟨_, cell_setNext _ (by norm_num), ?_⟩, trivial⟩, rfl⟩, rfl⟩, rfl⟩
    · show u.brk + 8 + 8192 ≤ 2 ^ 32
      omega
    · intro b hb
      rw [List.mem_singleton.1 hb]
      exact ⟨le_rfl, le_rfl⟩
    · intro b hb
      rw [List.mem_singleton.1 hb]
      exact Nat.zero_mod 4
    · intro b hb
      exact absurd hb List.not_mem_nil
    · obtain ⟨h1, -⟩ := Prod.mk.inj (Option.some.inj (cell_setSize
        (h := { u.heap with bottom := u.brk, top := u.brk }) u.brk (by norm_num : 1 < 2 ^ 32)))
      rw [h1]
      rfl

/-- The first allocation sets the list up. -/
theorem alignedAlloc_setup {u₁ : UserHeap} (h : u.setup g = some u₁) (h1 : u₁.setup g = some u₁) :
    u.alignedAlloc g align size = u₁.alignedAlloc g align size := by
  unfold alignedAlloc
  rw [h, h1]

/-- A process before or after its first call. -/
theorem HasIn.cases (hlo : FirstBreak lo) (hh : HasIn lo u live) (g : Grants) :
    (u.setup g = none ∧ live = ∅) ∨ ∃ u₁ bs, u.setup g = some u₁ ∧ u₁.setup g = some u₁ ∧ Tiled lo u₁ bs ∧
      live = livePtrs bs ∧ KeptIn live u.heap u₁.heap ∧ (u₁ = u ↔ u.heap.top ≠ 0) ∧
        (u.brk < 2 ^ 31 → u₁.brk < 2 ^ 31) := by
  rcases hh with ⟨ht, rfl, rfl⟩ | ⟨bs, hr, rfl⟩
  · cases hs : u.setup g with
    | none => exact .inl ⟨rfl, rfl⟩
    | some u₁ =>
      obtain ⟨hr, hbrk⟩ := setup_tiled hlo ht hs
      refine .inr ⟨u₁, _, rfl, hr.setup_eq, hr, (Set.eq_empty_iff_forall_notMem.2 ?_).symm, ?_,
        iff_of_false ?_ (not_not.2 ht), ?_⟩
      · rintro p ⟨b, hb, -⟩
        exact List.not_mem_nil hb
      · intro q hq
        exact absurd hq (Set.notMem_empty q)
      · rintro rfl
        exact hr.top_ne ht
      · intro _
        rw [hbrk]
        exact hlo.2
  · refine .inr ⟨u, bs, hr.setup_eq, hr.setup_eq, hr, rfl, ?_, iff_of_true rfl hr.top_ne, fun hlow => hlow⟩
    exact fun q _ => ⟨rfl, fun _ _ => rfl⟩

/-- **A granted request.** -/
theorem alloc_has (hlo : FirstBreak lo) (hh : HasIn lo u live) (hlow : u.brk < 2 ^ 31) (ha : AlignOK align)
    (hsz : size < 2 ^ 31) (hg : u.Granted g align size) (h : u.alignedAlloc g align size = some (p, u'))
    (hlow' : u'.brk < 2 ^ 31) :
    KeptIn live u.heap u'.heap ∧ ((p = 0 ∧ HasIn lo u' live) ∨
      (p ≠ 0 ∧ HasIn lo u' (insert p live) ∧ p ∉ live ∧ p % align = 0 ∧ size ≤ u'.heap.payload p)) := by
  rcases hh.cases hlo g with ⟨hs, hl⟩ | ⟨u₁, bs, hs, hs1, hr, rfl, hkept, -, hlow₁⟩
  · have hres : u.alignedAlloc g align size = some (0, u) := by
      unfold alignedAlloc
      rw [hs]
    rw [hres] at h
    obtain ⟨rfl, rfl⟩ := Prod.mk.inj (Option.some.inj h)
    exact ⟨fun q _ => ⟨rfl, fun _ _ => rfl⟩, .inl ⟨rfl, hh⟩⟩
  · rw [alignedAlloc_setup hs hs1] at h
    rcases alloc_served hr (hlow₁ hlow) ha hsz (hg u₁ hs) h hlow' with ⟨rfl, rfl⟩ | ⟨bs', hal⟩
    · exact ⟨hkept, .inl ⟨rfl, .inr ⟨bs, hr, rfl⟩⟩⟩
    · have hp : p ∈ livePtrs bs' := hal.live ▸ Set.mem_insert p _
      refine ⟨hkept.trans hal.kept, .inr ⟨?_, .inr ⟨bs', hal.tiled, hal.live.symm⟩, hal.fresh, hal.aligned, ?_⟩⟩
      · obtain ⟨b, -, -, rfl⟩ := hp
        exact Nat.succ_ne_zero _
      · obtain ⟨-, -, hle, -⟩ := hr.sums ha hsz
        exact hle.trans hal.enough

/-- **A request that is not granted** is answered with a pointer behind the break. -/
theorem alloc_behind (hlo : FirstBreak lo) (hh : HasIn lo u live) (hlow : u.brk < 2 ^ 31) (ha : AlignOK align)
    (hsz : size < 2 ^ 31) (hg : ¬ u.Granted g align size) (h : u.alignedAlloc g align size = some (p, u')) :
    u'.brk < p := by
  unfold Granted at hg
  push Not at hg
  obtain ⟨u₁, hs, hno⟩ := hg
  rcases hh.cases hlo g with ⟨hs', -⟩ | ⟨u₂, bs, hs', hs1, hr, -, -, -, hlow₁⟩
  · rw [hs] at hs'
    exact nomatch hs'
  · obtain rfl := Option.some.inj (hs.symm.trans hs')
    obtain ⟨p', u₃, h', hbrk, hlt⟩ := alloc_unserved hr (hlow₁ hlow) ha hsz hno
    rw [alignedAlloc_setup hs hs1, h'] at h
    obtain ⟨rfl, rfl⟩ := Prod.mk.inj (Option.some.inj h)
    omega

theorem free_brk (u : UserHeap) (p : ℕ) : (u.free p).brk = u.brk := by
  unfold free
  split <;> rfl

/-- **Freeing a live pointer.** -/
theorem HasIn.free (hh : HasIn lo u live) (hp : p ∈ live) :
    HasIn lo (u.free p) (live \ {p}) ∧ KeptIn (live \ {p}) u.heap (u.free p).heap := by
  rcases hh with ⟨-, -, rfl⟩ | ⟨bs, hr, rfl⟩
  · exact absurd hp (Set.notMem_empty p)
  · obtain ⟨l₁, b, l₂, rfl, -, rfl, hget, -, -, hc', hlive⟩ := hr.release hp
    have hfree : u.free (b.addr + headerSize) =
        { u with heap := u.heap.setSize b.addr (clearFlag (u.heap.size b.addr)) } := by
      have h0 : b.addr + headerSize ≠ 0 := Nat.succ_ne_zero _
      unfold UserHeap.free
      rw [if_neg h0, hget]
    rw [hfree]
    have hkept := hr.release_kept hp
    rw [hget] at hkept
    refine ⟨.inr ⟨l₁ ++ { b with used := false } :: l₂, { hc' with tight := ?_ }, hlive.symm⟩, hkept⟩
    have h1 := hr.tight
    simp only [List.map_append, List.map_cons] at h1 ⊢
    exact h1

/-- The payload of a live pointer, among the blocks. -/
theorem HasIn.block (hh : HasIn lo u live) (hp : p ∈ live) : ∃ bs b, Tiled lo u bs ∧ live = livePtrs bs ∧ b ∈ bs ∧
    p = b.addr + headerSize ∧ u.heap.payload p = b.size := by
  rcases hh with ⟨-, -, rfl⟩ | ⟨bs, hr, rfl⟩
  · exact absurd hp (Set.notMem_empty p)
  · obtain ⟨b, hb, -, rfl⟩ := hp
    have hb' := List.mem_of_mem_tail hb
    exact ⟨bs, b, hr, rfl, hb', rfl, (hr.payload_eq hb').2.2⟩

theorem HasIn.ne_zero (hh : HasIn lo u live) (hp : p ∈ live) : p ≠ 0 := by
  obtain ⟨bs, b, -, -, -, rfl, -⟩ := hh.block hp
  exact Nat.succ_ne_zero _

theorem HasIn.apart (hh : HasIn lo u live) (hp : p ∈ live) (hq : q ∈ live) (hne : q ≠ p) :
    p + u.heap.payload p ≤ q ∨ q + u.heap.payload q ≤ p := by
  rcases hh with ⟨-, -, rfl⟩ | ⟨bs, hr, rfl⟩
  · exact absurd hp (Set.notMem_empty p)
  · exact hr.apart_live hp hq hne

/-- **Writing into a live payload** changes no other one. -/
theorem HasIn.write (hh : HasIn lo u live) (hp : p ∈ live) {i : ℕ} (data : List UInt8)
    (hfit : i + data.length ≤ u.heap.payload p) {u' : UserHeap}
    (hu' : u' = { u with heap := { u.heap with mem := copyIn u.heap.mem (p + i) data } }) :
    HasIn lo u' live ∧ KeptIn (live \ {p}) u.heap u'.heap ∧ u'.heap.payload p = u.heap.payload p := by
  rcases hh with ⟨-, -, rfl⟩ | ⟨bs, hr, rfl⟩
  · exact absurd hp (Set.notMem_empty p)
  · obtain ⟨hc', hrest⟩ := hr.toChainIs.write_kept hp data hfit
    subst hu'
    exact ⟨.inr ⟨bs, { hc' with tight := hr.tight }, rfl⟩, hrest⟩

/-- What `realloc` does with the new block. -/
def moveTo (u : UserHeap) (n p size : ℕ) : UserHeap :=
  let old := clearFlag (u.heap.size (memGetBlock p))
  let copy := if old > size % 2 ^ 32 then size % 2 ^ 32 else old
  { u with heap := { u.heap with mem := copyIn u.heap.mem n (copyOut u.heap.mem p copy) } }.free p

/-- **`realloc` of a live pointer** allocates, copies and frees. -/
theorem realloc_cases (hp0 : p ≠ 0) (hs0 : size ≠ 0) (h : u.realloc g p size = some (q, u')) :
    ∃ u₁, u.malloc g size = some (q, u₁) ∧ u' = if q = 0 then u₁ else u₁.moveTo q p size := by
  unfold realloc at h
  rw [if_neg hp0, if_neg hs0] at h
  obtain ⟨⟨n, u₁⟩, hm, h⟩ := Option.bind_eq_some_iff.1 h
  simp only at h
  by_cases hn0 : n = 0
  · rw [if_pos hn0] at h
    obtain ⟨rfl, rfl⟩ := Prod.mk.inj (Option.some.inj h)
    exact ⟨u₁, hn0 ▸ hm, rfl⟩
  · rw [if_neg hn0] at h
    obtain ⟨rfl, rfl⟩ := Prod.mk.inj (Option.some.inj h)
    exact ⟨u₁, hm, (if_neg hn0).symm⟩

theorem moveTo_brk (u : UserHeap) (n p size : ℕ) : (u.moveTo n p size).brk = u.brk := free_brk _ p

/-- **Moving a live pointer** to a new block that is large enough. -/
theorem HasIn.move {n : ℕ} (hh : HasIn lo u (insert n live)) (hfresh : n ∉ live) (hp : p ∈ live)
    (hfit : size ≤ u.heap.payload n) (hsz : size < 2 ^ 32) :
    HasIn lo (u.moveTo n p size) (insert n (live \ {p})) ∧ KeptIn (live \ {p}) u.heap (u.moveTo n p size).heap ∧
      size ≤ (u.moveTo n p size).heap.payload n ∧
      ∀ i < min (u.heap.payload p) size, (u.moveTo n p size).heap.mem (n + i) = u.heap.mem (p + i) := by
  have hp₁ : p ∈ insert n live := Set.mem_insert_of_mem n hp
  set data := copyOut u.heap.mem p (min (u.heap.payload p) size) with hdata
  have hlen : data.length = min (u.heap.payload p) size := length_copyOut _ _ _
  set u₂ : UserHeap := { u with heap := { u.heap with mem := copyIn u.heap.mem n data } } with hu₂
  have hmove : u.moveTo n p size = u₂.free p := by
    have hcopy : (if clearFlag (u.heap.size (memGetBlock p)) > size % 2 ^ 32 then size % 2 ^ 32
        else clearFlag (u.heap.size (memGetBlock p))) = min (u.heap.payload p) size := by
      have hpay : clearFlag (u.heap.size (memGetBlock p)) = u.heap.payload p := rfl
      rw [hpay, Nat.mod_eq_of_lt hsz]
      split_ifs <;> omega
    unfold moveTo
    simp only [hcopy]
    rfl
  obtain ⟨hh₂, hkept₂, hpay₂⟩ := hh.write (i := 0) (Set.mem_insert n live) data (by omega)
    (show u₂ = _ by rw [Nat.add_zero])
  obtain ⟨hh₃, hkept₃⟩ := hh₂.free hp₁
  have hnp : n ≠ p := by
    rintro rfl
    exact hfresh hp
  have hset : insert n live \ {p} = insert n (live \ {p}) := Set.insert_sdiff_of_notMem live (by simpa using hnp)
  rw [hset] at hh₃ hkept₃
  have hsub : live \ {p} ⊆ insert n live \ {n} := by
    rintro r ⟨hr, -⟩
    refine ⟨Set.mem_insert_of_mem n hr, ?_⟩
    rintro rfl
    exact hfresh hr
  obtain ⟨hpay₃, hmem₃⟩ := hkept₃ n (Set.mem_insert n _)
  rw [hmove]
  refine ⟨hh₃, (hkept₂.mono hsub).trans (hkept₃.mono (Set.subset_insert n _)), ?_, ?_⟩
  · rw [hpay₃, hpay₂]
    exact hfit
  · intro i hi
    have hmem₂ : u₂.heap.mem (n + i) = data[i] := by
      rw [hu₂]
      simp only [copyIn_in (show n ≤ n + i by omega) (show n + i - n < data.length by omega), Nat.add_sub_cancel_left]
    rw [hmem₃ i (by omega), hmem₂]
    simp only [hdata, copyOut, List.getElem_map, List.getElem_range]

/-- **`realloc` of a live pointer**, granted. -/
theorem realloc_has (hlo : FirstBreak lo) (hh : HasIn lo u live) (hlow : u.brk < 2 ^ 31) (hp : p ∈ live)
    (hsz : size < 2 ^ 31) (hs0 : size ≠ 0) (hg : u.Granted g minAlign size) (h : u.realloc g p size = some (q, u'))
    (hlow' : u'.brk < 2 ^ 31) :
    KeptIn (live \ {p}) u.heap u'.heap ∧ ((q = 0 ∧ HasIn lo u' live ∧ KeptIn live u.heap u'.heap) ∨
      (q ≠ 0 ∧ HasIn lo u' (insert q (live \ {p})) ∧ q ∉ live ∧ q % minAlign = 0 ∧ size ≤ u'.heap.payload q ∧
        ∀ i < min (u.heap.payload p) size, u'.heap.mem (q + i) = u.heap.mem (p + i))) := by
  have ha : AlignOK minAlign := ⟨by decide, by decide, by decide⟩
  obtain ⟨u₁, hm, hu'⟩ := realloc_cases (hh.ne_zero hp) hs0 h
  by_cases hq0 : q = 0
  · -- nothing is granted, and the old block stays
    rw [if_pos hq0] at hu'
    subst hu'
    obtain ⟨hkept, ⟨-, hh'⟩ | ⟨hq, -⟩⟩ := alloc_has hlo hh hlow ha hsz hg hm hlow'
    · exact ⟨hkept.mono Set.sdiff_subset, .inl ⟨hq0, hh', hkept⟩⟩
    · exact absurd hq0 hq
  · -- the bytes move to the new block
    rw [if_neg hq0] at hu'
    subst hu'
    have hlow₁ : u₁.brk < 2 ^ 31 := by
      rwa [moveTo_brk] at hlow'
    obtain ⟨hkept, ⟨hq, -⟩ | ⟨-, hh₁, hfresh, hal, hfit⟩⟩ := alloc_has hlo hh hlow ha hsz hg hm hlow₁
    · exact absurd hq hq0
    obtain ⟨hpay, hmem⟩ := hkept p hp
    obtain ⟨hh₂, hkept₂, hfit₂, hcopied⟩ := hh₁.move hfresh hp hfit (by omega)
    refine ⟨(hkept.mono Set.sdiff_subset).trans hkept₂, .inr ⟨hq0, hh₂, hfresh, hal, hfit₂, ?_⟩⟩
    intro i hi
    rw [hcopied i (by omega)]
    exact hmem i (by omega)

/-- `realloc` does not see that its request was not granted. -/
theorem realloc_behind (hlo : FirstBreak lo) (hh : HasIn lo u live) (hlow : u.brk < 2 ^ 31) (hp : p ∈ live)
    (hsz : size < 2 ^ 31) (hs0 : size ≠ 0) (hg : ¬ u.Granted g minAlign size)
    (h : u.realloc g p size = some (q, u')) : u'.brk < q := by
  have ha : AlignOK minAlign := ⟨by decide, by decide, by decide⟩
  obtain ⟨u₁, hm, rfl⟩ := realloc_cases (hh.ne_zero hp) hs0 h
  have hlt := alloc_behind hlo hh hlow ha hsz hg hm
  rw [if_neg (by omega), moveTo_brk]
  exact hlt

/-- **Headers** are apart from live payloads. -/
theorem HasIn.headers (hh : HasIn lo u live) (hp : p ∈ live) {a : ℕ}
    (ha : Relation.ReflTransGen (fun x y => u.heap.next x = y ∧ y ≠ 0) u.heap.bottom a) :
    p + u.heap.payload p ≤ a ∨ a + headerSize ≤ p := by
  obtain ⟨bs, b, hr, -, hb, rfl, hpay⟩ := hh.block hp
  obtain ⟨c, hc, rfl⟩ : ∃ c ∈ bs, c.addr = a := by
    refine run_inv (I := fun a => ∃ c ∈ bs, c.addr = a) ?_ ?_ ha
    · rintro x y ⟨c, hc, rfl⟩ ⟨hnext, hy⟩
      obtain ⟨l₁, l₂, rfl⟩ := List.append_of_mem hc
      rw [(Linked.cell hr.linked).2] at hnext
      cases l₂ with
      | nil => exact absurd hnext.symm hy
      | cons d l₂ => exact ⟨d, by simp, hnext⟩
    · obtain ⟨bs', rfl⟩ := hr.bottom
      exact ⟨_, List.mem_cons_self, hr.bottom_eq.symm⟩
  rw [hpay]
  exact hr.header_out hc hb

theorem HasIn.inside (hh : HasIn lo u live) (hp : p ∈ live) : lo ≤ p ∧ p + u.heap.payload p ≤ u.brk := by
  obtain ⟨bs, b, hr, -, hb, rfl, hpay⟩ := hh.block hp
  obtain ⟨h1, h2⟩ := hr.inside b hb
  rw [hpay]
  exact ⟨Nat.le_add_right_of_le h1, h2⟩

end UserHeap

end Saynaa
