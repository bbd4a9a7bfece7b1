import Saynaa.Proof.UserHeap
import Saynaa.Proof.Sbrk

/-!
# Requests of any size to the heap of a process

A size is cut to 32 bits, rounded up to 8, added to the end of the heap, and the difference to the
break is a signed argument of `sbrk`.

* `Denied`: the kernel refuses to move the break; `Right`: what a caller may expect.
* `HasIn.right_iff`: a request is answered rightly exactly in the cases of `RightWhen`.
* `HeapClient.step`: any calls, with sizes of any magnitude, while the break stays below the page tables.
* `user_sizes`: every call of a run is answered rightly exactly when every request is in these cases.
* `sbrkLocal_proc`, `sbrk_too_far`: the answers of `sbrk_local` are those of `proc_sbrk`, which refuses
  an increment that has become negative.
-/

namespace Saynaa

open Lib Heap

variable {lo n p q align : ℕ} {bs : List Block} {live : Set ℕ}

namespace UserHeap

variable {u u₁ u' : UserHeap} {g : Grants}

/-- No free block fits, the end of a new one is behind the break, and the kernel does not move the break. -/
def Denied (u : UserHeap) (g : Grants) (align n : ℕ) : Prop :=
  u.heap.memFindBlock searchFuel (alignTo (n % 2 ^ 32) 8) align = some none ∧
    g.query = true ∧ u.brk < u.needed align (n % 2 ^ 32) % 2 ^ 32 ∧ g.grow = false

/-- **A right answer** to a request for `n` bytes: `NULL`, and nothing has changed, or a payload of at
least `n` bytes below the break. -/
def Right (u : UserHeap) (n p : ℕ) (u' : UserHeap) : Prop :=
  (p = 0 ∧ u' = u) ∨ (p ≠ 0 ∧ n ≤ u'.heap.payload p ∧ p + u'.heap.payload p ≤ u'.brk)

/-- **The requests that are answered rightly**: in the heap that `setup` leaves they are denied, but not
by the first call, or they can be rounded up to 8 in 32 bits and are served. -/
def RightWhen (u : UserHeap) (g : Grants) (align n : ℕ) : Prop :=
  ∀ u₁, u.setup g = some u₁ →
    (u₁.Denied g align n ∧ u.heap.top ≠ 0) ∨ (¬ u₁.Denied g align n ∧ n ≤ 2 ^ 32 - 8 ∧ u₁.Served g align (n % 2 ^ 32))

/-- Where a placed block begins. -/
theorem Tiled.place_ptr (hr : Tiled lo u bs) (ha : AlignOK align) (req stop : ℕ) :
    ∃ u', { u with brk := stop }.place req align =
      (alignTo (u.heap.top + u.heap.memBlockSize u.heap.top + headerSize) align, u') ∧ u'.brk = stop := by
  obtain ⟨l, t, hbs, -⟩ := hr.top
  obtain ⟨n1, -, -, -, -, hround, -, hfst⟩ := newBlock_addr req (hbs ▸ hr.toChainIs) ha
  refine ⟨{ heap := (u.heap.memNewBlock req align).2, brk := stop }, ?_, rfl⟩
  rw [hround]
  exact Prod.ext (congrArg (· + headerSize) hfst) rfl

/-- **The three outcomes of a request**: it is denied, it is given a block, or a pointer behind the break. -/
theorem Tiled.alloc_cases (hr : Tiled lo u bs) (ha : AlignOK align) (h : u.alignedAlloc g align n = some (p, u'))
    (hlim : u'.brk + 8192 ≤ 2 ^ 32) :
    (u.Denied g align n ∧ p = 0 ∧ u' = u) ∨
      (¬ u.Denied g align n ∧ u.Served g align (n % 2 ^ 32) ∧
        ∃ bs', Gives lo u bs align (alignTo (n % 2 ^ 32) 8) p u' bs') ∨
      (¬ u.Denied g align n ∧ ¬ u.Served g align (n % 2 ^ 32) ∧ u'.brk < p ∧ 8 ≤ p ∧ p < 2 ^ 32) := by
  have hlt : n % 2 ^ 32 < 2 ^ 32 := Nat.mod_lt n (by norm_num)
  obtain ⟨h8, hreq, -⟩ := alignTo_eight hlt
  have hmax := ha.max
  have hsmall := hr.small
  obtain ⟨hbegin, hbegin'⟩ := hr.round ha
  set start := alignTo (u.heap.top + u.heap.memBlockSize u.heap.top + headerSize) align with hstart
  have hneeded : u.needed align (n % 2 ^ 32) = start + alignTo (n % 2 ^ 32) 8 := rfl
  cases hb : bs.find? (Block.fits (alignTo (n % 2 ^ 32) 8) align) with
  | some b =>
    have hfound : u.heap.memFindBlock searchFuel (alignTo (n % 2 ^ 32) 8) align = some (some b.addr) := by
      rw [hr.find_eq, hb]
      rfl
    have hal : align % 2 ^ 32 = align := Nat.mod_eq_of_lt (by omega)
    unfold alignedAlloc at h
    simp only [hr.setup_eq, hal, hfound, Option.bind_eq_bind, Option.bind_some] at h
    obtain ⟨rfl, rfl⟩ := Prod.mk.inj (Option.some.inj h)
    refine .inr (.inl ⟨?_, .inl ?_, hr.reuse hb⟩)
    · rintro ⟨hnone, -⟩
      rw [hfound] at hnone
      exact nomatch Option.some.inj hnone
    · rw [hfound]
      exact fun hnone => nomatch Option.some.inj hnone
  | none =>
    have hfind : u.heap.memFindBlock searchFuel (alignTo (n % 2 ^ 32) 8) align = some none := by
      rw [hr.find_eq, hb]
      rfl
    -- whatever was placed in front of the break that is needed ends behind the one there is
    have hbehind : ∀ stop, stop < start →
      ({ u with brk := stop } : UserHeap).place (alignTo (n % 2 ^ 32) 8) align = (p, u') →
        u'.brk < p ∧ 8 ≤ p ∧ p < 2 ^ 32 := by
      intro stop hstop hplace
      obtain ⟨u₂, hplace₂, hbrk⟩ := hr.place_ptr ha (alignTo (n % 2 ^ 32) 8) stop
      obtain ⟨rfl, rfl⟩ := Prod.mk.inj (hplace.symm.trans hplace₂)
      omega
    rw [hr.alloc_new ha hfind] at h
    cases hquery : g.query with
    | false =>
      simp only [hquery, Bool.false_eq_true, if_false] at h
      have hstop : u.needed align (n % 2 ^ 32) % 2 ^ 32 ≤ sbrkFailed := by
        unfold sbrkFailed
        omega
      rw [if_pos hstop] at h
      refine .inr (.inr ⟨?_, ?_, hbehind u.brk (by omega) (Option.some.inj h)⟩)
      · rintro ⟨-, hq, -⟩
        exact absurd (hquery.symm.trans hq) Bool.false_ne_true
      · rintro (hs | ⟨hq, -⟩)
        · exact hs hfind
        · exact absurd (hquery.symm.trans hq) Bool.false_ne_true
    | true =>
      simp only [hquery, if_true] at h
      have hserved : u.Served g align (n % 2 ^ 32) ↔ u.needed align (n % 2 ^ 32) < 2 ^ 32 :=
        ⟨fun hs => (hs.resolve_left (not_not.2 hfind)).2, fun hs => .inr ⟨hquery, hs⟩⟩
      rw [hserved]
      by_cases hle : u.needed align (n % 2 ^ 32) % 2 ^ 32 ≤ u.brk
      · rw [if_pos hle] at h
        refine .inr (.inr ⟨fun hd => absurd hd.2.2.1 (by omega),
          by omega, hbehind u.brk (by omega) (Option.some.inj h)⟩)
      rw [if_neg hle] at h
      cases hgrow : g.grow with
      | false =>
        simp only [hgrow, Bool.false_eq_true, if_false] at h
        obtain ⟨rfl, rfl⟩ := Prod.mk.inj (Option.some.inj h)
        exact .inl ⟨⟨hfind, hquery, by omega, hgrow⟩, rfl, rfl⟩
      | true =>
        have hgranted : ¬ u.Denied g align n := fun hd => absurd (hgrow.symm.trans hd.2.2.2) (by decide)
        simp only [hgrow, if_true] at h
        replace h := Option.some.inj h
        by_cases hfit : u.needed align (n % 2 ^ 32) < 2 ^ 32
        · rw [Nat.mod_eq_of_lt hfit] at h
          have hbrk : u'.brk = u.needed align (n % 2 ^ 32) := by
            obtain ⟨u₂, hplace₂, hbrk⟩ := hr.place_ptr ha (alignTo (n % 2 ^ 32) 8) (u.needed align (n % 2 ^ 32))
            obtain ⟨-, rfl⟩ := Prod.mk.inj (h.symm.trans hplace₂)
            exact hbrk
          obtain ⟨p₂, u₂, bs', hplace, -, hgives⟩ := hr.place ha
            (show u.needed align (n % 2 ^ 32) + 8192 ≤ 2 ^ 32 by omega) (show alignTo (n % 2 ^ 32) 8 % 4 = 0 by omega)
          obtain ⟨rfl, rfl⟩ := Prod.mk.inj (h.symm.trans hplace)
          exact .inr (.inl ⟨hgranted, hfit, bs', hgives⟩)
        · -- the sum has wrapped around, to an address below the new block
          exact .inr (.inr ⟨hgranted, hfit, hbehind _ (by omega) h⟩)

/-- The pointer that is given, in the new heap. -/
theorem Gives.inside {size : ℕ} {bs' : List Block} (hg : Gives lo u bs align size p u' bs') :
    8 ≤ p ∧ p < 2 ^ 32 ∧ p + u'.heap.payload p ≤ u'.brk := by
  have hh : HasIn lo u' (livePtrs bs') := .inr ⟨bs', hg.tiled, rfl⟩
  have hp : p ∈ livePtrs bs' := hg.live ▸ Set.mem_insert p _
  have hsmall := hg.tiled.small
  have hin := (hh.inside hp).2
  obtain ⟨b, -, -, hpb⟩ := hp
  unfold headerSize at hpb
  omega

theorem alloc_of_none (hs : u.setup g = none) (h : u.alignedAlloc g align n = some (p, u')) : p = 0 ∧ u' = u := by
  unfold alignedAlloc at h
  rw [hs] at h
  obtain ⟨rfl, rfl⟩ := Prod.mk.inj (Option.some.inj h)
  exact ⟨rfl, rfl⟩

/-- **A request is answered rightly** in exactly these cases. -/
theorem HasIn.right_iff (hlo : FirstBreak lo) (hh : HasIn lo u live) (ha : AlignOK align)
    (h : u.alignedAlloc g align n = some (p, u')) (hlim : u'.brk + 8192 ≤ 2 ^ 32) :
    Right u n p u' ↔ u.RightWhen g align n := by
  rcases hh.cases hlo g with ⟨hs, -⟩ | ⟨u₁, bs, hs, hs1, hr, -, -, hsame, -⟩
  · refine iff_of_true (.inl (alloc_of_none hs h)) ?_
    intro u₁ hs₁
    exact nomatch hs.symm.trans hs₁
  have hwhen : u.RightWhen g align n ↔ (u₁.Denied g align n ∧ u.heap.top ≠ 0) ∨
      (¬ u₁.Denied g align n ∧ n ≤ 2 ^ 32 - 8 ∧ u₁.Served g align (n % 2 ^ 32)) := by
    refine ⟨fun hw => hw u₁ hs, fun hw u₂ hs₂ => ?_⟩
    obtain rfl := Option.some.inj (hs.symm.trans hs₂)
    exact hw
  rw [hwhen]
  rw [alignedAlloc_setup hs hs1] at h
  rcases hr.alloc_cases ha h hlim with ⟨hd, rfl, rfl⟩ | ⟨hd, hserved, bs', hg⟩ | ⟨hd, hserved, hbehind, h8, -⟩
  · -- nothing is granted
    constructor
    · rintro (⟨-, hu⟩ | ⟨h0, -⟩)
      · exact .inl ⟨hd, hsame.1 hu⟩
      · exact absurd rfl h0
    · rintro (⟨-, ht⟩ | ⟨hnd, -⟩)
      · exact .inl ⟨rfl, hsame.2 ht⟩
      · exact absurd hd hnd
  · -- the block lies in front of the break
    obtain ⟨h8, -, hin⟩ := hg.inside
    constructor
    · rintro (⟨h0, -⟩ | ⟨-, hn, -⟩)
      · omega
      · exact .inr ⟨hd, by omega, hserved⟩
    · rintro (⟨hd', -⟩ | ⟨-, hn, -⟩)
      · exact absurd hd' hd
      · have hmod : n % 2 ^ 32 = n := Nat.mod_eq_of_lt (by omega)
        have henough := hg.enough
        have hround := (alignTo_eight (show n < 2 ^ 32 by omega)).2.2 hn
        rw [hmod] at henough
        exact .inr ⟨by omega, by omega, hin⟩
  · -- the block lies behind it
    constructor
    · rintro (⟨h0, -⟩ | ⟨-, -, hbrk⟩)
      · omega
      · omega
    · rintro (⟨hd', -⟩ | ⟨-, -, hs'⟩)
      · exact absurd hd' hd
      · exact absurd hs' hserved

/-- **A right answer keeps the heap.** -/
theorem HasIn.alloc (hlo : FirstBreak lo) (hh : HasIn lo u live) (ha : AlignOK align)
    (h : u.alignedAlloc g align n = some (p, u')) (hlim : u'.brk + 8192 ≤ 2 ^ 32) (hw : u.RightWhen g align n) :
    (p = 0 ∧ HasIn lo u' live) ∨
      (n ≤ 2 ^ 32 - 8 ∧ p ≠ 0 ∧ HasIn lo u' (insert p live) ∧ p ∉ live ∧ n ≤ u'.heap.payload p ∧
        KeptIn live u.heap u'.heap) := by
  have hright := (hh.right_iff hlo ha h hlim).2 hw
  rcases hh.cases hlo g with ⟨hs, -⟩ | ⟨u₁, bs, hs, hs1, hr, rfl, hkept, -⟩
  · obtain ⟨rfl, rfl⟩ := alloc_of_none hs h
    exact .inl ⟨rfl, hh⟩
  rw [alignedAlloc_setup hs hs1] at h
  rcases hr.alloc_cases ha h hlim with ⟨-, rfl, rfl⟩ | ⟨hd, -, bs', hg⟩ | ⟨hd, hserved, -⟩
  · exact .inl ⟨rfl, .inr ⟨bs, hr, rfl⟩⟩
  · obtain ⟨h8, -, hin⟩ := hg.inside
    obtain ⟨h0, -⟩ | ⟨hp, hn, -⟩ := hright
    · omega
    · exact .inr ⟨by omega, hp, .inr ⟨bs', hg.tiled, hg.live.symm⟩, hg.fresh, hn, hkept.trans hg.kept⟩
  · rcases hw u₁ hs with ⟨hd', -⟩ | ⟨-, -, hs'⟩
    · exact absurd hd' hd
    · exact absurd hs' hserved

/-- A pointer other than `NULL` has room for a header before it. -/
theorem HasIn.alloc_ptr (hlo : FirstBreak lo) (hh : HasIn lo u live) (ha : AlignOK align)
    (h : u.alignedAlloc g align n = some (p, u')) (hlim : u'.brk + 8192 ≤ 2 ^ 32) (hp : p ≠ 0) :
    8 ≤ p ∧ p < 2 ^ 32 := by
  rcases hh.cases hlo g with ⟨hs, -⟩ | ⟨u₁, bs, hs, hs1, hr, -⟩
  · exact absurd (alloc_of_none hs h).1 hp
  rw [alignedAlloc_setup hs hs1] at h
  rcases hr.alloc_cases ha h hlim with ⟨-, h0, -⟩ | ⟨-, -, bs', hg⟩ | ⟨-, -, -, h8, hlt⟩
  · exact absurd h0 hp
  · exact ⟨hg.inside.1, hg.inside.2.1⟩
  · exact ⟨h8, hlt⟩

/-- Only 32 bits of a size are read. -/
theorem alignedAlloc_mod (u : UserHeap) (g : Grants) (align n : ℕ) :
    u.alignedAlloc g align (n % 2 ^ 64) = u.alignedAlloc g align n := by
  have hmod : n % 2 ^ 64 % 2 ^ 32 = n % 2 ^ 32 := Nat.mod_mod_of_dvd n (pow_dvd_pow 2 (by norm_num))
  unfold alignedAlloc
  rw [hmod]

/-- The heap after `memset(p, 0, k)`. -/
def clear (u : UserHeap) (p k : ℕ) : UserHeap :=
  { u with heap := { u.heap with mem := copyIn u.heap.mem p (List.replicate k 0) } }

/-- Bytes from a payload on do not change its size. -/
theorem clear_payload (h8 : 8 ≤ p) (hlt : p < 2 ^ 32) (k : ℕ) : (u.clear p k).heap.payload p = u.heap.payload p := by
  obtain ⟨a, rfl⟩ : ∃ a, p = a + headerSize := ⟨p - 8, by unfold headerSize; omega⟩
  have hcell : (u.clear (a + headerSize) k).heap.cell a = u.heap.cell a := by
    apply cell_congr
    intro i hi
    apply copyIn_out
    unfold headerSize
    omega
  unfold Heap.payload
  rw [memGetBlock_eq hlt, (Prod.mk.inj (Option.some.inj hcell)).1]

/-- **`calloc` is `malloc` and `memset`.** -/
theorem calloc_cases {nmemb size : ℕ} (h : u.calloc g nmemb size = some (p, u')) :
    ∃ u₁, u.malloc g (nmemb * size) = some (p, u₁) ∧
      u' = if p = 0 then u₁ else u₁.clear p (nmemb * size % 2 ^ 32) := by
  have hmod : nmemb * size % 2 ^ 64 % 2 ^ 32 = nmemb * size % 2 ^ 32 :=
    Nat.mod_mod_of_dvd _ (pow_dvd_pow 2 (by norm_num))
  unfold calloc at h
  obtain ⟨⟨q, u₁⟩, hm, h⟩ := Option.bind_eq_some_iff.1 h
  simp only [hmod] at h
  have hm' : u.malloc g (nmemb * size) = some (q, u₁) := (alignedAlloc_mod u g minAlign _).symm.trans hm
  by_cases hq0 : q = 0
  · rw [if_pos hq0] at h
    obtain ⟨rfl, rfl⟩ := Prod.mk.inj (Option.some.inj h)
    exact ⟨u₁, hq0 ▸ hm', rfl⟩
  · rw [if_neg hq0] at h
    obtain ⟨rfl, rfl⟩ := Prod.mk.inj (Option.some.inj h)
    exact ⟨u₁, hm', (if_neg hq0).symm⟩

/-! ### What the kernel answers -/

/-- `proc_sbrk` returns the old break and moves it, or changes nothing of the process. -/
theorem procSbrk_cases {m m' : Machine} {P P' : Process} {size : ℤ} {r : Option ℕ} (hlt : P.brk < 2 ^ 32)
    (h : procSbrk m P size = some (r, m', P')) :
    (r = none ∧ P' = P) ∨ (r = some P.brk ∧ P' = { P with memLen := ofInt (P.memLen + size) }) := by
  have hend : (0x1000 + 0x1000 * P.codeLen + P.memLen) % 2 ^ 32 = P.brk := Nat.mod_eq_of_lt hlt
  unfold procSbrk at h
  simp only [hend] at h
  generalize (if P.brk % 0x1000 ≠ 0 then 0x1000 - P.brk % 0x1000 else 0) = R at h
  split_ifs at h with hpos hrem hneg hcode htaken
  · obtain ⟨⟨ok, m₁⟩, -, h⟩ := Option.bind_eq_some_iff.1 h
    simp only at h
    split_ifs at h with hok <;> cases h
    · exact .inr ⟨rfl, rfl⟩
    · exact .inl ⟨rfl, rfl⟩
  · cases h
    exact .inr ⟨rfl, rfl⟩
  · cases h
    exact .inl ⟨rfl, rfl⟩
  · obtain ⟨m₁, -, h⟩ := Option.bind_eq_some_iff.1 h
    cases h
    exact .inr ⟨rfl, rfl⟩
  · cases h
    exact .inr ⟨rfl, rfl⟩
  · cases h
    exact .inr ⟨rfl, rfl⟩

/-- **The answers of `sbrk_local`** are those of `proc_sbrk`. -/
theorem sbrkLocal_proc {m m' : Machine} {P P' : Process} {size : ℤ} {r : Option ℕ} (hu : u.brk = P.brk)
    (hlt : P.brk < 2 ^ 32) (h : procSbrk m P size = some (r, m', P')) :
    u.sbrkLocal r.isSome size = (r.getD sbrkFailed, { u with brk := P'.brk % 2 ^ 32 }) := by
  rcases procSbrk_cases hlt h with ⟨rfl, rfl⟩ | ⟨rfl, rfl⟩
  · rw [Nat.mod_eq_of_lt hlt, ← hu]
    rfl
  · have hmoved : ofInt (P.brk + size) = (P.heapBase + ofInt (P.memLen + size)) % 2 ^ 32 := by
      unfold Process.brk ofInt
      omega
    unfold sbrkLocal
    simp only [Option.isSome_some, if_true, Option.getD_some, hu, hmoved]
    rfl

/-- **An increment that has become negative** is refused, for a program below `2^31`. -/
theorem sbrk_too_far {m m' : Machine} {P P' : Process} {stop : ℕ} {r : Option ℕ} (hlt : stop < 2 ^ 32)
    (hfar : P.brk + 2 ^ 31 ≤ stop) (hcode : 0x1000 * P.codeLen < 2 ^ 31)
    (h : procSbrk m P (toInt32 (sub32 stop P.brk)) = some (r, m', P')) : r = none ∧ m' = m ∧ P' = P := by
  have hend : (0x1000 + 0x1000 * P.codeLen + P.memLen) % 2 ^ 32 = P.brk :=
    Nat.mod_eq_of_lt (show P.brk < 2 ^ 32 by omega)
  have hsize : toInt32 (sub32 stop P.brk) = stop - P.brk - 2 ^ 32 := by
    unfold toInt32 sub32
    split_ifs <;> omega
  have hsum : toInt32 (ofInt (P.brk + (stop - P.brk - 2 ^ 32))) < toInt32 (0x1000 * P.codeLen % 2 ^ 32) := by
    unfold toInt32 ofInt
    split_ifs <;> omega
  rw [hsize] at h
  unfold procSbrk at h
  simp only [hend] at h
  rw [if_neg (by omega), if_pos (by omega), if_pos hsum] at h
  cases h
  exact ⟨rfl, rfl, rfl⟩

end UserHeap

/-! ### Runs -/

open UserHeap
open HeapRun (yes)

/-- Where the kernel has mapped the page tables of the running process. -/
def pageTables : ℕ := 0xFFC00000

/-- A process: its heap, the pointers that are live, and the last result. -/
structure HeapClient where
  u : UserHeap
  live : Finset ℕ
  result : ℕ

/-- A call, where `malloc` is `aligned_alloc` with `MIN_ALIGN`, or a byte that the process writes. -/
inductive ClientCall where
  | alignedAlloc (g : Grants) (align size : ℕ)
  | calloc (g : Grants) (nmemb size : ℕ)
  | free (p : ℕ)
  | realloc (g : Grants) (p size : ℕ)
  | write (p i : ℕ) (v : UInt8)

namespace HeapClient

/-- Any result but `NULL` is live. -/
def give (live : Finset ℕ) (x : ℕ × UserHeap) : Option HeapClient :=
  if x.2.brk ≤ pageTables then some ⟨x.2, if x.1 = 0 then live else insert x.1 live, x.1⟩ else none

def step (s : HeapClient) : ClientCall → Option HeapClient
  | .alignedAlloc g align size => if AlignOK align then (s.u.alignedAlloc g align size).bind (give s.live) else none
  | .calloc g nmemb size => (s.u.calloc g nmemb size).bind (give s.live)
  | .free p => if p ∈ s.live then some ⟨s.u.free p, s.live.erase p, 0⟩ else none
  | .realloc g p size =>
    if p = 0 ∨ p ∈ s.live then
      (s.u.realloc g p size).bind fun x => give (if x.1 ≠ 0 ∨ size = 0 then s.live.erase p else s.live) x
    else none
  | .write p i v =>
    if p ∈ s.live ∧ i < s.u.heap.payload p then
      some { s with u := { s.u with heap := { s.u.heap with mem := copyIn s.u.heap.mem (p + i) [v] } }, result := 0 }
    else none

/-- **What a call promises.** The size of `calloc` is the product of two numbers, and its block is zero;
`realloc` makes a request of its own. -/
def Answers (s : HeapClient) : ClientCall → HeapClient → Prop
  | .alignedAlloc _ _ size, t => Right s.u size t.result t.u
  | .calloc _ nmemb size, t => Right s.u (nmemb * size) t.result t.u ∧
      (t.result ≠ 0 → ∀ i < nmemb * size, t.u.heap.mem (t.result + i) = 0)
  | .realloc g p size, _ => (p ≠ 0 ∧ size = 0) ∨ ∀ q u₁, s.u.malloc g size = some (q, u₁) → Right s.u size q u₁
  | _, _ => True

/-- The request of a call is one of those that are answered rightly. -/
def AnswersWhen (s : HeapClient) : ClientCall → Prop
  | .alignedAlloc g align size => s.u.RightWhen g align size
  | .calloc g nmemb size => s.u.RightWhen g minAlign (nmemb * size)
  | .realloc g p size => (p ≠ 0 ∧ size = 0) ∨ s.u.RightWhen g minAlign size
  | _ => True

/-- A process before its first call. -/
structure Fresh (lo : ℕ) (s : HeapClient) : Prop where
  first : FirstBreak lo
  brk : s.u.brk = lo
  top : s.u.heap.top = 0
  live : s.live = ∅

variable {s t : HeapClient} {c : ClientCall}

/-- The heap of a run. -/
def HeapInv (lo : ℕ) (s : HeapClient) : Prop := HasIn lo s.u s.live

theorem Fresh.inv (h : Fresh lo s) : HeapInv lo s := .inl ⟨h.top, h.brk, by rw [h.live]; exact Finset.coe_empty⟩

theorem give_cases {live : Finset ℕ} {x : ℕ × UserHeap} (h : give live x = some t) :
    x.2.brk + 8192 ≤ 2 ^ 32 ∧ t = ⟨x.2, if x.1 = 0 then live else insert x.1 live, x.1⟩ := by
  unfold give at h
  by_cases hlim : x.2.brk ≤ pageTables
  · rw [if_pos hlim] at h
    unfold pageTables at hlim
    exact ⟨by omega, (Option.some.inj h).symm⟩
  · rw [if_neg hlim] at h
    exact nomatch h

theorem alignOK_four : AlignOK minAlign := by decide

/-- **`aligned_alloc`.** -/
theorem alloc_iff (hlo : FirstBreak lo) (hs : HeapInv lo s) {g : Grants} {align size : ℕ}
    (h : s.step (.alignedAlloc g align size) = some t) :
    (Answers s (.alignedAlloc g align size) t ↔ AnswersWhen s (.alignedAlloc g align size)) ∧
      (AnswersWhen s (.alignedAlloc g align size) → HeapInv lo t) := by
  unfold step at h
  simp only at h
  split_ifs at h with ha
  obtain ⟨⟨p, u'⟩, hal, hgive⟩ := Option.bind_eq_some_iff.1 h
  obtain ⟨hlim, rfl⟩ := give_cases hgive
  refine ⟨hs.right_iff hlo ha hal hlim, ?_⟩
  intro hw
  rcases hs.alloc hlo ha hal hlim hw with ⟨hp, hh⟩ | ⟨-, hp, hh, -⟩
  · subst hp
    exact hh
  · show HasIn lo u' _
    simp only [if_neg hp, Finset.coe_insert]
    exact hh

/-- **`calloc`.** -/
theorem calloc_iff (hlo : FirstBreak lo) (hs : HeapInv lo s) {g : Grants} {nmemb size : ℕ}
    (h : s.step (.calloc g nmemb size) = some t) :
    (Answers s (.calloc g nmemb size) t ↔ AnswersWhen s (.calloc g nmemb size)) ∧
      (AnswersWhen s (.calloc g nmemb size) → HeapInv lo t) := by
  obtain ⟨⟨p, u'⟩, hc, hgive⟩ :=
    Option.bind_eq_some_iff.1 (show (s.u.calloc g nmemb size).bind (give s.live) = some t from h)
  obtain ⟨hlim, rfl⟩ := give_cases hgive
  obtain ⟨u₁, hm, hu'⟩ := calloc_cases hc
  by_cases hp : p = 0
  · subst hp
    obtain rfl : u' = u₁ := hu'
    have hiff := hs.right_iff hlo alignOK_four hm hlim
    refine ⟨⟨fun ha => hiff.1 ha.1, fun hw => ⟨hiff.2 hw, fun h0 => absurd rfl h0⟩⟩, fun hw => ?_⟩
    rcases hs.alloc hlo alignOK_four hm hlim hw with ⟨-, hh⟩ | ⟨-, h0, -⟩
    · exact hh
    · exact absurd rfl h0
  · rw [if_neg hp] at hu'
    subst hu'
    have hlim₁ : u₁.brk + 8192 ≤ 2 ^ 32 := hlim
    have hiff := hs.right_iff hlo alignOK_four hm hlim₁
    obtain ⟨h8, hlt⟩ := hs.alloc_ptr hlo alignOK_four hm hlim₁ hp
    have hpay := clear_payload (u := u₁) h8 hlt (nmemb * size % 2 ^ 32)
    -- clearing the block changes neither its size nor the break
    have hright : Right s.u (nmemb * size) p (u₁.clear p (nmemb * size % 2 ^ 32)) ↔
      Right s.u (nmemb * size) p u₁ := by
      unfold Right
      rw [hpay]
      exact or_congr (iff_of_false (fun h0 => hp h0.1) (fun h0 => hp h0.1)) Iff.rfl
    have hgood : AnswersWhen s (.calloc g nmemb size) → nmemb * size % 2 ^ 32 = nmemb * size ∧
        HasIn lo (u₁.clear p (nmemb * size % 2 ^ 32)) (insert p s.live) := by
      intro hw
      rcases hs.alloc hlo alignOK_four hm hlim₁ hw with ⟨h0, -⟩ | ⟨hn, -, hh, -, hfit, -⟩
      · exact absurd h0 hp
      have hmod : nmemb * size % 2 ^ 32 = nmemb * size := Nat.mod_eq_of_lt (by omega)
      refine ⟨hmod, (hh.write (i := 0) (Set.mem_insert p _) (List.replicate (nmemb * size % 2 ^ 32) 0) ?_ rfl).1⟩
      rw [List.length_replicate, hmod]
      omega
    refine ⟨⟨fun ha => hiff.1 (hright.1 ha.1), fun hw => ⟨hright.2 (hiff.2 hw), fun _ i hi => ?_⟩⟩, fun hw => ?_⟩
    · obtain ⟨hmod, -⟩ := hgood hw
      show copyIn u₁.heap.mem p (List.replicate (nmemb * size % 2 ^ 32) 0) (p + i) = 0
      rw [copyIn_in (by omega) (by rw [List.length_replicate]; omega), List.getElem_replicate]
    · show HasIn lo (u₁.clear p _) _
      simp only [if_neg hp, Finset.coe_insert]
      exact (hgood hw).2

/-- **`realloc`.** -/
theorem realloc_iff (hlo : FirstBreak lo) (hs : HeapInv lo s) {g : Grants} {p size : ℕ}
    (h : s.step (.realloc g p size) = some t) :
    (Answers s (.realloc g p size) t ↔ AnswersWhen s (.realloc g p size)) ∧
      (AnswersWhen s (.realloc g p size) → HeapInv lo t) := by
  unfold step at h
  simp only at h
  split_ifs at h with hlive
  obtain ⟨⟨q, u'⟩, hr, hgive⟩ := Option.bind_eq_some_iff.1 h
  obtain ⟨hlim, rfl⟩ := give_cases hgive
  simp only at hlim
  by_cases hp0 : p = 0
  · -- `realloc(NULL, size)` is `malloc(size)`
    subst hp0
    have hm : s.u.malloc g size = some (q, u') := hr
    have hiff := hs.right_iff hlo alignOK_four hm hlim
    have h0 : 0 ∉ s.live := fun h0 => hs.ne_zero h0 rfl
    refine ⟨or_congr Iff.rfl ⟨fun ha => hiff.1 (ha q u' hm), fun hw q₁ u₁ hm₁ => ?_⟩, fun hw => ?_⟩
    · obtain ⟨rfl, rfl⟩ := Prod.mk.inj (Option.some.inj (hm.symm.trans hm₁))
      exact hiff.2 hw
    · have hw' := hw.resolve_left fun h => h.1 rfl
      show HasIn lo u' _
      simp only [Finset.erase_eq_of_notMem h0, ite_self]
      rcases hs.alloc hlo alignOK_four hm hlim hw' with ⟨hq, hh⟩ | ⟨-, hq, hh, -⟩
      · rw [if_pos hq]
        exact hh
      · rw [if_neg hq, Finset.coe_insert]
        exact hh
  have hp : p ∈ s.live := hlive.resolve_left hp0
  by_cases hs0 : size = 0
  · -- `realloc(ptr, 0)` is `free(ptr)`
    refine ⟨iff_of_true (.inl ⟨hp0, hs0⟩) (.inl ⟨hp0, hs0⟩), fun _ => ?_⟩
    unfold realloc at hr
    rw [if_neg hp0, if_pos hs0] at hr
    obtain ⟨rfl, rfl⟩ := Prod.mk.inj (Option.some.inj hr)
    show HasIn lo (s.u.free p) _
    simp only [if_true, hs0, or_true, Finset.coe_erase]
    exact (hs.free hp).1
  obtain ⟨u₁, hm, hu'⟩ := realloc_cases hp0 hs0 hr
  have hlim₁ : u₁.brk + 8192 ≤ 2 ^ 32 := by
    rw [hu', apply_ite UserHeap.brk, moveTo_brk, ite_self] at hlim
    exact hlim
  have hiff := hs.right_iff hlo alignOK_four hm hlim₁
  refine ⟨or_congr Iff.rfl ⟨fun ha => hiff.1 (ha q u₁ hm), fun hw q₁ u₂ hm₁ => ?_⟩, fun hw => ?_⟩
  · obtain ⟨rfl, rfl⟩ := Prod.mk.inj (Option.some.inj (hm.symm.trans hm₁))
    exact hiff.2 hw
  · have hw' := hw.resolve_left fun h => hs0 h.2
    show HasIn lo u' _
    rcases hs.alloc hlo alignOK_four hm hlim₁ hw' with ⟨hq, hh⟩ | ⟨hn, hq, hh, hfresh, hfit, -⟩
    · rw [if_pos hq] at hu'
      simp only [hq, hs0, ne_eq, not_true_eq_false, or_self, if_true, if_false, hu']
      exact hh
    · rw [if_neg hq] at hu'
      simp only [hq, ne_eq, not_false_eq_true, true_or, if_true, if_false, Finset.coe_insert, Finset.coe_erase, hu']
      exact (hh.move hfresh hp hfit (by omega)).1

/-- **A step is answered rightly** in these cases, and then keeps the heap. -/
theorem step_iff (hlo : FirstBreak lo) (hs : HeapInv lo s) (h : s.step c = some t) :
    (Answers s c t ↔ AnswersWhen s c) ∧ (AnswersWhen s c → HeapInv lo t) := by
  cases c with
  | alignedAlloc g align size => exact alloc_iff hlo hs h
  | calloc g nmemb size => exact calloc_iff hlo hs h
  | realloc g p size => exact realloc_iff hlo hs h
  | free p =>
    refine ⟨Iff.rfl, fun _ => ?_⟩
    unfold step at h
    simp only at h
    split_ifs at h with hp
    obtain rfl := Option.some.inj h
    show HasIn lo (s.u.free p) _
    rw [Finset.coe_erase]
    exact (hs.free hp).1
  | write p i v =>
    refine ⟨Iff.rfl, fun _ => ?_⟩
    unfold step at h
    simp only at h
    split_ifs at h with hp
    obtain rfl := Option.some.inj h
    exact (hs.write hp.1 [v] hp.2 rfl).1

/-- **`malloc` and `calloc` do not under-allocate** in exactly the runs whose requests all fit in 32 bits
when rounded up, end below `2^32` where they need a new block, and are not the first one if they are denied. -/
theorem user_sizes (h : Fresh lo s) (calls : List ClientCall) :
    AllSteps HeapClient.step Answers s calls ↔ AllSteps HeapClient.step (fun s c _ => s.AnswersWhen c) s calls :=
  allSteps_iff (I := HeapInv lo) (C := AnswersWhen)
    (fun _ _ _ hs ht hc => ⟨(step_iff h.first hs ht).2 hc, (step_iff h.first hs ht).1.2 hc⟩)
    (fun _ _ _ hs ht hc ha => hc ((step_iff h.first hs ht).1.1 ha)) h.inv calls

/-- A process whose program is one page. -/
def newClient : HeapClient := ⟨⟨⟨fun _ => 0, 0, 0, 0⟩, 0x2000⟩, ∅, 0⟩

theorem newClient_fresh : Fresh 0x2000 newClient := ⟨by unfold FirstBreak headerSize; omega, rfl, rfl, rfl⟩

/-- `user_sizes` for a process that clears three times five bytes and makes them 20. -/
theorem user_sizes_newClient : AllSteps HeapClient.step Answers newClient [.calloc yes 3 5, .realloc yes 0x2014 20] ↔
    AllSteps HeapClient.step (fun s c _ => s.AnswersWhen c) newClient [.calloc yes 3 5, .realloc yes 0x2014 20] :=
  user_sizes newClient_fresh _

/-- **`calloc(65536, 65536)`** gets a block without payload. -/
theorem calloc_wraps :
    Fresh 0x2000 newClient ∧ ¬ AllSteps HeapClient.step Answers newClient [.calloc yes 65536 65536] := by
  refine ⟨newClient_fresh, ?_⟩
  intro h
  have hrun : (newClient.step (.calloc yes 65536 65536)).map (fun t => (t.result, t.u.heap.payload t.result)) =
      some (0x2014, 0) := by decide +kernel
  obtain ⟨t, ht, hpair⟩ := Option.map_eq_some_iff.1 hrun
  obtain ⟨hres, hpay⟩ := Prod.mk.inj hpair
  obtain ⟨⟨⟨h0, -⟩ | ⟨-, hn, -⟩, -⟩, -⟩ := h t ht
  · omega
  · omega

end HeapClient

end Saynaa
