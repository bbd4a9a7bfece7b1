import Saynaa.Proof.Pmm

/-!
# First fit

* `RunAt p n f`: the blocks `[f, f + n)` are free and are scanned.
* `SearchOK`: what the run search knows between two bits; `scanBit_search` is its step.
* `first_fit`: the search finds the lowest run, or none exists. The search for one block is the case of one.
-/

namespace Saynaa

open Lib Pmm

variable {p : Pmm} {b n f i j : ℕ} {s : Scan}

/-- The number of blocks in the scanned words. -/
def scanned (p : Pmm) : ℕ := 32 * (p.maxBlocks / 32)

/-- **A run of `n` free blocks** at `f`, in the scanned words. -/
def RunAt (p : Pmm) (n f : ℕ) : Prop := f + n ≤ scanned p ∧ ∀ c, f ≤ c → c < f + n → ¬ p.Used c

/-- **The search in front of block `b`**: beside `ScanOK`, the count is that of all free blocks at the
end, and no run of `n` blocks is complete. -/
structure SearchOK (p : Pmm) (n b : ℕ) (s : Scan) : Prop extends ScanOK p b s where
  longest : ∀ f ≤ b, (∀ c, f ≤ c → c < b → ¬ p.Used c) → b ≤ f + s.count
  short : s.count < n
  none : ∀ f, f + n ≤ b → ∃ c, f ≤ c ∧ c < f + n ∧ p.Used c

/-- A search that starts again behind the taken block `b`. -/
theorem SearchOK.reset (hb : p.Used b) (hn : 0 < n) (hnone : ∀ f, f + n ≤ b + 1 → ∃ c, f ≤ c ∧ c < f + n ∧ p.Used c) :
    SearchOK p n (b + 1) ⟨0, 0⟩ := by
  refine ⟨ScanOK.reset _, ?_, hn, hnone⟩
  intro f hf hfree
  by_contra hlt
  exact hfree b (by omega) (by omega) hb

/-- What a search that ends at block `b` returns: the lowest run. -/
def Found (p : Pmm) (n b r : ℕ) : Prop :=
  r ≠ 0 ∧ r + n = b ∧ (∀ c, r ≤ c → c < b → ¬ p.Used c) ∧ ∀ f, f + n < b → ∃ c, f ≤ c ∧ c < f + n ∧ p.Used c

/-- **One bit.** -/
theorem scanBit_search (h0 : p.Used 0) (hj : j < 32) (hs : SearchOK p n (i * 32 + j) s) :
    (p.scanBit n i j s).Sat (fun r => ∃ b ≤ i * 32 + 32, Found p n b r) (SearchOK p n (i * 32 + (j + 1))) := by
  unfold scanBit
  have hn : 0 < n := Nat.zero_lt_of_lt hs.short
  by_cases hb : p.bitmap i &&& nthBit j = 0
  · -- the block is free
    have hfree := (nthBit_test hj).1 hb
    have hok := hs.toScanOK.count h0 hfree
    rw [if_pos hb]
    simp only
    set first := if s.first = 0 then i * 32 + j else s.first
    obtain ⟨hne, hrun⟩ := hok.run (Nat.succ_pos _)
    simp only at hne hrun
    split_ifs with hcount
    · refine ⟨i * 32 + j + 1, by omega, hne, by omega, ?_, fun f hf => hs.none f (by omega)⟩
      intro c h1 h2
      exact hok.free c h1 h2 (Nat.succ_pos _)
    · have hshort := hs.short
      have hlongest : ∀ f ≤ i * 32 + j + 1, (∀ c, f ≤ c → c < i * 32 + j + 1 → ¬ p.Used c) →
        i * 32 + j + 1 ≤ f + (s.count + 1) := by
        intro f hf hall
        rcases Nat.lt_or_ge f (i * 32 + j + 1) with hlt | hge
        · have := hs.longest f (by omega) fun c h1 h2 => hall c h1 (by omega)
          omega
        · omega
      refine ⟨hok, hlongest, by simp only; omega, ?_⟩
      intro f hf
      by_contra hnone
      push Not at hnone
      -- a run that ends here would have been counted
      rcases Nat.lt_or_ge (f + n) (i * 32 + j + 1) with hlt | hge
      · obtain ⟨c, h1, h2, h3⟩ := hs.none f (by omega)
        exact hnone c h1 h2 h3
      · have := hlongest f (by omega) fun c h1 h2 => hnone c h1 (by omega)
        omega
  · have hused : p.Used (i * 32 + j) := not_not.1 fun hh => hb ((nthBit_test hj).2 hh)
    rw [if_neg hb]
    simp only
    rw [if_neg (by omega)]
    refine SearchOK.reset hused hn ?_
    intro f (hf : f + n ≤ i * 32 + j + 1)
    rcases Nat.lt_or_ge (f + n) (i * 32 + j + 1) with hlt | hge
    · exact hs.none f (by omega)
    · exact ⟨i * 32 + j, by omega, by omega, hused⟩

/-- A full word. -/
theorem full_used (hw : p.bitmap i = 0xFFFFFFFF#32) (hj : j < 32) : p.Used (i * 32 + j) := by
  by_contra hfree
  have h0 := (nthBit_test hj).2 hfree
  rw [hw] at h0
  have hall : ∀ j < 32, 0xFFFFFFFF#32 &&& nthBit j ≠ 0 := by decide
  exact hall j hj h0

/-- **One word.** -/
theorem scanWord_search (h0 : p.Used 0) (hs : SearchOK p n (i * 32) s) :
    (if p.bitmap i ≠ 0xFFFFFFFF#32 then forUp (p.scanBit n i) 0 32 s else .next ⟨0, 0⟩ : Flow ℕ Scan).Sat
      (fun r => ∃ b ≤ i * 32 + 32, Found p n b r) (SearchOK p n ((i + 1) * 32)) := by
  split_ifs with hw
  · have hloop := forUp_rule (I := fun j s => SearchOK p n (i * 32 + j) s) 32 0 s
      (fun j s _ hj hs => scanBit_search h0 (by omega) hs) hs
    rw [show (i + 1) * 32 = i * 32 + (0 + 32) by omega]
    exact hloop
  · have hfull : ∀ j < 32, p.Used (i * 32 + j) := fun j hj => full_used (not_not.1 hw) hj
    have hn : 0 < n := Nat.zero_lt_of_lt hs.short
    rw [show (i + 1) * 32 = i * 32 + 31 + 1 by omega]
    refine SearchOK.reset (hfull 31 (by omega)) hn ?_
    intro f hf
    rcases Nat.lt_or_ge (i * 32) (f + n) with hin | hbefore
    · -- the last block of the run is in this word
      have hlast := hfull (f + n - 1 - i * 32) (by omega)
      rw [show i * 32 + (f + n - 1 - i * 32) = f + n - 1 by omega] at hlast
      exact ⟨f + n - 1, by omega, by omega, hlast⟩
    · exact hs.none f hbefore

/-- **The result of a search** for `n` blocks: the lowest run, or 0. -/
structure FirstFit (p : Pmm) (n r : ℕ) : Prop where
  least : r ≠ 0 → IsLeast {f | RunAt p n f} r
  none : r = 0 → ∀ f, ¬ RunAt p n f

theorem FirstFit.unique {r r' : ℕ} (h : FirstFit p n r) (h' : FirstFit p n r') : r = r' := by
  by_cases hr : r = 0
  · by_contra hne
    exact h.none hr r' (h'.least fun h0 => hne (by rw [hr, h0])).1
  · by_cases hr' : r' = 0
    · exact absurd (h.least hr).1 (h'.none hr' r)
    · exact (h.least hr).unique (h'.least hr')

theorem mmapFindFreeFrame_fit (h0 : p.Used 0) (hn : 0 < n) : FirstFit p n (p.mmapFindFreeFrame n) := by
  have hstart : SearchOK p n (0 * 32) ⟨0, 0⟩ := by
    refine ⟨ScanOK.reset _, fun f _ _ => by omega, hn, fun f hf => ?_⟩
    omega
  have hloop := forUp_rule (Q := fun r => ∃ b ≤ scanned p, Found p n b r) (I := fun i s => SearchOK p n (i * 32) s)
    (f := fun i s => if p.bitmap i ≠ 0xFFFFFFFF#32 then forUp (p.scanBit n i) 0 32 s else .next ⟨0, 0⟩)
    (p.maxBlocks / 32) 0 ⟨0, 0⟩ (by
      intro i s _ hi hs
      refine (scanWord_search h0 hs).mono ?_ fun s hs => hs
      rintro r ⟨b, hb, hr⟩
      exact ⟨b, by unfold scanned; omega, hr⟩) hstart
  unfold mmapFindFreeFrame
  generalize forUp _ 0 (p.maxBlocks / 32) _ = x at hloop ⊢
  cases x with
  | ret r =>
    obtain ⟨b, hb, hr0, hend, hfree, hlow⟩ := hloop
    simp only
    refine ⟨fun _ => ⟨⟨by omega, fun c h1 h2 => hfree c h1 (by omega)⟩, ?_⟩, fun h => absurd h hr0⟩
    rintro f ⟨-, hf⟩
    by_contra hlt
    obtain ⟨c, h1, h2, h3⟩ := hlow f (by omega)
    exact hf c h1 h2 h3
  | next s =>
    simp only
    refine ⟨fun h => absurd rfl h, fun _ f hf => ?_⟩
    have hnone := hloop.none f (by
      have := hf.1
      unfold scanned at this
      omega)
    obtain ⟨c, h1, h2, h3⟩ := hnone
    exact hf.2 c h1 h2 h3

/-- **The search for one block.** -/
theorem mmapFindFree_fit (h0 : p.Used 0) : FirstFit p 1 p.mmapFindFree := by
  have hloop := forUp_rule (σ := Unit) (Q := fun r => r < scanned p ∧ ¬ p.Used r ∧ ∀ c < r, p.Used c)
    (I := fun i _ => ∀ c < i * 32, p.Used c)
    (f := fun i _ => if p.bitmap i ≠ 0xFFFFFFFF#32 then
        forUp (fun j _ => if p.bitmap i &&& nthBit j = 0 then .ret (i * 32 + j) else .next ()) 0 32 ()
      else .next ())
    (p.maxBlocks / 32) 0 () (by
      intro i s _ hi hall
      split_ifs with hw
      · -- a word that is not full has a free block, and the first one is found
        have hword := forUp_rule (σ := Unit) (Q := fun r => r < scanned p ∧ ¬ p.Used r ∧ ∀ c < r, p.Used c)
          (I := fun j _ => ∀ c < i * 32 + j, p.Used c)
          (f := fun j _ => if p.bitmap i &&& nthBit j = 0 then .ret (i * 32 + j) else .next ()) 32 0 () (by
            intro j s _ hj hall
            split_ifs with hb
            · exact ⟨by unfold scanned; omega, (nthBit_test (by omega)).1 hb, hall⟩
            · intro c hc
              rcases Nat.lt_or_ge c (i * 32 + j) with hlt | hge
              · exact hall c hlt
              · rw [show c = i * 32 + j by omega]
                exact not_not.1 fun hh => hb ((nthBit_test (by omega)).2 hh)) hall
        rw [show (i + 1) * 32 = i * 32 + (0 + 32) by omega]
        exact hword
      · -- a full word has none
        intro c hc
        rcases Nat.lt_or_ge c (i * 32) with hlt | hge
        · exact hall c hlt
        · have hused := full_used (not_not.1 hw) (show c - i * 32 < 32 by omega)
          rwa [show i * 32 + (c - i * 32) = c by omega] at hused) (fun c hc => by omega)
  unfold mmapFindFree
  generalize forUp _ 0 (p.maxBlocks / 32) () = x at hloop ⊢
  cases x with
  -- the search stopped at a block
  | ret r =>
    obtain ⟨hlt, hfree, hlow⟩ := hloop
    simp only
    refine ⟨fun _ => ⟨⟨hlt, fun c h1 h2 => ?_⟩, ?_⟩, ?_⟩
    · rwa [show c = r by omega]
    · rintro f ⟨-, hf⟩
      by_contra hlt
      exact hf f le_rfl (by omega) (hlow f (by omega))
    · rintro rfl
      exact absurd h0 hfree
  -- all words are full
  | next s =>
    simp only
    refine ⟨fun h => absurd rfl h, fun _ f hf => ?_⟩
    have hend : f + 1 ≤ 32 * (p.maxBlocks / 32) := hf.1
    exact hf.2 f le_rfl (by omega) (hloop f (by omega))

/-- **First fit**: `mmap_find_free_frame` returns the lowest run of `n` free blocks in the scanned words, and 0
if there is none; `mmap_find_free` is the search for one block. -/
theorem first_fit (p : Pmm) (n : ℕ) (h0 : p.Used 0) (hn : 1 ≤ n) :
    (p.mmapFindFreeFrame n ≠ 0 → IsLeast {f | RunAt p n f} (p.mmapFindFreeFrame n)) ∧
      (p.mmapFindFreeFrame n = 0 ↔ ∀ f, ¬ RunAt p n f) ∧ p.mmapFindFree = p.mmapFindFreeFrame 1 := by
  have hfit := mmapFindFreeFrame_fit h0 hn
  refine ⟨hfit.least, ⟨hfit.none, fun hno => ?_⟩, (mmapFindFree_fit h0).unique (mmapFindFreeFrame_fit h0 Nat.one_pos)⟩
  by_contra hne
  exact hno _ (hfit.least hne).1

/-- Three blocks behind the one that is taken. -/
theorem first_fit_pmm64 :
    (pmm64.mmapFindFreeFrame 3 ≠ 0 → IsLeast {f | RunAt pmm64 3 f} (pmm64.mmapFindFreeFrame 3)) ∧
    (pmm64.mmapFindFreeFrame 3 = 0 ↔ ∀ f, ¬ RunAt pmm64 3 f) ∧ pmm64.mmapFindFree = pmm64.mmapFindFreeFrame 1 :=
  first_fit pmm64 3 (by decide) (by decide)

end Saynaa
