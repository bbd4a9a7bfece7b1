import Saynaa.Lib.Loop
import Saynaa.Lib.Words
import Saynaa.Libc.Args

/-!
# `split_args` cuts a line into its words

* `skipWs_ok`: a scan stops behind what it skips.
* `SplitFrom`: what the loop does to the rest of a line.
* `splitLoop_spec`: the loop cuts off the words, as many as there is room for.
* `split_args_tokens`: the function.
-/

namespace Saynaa

open Lib

variable {size fuel argc p n : ℕ} {max_args : ℤ} {line line' : ℕ → UInt8} {argv argv' : ℕ → Option ℕ}
  {s s' : ArgState} {l r w tail : List UInt8} {ws : List (List UInt8)}

theorem lineAt_ok (hp : p < size) : lineAt size line p = some (line p) := if_pos hp

/-- **A scan stops** at the end of the line or at the first other character. -/
theorem skipWs_ok {b : Bool} (h : CStr line p (w ++ r)) (hw : ∀ c ∈ w, isWs c = b) (hr : ∀ c ∈ r.head?, isWs c = !b)
    (hroom : p + (w ++ r).length < size) (hf : w.length < fuel) :
    skipWs b size line fuel p = some (p + w.length) := by
  induction w generalizing p fuel with
  | nil =>
    obtain ⟨k, rfl⟩ : ∃ k, fuel = k + 1 := ⟨fuel - 1, by omega⟩
    have hstop : ¬ (line p ≠ 0 ∧ isWs (line p) = b) := by
      rintro ⟨h0, hb⟩
      cases r with
      | nil => exact h0 h
      | cons c r =>
        rw [h.1, hr c rfl] at hb
        cases b <;> cases hb
    unfold skipWs
    rw [lineAt_ok (by omega)]
    exact if_neg hstop
  | cons c w ih =>
    rw [List.length_cons] at hf
    rw [List.cons_append] at h hroom
    rw [List.length_cons] at hroom
    obtain ⟨k, rfl⟩ : ∃ k, fuel = k + 1 := ⟨fuel - 1, by omega⟩
    have hrec := ih h.tail (fun d hd => hw d (List.mem_cons_of_mem c hd)) (by omega) (by omega : w.length < k)
    have hgo : line p ≠ 0 ∧ isWs (line p) = b := ⟨h.1 ▸ h.2.1, h.1 ▸ hw c List.mem_cons_self⟩
    unfold skipWs
    rw [lineAt_ok (by omega)]
    show (if line p ≠ 0 ∧ isWs (line p) = b then _ else some p) = _
    rw [if_pos hgo, hrec, List.length_cons, add_assoc, add_comm 1]

/-- **What the loop does** to the `n` characters from `s.p` on: it stores pointers to the words `ws`. -/
structure SplitFrom (s s' : ArgState) (n : ℕ) (ws : List (List UInt8)) : Prop where
  argc : s'.argc = s.argc + ws.length
  args : ∀ i w, ws[i]? = some w →
    ∃ q, s'.argv (s.argc + i) = some q ∧ CStr s'.line q w ∧ s.p ≤ q ∧ q + w.length ≤ s.p + n
  argv : ∀ i, i < s.argc ∨ s.argc + ws.length ≤ i → s'.argv i = s.argv i
  line : ∀ i, i < s.p ∨ s.p + n ≤ i → s'.line i = s.line i

/-- No word. -/
theorem SplitFrom.nil (p n : ℕ) : SplitFrom s { s with p := p } n [] :=
  ⟨rfl, fun _ _ h => by simp at h, fun _ _ => rfl, fun _ _ => rfl⟩

/-- A word at the end of the line. -/
theorem SplitFrom.single {q : ℕ} (h : CStr s.line q w) (hq : s.p ≤ q) (hn : q + w.length ≤ s.p + n) (p : ℕ) :
    SplitFrom s { s with argv := Function.update s.argv s.argc (some q), argc := s.argc + 1, p := p } n [w] := by
  refine ⟨rfl, fun i x hx => ?_, fun i hi => ?_, fun _ _ => rfl⟩
  · obtain ⟨rfl, rfl⟩ : i = 0 ∧ x = w := by
      cases i with
      | zero => exact ⟨rfl, (Option.some.inj hx).symm⟩
      | succ i => simp at hx
    exact ⟨q, Function.update_self .., h, hq, hn⟩
  · rw [List.length_singleton] at hi
    exact Function.update_of_ne (by omega) ..

/-- **A word, a zero behind it**, and the words of the rest. -/
theorem SplitFrom.cons {q m : ℕ} (h : CStr s.line q (w ++ r)) (hq : s.p ≤ q) (hn : q + w.length + 1 + m = s.p + n)
    (hs : SplitFrom ⟨Function.update s.line (q + w.length) 0, Function.update s.argv s.argc (some q), s.argc + 1,
      q + w.length + 1⟩ s' m ws) : SplitFrom s s' n (w :: ws) := by
  have hargc := hs.argc
  have hargs := hs.args
  have hargv := hs.argv
  have hline := hs.line
  simp only at hargc hargs hargv hline
  refine ⟨?_, fun i x hx => ?_, fun i hi => ?_, fun i hi => ?_⟩
  · rw [hargc, List.length_cons]
    omega
  · cases i with
    -- the token that was found first
    | zero =>
      obtain rfl : w = x := Option.some.inj hx
      refine ⟨q, ?_, h.take (fun i _ hi => ?_) ?_, hq, by omega⟩
      · rw [hargv _ (.inl (by omega))]
        exact Function.update_self ..
      · rw [hline i (.inl (by omega)), Function.update_of_ne (by omega)]
      · rw [hline _ (.inl (by omega)), Function.update_self]
    -- one of the others
    | succ i =>
      obtain ⟨a, ha, hc, h1, h2⟩ := hargs i x hx
      refine ⟨a, ?_, hc, by omega, by omega⟩
      rw [← ha]
      congr 1
      omega
  · rw [List.length_cons] at hi
    rw [hargv i (by omega), Function.update_of_ne (by omega)]
  · rw [hline i (by omega), Function.update_of_ne (by omega)]

/-- **The loop cuts off the words** of the rest of the line, as many as there is room for. -/
theorem splitLoop_spec (max_args : ℤ) (s : ArgState) (h : CStr s.line s.p l) (hroom : s.p + l.length < size)
    (hf : l.length + 1 < fuel) : ∃ s', splitLoop size max_args fuel s = some s' ∧
      SplitFrom s s' l.length ((wordsP isWs l).take (max_args - s.argc).toNat) := by
  induction fuel generalizing s l with
  | zero => omega
  | succ fuel ih =>
    unfold splitLoop
    rw [lineAt_ok (by omega)]
    show ∃ s', (if s.line s.p ≠ 0 ∧ (s.argc : ℤ) < max_args then _ else some s) = some s' ∧ _
    by_cases hlim : (s.argc : ℤ) < max_args
    swap
    · -- the limit
      have h0 : (max_args - s.argc).toNat = 0 := by omega
      rw [if_neg fun hc => hlim hc.2, h0, List.take_zero]
      exact ⟨s, rfl, .nil s.p _⟩
    by_cases hnil : l = []
    · -- the end of the line
      subst hnil
      rw [if_neg fun hc => hc.1 h, wordsP_nil, List.take_nil]
      exact ⟨s, rfl, .nil s.p _⟩
    have h0 : s.line s.p ≠ 0 := by
      obtain ⟨c, r, rfl⟩ := List.exists_cons_of_ne_nil hnil
      exact h.1 ▸ h.2.1
    obtain ⟨k, hk⟩ : ∃ k, (max_args - s.argc).toNat = k + 1 := ⟨(max_args - s.argc).toNat - 1, by omega⟩
    -- the blanks in front of the word
    obtain ⟨lead, r, rfl, hlead, hr⟩ := exists_span isWs l
    have hlen : (lead ++ r).length = lead.length + r.length := List.length_append
    rw [if_pos ⟨h0, hlim⟩, skipWs_ok h hlead hr (by omega) (by omega), wordsP_append_left hlead, hk]
    have hr' := h.drop
    show ∃ s', (do
      let c ← lineAt size s.line (s.p + lead.length)
      if c = 0 then some { s with p := s.p + lead.length } else _) = some s' ∧ _
    rw [lineAt_ok (by omega)]
    show ∃ s', (if s.line (s.p + lead.length) = 0 then some _ else _) = some s' ∧ _
    by_cases hr0 : r = []
    · subst hr0
      rw [if_pos (CStr_nil.1 hr'), wordsP_nil, List.take_nil]
      exact ⟨_, rfl, .nil _ _⟩
    have h1 : s.line (s.p + lead.length) ≠ 0 := by
      obtain ⟨c, r, rfl⟩ := List.exists_cons_of_ne_nil hr0
      exact hr'.1 ▸ hr'.2.1
    -- the word
    obtain ⟨w, tail, rfl, hw, htail⟩ := exists_span (fun c => !isWs c) r
    have hword : ∀ c ∈ w, isWs c = false := fun c hc => by simpa using hw c hc
    have hblank : ∀ c ∈ tail.head?, isWs c = !false := fun c hc => by simpa using htail c hc
    have hne : w ≠ [] := by
      rintro rfl
      obtain ⟨c, t, rfl⟩ := List.exists_cons_of_ne_nil hr0
      have h2 := hr c rfl
      rw [hblank c rfl] at h2
      cases h2
    have hlen' : (w ++ tail).length = w.length + tail.length := List.length_append
    have hpos := List.length_pos_iff.2 hne
    rw [if_neg h1, skipWs_ok hr' hword hblank (by omega) (by omega)]
    show ∃ s', (do
      let c ← lineAt size s.line (s.p + lead.length + w.length)
      if c = 0 then some _ else _) = some s' ∧ _
    rw [lineAt_ok (by omega)]
    show ∃ s', (if s.line (s.p + lead.length + w.length) = 0 then some _ else _) = some s' ∧ _
    have hend := hr'.drop
    cases tail with
    | nil =>
      rw [if_pos (CStr_nil.1 hend), List.append_nil, wordsP_single hword hne, List.take_succ_cons, List.take_nil]
      rw [List.append_nil] at hr'
      exact ⟨_, rfl, .single hr' (by omega) (by rw [List.length_append]; omega) _⟩
    | cons b t =>
      rw [List.length_cons] at hlen'
      have hroom' : s.p + lead.length + w.length + 1 + t.length < size := by omega
      have hrest : CStr (Function.update s.line (s.p + lead.length + w.length) 0)
        (s.p + lead.length + w.length + 1) t :=
        hend.tail.congr fun i hi _ => Function.update_of_ne (by omega) ..
      rw [if_neg (hend.1 ▸ hend.2.1), wordsP_append hword hne (by simpa using hblank b rfl), List.take_succ_cons]
      obtain ⟨s', hs', hsplit⟩ :=
        ih (s := ⟨_, Function.update s.argv s.argc (some (s.p + lead.length)), s.argc + 1, _⟩)
        hrest hroom' (by omega)
      refine ⟨s', hs', .cons hr' (by omega) (m := t.length) (by omega) ?_⟩
      rwa [show (max_args - ((s.argc + 1 : ℕ) : ℤ)).toNat = k by omega] at hsplit

/-! ### More fuel -/

theorem skipWs_succ {b : Bool} {k : ℕ} (h : skipWs b size line k p = some n) :
    skipWs b size line (k + 1) p = some n := by
  induction k generalizing p with
  | zero => cases h
  | succ k ih =>
    unfold skipWs at h ⊢
    obtain ⟨c, hc, h1⟩ := Option.bind_eq_some_iff.1 h
    rw [hc]
    show (if c ≠ 0 ∧ isWs c = b then _ else some p) = _
    by_cases hgo : c ≠ 0 ∧ isWs c = b
    · rw [if_pos hgo] at h1 ⊢
      exact ih h1
    · rw [if_neg hgo] at h1 ⊢
      exact h1

theorem splitLoop_succ {k : ℕ} (h : splitLoop size max_args k s = some s') :
    splitLoop size max_args (k + 1) s = some s' := by
  induction k generalizing s with
  | zero => cases h
  | succ k ih =>
    -- each of the three inner loops gives the same with more fuel
    unfold splitLoop at h ⊢
    obtain ⟨c, hc, h1⟩ := Option.bind_eq_some_iff.1 h
    rw [hc]
    show (if c ≠ 0 ∧ (s.argc : ℤ) < max_args then _ else some s) = _
    by_cases hgo : c ≠ 0 ∧ (s.argc : ℤ) < max_args
    swap
    · rw [if_neg hgo] at h1 ⊢
      exact h1
    rw [if_pos hgo] at h1 ⊢
    obtain ⟨p, hp, h2⟩ := Option.bind_eq_some_iff.1 h1
    obtain ⟨d, hd, h3⟩ := Option.bind_eq_some_iff.1 h2
    rw [skipWs_succ hp]
    show (lineAt size s.line p >>= fun d => if d = 0 then _ else _) = _
    rw [hd]
    show (if d = 0 then some _ else _) = _
    by_cases hd0 : d = 0
    · rw [if_pos hd0] at h3 ⊢
      exact h3
    rw [if_neg hd0] at h3 ⊢
    obtain ⟨q, hq, h4⟩ := Option.bind_eq_some_iff.1 h3
    obtain ⟨e, he, h5⟩ := Option.bind_eq_some_iff.1 h4
    rw [skipWs_succ hq]
    show (lineAt size s.line q >>= fun e => if e = 0 then _ else _) = _
    rw [he]
    show (if e = 0 then some _ else _) = _
    by_cases he0 : e = 0
    · rw [if_pos he0] at h5 ⊢
      exact h5
    · rw [if_neg he0] at h5 ⊢
      exact ih h5

/-- **`split_args` stores the words of the line**, at most `max_args`, and a `NULL` behind them. Each of
them is a string in the line, whose terminator is the last byte that is looked at. -/
theorem split_args_tokens (h : CStr line 0 l) (hsize : l.length < size) (hmax : 1 ≤ max_args) (argv : ℕ → Option ℕ) :
    ∃ argc line' argv', Returns (splitArgs · size (some line) (some argv) max_args) (argc, some line', some argv') ∧
      (argc : ℤ) = min max_args (wordsP isWs l).length ∧
      (∀ i, (hi : i < (wordsP isWs l).length) → i < argc →
        ∃ p, argv' i = some p ∧ CStr line' p (wordsP isWs l)[i] ∧ p + (wordsP isWs l)[i].length ≤ l.length) ∧
      argv' argc = none ∧ (∀ i, argc < i → argv' i = argv i) ∧ ∀ i, l.length ≤ i → line' i = line i := by
  obtain ⟨s', hs', hsplit⟩ := splitLoop_spec max_args ⟨line, argv, 0, 0⟩ h
    (by simpa using hsize) (Nat.lt_succ_self (l.length + 1))
  have hall : Returns (splitLoop size max_args · ⟨line, argv, 0, 0⟩) s' :=
    returns_of_succ (fun _ _ => splitLoop_succ) hs'
  obtain ⟨N, hN⟩ := hall
  have hargc := hsplit.argc
  have hargs := hsplit.args
  have hargv := hsplit.argv
  have hline := hsplit.line
  simp only [Nat.cast_zero, sub_zero, zero_add, List.length_take] at hargc hargs hargv hline
  refine ⟨s'.argc, s'.line, Function.update s'.argv s'.argc none, ⟨N, fun fuel hf => ?_⟩,
    by omega, fun i hi hlt => ?_, Function.update_self .., fun i hi => ?_, fun i hi => hline i (.inr hi)⟩
  · show splitArgs fuel size (some line) (some argv) max_args = _
    unfold splitArgs
    simp only
    rw [if_neg (by omega), show splitLoop size max_args fuel ⟨line, argv, 0, 0⟩ = some s' from hN fuel hf]
    rfl
  · have hget : ((wordsP isWs l).take max_args.toNat)[i]? = some (wordsP isWs l)[i] := by
      rw [List.getElem?_take_of_lt (by omega), List.getElem?_eq_getElem hi]
    obtain ⟨p, hp, hc, -, hle⟩ := hargs i _ hget
    exact ⟨p, by rw [Function.update_of_ne (by omega), hp], hc, hle⟩
  · rw [Function.update_of_ne (by omega), hargv i (by omega)]

/-- `" ls  -l"`. -/
def shortLine : List UInt8 := [32, 108, 115, 32, 32, 45, 108]

/-- The line `" ls  -l"` has two words. -/
theorem split_args_short : ∃ line' argv', Returns (splitArgs · 8 (some (literal shortLine)) (some fun _ => none) 3)
    (2, some line', some argv') ∧ argv' 2 = none := by
  obtain ⟨argc, line', argv', hrun, hargc, -, hnull, -⟩ := split_args_tokens
    (literal_cstr (by simp [shortLine] : ∀ c ∈ shortLine, c ≠ 0)) (by decide : shortLine.length < 8)
    (by decide : (1 : ℤ) ≤ 3) fun _ => none
  have hwords : (wordsP isWs shortLine).length = 2 := by decide +kernel
  obtain rfl : argc = 2 := by
    rw [hwords] at hargc
    omega
  exact ⟨line', argv', hrun, hnull⟩

end Saynaa
