import Mathlib.Data.List.TakeWhile
import Saynaa.Lib.Loop
import Saynaa.Libc.Pathutil

/-!
# `normalize_path` and the stack of components

* `pathStep`, `resolve`, `render`: a path's components on a stack of bounded or unbounded depth, and the
  path of a stack.
* `terminate_spec`: a pass of the loop cuts one component off.
* `normLoop_resolve`: the loop computes the stack of 64 entries.
* `joinLoop_render`: the result is its path.
* `normalize_path_spec`: the function; `normalize_path_long`: 65 components.
-/

namespace Saynaa

open Lib

/-- What a component does to the stack; `cap` is its depth, `none` for no bound. -/
def pathStep (cap : Option ℕ) (st : List Name) (c : Name) : List Name :=
  if c = [] ∨ c = [period] then st
  else if c = [period, period] then st.dropLast
  else if cap.all (st.length < ·) then st ++ [c]
  else st

/-- The components of a path, from left to right. -/
def resolveFrom (cap : Option ℕ) (st : List Name) (path : List UInt8) : List Name :=
  (path.splitOn slash).foldl (pathStep cap) st

def resolve (cap : Option ℕ) (path : List UInt8) : List Name := resolveFrom cap [] path

/-- The path of a stack. -/
noncomputable def render (st : List Name) : List UInt8 := slash :: [slash].intercalate st

variable {temp path q : ℕ → UInt8} {s : NormState} {cap : Option ℕ} {st : List Name} {name rest tail l r : List UInt8}
  {i fuel : ℕ} {segs : List ℕ}

/-! ### Components -/

theorem slash_ne : ∀ c ∈ [slash], c ≠ 0 := by simp [slash]

theorem period_ne : ∀ c ∈ [period], c ≠ 0 := by simp [period]

theorem periods_ne : ∀ c ∈ [period, period], c ≠ 0 := by simp [period]

@[simp] theorem pathStep_nil (st : List Name) : pathStep cap st [] = st := if_pos (.inl rfl)

theorem pathStep_here (st : List Name) : pathStep cap st [period] = st := if_pos (.inr rfl)

theorem pathStep_up (st : List Name) : pathStep cap st [period, period] = st.dropLast := by
  unfold pathStep
  rw [if_neg (by decide), if_pos rfl]

theorem pathStep_name (h0 : name ≠ []) (h1 : name ≠ [period]) (h2 : name ≠ [period, period]) (st : List Name) :
    pathStep cap st name = if cap.all (st.length < ·) then st ++ [name] else st := by
  unfold pathStep
  rw [if_neg (not_or.2 ⟨h0, h1⟩), if_neg h2]

@[simp] theorem resolveFrom_nil (st : List Name) : resolveFrom cap st [] = st := by
  show pathStep cap st [] = st
  exact pathStep_nil st

theorem resolveFrom_slashes (hl : ∀ c ∈ l, c = slash) (st : List Name) (r : List UInt8) :
    resolveFrom cap st (l ++ r) = resolveFrom cap st r := by
  induction l with
  | nil => rfl
  | cons c l ih =>
    obtain rfl := hl c List.mem_cons_self
    have h1 : (slash :: (l ++ r)).splitOn slash = [] :: (l ++ r).splitOn slash :=
      List.splitOn_append_cons_self_of_not_mem (List.not_mem_nil (a := slash)) (l ++ r)
    rw [← ih fun c hc => hl c (List.mem_cons_of_mem slash hc)]
    unfold resolveFrom
    rw [List.cons_append, h1, List.foldl_cons, pathStep_nil]

theorem resolveFrom_single (hn : slash ∉ name) (st : List Name) : resolveFrom cap st name = pathStep cap st name := by
  unfold resolveFrom
  rw [List.splitOn_eq_singleton hn]
  rfl

theorem resolveFrom_cons (hn : slash ∉ name) (st : List Name) (tail : List UInt8) :
    resolveFrom cap st (name ++ slash :: tail) = resolveFrom cap (pathStep cap st name) tail := by
  unfold resolveFrom
  rw [List.splitOn_append_cons_self_of_not_mem hn]
  rfl

/-! ### The pointers into the copy -/

theorem tempAt_ok (hi : i < tempSize) : tempAt temp i = some (temp i) := if_pos hi

theorem skipSeparators_ok (h : CStr temp i (l ++ r)) (hl : ∀ c ∈ l, c = slash) (hr : r.head? ≠ some slash)
    (hroom : i + (l ++ r).length < tempSize) (hf : l.length < fuel) :
    skipSeparators temp fuel i = some (i + l.length) := by
  induction l generalizing i fuel with
  | nil =>
    obtain ⟨k, rfl⟩ : ∃ k, fuel = k + 1 := ⟨fuel - 1, by omega⟩
    have hne : temp i ≠ slash := by
      cases r with
      | nil =>
        rw [CStr_nil.1 h]
        decide
      | cons c r =>
        rw [h.1]
        intro hc
        exact hr (by simp [hc])
    unfold skipSeparators
    rw [tempAt_ok (by omega)]
    show (if temp i = slash then _ else some i) = _
    rw [if_neg hne]
    rfl
  | cons c l ih =>
    rw [List.length_cons] at hf
    rw [List.cons_append] at h hroom
    rw [List.length_cons] at hroom
    obtain ⟨k, rfl⟩ : ∃ k, fuel = k + 1 := ⟨fuel - 1, by omega⟩
    obtain rfl := hl c List.mem_cons_self
    have hrec := ih h.tail (fun c hc => hl c (List.mem_cons_of_mem slash hc)) (by omega) (by omega : l.length < k)
    unfold skipSeparators
    rw [tempAt_ok (by omega)]
    show (if temp i = slash then _ else some i) = _
    rw [if_pos h.1, hrec, List.length_cons, add_assoc, add_comm 1]

theorem skipSegment_ok (h : CStr temp i (name ++ r)) (hn : slash ∉ name) (hr : r = [] ∨ r.head? = some slash)
    (hroom : i + (name ++ r).length < tempSize) (hf : name.length < fuel) :
    skipSegment temp fuel i = some (i + name.length) := by
  induction name generalizing i fuel with
  | nil =>
    obtain ⟨k, rfl⟩ : ∃ k, fuel = k + 1 := ⟨fuel - 1, by omega⟩
    -- the segment ends at a slash or at the end of the string
    have hstop : ¬ (temp i ≠ 0 ∧ temp i ≠ slash) := by
      rintro ⟨h0, hs⟩
      cases r with
      | nil => exact h0 h
      | cons c r =>
        rcases hr with hr | hr
        · cases hr
        · exact hs (h.1.trans (Option.some.inj hr))
    unfold skipSegment
    rw [tempAt_ok (by omega)]
    show (if temp i ≠ 0 ∧ temp i ≠ slash then _ else some i) = _
    rw [if_neg hstop]
    rfl
  | cons c name ih =>
    rw [List.length_cons] at hf
    rw [List.cons_append] at h hroom
    rw [List.length_cons] at hroom
    rw [List.mem_cons, not_or] at hn
    obtain ⟨k, rfl⟩ : ∃ k, fuel = k + 1 := ⟨fuel - 1, by omega⟩
    have hrec := ih h.tail hn.2 (by omega) (by omega : name.length < k)
    unfold skipSegment
    rw [tempAt_ok (by omega)]
    show (if temp i ≠ 0 ∧ temp i ≠ slash then _ else some i) = _
    rw [if_pos ⟨h.1 ▸ h.2.1, fun hs => hn.1 (hs.symm.trans h.1)⟩, hrec, List.length_cons, add_assoc, add_comm 1]

/-- The loop stands at `rest`, and the segments are the stack `st`: strings in the part of the copy
that is done with. -/
structure NormInv (s : NormState) (rest : List UInt8) (st : List Name) : Prop where
  here : CStr s.temp s.token rest
  room : s.token + rest.length < tempSize
  segments : List.Forall₂ (fun a c => CStr s.temp a c ∧ (a + c.length < s.token ∨ rest = [])) s.segments st

/-- The component behind the separators, and what is left. -/
theorem exists_component (r : List UInt8) :
    ∃ name tail, r = name ++ tail ∧ slash ∉ name ∧ (tail = [] ∨ tail.head? = some slash) := by
  refine ⟨r.takeWhile (· ≠ slash), r.dropWhile (· ≠ slash), List.takeWhile_append_dropWhile.symm, fun hm => ?_, ?_⟩
  · have h1 := List.mem_takeWhile_imp hm
    simp at h1
  · cases hd : r.dropWhile (· ≠ slash) with
    | nil => exact .inl rfl
    | cons c t =>
      right
      have h1 := List.head_dropWhile_not (fun c => decide (c ≠ slash)) (l := r) (by rw [hd]; simp)
      simp only [hd, List.head_cons, decide_eq_false_iff_not, not_not] at h1
      rw [h1]
      rfl

/-- **One component is cut off** and its end marked; `start` is where it begins. -/
theorem terminate_spec (cap : Option ℕ) {start : ℕ} (h : NormInv s rest st) (hne : rest ≠ [])
    (hstart : s.token ≤ start)
    (hhere : CStr s.temp start (name ++ tail)) (hroom : start + (name ++ tail).length < tempSize) (hn : slash ∉ name)
    (ht : tail = [] ∨ tail.head? = some slash) :
    ∃ s' tail', { s with token := start + name.length }.terminate = some s' ∧ s'.segments = s.segments ∧
      NormInv s' tail' st ∧ CStr s'.temp start name ∧ (start + name.length < s'.token ∨ tail' = []) ∧
      tail'.length ≤ tail.length ∧
      ∀ st', resolveFrom cap st' (name ++ tail) = resolveFrom cap (pathStep cap st' name) tail' := by
  have hend := hhere.drop
  have hold : ∀ a c, (CStr s.temp a c ∧ (a + c.length < s.token ∨ rest = [])) → CStr s.temp a c ∧
    a + c.length < s.token :=
    fun a c hac => ⟨hac.1, hac.2.resolve_right hne⟩
  rw [List.length_append] at hroom
  unfold NormState.terminate
  simp only
  rw [tempAt_ok (by omega)]
  show ∃ s' tail', (if s.temp (start + name.length) ≠ 0 then _ else some _) = some s' ∧ _
  cases tail with
  | nil =>
    -- the last component
    have h0 : s.temp (start + name.length) = 0 := hend
    rw [List.append_nil] at hhere
    rw [if_neg (not_not.2 h0)]
    refine ⟨_, [], rfl, rfl, ⟨hend, by simpa using hroom, h.segments.imp fun a c hac => ⟨hac.1, .inr rfl⟩⟩, hhere,
      .inr rfl, le_rfl, fun st' => ?_⟩
    rw [List.append_nil, resolveFrom_single hn, resolveFrom_nil]
  | cons c tail =>
    -- the separator behind it becomes a zero
    obtain rfl : c = slash := by simpa using ht
    have h0 : s.temp (start + name.length) ≠ 0 := hend.1 ▸ hend.2.1
    rw [List.length_cons] at hroom
    rw [if_pos h0]
    refine ⟨_, tail, rfl, rfl, ⟨?_, ?_, ?_⟩, ?_, .inl (Nat.lt_succ_self _),
      by simp, fun st' => resolveFrom_cons hn st' tail⟩
    · exact hend.tail.congr fun i h1 _ => Function.update_of_ne (by omega) ..
    · show start + name.length + 1 + tail.length < tempSize
      omega
    · refine h.segments.imp fun a c hac => ?_
      obtain ⟨h1, h2⟩ := hold a c hac
      exact ⟨h1.congr fun i _ h4 => Function.update_of_ne (by omega) ..,
        .inl (show _ < start + name.length + 1 by omega)⟩
    · exact hhere.take (fun i _ h2 => Function.update_of_ne (by omega) ..) (Function.update_self ..)

/-- **The loop computes the stack** of 64 entries. -/
theorem normLoop_resolve (h : NormInv s rest st) (hf : rest.length + 1 < fuel) :
    ∃ s', normLoop fuel s = some s' ∧
      List.Forall₂ (CStr s'.temp) s'.segments (resolveFrom (some maxSegments) st rest) := by
  induction fuel generalizing s rest st with
  | zero => omega
  | succ fuel ih =>
    have hroom := h.room
    have hold : List.Forall₂ (CStr s.temp) s.segments st := h.segments.imp fun a c hac => hac.1
    unfold normLoop
    rw [tempAt_ok (by omega)]
    show ∃ s', (if s.temp s.token = 0 then some s else _) = some s' ∧ _
    by_cases hrest : rest = []
    · subst hrest
      have hz : s.temp s.token = 0 := h.here
      rw [if_pos hz]
      exact ⟨s, rfl, by rwa [resolveFrom_nil]⟩
    have h0 : s.temp s.token ≠ 0 := by
      obtain ⟨c, r, rfl⟩ := List.exists_cons_of_ne_nil hrest
      exact h.here.1 ▸ h.here.2.1
    rw [if_neg h0]
    -- the separators in front of the component
    obtain ⟨lead, r, hlr, hlead, hr⟩ : ∃ lead r, rest = lead ++ r ∧ (∀ c ∈ lead, c = slash) ∧
      r.head? ≠ some slash := by
      refine ⟨rest.takeWhile (· = slash), rest.dropWhile (· = slash), List.takeWhile_append_dropWhile.symm,
        fun c hc => ?_, ?_⟩
      · simpa using List.mem_takeWhile_imp hc
      · cases hd : rest.dropWhile (· = slash) with
        | nil => simp
        | cons c t =>
          have h1 := List.head_dropWhile_not (fun c => decide (c = slash)) (l := rest) (by rw [hd]; simp)
          simpa [hd] using h1
    have hlen : rest.length = lead.length + r.length := by rw [hlr, List.length_append]
    have hhere : CStr s.temp s.token (lead ++ r) := hlr ▸ h.here
    rw [skipSeparators_ok hhere hlead hr (by rwa [← hlr]) (by omega)]
    show ∃ s', (do
      let c ← tempAt s.temp (s.token + lead.length)
      if c = 0 then some { s with token := s.token + lead.length } else _) = some s' ∧ _
    rw [tempAt_ok (by omega)]
    show ∃ s', (if s.temp (s.token + lead.length) = 0 then some _ else _) = some s' ∧ _
    rw [hlr, resolveFrom_slashes hlead]
    by_cases hr0 : r = []
    · subst hr0
      have hz : s.temp (s.token + lead.length) = 0 := hhere.drop
      rw [if_pos hz]
      exact ⟨_, rfl, by rwa [resolveFrom_nil]⟩
    have hdrop := hhere.drop
    obtain ⟨name, tail, hnt, hn, ht⟩ := exists_component r
    have hname : name ≠ [] := by
      rintro rfl
      rcases ht with rfl | ht
      · exact hr0 hnt
      · exact hr (by rw [hnt]; exact ht)
    have h1 : s.temp (s.token + lead.length) ≠ 0 := by
      obtain ⟨c, r', rfl⟩ := List.exists_cons_of_ne_nil hr0
      exact hdrop.1 ▸ hdrop.2.1
    have hlen' : r.length = name.length + tail.length := by rw [hnt, List.length_append]
    have hpos := List.length_pos_iff.2 hname
    rw [hnt] at hdrop
    rw [if_neg h1, skipSegment_ok hdrop hn ht (by rw [← hnt]; omega) (by omega)]
    obtain ⟨s', tail', hterm, hsegs, hinv, hcstr, hbefore, hle, hres⟩ := terminate_spec (some maxSegments) h hrest
      (Nat.le_add_right _ lead.length) hdrop (by rw [← hnt]; omega) hn ht
    show ∃ s', (({ s with token := s.token + lead.length + name.length } : NormState).terminate >>= _) = some s' ∧ _
    rw [hterm, hnt, hres]
    obtain ⟨x, hx, hxiff⟩ := strcmp_cstr hcstr (literal_cstr period_ne) (by omega : _ < fuel)
    obtain ⟨y, hy, hyiff⟩ := strcmp_cstr hcstr (literal_cstr periods_ne) (by omega : _ < fuel)
    show ∃ s'', (do
      let x ← strcmp s'.temp (literal [period]) fuel (s.token + lead.length) 0
      if x = 0 then normLoop fuel s' else _) = some s'' ∧ _
    rw [hx]
    show ∃ s'', (if x = 0 then normLoop fuel s' else _) = some s'' ∧ _
    by_cases hdot : name = [period]
    · rw [if_pos (hxiff.2 hdot), hdot, pathStep_here]
      exact ih hinv (by omega)
    rw [if_neg fun hc => hdot (hxiff.1 hc), hy]
    show ∃ s'', (if y = 0 then _ else _) = some s'' ∧ _
    by_cases hup : name = [period, period]
    · -- one entry less
      have hpop : NormInv { s' with segments := s'.segments.dropLast } tail' st.dropLast := by
        refine ⟨hinv.here, hinv.room, ?_⟩
        have h2 := hinv.segments.length_eq
        simpa only [List.dropLast_eq_take, h2] using List.forall₂_take (st.length - 1) hinv.segments
      rw [if_pos (hyiff.2 hup), hup, pathStep_up]
      exact ih hpop (by omega)
    rw [if_neg fun hc => hup (hyiff.1 hc), pathStep_name hname hdot hup]
    have hcount : s'.segments.length = st.length := hinv.segments.length_eq
    have hall : (some maxSegments).all (fun n => decide (st.length < n)) = decide (st.length < maxSegments) := rfl
    rw [hcount, hall]
    by_cases hfull : st.length < maxSegments
    · -- one entry more
      have hpush : NormInv { s' with segments := s'.segments ++ [s.token + lead.length] } tail' (st ++ [name]) := by
        refine ⟨hinv.here, hinv.room, ?_⟩
        exact List.rel_append hinv.segments (.cons ⟨hcstr, hbefore⟩ .nil)
      rw [if_pos hfull, if_pos (decide_eq_true hfull)]
      exact ih hpush (by omega)
    · rw [if_neg hfull, if_neg (by simpa using hfull)]
      exact ih hinv (by omega)

/-! ### The result -/

/-- The path of a stack that is not empty, as the loop writes it. -/
def written (st : List Name) : List UInt8 := st.flatMap (slash :: ·)

theorem length_written_cons (c : Name) (st : List Name) :
    (written (c :: st)).length = c.length + 1 + (written st).length := by
  simp [written]
  omega

theorem render_nil : render [] = [slash] := rfl

theorem render_written (hst : st ≠ []) : render st = written st := by
  induction st with
  | nil => exact absurd rfl hst
  | cons c st ih =>
    cases st with
    | nil => simp [render, written]
    | cons d st =>
      have h1 := ih (List.cons_ne_nil d st)
      unfold render written at h1 ⊢
      rw [List.flatMap_cons, ← h1, List.intercalate_cons_of_ne_nil (List.cons_ne_nil d st)]
      simp

/-- The buffer after the loop, from `pos` on. -/
def writeFrom (q : ℕ → UInt8) (pos : ℕ) : List Name → ℕ → UInt8
  | [] => q
  | c :: st => writeFrom (copyIn (copyIn q pos ([slash] ++ [0])) (pos + 1) (c ++ [0])) (pos + 1 + c.length) st

/-- **The loop writes the path of the stack** behind the string that is there. -/
theorem joinLoop_render (hq : CStr q 0 l) (hsegs : List.Forall₂ (CStr temp) segs st)
    (hf : l.length + (written st).length < fuel) : joinLoop fuel q temp segs = some (writeFrom q l.length st) := by
  induction hsegs generalizing q l with
  | nil => rfl
  | @cons a c segs st hac _ ih =>
    have hslash : CStr (literal [slash]) 0 [slash] := literal_cstr slash_ne
    rw [length_written_cons] at hf
    -- the separator, then the component
    have h1 : CStr _ 0 (l ++ [slash]) := hq.append hslash.ne_zero
    have h2 := h1.append hac.ne_zero
    have hlen1 : (l ++ [slash]).length = l.length + 1 := by simp
    have hlen2 : (l ++ [slash] ++ c).length = l.length + 1 + c.length := by rw [List.length_append, hlen1]
    have hrec := ih h2 (by omega)
    have hone : ([slash] : List UInt8).length = 1 := rfl
    unfold joinLoop
    rw [strcat_cstr hq hslash (by omega) (by omega)]
    show (strcat fuel _ 0 temp a >>= _) = _
    rw [strcat_cstr h1 hac (by omega) (by omega)]
    rw [hlen2] at hrec
    simp only [zero_add, hlen1] at hrec ⊢
    exact hrec

theorem ne_zero_of_segments (h : List.Forall₂ (CStr temp) segs st) : ∀ c ∈ st, ∀ x ∈ c, x ≠ 0 := by
  induction h with
  | nil => simp
  | cons hac _ ih => exact List.forall_mem_cons.2 ⟨hac.ne_zero, ih⟩

theorem writeFrom_cstr (hq : CStr q 0 l) (hst : ∀ c ∈ st, ∀ x ∈ c, x ≠ 0) :
    CStr (writeFrom q l.length st) 0 (l ++ written st) := by
  induction st generalizing q l with
  | nil => simpa [written, writeFrom] using hq
  | cons c st ih =>
    have h1 : CStr (copyIn q (0 + l.length) ([slash] ++ [0])) 0 (l ++ [slash]) := hq.append slash_ne
    have h2 := h1.append (hst c List.mem_cons_self)
    have hrec := ih h2 fun d hd => hst d (List.mem_cons_of_mem c hd)
    have hlen1 : (l ++ [slash]).length = l.length + 1 := by simp
    have hlen2 : (l ++ [slash] ++ c).length = l.length + 1 + c.length := by rw [List.length_append, hlen1]
    have hw : l ++ [slash] ++ c ++ written st = l ++ written (c :: st) := by simp [written]
    rw [hlen2, hw] at hrec
    simp only [zero_add, hlen1] at hrec
    exact hrec

theorem writeFrom_out {pos : ℕ} (hi : pos + (written st).length < i) : writeFrom q pos st i = q i := by
  induction st generalizing q pos with
  | nil => rfl
  | cons c st ih =>
    rw [length_written_cons] at hi
    unfold writeFrom
    rw [ih (by omega), copyIn_out (.inr ?_), copyIn_out (.inr ?_)]
    · simp only [List.length_append, List.length_cons, List.length_nil]
      omega
    · simp only [List.length_append, List.length_cons, List.length_nil]
      omega

/-! ### Lengths -/

theorem written_step (cap : Option ℕ) (st : List Name) (c : Name) :
    (written (pathStep cap st c)).length ≤ (written st).length + (c.length + 1) := by
  unfold pathStep
  split_ifs
  · omega
  · have h1 : (written st.dropLast).length ≤ (written st).length := by
      rcases List.eq_nil_or_concat st with rfl | ⟨st', d, rfl⟩
      · simp
      · simp [written]
    omega
  · simp [written]
  · omega

theorem written_foldl (cap : Option ℕ) (comps : List Name) (st : List Name) :
    (written (comps.foldl (pathStep cap) st)).length ≤ (written st).length + (comps.map (·.length + 1)).sum := by
  induction comps generalizing st with
  | nil => simp
  | cons c comps ih =>
    have h1 := ih (pathStep cap st c)
    have h2 := written_step cap st c
    simp only [List.foldl_cons, List.map_cons, List.sum_cons]
    omega

theorem sum_splitOn (l : List UInt8) : ((l.splitOn slash).map (·.length + 1)).sum = l.length + 1 := by
  induction l with
  | nil => rfl
  | cons c l ih =>
    rw [List.splitOn_cons_eq_if_modifyHead]
    split_ifs
    · simp [ih, add_comm]
    · obtain ⟨d, ds, hd⟩ := List.exists_cons_of_ne_nil (List.splitOn_ne_nil slash l)
      rw [hd] at ih ⊢
      simp at ih ⊢
      omega

/-- **The result is not longer than the path**, so that it fits into its buffer. -/
theorem written_le (cap : Option ℕ) (hhead : l.head? = some slash) : (written (resolve cap l)).length ≤ l.length := by
  obtain ⟨r, rfl⟩ : ∃ r, l = slash :: r := by
    cases l with
    | nil => cases hhead
    | cons c r => exact ⟨r, by rw [Option.some.inj hhead]⟩
  have h1 : resolve cap (slash :: r) = resolveFrom cap [] r :=
    resolveFrom_slashes (l := [slash]) (by simp) [] r
  have h2 := written_foldl cap (r.splitOn slash) []
  rw [sum_splitOn] at h2
  rw [h1]
  simpa [resolveFrom, written] using h2

/-! ### `normalize_path` -/

/-- **The copy in `temp`**: the first 255 bytes. -/
theorem temp_cstr (h : CStr path 0 l) (stack : ℕ → UInt8) :
    CStr (Function.update (strncpy stack 0 path 0 (tempSize - 1)) (tempSize - 1) 0) 0 (l.take (tempSize - 1)) :=
  strncpy_cstr h stack (tempSize - 1)

theorem normalizePath_ok (h : CStr path 0 l) (hhead : l.head? = some slash) (stack : ℕ → UInt8) :
    ∃ q, Returns (normalizePath · stack path) (1, q) ∧
      CStr q 0 (render (resolve (some maxSegments) (l.take (tempSize - 1)))) ∧ ∀ i, l.length < i → q i = path i := by
  have hpos : 0 < l.length := by
    cases l with
    | nil => cases hhead
    | cons c r => simp
  have h0 : path 0 ≠ 0 := by
    cases l with
    | nil => cases hhead
    | cons c r => exact h.1 ▸ h.2.1
  set l' := l.take (tempSize - 1) with hl'
  have hlen' : l'.length ≤ l.length := List.length_take_le' ..
  have hhead' : l'.head? = some slash := by
    cases l with
    | nil => cases hhead
    | cons c r => exact hhead
  have hle := written_le (some maxSegments) hhead'
  have htemp := temp_cstr h stack
  have hroom : 0 + l'.length < tempSize := by
    have h1 : l'.length ≤ tempSize - 1 := List.length_take_le ..
    have h2 : 0 < tempSize := by decide
    omega
  have hinv : NormInv ⟨_, 0, []⟩ l' [] := ⟨htemp, hroom, .nil⟩
  set temp := Function.update (strncpy stack 0 path 0 (tempSize - 1)) (tempSize - 1) 0 with ht
  set st := resolve (some maxSegments) l' with hst
  have hrun : ∀ fuel, l.length + 2 < fuel → ∃ s', normLoop fuel ⟨temp, 0, []⟩ = some s' ∧
      List.Forall₂ (CStr s'.temp) s'.segments st := fun fuel hf => normLoop_resolve hinv (by omega)
  have hslash : CStr (literal [slash]) 0 [slash] := literal_cstr slash_ne
  have hnil : ∀ s' : NormState, List.Forall₂ (CStr s'.temp) s'.segments st → (s'.segments = [] ↔ st = []) := by
    intro s' hs
    rw [← List.length_eq_zero_iff, ← List.length_eq_zero_iff, hs.length_eq]
  by_cases hempty : st = []
  · -- the root
    refine ⟨copyIn path 0 ([slash] ++ [0]), ⟨l.length + 2, fun fuel hf => ?_⟩, ?_, fun i hi => ?_⟩
    · obtain ⟨s', hs', hsegs⟩ := hrun fuel hf
      show normalizePath fuel stack path = _
      unfold normalizePath
      rw [if_neg h0]
      show (normLoop fuel ⟨temp, 0, []⟩ >>= _) = _
      rw [hs']
      show (if s'.segments = [] then (strcpy fuel path 0 (literal [slash]) 0 >>= _) else _) = _
      rw [if_pos ((hnil s' hsegs).2 hempty), strcpy_cstr hslash (by simp; omega)]
      rfl
    · rw [hempty, render_nil]
      exact CStr_copyIn slash_ne
    · exact copyIn_out (.inr (by simp; omega))
  · -- the components of the stack are strings
    obtain ⟨s₀, -, hsegs₀⟩ := hrun (l.length + 3) (by omega)
    have hchars := ne_zero_of_segments hsegs₀
    have hzero : CStr (Function.update path 0 0) 0 [] := Function.update_self ..
    refine ⟨writeFrom (Function.update path 0 0) 0 st, ⟨l.length + 2, fun fuel hf => ?_⟩, ?_, fun i hi => ?_⟩
    · obtain ⟨s', hs', hsegs⟩ := hrun fuel hf
      show normalizePath fuel stack path = _
      unfold normalizePath
      rw [if_neg h0]
      show (normLoop fuel ⟨temp, 0, []⟩ >>= _) = _
      rw [hs']
      show (if s'.segments = [] then _ else (joinLoop fuel (Function.update path 0 0) s'.temp s'.segments >>= _)) = _
      rw [if_neg fun hc => hempty ((hnil s' hsegs).1 hc), joinLoop_render hzero hsegs (by simp; omega)]
      rfl
    · rw [render_written hempty]
      exact writeFrom_cstr hzero hchars
    · rw [writeFrom_out (by omega), Function.update_of_ne (by omega)]

/-- **Lexical normalisation.** A path of at most 255 bytes that begins with `'/'` is rewritten to the
path of its components on a stack of 64 entries, which is not longer. -/
theorem normalize_path_spec (h : CStr path 0 l) (hlen : l.length ≤ 255) (hhead : l.head? = some slash)
    (stack : ℕ → UInt8) :
    ∃ q, Returns (normalizePath · stack path) (1, q) ∧ CStr q 0 (render (resolve (some maxSegments) l)) ∧
      ∀ i, l.length < i → q i = path i := by
  have h1 := normalizePath_ok h hhead stack
  rwa [List.take_of_length_le (show l.length ≤ tempSize - 1 from hlen)] at h1

/-- `"//a/./b/../c"`. -/
def shortPath : List UInt8 := [slash, slash, 97, slash, period, slash, 98, slash, period, period, slash, 99]

theorem normalize_path_short : ∃ q, Returns (normalizePath · (fun _ => 0) (literal shortPath)) (1, q) ∧
    CStr q 0 [slash, 97, slash, 99] := by
  obtain ⟨q, hq, hc, -⟩ :=
    normalize_path_spec (literal_cstr (by simp [shortPath, slash, period] : ∀ c ∈ shortPath, c ≠ 0)) (by decide) rfl
    fun _ => 0
  have hr : render (resolve (some maxSegments) shortPath) = [slash, 97, slash, 99] := by decide +kernel
  exact ⟨q, hq, hr ▸ hc⟩

/-- `"/a"`, 65 times. -/
def longPath : List UInt8 := (List.replicate 65 [slash, 97]).flatten

/-- **The last of 65 components is lost.** -/
theorem normalize_path_long : longPath.length ≤ 255 ∧ longPath.head? = some slash ∧
    CStr (literal longPath) 0 longPath ∧ ∃ q, Returns (normalizePath · (fun _ => 0) (literal longPath)) (1, q) ∧
      ¬ CStr q 0 (render (resolve none longPath)) := by
  have hcstr : CStr (literal longPath) 0 longPath := literal_cstr (by decide +kernel)
  have hlen : longPath.length ≤ 255 := by decide +kernel
  have hhead : longPath.head? = some slash := by decide +kernel
  obtain ⟨q, hq, hc, -⟩ := normalizePath_ok hcstr hhead fun _ => 0
  rw [List.take_of_length_le (show longPath.length ≤ tempSize - 1 from hlen)] at hc
  refine ⟨hlen, hhead, hcstr, q, hq, fun hc' => ?_⟩
  have heq := congrArg List.length (hc.unique hc')
  exact absurd heq (by decide +kernel)

end Saynaa
