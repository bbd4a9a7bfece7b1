import Saynaa.Lib.Words
import Saynaa.Libc.AbsPath
import Saynaa.Proof.PathNormal
import Saynaa.Proof.PfPlain
import Saynaa.Proof.Vsnprintf

/-!
# What `make_abs_path` joins

* `resolve_cap`: the depth of the stack does not matter for a path of few components.
* `vcbprintf_absolute`, `vcbprintf_relative`: the two formats.
* `joined`: the string that is normalised, up to its first bytes.
* `make_abs_path_exact`: when the result is that of the whole string.
-/

namespace Saynaa

open Lib

variable {ops : FloatOps} {mem out stack : ℕ → UInt8} {st : List Name} {l cwd input : List UInt8} {a b : BitVec 32}
  {n outLen : ℕ}

/-! ### Paths of few components -/

theorem foldl_cap {comps : List Name} (h : st.length + (comps.filter (· ≠ [])).length ≤ n) :
    comps.foldl (pathStep (some n)) st = comps.foldl (pathStep none) st := by
  induction comps generalizing st with
  | nil => rfl
  | cons c comps ih =>
    rw [List.foldl_cons, List.foldl_cons]
    by_cases hc : c = []
    · rw [hc, List.filter_cons_of_neg (by simp)] at h
      rw [hc, pathStep_nil, pathStep_nil]
      exact ih h
    · rw [List.filter_cons_of_pos (by simpa using hc), List.length_cons] at h
      have hstep : pathStep (some n) st c = pathStep none st c := by
        have hlt : st.length < n := by omega
        unfold pathStep
        simp [hlt]
      have hlen : (pathStep none st c).length ≤ st.length + 1 := by
        unfold pathStep
        split_ifs <;> simp
        omega
      rw [hstep]
      exact ih (by omega)

/-- **The depth of the stack** does not matter for a path of at most as many components. -/
theorem resolve_cap (h : (words slash l).length ≤ n) : resolve (some n) l = resolve none l :=
  foldl_cap (by rw [List.length_nil, Nat.zero_add]; exact h)

theorem resolve_render_none (h : StackOK st) : resolve none (render st) = st := resolve_render h fun _ h => nomatch h

/-! ### The formats -/

/-- **A string that was printed** to a buffer. -/
theorem snprintf_cstr {format t : List UInt8} {args : List (BitVec 32)} (hout : 1 ≤ outLen)
    (h : (vcbprintf (varArgs args) ops mem format).output = t) (ht : ∀ c ∈ t, c ≠ 0) :
    CStr (snprintf ops mem out outLen format args) 0 (t.take (outLen - 1)) := by
  have hbuf : snprintf ops mem out outLen format args = copyIn out 0 (t.take (outLen - 1) ++ [0]) :=
    congrArg Prod.snd (vsnprintf_eq hout h out 0)
  rw [hbuf]
  exact CStr_copyIn fun c hc => ht c (List.mem_of_mem_take hc)

theorem vcbprintf_absolute (hb : b ≠ 0) (hi : CStr mem b.toNat input) :
    (vcbprintf (varArgs [b]) ops mem [slash, ch '%', ch 's']).output = slash :: input.take maxStringScan := by
  have h1 := PfState.step_literal (varArgs [b]) ops ⟨[slash, ch '%', ch 's'], 0, mem, 0, false⟩
    (show _ = [slash] ++ [ch '%', ch 's'] from rfl) (List.cons_ne_nil _ _) (by decide) (by decide) (.inr rfl)
  have h2 := PfState.step_string (varArgs [b]) ops
    (PfState.wrote ⟨[ch '%', ch 's'], 0, mem, 0, false⟩ 1) rfl rfl (show varArgs [b] 0 ≠ 0 from hb) hi
  have h3 := PfState.loop_cons (n := 2) (List.cons_ne_nil _ _) h1
    (PfState.loop_cons (List.cons_ne_nil _ _) h2 (PfState.loop_nil rfl 1))
  rw [vcbprintf_output h3, List.append_nil]
  rfl

theorem vcbprintf_relative (ops : FloatOps) (ha : a ≠ 0) (hc : CStr mem a.toNat cwd) (hb : b ≠ 0)
    (hi : CStr mem b.toNat input) :
    (vcbprintf (varArgs [a, b]) ops mem [ch '%', ch 's', slash, ch '%', ch 's']).output =
      cwd.take maxStringScan ++ slash :: input.take maxStringScan := by
  have h1 := PfState.step_string (varArgs [a, b]) ops
    (⟨[ch '%', ch 's', slash, ch '%', ch 's'], 0, mem, 0, false⟩) rfl rfl (show varArgs [a, b] 0 ≠ 0 from ha) hc
  have h2 := PfState.step_literal (varArgs [a, b]) ops
    (PfState.wrote ⟨[slash, ch '%', ch 's'], 1, mem, 0, false⟩ (cwd.take maxStringScan).length)
    (show _ = [slash] ++ [ch '%', ch 's'] from rfl) (List.cons_ne_nil _ _) (by decide) (by decide) (.inr rfl)
  have h3 := PfState.step_string (varArgs [a, b]) ops
    ((PfState.wrote ⟨[ch '%', ch 's'], 1, mem, 0, false⟩ (cwd.take maxStringScan).length).wrote 1) rfl rfl
    (show varArgs [a, b] 1 ≠ 0 from hb) hi
  have h4 := PfState.loop_cons (n := 4) (List.cons_ne_nil _ _) h1 (PfState.loop_cons (List.cons_ne_nil _ _) h2
    (PfState.loop_cons (List.cons_ne_nil _ _) h3 (PfState.loop_nil rfl 2)))
  rw [vcbprintf_output h4, List.append_nil]
  rfl

/-! ### The joined path -/

/-- The string whose normal form is wanted. -/
def complete (cwd input : List UInt8) : List UInt8 :=
  if input.head? = some slash then input else cwd ++ slash :: input

/-- The string that is normalised, but for its length. -/
def joined (cwd input : List UInt8) : List UInt8 :=
  if input.head? = some slash then input else if cwd = [slash] then slash :: input else cwd ++ slash :: input

/-- How much of it is looked at. -/
def joinBound (outLen : ℕ) : ℕ := min (outLen - 1) (tempSize - 1)

theorem joined_head (hc : cwd.head? = some slash) : (joined cwd input).head? = some slash := by
  unfold joined
  split_ifs with h1 h2
  · exact h1
  · rfl
  · rw [List.head?_append, hc]
    rfl

/-- A second slash at the beginning does not matter. -/
theorem resolve_joined (cap : Option ℕ) (cwd input : List UInt8) :
    resolve cap (joined cwd input) = resolve cap (complete cwd input) := by
  unfold joined complete
  split_ifs with h1 h2
  · rfl
  · subst h2
    rw [List.singleton_append, resolve_cons, resolve_cons]
    exact (resolveFrom_slashes (l := [slash]) (by simp) [] input).symm
  · rfl

theorem words_joined (cwd input : List UInt8) :
    words slash (joined cwd input) = words slash (complete cwd input) := by
  unfold joined complete
  split_ifs with h1 h2
  · rfl
  · subst h2
    rw [List.singleton_append, words_sep, words_sep, words_sep]
  · rfl

/-- What `make_abs_path` hands to `normalize_path`. -/
def buffered (ops : FloatOps) (mem : ℕ → UInt8) (cwd input : List UInt8) (a b : BitVec 32) (out : ℕ → UInt8)
    (outLen : ℕ) : ℕ → UInt8 :=
  if input.head? = some slash then Function.update (strncpy out 0 mem b.toNat (outLen - 1)) (outLen - 1) 0
  else if cwd = [slash] then snprintf ops mem out outLen [slash, ch '%', ch 's'] [b]
  else snprintf ops mem out outLen [ch '%', ch 's', slash, ch '%', ch 's'] [a, b]

theorem take_scan (l : List UInt8) {m : ℕ} (hm : m ≤ maxStringScan) : (l.take maxStringScan).take m = l.take m := by
  rw [List.take_take, min_eq_left hm]

/-- **The buffer before normalisation** holds the beginning of the joined string. -/
theorem buffered_cstr (ops : FloatOps) (out : ℕ → UInt8) (ha : a ≠ 0) (hc : CStr mem a.toNat cwd) (hb : b ≠ 0)
    (hi : CStr mem b.toNat input) (hlen : cwd.length < tempSize) (hout : 1 ≤ outLen) :
    ∃ t : List UInt8, CStr (buffered ops mem cwd input a b out outLen) 0 (t.take (outLen - 1)) ∧
      t.take (tempSize - 1) = (joined cwd input).take (tempSize - 1) := by
  have hscan : tempSize ≤ maxStringScan := by decide
  have hchars : ∀ l : List UInt8, (∀ c ∈ l, c ≠ 0) → ∀ c ∈ slash :: l.take maxStringScan, c ≠ 0 := by
    intro l hl
    exact List.forall_mem_cons.2 ⟨by decide, fun c hc => hl c (List.mem_of_mem_take hc)⟩
  have hsize : tempSize - 1 = (tempSize - 2) + 1 := rfl
  unfold buffered joined
  split_ifs with h1 h2
  · -- an absolute path is copied
    exact ⟨input, strncpy_cstr hi out _, rfl⟩
  · -- behind the root directory
    refine ⟨slash :: input.take maxStringScan, snprintf_cstr hout (vcbprintf_absolute hb hi)
      (hchars _ hi.ne_zero), ?_⟩
    rw [hsize, List.take_succ_cons, List.take_succ_cons, take_scan _ (by omega)]
  · have hcwd : cwd.take maxStringScan = cwd := List.take_of_length_le (by omega)
    have hrel := vcbprintf_relative ops ha hc hb hi
    rw [hcwd] at hrel
    refine ⟨cwd ++ slash :: input.take maxStringScan, snprintf_cstr hout hrel fun c hm => ?_, ?_⟩
    · rcases List.mem_append.1 hm with hm | hm
      · exact hc.ne_zero c hm
      · exact hchars _ hi.ne_zero c hm
    · rw [List.take_append, List.take_append]
      congr 1
      cases hk : tempSize - 1 - cwd.length with
      | zero => rw [List.take_zero, List.take_zero]
      | succ k => rw [List.take_succ_cons, List.take_succ_cons, take_scan _ (by omega)]

/-- Nothing is written behind `out_len` bytes. -/
theorem buffered_out {i : ℕ} (hout : 1 ≤ outLen) (h : outLen ≤ i) :
    buffered ops mem cwd input a b out outLen i = out i := by
  have hprint : ∀ format args, snprintf ops mem out outLen format args i = out i := by
    intro format args
    have hbuf : snprintf ops mem out outLen format args = copyIn out 0 (_ ++ [0]) :=
      congrArg Prod.snd (vsnprintf_eq hout rfl out 0)
    rw [hbuf, copyIn_out (.inr ?_)]
    simp only [List.length_append, List.length_take, List.length_singleton]
    omega
  unfold buffered
  split_ifs
  · rw [Function.update_of_ne (by omega), strncpy_out (by omega)]
  · exact hprint _ _
  · exact hprint _ _

/-- **`make_abs_path`** normalises the beginning of the joined string. -/
theorem makeAbsPath_ok (ops : FloatOps) (ha : a ≠ 0) (hc : CStr mem a.toNat cwd) (hb : b ≠ 0)
    (hi : CStr mem b.toNat input)
    (hhead : cwd.head? = some slash) (hlen : cwd.length < tempSize) (hout : 2 ≤ outLen) (stack out : ℕ → UInt8) :
    ∃ q, Returns (makeAbsPath ops mem · stack a b (some out) outLen) (1, some q) ∧
      CStr q 0 (render (resolve (some maxSegments) ((joined cwd input).take (joinBound outLen)))) ∧
      ∀ i, outLen ≤ i → q i = out i := by
  obtain ⟨t, ht, htake⟩ := buffered_cstr ops out ha hc hb hi hlen (by omega : 1 ≤ outLen)
  have hbound : (t.take (outLen - 1)).take (tempSize - 1) = (joined cwd input).take (joinBound outLen) := by
    rw [List.take_take, min_comm, ← List.take_take, htake, List.take_take]
    rfl
  have hfirst : (t.take (outLen - 1)).head? = some slash := by
    have h1 := congrArg List.head? hbound
    have h2 : ((joined cwd input).take (joinBound outLen)).head? = some slash := by
      have hpos : 0 < joinBound outLen := lt_min (by omega) (by decide)
      rw [List.head?_take, if_neg (by omega)]
      exact joined_head hhead
    rw [h2, List.head?_take, if_neg (by decide)] at h1
    exact h1
  obtain ⟨q, ⟨N, hN⟩, hq, hframe⟩ := normalizePath_ok ht hfirst stack
  rw [hbound] at hq
  refine ⟨q, ⟨N + cwd.length, fun fuel hf => ?_⟩, hq, fun i hi' => ?_⟩
  · obtain ⟨x, hx, hxiff⟩ := strcmp_cstr hc (literal_cstr slash_ne) (by omega : cwd.length < fuel)
    have hchar : mem b.toNat = slash ↔ input.head? = some slash := by
      cases input with
      | nil =>
        rw [CStr_nil.1 hi]
        simp [slash]
      | cons c r =>
        rw [hi.1]
        simp
    -- the buffer, and its normal form
    have hbuf : joinPaths ops mem fuel a b out outLen = some (buffered ops mem cwd input a b out outLen) := by
      unfold joinPaths
      unfold buffered
      by_cases h1 : input.head? = some slash
      · rw [if_pos (hchar.2 h1), if_pos h1]
      · rw [if_neg fun h => h1 (hchar.1 h), if_neg h1, hx, Option.map_some]
        by_cases h2 : cwd = [slash]
        · rw [if_pos h2, if_pos (hxiff.2 h2)]
        · rw [if_neg h2, if_neg fun h => h2 (hxiff.1 h)]
    show makeAbsPath ops mem fuel stack a b (some out) outLen = _
    unfold makeAbsPath
    simp only
    rw [if_neg (not_or.2 ⟨ha, not_or.2 ⟨hb, by omega⟩⟩), hbuf]
    show (normalizePath fuel stack (buffered ops mem cwd input a b out outLen) >>= _) = _
    rw [show normalizePath fuel stack _ = some (1, q) from hN fuel (by omega)]
    rfl
  · rw [hframe i ?_, buffered_out (by omega) hi']
    rw [List.length_take]
    omega

/-- **Paths are joined exactly** just when the complete string fits, or what is cut off leads nowhere else. -/
theorem make_abs_path_exact (ha : a ≠ 0) (hc : CStr mem a.toNat cwd) (hb : b ≠ 0) (hi : CStr mem b.toNat input)
    (hcwd : NormalPath cwd) (hlen : cwd.length < tempSize)
    (hwords : (words slash (complete cwd input)).length ≤ maxSegments)
    (hout : 2 ≤ outLen) (stack out : ℕ → UInt8) :
    ∃ q, Returns (makeAbsPath ops mem · stack a b (some out) outLen) (1, some q) ∧
      (CStr q 0 (render (resolve none (complete cwd input))) ↔
        (joined cwd input).length ≤ joinBound outLen ∨
          resolve none ((joined cwd input).take (joinBound outLen)) = resolve none (joined cwd input)) := by
  obtain ⟨q, hq, hcstr, -⟩ := makeAbsPath_ok ops ha hc hb hi hcwd.absolute hlen hout stack out
  have hcap : resolve (some maxSegments) ((joined cwd input).take (joinBound outLen)) =
      resolve none ((joined cwd input).take (joinBound outLen)) := by
    refine resolve_cap (le_trans ?_ hwords)
    rw [← words_joined]
    conv_rhs => rw [← List.take_append_drop (joinBound outLen) (joined cwd input)]
    exact length_wordsP_append _ _
  rw [hcap] at hcstr
  refine ⟨q, hq, ?_⟩
  rw [← resolve_joined]
  constructor
  · intro h
    have heq := hcstr.unique h
    -- a path determines its stack
    have hinv := congrArg (resolve none) heq
    rw [resolve_render_none (resolve_stackOK _ _), resolve_render_none (resolve_stackOK _ _)] at hinv
    exact .inr hinv
  · rintro (h | h)
    · rwa [List.take_of_length_le h] at hcstr
    · rwa [h] at hcstr

/-- A memory with the string `"/"` at address 1 and `input` at address 3. -/
def rootAnd (input : List UInt8) : ℕ → UInt8 := literal ([0, slash, 0] ++ input)

theorem rootAnd_root (input : List UInt8) : CStr (rootAnd input) (1 : BitVec 32).toNat [slash] :=
  ⟨rfl, by decide, rfl⟩

theorem rootAnd_input (hi : ∀ c ∈ input, c ≠ 0) : CStr (rootAnd input) (3 : BitVec 32).toNat input :=
  literal_drop hi rfl

theorem root_normal : NormalPath [slash] := ⟨rfl, .inl rfl, .inl rfl⟩

/-- `"a"` in `"/"`. -/
theorem make_abs_path_short :
    ∃ q, Returns (makeAbsPath noFloat (rootAnd [97]) · (fun _ => 0) 1 3 (some fun _ => 0) 256) (1, some q) ∧
    CStr q 0 (render (resolve none (complete [slash] [97]))) := by
  have hin : CStr (rootAnd [97]) (3 : BitVec 32).toNat [97] := rootAnd_input (by simp)
  obtain ⟨q, hq, h⟩ := @make_abs_path_exact noFloat (rootAnd [97]) [slash] [97] 1 3 256 (by decide)
    (rootAnd_root [97]) (by decide) hin root_normal (by decide) (by decide +kernel) (by decide)
    (fun _ => 0) fun _ => 0
  exact ⟨q, hq, h.2 (.inl (by decide))⟩

/-- `"/aa…a/.."`, with 254 characters before the second slash. -/
def cutPath : List UInt8 := slash :: (List.replicate 254 97 ++ [slash, period, period])

/-- **The `".."` behind 255 bytes is lost**: the result is not the root. -/
theorem make_abs_path_cut : (words slash (complete [slash] cutPath)).length ≤ maxSegments ∧
    CStr (rootAnd cutPath) (3 : BitVec 32).toNat cutPath ∧
    ∃ q, Returns (makeAbsPath noFloat (rootAnd cutPath) · (fun _ => 0) 1 3 (some fun _ => 0) 256) (1, some q) ∧
      ¬ CStr q 0 (render (resolve none (complete [slash] cutPath))) := by
  have hi : CStr (rootAnd cutPath) (3 : BitVec 32).toNat cutPath := rootAnd_input (by decide +kernel)
  obtain ⟨q, hq, hc, -⟩ := makeAbsPath_ok noFloat (a := 1) (b := 3) (by decide)
    (rootAnd_root cutPath) (by decide) hi rfl (by decide) (by decide : 2 ≤ 256) (fun _ => 0) fun _ => 0
  refine ⟨by decide +kernel, hi, q, hq, fun hc' => ?_⟩
  have heq := congrArg List.length (hc.unique hc')
  exact absurd heq (by decide +kernel)

end Saynaa
