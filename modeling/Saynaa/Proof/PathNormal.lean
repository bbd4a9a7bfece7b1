import Saynaa.Proof.Pathutil

/-!
# Paths in normal form

* `resolve_stackOK`: the components on the stack are names.
* `resolve_render`: the stack of the path of a stack is that stack.
* `NormalPath`, `normal_render`: paths in normal form.
* `normalize_path_idempotent`: normalisation, and a second one.
-/

namespace Saynaa

open Lib

variable {path q q' : ℕ → UInt8} {cap : Option ℕ} {st acc : List Name} {c : Name} {l m r : List UInt8}

/-! ### Stacks of names -/

/-- A component that names an entry of a directory. -/
structure NameOK (c : Name) : Prop where
  nonempty : c ≠ []
  here : c ≠ [period]
  up : c ≠ [period, period]
  slash : slash ∉ c

def StackOK (st : List Name) : Prop := ∀ c ∈ st, NameOK c

/-- A component has no slash. -/
theorem slash_not_mem_splitOn : ∀ c ∈ l.splitOn slash, slash ∉ c := by
  induction l with
  | nil => simp
  | cons a l ih =>
    rw [List.splitOn_cons_eq_if_modifyHead]
    obtain ⟨d, ds, hd⟩ := List.exists_cons_of_ne_nil (List.splitOn_ne_nil slash l)
    split_ifs with ha
    · exact List.forall_mem_cons.2 ⟨List.not_mem_nil, ih⟩
    · rw [hd] at ih ⊢
      rw [List.modifyHead_cons]
      obtain ⟨h1, h2⟩ := List.forall_mem_cons.1 ih
      refine List.forall_mem_cons.2 ⟨fun hm => ?_, h2⟩
      rcases List.mem_cons.1 hm with hm | hm
      · exact ha (by simp [hm])
      · exact h1 hm

theorem pathStep_stackOK (h : StackOK st) (hc : slash ∉ c) : StackOK (pathStep cap st c) := by
  unfold pathStep
  split_ifs with h1 h2 h3
  · exact h
  · exact fun d hd => h d (List.mem_of_mem_dropLast hd)
  · obtain ⟨h0, hhere⟩ := not_or.1 h1
    intro d hd
    rcases List.mem_append.1 hd with hd | hd
    · exact h d hd
    · rw [List.mem_singleton.1 hd]
      exact ⟨h0, hhere, h2, hc⟩
  · exact h

theorem foldl_stackOK {comps : List Name} (h : StackOK st) (hc : ∀ c ∈ comps, slash ∉ c) :
    StackOK (comps.foldl (pathStep cap) st) := by
  induction comps generalizing st with
  | nil => exact h
  | cons c comps ih =>
    obtain ⟨h1, h2⟩ := List.forall_mem_cons.1 hc
    exact ih (pathStep_stackOK h h1) h2

/-- **The components on the stack** are names. -/
theorem resolve_stackOK (cap : Option ℕ) (l : List UInt8) : StackOK (resolve cap l) :=
  foldl_stackOK (fun _ hc => nomatch hc) slash_not_mem_splitOn

/-- The stack does not grow over its depth. -/
theorem length_pathStep {n : ℕ} (h : st.length ≤ n) (c : Name) : (pathStep (some n) st c).length ≤ n := by
  unfold pathStep
  split_ifs with h1 h2 h3
  · exact h
  · rw [List.length_dropLast]
    omega
  · have hlt : st.length < n := by simpa using h3
    rw [List.length_append, List.length_singleton]
    omega
  · exact h

theorem length_resolve (n : ℕ) (l : List UInt8) : (resolve (some n) l).length ≤ n := by
  unfold resolve resolveFrom
  generalize l.splitOn slash = comps
  have h : ∀ (comps : List Name) (st : List Name), st.length ≤ n →
    (comps.foldl (pathStep (some n)) st).length ≤ n := by
    intro comps
    induction comps with
    | nil => exact fun _ h => h
    | cons c comps ih => exact fun st h => ih _ (length_pathStep h c)
  exact h comps [] (Nat.zero_le n)

/-- Names are pushed while there is room. -/
theorem foldl_push (h : StackOK st) (hroom : ∀ n ∈ cap, acc.length + st.length ≤ n) :
    st.foldl (pathStep cap) acc = acc ++ st := by
  induction st generalizing acc with
  | nil => exact (List.append_nil acc).symm
  | cons c st ih =>
    obtain ⟨hc, hst⟩ := List.forall_mem_cons.1 h
    have hall : cap.all (acc.length < ·) = true := by
      cases cap with
      | none => rfl
      | some n =>
        have h1 := hroom n rfl
        rw [List.length_cons] at h1
        exact decide_eq_true (by omega)
    have hroom' : ∀ n ∈ cap, (acc ++ [c]).length + st.length ≤ n := by
      intro n hn
      have h1 := hroom n hn
      simp only [List.length_append, List.length_cons, List.length_nil] at h1 ⊢
      omega
    rw [List.foldl_cons, pathStep_name hc.nonempty hc.here hc.up, if_pos hall, ih hst hroom', List.append_assoc]
    rfl

/-! ### The path of a stack -/

theorem splitOn_render (h : StackOK st) (hne : st ≠ []) : (render st).tail.splitOn slash = st :=
  List.splitOn_intercalate slash (fun c hc => (h c hc).slash) hne

theorem resolve_cons (cap : Option ℕ) (r : List UInt8) : resolve cap (slash :: r) = resolveFrom cap [] r :=
  resolveFrom_slashes (l := [slash]) (by simp) [] r

/-- **The stack of the path of a stack** is that stack. -/
theorem resolve_render (h : StackOK st) (hcap : ∀ n ∈ cap, st.length ≤ n) : resolve cap (render st) = st := by
  by_cases hne : st = []
  · subst hne
    exact resolve_cons cap []
  · have hsplit := splitOn_render h hne
    have hcons : render st = slash :: (render st).tail := rfl
    rw [hcons, resolve_cons]
    unfold resolveFrom
    rw [hsplit, foldl_push h (by simpa using hcap), List.nil_append]

/-- **A path in normal form**: absolute, without empty, `.` and `..` components, and without a slash at the end
unless it is the root. -/
structure NormalPath (path : List UInt8) : Prop where
  absolute : path.head? = some slash
  names : path = [slash] ∨ ∀ c ∈ path.tail.splitOn slash, NameOK c
  last : path = [slash] ∨ path.getLast? ≠ some slash

theorem render_last (h : StackOK st) (hne : st ≠ []) : (render st).getLast? ≠ some slash := by
  obtain ⟨init, c, rfl⟩ := (List.eq_nil_or_concat st).resolve_left hne
  have hc := h c (by simp)
  obtain ⟨w, x, hw⟩ := (List.eq_nil_or_concat c).resolve_left hc.nonempty
  rw [render_written hne]
  intro hlast
  have hx : x = slash := by
    have hsplit : written (init ++ [c]) = written init ++ slash :: w ++ [x] := by simp [written, hw]
    rw [List.concat_eq_append] at hlast
    rw [hsplit, List.getLast?_concat] at hlast
    exact Option.some.inj hlast
  exact hc.slash (by rw [hw, hx]; simp)

theorem normal_render (h : StackOK st) : NormalPath (render st) := by
  refine ⟨rfl, ?_, ?_⟩ <;> by_cases hne : st = []
  · exact .inl (by rw [hne, render_nil])
  · right
    rw [splitOn_render h hne]
    exact h
  · exact .inl (by rw [hne, render_nil])
  · exact .inr (render_last h hne)

theorem length_render_le (cap : Option ℕ) (hhead : l.head? = some slash) :
    (render (resolve cap l)).length ≤ l.length := by
  by_cases hne : resolve cap l = []
  · rw [hne, render_nil]
    cases l with
    | nil => cases hhead
    | cons c r => simp
  · rw [render_written hne]
    exact written_le cap hhead

/-- What `normalize_path` makes of a path. -/
noncomputable def normalized (l : List UInt8) : List UInt8 :=
  render (resolve (some maxSegments) (l.take (tempSize - 1)))

theorem normalized_normal (l : List UInt8) : NormalPath (normalized l) := normal_render (resolve_stackOK _ _)

theorem head_take (hhead : l.head? = some slash) : (l.take (tempSize - 1)).head? = some slash := by
  cases l with
  | nil => cases hhead
  | cons c r => exact hhead

theorem length_normalized (hhead : l.head? = some slash) : (normalized l).length ≤ tempSize - 1 :=
  (length_render_le _ (head_take hhead)).trans (List.length_take_le _ _)

theorem normalized_idem (hhead : l.head? = some slash) : normalized (normalized l) = normalized l := by
  have htake : (normalized l).take (tempSize - 1) = normalized l := List.take_of_length_le (length_normalized hhead)
  have hfix : resolve (some maxSegments) (normalized l) = resolve (some maxSegments) (l.take (tempSize - 1)) :=
    resolve_render (resolve_stackOK _ _) fun n hn => Option.some.inj hn ▸ length_resolve maxSegments _
  calc normalized (normalized l) = render (resolve (some maxSegments) (normalized l)) := congrArg _ (congrArg _ htake)
    _ = normalized l := congrArg render hfix

/-- **Normalisation is done in place and once.** Whatever its length, a path that begins with `'/'` is rewritten
within its bytes to one in normal form, which a second call leaves as it is. -/
theorem normalize_path_idempotent (h : CStr path 0 l) (hhead : l.head? = some slash) (stack stack' : ℕ → UInt8) :
    ∃ q m, Returns (normalizePath · stack path) (1, q) ∧ CStr q 0 m ∧ NormalPath m ∧
      (∀ i, l.length < i → q i = path i) ∧ Returns (normalizePath · stack' q) (1, q) := by
  obtain ⟨q, hq, hc, hout⟩ := normalizePath_ok h hhead stack
  obtain ⟨q', hq', hc', hout'⟩ := normalizePath_ok hc rfl stack'
  -- the second result is the first, behind its end and up to it
  have hsame : CStr q' 0 (normalized l) := by
    have h1 : CStr q' 0 (normalized (normalized l)) := hc'
    rwa [normalized_idem hhead] at h1
  have hqq : q' = q := by
    funext i
    by_cases hi : (normalized l).length < i
    · exact hout' i hi
    · exact hsame.agree hc i (Nat.zero_le i) (by omega)
  rw [hqq] at hq'
  exact ⟨q, normalized l, hq, hc, normalized_normal l, hout, hq'⟩

/-- `"//a/./b/../c"`. -/
theorem normalize_path_idempotent_short : ∃ q m, Returns (normalizePath · (fun _ => 0) (literal shortPath)) (1, q) ∧
    CStr q 0 m ∧ NormalPath m ∧ (∀ i, 12 < i → q i = 0) ∧ Returns (normalizePath · (fun _ => 1) q) (1, q) := by
  obtain ⟨q, m, hq, hc, hn, hout, hq'⟩ := normalize_path_idempotent
    (literal_cstr (by simp [shortPath, slash, period] : ∀ c ∈ shortPath, c ≠ 0)) rfl (fun _ => 0) fun _ => 1
  refine ⟨q, m, hq, hc, hn, fun i hi => ?_, hq'⟩
  rw [hout i hi]
  have hlen : shortPath.length ≤ i := by
    have : shortPath.length = 12 := rfl
    omega
  simp [literal, hlen]

end Saynaa
