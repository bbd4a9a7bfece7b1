import Saynaa.Proof.Vcbprintf

/-!
# The returned length

* `PfState.directive`: the specification that a pass converts.
* `PfState.signAt`: the sign of a floating-point conversion, which is not counted.
* `step_counts`: what a pass counts.
* `passes`: the passes of a call.
* `vcbprintf_counts`: when the returned number and those that `n` stores are right.
-/

namespace Saynaa

open Lib

variable {args : ℕ → BitVec 32} {ops : FloatOps} {mem mem' : ℕ → UInt8} {s s' f : PfState} {spec : PfSpec}
  {c conv : UInt8} {begun rest format out S : List UInt8} {arg n k a r : ℕ} {length : LengthT}

/-- The conversions of floating-point numbers. -/
def floatConversions : List UInt8 := [ch 'e', ch 'E', ch 'f', ch 'F', ch 'g', ch 'G', ch 'a', ch 'A']

/-- The argument of a floating-point conversion. -/
def floatValue (args : ℕ → BitVec 32) (ops : FloatOps) (length : LengthT) (arg : ℕ) : Option (BitVec 64) :=
  if length = .default then some (vaArg64 args arg)
  else if length = .longDouble then some (ops.ofLong (args (arg + 2) ++ vaArg64 args arg))
  else none

/-- The sign that a conversion prints without counting it. -/
def signOf (args : ℕ → BitVec 32) (ops : FloatOps) (spec : PfSpec) (conv : UInt8) (arg : ℕ) : List UInt8 :=
  if conv ∈ floatConversions then (floatValue args ops spec.length arg).elim [] (PfState.floatSign ops spec) else []

namespace PfState

/-- The specification that a pass converts, if it converts one: its parts, the conversion character, the rest of the
format, and the index of its argument. -/
def directive (args : ℕ → BitVec 32) (s : PfState) : Option (PfSpec × UInt8 × List UInt8 × ℕ) :=
  if s.format.head? = some (ch '%') ∧ s.format[1]? ≠ some (ch '%') ∧ s.rejectedBadSpecifier = false then
    match parseSpec args s.format.tail s.arg with
    | some (spec, conv :: rest, arg) => some (spec, conv, rest, arg)
    | _ => none
  else none

/-- The sign that a pass prints without counting it. -/
def signAt (args : ℕ → BitVec 32) (ops : FloatOps) (s : PfState) : List UInt8 :=
  match s.directive args with
  | some (spec, conv, _, arg) => signOf args ops spec conv arg
  | none => []

/-- Where a pass stores the number of characters: the length modifier, the bytes of its type, and the address. -/
def storeAt (args : ℕ → BitVec 32) (s : PfState) : Option (LengthT × ℕ × ℕ) :=
  match s.directive args with
  | some (spec, conv, _, arg) =>
    if conv = ch 'n' then spec.length.bytes.map (spec.length, ·, (args arg).toNat) else none
  | none => none

/-! ### One pass -/

/-- **What was counted**: everything that was written but `sign`. -/
def Counts (s : PfState) (sign : List UInt8) (p : Calls UInt8 PfState) : Prop :=
  sign.length ≤ p.output.length ∧
    ∀ s' ∈ p.result, s'.written + BitVec.ofNat 64 sign.length = s.written + BitVec.ofNat 64 p.output.length

theorem Puts.counts {g : PfState → Calls UInt8 PfState} {t : List UInt8} (h : Puts g t) (s₀ : PfState)
    (hs : s₀.written = s.written) : Counts s [] (g s₀) := by
  refine ⟨Nat.zero_le _, fun s' hs' => ?_⟩
  obtain ⟨hout, hres⟩ := h s₀
  rw [hres] at hs'
  obtain rfl := Option.some.inj hs'
  rw [hout, wrote_written, hs]
  simp

theorem Counts.fail (s : PfState) : Counts s [] .fail := ⟨Nat.zero_le _, fun _ h => nomatch h⟩

/-- Nothing is written. -/
theorem Counts.nothing {s₀ : PfState} (hs : s₀.written = s.written) : Counts s [] (pure s₀) := by
  refine ⟨Nat.zero_le _, fun s' hs' => ?_⟩
  obtain rfl := Option.some.inj hs'
  simp [hs]

theorem putFloat_counts (ops : FloatOps) (spec : PfSpec) (value : BitVec 64) {s₀ : PfState}
    (hs : s₀.written = s.written) : Counts s (floatSign ops spec value) (s₀.putFloat ops spec value) := by
  obtain ⟨hout, hres⟩ := putFloat_writes ops s₀ spec value
  refine ⟨?_, fun s' hs' => ?_⟩
  · rw [hout, List.length_append]
    omega
  · rw [hres] at hs'
    obtain rfl := Option.some.inj hs'
    rw [hout, List.length_append, BitVec.ofNat_add, wrote_written, hs, BitVec.add_assoc,
      BitVec.add_comm (BitVec.ofNat 64 (floatText ops spec value).length)]

/-- A conversion that is not one of a floating-point number. -/
theorem signOf_nil (h : conv ∉ floatConversions) : signOf args ops spec conv arg = [] := if_neg h

theorem convert_counts (begun : List UInt8) (spec : PfSpec) (conv : UInt8) (s : PfState) :
    Counts s (signOf args ops spec conv s.arg) (s.convert args ops begun spec conv) := by
  have hbad : ∀ s₀ : PfState, s₀.written = s.written → Counts s [] (s₀.badConv begun) := fun s₀ hs =>
    (puts_put [ch '%']).counts { s₀ with format := begun.tail, rejectedBadSpecifier := true } hs
  have hpad : ∀ (chunk : List UInt8) (length : ℕ) (s₀ : PfState), s₀.written = s.written →
      Counts s [] (s₀.putPadded spec chunk length) :=
        fun chunk length s₀ hs => (puts_padded spec chunk length).counts s₀ hs
  unfold convert
  by_cases hint : conv ∈ [ch 'd', ch 'i', ch 'o', ch 'u', ch 'x', ch 'X', ch 'p']
  · have hnot : conv ∉ floatConversions := by
      simp only [List.mem_cons, List.not_mem_nil, or_false] at hint
      rcases hint with rfl | rfl | rfl | rfl | rfl | rfl | rfl <;> decide
    rw [if_pos hint, signOf_nil hnot]
    cases intArg args spec conv s.arg with
    | none => exact hbad s rfl
    | some r => exact (puts_integer r.1).counts _ rfl
  rw [if_neg hint]
  by_cases hfloat : conv ∈ floatConversions
  · have hsign : signOf args ops spec conv s.arg = (floatValue args ops spec.length s.arg).elim []
      (floatSign ops spec) :=
      if_pos hfloat
    rw [if_pos (show conv ∈ [ch 'e', ch 'E', ch 'f', ch 'F', ch 'g', ch 'G', ch 'a', ch 'A'] from hfloat), hsign]
    unfold floatValue
    split_ifs
    · exact putFloat_counts ops spec _ rfl
    · exact putFloat_counts ops spec _ rfl
    · exact hbad s rfl
  rw [if_neg (show conv ∉ [ch 'e', ch 'E', ch 'f', ch 'F', ch 'g', ch 'G', ch 'a', ch 'A'] from hfloat),
    signOf_nil hfloat]
  split_ifs
  all_goals first
    | exact hpad _ _ _ rfl
    | exact hbad _ rfl
    | skip
  -- `n` writes nothing
  all_goals
    cases spec.length.bytes with
    | none => exact hbad _ rfl
    | some k => first
      | exact .fail s
      | exact .nothing rfl

/-- A pass that converts a specification. -/
theorem step_directive (h : s.directive args = some (spec, conv, rest, arg)) :
    s.step args ops = { s with format := rest, arg := arg }.convert args ops s.format spec conv := by
  unfold directive at h
  by_cases hc : s.format.head? = some (ch '%') ∧ s.format[1]? ≠ some (ch '%') ∧ s.rejectedBadSpecifier = false
  swap
  · rw [if_neg hc] at h
    cases h
  rw [if_pos hc] at h
  obtain ⟨h0, h1, h2⟩ := hc
  unfold step
  rw [if_neg (not_not.2 h0), if_neg h1, h2, if_neg (by simp)]
  generalize parseSpec args s.format.tail s.arg = o at h ⊢
  match o, h with
  | some (spec', conv' :: rest', arg'), h =>
    cases h
    rfl

/-- **What a pass counts.** -/
theorem step_counts (args : ℕ → BitVec 32) (ops : FloatOps) (s : PfState) :
    Counts s (s.signAt args ops) (s.step args ops) := by
  unfold signAt
  cases hspec : s.directive args with
  | some r =>
    obtain ⟨spec, conv, rest, arg⟩ := r
    rw [step_directive hspec]
    exact convert_counts s.format spec conv { s with format := rest, arg := arg }
  | none =>
    have hput : ∀ (s₀ : PfState) (chunk : List UInt8), s₀.written = s.written → Counts s [] (s₀.put chunk) :=
      fun s₀ chunk hs => (puts_put chunk).counts s₀ hs
    show Counts s [] _
    unfold step
    by_cases h0 : s.format.head? = some (ch '%')
    swap
    · -- the text in front of the next `%`
      rw [if_pos h0]
      simp only
      split_ifs
      · exact .nothing rfl
      · exact .fail s
      · exact hput _ _ rfl
    rw [if_neg (not_not.2 h0)]
    -- `%%` prints one `%`
    by_cases h1 : s.format[1]? = some (ch '%')
    · rw [if_pos h1]
      exact hput _ _ rfl
    rw [if_neg h1]
    -- what is no specifier is printed as it stands
    cases h2 : s.rejectedBadSpecifier with
    | true => exact hput { s with format := s.format.tail } _ rfl
    | false =>
      unfold directive at hspec
      rw [if_pos ⟨h0, h1, h2⟩] at hspec
      rw [if_neg Bool.false_ne_true]
      generalize parseSpec args s.format.tail s.arg = o at hspec ⊢
      match o, hspec with
      | none, _ => exact .fail s
      | some (_, [], arg), _ => exact hput ⟨s.format.tail, arg, s.mem, s.written, false⟩ _ rfl

/-! ### All passes -/

/-- The passes of at most `n` rounds of the loop, each with the state before it and what was written so far. -/
def passes (args : ℕ → BitVec 32) (ops : FloatOps) : ℕ → PfState → List UInt8 → List (PfState × List UInt8)
  | 0, _, _ => []
  | n + 1, s, out =>
    if s.format = [] then []
    else (s, out) :: (s.step args ops).result.elim [] fun s' => passes args ops n s' (out ++ (s.step args ops).output)

/-- The number of uncounted signs. -/
def signs (args : ℕ → BitVec 32) (ops : FloatOps) (l : List (PfState × List UInt8)) : ℕ :=
  (l.map fun x => (x.1.signAt args ops).length).sum

/-- A round that goes on. -/
theorem loop_step (hne : s.format ≠ []) (h : (loop args ops (n + 1) s).result = some f) :
    ∃ s', (s.step args ops).result = some s' ∧ (loop args ops n s').result = some f ∧
      (loop args ops (n + 1) s).output = (s.step args ops).output ++ (loop args ops n s').output ∧
      ∀ out, passes args ops (n + 1) s out = (s, out) :: passes args ops n s' (out ++ (s.step args ops).output) := by
  have hloop : loop args ops (n + 1) s = s.step args ops >>= loop args ops n := if_neg hne
  rw [hloop, Calls.result_bind] at h
  obtain ⟨s', hs', hf⟩ := Option.bind_eq_some_iff.1 h
  refine ⟨s', hs', hf, ?_, fun out => ?_⟩
  · rw [hloop, Calls.output_bind_of_result hs']
  · show (if s.format = [] then [] else _) = _
    rw [if_neg hne, hs']
    rfl

/-- At the end of the format. -/
theorem loop_end (args : ℕ → BitVec 32) (ops : FloatOps) (hn : n = 0 ∨ s.format = []) :
    loop args ops n s = pure s ∧ ∀ out, passes args ops n s out = [] := by
  cases n with
  | zero => exact ⟨rfl, fun _ => rfl⟩
  | succ n =>
    have hnil := hn.resolve_left (Nat.succ_ne_zero n)
    exact ⟨if_pos hnil, fun _ => if_pos hnil⟩

/-- Two counts, one behind the other. -/
theorem add_counts {v v' v'' a b c d : BitVec 64} (h : v' + a = v + c) (h' : v'' + b = v' + d) :
    v'' + (a + b) = v + (c + d) := by
  calc v'' + (a + b) = v'' + b + a := by rw [BitVec.add_assoc, BitVec.add_comm b]
    _ = v' + a + d := by rw [h', BitVec.add_assoc, BitVec.add_comm d, ← BitVec.add_assoc]
    _ = v + (c + d) := by rw [h, BitVec.add_assoc]

/-- **What a call counts**: all that it writes but the signs of floating-point conversions. -/
theorem loop_counts (h : (loop args ops n s).result = some f) (out : List UInt8) :
    signs args ops (passes args ops n s out) ≤ (loop args ops n s).output.length ∧
      f.written + BitVec.ofNat 64 (signs args ops (passes args ops n s out)) =
        s.written + BitVec.ofNat 64 (loop args ops n s).output.length := by
  induction n generalizing s out with
  | zero =>
    obtain rfl := Option.some.inj h
    exact ⟨le_rfl, rfl⟩
  | succ n ih =>
    by_cases hnil : s.format = []
    · -- the format is done
      obtain ⟨hloop, hp⟩ := loop_end args ops (n := n + 1) (.inr hnil)
      rw [hloop] at h ⊢
      obtain rfl := Option.some.inj h
      rw [hp]
      exact ⟨le_rfl, rfl⟩
    obtain ⟨s', hs', hf, hout, hp⟩ := loop_step hnil h
    obtain ⟨hle, hcount⟩ := ih hf (out ++ (s.step args ops).output)
    obtain ⟨hle', hcount'⟩ := step_counts args ops s
    have hone := hcount' s' hs'
    have hsum : signs args ops (passes args ops (n + 1) s out) = (s.signAt args ops).length +
        signs args ops (passes args ops n s' (out ++ (s.step args ops).output)) := by
      rw [hp]
      rfl
    rw [hsum, hout, List.length_append]
    refine ⟨by omega, ?_⟩
    rw [BitVec.ofNat_add, BitVec.ofNat_add]
    exact add_counts hone hcount

/-- In a call that returns, every pass goes on, and what was written before it is a part of the whole. -/
theorem passes_mem (h : (loop args ops n s).result = some f) {x : PfState × List UInt8}
    (hx : x ∈ passes args ops n s out) :
    (x.1.step args ops).result ≠ none ∧ x.2.length ≤ out.length + (loop args ops n s).output.length := by
  induction n generalizing s out with
  | zero => exact absurd hx List.not_mem_nil
  | succ n ih =>
    by_cases hnil : s.format = []
    · rw [(loop_end args ops (.inr hnil)).2] at hx
      exact absurd hx List.not_mem_nil
    obtain ⟨s', hs', hf, hout, hp⟩ := loop_step hnil h
    rw [hp] at hx
    rw [hout, List.length_append]
    rcases List.mem_cons.1 hx with rfl | hx
    · exact ⟨by rw [hs']; simp, Nat.le_add_right _ _⟩
    · obtain ⟨h1, h2⟩ := ih hf hx
      rw [List.length_append] at h2
      exact ⟨h1, by omega⟩

/-- Without such signs the count is right before every pass. -/
theorem passes_written (hs : s.written = BitVec.ofNat 64 out.length)
    (hsign : ∀ x ∈ passes args ops n s out, x.1.signAt args ops = []) {x : PfState × List UInt8}
    (hx : x ∈ passes args ops n s out) : x.1.written = BitVec.ofNat 64 x.2.length := by
  induction n generalizing s out with
  | zero => exact absurd hx List.not_mem_nil
  | succ n ih =>
    unfold passes at hx hsign
    by_cases hnil : s.format = []
    · rw [if_pos hnil] at hx
      exact absurd hx List.not_mem_nil
    rw [if_neg hnil] at hx hsign
    rcases List.mem_cons.1 hx with rfl | hx
    · exact hs
    · cases hres : (s.step args ops).result with
      | none =>
        rw [hres] at hx
        exact absurd hx List.not_mem_nil
      | some s' =>
        rw [hres] at hx hsign
        have hone := (step_counts args ops s).2 s' hres
        rw [hsign _ List.mem_cons_self] at hone
        refine ih ?_ (fun y hy => hsign y (List.mem_cons_of_mem _ hy)) hx
        rw [List.length_append, BitVec.ofNat_add, ← hs, ← hone]
        exact (BitVec.add_zero _).symm

/-! ### Stored numbers -/

theorem convert_n (h : spec.length.bytes = some k)
    (hres : (s.convert args ops begun spec (ch 'n')).result = some s') :
    s'.mem = store k s.mem (args s.arg).toNat s.written.toNat := by
  unfold convert at hres
  rw [if_neg (by decide), if_neg (by decide), if_neg (by decide), if_neg (by decide), if_pos rfl, h] at hres
  simp only at hres
  split_ifs at hres
  · cases hres
  · obtain rfl := Option.some.inj hres
    rfl

theorem step_store (h : s.storeAt args = some (length, k, a)) (hres : (s.step args ops).result = some s') :
    s'.mem = store k s.mem a s.written.toNat ∧ length.bytes = some k := by
  unfold storeAt at h
  cases hspec : s.directive args with
  | none =>
    rw [hspec] at h
    cases h
  | some r =>
    obtain ⟨spec, conv, rest, arg⟩ := r
    rw [hspec] at h
    simp only at h
    split_ifs at h with hc
    obtain ⟨k', hk, heq⟩ := Option.map_eq_some_iff.1 h
    obtain ⟨rfl, rfl, rfl⟩ : spec.length = length ∧ k' = k ∧ (args arg).toNat = a := by simpa using heq
    rw [step_directive hspec, hc] at hres
    exact ⟨convert_n hk hres, hk⟩

end PfState

/-- The number that the type of a length modifier reads from `k` bytes with the value `v`: `uintmax_t` and
`size_t` are unsigned. -/
def LengthT.stored (length : LengthT) (k v : ℕ) : ℤ :=
  if length = .intmaxT ∨ length = .sizeT ∨ v < 2 ^ (8 * k - 1) then v else v - 2 ^ (8 * k)

/-- **A pass of `n` stores** the number of characters that were written before it. -/
def StoresCount (args : ℕ → BitVec 32) (ops : FloatOps) (x : PfState × List UInt8) : Prop :=
  ∀ length k a, x.1.storeAt args = some (length, k, a) → ∀ s', (x.1.step args ops).result = some s' →
    length.stored k (load k s'.mem a) = x.2.length

/-- The number fits into the type that it is stored to. -/
def CountFits (args : ℕ → BitVec 32) (x : PfState × List UInt8) : Prop :=
  ∀ length k a, x.1.storeAt args = some (length, k, a) → x.2.length < 2 ^ (8 * k - 1)

/-- A type with a sign holds numbers below half of its range only. -/
theorem lt_of_stored {v m : ℕ} (hlen : length ≠ .intmaxT ∧ length ≠ .sizeT) (hv : v < 256 ^ k)
    (h : length.stored k v = m) : m < 2 ^ (8 * k - 1) := by
  have hpow : (256 : ℕ) ^ k = 2 ^ (8 * k) := by rw [pow_mul]; norm_num
  rw [hpow] at hv
  unfold LengthT.stored at h
  by_cases hlt : v < 2 ^ (8 * k - 1)
  · rw [if_pos (.inr (.inr hlt))] at h
    have : v = m := by exact_mod_cast h
    omega
  · rw [if_neg (by simp [hlen, hlt])] at h
    have hv' : (v : ℤ) < 2 ^ (8 * k) := by exact_mod_cast hv
    omega

theorem stored_of_lt {m : ℕ} (hm : m < 2 ^ (8 * k - 1)) : length.stored k m = m := if_pos (.inr (.inr hm))

theorem lt_of_half {m : ℕ} (hm : m < 2 ^ (8 * k - 1)) : m < 256 ^ k := by
  have hpow : (256 : ℕ) ^ k = 2 ^ (8 * k) := by rw [pow_mul]; norm_num
  rw [hpow]
  exact lt_of_lt_of_le hm (Nat.pow_le_pow_right (by norm_num) (Nat.sub_le _ _))

/-- The passes of a call. -/
def callPasses (args : ℕ → BitVec 32) (ops : FloatOps) (mem : ℕ → UInt8) (format : List UInt8) :
    List (PfState × List UInt8) :=
  PfState.passes args ops format.length ⟨format, 0, mem, 0, false⟩ []

/-- A call that returns. -/
theorem vcbprintf_returns (h : (vcbprintf args ops mem format).run Calls.accept [] = (some (r, mem'), S)) :
    ∃ f, (PfState.loop args ops format.length ⟨format, 0, mem, 0, false⟩).result = some f ∧
      (PfState.loop args ops format.length ⟨format, 0, mem, 0, false⟩).output = S ∧ f.written.toNat = r ∧
        r ≤ int32Max := by
  obtain ⟨hout, hres⟩ := Calls.writes_of_run h
  unfold vcbprintf at hres hout
  rw [Calls.result_bind] at hres
  obtain ⟨f, hf, hret⟩ := Option.bind_eq_some_iff.1 hres
  rw [Calls.output_bind_of_result hf] at hout
  split_ifs at hret hout with hmax
  · cases hret
  · have hr : (f.written.toNat, f.mem) = (r, mem') := Option.some.inj hret
    have hr' : f.written.toNat = r := congrArg Prod.fst hr
    refine ⟨f, hf, ?_, hr', by omega⟩
    rw [← hout]
    exact (List.append_nil _).symm

/-- **The returned number is that of the written characters**, and `n` stores the number of those before it, just when
no floating-point conversion prints a sign, what `n` stores fits into its type, and fewer than `2 ^ 64` characters are
written. -/
theorem vcbprintf_counts (h : (vcbprintf args ops mem format).run Calls.accept [] = (some (r, mem'), S)) :
    (r = S.length ∧ ∀ x ∈ callPasses args ops mem format, StoresCount args ops x) ↔
      (∀ x ∈ callPasses args ops mem format, x.1.signAt args ops = [] ∧ CountFits args x) ∧ S.length < 2 ^ 64 := by
  obtain ⟨f, hf, hS, hr, hmax⟩ := vcbprintf_returns h
  obtain ⟨hle, hcount⟩ := PfState.loop_counts hf []
  rw [hS] at hle hcount
  have hcount' : f.written + BitVec.ofNat 64 (PfState.signs args ops (callPasses args ops mem format)) =
      BitVec.ofNat 64 S.length := hcount.trans (BitVec.zero_add _)
  have hmax' : int32Max < 2 ^ 31 := by decide
  constructor
  · rintro ⟨hlen, hstores⟩
    have hwritten : f.written = BitVec.ofNat 64 S.length := by
      rw [← hlen, ← hr, BitVec.ofNat_toNat, BitVec.setWidth_eq]
    -- no sign was left out
    have hzero : PfState.signs args ops (callPasses args ops mem format) = 0 := by
      have h1 : BitVec.ofNat 64 (PfState.signs args ops (callPasses args ops mem format)) = 0 := by
        rw [hwritten] at hcount'
        exact BitVec.add_right_eq_self.1 hcount'
      have h2 := congrArg BitVec.toNat h1
      rw [BitVec.toNat_ofNat, Nat.mod_eq_of_lt (by unfold callPasses; omega)] at h2
      exact h2
    have hsigns : ∀ x ∈ callPasses args ops mem format, x.1.signAt args ops = [] := fun x hx =>
      List.length_eq_zero_iff.1 (List.sum_eq_zero_iff.1 hzero _ (List.mem_map_of_mem hx))
    refine ⟨fun x hx => ⟨hsigns x hx, fun length k a ha => ?_⟩, by omega⟩
    obtain ⟨hres, hle'⟩ := PfState.passes_mem hf hx
    obtain ⟨s', hs'⟩ := Option.ne_none_iff_exists'.1 hres
    have hval := hstores x hx length k a ha s' hs'
    by_cases hsigned : length ≠ .intmaxT ∧ length ≠ .sizeT
    · exact lt_of_stored hsigned load_lt hval
    · -- eight bytes
      have hk : k = 8 := by
        have hb := (PfState.step_store ha hs').2
        have h2 : length = .intmaxT ∨ length = .sizeT := by tauto
        rcases h2 with rfl | rfl <;> exact (Option.some.inj hb).symm
      rw [hS, List.length_nil, Nat.zero_add] at hle'
      rw [hk]
      have : (2 : ℕ) ^ 31 < 2 ^ (8 * 8 - 1) := by norm_num
      omega
  · rintro ⟨hall, hlt⟩
    have hzero : PfState.signs args ops (callPasses args ops mem format) = 0 := by
      refine List.sum_eq_zero fun y hy => ?_
      obtain ⟨x, hx, rfl⟩ := List.mem_map.1 hy
      rw [(hall x hx).1]
      rfl
    rw [hzero] at hcount'
    have hwritten : f.written = BitVec.ofNat 64 S.length := (BitVec.add_zero _).symm.trans hcount'
    refine ⟨?_, fun x hx length k a ha s' hs' => ?_⟩
    · rw [← hr, hwritten, BitVec.toNat_ofNat, Nat.mod_eq_of_lt hlt]
    · obtain ⟨-, hle'⟩ := PfState.passes_mem hf hx
      rw [hS, List.length_nil, Nat.zero_add] at hle'
      have hbefore := PfState.passes_written (s := ⟨format, 0, mem, 0, false⟩)
        (show (0 : BitVec 64) = BitVec.ofNat 64 ([] : List UInt8).length from rfl) (fun y hy => (hall y hy).1) hx
      obtain ⟨hmem, hb⟩ := PfState.step_store ha hs'
      have hfit := (hall x hx).2 length k a ha
      have hnum : x.1.written.toNat = x.2.length := by
        rw [hbefore, BitVec.toNat_ofNat, Nat.mod_eq_of_lt (by omega)]
      rw [hmem, hnum, load_store (lt_of_half hfit)]
      exact stored_of_lt hfit

/-- The words 7 and 100. -/
def countArgs : ℕ → BitVec 32 := fun i => if i = 0 then 7 else 100

/-- `"%d%n"` of 7 and the address 100. -/
theorem vcbprintf_counts_short :
    ((1 : ℕ) = [ch '7'].length ∧ ∀ x ∈ callPasses countArgs noFloat (fun _ => 0) [ch '%', ch 'd', ch '%', ch 'n'],
      StoresCount countArgs noFloat x) ↔
    (∀ x ∈ callPasses countArgs noFloat (fun _ => 0) [ch '%', ch 'd', ch '%', ch 'n'],
      x.1.signAt countArgs noFloat = [] ∧ CountFits countArgs x) ∧ [ch '7'].length < 2 ^ 64 :=
  vcbprintf_counts (show _ = (some (1, store 4 (fun _ => 0) 100 1), [ch '7']) from rfl)

/-- `"-1.000000"`. -/
def minusOne : List UInt8 := [ch '-', ch '1', ch '.', ch '0', ch '0', ch '0', ch '0', ch '0', ch '0']

/-- The floating-point operations on the number -1. -/
def minusOneOps : FloatOps := ⟨fun v => v.setWidth 64, fun v => v.msb, fun _ _ => minusOne⟩

/-- The words of the number -1. -/
def minusOneArgs : ℕ → BitVec 32 := fun i => if i = 1 then 0xBFF00000 else 0

/-- **`"%f"` of -1** writes ten characters, and returns 9. -/
theorem vcbprintf_float : (vcbprintf minusOneArgs minusOneOps (fun _ => 0) [ch '%', ch 'f']).run Calls.accept [] =
    (some (9, fun _ => 0), ch '-' :: minusOne) ∧ 9 ≠ (ch '-' :: minusOne).length :=
  ⟨rfl, by decide⟩

end Saynaa
