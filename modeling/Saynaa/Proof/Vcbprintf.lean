import Saynaa.Libc.Vcbprintf

/-!
# What the parts of `vcbprintf` write

* `Puts`: a part that writes a string and counts it. `puts_put`, `puts_pad`: a string and its padding.
* `puts_integer`, `puts_padded`, `putFloat_writes`: the conversions.
* `vcbprintf_checked`: every string is checked to be taken whole.
-/

namespace Saynaa

open Lib

variable {args : ℕ → BitVec 32} {ops : FloatOps} {s s' : PfState} {spec : PfSpec} {a : IntArg}
  {chunk begun : List UInt8} {c conv : UInt8} {n : ℕ}

/-- Operations for formats without floating-point conversions. -/
def noFloat : FloatOps := ⟨fun _ => 0, fun _ => false, fun _ _ => []⟩

namespace PfState

/-- The state after `n` counted characters. -/
def wrote (s : PfState) (n : ℕ) : PfState := { s with written := s.written + BitVec.ofNat 64 n }

@[simp] theorem wrote_format (s : PfState) (n : ℕ) : (s.wrote n).format = s.format := rfl
@[simp] theorem wrote_arg (s : PfState) (n : ℕ) : (s.wrote n).arg = s.arg := rfl
@[simp] theorem wrote_mem (s : PfState) (n : ℕ) : (s.wrote n).mem = s.mem := rfl
@[simp] theorem wrote_rejected (s : PfState) (n : ℕ) :
    (s.wrote n).rejectedBadSpecifier = s.rejectedBadSpecifier := rfl
@[simp] theorem wrote_written (s : PfState) (n : ℕ) : (s.wrote n).written = s.written + BitVec.ofNat 64 n := rfl

@[simp] theorem wrote_zero (s : PfState) : s.wrote 0 = s := by
  simp [wrote]

theorem wrote_wrote (s : PfState) (m n : ℕ) : (s.wrote m).wrote n = s.wrote (m + n) := by
  simp [wrote, BitVec.ofNat_add, BitVec.add_assoc]

/-! ### Writing -/

/-- A part of the function that writes a string and counts it. -/
def Puts (f : PfState → Calls UInt8 PfState) (text : List UInt8) : Prop :=
  ∀ s, (f s).Writes text (s.wrote text.length)

theorem Puts.bind {f g : PfState → Calls UInt8 PfState} {t t' : List UInt8} (hf : Puts f t) (hg : Puts g t') :
    Puts (fun s => f s >>= g) (t ++ t') := by
  intro s
  have h := (hf s).bind (hg (s.wrote t.length))
  rwa [wrote_wrote, ← List.length_append] at h

theorem puts_put (chunk : List UInt8) : Puts (put · chunk) chunk := by
  intro s
  have h := (Calls.Writes.emit chunk).bind (f := fun _ => pure (s.wrote chunk.length)) (.pure _)
  rwa [List.append_nil] at h

theorem puts_pure : Puts pure [] := by
  intro s
  rw [List.length_nil, wrote_zero]
  exact .pure s

theorem puts_nonempty (chunk : List UInt8) : Puts (putNonempty · chunk) chunk := by
  intro s
  show (if chunk = [] then pure s else s.put chunk).Writes _ _
  split_ifs with h
  · subst h
    exact puts_pure s
  · exact puts_put chunk s

theorem puts_pad (c : UInt8) (n : ℕ) : Puts (pad c n) (List.replicate n c) := by
  induction n with
  | zero => exact puts_pure
  | succ n ih => exact (puts_put [c]).bind ih

/-- The text of an integer conversion. -/
def integerText (a : IntArg) : List UInt8 :=
  List.replicate (if a.useLeftPad then a.spec.absFieldWidth - a.lengthWithPrecision else 0) (ch ' ') ++ (a.pre ++
    (List.replicate (if a.useZeroPad then a.spec.absFieldWidth - a.normalLength else 0) (ch '0') ++
      (List.replicate (if a.usePrecision then a.spec.precision - a.normalLength else 0) (ch '0') ++ (a.output ++
        List.replicate (if a.useRightPad then a.spec.absFieldWidth - a.lengthWithPrecision else 0) (ch ' ')))))

theorem puts_integer (a : IntArg) : Puts (putInteger · a) (integerText a) :=
  (puts_pad _ _).bind <| (puts_nonempty _).bind <| (puts_pad _ _).bind <| (puts_pad _ _).bind <|
    (puts_nonempty _).bind (puts_pad _ _)

/-- A string with blanks on one side; `length` is what counts for the field width. -/
def paddedText (spec : PfSpec) (chunk : List UInt8) (length : ℕ) : List UInt8 :=
  List.replicate (if spec.fieldWidthIsNegative then 0 else spec.absFieldWidth - length) (ch ' ') ++ (chunk ++
    List.replicate (if spec.fieldWidthIsNegative then spec.absFieldWidth - length else 0) (ch ' '))

theorem puts_padded (spec : PfSpec) (chunk : List UInt8) (length : ℕ) :
    Puts (putPadded · spec chunk length) (paddedText spec chunk length) :=
  (puts_pad _ _).bind <| (puts_put chunk).bind (puts_pad _ _)

/-- The sign of a floating-point conversion. -/
def floatSign (ops : FloatOps) (spec : PfSpec) (value : BitVec 64) : List UInt8 :=
  if ops.isNegative value ∨ spec.prependPlus ∨ spec.prependBlank then
    [if ops.isNegative value then ch '-' else if spec.prependPlus then ch '+' else ch ' ']
  else []

/-- What follows it. -/
def floatText (ops : FloatOps) (spec : PfSpec) (value : BitVec 64) : List UInt8 :=
  let buffer := ops.convertFloat value (if spec.precision = sizeMax then 6 else spec.precision)
  paddedText spec buffer (buffer.length + (floatSign ops spec value).length)

/-- **The sign is not counted.** -/
theorem putFloat_writes (ops : FloatOps) (s : PfState) (spec : PfSpec) (value : BitVec 64) :
    (s.putFloat ops spec value).Writes (floatSign ops spec value ++ floatText ops spec value)
      (s.wrote (floatText ops spec value).length) := by
  unfold putFloat floatText floatSign
  simp only
  split_ifs
  all_goals first
    | exact (Calls.Writes.emit _).bind (puts_padded spec _ _ s)
    | exact puts_padded spec _ _ s

/-! ### Checks -/

theorem put_checked (s : PfState) (chunk : List UInt8) : (s.put chunk).Checked :=
  Calls.checked_bind (Calls.checked_emit chunk) fun _ => trivial

theorem putNonempty_checked (s : PfState) (chunk : List UInt8) : (s.putNonempty chunk).Checked := by
  unfold putNonempty
  split_ifs
  · trivial
  · exact s.put_checked chunk

theorem pad_checked (c : UInt8) (n : ℕ) (s : PfState) : (s.pad c n).Checked := by
  induction n generalizing s with
  | zero => trivial
  | succ n ih => exact Calls.checked_bind (s.put_checked [c]) ih

theorem putInteger_checked (s : PfState) (a : IntArg) : (s.putInteger a).Checked := by
  refine Calls.checked_bind (pad_checked _ _ s) fun s => ?_
  refine Calls.checked_bind (putNonempty_checked s _) fun s => ?_
  refine Calls.checked_bind (pad_checked _ _ s) fun s => ?_
  refine Calls.checked_bind (pad_checked _ _ s) fun s => ?_
  refine Calls.checked_bind (putNonempty_checked s _) fun s => ?_
  exact pad_checked _ _ s

theorem putPadded_checked (s : PfState) (spec : PfSpec) (chunk : List UInt8) (length : ℕ) :
    (s.putPadded spec chunk length).Checked := by
  refine Calls.checked_bind (pad_checked _ _ s) fun s => ?_
  exact Calls.checked_bind (s.put_checked chunk) fun s => pad_checked _ _ s

theorem putFloat_checked (ops : FloatOps) (s : PfState) (spec : PfSpec) (value : BitVec 64) :
    (s.putFloat ops spec value).Checked := by
  unfold putFloat
  by_cases h : ops.isNegative value ∨ spec.prependPlus ∨ spec.prependBlank
  · simp only [if_pos h]
    exact Calls.checked_bind (Calls.checked_emit _) fun _ => putPadded_checked s spec _ _
  · simp only [if_neg h]
    exact putPadded_checked s spec _ _

theorem convert_checked (begun : List UInt8) (spec : PfSpec) (conv : UInt8) (s : PfState) :
    (s.convert args ops begun spec conv).Checked := by
  unfold convert
  split_ifs
  · cases intArg args spec conv s.arg with
    | none => exact put_checked _ _
    | some r => exact putInteger_checked _ _
  all_goals first
    | exact putFloat_checked ..
    | exact putPadded_checked ..
    | exact put_checked ..
    | skip
  -- what `n` stores
  all_goals
    cases spec.length.bytes with
    | none => exact put_checked _ _
    | some k => trivial

theorem step_checked (s : PfState) : (s.step args ops).Checked := by
  unfold step
  simp only
  split_ifs
  · trivial
  · trivial
  · exact put_checked _ _
  · exact put_checked _ _
  · exact put_checked _ _
  · cases parseSpec args s.format.tail s.arg with
    | none => trivial
    | some r =>
      obtain ⟨spec, format, arg⟩ := r
      cases format with
      | nil => exact put_checked _ _
      | cons conv rest => exact convert_checked _ _ _ _

theorem loop_checked (n : ℕ) (s : PfState) : (loop args ops n s).Checked := by
  induction n generalizing s with
  | zero => trivial
  | succ n ih =>
    unfold loop
    split_ifs
    · trivial
    · exact Calls.checked_bind s.step_checked ih

end PfState

/-- **Every string that is not taken whole** ends the function. -/
theorem vcbprintf_checked (args : ℕ → BitVec 32) (ops : FloatOps) (mem : ℕ → UInt8) (format : List UInt8) :
    (vcbprintf args ops mem format).Checked := by
  refine Calls.checked_bind (PfState.loop_checked _ _) fun s => ?_
  split_ifs <;> trivial

end Saynaa
