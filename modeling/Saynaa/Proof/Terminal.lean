import Saynaa.User.Terminal

/-!
# The output of the terminal

* `TextIs`: the buffer holds a text.
* `TermAct`, `acts`: what the bytes of one call do to the text. `appendOutput_ok`: so does `append_output`.
* `counts`: how many characters are left of the text, and how many are new.
* `output_split`: two calls leave the text of one, unless they part a carriage return from its newline.
-/

namespace Saynaa

open Lib TextBuf

variable {realloc : TextBuf → ℕ → Option (ℕ → UInt8)} {s : TextBuf} {T P X a b l : List UInt8} {c : UInt8}
  {next : Option UInt8} {n o p needed cap : ℕ}

/-- **The buffer holds the text**, with room for its terminator. -/
structure TextIs (s : TextBuf) (T : List UInt8) : Prop where
  str : CStr s.buf 0 T
  len : s.len = T.length
  room : T.length < s.bufLen
  size : s.bufLen < 2 ^ 32

/-- There is memory: `realloc` gives a block with the old contents. -/
def ReallocOK (realloc : TextBuf → ℕ → Option (ℕ → UInt8)) : Prop :=
  ∀ s n, ∃ buf, realloc s n = some buf ∧ ∀ i, i < s.bufLen → i < n → buf i = s.buf i

/-! ### The buffer -/

theorem strPopLast_ok (h : TextIs s T) : TextIs s.strPopLast T.dropLast := by
  unfold strPopLast
  split_ifs with hlen
  · have hT : T = [] := List.eq_nil_of_length_eq_zero (h.len ▸ hlen)
    subst hT
    exact h
  · have hT : T ≠ [] := by
      rintro rfl
      exact hlen h.len
    have hpos := List.length_pos_iff.2 hT
    have hlast : T.dropLast.length = s.len - 1 := by rw [List.length_dropLast, h.len]
    have hsplit : CStr s.buf 0 (T.dropLast ++ [T.getLast hT]) := by
      rw [List.dropLast_concat_getLast]
      exact h.str
    refine ⟨hsplit.take (fun i _ hi => Function.update_of_ne ?_ _ _) ?_, hlast.symm, ?_, h.size⟩
    · omega
    · rw [zero_add, hlast]
      exact Function.update_self ..
    · have hroom := h.room
      rw [List.length_dropLast]
      show T.length - 1 < s.bufLen
      omega

theorem growCap_ok (passes : ℕ) (hcap : cap < 2 ^ 32) (hneeded : needed ≤ 2 ^ 31) (h : needed ≤ cap * 2 ^ passes) :
    ∃ c, growCap needed (passes + 1) cap = some c ∧ needed ≤ c ∧ cap ≤ c ∧ c < 2 ^ 32 := by
  induction passes generalizing cap with
  | zero =>
    rw [pow_zero, mul_one] at h
    exact ⟨cap, if_neg (not_lt.2 h), h, le_rfl, hcap⟩
  | succ passes ih =>
    unfold growCap
    split_ifs with hlt
    · have hdouble : cap * 2 % 2 ^ 32 = cap * 2 := Nat.mod_eq_of_lt (by omega)
      obtain ⟨c, hc, h1, h2, h3⟩ := ih (show cap * 2 < 2 ^ 32 by omega) (by rw [pow_succ] at h; linarith)
      rw [hdouble]
      exact ⟨c, hc, h1, by omega, h3⟩
    · exact ⟨cap, rfl, not_lt.1 hlt, le_rfl, hcap⟩

theorem strPut_ok (h : TextIs s T) (hl : ∀ c ∈ l, c ≠ 0) (hroom : T.length + l.length < s.bufLen) :
    TextIs (s.put l (T.length + l.length + 1)) (T ++ l) := by
  have hsize := h.size
  refine ⟨?_, ?_, by rw [List.length_append]; exact hroom, hsize⟩
  · have happ := h.str.append hl
    rw [zero_add, ← h.len] at happ
    exact happ
  · show sub32 (T.length + l.length + 1) 1 = _
    rw [sub32_of_le (by omega) (by omega), List.length_append]
    rfl

/-- **`str_append`** with memory. -/
theorem strAppend_ok (hr : ReallocOK realloc) (h : TextIs s T) (hl : ∀ c ∈ l, c ≠ 0)
    (hmem : T.length + l.length < 2 ^ 31) :
    ∃ s', s.strAppend realloc l = some (true, s') ∧ TextIs s' (T ++ l) := by
  have hneeded : add32 (add32 l.length s.len) 1 = T.length + l.length + 1 := by
    have hsum : add32 l.length T.length = l.length + T.length := add32_of_lt (by omega)
    rw [h.len, hsum, add32_of_lt (by omega)]
    omega
  have hroom := h.room
  have hcap : (if s.bufLen ≠ 0 then s.bufLen else 128) = s.bufLen := if_pos (by omega)
  unfold strAppend
  simp only
  rw [hneeded, hcap]
  by_cases hgt : T.length + l.length + 1 > s.bufLen
  · rw [if_pos hgt]
    obtain ⟨newCap, hgrow, h1, h2, h3⟩ := growCap_ok 32 h.size (show T.length + l.length + 1 ≤ 2 ^ 31 by omega)
      (by omega)
    obtain ⟨buf, hbuf, hold⟩ := hr s newCap
    rw [hgrow, Option.map_some, hbuf]
    have hmoved : TextIs { s with buf := buf, bufLen := newCap } T :=
      ⟨h.str.congr fun i _ hi => hold i (by omega) (by omega), h.len, by show T.length < newCap; omega, h3⟩
    exact ⟨_, rfl, strPut_ok hmoved hl (by show _ < newCap; omega)⟩
  · rw [if_neg hgt]
    exact ⟨_, rfl, strPut_ok h hl (by omega)⟩

/-! ### What bytes do -/

/-- What a byte does to the text. -/
inductive TermAct where
  | clear
  | pop
  | push (l : List UInt8)

def TermAct.on (T : List UInt8) : TermAct → List UInt8
  | .clear => []
  | .pop => T.dropLast
  | .push l => T ++ l

/-- What a byte does if another follows in the same call. -/
def termAct (c : UInt8) (next : Option UInt8) : TermAct :=
  if c = byteFf then .clear
  else if c = byteCr ∧ next = some byteNl then .push []
  else if c = byteCr then .push [byteNl]
  else if c = byteBs then .pop
  else if c = byteTab then .push [byteSpace, byteSpace, byteSpace, byteSpace]
  else if charInt c < charInt byteSpace ∧ c ≠ byteNl then .push []
  else .push [c]

/-- The bytes of a call, with what follows them in it. -/
def actsBefore (next : Option UInt8) : List UInt8 → List TermAct
  | [] => []
  | c :: l => termAct c (l.head? <|> next) :: actsBefore next l

/-- The bytes of a whole call. -/
def acts (l : List UInt8) : List TermAct := actsBefore none l

theorem actsBefore_append (next : Option UInt8) (a b : List UInt8) :
    actsBefore next (a ++ b) = actsBefore (b.head? <|> next) a ++ actsBefore next b := by
  induction a with
  | nil => rfl
  | cons c a ih =>
    show termAct c ((a ++ b).head? <|> next) :: actsBefore next (a ++ b) = _
    rw [ih]
    cases a <;> rfl

/-- Only a carriage return looks ahead. -/
theorem termAct_next (h : ¬ (c = byteCr ∧ next = some byteNl)) : termAct c next = termAct c none := by
  unfold termAct
  rw [if_neg h, if_neg fun h' : c = byteCr ∧ none = some byteNl => (nomatch h'.2)]

theorem actsBefore_next (h : ¬ (l.getLast? = some byteCr ∧ next = some byteNl)) : actsBefore next l = acts l := by
  induction l with
  | nil => rfl
  | cons c l ih =>
    unfold acts actsBefore
    cases l with
    | nil => exact congrArg (· :: []) (termAct_next fun hc => h ⟨congrArg some hc.1, hc.2⟩)
    | cons d l => exact congrArg (termAct c (some d) :: ·) (ih (by rwa [List.getLast?_cons_cons] at h))

theorem blanks_ok (hr : ReallocOK realloc) (h : TextIs s T) {k : ℕ} (hmem : T.length + k < 2 ^ 31) (changed : Bool) :
    ∃ r s', appendBlanks realloc k (changed, s) = some (r, s') ∧ TextIs s' (T ++ List.replicate k byteSpace) := by
  induction k generalizing s T changed with
  | zero => exact ⟨changed, s, rfl, by rwa [List.replicate_zero, List.append_nil]⟩
  | succ k ih =>
    obtain ⟨s1, h1, ht1⟩ := strAppend_ok hr h (l := [byteSpace]) (by simp; decide) (by simp; omega)
    obtain ⟨r, s2, h2, ht2⟩ := ih ht1 (by simp; omega) (changed || true)
    refine ⟨r, s2, ?_, ?_⟩
    · show (s.strAppend realloc [byteSpace]).bind _ = _
      rw [h1]
      exact h2
    · rwa [List.append_assoc] at ht2

/-- The length of a text grows by at most four for each byte. -/
theorem length_on (T : List UInt8) (c : UInt8) (next : Option UInt8) :
    ((termAct c next).on T).length ≤ T.length + 4 := by
  unfold termAct TermAct.on
  split_ifs <;> simp
  omega

/-- **A pass** does to the text what its byte does. -/
theorem appendByte_ok (hr : ReallocOK realloc) (h : TextIs s T) (hmem : T.length + 4 < 2 ^ 31) (c : UInt8)
    (next : Option UInt8) (changed : Bool) : ∃ r s', appendByte realloc c next changed s = some (r, s') ∧
    TextIs s' ((termAct c next).on T) := by
  unfold appendByte termAct
  by_cases hff : c = byteFf
  · rw [if_pos hff, if_pos hff]
    have hroom := h.room
    refine ⟨_, _, rfl, ?_, rfl, by show 0 < s.bufLen; omega, h.size⟩
    show (if s.bufLen > 0 then Function.update s.buf 0 0 else s.buf) 0 = 0
    rw [if_pos (by omega)]
    exact Function.update_self ..
  rw [if_neg hff, if_neg hff]
  by_cases hcrlf : c = byteCr ∧ next = some byteNl
  · rw [if_pos hcrlf, if_pos hcrlf]
    exact ⟨changed, s, rfl, by rwa [TermAct.on, List.append_nil]⟩
  rw [if_neg hcrlf, if_neg hcrlf]
  by_cases hcr : c = byteCr
  · -- printed as a newline
    obtain ⟨s1, h1, ht1⟩ := strAppend_ok hr h (l := [byteNl]) (by simp; decide) (by simp; omega)
    rw [if_pos hcr]
    simp only [if_pos hcr]
    rw [if_neg (by decide), if_neg (by decide), if_neg (by decide), h1]
    exact ⟨_, s1, rfl, ht1⟩
  simp only [if_neg hcr]
  by_cases hbs : c = byteBs
  · rw [if_pos hbs, if_pos hbs]
    exact ⟨true, _, rfl, strPopLast_ok h⟩
  rw [if_neg hbs, if_neg hbs]
  by_cases htab : c = byteTab
  · rw [if_pos htab, if_pos htab]
    exact blanks_ok hr h hmem changed
  rw [if_neg htab, if_neg htab]
  by_cases hctl : charInt c < charInt byteSpace ∧ c ≠ byteNl
  · rw [if_pos hctl, if_pos hctl]
    exact ⟨changed, s, rfl, by rwa [TermAct.on, List.append_nil]⟩
  rw [if_neg hctl, if_neg hctl]
  have hc : ∀ d ∈ [c], d ≠ 0 := by
    intro d hd
    obtain rfl := List.mem_singleton.1 hd
    rintro rfl
    exact hctl (by decide)
  obtain ⟨s1, h1, ht1⟩ := strAppend_ok hr h hc (by simp; omega)
  rw [h1]
  exact ⟨_, s1, rfl, ht1⟩

/-- **`append_output`** does to the text what its bytes do. -/
theorem appendOutput_ok (hr : ReallocOK realloc) (h : TextIs s T) (hmem : T.length + 4 * l.length < 2 ^ 31)
    (changed : Bool) :
    ∃ r s', appendOutput realloc l (changed, s) = some (r, s') ∧ TextIs s' ((acts l).foldl TermAct.on T) := by
  induction l generalizing s T changed with
  | nil => exact ⟨changed, s, rfl, h⟩
  | cons c l ih =>
    rw [List.length_cons] at hmem
    obtain ⟨r1, s1, h1, ht1⟩ := appendByte_ok hr h (by omega) c l.head? changed
    have hlen := length_on T c l.head?
    obtain ⟨r2, s2, h2, ht2⟩ := ih ht1 (by omega) r1
    refine ⟨r2, s2, ?_, ?_⟩
    · show (appendByte realloc c l.head? changed s).bind _ = _
      rw [h1]
      exact h2
    · have hhead : (l.head? <|> none) = l.head? := by cases l <;> rfl
      show TextIs s2 ((actsBefore none l).foldl TermAct.on ((termAct c (l.head? <|> none)).on T))
      rw [hhead]
      exact ht2

/-! ### What is left of a text -/

/-- The characters of an old text that are left, and the new ones behind them. -/
def TermAct.count (r : ℕ × ℕ) : TermAct → ℕ × ℕ
  | .clear => (0, 0)
  | .pop => if r.2 = 0 then (r.1 - 1, 0) else (r.1, r.2 - 1)
  | .push l => (r.1, r.2 + l.length)

def counts (as : List TermAct) (r : ℕ × ℕ) : ℕ × ℕ := as.foldl TermAct.count r

/-- The length of a text of `n` characters after the bytes `l`. -/
def lengthAfter (n : ℕ) (l : List UInt8) : ℕ := (counts (acts l) (n, 0)).1 + (counts (acts l) (n, 0)).2

/-- The bytes `l` rub out a text of `n` characters. -/
def RubsOut (n : ℕ) (l : List UInt8) : Prop := (counts (acts l) (n, 0)).1 = 0

/-- **The condition**: the calls do not part a carriage return from its newline, or what follows
rubs out the text with both. -/
def SplitFits (n : ℕ) (a b : List UInt8) : Prop :=
  ¬ (a.getLast? = some byteCr ∧ b.head? = some byteNl) ∨ RubsOut (lengthAfter n a.dropLast + 2) b.tail

/-- **What the bytes leave**: the beginning of the old text, and what they make of the new one. -/
theorem acts_on (as : List TermAct) (X P : List UInt8) (ho : o ≤ X.length) :
    as.foldl TermAct.on (X.take o ++ P) = X.take (counts as (o, P.length)).1 ++ as.foldl TermAct.on P ∧
      (as.foldl TermAct.on P).length = (counts as (o, P.length)).2 ∧ (counts as (o, P.length)).1 ≤ o := by
  induction as generalizing o P with
  | nil => exact ⟨rfl, rfl, le_rfl⟩
  | cons act as ih =>
    unfold counts
    rw [List.foldl_cons, List.foldl_cons, List.foldl_cons]
    cases act with
    -- the text is cleared
    | clear =>
      have h := ih [] (Nat.zero_le X.length)
      rw [List.take_zero] at h
      exact ⟨h.1, h.2.1, h.2.2.trans (Nat.zero_le o)⟩
    -- a piece of text
    | push l =>
      have h := ih (P ++ l) ho
      rw [List.length_append, ← List.append_assoc] at h
      exact h
    | pop =>
      by_cases hP : P = []
      · -- the character is taken from the text before
        subst hP
        have h := ih [] ((Nat.sub_le o 1).trans ho)
        have hdrop : (X.take o ++ []).dropLast = X.take (o - 1) ++ [] := by
          rw [List.append_nil, List.append_nil, List.dropLast_eq_take, List.take_take, List.length_take,
            min_eq_left ho, min_eq_left (Nat.sub_le o 1)]
        exact ⟨(congrArg (as.foldl TermAct.on) hdrop).trans h.1, h.2.1, h.2.2.trans (Nat.sub_le o 1)⟩
      · -- the character is one of the new ones
        have h := ih P.dropLast ho
        have hlen : P.length ≠ 0 := fun h0 => hP (List.eq_nil_of_length_eq_zero h0)
        have hcount : TermAct.count (o, P.length) .pop = (o, P.dropLast.length) := by
          rw [List.length_dropLast]
          exact if_neg hlen
        have hdrop : (X.take o ++ P).dropLast = X.take o ++ P.dropLast := List.dropLast_append_of_ne_nil hP
        rw [hcount]
        exact ⟨by show as.foldl TermAct.on (X.take o ++ P).dropLast = _; rw [hdrop]; exact h.1, h.2⟩

/-- One character more. -/
theorem counts_succ (as : List TermAct) (n p : ℕ) :
    (counts as (n + 1, p)).1 = (counts as (n, p)).1 + 1 ∨ (counts as (n + 1, p)).1 = 0 ∧
      (counts as (n, p)).1 = 0 := by
  have hsame : ∀ (as : List TermAct) (p : ℕ), (counts as (0, p)).1 = 0 := by
    intro as
    induction as with
    | nil => exact fun _ => rfl
    | cons act as ih =>
      intro p
      cases act with
      | clear => exact ih 0
      | push l => exact ih (p + l.length)
      | pop =>
        show (counts as (if p = 0 then (0 - 1, 0) else (0, p - 1))).1 = 0
        split_ifs
        · exact ih 0
        · exact ih (p - 1)
  induction as generalizing n p with
  | nil => exact .inl rfl
  | cons act as ih =>
    cases act with
    | clear => exact .inr ⟨hsame as 0, hsame as 0⟩
    | push l => exact ih n (p + l.length)
    | pop =>
      show (counts as (if p = 0 then (n + 1 - 1, 0) else (n + 1, p - 1))).1 =
        (counts as (if p = 0 then (n - 1, 0) else (n, p - 1))).1 + 1 ∨
        (counts as (if p = 0 then (n + 1 - 1, 0) else (n + 1, p - 1))).1 = 0 ∧
          (counts as (if p = 0 then (n - 1, 0) else (n, p - 1))).1 = 0
      split_ifs with hp
      · cases n with
        | zero => exact .inr ⟨hsame as 0, hsame as 0⟩
        | succ n => exact ih n 0
      · exact ih n (p - 1)

theorem lengthAfter_eq (T l : List UInt8) : ((acts l).foldl TermAct.on T).length = lengthAfter T.length l := by
  obtain ⟨h1, h2, h3⟩ := acts_on (acts l) T [] (le_refl T.length)
  rw [List.take_length, List.append_nil, List.length_nil] at h1
  rw [List.length_nil] at h2 h3
  rw [h1, List.length_append, List.length_take, h2, min_eq_left h3]
  rfl

/-- A character more before the bytes shows, unless they rub it out. -/
theorem acts_extra (as : List TermAct) (X : List UInt8) (c : UInt8) :
    as.foldl TermAct.on (X ++ [c]) = as.foldl TermAct.on X ↔ (counts as (X.length + 1, 0)).1 = 0 := by
  have h1 := acts_on as (X ++ [c]) [] (le_refl (X ++ [c]).length)
  have h2 := acts_on as X [] (le_refl X.length)
  rw [List.take_length, List.append_nil, List.length_nil] at h1 h2
  rw [List.length_append, List.length_singleton] at h1
  rw [h1.1, h2.1, List.append_left_inj]
  rcases counts_succ as X.length 0 with h | ⟨h, h'⟩
  · refine iff_of_false (fun heq => ?_) (by omega)
    have hlen := congrArg List.length heq
    rw [List.length_take, List.length_take, List.length_append, List.length_singleton] at hlen
    omega
  · rw [h, h']
    exact iff_of_true (by rw [List.take_zero, List.take_zero]) rfl

/-- **Bytes in one call and in two.** -/
theorem acts_split (T a b : List UInt8) :
    (acts (a ++ b)).foldl TermAct.on T = (acts b).foldl TermAct.on ((acts a).foldl TermAct.on T) ↔
      SplitFits T.length a b := by
  unfold SplitFits
  rw [show acts (a ++ b) = actsBefore b.head? a ++ acts b by
    unfold acts
    rw [actsBefore_append]
    cases b <;> rfl, List.foldl_append]
  by_cases hparts : a.getLast? = some byteCr ∧ b.head? = some byteNl
  · obtain ⟨ha, hb⟩ := hparts
    obtain ⟨a', rfl⟩ := List.getLast?_eq_some_iff.1 ha
    obtain ⟨b', rfl⟩ : ∃ b', b = byteNl :: b' := by
      cases b with
      | nil => cases hb
      | cons d b' => exact ⟨b', by rw [Option.some.inj hb]⟩
    -- both print a newline for the newline, and the second call begins behind one more
    have hbefore : ∀ next, actsBefore next (a' ++ [byteCr]) = acts a' ++ [termAct byteCr next] := by
      intro next
      rw [actsBefore_append, show actsBefore (([byteCr] : List UInt8).head? <|> next) a' = acts a' from
        actsBefore_next fun h => absurd (Option.some.inj h.2) (by decide)]
      rfl
    have hnl : ∀ X, (acts (byteNl :: b')).foldl TermAct.on X = (acts b').foldl TermAct.on (X ++ [byteNl]) :=
      fun X => rfl
    have hcrlf : ∀ X, (termAct byteCr (some byteNl)).on X = X := fun X => List.append_nil X
    have hcr : ∀ X, (termAct byteCr none).on X = X ++ [byteNl] := fun X => rfl
    have hlen := lengthAfter_eq T a'
    have hcall : acts (a' ++ [byteCr]) = acts a' ++ [termAct byteCr none] := hbefore none
    rw [show (byteNl :: b').head? = some byteNl from rfl, hbefore, hcall, List.foldl_append, List.foldl_append]
    generalize (acts a').foldl TermAct.on T = Y at hlen ⊢
    rw [List.foldl_cons, List.foldl_nil, List.foldl_cons, List.foldl_nil, hcrlf, hcr, hnl, hnl, eq_comm, acts_extra,
      List.length_append, hlen, List.dropLast_concat]
    exact (or_iff_right (not_not.2 ⟨ha, rfl⟩)).symm
  · rw [actsBefore_next hparts]
    exact iff_of_true rfl (.inl hparts)

/-! ### Two calls and one -/

/-- **Output in two calls** leaves the text of one call, exactly if the calls fit together. -/
theorem output_split (hr : ReallocOK realloc) (hs : TextIs s T)
    (hmem : T.length + 4 * (a.length + b.length) < 2 ^ 31) :
    ∃ r₁ s₁ r₂ s₂ r₃ s₃,
      appendOutput realloc a (false, s) = some (r₁, s₁) ∧ appendOutput realloc b (false, s₁) = some (r₂, s₂) ∧
      appendOutput realloc (a ++ b) (false, s) = some (r₃, s₃) ∧
      ((∃ T', TextIs s₂ T' ∧ TextIs s₃ T') ↔ SplitFits T.length a b) := by
  have hgrow : ∀ (l X : List UInt8), ((acts l).foldl TermAct.on X).length ≤ X.length + 4 * l.length := by
    intro l
    induction l with
    | nil => exact fun X => le_rfl
    | cons c l ih =>
      intro X
      have h1 := ih ((termAct c (l.head? <|> none)).on X)
      have h2 := length_on X c (l.head? <|> none)
      show ((acts l).foldl TermAct.on ((termAct c (l.head? <|> none)).on X)).length ≤ _
      rw [List.length_cons]
      omega
  obtain ⟨r₁, s₁, h₁, ht₁⟩ := appendOutput_ok hr hs (l := a) (by omega) false
  obtain ⟨r₂, s₂, h₂, ht₂⟩ := appendOutput_ok hr ht₁ (l := b) (by have := hgrow a T; omega) false
  obtain ⟨r₃, s₃, h₃, ht₃⟩ := appendOutput_ok hr hs (l := a ++ b) (by rw [List.length_append]; omega) false
  refine ⟨r₁, s₁, r₂, s₂, r₃, s₃, h₁, h₂, h₃, ?_⟩
  rw [← acts_split]
  constructor
  · rintro ⟨T', h, h'⟩
    exact (ht₃.str.unique h'.str).trans (h.str.unique ht₂.str)
  · intro heq
    exact ⟨_, ht₂, heq ▸ ht₃⟩

/-- A `realloc` that always finds memory. -/
def amplyRealloc : TextBuf → ℕ → Option (ℕ → UInt8) := fun s _ => some s.buf

/-- The empty text. -/
def noText : TextBuf := ⟨fun _ => 0, 1, 0⟩

theorem noText_is : TextIs noText [] := ⟨rfl, rfl, by decide, by decide⟩

theorem output_split_two : ∃ r₁ s₁ r₂ s₂ r₃ s₃, appendOutput amplyRealloc [97] (false, noText) = some (r₁, s₁) ∧
    appendOutput amplyRealloc [98] (false, s₁) = some (r₂, s₂) ∧
    appendOutput amplyRealloc [97, 98] (false, noText) = some (r₃, s₃) ∧
    ((∃ T', TextIs s₂ T' ∧ TextIs s₃ T') ↔ SplitFits 0 [97] [98]) :=
  output_split (fun s _ => ⟨s.buf, rfl, fun _ _ _ => rfl⟩) noText_is (by decide)

/-- **A carriage return and its newline in two reads** make two newlines. -/
theorem output_parted : ∃ r₁ s₁ r₂ s₂ r₃ s₃, appendOutput amplyRealloc [byteCr] (false, noText) = some (r₁, s₁) ∧
    appendOutput amplyRealloc [byteNl] (false, s₁) = some (r₂, s₂) ∧
    appendOutput amplyRealloc [byteCr, byteNl] (false, noText) = some (r₃, s₃) ∧ s₂.len = 2 ∧ s₃.len = 1 :=
  ⟨_, _, _, _, _, _, rfl, rfl, rfl, rfl, rfl⟩

end Saynaa
