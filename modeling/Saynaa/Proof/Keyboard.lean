import Saynaa.Lib.Loop
import Saynaa.Sys.Keyboard

/-!
# The shift keys and Caps Lock

* `KeyStroke`: what a key sends, and `Keys`: which keys are held then.
* `interrupts_stroke`: what the handler does at a stroke.
* `KeysOK`: what the flags of the handler say of the keys.
* `shift_faithful`: the delivered characters have the form that the held keys ask for, just where `Kept`.
-/

namespace Saynaa

open Keyboard
open Lib (forall_splits_nil forall_splits_cons)

/-- A key goes down, or is repeated, or goes up. The code of a key is below 128, and with the top bit set is not
the prefix of the extended keys. -/
structure KeyStroke where
  ttyInput : Bool
  extended : Bool
  code : UInt8
  released : Bool
  low : code < 0x80
  notPrefix : code ≠ 0x60

namespace KeyStroke

variable (k : KeyStroke)

/-- The make code or the break code. -/
def byte : UInt8 := if k.released then k.code + 0x80 else k.code

/-- The bytes of a stroke, in scan code set 1. -/
def bytes : List (Bool × UInt8) := (if k.extended then [(k.ttyInput, 0xE0)] else []) ++ [(k.ttyInput, k.byte)]

/-- A stroke of a shift key. -/
def isShift : Bool := !k.extended && (k.code == leftShift || k.code == rightShift)

/-- Caps Lock goes down, or is repeated. -/
def isCaps : Bool := !k.extended && !k.released && k.code == capsLock

/-- The character on the key that goes down, without shift; 0 if there is none. -/
def char : UInt8 := if k.extended ∨ k.isShift ∨ k.released ∨ k.isCaps then 0 else scancodeMap.getD k.code.toNat 0

end KeyStroke

/-- The keys that are held, whether the last stroke of a shift key was a make code, and how often Caps Lock was
pressed and then repeated. -/
structure Keys where
  held : Bool → UInt8 → Bool
  shiftMade : Bool
  presses : ℕ
  repeats : ℕ

namespace Keys

def none : Keys := ⟨fun _ _ => false, false, 0, 0⟩

def next (t : Keys) (k : KeyStroke) : Keys where
  held := fun extended code => if extended = k.extended ∧ code = k.code then !k.released else t.held extended code
  shiftMade := if k.isShift then !k.released else t.shiftMade
  presses := if k.isCaps ∧ ¬ t.held false capsLock then t.presses + 1 else t.presses
  repeats := if k.isCaps ∧ t.held false capsLock then t.repeats + 1 else t.repeats

/-- A shift key is held. -/
def shiftHeld (t : Keys) : Bool := t.held false leftShift || t.held false rightShift

/-- The keys behind some strokes. -/
def after (t : Keys) (strokes : List KeyStroke) : Keys := strokes.foldl next t

end Keys

/-- The form of a character that the held keys ask for. -/
def Keys.form (t : Keys) (c : UInt8) : UInt8 :=
  if isalpha c then if t.shiftHeld ^^ decide (t.presses % 2 = 1) then toupper c else tolower c
  else if t.shiftHeld then shiftChar c else c

/-- What a stroke is to deliver. -/
def KeyStroke.delivers (k : KeyStroke) (t : Keys) : List KeyPush :=
  if k.char = 0 then []
  else (if k.ttyInput then [.tty (t.form k.char)] else []) ++ [.event k.code true (t.form k.char)]

/-- What some strokes are to deliver. -/
def delivery : Keys → List KeyStroke → List KeyPush
  | _, [] => []
  | t, k :: strokes => k.delivers t ++ delivery (t.next k) strokes

/-- **The state of the keys that the flags keep**, for a character: no shift key is held of which the last to move
was released; for a letter, this is made up for by an odd number of repeats of Caps Lock, which does harm else. -/
def Keys.Kept (t : Keys) (c : UInt8) : Prop :=
  if isalpha c then (t.shiftHeld ∧ ¬ t.shiftMade) ↔ t.repeats % 2 = 1
  else t.shiftHeld → t.shiftMade ∨ shiftChar c = c

/-! ### What a stroke does -/

variable {s : Keyboard} {k : KeyStroke} {t : Keys} {c : UInt8}

/-- What a stroke makes of the flags. -/
def Keyboard.next (s : Keyboard) (k : KeyStroke) : Keyboard :=
  { s with shift := if k.isShift then !k.released else s.shift, caps := if k.isCaps then !s.caps else s.caps }

/-- The character that is delivered. -/
def Keyboard.form (s : Keyboard) (c : UInt8) : UInt8 :=
  if isalpha c then if s.caps ^^ s.shift then toupper c else tolower c else if s.shift then shiftChar c else c

/-- What a stroke delivers. -/
def Keyboard.pushes (s : Keyboard) (k : KeyStroke) : List KeyPush :=
  if k.char = 0 then []
  else (if k.ttyInput then [.tty (s.form k.char)] else []) ++ [.event k.code true (s.form k.char)]

theorem code_bits (h : c < 0x80) : c &&& 0x80 = 0 ∧ c &&& 0x7F = c ∧ (c + 0x80) &&& 0x80 ≠ 0 ∧
    (c + 0x80) &&& 0x7F = c := by
  have hall : ∀ n < 128, UInt8.ofNat n &&& 0x80 = 0 ∧ UInt8.ofNat n &&& 0x7F = UInt8.ofNat n ∧
      (UInt8.ofNat n + 0x80) &&& 0x80 ≠ 0 ∧ (UInt8.ofNat n + 0x80) &&& 0x7F = UInt8.ofNat n := by decide
  have hc := hall c.toNat h
  rwa [UInt8.ofNat_toNat] at hc

/-- The forms of the characters on the keys. -/
theorem scancodeMap_forms (hc : c ∈ scancodeMap) :
    (c ≠ 0 → toupper c ≠ 0 ∧ tolower c ≠ 0 ∧ shiftChar c ≠ 0) ∧ (isalpha c → toupper c ≠ tolower c) := by
  have hall : scancodeMap.all (fun c => (c == 0 || (toupper c != 0 && tolower c != 0 && shiftChar c != 0)) &&
      (!isalpha c || toupper c != tolower c)) = true := by decide
  have hforms := List.all_eq_true.1 hall c hc
  simp only [Bool.and_eq_true, Bool.or_eq_true, bne_iff_ne, beq_iff_eq, Bool.not_eq_true'] at hforms
  obtain ⟨h0, ha⟩ := hforms
  constructor
  · intro hne
    obtain ⟨⟨hup, hlow⟩, hshift⟩ := h0.resolve_left hne
    exact ⟨hup, hlow, hshift⟩
  · intro hal
    exact ha.resolve_left (ne_of_eq_of_ne hal Bool.noConfusion)

theorem form_ne_zero (hc : c ∈ scancodeMap) (h0 : c ≠ 0) (s : Keyboard) : s.form c ≠ 0 := by
  obtain ⟨hup, hlow, hshift⟩ := (scancodeMap_forms hc).1 h0
  unfold Keyboard.form
  split_ifs
  · exact hup
  · exact hlow
  · exact hshift
  · exact h0

/-- The byte of a stroke, in parts. -/
theorem sent_byte (k : KeyStroke) : k.byte ≠ 0xE0 ∧ (k.byte &&& 0x80 ≠ 0 ↔ k.released) ∧
    k.byte &&& 0x7F = k.code := by
  obtain ⟨hmake, hcode, hbreak, hcode'⟩ := code_bits k.low
  unfold KeyStroke.byte
  cases hr : k.released
  · rw [if_neg Bool.false_ne_true]
    refine ⟨?_, iff_of_false (not_not.2 hmake) Bool.false_ne_true, hcode⟩
    intro heq
    have hlow := k.low
    rw [heq] at hlow
    exact absurd hlow (by decide)
  · rw [if_pos rfl]
    refine ⟨?_, iff_of_true hbreak rfl, hcode'⟩
    intro heq
    have h60 : k.code = 0xE0 - 0x80 := by rw [← heq, UInt8.add_sub_cancel]
    exact k.notPrefix h60

theorem translateKey_eq (h : c < 0x80) : s.translateKey c =
    if scancodeMap.getD c.toNat 0 = 0 then 0 else s.form (scancodeMap.getD c.toNat 0) := by
  unfold translateKey
  rw [if_neg (by exact UInt8.not_le.2 h)]
  rfl

theorem getD_mem_map {n : ℕ} (h : scancodeMap.getD n 0 ≠ 0) : scancodeMap.getD n 0 ∈ scancodeMap := by
  rw [List.getD_eq_getElem?_getD] at h ⊢
  cases hn : scancodeMap[n]? with
  | none =>
    rw [hn] at h
    exact absurd rfl h
  | some c => exact List.mem_of_getElem? hn

theorem char_eq_zero (h : k.extended ∨ k.isShift ∨ k.released ∨ k.isCaps) : k.char = 0 := if_pos h

theorem pushes_nil (h : k.extended ∨ k.isShift ∨ k.released ∨ k.isCaps) : s.pushes k = [] := if_pos (char_eq_zero h)

/-- An extended key: the prefix, and a byte that is ignored. -/
theorem handler_extended (he : s.e0 = false) (hx : k.extended) : s.interrupts k.bytes = (s, []) := by
  obtain ⟨shift, caps, e0⟩ := s
  obtain rfl : e0 = false := he
  unfold KeyStroke.bytes
  rw [if_pos hx]
  simp only [List.singleton_append, interrupts, keyboardHandler, if_true, (sent_byte k).1, if_false, List.append_nil]

theorem extended_next (hx : k.extended) (s : Keyboard) : s.next k = s := by
  unfold Keyboard.next KeyStroke.isShift KeyStroke.isCaps
  rw [hx]
  rfl

/-- The byte of a key of its own. -/
theorem handler_own (he : s.e0 = false) (hx : k.extended = false) :
    s.keyboardHandler k.ttyInput k.byte = (s.next k, s.pushes k) := by
  obtain ⟨shift, caps, e0⟩ := s
  obtain rfl : e0 = false := he
  obtain ⟨hbyte, hreleased, hcode⟩ := sent_byte k
  have hshift : k.isShift = true ↔ k.code = leftShift ∨ k.code = rightShift := by
    unfold KeyStroke.isShift
    rw [hx, Bool.not_false, Bool.true_and, Bool.or_eq_true, beq_iff_eq, beq_iff_eq]
  have hcaps : k.isCaps = true ↔ ¬ k.released ∧ k.code = capsLock := by
    unfold KeyStroke.isCaps
    rw [hx, Bool.not_false, Bool.true_and, Bool.and_eq_true, Bool.not_eq_true', beq_iff_eq, Bool.not_eq_true]
  unfold keyboardHandler Keyboard.next
  rw [if_neg hbyte]
  simp only [hcode, Bool.false_eq_true, if_false]
  by_cases h1 : k.code = leftShift ∨ k.code = rightShift
  · -- a shift key
    have hno : ¬ k.isCaps := by
      rw [hcaps]
      rintro ⟨-, h3⟩
      rw [h3] at h1
      exact absurd h1 (by decide)
    have hup : decide (k.byte &&& 0x80 ≠ 0) = k.released := by
      rw [Bool.eq_iff_iff, decide_eq_true_iff]
      exact hreleased
    rw [if_pos h1, if_pos (hshift.2 h1), if_neg hno, pushes_nil (.inr (.inl (hshift.2 h1))), hup]
  have hno1 : ¬ k.isShift := fun hc => h1 (hshift.1 hc)
  rw [if_neg h1, if_neg hno1]
  by_cases h2 : k.released
  · -- another key goes up
    have hno : ¬ k.isCaps := fun hc => (hcaps.1 hc).1 h2
    rw [if_pos (hreleased.2 h2), if_neg hno, pushes_nil (.inr (.inr (.inl h2)))]
  rw [if_neg (fun hc => h2 (hreleased.1 hc))]
  by_cases h3 : k.code = capsLock
  · -- caps lock goes down
    rw [if_pos h3, if_pos (hcaps.2 ⟨h2, h3⟩), pushes_nil (.inr (.inr (.inr (hcaps.2 ⟨h2, h3⟩))))]
  · -- a character key goes down
    have hno : ¬ k.isCaps := fun hc => h3 (hcaps.1 hc).2
    have hchar : k.char = scancodeMap.getD k.code.toNat 0 := by
      unfold KeyStroke.char
      rw [if_neg]
      rintro (hc | hc | hc | hc)
      · exact absurd (hx.symm.trans hc) Bool.false_ne_true
      · exact hno1 hc
      · exact h2 hc
      · exact hno hc
    unfold Keyboard.pushes
    rw [if_neg h3, if_neg hno, translateKey_eq k.low, ← hchar]
    by_cases h0 : k.char = 0
    · rw [if_pos h0, if_pos h0, if_neg (not_not.2 rfl)]
    · rw [if_neg h0, if_neg h0, if_pos (form_ne_zero (by rw [hchar] at h0 ⊢; exact getD_mem_map h0) h0 _)]

/-- **A stroke**, outside of a prefixed code. -/
theorem interrupts_stroke (he : s.e0 = false) (k : KeyStroke) : s.interrupts k.bytes = (s.next k, s.pushes k) := by
  cases hx : k.extended
  · have hbytes : k.bytes = [(k.ttyInput, k.byte)] := by
      unfold KeyStroke.bytes
      rw [hx]
      rfl
    rw [hbytes]
    unfold interrupts
    rw [handler_own he hx]
    simp only [interrupts, List.append_nil]
  · rw [handler_extended he hx, extended_next hx, pushes_nil (.inl hx)]

/-! ### Runs -/

/-- **What the flags say of the keys.** -/
structure KeysOK (s : Keyboard) (t : Keys) : Prop where
  e0 : s.e0 = false
  shift : s.shift = t.shiftMade
  caps : s.caps = decide ((t.presses + t.repeats) % 2 = 1)
  made : t.shiftMade → t.shiftHeld

theorem KeysOK.next (h : KeysOK s t) (k : KeyStroke) : KeysOK (s.next k) (t.next k) := by
  refine ⟨h.e0, ?_, ?_, ?_⟩
  · unfold Keyboard.next Keys.next
    simp only
    rw [h.shift]
  · unfold Keyboard.next Keys.next
    simp only
    cases hk : k.isCaps
    · simp only [Bool.false_eq_true, if_false, false_and]
      exact h.caps
    · rw [h.caps]
      cases hheld : t.held false capsLock
      · rw [if_pos rfl, if_pos ⟨rfl, Bool.false_ne_true⟩, if_neg (fun hc => Bool.false_ne_true hc.2), ← decide_not,
          decide_eq_decide]
        omega
      · rw [if_pos rfl, if_neg (fun hc => hc.2 rfl), if_pos ⟨rfl, rfl⟩, ← decide_not, decide_eq_decide]
        omega
  · intro hmade
    unfold Keys.next at hmade
    simp only at hmade
    unfold Keys.shiftHeld Keys.next
    simp only
    cases hk : k.isShift
    · -- a stroke of another key
      rw [hk, if_neg Bool.false_ne_true] at hmade
      have hheld := h.made hmade
      unfold Keys.shiftHeld at hheld
      have hother : ¬ (false = k.extended ∧ leftShift = k.code) ∧ ¬ (false = k.extended ∧ rightShift = k.code) := by
        unfold KeyStroke.isShift at hk
        constructor
        · rintro ⟨hx, hc⟩
          rw [← hx, ← hc] at hk
          exact absurd hk (by decide)
        · rintro ⟨hx, hc⟩
          rw [← hx, ← hc] at hk
          exact absurd hk (by decide)
      rw [if_neg hother.1, if_neg hother.2]
      exact hheld
    · rw [hk, if_pos rfl] at hmade
      unfold KeyStroke.isShift at hk
      rw [Bool.and_eq_true, Bool.not_eq_true', Bool.or_eq_true, beq_iff_eq, beq_iff_eq] at hk
      obtain ⟨hx, hc | hc⟩ := hk
      · rw [if_pos ⟨hx.symm, hc.symm⟩, hmade, Bool.true_or]
      · rw [if_pos (c := false = k.extended ∧ rightShift = k.code) ⟨hx.symm, hc.symm⟩, hmade, Bool.or_true]

theorem ite_eq_ite_iff_of_ne {u l : UInt8} (h : u ≠ l) (a b : Bool) :
    (if a then u else l) = (if b then u else l) ↔ a = b := by
  cases a <;> cases b
  · exact iff_of_true rfl rfl
  · exact iff_of_false h.symm Bool.false_ne_true
  · exact iff_of_false h (Ne.symm Bool.false_ne_true)
  · exact iff_of_true rfl rfl

/-- **The form that is delivered** is the one that is asked for just where the flags keep the state of the keys. -/
theorem form_iff (h : KeysOK s t) (hc : c ∈ scancodeMap) : s.form c = t.form c ↔ t.Kept c := by
  have hmade := h.made
  unfold Keyboard.form Keys.form Keys.Kept
  rw [h.shift, h.caps]
  generalize t.shiftMade = made at hmade ⊢
  generalize t.shiftHeld = held at hmade ⊢
  by_cases ha : isalpha c
  · have hparity : decide ((t.presses + t.repeats) % 2 = 1) =
      (decide (t.presses % 2 = 1) ^^ decide (t.repeats % 2 = 1)) := by
      rw [Bool.eq_iff_iff, Bool.xor_iff_ne, decide_eq_true_iff, ne_eq, decide_eq_decide]
      omega
    have hbits : ∀ made held presses repeats : Bool, (made → held) →
        ((presses ^^ repeats ^^ made) = (held ^^ presses) ↔ ((held ∧ ¬ made) ↔ repeats)) := by decide
    rw [if_pos ha, if_pos ha, if_pos ha, ite_eq_ite_iff_of_ne ((scancodeMap_forms hc).2 ha), hparity,
      hbits made held _ _ hmade, decide_eq_true_iff]
  · rw [if_neg ha, if_neg ha, if_neg ha]
    cases held
    · cases made
      · exact iff_of_true rfl fun hno => absurd hno Bool.false_ne_true
      · exact absurd (hmade rfl) Bool.false_ne_true
    · cases made
      · exact ⟨fun heq _ => .inr heq.symm, fun heq => ((heq rfl).resolve_left Bool.false_ne_true).symm⟩
      · exact iff_of_true rfl fun _ => .inl rfl

/-- What a stroke delivers. -/
theorem pushes_iff (h : KeysOK s t) (k : KeyStroke) : s.pushes k = k.delivers t ↔ (k.char ≠ 0 → t.Kept k.char) := by
  unfold Keyboard.pushes KeyStroke.delivers
  by_cases h0 : k.char = 0
  · rw [if_pos h0, if_pos h0]
    exact iff_of_true rfl fun hne => absurd h0 hne
  · have hmem : k.char ∈ scancodeMap := by
      unfold KeyStroke.char at h0 ⊢
      split_ifs at h0 ⊢ with hnone
      · exact absurd rfl h0
      · exact getD_mem_map h0
    rw [if_neg h0, if_neg h0, ← form_iff h hmem]
    constructor
    · intro heq _
      have hlast := (List.append_inj' heq rfl).2
      exact (KeyPush.event.inj (List.cons.inj hlast).1).2.2
    · intro heq
      rw [heq h0]

theorem interrupts_append (s : Keyboard) (l l' : List (Bool × UInt8)) : s.interrupts (l ++ l') =
    (((s.interrupts l).1.interrupts l').1, (s.interrupts l).2 ++ ((s.interrupts l).1.interrupts l').2) := by
  induction l generalizing s with
  | nil => rfl
  | cons irq l ih =>
    obtain ⟨tty, sc⟩ := irq
    have hcons : ∀ l, s.interrupts ((tty, sc) :: l) = (((s.keyboardHandler tty sc).1.interrupts l).1,
        (s.keyboardHandler tty sc).2 ++ ((s.keyboardHandler tty sc).1.interrupts l).2) := fun _ => rfl
    rw [List.cons_append, hcons, hcons, ih, List.append_assoc]

theorem interrupts_cons (he : s.e0 = false) (k : KeyStroke) (strokes : List KeyStroke) :
    s.interrupts ((k :: strokes).flatMap KeyStroke.bytes) =
      (((s.next k).interrupts (strokes.flatMap KeyStroke.bytes)).1,
      s.pushes k ++ ((s.next k).interrupts (strokes.flatMap KeyStroke.bytes)).2) := by
  rw [List.flatMap_cons, interrupts_append, interrupts_stroke he]

/-- The flags behind some strokes. -/
theorem KeysOK.run (h : KeysOK s t) (strokes : List KeyStroke) :
    KeysOK (s.interrupts (strokes.flatMap KeyStroke.bytes)).1 (t.after strokes) := by
  induction strokes generalizing s t with
  | nil => exact h
  | cons k strokes ih =>
    rw [interrupts_cons h.e0]
    exact ih (h.next k)

theorem pushes_length (s : Keyboard) (t : Keys) (k : KeyStroke) : (s.pushes k).length = (k.delivers t).length := by
  unfold Keyboard.pushes KeyStroke.delivers
  split_ifs <;> rfl

/-- **What strokes deliver**, from flags that say what the keys are. -/
theorem delivery_iff (h : KeysOK s t) (strokes : List KeyStroke) :
    (s.interrupts (strokes.flatMap KeyStroke.bytes)).2 = delivery t strokes ↔
      ∀ before k after, strokes = before ++ k :: after → k.char ≠ 0 → (t.after before).Kept k.char := by
  induction strokes generalizing s t with
  | nil => exact iff_of_true rfl (forall_splits_nil (P := fun before k => _))
  | cons k strokes ih =>
    have hsplit : s.pushes k ++ ((s.next k).interrupts (strokes.flatMap KeyStroke.bytes)).2 =
      delivery t (k :: strokes) ↔
        s.pushes k = k.delivers t ∧ ((s.next k).interrupts (strokes.flatMap KeyStroke.bytes)).2 =
          delivery (t.next k) strokes := by
      refine ⟨fun heq => List.append_inj heq (pushes_length s t k), ?_⟩
      rintro ⟨h1, h2⟩
      rw [h1, h2]
      rfl
    rw [interrupts_cons h.e0, hsplit, pushes_iff h, ih (h.next k)]
    exact (forall_splits_cons (P := fun before k' => k'.char ≠ 0 → (t.after before).Kept k'.char)).symm

/-- The flags at the start. -/
def Keyboard.start : Keyboard := ⟨false, false, false⟩

/-- No key is held at the start. -/
theorem KeysOK.start : KeysOK Keyboard.start Keys.none := ⟨rfl, rfl, rfl, fun h => absurd h Bool.false_ne_true⟩

/-- The characters have the form that the keys ask for, and extended keys do nothing. -/
structure ShiftFaithful (strokes : List KeyStroke) : Prop where
  delivered : (Keyboard.start.interrupts (strokes.flatMap KeyStroke.bytes)).2 = delivery Keys.none strokes
  extended : ∀ before k after, strokes = before ++ k :: after → k.extended →
    (Keyboard.start.interrupts (before.flatMap KeyStroke.bytes)).1.interrupts k.bytes =
      ((Keyboard.start.interrupts (before.flatMap KeyStroke.bytes)).1, [])

/-- **The shift keys and Caps Lock** are obeyed, from the start, exactly if the flags keep the state of the keys
wherever a character is delivered. -/
theorem shift_faithful (strokes : List KeyStroke) : ShiftFaithful strokes ↔
    ∀ before k after, strokes = before ++ k :: after → k.char ≠ 0 → (Keys.none.after before).Kept k.char := by
  rw [← delivery_iff KeysOK.start]
  refine ⟨ShiftFaithful.delivered, fun hdelivered => ⟨hdelivered, ?_⟩⟩
  intro before k after _ hx
  exact handler_extended (KeysOK.start.run before).e0 hx

/-- Each key that goes up was held. -/
def Alternating : Keys → List KeyStroke → Prop
  | _, [] => True
  | t, k :: strokes => (k.released → t.held k.extended k.code) ∧ Alternating (t.next k) strokes

/-- Both shift keys go down, and one of them goes up, before the letter `a`. -/
def twoShifts : List KeyStroke :=
  [⟨true, false, leftShift, false, by decide, by decide⟩, ⟨true, false, rightShift, false, by decide, by decide⟩,
    ⟨true, false, rightShift, true, by decide, by decide⟩, ⟨true, false, 0x1E, false, by decide, by decide⟩]

/-- Caps Lock is held until it is repeated, before the letter `a`. -/
def heldCaps : List KeyStroke :=
  [⟨true, false, capsLock, false, by decide, by decide⟩, ⟨true, false, capsLock, false, by decide, by decide⟩,
    ⟨true, false, 0x1E, false, by decide, by decide⟩]

/-- **Two runs of the keys** that deliver a small letter in place of a capital one. -/
theorem shift_forgotten : (Alternating Keys.none twoShifts ∧ ¬ ShiftFaithful twoShifts) ∧
    Alternating Keys.none heldCaps ∧ ¬ ShiftFaithful heldCaps := by
  refine ⟨⟨⟨nofun, nofun, fun _ => rfl, nofun, trivial⟩, ?_⟩, ⟨nofun, nofun, nofun, trivial⟩, ?_⟩
  · rintro ⟨heq, -⟩
    exact absurd heq (by decide)
  · rintro ⟨heq, -⟩
    exact absurd heq (by decide)

end Saynaa
