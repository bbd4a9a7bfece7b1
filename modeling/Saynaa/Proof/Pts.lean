import Saynaa.Dev.Pts
import Saynaa.Proof.AbsPath
import Saynaa.Proof.Scanf

/-!
# The names in `/dev/pts`

* `ptsLists_iff`: the listed names are the numbers of the terminals, in decimal.
* `ptsFinddir_eq`: the lookup reads any digits, modulo 2^32.
* `pts_names`: a name is looked up as it is listed unless it is another way to write a terminal's number.
-/

namespace Saynaa

open Lib

variable {δ : Type*} {ops : FloatOps} {t : PtyTable δ} {d : VfsDirent} {name : List UInt8} {dev : δ}
  {i : Fin ptyMax} {index seen : ℕ}

/-- Some index of the directory has the name. -/
def PtsLists (ops : FloatOps) (t : PtyTable δ) (d : VfsDirent) (name : List UInt8) : Prop :=
  ∃ index < 2 ^ 32, ∃ d', ptsReaddir ops t index (some d) = (0, some d') ∧ CStr d'.name 0 name

/-- **A name is accepted as it is listed**, and is that of the slave with its number. -/
structure AcceptsListed (ops : FloatOps) (t : PtyTable δ) (d : VfsDirent) (name : List UInt8) : Prop where
  listed : ptsFinddir t (some name) ≠ none ↔ PtsLists ops t d name
  slave : ∀ dev, ptsFinddir t (some name) = some dev → ∃ i : Fin ptyMax, name = numeral 10 i ∧ t i = some (some dev)

/-- A number in decimal digits, maybe with zeros before it. -/
def Decimal (name : List UInt8) : Prop := name ≠ [] ∧ ∀ c ∈ name, isDigitC c = true

def decimalValue (name : List UInt8) : ℕ := name.foldl (fun v c => v * 10 + digitValue c) 0

/-- **The condition**: a terminal whose number the name is has a slave, and a name that reads as the number of a
terminal modulo 2^32 is that number as it is printed. -/
structure PtsFits (t : PtyTable δ) (name : List UInt8) : Prop where
  slave : ∀ i, name = numeral 10 (i : Fin ptyMax) → t i ≠ some none
  numeral : ∀ i dev, t i = some (some dev) → Decimal name → decimalValue name % 2 ^ 32 = i → name = numeral 10 i

/-! ### Listing -/

theorem dirent_name (ops : FloatOps) (d : VfsDirent) (i : Fin ptyMax) : CStr (d.set ops i).name 0 (numeral 10 i) := by
  have hi := i.isLt
  have hmax : ptyMax = 16 := rfl
  let f : Field := ⟨.u, BitVec.ofNat 32 i⟩
  have htext : f.text = numeral 10 i := by
    have hmag : f.magnitude.toNat = i := by
      show ((BitVec.ofNat 32 i).setWidth 64).toNat = i
      rw [BitVec.toNat_setWidth, BitVec.toNat_ofNat]
      omega
    unfold Field.text
    rw [hmag]
    rfl
  have hprint : (vcbprintf (varArgs [BitVec.ofNat 32 i]) ops (fun _ => 0) [ch '%', ch 'u']).output =
    numeral 10 i := by
    have h := @vcbprintf_fields (varArgs [BitVec.ofNat 32 i]) ops (fun _ => 0) [f] fun k hk => by
      obtain rfl : k = 0 := by simpa using hk
      rfl
    rwa [formatOf_single, textOf_single, htext] at h
  have hzero : ∀ c ∈ numeral 10 i, c ≠ 0 := by
    rw [← htext]
    exact fun c hc => text_ne_zero hc
  have hlen : (numeral 10 i).length ≤ direntNameSize - 1 := by
    have : (Nat.digits 10 i).length ≤ 2 := (Nat.digits_length_le_iff (by norm_num) _).2 (by omega)
    unfold numeral digitsOf direntNameSize
    split_ifs
    · simp
    · simp
      omega
  have h : CStr (snprintf ops (fun _ => 0) d.name direntNameSize [ch '%', ch 'u'] [BitVec.ofNat 32 i]) 0
      ((numeral 10 i).take (direntNameSize - 1)) := snprintf_cstr (by decide) hprint hzero
  rw [List.take_of_length_le hlen] at h
  simp only [VfsDirent.set]
  exact h

theorem readdirFrom_iff (ops : FloatOps) (d : VfsDirent) (seen index : ℕ) (is : List (Fin ptyMax)) :
    (∃ d', readdirFrom ops t (seen + index) d seen is = (0, d') ∧ CStr d'.name 0 name) ↔
      ∃ i, (is.filter fun i => (t i).isSome)[index]? = some i ∧ name = numeral 10 i := by
  induction is generalizing seen index with
  | nil => simp [readdirFrom]
  | cons i is ih =>
    unfold readdirFrom
    cases ht : t i with
    -- no terminal has this number
    | none =>
      simp only
      rw [List.filter_cons_of_neg (by simp [ht])]
      exact ih _ _
    -- one has
    | some p =>
      simp only
      rw [List.filter_cons_of_pos (by simp [ht])]
      cases index with
      | zero =>
        rw [add_zero, if_pos rfl]
        simp only [List.getElem?_cons_zero, Option.some.injEq]
        constructor
        · rintro ⟨d', hd, hname⟩
          rw [← (Prod.mk.inj hd).2] at hname
          exact ⟨i, rfl, hname.unique (dirent_name ops d i)⟩
        · rintro ⟨-, rfl, rfl⟩
          exact ⟨d.set ops i, rfl, dirent_name ops d i⟩
      | succ index =>
        rw [if_neg (by omega), List.getElem?_cons_succ, show seen + (index + 1) = seen + 1 + index by omega]
        exact ih _ _

/-- **What is listed.** -/
theorem ptsLists_iff : PtsLists ops t d name ↔ ∃ i, t i ≠ none ∧ name = numeral 10 (i : Fin ptyMax) := by
  have hread : ∀ index, (∃ d', ptsReaddir ops t index (some d) = (0, some d') ∧ CStr d'.name 0 name) ↔
      ∃ i, ((List.finRange ptyMax).filter fun i => (t i).isSome)[index]? = some i ∧ name = numeral 10 i := by
    intro index
    rw [← readdirFrom_iff ops d 0, zero_add]
    simp [ptsReaddir, Prod.ext_iff]
  unfold PtsLists
  simp only [hread]
  constructor
  · rintro ⟨index, -, i, hi, hname⟩
    have hmem := (List.mem_filter.1 (List.mem_of_getElem? hi)).2
    exact ⟨i, Option.isSome_iff_ne_none.1 hmem, hname⟩
  · rintro ⟨i, hi, hname⟩
    have hmem : i ∈ (List.finRange ptyMax).filter fun i => (t i).isSome :=
      List.mem_filter.2 ⟨List.mem_finRange i, Option.isSome_iff_ne_none.2 hi⟩
    obtain ⟨index, hlt, hget⟩ := List.getElem_of_mem hmem
    have hle : ((List.finRange ptyMax).filter fun i => (t i).isSome).length ≤ ptyMax := by
      simpa using List.length_filter_le (fun i => (t i).isSome) (List.finRange ptyMax)
    exact ⟨index, by have hmax : ptyMax = 16 := rfl; omega, i, by rw [List.getElem?_eq_getElem hlt, hget], hname⟩

/-! ### Looking up -/

theorem isDigitC_iff (c : UInt8) : isDigitC c = true ↔
    ¬ (charInt c < charInt (ch '0') ∨ charInt c > charInt (ch '9')) := by
  have hlt := c.toNat_lt
  have h0 : (ch '0').toNat = 48 := rfl
  have h9 : (ch '9').toNat = 57 := rfl
  unfold isDigitC charInt
  rw [decide_eq_true_iff, UInt8.le_iff_toNat_le, UInt8.le_iff_toNat_le, h0, h9]
  split_ifs <;> omega

theorem digit_word {c : UInt8} (h : isDigitC c = true) : charInt c - charInt (ch '0') = digitValue c := by
  have h0 : (ch '0').toNat = 48 := rfl
  have h9 : (ch '9').toNat = 57 := rfl
  unfold isDigitC at h
  rw [decide_eq_true_iff, UInt8.le_iff_toNat_le, UInt8.le_iff_toNat_le, h0, h9] at h
  unfold charInt digitValue
  rw [h0]
  split_ifs <;> omega

theorem ptsId_eq (v : ℕ) (name : List UInt8) : ptsId (BitVec.ofNat 32 v) name =
    if name.all isDigitC then some (BitVec.ofNat 32 (name.foldl (fun v c => v * 10 + digitValue c) v)) else none := by
  induction name generalizing v with
  | nil => exact (if_pos rfl).symm
  | cons c name ih =>
    unfold ptsId
    by_cases hc : isDigitC c = true
    · have hword : BitVec.ofNat 32 v * 10 + BitVec.ofInt 32 (charInt c - charInt (ch '0')) =
        BitVec.ofNat 32 (v * 10 + digitValue c) := by
        rw [digit_word hc, BitVec.ofInt_natCast, BitVec.ofNat_add, BitVec.ofNat_mul]
        rfl
      rw [if_neg ((isDigitC_iff c).1 hc), hword, ih]
      simp [hc]
    · have hbad : charInt c < charInt (ch '0') ∨ charInt c > charInt (ch '9') :=
        not_not.1 fun h => hc ((isDigitC_iff c).2 h)
      rw [if_pos hbad, if_neg fun h => hc (List.all_eq_true.1 h c List.mem_cons_self)]

theorem ptyGet_some {v : ℕ} : (ptyGet t (BitVec.ofNat 32 v)).join = some dev ↔
    ∃ i : Fin ptyMax, v % 2 ^ 32 = i ∧ t i = some (some dev) := by
  unfold ptyGet
  rw [BitVec.toNat_ofNat]
  constructor
  · intro h
    split_ifs at h with hlt
    · exact ⟨⟨_, hlt⟩, rfl, Option.join_eq_some_iff.1 h⟩
    · cases h
  · rintro ⟨i, hi, ht⟩
    simp only [hi]
    rw [dif_pos i.isLt]
    exact Option.join_eq_some_iff.2 ht

/-- **What is looked up.** -/
theorem ptsFinddir_eq : ptsFinddir t (some name) = some dev ↔
    Decimal name ∧ ∃ i : Fin ptyMax, decimalValue name % 2 ^ 32 = i ∧ t i = some (some dev) := by
  cases name with
  | nil =>
    refine iff_of_false (fun h => ?_) fun h => h.1.1 rfl
    cases h
  | cons c name =>
    have hid := ptsId_eq 0 (c :: name)
    unfold ptsFinddir
    simp only
    rw [show ptsId 0 (c :: name) = _ from hid]
    by_cases hall : (c :: name).all isDigitC
    · rw [if_pos hall]
      exact ptyGet_some.trans (and_iff_right ⟨List.cons_ne_nil c name, List.all_eq_true.1 hall⟩).symm
    · rw [if_neg hall]
      refine iff_of_false (fun h => ?_) fun h => hall (List.all_eq_true.2 h.1.2)
      cases h

theorem numeral_decimal (n : ℕ) : Decimal (numeral 10 n) ∧ decimalValue (numeral 10 n) = n := by
  constructor
  · refine ⟨numeral_ne_nil 10 n, fun c hc => ?_⟩
    obtain ⟨k, hk, rfl⟩ := mem_numeral (by norm_num) hc
    exact (digit_decimal hk).1
  · unfold decimalValue numeral
    rw [List.foldl_map]
    refine Eq.trans ?_ (foldl_digitsOf (b := 10) (by norm_num) n)
    refine List.foldl_ext _ _ _ fun v k hk => ?_
    rw [(digit_decimal (digitsOf_lt (by norm_num) hk)).2]

/-- **The names of terminals** are looked up as they are listed, but for other ways to write the
number of a terminal. -/
theorem pts_names (ops : FloatOps) (t : PtyTable δ) (d : VfsDirent) (name : List UInt8) :
    AcceptsListed ops t d name ↔ PtsFits t name := by
  have hlt : ∀ i : Fin ptyMax, i.val % 2 ^ 32 = i.val := by
    intro i
    have hi : i.val < 16 := i.isLt
    omega
  have hfind : ptsFinddir t (some name) ≠ none ↔
      ∃ dev, Decimal name ∧ ∃ i : Fin ptyMax, decimalValue name % 2 ^ 32 = i ∧ t i = some (some dev) := by
    rw [Option.ne_none_iff_exists']
    exact exists_congr fun dev => ptsFinddir_eq
  constructor
  · rintro ⟨hlisted, hslave⟩
    refine ⟨fun i hname ht => ?_, fun i dev ht hdec hval => ?_⟩
    · -- a listed name without a slave is not found
      have hno := hfind.1 (hlisted.2 (ptsLists_iff.2 ⟨i, by rw [ht]; exact Option.some_ne_none _, hname⟩))
      obtain ⟨dev, -, j, hj, htj⟩ := hno
      rw [hname, (numeral_decimal i).2, hlt] at hj
      rw [← Fin.ext hj, ht] at htj
      cases htj
    · obtain ⟨j, hname, htj⟩ := hslave dev (ptsFinddir_eq.2 ⟨hdec, i, hval, ht⟩)
      rw [hname, (numeral_decimal j).2, hlt] at hval
      rw [hname, Fin.ext hval]
  · rintro ⟨hslave, hnum⟩
    constructor
    · rw [hfind, ptsLists_iff]
      constructor
      · rintro ⟨dev, hdec, i, hval, ht⟩
        exact ⟨i, by rw [ht]; exact Option.some_ne_none _, hnum i dev ht hdec hval⟩
      · rintro ⟨i, hi, hname⟩
        obtain ⟨p, hp⟩ := Option.ne_none_iff_exists'.1 hi
        obtain ⟨dev, rfl⟩ : ∃ dev, p = some dev :=
          Option.ne_none_iff_exists'.1 fun h => hslave i hname (by rw [hp, h])
        exact ⟨dev, hname ▸ (numeral_decimal i).1, i, by rw [hname, (numeral_decimal i).2, hlt], hp⟩
    · intro dev hdev
      obtain ⟨hdec, i, hval, ht⟩ := ptsFinddir_eq.1 hdev
      exact ⟨i, hnum i dev ht hdec hval, ht⟩

/-- The pseudo-terminal 0, alone. -/
def onePty : PtyTable ℕ := fun i => if i.val = 0 then some (some 7) else none

/-- **`/dev/pts/00`** is not listed, and opens terminal 0. -/
theorem pts_alias : ptsFinddir onePty (some [ch '0', ch '0']) = some 7 ∧
    ∀ (ops : FloatOps) (d : VfsDirent), ¬ PtsLists ops onePty d [ch '0', ch '0'] := by
  refine ⟨rfl, fun ops d h => ?_⟩
  obtain ⟨i, hi, hname⟩ := ptsLists_iff.1 h
  have hzero : i.val = 0 := by
    by_contra hne
    exact hi (if_neg hne)
  rw [hzero] at hname
  exact absurd (congrArg List.length hname) (by decide +kernel)

end Saynaa
