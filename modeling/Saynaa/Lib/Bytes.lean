import Mathlib.Tactic

/-!
# Little-endian numbers and memories of bytes

* `le k x`: the `k` lowest bytes of `x`, least significant first, which `ofLe` reads.
* `copyOut`, `copyIn`: `memcpy` from and to a memory `q : ℕ → UInt8`.
* `load`, `store`: numbers of `k` bytes at an address, with a frame lemma for each.
-/

namespace Lib

/-- The `k` lowest bytes of `x`. -/
def le : ℕ → ℕ → List UInt8
  | 0, _ => []
  | k + 1, x => UInt8.ofNat x :: le k (x / 256)

/-- The number that a list of bytes encodes. -/
def ofLe : List UInt8 → ℕ
  | [] => 0
  | b :: bs => b.toNat + 256 * ofLe bs

@[simp] theorem length_le (k x : ℕ) : (le k x).length = k := by
  induction k generalizing x with
  | zero => rfl
  | succ k ih => simp [le, ih]

/-- **Reading back** a number that fits. -/
theorem ofLe_le {k x : ℕ} (hx : x < 256 ^ k) : ofLe (le k x) = x := by
  induction k generalizing x with
  | zero =>
    rw [pow_zero] at hx
    simp only [le, ofLe]
    omega
  | succ k ih =>
    have hdiv : x / 256 < 256 ^ k := Nat.div_lt_of_lt_mul (by rwa [mul_comm, ← pow_succ])
    have hb : (UInt8.ofNat x).toNat = x % 256 := UInt8.toNat_ofNat'
    simp only [le, ofLe, ih hdiv, hb]
    omega

theorem ofLe_lt (bs : List UInt8) : ofLe bs < 256 ^ bs.length := by
  induction bs with
  | nil => simp [ofLe]
  | cons b bs ih =>
    have hb := b.toNat_lt
    simp only [ofLe, List.length_cons, pow_succ]
    omega

/-! ### Memories -/

variable {q : ℕ → UInt8} {pos i k a b v : ℕ} {src : List UInt8}

/-- `memcpy(dst, &q[pos], n)`. -/
def copyOut (q : ℕ → UInt8) (pos n : ℕ) : List UInt8 := (List.range n).map fun i => q (pos + i)

/-- `memcpy(&q[pos], src, …)`. -/
def copyIn (q : ℕ → UInt8) (pos : ℕ) (src : List UInt8) : ℕ → UInt8 := fun i =>
  if pos ≤ i then src.getD (i - pos) (q i) else q i

theorem copyIn_in (h : pos ≤ i) (hi : i - pos < src.length) : copyIn q pos src i = src[i - pos] := by
  simp [copyIn, h, hi]

theorem copyIn_out (h : i < pos ∨ pos + src.length ≤ i) : copyIn q pos src i = q i := by
  unfold copyIn
  split_ifs with hp
  · rw [List.getD_eq_getElem?_getD, List.getElem?_eq_none (by omega)]
    rfl
  · rfl

theorem copyIn_congr {q' : ℕ → UInt8} (h : q' i = q i) : copyIn q' pos src i = copyIn q pos src i := by
  unfold copyIn
  rw [h]

theorem copyOut_congr {q' : ℕ → UInt8} {n : ℕ} (h : ∀ i < n, q' (pos + i) = q (pos + i)) :
    copyOut q' pos n = copyOut q pos n :=
  List.map_congr_left fun i hi => h i (List.mem_range.1 hi)

theorem copyOut_copyIn : copyOut (copyIn q pos src) pos src.length = src := by
  refine List.ext_getElem (by simp [copyOut]) fun i hi _ => ?_
  have hi' : i < src.length := by simpa [copyOut] using hi
  simp only [copyOut, List.getElem_map, List.getElem_range]
  rw [copyIn_in (by omega) (by omega)]
  simp only [Nat.add_sub_cancel_left]

@[simp] theorem length_copyOut (q : ℕ → UInt8) (pos n : ℕ) : (copyOut q pos n).length = n := by
  simp [copyOut]

theorem copyOut_add (q : ℕ → UInt8) (pos m n : ℕ) :
    copyOut q pos (m + n) = copyOut q pos m ++ copyOut q (pos + m) n := by
  simp only [copyOut, List.range_add, List.map_append, List.map_map, Function.comp_def, add_assoc]

theorem copyIn_nil (q : ℕ → UInt8) (pos : ℕ) : copyIn q pos [] = q := by
  funext i
  exact copyIn_out (by simp; omega)

/-- Two copies, the second one behind the first. -/
theorem copyIn_append (q : ℕ → UInt8) (pos : ℕ) (l l' : List UInt8) :
    copyIn (copyIn q pos l) (pos + l.length) l' = copyIn q pos (l ++ l') := by
  funext i
  by_cases h1 : i < pos + l.length
  · rw [copyIn_out (.inl h1)]
    by_cases h0 : pos ≤ i
    · rw [copyIn_in h0 (by omega), copyIn_in h0 (by simp; omega), List.getElem_append_left]
    · rw [copyIn_out (by omega), copyIn_out (by omega)]
  · by_cases h2 : i - (pos + l.length) < l'.length
    · rw [copyIn_in (by omega) h2, copyIn_in (by omega) (by simp; omega), List.getElem_append_right (by omega)]
      congr 1
      omega
    · rw [copyIn_out (by omega), copyIn_out (by omega), copyIn_out (by simp; omega)]

/-- Copies of one length to one place differ as their sources do. -/
theorem copyIn_inj {l l' : List UInt8} (hl : l.length = l'.length) : copyIn q pos l = copyIn q pos l' ↔ l = l' := by
  refine ⟨fun h => ?_, fun h => by rw [h]⟩
  have h1 : copyOut (copyIn q pos l) pos l.length = l := copyOut_copyIn
  rw [h, hl, copyOut_copyIn] at h1
  exact h1.symm

/-- The number in the `k` bytes at `a`. -/
def load (k : ℕ) (q : ℕ → UInt8) (a : ℕ) : ℕ := ofLe (copyOut q a k)

/-- Put `v` into the `k` bytes at `a`. -/
def store (k : ℕ) (q : ℕ → UInt8) (a v : ℕ) : ℕ → UInt8 := copyIn q a (le k v)

theorem load_lt : load k q a < 256 ^ k := by
  have h := ofLe_lt (copyOut q a k)
  rwa [show (copyOut q a k).length = k by simp [copyOut]] at h

theorem load_congr {q' : ℕ → UInt8} (h : ∀ i < k, q' (a + i) = q (a + i)) : load k q' a = load k q a :=
  congrArg ofLe (copyOut_congr h)

theorem load_store (hv : v < 256 ^ k) : load k (store k q a v) a = v := by
  have h : copyOut (store k q a v) a k = le k v := by
    have h : copyOut (copyIn q a (le k v)) a (le k v).length = le k v := copyOut_copyIn
    rwa [length_le] at h
  unfold load
  rw [h, ofLe_le hv]

theorem store_out (h : i < a ∨ a + k ≤ i) : store k q a v i = q i :=
  copyIn_out (by rwa [length_le])

theorem store_congr {q' : ℕ → UInt8} (h : q' i = q i) : store k q' a v i = store k q a v i := copyIn_congr h

theorem load_store_ne (h : b + k ≤ a ∨ a + k ≤ b) : load k (store k q a v) b = load k q b :=
  load_congr fun i hi => store_out (by omega)

end Lib
