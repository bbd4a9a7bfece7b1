import Saynaa.Lib.Bytes

/-!
# Checked reads

A `Region` is memory of which only the first `size` bytes may be read. A computation that
reads elsewhere, or divides by zero, ends in a `Fault`.

* `Post x P`: the computation `x` ends without a fault, in a result with property `P`.
* `Post.bind`, `Post.mono`: the rules of sequencing and of consequence.
* `Region.load_post`, `Region.slice_post`: reads inside of the region.
-/

namespace Lib

universe u

variable {α β : Type u} {ε : Type*}

inductive Fault where
  | outside
  | divZero
  deriving DecidableEq

/-- A result without a fault, with the property `P`. -/
def Post (x : Except ε α) (P : α → Prop) : Prop := ∃ a, x = .ok a ∧ P a

variable {x : Except ε α} {f : α → Except ε β} {P P' : α → Prop} {Q : β → Prop}

theorem Post.pure {a : α} (h : P a) : Post (.ok a : Except ε α) P := ⟨a, rfl, h⟩

theorem Post.mono (h : Post x P) (hP : ∀ a, P a → P' a) : Post x P' := by
  obtain ⟨a, hx, ha⟩ := h
  exact ⟨a, hx, hP a ha⟩

/-- **Sequencing.** -/
theorem Post.bind (h : Post x P) (hf : ∀ a, P a → Post (f a) Q) : Post (x >>= f) Q := by
  obtain ⟨a, rfl, ha⟩ := h
  exact hf a ha

/-- What is known of a result that was returned. -/
theorem Post.of_eq {a : α} (h : Post x P) (hx : x = .ok a) : P a := by
  obtain ⟨b, hb, hPb⟩ := h
  rw [hx] at hb
  cases hb
  exact hPb

theorem ok_bind (a : α) (f : α → Except ε β) : ((.ok a : Except ε α) >>= f) = f a := rfl

theorem bind_ok {b : β} (h : x >>= f = .ok b) : ∃ a, x = .ok a ∧ f a = .ok b := by
  cases x with
  | error e => cases h
  | ok a => exact ⟨a, rfl, h⟩

/-! ### Regions -/

/-- Memory whose first `size` bytes may be read. -/
structure Region where
  size : ℕ
  bytes : ℕ → UInt8

variable {m : Region} {k off n : ℕ}

/-- The number in the `k` bytes at `off`. -/
def Region.load (m : Region) (k off : ℕ) : Except Fault ℕ :=
  if off + k ≤ m.size then .ok (Lib.load k m.bytes off) else .error .outside

/-- The `n` bytes at `off`. -/
def Region.slice (m : Region) (off n : ℕ) : Except Fault (List UInt8) :=
  if off + n ≤ m.size then .ok (copyOut m.bytes off n) else .error .outside

theorem Region.load_ok (h : off + k ≤ m.size) : m.load k off = .ok (Lib.load k m.bytes off) := if_pos h

theorem Region.slice_ok (h : off + n ≤ m.size) : m.slice off n = .ok (copyOut m.bytes off n) := if_pos h

theorem Region.load_post (h : off + k ≤ m.size) : Post (m.load k off) (· = Lib.load k m.bytes off) :=
  ⟨_, m.load_ok h, rfl⟩

theorem Region.slice_post (h : off + n ≤ m.size) : Post (m.slice off n) (· = copyOut m.bytes off n) :=
  ⟨_, m.slice_ok h, rfl⟩

end Lib
