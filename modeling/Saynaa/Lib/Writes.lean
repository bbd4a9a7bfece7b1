import Mathlib.Tactic

/-!
# Lists of writes

`writes ws f` writes the values of `ws` one after the other into the array `f`; of two writes to
one place the later one stays. `Layer` is the same for whole pictures: a layer gives a value to
some places, and what lies on top hides what is below. `Descending` blocks are written each below the
one before, so that all of them stay (`Descending.holds`).
-/

namespace Lib

variable {ι κ α : Type*} [DecidableEq ι]

/-- The array after the writes `ws`. -/
def writes (ws : List (ι × α)) (f : ι → α) : ι → α := ws.foldl (fun f w => Function.update f w.1 w.2) f

@[simp] theorem writes_nil (f : ι → α) : writes [] f = f := rfl

@[simp] theorem writes_cons (w : ι × α) (ws : List (ι × α)) (f : ι → α) :
    writes (w :: ws) f = writes ws (Function.update f w.1 w.2) := rfl

theorem writes_append (ws ws' : List (ι × α)) (f : ι → α) : writes (ws ++ ws') f = writes ws' (writes ws f) :=
  List.foldl_append

variable {ws : List (ι × α)} {f : ι → α} {i : ι}

theorem writes_of_notMem (h : ∀ w ∈ ws, w.1 ≠ i) : writes ws f i = f i := by
  induction ws generalizing f with
  | nil => rfl
  | cons w ws ih =>
    rw [writes_cons, ih fun w' hw' => h w' (List.mem_cons_of_mem _ hw'),
      Function.update_of_ne (h w List.mem_cons_self).symm]

/-- All writes to `i` write `a`. -/
theorem writes_of_mem {a : α} (hmem : ∃ w ∈ ws, w.1 = i) (hval : ∀ w ∈ ws, w.1 = i → w.2 = a) :
    writes ws f i = a := by
  induction ws generalizing f with
  | nil => simp at hmem
  | cons w ws ih =>
    rw [writes_cons]
    by_cases hlater : ∃ w ∈ ws, w.1 = i
    · exact ih hlater fun w' hw' => hval w' (List.mem_cons_of_mem _ hw')
    · push Not at hlater
      obtain ⟨w', hw', rfl⟩ := hmem
      rcases List.mem_cons.1 hw' with rfl | hw'
      · rw [writes_of_notMem hlater, Function.update_self, hval w' List.mem_cons_self rfl]
      · exact absurd rfl (hlater w' hw')

/-- A partial picture over the places `κ`. -/
abbrev Layer (κ α : Type*) := κ → Option α

/-- `top` hides what is below it. -/
def Layer.above (top bottom : Layer κ α) : Layer κ α := fun p => (top p).or (bottom p)

/-- The layers of a list, the last one on top. -/
def Layer.stack : List (Layer κ α) → Layer κ α
  | [] => fun _ => none
  | l :: ls => (stack ls).above l

/-- The part of a layer in a set. -/
noncomputable def Layer.restrict (l : Layer κ α) (R : κ → Prop) : Layer κ α :=
  fun p => open Classical in if R p then l p else none

theorem Layer.restrict_of {l : Layer κ α} {R : κ → Prop} {p : κ} (h : R p) : l.restrict R p = l p := if_pos h

theorem Layer.restrict_of_not {l : Layer κ α} {R : κ → Prop} {p : κ} (h : ¬ R p) : l.restrict R p = none := if_neg h

theorem Layer.restrict_congr {l : Layer κ α} {R R' : κ → Prop} {p : κ} (h : R p ↔ R' p) :
    l.restrict R p = l.restrict R' p := by
  by_cases hR : R p
  · rw [restrict_of hR, restrict_of (h.1 hR)]
  · rw [restrict_of_not hR, restrict_of_not fun h' => hR (h.2 h')]

theorem Layer.restrict_above (top bottom : Layer κ α) (R : κ → Prop) :
    (top.above bottom).restrict R = (top.restrict R).above (bottom.restrict R) := by
  funext p
  by_cases h : R p
  · simp [restrict, above, h]
  · simp [restrict, above, h]

theorem Layer.restrict_stack (ls : List (Layer κ α)) (R : κ → Prop) :
    (stack ls).restrict R = stack (ls.map fun l => l.restrict R) := by
  induction ls with
  | nil =>
    funext p
    unfold restrict
    simp [stack]
  | cons l ls ih =>
    rw [List.map_cons]
    unfold stack
    rw [restrict_above, ih]

theorem Layer.stack_cons (l : Layer κ α) (ls : List (Layer κ α)) : stack (l :: ls) = (stack ls).above l := rfl

theorem Layer.stack_append (ls ls' : List (Layer κ α)) : stack (ls ++ ls') = (stack ls').above (stack ls) := by
  induction ls with
  | nil =>
    funext p
    simp [stack, above]
  | cons l ls ih =>
    rw [List.cons_append, stack_cons, stack_cons, ih]
    funext p
    simp [above, Option.or_assoc]

theorem Layer.stack_none {ls : List (Layer κ α)} {p : κ} (h : ∀ l ∈ ls, l p = none) : stack ls p = none := by
  induction ls with
  | nil => rfl
  | cons l ls ih =>
    rw [stack_cons]
    unfold above
    rw [ih fun l' hl' => h l' (List.mem_cons_of_mem _ hl'), h l List.mem_cons_self]
    rfl

/-- **The topmost layer** that has a value at a place gives it. -/
theorem Layer.stack_top {ls ls' : List (Layer κ α)} {l : Layer κ α} {p : κ} {a : α} (ha : l p = some a)
    (h : ∀ l' ∈ ls', l' p = none) : stack (ls ++ l :: ls') p = some a := by
  rw [stack_append]
  unfold above
  have hl : stack (l :: ls') p = some a := by
    rw [stack_cons]
    unfold above
    rw [stack_none h, ha]
    rfl
  rw [hl]
  rfl

/-! ### Blocks -/

variable {α : Type*} {c d : ℕ × List α} {cs cs' : List (ℕ × List α)} {u i j : ℕ} {f : ℕ → α}

/-- The writes of `l`, from the place `v` upwards. -/
def block (v : ℕ) (l : List α) : List (ℕ × α) := l.zipIdx.map fun p => (v + p.2, p.1)

def blocks (cs : List (ℕ × List α)) : List (ℕ × α) := cs.flatMap fun c => block c.1 c.2

theorem mem_block {v : ℕ} {l : List α} {w : ℕ × α} :
    w ∈ block v l ↔ ∃ (i : ℕ) (h : i < l.length), w = (v + i, l[i]) := by
  simp only [block, List.mem_map, Prod.exists, List.mem_zipIdx_iff_getElem?]
  constructor
  · rintro ⟨a, i, hi, rfl⟩
    obtain ⟨h, rfl⟩ := List.getElem?_eq_some_iff.1 hi
    exact ⟨i, h, rfl⟩
  · rintro ⟨i, h, rfl⟩
    exact ⟨_, i, List.getElem?_eq_getElem h, rfl⟩

/-- The place of the last block, where the next one ends. -/
def bottom (u : ℕ) : List (ℕ × List α) → ℕ
  | [] => u
  | c :: cs => bottom c.1 cs

@[simp] theorem bottom_cons (u : ℕ) (c : ℕ × List α) (cs : List (ℕ × List α)) :
    bottom u (c :: cs) = bottom c.1 cs := rfl

theorem bottom_append (u : ℕ) (cs cs' : List (ℕ × List α)) : bottom u (cs ++ cs') = bottom (bottom u cs) cs' := by
  induction cs generalizing u with
  | nil => rfl
  | cons c cs ih => exact ih c.1

/-- Each block ends below the one before, the first one below `u`. -/
def Descending (u : ℕ) : List (ℕ × List α) → Prop
  | [] => True
  | c :: cs => c.1 + c.2.length ≤ u ∧ Descending c.1 cs

theorem Descending.mono {u' : ℕ} (h : Descending u cs) (hu : u ≤ u') : Descending u' cs := by
  cases cs with
  | nil => trivial
  | cons c cs => exact ⟨h.1.trans hu, h.2⟩

theorem Descending.append (h : Descending u cs) (h' : Descending (bottom u cs) cs') : Descending u (cs ++ cs') := by
  induction cs generalizing u with
  | nil => exact h'
  | cons c cs ih => exact ⟨h.1, ih h.2 h'⟩

theorem Descending.below (h : Descending u cs) (hc : c ∈ cs) : c.1 + c.2.length ≤ u := by
  induction cs generalizing u with
  | nil => simp at hc
  | cons d cs ih =>
    obtain ⟨hd, hrest⟩ := h
    rcases List.mem_cons.1 hc with rfl | hc
    · exact hd
    · have := ih hrest hc
      omega

theorem Descending.bottom_le (h : Descending u cs) (hc : c ∈ cs) : bottom u cs ≤ c.1 := by
  induction cs generalizing u c with
  | nil => simp at hc
  | cons d cs ih =>
    obtain ⟨-, hrest⟩ := h
    have hle : bottom d.1 cs ≤ d.1 := by
      cases cs with
      | nil => exact le_rfl
      | cons e es =>
        have h1 := ih hrest List.mem_cons_self
        have h2 := hrest.1
        exact h1.trans (by omega)
    rcases List.mem_cons.1 hc with rfl | hc
    · exact hle
    · exact ih hrest hc

/-- A later block is below an earlier one. -/
theorem Descending.lt (h : Descending u cs) (hij : i < j) (hj : j < cs.length) :
    cs[j].1 + cs[j].2.length ≤ cs[i].1 := by
  induction cs generalizing u i j with
  | nil => simp at hj
  | cons c cs ih =>
    obtain ⟨j, rfl⟩ : ∃ k, j = k + 1 := ⟨j - 1, by omega⟩
    cases i with
    | zero => exact h.2.below (List.getElem_mem _)
    | succ i => exact ih h.2 (by omega) (by simpa using hj)

/-- **Blocks do not overlap.** -/
theorem Descending.sep (h : Descending u cs) (hc : c ∈ cs) (hd : d ∈ cs) :
    c = d ∨ c.1 + c.2.length ≤ d.1 ∨ d.1 + d.2.length ≤ c.1 := by
  obtain ⟨i, hi, rfl⟩ := List.getElem_of_mem hc
  obtain ⟨j, hj, rfl⟩ := List.getElem_of_mem hd
  rcases lt_trichotomy i j with hij | rfl | hij
  · exact .inr (.inr (h.lt hij hj))
  · exact .inl rfl
  · exact .inr (.inl (h.lt hij hi))

/-- **Every block is there** after the writes. -/
theorem Descending.holds (h : Descending u cs) (hc : c ∈ cs) (hi : i < c.2.length) :
    writes (blocks cs) f (c.1 + i) = c.2[i] := by
  apply writes_of_mem
  · exact ⟨_, List.mem_flatMap.2 ⟨c, hc, mem_block.2 ⟨i, hi, rfl⟩⟩, rfl⟩
  · intro w hw hwi
    obtain ⟨d, hd, hw⟩ := List.mem_flatMap.1 hw
    obtain ⟨j, hj, rfl⟩ := mem_block.1 hw
    simp only at hwi
    rcases h.sep hc hd with rfl | hlt | hlt
    · obtain rfl : j = i := by omega
      rfl
    · omega
    · omega

end Lib
