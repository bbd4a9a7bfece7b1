import Saynaa.Fs.Vfs
import Saynaa.Lib.Words

/-!
# Which names a path resolves through

* `Vfs.resolve`: following a list of names, with the calls made.
* `vfsLookup_pieces`: a lookup follows the components, cut into pieces of 63 characters.
* `lookup_components`: so it follows the components themselves when they are not longer.
-/

namespace Saynaa

open Lib

/-- The components of a path. -/
def components (path : List UInt8) : List Name := words slash path

/-- The longest name that fits into the segment buffer. -/
def maxName : ℕ := segmentSize - 1

variable {Node : Type} {v : Vfs Node} {n : Node} {p path : List UInt8}

/-- Follow names from a node, up to the first that is not found. -/
def Vfs.resolve (v : Vfs Node) (n : Node) : List Name → Option Node × List Name
  | [] => (some n, [])
  | name :: names =>
    match v.step n name with
    | none => (none, [name])
    | some n' => ((v.resolve n' names).1, name :: (v.resolve n' names).2)

/-- The result is the fold over the names. -/
theorem resolve_fst (names : List Name) :
    (v.resolve n names).1 = names.foldl (fun o name => o.bind (v.step · name)) (some n) := by
  induction names generalizing n with
  | nil => rfl
  | cons name names ih =>
    rw [List.foldl_cons, Option.bind_some]
    unfold Vfs.resolve
    cases v.step n name with
    | none =>
      clear ih
      induction names with
      | nil => rfl
      | cons x xs ih => exact ih
    | some n' => exact ih

/-- A successful resolution has called `finddir` with all names. -/
theorem resolve_calls {names : List Name} (h : (v.resolve n names).1 ≠ none) : (v.resolve n names).2 = names := by
  induction names generalizing n with
  | nil => rfl
  | cons name names ih =>
    unfold Vfs.resolve at h ⊢
    cases hs : v.step n name with
    | none =>
      rw [hs] at h
      exact absurd rfl h
    | some n' =>
      rw [hs] at h
      simp only at h ⊢
      rw [ih h]

/-- A copied segment: up to the next slash, and not longer than the buffer allows. -/
theorem copySegment_eq (len : ℕ) (p : List UInt8) :
    copySegment len p = ((p.takeWhile (· ≠ slash)).take (maxName - len),
      p.drop ((p.takeWhile (· ≠ slash)).take (maxName - len)).length) := by
  induction p generalizing len with
  | nil => simp [copySegment]
  | cons c p ih =>
    unfold copySegment
    by_cases hc : c = slash
    · rw [if_neg (by simp [hc]), List.takeWhile_cons_of_neg (by simp [hc])]
      simp
    · rw [List.takeWhile_cons_of_pos (by simpa using hc)]
      by_cases hlen : len < segmentSize - 1
      · have hsucc : maxName - len = maxName - (len + 1) + 1 := by
          unfold maxName
          omega
        rw [if_pos ⟨hc, hlen⟩, ih (len + 1), hsucc, List.take_succ_cons, List.length_cons, List.drop_succ_cons]
      · have hzero : maxName - len = 0 := by
          unfold maxName
          omega
        rw [if_neg (fun h => hlen h.2), hzero]
        simp

/-- **The walk follows the pieces of the components.** -/
theorem walkLoop_pieces (p : List UInt8) :
    v.walkLoop n (skipSlashes p) = v.resolve n ((components p).flatMap (pieces maxName)) := by
  induction hk : p.length using Nat.strong_induction_on generalizing n p with
  | _ k ih =>
    have hcomp : components p = components (skipSlashes p) := words_dropWhile.symm
    have hhead : ∀ c q, skipSlashes p = c :: q → c ≠ slash := by
      intro c q hq
      have h1 := List.head?_dropWhile_not (· = slash) p
      unfold skipSlashes at hq
      rw [hq] at h1
      simpa using h1
    rw [hcomp]
    rcases hp : skipSlashes p with _ | ⟨c, q⟩
    · rw [Vfs.walkLoop]
      unfold components
      rw [words_nil]
      rfl
    · have hc := hhead c q hp
      have hlen : (c :: q).length ≤ p.length := hp ▸ length_skipSlashes p
      set w := (c :: q).takeWhile (· ≠ slash) with hw
      have hrest : (c :: q).drop w.length = (c :: q).dropWhile (· ≠ slash) := by
        have h1 := List.takeWhile_append_dropWhile (p := (· ≠ slash)) (l := c :: q)
        conv_lhs => rw [← h1]
        exact List.drop_left' rfl
      have hwne : w ≠ [] := by
        rw [hw, List.takeWhile_cons_of_pos (by simpa using hc)]
        exact List.cons_ne_nil _ _
      have hseg := copySegment_eq 0 (c :: q)
      rw [← hw, Nat.sub_zero] at hseg
      have hdec := walk_decreases (c := c) (p := q)
      -- the pieces of the first component: this segment, then what is left of it
      have hsplit : (components (c :: q)).flatMap (pieces maxName) =
          w.take maxName :: (components (copySegment 0 (c :: q)).2).flatMap (pieces maxName) := by
        have hfirst : components (c :: q) = w :: components ((c :: q).dropWhile (· ≠ slash)) := words_cons hc
        rw [hseg, hfirst, List.flatMap_cons]
        by_cases hlong : maxName < w.length
        · have htake : (w.take maxName).length = maxName := List.length_take_of_le hlong.le
          have hnext : components ((c :: q).drop maxName) =
              w.drop maxName :: components ((c :: q).dropWhile (· ≠ slash)) := words_drop hlong
          rw [pieces_long (by decide) hlong, htake, hnext, List.flatMap_cons]
          rfl
        · rw [pieces_short (not_lt.1 hlong) hwne, List.take_of_length_le (not_lt.1 hlong), hrest]
          rfl
      rw [hsplit, Vfs.walkLoop]
      unfold Vfs.resolve
      have hname : (copySegment 0 (c :: q)).1 = w.take maxName := by rw [hseg]
      rw [hname]
      cases v.step n (w.take maxName) with
      | none => rfl
      | some n' =>
        simp only
        have hnext := length_copySegment 0 (c :: q)
        have hpos : 0 < (copySegment 0 (c :: q)).1.length := by
          rw [hname, List.length_take]
          have h1 := List.length_pos_of_ne_nil hwne
          have h2 : 0 < maxName := by decide
          omega
        rw [ih (copySegment 0 (c :: q)).2.length (by omega) _ rfl]

/-- **An absolute path follows the pieces of its components.** -/
theorem vfsLookup_pieces (hr : v.root = some n) (hp : path.head? = some slash) :
    v.vfsLookup (some path) = v.resolve n ((components path).flatMap (pieces maxName)) := by
  rcases path with _ | ⟨c, p⟩
  · exact nomatch hp
  · obtain rfl : c = slash := Option.some.inj hp
    unfold Vfs.vfsLookup
    simp only [ne_eq, not_true_eq_false, if_false, hr]
    exact walkLoop_pieces (slash :: p)

/-- The tree of all names: a node is the sequence of names that leads to it. -/
def allNames : Vfs (List Name) := ⟨fun n => some fun name => some (n ++ [name]), some []⟩

theorem resolve_allNames (n : List Name) (names : List Name) :
    allNames.resolve n names = (some (n ++ names), names) := by
  induction names generalizing n with
  | nil => simp [Vfs.resolve]
  | cons name names ih =>
    have hs : allNames.step n name = some (n ++ [name]) := rfl
    unfold Vfs.resolve
    rw [hs]
    simp only [ih, List.append_assoc]
    rfl

/-- In every tree, the lookup of the path is the fold of `finddir` over its components, and a
successful one calls `finddir` with just these. -/
def ResolvesComponents (path : List UInt8) : Prop :=
  ∀ (Node : Type) (v : Vfs Node) (root : Node), v.root = some root →
    (v.vfsLookup (some path)).1 = (components path).foldl (fun o name => o.bind (v.step · name)) (some root) ∧
    ((v.vfsLookup (some path)).1 ≠ none → (v.vfsLookup (some path)).2 = components path)

/-- No component is cut. -/
def ShortNames (path : List UInt8) : Prop := ∀ name ∈ components path, name.length ≤ maxName

theorem vfsLookup_short (hr : v.root = some n) (hp : path.head? = some slash) (hs : ShortNames path) :
    v.vfsLookup (some path) = v.resolve n (components path) := by
  have hpieces : (components path).flatMap (pieces maxName) = components path :=
    flatMap_pieces (fun w hw => ne_nil_of_mem_words hw) hs
  rw [vfsLookup_pieces hr hp, hpieces]

/-- In the tree of all names, what is found is the sequence of calls. -/
theorem ResolvesComponents.short (h : ResolvesComponents path) (hp : path.head? = some slash) : ShortNames path := by
  intro name hname
  obtain ⟨h1, -⟩ := h _ allNames [] rfl
  rw [← resolve_fst, vfsLookup_pieces rfl hp, resolve_allNames, resolve_allNames] at h1
  have hpieces : (components path).flatMap (pieces maxName) = components path := by simpa using h1
  rw [← hpieces] at hname
  obtain ⟨w, -, hw⟩ := List.mem_flatMap.1 hname
  exact length_of_mem_pieces (by decide) hw

/-- **A path resolves through its components just when none of them is longer than 63
characters**, and then no other such path resolves through the same calls. -/
theorem lookup_components {path : List UInt8} (hp : path.head? = some slash) :
    (ResolvesComponents path ↔ ShortNames path) ∧
    (ShortNames path → ∀ path', path'.head? = some slash → ShortNames path' →
      components path' ≠ components path → ∀ (Node : Type) (v : Vfs Node),
        (v.vfsLookup (some path)).1 ≠ none → (v.vfsLookup (some path')).1 ≠ none →
          (v.vfsLookup (some path')).2 ≠ (v.vfsLookup (some path)).2) := by
  refine ⟨⟨fun h => h.short hp, fun hs Node v root hr => ?_⟩, fun hs path' hp' hs' hne Node v h1 h2 heq => ?_⟩
  · rw [vfsLookup_short hr hp hs]
    exact ⟨resolve_fst _, resolve_calls⟩
  · cases hr : v.root with
    | none =>
      rcases path with _ | ⟨c, p⟩
      · exact nomatch hp
      · obtain rfl : c = slash := Option.some.inj hp
        exact h1 (by simp [Vfs.vfsLookup, hr])
    | some root =>
      rw [vfsLookup_short hr hp hs] at h1 heq
      rw [vfsLookup_short hr hp' hs'] at h2 heq
      rw [resolve_calls h1, resolve_calls h2] at heq
      exact hne heq

/-- `/usr`. -/
theorem lookup_components_usr : ResolvesComponents [47, 117, 115, 114] := by
  have hs : ShortNames [47, 117, 115, 114] := by
    unfold ShortNames
    decide +kernel
  exact (lookup_components rfl).1.2 hs

/-- `/` and 64 characters: the 64th becomes a second component. -/
theorem lookup_long : ¬ ResolvesComponents (slash :: List.replicate 64 97) := by
  intro h
  have hmem : List.replicate 64 97 ∈ components (slash :: List.replicate 64 97) := by decide +kernel
  exact absurd (h.short rfl _ hmem) (by decide)

end Saynaa
