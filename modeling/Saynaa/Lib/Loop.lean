import Mathlib.Logic.Relation
import Mathlib.Tactic

/-!
# Loops and runs

`forUp f a k s` is the C loop `for (i = a; i < a + k; i++)` whose body either goes
on with a new state or returns from the enclosing function. `forUp_rule` is its
invariant rule: an invariant of the loop variable and the state, and a property of
the returned values.

`Returns f a` says that a function with a fuel argument terminates with `a`.

`run_inv` is the invariant rule of a transition system, for finite runs. `AllStates` and
`AllSteps` speak about the run that a list of actions gives, up to the first action that
is not possible; `allStates_iff` characterises the runs that stay good by their steps.

`answers_simulates`: two systems in related states answer a list of calls alike.

`forall_splits_cons`: a property of all elements of a list with what stands before them.
-/

namespace Lib

variable {ρ σ : Type*}

/-- Outcome of one pass through a loop body. -/
inductive Flow (ρ σ : Type*) where
  | next (s : σ)
  | ret (r : ρ)

/-- A state the loop goes on with satisfies `I`, a returned value satisfies `Q`. -/
def Flow.Sat (Q : ρ → Prop) (I : σ → Prop) : Flow ρ σ → Prop
  | .next s => I s
  | .ret r => Q r

/-- `for (i = a; i < a + k; i++)`. -/
def forUp (f : ℕ → σ → Flow ρ σ) : ℕ → ℕ → σ → Flow ρ σ
  | _, 0, s => .next s
  | a, k + 1, s =>
    match f a s with
    | .ret r => .ret r
    | .next s' => forUp f (a + 1) k s'

/-- **The loop rule.** -/
theorem forUp_rule {f : ℕ → σ → Flow ρ σ} {Q : ρ → Prop} {I : ℕ → σ → Prop} (k : ℕ) :
    ∀ a s, (∀ i s, a ≤ i → i < a + k → I i s → (f i s).Sat Q (I (i + 1))) → I a s →
      (forUp f a k s).Sat Q (I (a + k)) := by
  induction k with
  | zero => intro a s _ h; exact h
  | succ k ih =>
    intro a s hf h
    have h1 := hf a s le_rfl (by omega) h
    unfold forUp
    cases hfa : f a s with
    | ret r => rw [hfa] at h1; exact h1
    | next s' =>
      rw [hfa] at h1
      have h2 := ih (a + 1) s' (fun i s hi1 hi2 => hf i s (by omega) (by omega)) h1
      rwa [show a + (k + 1) = a + 1 + k by omega]

theorem Flow.Sat.mono {Q Q' : ρ → Prop} {I I' : σ → Prop} (hQ : ∀ r, Q r → Q' r)
    (hI : ∀ s, I s → I' s) {x : Flow ρ σ} (h : x.Sat Q I) : x.Sat Q' I' := by
  cases x with
  | next s => exact hI s h
  | ret r => exact hQ r h

/-- **Termination with a result**: from some fuel on, `f` gives `a`. -/
def Returns {α : Type*} (f : ℕ → Option α) (a : α) : Prop := ∃ N, ∀ fuel, N < fuel → f fuel = some a

theorem Returns.unique {α : Type*} {f : ℕ → Option α} {a b : α} (ha : Returns f a)
    (hb : Returns f b) : a = b := by
  obtain ⟨N, hN⟩ := ha
  obtain ⟨M, hM⟩ := hb
  have h := hN (N + M + 1) (by omega)
  rw [hM (N + M + 1) (by omega)] at h
  exact (Option.some.inj h).symm

/-- A function whose results stay with more fuel. -/
theorem returns_of_succ {α : Type*} {f : ℕ → Option α} {a : α} {N : ℕ} (hf : ∀ k b, f k = some b → f (k + 1) = some b)
    (h : f N = some a) : Returns f a := by
  refine ⟨N, fun fuel hlt => ?_⟩
  induction fuel, hlt.le using Nat.le_induction with
  | base => exact h
  | succ k hk ih =>
    rcases hk.lt_or_eq with hk | rfl
    · exact hf k a (ih hk)
    · exact hf N a h

/-- A result that is known in its first part, and defined by the computation in its second. -/
theorem eq_getD {α β : Type*} {x : Option (α × β)} {a : α} {d s : β} (hs : s = (x.map Prod.snd).getD d)
    (h : x.map Prod.fst = some a) : x = some (a, s) := by
  obtain ⟨⟨_, b⟩, rfl, rfl⟩ := Option.map_eq_some_iff.1 h
  rw [hs]
  rfl

/-- **Invariants of runs.** -/
theorem run_inv {step : σ → σ → Prop} {I : σ → Prop} (hstep : ∀ s t, I s → step s t → I t)
    {s t : σ} (hs : I s) (hr : Relation.ReflTransGen step s t) : I t := by
  induction hr with
  | refl => exact hs
  | tail _ h ih => exact hstep _ _ ih h

section Actions

variable {α : Type*} {step : σ → α → Option σ}

/-- Every state of the run satisfies `P`. -/
def AllStates (step : σ → α → Option σ) (P : σ → Prop) : σ → List α → Prop
  | s, [] => P s
  | s, a :: acts => P s ∧ ∀ t, step s a = some t → AllStates step P t acts

/-- Every step of the run, from a state by an action to a state, satisfies `C`. -/
def AllSteps (step : σ → α → Option σ) (C : σ → α → σ → Prop) : σ → List α → Prop
  | _, [] => True
  | s, a :: acts => ∀ t, step s a = some t → C s a t ∧ AllSteps step C t acts

/-- Whether all steps of a run are good can be found out by running it. -/
instance AllSteps.decidable {C : σ → α → σ → Prop} [∀ s a t, Decidable (C s a t)] :
    ∀ (s : σ) (acts : List α), Decidable (AllSteps step C s acts)
  | _, [] => isTrue trivial
  | s, a :: acts =>
    match h : step s a with
    | none => isTrue fun _ ht => nomatch h.symm.trans ht
    | some u =>
      have : Decidable (AllSteps step C u acts) := AllSteps.decidable u acts
      decidable_of_iff (C s a u ∧ AllSteps step C u acts)
        ⟨fun hs _ ht => Option.some.inj (h.symm.trans ht) ▸ hs, fun hs => hs u h⟩

theorem AllStates.last {P : σ → Prop} {s t : σ} {acts : List α} (h : AllStates step P s acts)
    (ht : acts.foldlM step s = some t) : P t := by
  induction acts generalizing s with
  | nil =>
    obtain rfl := Option.some.inj ht
    exact h
  | cons a acts ih =>
    rw [List.foldlM_cons] at ht
    obtain ⟨u, hu, ht⟩ := Option.bind_eq_some_iff.1 ht
    exact ih (h.2 u hu) ht

theorem AllSteps.last {C : σ → α → σ → Prop} {s t u : σ} {a : α} {acts : List α}
    (h : AllSteps step C s (acts ++ [a])) (ht : acts.foldlM step s = some t) (hu : step t a = some u) :
    C t a u := by
  induction acts generalizing s with
  | nil =>
    obtain rfl := Option.some.inj ht
    exact (h u hu).1
  | cons b acts ih =>
    rw [List.foldlM_cons] at ht
    obtain ⟨v, hv, ht⟩ := Option.bind_eq_some_iff.1 ht
    exact ih (h v hv).2 ht

/-- **Steps from an invariant**: if each step keeps `I` and has `D`, all steps of a run have `D`. -/
theorem allSteps_of {I : σ → Prop} {D : σ → α → σ → Prop} (h : ∀ s a t, I s → step s a = some t → I t ∧ D s a t)
    {s : σ} (hs : I s) (acts : List α) : AllSteps step D s acts := by
  induction acts generalizing s with
  | nil => exact trivial
  | cons a acts ih =>
    intro t ht
    obtain ⟨hi, hd⟩ := h s a t hs ht
    exact ⟨hd, ih hi⟩

/-- **States from an invariant.** -/
theorem allStates_of {I : σ → Prop} (h : ∀ s a t, I s → step s a = some t → I t) {s : σ} (hs : I s) (acts : List α) :
    AllStates step I s acts := by
  induction acts generalizing s with
  | nil => exact hs
  | cons a acts ih => exact ⟨hs, fun t ht => ih (h s a t hs ht)⟩

/-- **Good runs are those of good steps**, where a good step keeps the invariant `I`, which
makes states good, and any other step leads to a bad state. -/
theorem allStates_iff {I P : σ → Prop} {C : σ → α → Prop} (hI : ∀ s, I s → P s)
    (hgood : ∀ s a t, I s → step s a = some t → C s a → I t)
    (hbad : ∀ s a t, I s → step s a = some t → ¬ C s a → ¬ P t) {s : σ} (hs : I s) (acts : List α) :
    AllStates step P s acts ↔ AllSteps step (fun s a _ => C s a) s acts := by
  induction acts generalizing s with
  | nil => exact iff_of_true (hI s hs) trivial
  | cons a acts ih =>
    constructor
    · intro h t ht
      have hP := h.2 t ht
      by_cases hc : C s a
      · exact ⟨hc, (ih (hgood s a t hs ht hc)).1 hP⟩
      · refine absurd ?_ (hbad s a t hs ht hc)
        cases acts with
        | nil => exact hP
        | cons b acts => exact hP.1
    · intro h
      refine ⟨hI s hs, ?_⟩
      intro t ht
      obtain ⟨hc, hrest⟩ := h t ht
      exact (ih (hgood s a t hs ht hc)).2 hrest

/-- The same for a property `D` of steps: a good step keeps the invariant and has it, any other
step does not. -/
theorem allSteps_iff {I : σ → Prop} {C : σ → α → Prop} {D : σ → α → σ → Prop}
    (hgood : ∀ s a t, I s → step s a = some t → C s a → I t ∧ D s a t)
    (hbad : ∀ s a t, I s → step s a = some t → ¬ C s a → ¬ D s a t) {s : σ} (hs : I s) (acts : List α) :
    AllSteps step D s acts ↔ AllSteps step (fun s a _ => C s a) s acts := by
  induction acts generalizing s with
  | nil => exact Iff.rfl
  | cons a acts ih =>
    constructor <;> intro h t ht
    · obtain ⟨hd, hrest⟩ := h t ht
      have hc : C s a := not_not.1 fun hc => hbad s a t hs ht hc hd
      exact ⟨hc, (ih (hgood s a t hs ht hc).1).1 hrest⟩
    · obtain ⟨hc, hrest⟩ := h t ht
      obtain ⟨hi, hd⟩ := hgood s a t hs ht hc
      exact ⟨hd, (ih hi).2 hrest⟩

/-- Two properties of steps that agree where the invariant holds. -/
theorem allSteps_congr {I : σ → Prop} {C D : σ → α → σ → Prop}
    (hI : ∀ s a t, I s → step s a = some t → I t)
    (hCD : ∀ s a t, I s → step s a = some t → (C s a t ↔ D s a t)) {s : σ} (hs : I s) (acts : List α) :
    AllSteps step C s acts ↔ AllSteps step D s acts := by
  induction acts generalizing s with
  | nil => exact Iff.rfl
  | cons a acts ih =>
    constructor <;> intro h t ht
    · exact ⟨(hCD s a t hs ht).1 (h t ht).1, (ih (hI s a t hs ht)).1 (h t ht).2⟩
    · exact ⟨(hCD s a t hs ht).2 (h t ht).1, (ih (hI s a t hs ht)).2 (h t ht).2⟩

end Actions

section Answers

variable {σ τ α ρ : Type*}

/-- The answers to a list of calls, and the state behind them. -/
def answers (step : σ → α → ρ × σ) : σ → List α → List ρ × σ
  | s, [] => ([], s)
  | s, a :: calls =>
    let (r, s) := step s a
    let (rs, s) := answers step s calls
    (r :: rs, s)

/-- **Related states** that give the same answers, call by call. -/
theorem answers_simulates {R : σ → τ → Prop} {f : σ → α → ρ × σ} {g : τ → α → ρ × τ}
    (h : ∀ s t a, R s t → (f s a).1 = (g t a).1 ∧ R (f s a).2 (g t a).2) {s : σ} {t : τ} (hst : R s t)
    (calls : List α) :
    (answers f s calls).1 = (answers g t calls).1 ∧ R (answers f s calls).2 (answers g t calls).2 := by
  induction calls generalizing s t with
  | nil => exact ⟨rfl, hst⟩
  | cons a calls ih =>
    obtain ⟨heq, hR⟩ := h s t a hst
    obtain ⟨hans, hend⟩ := ih hR
    exact ⟨congrArg₂ List.cons heq hans, hend⟩

end Answers

section Splits

variable {α : Type*} {P : List α → α → Prop} {a : α} {l : List α}

theorem forall_splits_nil : ∀ before b after, [] = before ++ b :: after → P before b := by
  intro before b after heq
  exact absurd heq (by simp)

/-- **Elements with what stands before them**: the first one, and the others behind it. -/
theorem forall_splits_cons : (∀ before b after, a :: l = before ++ b :: after → P before b) ↔
    P [] a ∧ ∀ before b after, l = before ++ b :: after → P (a :: before) b := by
  constructor
  · intro hall
    exact ⟨hall [] a l rfl, fun before b after heq => hall (a :: before) b after (by rw [heq]; rfl)⟩
  · rintro ⟨ha, hrest⟩ before b after heq
    cases before with
    | nil =>
      obtain ⟨rfl, -⟩ := List.cons.inj heq
      exact ha
    | cons c before =>
      obtain ⟨rfl, htail⟩ := List.cons.inj heq
      exact hrest before b after htail

end Splits

end Lib
