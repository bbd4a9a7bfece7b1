import Mathlib.Tactic

/-!
# Programs among others

A system takes steps, each with an event. Some events are the calls of one client, with their answers.

* `Steps`: runs, with their events.
* `Steps.project`: if only the client's own calls change its part of the system, then its calls are a run of that
  part alone, whatever happens in between.
* `Program`: what a client does, given the answers; `Program.Follows` is a list of its calls.
* `Program.inv`: the invariant rule.
-/

namespace Lib

variable {σ ε κ α V A : Type*}

/-- A run with its events. -/
inductive Steps (step : σ → ε → σ → Prop) : σ → List ε → σ → Prop
  | nil (s : σ) : Steps step s [] s
  | snoc {s t u : σ} {es : List ε} {e : ε} : Steps step s es t → step t e u → Steps step s (es ++ [e]) u

variable {step : σ → ε → σ → Prop} {s t u : σ} {es : List ε} {e : ε}

theorem Steps.snoc_inv (h : Steps step s (es ++ [e]) u) : ∃ t, Steps step s es t ∧ step t e u := by
  generalize hes : es ++ [e] = l at h
  cases h with
  | nil => exact absurd hes (by simp)
  | snoc hrun hstep =>
    obtain ⟨rfl, hlast⟩ := List.append_inj' hes rfl
    obtain rfl := List.singleton_inj.1 hlast
    exact ⟨_, hrun, hstep⟩

/-- **Invariants of runs**, which may speak of the events so far. -/
theorem Steps.inv {I : σ → List ε → Prop} (h : Steps step s es t) (h0 : I s [])
    (hstep : ∀ t es e u, I t es → step t e u → I u (es ++ [e])) : I t es := by
  induction h with
  | nil => exact h0
  | snoc _ hs ih => exact hstep _ _ _ _ ih hs

/-- **The run of a client.** `R` is the client's part `v` of a state. -/
theorem Steps.project {R : σ → V → Prop} {mine : ε → Option (κ × α)} {K : ε → Prop} {own : V → κ × α → V → Prop}
    {v : V} (hown : ∀ s v e c t, R s v → step s e t → mine e = some c → ∃ v', own v c v' ∧ R t v')
    (hother : ∀ s v e t, R s v → step s e t → mine e = none → K e → R t v)
    (hrun : Steps step s es t) (hkeep : ∀ e ∈ es, K e) (hs : R s v) :
    ∃ v', Steps own v (es.filterMap mine) v' ∧ R t v' := by
  induction hrun with
  | nil => exact ⟨v, .nil v, hs⟩
  | @snoc t u es e hrun hstep ih =>
    obtain ⟨w, hw, ht⟩ := ih fun x hx => hkeep x (List.mem_append_left _ hx)
    rw [List.filterMap_append]
    cases hm : mine e with
    | none =>
      have hlast : [e].filterMap mine = [] := by simp [hm]
      rw [hlast, List.append_nil]
      exact ⟨w, hw, hother t w e u ht hstep hm (hkeep e (by simp))⟩
    | some c =>
      have hlast : [e].filterMap mine = [c] := by simp [hm]
      obtain ⟨w', hw', hu⟩ := hown t w e c u ht hstep hm
      rw [hlast]
      exact ⟨w', hw.snoc hw', hu⟩

/-- A program: the call that it makes next, if it has not ended, and how it goes on with the answer. -/
structure Program (A κ α : Type*) where
  next : A → Option κ
  after : A → α → A

/-- The calls of a program and their answers, from one of its states to another. -/
inductive Program.Follows (p : Program A κ α) : A → List (κ × α) → A → Prop
  | nil (a : A) : Follows p a [] a
  | snoc {a b : A} {cs : List (κ × α)} {c : κ} {r : α} : Follows p a cs b → p.next b = some c →
    Follows p a (cs ++ [(c, r)]) (p.after b r)

/-- **The invariant rule** of programs. -/
theorem Program.inv {p : Program A κ α} {own : V → κ × α → V → Prop} {I : V → A → List (κ × α) → Prop} {a b : A}
    {v v' : V} {cs : List (κ × α)} (hf : p.Follows a cs b) (hrun : Steps own v cs v') (h0 : I v a [])
    (hstep : ∀ w b cs c r w', I w b cs → p.next b = some c → own w (c, r) w' → I w' (p.after b r) (cs ++ [(c, r)])) :
    I v' b cs := by
  induction hf generalizing v' with
  | nil =>
    generalize hcs : [] = cs at hrun
    cases hrun with
    | nil => exact h0
    | snoc => exact absurd hcs (by simp)
  | snoc hf hn ih =>
    obtain ⟨w, hw, hlast⟩ := hrun.snoc_inv
    exact hstep w _ _ _ _ v' (ih hw) hn hlast

end Lib
