import Saynaa.Sys.LinkedList

/-!
# What the kernel's lists are for

A list is the sequence of its elements. Each has an address, by which it is deleted or moved, and a value.
`Lists.Run.values`: the values of all lists together are kept, up to those that are added or deleted.
-/

namespace Saynaa

/-- The sequences behind the heads: the address and the value of each element. -/
abbrev Lists := ℕ → Option (List (ℕ × ℕ))

/-- **A call on sequences.** -/
inductive Lists.Step (L : Lists) : ListOp → Lists → Prop
  | add {list data new : ℕ} {l : List (ℕ × ℕ)} (h : L list = some l) :
      Step L (.add list data new) (Function.update L list (some (l ++ [(new, data)])))
  | addFront {list data new : ℕ} {l : List (ℕ × ℕ)} (h : L list = some l) :
      Step L (.addFront list data new) (Function.update L list (some ((new, data) :: l)))
  | del {entry data list : ℕ} {l₁ l₂ : List (ℕ × ℕ)} (h : L list = some (l₁ ++ (entry, data) :: l₂)) :
      Step L (.del entry) (Function.update L list (some (l₁ ++ l₂)))
  | move {entry data list head new : ℕ} {l₁ l₂ l : List (ℕ × ℕ)} (h : L list = some (l₁ ++ (entry, data) :: l₂))
      (hl : Function.update L list (some (l₁ ++ l₂)) head = some l) : Step L (.move entry head new)
        (Function.update (Function.update L list (some (l₁ ++ l₂))) head (some ((new, data) :: l)))
  | splice {list head : ℕ} {ls l : List (ℕ × ℕ)} (hne : list ≠ head) (hs : L list = some ls) (hl : L head = some l) :
      Step L (.splice list head) (Function.update (Function.update L list none) head (some (ls ++ l)))

/-- Some calls, one after the other. -/
inductive Lists.Run : Lists → List ListOp → Lists → Prop
  | nil (L : Lists) : Run L [] L
  | cons {L L' L'' : Lists} {op : ListOp} {ops : List ListOp} (h : L.Step op L') (hr : Run L' ops L'') :
      Run L (op :: ops) L''

/-! ### Values -/

/-- The values of a list. -/
def valuesOf (l : Option (List (ℕ × ℕ))) : Multiset ℕ := ↑((l.getD []).map Prod.snd)

/-- The values of all lists with a head in `S`. -/
def Lists.values (S : Finset ℕ) (L : Lists) : Multiset ℕ := ∑ hd ∈ S, valuesOf (L hd)

/-- What a call adds. -/
def ListOp.added : ListOp → Multiset ℕ
  | .add _ data _ | .addFront _ data _ => {data}
  | _ => 0

/-- How many elements it deletes. -/
def ListOp.deleted : ListOp → ℕ
  | .del _ => 1
  | _ => 0

variable {L L' : Lists} {S : Finset ℕ} {op : ListOp} {ops : List ListOp} {list a d : ℕ} {l l' l₁ l₂ : List (ℕ × ℕ)}

theorem values_update (hin : list ∈ S) (o : Option (List (ℕ × ℕ))) :
    Lists.values S (Function.update L list o) + valuesOf (L list) = L.values S + valuesOf o := by
  have hrest : ∑ hd ∈ S.erase list, valuesOf (Function.update L list o hd) = ∑ hd ∈ S.erase list, valuesOf (L hd) :=
    Finset.sum_congr rfl fun hd hhd => by rw [Function.update_of_ne (Finset.ne_of_mem_erase hhd)]
  unfold Lists.values
  rw [← Finset.add_sum_erase S _ hin, ← Finset.add_sum_erase S (fun hd => valuesOf (L hd)) hin, hrest,
    Function.update_self]
  abel

theorem valuesOf_cons : valuesOf (some ((a, d) :: l)) = {d} + valuesOf (some l) := rfl

theorem valuesOf_append : valuesOf (some (l ++ l')) = valuesOf (some l) + valuesOf (some l') := by
  unfold valuesOf
  rw [Option.getD_some, Option.getD_some, Option.getD_some, List.map_append, Multiset.coe_add]

/-- An update of one list. -/
theorem values_change {v : Multiset ℕ} (hin : list ∈ S) (hl : L list = some l)
    (hv : valuesOf (some l') = valuesOf (some l) + v) :
    Lists.values S (Function.update L list (some l')) = L.values S + v := by
  have hsum := values_update (L := L) hin (some l')
  rw [hl, hv, ← add_assoc, add_right_comm] at hsum
  exact add_right_cancel hsum

theorem values_delete (hin : list ∈ S) (hl : L list = some (l₁ ++ (a, d) :: l₂)) :
    Lists.values S (Function.update L list (some (l₁ ++ l₂))) + {d} = L.values S := by
  have hv : valuesOf (some (l₁ ++ (a, d) :: l₂)) = valuesOf (some (l₁ ++ l₂)) + {d} := by
    rw [valuesOf_append, valuesOf_append, valuesOf_cons]
    abel
  have hsum := values_update (L := L) hin (some (l₁ ++ l₂))
  rw [hl, hv, ← add_assoc, add_right_comm] at hsum
  exact add_right_cancel hsum

/-- **No call loses or duplicates a value**: it adds its argument, or deletes one, or keeps all. -/
theorem Lists.Step.values (h : L.Step op L') (hS : ∀ hd, L hd ≠ none → hd ∈ S) : (∀ hd, L' hd ≠ none → hd ∈ S) ∧
    ∃ gone : Multiset ℕ, L'.values S + gone = L.values S + op.added ∧ gone.card = op.deleted := by
  have hheads {L : Lists} {list : ℕ} {o : Option (List (ℕ × ℕ))} (hL : ∀ hd, L hd ≠ none → hd ∈ S)
    (hin : list ∈ S) (hd : ℕ) (hne : Function.update L list o hd ≠ none) : hd ∈ S := by
    by_cases heq : hd = list
    · rwa [heq]
    · rw [Function.update_of_ne heq] at hne
      exact hL hd hne
  have hmem {list : ℕ} {l : List (ℕ × ℕ)} (hl : L list = some l) : list ∈ S := hS list (hl ▸ Option.some_ne_none l)
  cases h with
  | @add list data new l h =>
    refine ⟨hheads hS (hmem h), 0, ?_, rfl⟩
    rw [add_zero]
    exact values_change (hmem h) h valuesOf_append
  | @addFront list data new l h =>
    refine ⟨hheads hS (hmem h), 0, ?_, rfl⟩
    rw [add_zero]
    exact values_change (hmem h) h (valuesOf_cons.trans (add_comm _ _))
  | @del entry data list l₁ l₂ h =>
    refine ⟨hheads hS (hmem h), {data}, ?_, rfl⟩
    exact (values_delete (hmem h) h).trans (add_zero _).symm
  | @move entry data list head new l₁ l₂ l h hl =>
    have hhead : head ∈ S := hheads hS (hmem h) head (hl ▸ Option.some_ne_none l)
    refine ⟨hheads (hheads hS (hmem h)) hhead, 0, ?_, rfl⟩
    rw [values_change hhead hl (valuesOf_cons.trans (add_comm _ _)), values_delete (hmem h) h]
    rfl
  | @splice list head ls l hne hs hl =>
    refine ⟨hheads (hheads hS (hmem hs)) (hmem hl), 0, ?_, rfl⟩
    have hsum := values_update (L := L) (hmem hs) none
    have hnone : valuesOf none = 0 := rfl
    rw [hs, hnone] at hsum
    rw [values_change (hmem hl) ((Function.update_of_ne hne.symm _ _).trans hl)
      (valuesOf_append.trans (add_comm _ _)), hsum, add_zero]
    rfl

theorem Lists.Run.values (h : Lists.Run L ops L') (hS : ∀ hd, L hd ≠ none → hd ∈ S) :
    ∃ gone : Multiset ℕ, L'.values S + gone = L.values S + (ops.map ListOp.added).sum ∧
      gone.card = (ops.map ListOp.deleted).sum := by
  induction h with
  | nil L => exact ⟨0, rfl, rfl⟩
  | @cons L L₁ L₂ op ops hstep _ ih =>
    obtain ⟨hS₁, gone₁, hv₁, hc₁⟩ := hstep.values hS
    obtain ⟨gone₂, hv₂, hc₂⟩ := ih hS₁
    refine ⟨gone₁ + gone₂, ?_, ?_⟩
    · rw [List.map_cons, List.sum_cons, ← add_assoc (L.values S), ← hv₁, add_right_comm, ← hv₂]
      abel
    · rw [Multiset.card_add, hc₁, hc₂, List.map_cons, List.sum_cons]

end Saynaa
