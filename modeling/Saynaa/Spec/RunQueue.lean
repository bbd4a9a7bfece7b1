import Mathlib.Tactic
import Mathlib.Data.List.TakeWhile

/-!
# The run queue

The purpose of a round-robin scheduler, on a list of processes whose head is the running
one, and a sleep counter for each process.

* `elect`: the first awake process behind the head becomes the head. The sleepers in front
  of it keep their places and are counted down, and the old head goes to the end. If all
  others sleep the head stays, and if it sleeps too the next one is taken all the same.
* `enqueue`, `leave`: a process joins behind the head, or leaves.
* `elect_perm`, `elect_head`, `elect_ticks`: what an election keeps, whom it takes, and
  how far it counts down.
* `elect_reading`: the same, read from behind the head round to the head.
* `Ahead Q P q`: `Q` will run before `P` does again, which no operation undoes while `Q`
  is awake and not the one elected.
-/

namespace Saynaa

variable {α : Type*} [DecidableEq α]

/-- Count the processes in `sl` down. -/
def countDown (sl : List α) (t : α → ℕ) : α → ℕ := fun a => if a ∈ sl then t a - 1 else t a

/-- **The election.** -/
def elect (t : α → ℕ) : List α → List α × (α → ℕ)
  | [] => ([], t)
  | h :: rest =>
    let sl := rest.takeWhile (0 < t ·)
    match rest.dropWhile (0 < t ·) with
    | n :: post => (n :: sl ++ post ++ [h], countDown sl t)
    | [] =>
      if t h = 0 then (h :: rest, countDown rest t)
      else (rest ++ [h], countDown (rest ++ [h]) t)

/-- A process joins behind the head. -/
def enqueue (a : α) : List α → List α
  | [] => [a]
  | h :: rest => h :: a :: rest

/-- The last element moves to the front. -/
def lastFirst (c : List α) : List α := (c.getLast?.map (· :: c.dropLast)).getD []

/-- A process leaves, and the one in front of it becomes the head. -/
def leave (x : α) (q : List α) : List α :=
  lastFirst ((q.dropWhile (· ≠ x)).tail ++ q.takeWhile (· ≠ x))

omit [DecidableEq α] in
@[simp] theorem lastFirst_append (c : List α) (y : α) : lastFirst (c ++ [y]) = y :: c := by
  simp [lastFirst]

theorem leave_append {x : α} {a : List α} (b : List α) (hx : x ∉ a) :
    leave x (a ++ x :: b) = lastFirst (b ++ a) := by
  have h : ∀ y ∈ a, (decide (y ≠ x)) = true := fun y hy => by
    simpa using fun hh : y = x => hx (hh ▸ hy)
  unfold leave
  rw [List.dropWhile_append_of_pos h, List.takeWhile_append_of_pos h]
  simp

omit [DecidableEq α] in
theorem lastFirst_perm (c : List α) : (lastFirst c).Perm c := by
  rcases List.eq_nil_or_concat c with rfl | ⟨c, y, rfl⟩
  · rfl
  · rw [List.concat_eq_append, lastFirst_append]
    exact (List.perm_append_singleton y c).symm

/-- **Only the process that leaves is gone.** -/
theorem leave_perm {x : α} {q : List α} (hx : x ∈ q) : (leave x q).Perm (q.erase x) := by
  obtain ⟨a, b, rfl, hxa⟩ := List.eq_append_cons_of_mem hx
  rw [leave_append b hxa, List.erase_append_right _ hxa, List.erase_cons_head]
  exact (lastFirst_perm _).trans List.perm_append_comm

omit [DecidableEq α] in
theorem enqueue_perm (a : α) (q : List α) : (enqueue a q).Perm (a :: q) := by
  cases q with
  | nil => rfl
  | cons h rest => exact .swap ..

/-! ### Elections -/

variable {t : α → ℕ} {q rest post sl : List α} {h n a : α}

/-- The two outcomes of an election. -/
theorem elect_cases (t : α → ℕ) (h : α) (rest : List α) :
    (∃ sl n post, rest = sl ++ n :: post ∧ (∀ a ∈ sl, 0 < t a) ∧ t n = 0 ∧
      elect t (h :: rest) = (n :: sl ++ post ++ [h], countDown sl t)) ∨
    ((∀ a ∈ rest, 0 < t a) ∧ t h = 0 ∧ elect t (h :: rest) = (h :: rest, countDown rest t)) ∨
    ((∀ a ∈ rest, 0 < t a) ∧ 0 < t h ∧
      elect t (h :: rest) = (rest ++ [h], countDown (rest ++ [h]) t)) := by
  have hsl : ∀ a ∈ rest.takeWhile (0 < t ·), 0 < t a := fun a ha => by
    simpa using List.mem_takeWhile_imp ha
  have happ := List.takeWhile_append_dropWhile (p := fun a => decide (0 < t a)) (l := rest)
  cases hd : rest.dropWhile (0 < t ·) with
  | cons n post =>
    left
    have hn : t n = 0 := by
      have := List.head_dropWhile_not (fun a => decide (0 < t a)) (l := rest) (by rw [hd]; simp)
      simpa [hd] using this
    rw [hd] at happ
    refine ⟨_, n, post, happ.symm, hsl, hn, ?_⟩
    simp only [elect, hd]
  | nil =>
    right
    rw [hd, List.append_nil] at happ
    rw [happ] at hsl
    rcases Nat.eq_zero_or_pos (t h) with h0 | h0
    · left; exact ⟨hsl, h0, by simp [elect, hd, h0]⟩
    · right; exact ⟨hsl, h0, by simp [elect, hd, h0.ne']⟩

/-- An election that finds an awake process behind the head. -/
theorem elect_awake (sl : List α) (hsl : ∀ a ∈ sl, 0 < t a) (hn : t n = 0) :
    elect t (h :: (sl ++ n :: post)) = (n :: sl ++ post ++ [h], countDown sl t) := by
  have hp : ∀ a ∈ sl, decide (0 < t a) = true := fun a ha => decide_eq_true (hsl a ha)
  simp only [elect]
  rw [List.dropWhile_append_of_pos hp, List.takeWhile_append_of_pos hp]
  simp [hn]

/-- An election that finds only sleepers behind the head. -/
theorem elect_asleep (hr : ∀ a ∈ rest, 0 < t a) :
    elect t (h :: rest) = if t h = 0 then (h :: rest, countDown rest t)
      else (rest ++ [h], countDown (rest ++ [h]) t) := by
  have hp : ∀ a ∈ rest, decide (0 < t a) = true := fun a ha => decide_eq_true (hr a ha)
  have hd : rest.dropWhile (0 < t ·) = [] := List.dropWhile_eq_nil_iff.2 hp
  simp only [elect, hd]

/-- **An election keeps the processes.** -/
theorem elect_perm (t : α → ℕ) (q : List α) : (elect t q).1.Perm q := by
  cases q with
  | nil => rfl
  | cons h rest =>
    rcases elect_cases t h rest with ⟨sl, n, post, rfl, -, -, he⟩ | ⟨-, -, he⟩ | ⟨-, -, he⟩
    · rw [he]
      have h1 : (n :: sl ++ post).Perm (sl ++ n :: post) := List.perm_middle.symm
      exact (List.perm_append_comm.trans (h1.cons h))
    · rw [he]
    · rw [he]
      exact List.perm_append_comm

/-- **The elected process** is awake, or everybody sleeps. -/
theorem elect_head {q' : List α} (he : (elect t q).1 = n :: q') :
    t n = 0 ∨ ∀ a ∈ q, 0 < t a := by
  cases q with
  | nil => simp [elect] at he
  | cons h rest =>
    rcases elect_cases t h rest with ⟨sl, n', post, rfl, -, hn, he'⟩ | ⟨-, h0, he'⟩ | ⟨hr, h0, -⟩
    · rw [he'] at he
      obtain ⟨rfl, -⟩ := List.cons.inj he
      exact .inl hn
    · rw [he'] at he
      obtain ⟨rfl, -⟩ := List.cons.inj he
      exact .inl h0
    · right
      intro a ha
      rcases List.mem_cons.1 ha with rfl | ha
      · exact h0
      · exact hr a ha

/-- **An election counts down by one at most**, and only processes of the queue. -/
theorem elect_ticks (t : α → ℕ) (q : List α) (a : α) :
    t a ≤ (elect t q).2 a + 1 ∧ (elect t q).2 a ≤ t a ∧ (a ∉ q → (elect t q).2 a = t a) := by
  have hcd : ∀ sl : List α, (∀ a ∈ sl, a ∈ q) →
      t a ≤ countDown sl t a + 1 ∧ countDown sl t a ≤ t a ∧ (a ∉ q → countDown sl t a = t a) := by
    intro sl hsl
    unfold countDown
    split_ifs with ha
    · exact ⟨by omega, by omega, fun hn => absurd (hsl a ha) hn⟩
    · exact ⟨by omega, le_rfl, fun _ => rfl⟩
  cases q with
  | nil => exact ⟨Nat.le_succ _, le_rfl, fun _ => rfl⟩
  | cons h rest =>
    rcases elect_cases t h rest with ⟨sl, n, post, rfl, -, -, he⟩ | ⟨-, -, he⟩ | ⟨-, -, he⟩
    · rw [he]; exact hcd sl (by simp +contextual)
    · rw [he]; exact hcd rest (by simp +contextual)
    · rw [he]; exact hcd (rest ++ [h]) (by simp [or_comm])

/-! ### The queue read round to its head -/

/-- The queue, read from behind its head round to the head. -/
def reading : List α → List α
  | [] => []
  | h :: rest => rest ++ [h]

/-- The first awake process of a reading; its first process where all sleep. -/
def chosen (t : α → ℕ) (r : List α) : Option α := (r.find? (t · = 0)).or r.head?

omit [DecidableEq α] in
@[simp] theorem reading_cons (h : α) (rest : List α) : reading (h :: rest) = rest ++ [h] := rfl

omit [DecidableEq α] in
theorem find_awake (sl : List α) (hsl : ∀ a ∈ sl, 0 < t a) (hn : t n = 0) :
    (sl ++ n :: post).find? (t · = 0) = some n := by
  have hs : sl.find? (t · = 0) = none := List.find?_eq_none.2 fun a ha => by
    have := hsl a ha
    simp only [decide_eq_true_eq]
    omega
  rw [List.find?_append, hs]
  simp [hn]

omit [DecidableEq α] in
theorem takeWhile_awake (sl : List α) (hsl : ∀ a ∈ sl, 0 < t a) (hn : t n = 0) :
    (sl ++ n :: post).takeWhile (0 < t ·) = sl := by
  rw [List.takeWhile_append_of_pos fun a ha => decide_eq_true (hsl a ha)]
  simp [hn]

/-- **An election takes the first awake process of the reading** and moves it to the end. The
processes in front of it are counted down, all of them where there is none. -/
theorem elect_reading (t : α → ℕ) (hq : q ≠ []) :
    ∃ e, chosen t (reading q) = some e ∧ (elect t q).1.head? = some e ∧
      reading (elect t q).1 = (reading q).erase e ++ [e] ∧
      (elect t q).2 = countDown ((reading q).takeWhile (0 < t ·)) t := by
  obtain ⟨h, rest, rfl⟩ := List.exists_cons_of_ne_nil hq
  rw [reading_cons]
  rcases elect_cases t h rest with ⟨sl, n, post, rfl, hsl, hn, he⟩ | ⟨hr, h0, he⟩ | ⟨hr, h0, he⟩
  · -- an awake process behind the head
    have hns : n ∉ sl := fun hm => by
      have := hsl n hm
      omega
    rw [he, List.append_assoc, List.cons_append]
    refine ⟨n, ?_, rfl, ?_, ?_⟩
    · rw [chosen, find_awake sl hsl hn]
      rfl
    · rw [List.erase_append_right _ hns, List.erase_cons_head]
      simp
    · rw [takeWhile_awake sl hsl hn]
  · -- the head alone is awake
    have hh : h ∉ rest := fun hm => by
      have := hr h hm
      omega
    rw [he]
    refine ⟨h, ?_, rfl, ?_, ?_⟩
    · rw [chosen, find_awake rest hr h0]
      rfl
    · rw [List.erase_append_right _ hh]
      simp
    · rw [takeWhile_awake rest hr h0]
  · -- nobody is
    have hall : ∀ a ∈ rest ++ [h], 0 < t a := fun a ha => by
      rcases List.mem_append.1 ha with ha | ha
      · exact hr a ha
      · rw [List.mem_singleton.1 ha]
        exact h0
    obtain ⟨n, post, hnp⟩ := List.exists_cons_of_ne_nil (List.concat_ne_nil h rest)
    have hnone : (rest ++ [h]).find? (t · = 0) = none := List.find?_eq_none.2 fun a ha => by
      have := hall a ha
      simp only [decide_eq_true_eq]
      omega
    rw [he]
    refine ⟨n, ?_, ?_, ?_, ?_⟩
    · rw [chosen, hnone, hnp]
      rfl
    · rw [hnp]
      rfl
    · rw [hnp, reading_cons, List.erase_cons_head]
    · rw [List.takeWhile_eq_self_iff.2 fun a ha => decide_eq_true (hall a ha)]

/-! ### Who runs first -/

/-- **`Q` runs before `P` does again**: `P` has left, or is running, or comes later. -/
def Ahead (Q P : α) (q : List α) : Prop :=
  P ∉ q ∨ (∃ rest, q = P :: rest) ∨ ∃ h a b, q = h :: (a ++ Q :: b) ∧ P ∈ b

section Ahead

variable {Q P : α}

/-- An awake process behind the head is among the first awake ones there, or is it. -/
theorem mem_of_awake (hsl : ∀ a ∈ sl, 0 < t a) (hQ : t Q = 0) (hm : Q ∈ sl ++ n :: post) :
    Q = n ∨ Q ∈ post := by
  rcases List.mem_append.1 hm with hm | hm
  · have := hsl Q hm
    omega
  · exact List.mem_cons.1 hm

/-- **An election** takes `Q`, or somebody other than `P` who leaves `Q` ahead of `P`. -/
theorem ahead_elect (hnd : q.Nodup) (hm : Q ∈ q) (hne : Q ≠ P) (hQ : t Q = 0) (ha : Ahead Q P q)
    {q' : List α} (he : (elect t q).1 = n :: q') : n = Q ∨ n ≠ P ∧ Ahead Q P (n :: q') := by
  have hperm := elect_perm t q
  rw [he] at hperm
  rcases ha with hP | ⟨rest, rfl⟩ | ⟨h, a, b, rfl, hPb⟩
  · right
    refine ⟨?_, .inl fun hh => hP (hperm.subset hh)⟩
    rintro rfl
    exact hP (hperm.subset List.mem_cons_self)
  · -- `P` runs, and goes to the end
    have hQr : Q ∈ rest := (List.mem_cons.1 hm).resolve_left hne
    rcases elect_cases t P rest with ⟨sl, n', post, rfl, hsl, hn, he'⟩ | ⟨hr, -⟩ | ⟨hr, -⟩
    · rw [he'] at he
      obtain ⟨rfl, rfl⟩ := List.cons.inj he
      rcases mem_of_awake hsl hQ hQr with rfl | hQp
      · exact .inl rfl
      · right
        have hPn := (List.nodup_cons.1 hnd).1
        obtain ⟨b₁, b₂, rfl⟩ := List.append_of_mem hQp
        refine ⟨fun hh => hPn (by simp [← hh]), .inr (.inr ⟨n', sl ++ b₁, b₂ ++ [P], by simp, by simp⟩)⟩
    · exact absurd (hr Q hQr) (by omega)
    · exact absurd (hr Q hQr) (by omega)
  · -- `P` comes later than `Q`
    have hQr : Q ∈ a ++ Q :: b := by simp
    rcases elect_cases t h (a ++ Q :: b) with ⟨sl, n', post, hrest, hsl, hn, he'⟩ | ⟨hr, -⟩ | ⟨hr, -⟩
    · rw [he'] at he
      obtain ⟨rfl, rfl⟩ := List.cons.inj he
      have hnd' := (List.nodup_cons.1 hnd).2
      rcases List.append_eq_append_iff.1 hrest with ⟨c, hsl', hc⟩ | ⟨c, ha', hc⟩
      · cases c with
        | nil => exact .inl (List.cons.inj hc).1.symm
        | cons d c =>
          obtain ⟨rfl, -⟩ := List.cons.inj hc
          exact absurd (hsl Q (by simp [hsl'])) (by omega)
      · cases c with
        | nil => exact .inl (List.cons.inj hc).1
        | cons d c =>
          obtain ⟨rfl, rfl⟩ := List.cons.inj hc
          right
          refine ⟨?_, .inr (.inr ⟨n', sl ++ c, b ++ [h], by simp, by simp [hPb]⟩)⟩
          rintro rfl
          rw [ha', List.nodup_append] at hnd'
          exact hnd'.2.2 n' (by simp) n' (by simp [hPb]) rfl
    · exact absurd (hr Q hQr) (by omega)
    · exact absurd (hr Q hQr) (by omega)

omit [DecidableEq α] in
/-- **A process that joins** is not ahead of anybody. -/
theorem ahead_enqueue (hm : Q ∈ q) (ha : Ahead Q P q) (hn : n ≠ P) : Ahead Q P (enqueue n q) := by
  cases q with
  | nil => exact absurd hm List.not_mem_nil
  | cons h rest =>
    rcases ha with hP | ⟨rest', hr⟩ | ⟨h', a, b, hr, hPb⟩
    · refine .inl fun hh => hP ?_
      simp only [enqueue, List.mem_cons] at hh ⊢
      rcases hh with hh | hh | hh
      · exact .inl hh
      · exact absurd hh.symm hn
      · exact .inr hh
    · obtain ⟨rfl, rfl⟩ := List.cons.inj hr
      exact .inr (.inl ⟨n :: rest, rfl⟩)
    · obtain ⟨rfl, rfl⟩ := List.cons.inj hr
      exact .inr (.inr ⟨h, n :: a, b, rfl, hPb⟩)

/-- **The running process leaves.** -/
theorem ahead_leave (hnd : (h :: rest).Nodup) (ha : Ahead Q P (h :: rest)) :
    Ahead Q P (leave h (h :: rest)) := by
  have hl : leave h (h :: rest) = lastFirst rest := by
    have := leave_append (a := []) rest (List.not_mem_nil (a := h))
    rwa [List.append_nil] at this
  rw [hl]
  rcases ha with hP | ⟨rest', hr⟩ | ⟨h', a, b, hr, hPb⟩
  · exact .inl fun hh => hP (List.mem_cons_of_mem _ ((lastFirst_perm rest).subset hh))
  · obtain ⟨rfl, rfl⟩ := List.cons.inj hr
    exact .inl fun hh => (List.nodup_cons.1 hnd).1 ((lastFirst_perm rest).subset hh)
  · obtain ⟨rfl, rfl⟩ := List.cons.inj hr
    rcases List.eq_nil_or_concat b with rfl | ⟨b, z, rfl⟩
    · exact absurd hPb List.not_mem_nil
    · rw [List.concat_eq_append, ← List.cons_append, ← List.append_assoc, lastFirst_append]
      rw [List.concat_eq_append, List.mem_append, List.mem_singleton] at hPb
      rcases hPb with hPb | rfl
      · exact .inr (.inr ⟨z, a, b, rfl, hPb⟩)
      · exact .inr (.inl ⟨_, rfl⟩)

end Ahead

end Saynaa
