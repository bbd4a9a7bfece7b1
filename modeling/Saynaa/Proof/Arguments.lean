import Mathlib.Data.List.GetD
import Saynaa.Proof.Exec
import Saynaa.Proof.UserSpace
import Saynaa.Lib.Writes

/-!
# The arguments of a new process

* `stackBlocks`: what is written to the user stack, block by block; `setupStack_eq`.
* `ArgsPassed`: the arguments as the program expects them at its stack pointer.
-/

namespace Saynaa

open Lib

variable {m m' : Machine} {u n v a k : ℕ} {l : List UInt8} {texts argv : List (List UInt8)} {ws : List (ℕ × UInt8)}

/-! ### What is written -/

/-- The writes of `writeBytes`. -/
def byteRun (v : ℕ) : List UInt8 → List (ℕ × UInt8)
  | [] => []
  | b :: rest => (v, b) :: byteRun (add32 v 1) rest

def byteRuns (cs : List (ℕ × List UInt8)) : List (ℕ × UInt8) := cs.flatMap fun c => byteRun c.1 c.2

namespace Machine

def writeAll (m : Machine) (ws : List (ℕ × UInt8)) : Option Machine := ws.foldlM (fun m w => m.writeByte w.1 w.2) m

theorem writeAll_append (ws ws' : List (ℕ × UInt8)) :
    m.writeAll (ws ++ ws') = (m.writeAll ws).bind fun m => m.writeAll ws' := by
  unfold writeAll
  rw [List.foldlM_append]
  rfl

theorem writeBytes_eq (l : List UInt8) : ∀ (m : Machine) (v : ℕ), m.writeBytes v l = m.writeAll (byteRun v l) := by
  induction l with
  | nil =>
    intro m v
    rfl
  | cons b l ih =>
    intro m v
    unfold writeBytes byteRun writeAll
    rw [List.foldlM_cons]
    cases m.writeByte v b with
    | none => rfl
    | some m₁ => exact ih m₁ (add32 v 1)

end Machine

/-- The copies of the texts. -/
def pushedArgs (ustack : ℕ) : List (List UInt8) → List (ℕ × List UInt8)
  | [] => []
  | arg :: rest =>
    let next := sub32 ustack (arg.length + 1) / 4 * 4
    (next, arg ++ [0]) :: pushedArgs next rest

theorem pushedArgs_cons (u : ℕ) (arg : List UInt8) (rest : List (List UInt8)) :
    pushedArgs u (arg :: rest) =
      (sub32 u (arg.length + 1) / 4 * 4, arg ++ [0]) :: pushedArgs (sub32 u (arg.length + 1) / 4 * 4) rest := rfl

def pushedWords (ustack : ℕ) : List ℕ → List (ℕ × List UInt8)
  | [] => []
  | w :: rest => (sub32 ustack 4, le 4 w) :: pushedWords (sub32 ustack 4) rest

def copies (texts : List (List UInt8)) : List (ℕ × List UInt8) := pushedArgs (0xC0000000 - 1) texts

/-- `argv_user`. -/
def argvUser (texts : List (List UInt8)) : List ℕ := (copies texts).map Prod.fst

/-- The vector starts below the copies. -/
def vectorTop (texts : List (List UInt8)) : ℕ := bottom (0xC0000000 - 1) (copies texts) / 4 * 4

def vector (texts : List (List UInt8)) : List (ℕ × List UInt8) :=
  pushedWords (vectorTop texts) (0 :: (argvUser texts).reverse)

/-- `argv` in the new process. -/
def argvBase (texts : List (List UInt8)) : ℕ := bottom (vectorTop texts) (vector texts)

/-- What is on the user stack. -/
def stackBlocks (texts : List (List UInt8)) : List (ℕ × List UInt8) :=
  copies texts ++ (vector texts ++ pushedWords (argvBase texts) [argvBase texts, (argvUser texts).length])

/-- The stack pointer of the new process. -/
def stackPtr (texts : List (List UInt8)) : ℕ :=
  bottom (argvBase texts) (pushedWords (argvBase texts) [argvBase texts, (argvUser texts).length])

theorem byteRuns_cons (c : ℕ × List UInt8) (cs : List (ℕ × List UInt8)) :
    byteRuns (c :: cs) = byteRun c.1 c.2 ++ byteRuns cs := rfl

theorem byteRuns_append (cs cs' : List (ℕ × List UInt8)) : byteRuns (cs ++ cs') = byteRuns cs ++ byteRuns cs' :=
  List.flatMap_append

theorem pushArgs_eq (texts : List (List UInt8)) : ∀ (m : Machine) (u : ℕ), m.pushArgs u texts =
    (m.writeAll (byteRuns (pushedArgs u texts))).map fun m =>
      ((pushedArgs u texts).map Prod.fst, bottom u (pushedArgs u texts), m) := by
  induction texts with
  | nil =>
    intro m u
    rfl
  | cons arg rest ih =>
    intro m u
    unfold Machine.pushArgs pushedArgs
    simp only [byteRuns_cons, Machine.writeAll_append, Machine.writeBytes_eq, Option.bind_eq_bind]
    cases m.writeAll (byteRun (sub32 u (arg.length + 1) / 4 * 4) (arg ++ [0])) with
    | none => rfl
    | some m₁ =>
      simp only [Option.bind_some, ih, bottom_cons]
      cases m₁.writeAll (byteRuns (pushedArgs (sub32 u (arg.length + 1) / 4 * 4) rest)) <;> rfl

theorem pushWords_eq (words : List ℕ) : ∀ (m : Machine) (u : ℕ), m.pushWords u words =
    (m.writeAll (byteRuns (pushedWords u words))).map fun m => (bottom u (pushedWords u words), m) := by
  induction words with
  | nil =>
    intro m u
    rfl
  | cons w rest ih =>
    intro m u
    unfold Machine.pushWords pushedWords
    simp only [byteRuns_cons, Machine.writeAll_append, Machine.writeBytes_eq, Option.bind_eq_bind]
    cases m.writeAll (byteRun (sub32 u 4) (le 4 w)) with
    | none => rfl
    | some m₁ =>
      simp only [Option.bind_some, ih, bottom_cons]

/-- **The user stack** is written block by block. -/
theorem setupStack_eq (texts : List (List UInt8)) :
    m.setupStack texts = m.writeAll (byteRuns (stackBlocks texts)) := by
  unfold Machine.setupStack stackBlocks
  rw [byteRuns_append, Machine.writeAll_append, pushArgs_eq]
  change (Option.map _ (m.writeAll (byteRuns (copies texts)))).bind _ = _
  cases m.writeAll (byteRuns (copies texts)) with
  | none => rfl
  | some m₁ =>
    simp only [Option.map_some, Option.bind_some, pushWords_eq]
    change (Option.map _ (m₁.writeAll (byteRuns (vector texts)))).bind _ = _
    rw [byteRuns_append, Machine.writeAll_append]
    cases m₁.writeAll (byteRuns (vector texts)) with
    | none => rfl
    | some m₂ =>
      simp only [Option.map_some, Option.bind_some]
      change (Option.map _
        (m₂.writeAll (byteRuns (pushedWords (argvBase texts) [argvBase texts, (argvUser texts).length])))).bind _ = _
      cases m₂.writeAll (byteRuns (pushedWords (argvBase texts) [argvBase texts, (argvUser texts).length])) <;> rfl

/-! ### How much fits -/

/-- The pages of the user stack. -/
def InStack (a : ℕ) : Prop := 0xC0000000 - 0x1000 * procStackPages ≤ a ∧ a < 0xC0000000

theorem inStack_iff : InStack a ↔ 0xBFFFC000 ≤ a ∧ a < 0xC0000000 := Iff.rfl

/-- `n` bytes, up to the next word. -/
def wordRoom (n : ℕ) : ℕ := (n + 3) / 4 * 4

def textsRoom (texts : List (List UInt8)) : ℕ := (texts.map fun a => wordRoom (a.length + 1)).sum

/-- The bytes that the copies take. The pointer starts one byte below the end of the stack. -/
def copiesRoom : List (List UInt8) → ℕ
  | [] => 4
  | arg :: rest => wordRoom (arg.length + 2) + textsRoom rest

/-- The copies, the vector with its `NULL`, the pointer to it and the count. -/
def stackRoom (texts : List (List UInt8)) : ℕ := copiesRoom texts + 4 * (texts.length + 3)

theorem textsRoom_cons (arg : List UInt8) (rest : List (List UInt8)) :
    textsRoom (arg :: rest) = wordRoom (arg.length + 1) + textsRoom rest := by
  unfold textsRoom
  rw [List.map_cons, List.sum_cons]

theorem textsRoom_mod (texts : List (List UInt8)) : textsRoom texts % 4 = 0 := by
  induction texts with
  | nil => rfl
  | cons arg rest ih =>
    rw [textsRoom_cons]
    unfold wordRoom
    omega

theorem copiesRoom_cons (arg : List UInt8) (rest : List (List UInt8)) :
    copiesRoom (arg :: rest) = wordRoom (arg.length + 2) + textsRoom rest := rfl

theorem byteRun_addr (hv : v < 2 ^ 32) {i : ℕ} (hi : i < l.length) : ∃ w ∈ byteRun v l, w.1 = (v + i) % 2 ^ 32 := by
  induction l generalizing v i with
  | nil => simp at hi
  | cons b l ih =>
    cases i with
    | zero => exact ⟨_, List.mem_cons_self, by rw [Nat.add_zero, Nat.mod_eq_of_lt hv]⟩
    | succ i =>
      obtain ⟨w, hw, heq⟩ := ih (Nat.mod_lt (v + 1) (by norm_num) : add32 v 1 < 2 ^ 32) (by simpa using hi)
      refine ⟨w, List.mem_cons_of_mem _ hw, ?_⟩
      rw [heq, Nat.mod_add_mod, Nat.add_assoc, Nat.add_comm 1 i]

theorem byteRun_eq (hv : v + l.length < 2 ^ 32) : byteRun v l = block v l := by
  induction l generalizing v with
  | nil => rfl
  | cons b l ih =>
    rw [List.length_cons] at hv
    have hrest : block v (b :: l) = (v, b) :: block (v + 1) l := by
      unfold block
      rw [List.zipIdx_cons, List.map_cons, List.zipIdx_succ, List.map_map]
      congr 1
      apply List.map_congr_left
      intro p _
      simp only [Function.comp]
      congr 1
      omega
    rw [hrest, ← ih (by omega), byteRun, add32_of_lt (by omega)]

/-- **A block that is pushed** in the stack's pages fits there. -/
theorem push_fits (hlow : 0xBFFFC000 ≤ u) (hu : u ≤ 0xC0000000) (hl : 0 < l.length)
    (h : ∀ w ∈ byteRun (sub32 u l.length / 4 * 4) l, InStack w.1) :
    0xBFFFC000 + l.length ≤ u := by
  have hlt : sub32 u l.length < 2 ^ 32 := Nat.mod_lt _ (by norm_num)
  have hv : sub32 u l.length / 4 * 4 < 2 ^ 32 := by omega
  have hin : ∀ i < l.length, InStack ((sub32 u l.length / 4 * 4 + i) % 2 ^ 32) := by
    intro i hi
    obtain ⟨w, hw, heq⟩ := byteRun_addr hv hi
    exact heq ▸ h w hw
  have h0 := inStack_iff.1 (hin 0 hl)
  by_contra hbig
  rcases Nat.lt_or_ge u l.length with hwrap | hle
  · -- longer than the pages
    have h1 := inStack_iff.1 (hin 0x4000 (by omega))
    omega
  · rw [sub32_of_le hle (by omega)] at h0
    omega

theorem inside_append {cs cs' : List (ℕ × List UInt8)} :
    (∀ w ∈ byteRuns (cs ++ cs'), InStack w.1) ↔ (∀ w ∈ byteRuns cs, InStack w.1) ∧ ∀ w ∈ byteRuns cs',
      InStack w.1 := by
  rw [byteRuns_append, List.forall_mem_append]

/-- **The copies** below a word-aligned pointer. -/
theorem pushedArgs_fits (texts : List (List UInt8)) : ∀ {u : ℕ}, u % 4 = 0 → 0xBFFFC000 ≤ u → u ≤ 0xC0000000 →
    (∀ w ∈ byteRuns (pushedArgs u texts), InStack w.1) → 0xBFFFC000 + textsRoom texts ≤ u := by
  induction texts with
  | nil =>
    intro u _ hlow _ _
    exact hlow
  | cons arg rest ih =>
    intro u h4 hlow hu h
    unfold pushedArgs at h
    simp only [byteRuns_cons, List.forall_mem_append] at h
    have hlen : (arg ++ [0]).length = arg.length + 1 := by simp
    have hfit := push_fits hlow hu (l := arg ++ [0]) (by omega) (by rw [hlen]; exact h.1)
    rw [hlen] at hfit
    rw [sub32_of_le (by omega) (by omega)] at h
    have hrest := ih (by omega) (by omega) (by omega) h.2
    rw [textsRoom_cons]
    unfold wordRoom
    omega

theorem pushedArgs_placed (texts : List (List UInt8)) : ∀ {u : ℕ}, u % 4 = 0 → u ≤ 0xC0000000 →
    0xBFFFC000 + textsRoom texts ≤ u →
      Descending u (pushedArgs u texts) ∧ bottom u (pushedArgs u texts) + textsRoom texts = u ∧
        ∀ c ∈ pushedArgs u texts, c.1 % 4 = 0 := by
  induction texts with
  | nil =>
    intro u _ _ _
    exact ⟨trivial, rfl, fun c hc => absurd hc List.not_mem_nil⟩
  | cons arg rest ih =>
    intro u h4 hu hroom
    rw [textsRoom_cons] at hroom ⊢
    have hword : wordRoom (arg.length + 1) = (arg.length + 1 + 3) / 4 * 4 := rfl
    unfold pushedArgs
    rw [sub32_of_le (by omega) (by omega)]
    obtain ⟨hdesc, hbot, hmod⟩ := ih (u := (u - (arg.length + 1)) / 4 * 4) (by omega) (by omega) (by omega)
    refine ⟨⟨?_, hdesc⟩, ?_, ?_⟩
    · simp only [List.length_append, List.length_singleton]
      omega
    · simp only [bottom_cons]
      omega
    · intro c hc
      rcases List.mem_cons.1 hc with rfl | hc
      · exact Nat.mul_mod_left _ _
      · exact hmod c hc

theorem pushedWords_fits (words : List ℕ) : ∀ {u : ℕ}, u % 4 = 0 → 0xBFFFC000 ≤ u → u ≤ 0xC0000000 →
    (∀ w ∈ byteRuns (pushedWords u words), InStack w.1) → 0xBFFFC000 + 4 * words.length ≤ u := by
  induction words with
  | nil =>
    intro u _ hlow _ _
    exact hlow
  | cons w rest ih =>
    intro u h4 hlow hu h
    unfold pushedWords at h
    simp only [byteRuns_cons, List.forall_mem_append] at h
    have hword : sub32 u 4 / 4 * 4 = sub32 u 4 := by
      rw [sub32_of_le (by omega) (by omega)]
      omega
    have hfit := push_fits hlow hu (l := le 4 w) (by simp) (by rw [length_le, hword]; exact h.1)
    rw [length_le] at hfit
    rw [sub32_of_le (by omega) (by omega)] at h
    have hrest := ih (by omega) (by omega) (by omega) h.2
    rw [List.length_cons]
    omega

theorem pushedWords_placed (words : List ℕ) : ∀ {u : ℕ}, u ≤ 0xC0000000 → 4 * words.length ≤ u →
    Descending u (pushedWords u words) ∧ bottom u (pushedWords u words) + 4 * words.length = u ∧
      ∀ i (h : i < words.length), (u - 4 * (i + 1), le 4 words[i]) ∈ pushedWords u words := by
  induction words with
  | nil =>
    intro u _ _
    exact ⟨trivial, rfl, fun i hi => absurd hi (Nat.not_lt_zero i)⟩
  | cons w rest ih =>
    intro u hu hroom
    rw [List.length_cons] at hroom
    unfold pushedWords
    rw [sub32_of_le (by omega) (by omega)]
    obtain ⟨hdesc, hbot, hmem⟩ := ih (u := u - 4) (by omega) (by omega)
    refine ⟨⟨?_, hdesc⟩, ?_, ?_⟩
    · simp only [length_le]
      omega
    · simp only [bottom_cons, List.length_cons]
      omega
    · intro i hi
      rw [List.length_cons] at hi
      cases i with
      | zero => exact List.mem_cons_self
      | succ i =>
        have hin := hmem i (by omega)
        rw [show u - 4 - 4 * (i + 1) = u - 4 * (i + 1 + 1) by omega] at hin
        exact List.mem_cons_of_mem _ hin

theorem pushedArgs_text (texts : List (List UInt8)) :
    ∀ u, (pushedArgs u texts).map Prod.snd = texts.map (· ++ [0]) := by
  induction texts with
  | nil =>
    intro u
    rfl
  | cons arg rest ih =>
    intro u
    exact congrArg _ (ih _)

/-- The copies start at the odd end of the stack. -/
theorem copies_fits (h : ∀ w ∈ byteRuns (copies texts), InStack w.1) : copiesRoom texts ≤ 0x4000 := by
  cases texts with
  | nil => exact Nat.le_of_ble_eq_true rfl
  | cons arg rest =>
    unfold copies pushedArgs at h
    simp only [byteRuns_cons, List.forall_mem_append] at h
    have hlen : (arg ++ [0]).length = arg.length + 1 := by simp
    have hfit := push_fits (u := 0xC0000000 - 1) (by omega) (by omega) (l := arg ++ [0]) (by omega)
      (by rw [hlen]; exact h.1)
    rw [hlen] at hfit
    rw [sub32_of_le (by omega) (by omega)] at h
    have hrest := pushedArgs_fits rest (by omega) (by omega) (by omega) h.2
    rw [copiesRoom_cons]
    unfold wordRoom
    omega

theorem copies_placed (hroom : copiesRoom texts ≤ 0x4000) :
    Descending (0xC0000000 - 1) (copies texts) ∧ vectorTop texts + copiesRoom texts = 0xC0000000 ∧
      ∀ c ∈ copies texts, c.1 % 4 = 0 := by
  cases texts with
  | nil => exact ⟨trivial, rfl, fun c hc => absurd hc List.not_mem_nil⟩
  | cons arg rest =>
    have hword : wordRoom (arg.length + 2) = (arg.length + 2 + 3) / 4 * 4 := rfl
    rw [copiesRoom_cons] at hroom ⊢
    have hnext : sub32 (0xC0000000 - 1) (arg.length + 1) / 4 * 4 = 0xC0000000 - wordRoom (arg.length + 2) := by
      rw [sub32_of_le (by omega) (by omega)]
      omega
    obtain ⟨hdesc, hbot, hmod⟩ :=
      pushedArgs_placed rest (u := 0xC0000000 - wordRoom (arg.length + 2)) (by omega) (by omega) (by omega)
    have hcopies : copies (arg :: rest) = (0xC0000000 - wordRoom (arg.length + 2), arg ++ [0]) ::
        pushedArgs (0xC0000000 - wordRoom (arg.length + 2)) rest := by
      unfold copies
      rw [pushedArgs_cons, hnext]
    unfold vectorTop
    rw [hcopies]
    refine ⟨⟨?_, hdesc⟩, ?_, ?_⟩
    · simp only [List.length_append, List.length_singleton]
      omega
    · have h4 := textsRoom_mod rest
      simp only [bottom_cons]
      omega
    · intro c hc
      rcases List.mem_cons.1 hc with rfl | hc
      · simp only
        omega
      · exact hmod c hc

theorem length_copies : (copies texts).length = texts.length := by
  have h := congrArg List.length (pushedArgs_text texts (0xC0000000 - 1))
  rwa [List.length_map, List.length_map] at h

theorem length_argvUser : (argvUser texts).length = texts.length := by
  unfold argvUser
  rw [List.length_map, length_copies]

/-- **The stack**: where its parts are, from the copies down to the count. -/
structure StackLaid (texts : List (List UInt8)) : Prop where
  desc : Descending (0xC0000000 - 1) (stackBlocks texts)
  copiesDesc : Descending (0xC0000000 - 1) (copies texts)
  low : 0xBFFFC000 ≤ stackPtr texts
  bottom_eq : bottom (0xC0000000 - 1) (stackBlocks texts) = stackPtr texts
  base : stackPtr texts + 8 = argvBase texts
  top : argvBase texts + 4 * (texts.length + 1) = vectorTop texts
  above : vectorTop texts ≤ bottom (0xC0000000 - 1) (copies texts)
  aligned : ∀ c ∈ copies texts, c.1 % 4 = 0
  entry : ∀ i (h : i < (0 :: (argvUser texts).reverse).length),
    (vectorTop texts - 4 * (i + 1), le 4 (0 :: (argvUser texts).reverse)[i]) ∈ stackBlocks texts
  count : (stackPtr texts, le 4 texts.length) ∈ stackBlocks texts
  argv : (stackPtr texts + 4, le 4 (argvBase texts)) ∈ stackBlocks texts

theorem length_vector : (0 :: (argvUser texts).reverse).length = texts.length + 1 := by
  rw [List.length_cons, List.length_reverse, length_argvUser]

theorem stack_laid (hroom : stackRoom texts ≤ 0x4000) : StackLaid texts := by
  unfold stackRoom at hroom
  obtain ⟨hcopies, htop, hmod⟩ := copies_placed (show copiesRoom texts ≤ 0x4000 by omega)
  obtain ⟨hvector, hbase, hentry⟩ :=
    pushedWords_placed (0 :: (argvUser texts).reverse) (u := vectorTop texts) (by omega)
    (by rw [length_vector]; omega)
  rw [length_vector] at hbase
  change argvBase texts + _ = _ at hbase
  obtain ⟨hlast, hptr, hword⟩ :=
    pushedWords_placed [argvBase texts, (argvUser texts).length] (u := argvBase texts) (by omega)
    (by simp only [List.length_cons, List.length_nil]; omega)
  change stackPtr texts + 4 * 2 = _ at hptr
  have hle : vectorTop texts ≤ bottom (0xC0000000 - 1) (copies texts) := Nat.div_mul_le_self _ _
  have hlen : (argvUser texts).length = texts.length := length_argvUser
  have hbot : bottom (bottom (0xC0000000 - 1) (copies texts)) (vector texts) = argvBase texts := rfl
  refine ⟨?_, hcopies, by omega, ?_, by omega, hbase, hle, hmod, ?_, ?_, ?_⟩
  · exact hcopies.append ((hvector.mono hle).append hlast)
  · unfold stackBlocks
    rw [bottom_append, bottom_append, hbot]
    rfl
  · intro i hi
    exact List.mem_append_right _ (List.mem_append_left _ (hentry i hi))
  · have h1 := hword 1 (by simp)
    rw [show argvBase texts - 4 * (1 + 1) =
      stackPtr texts by omega, List.getElem_cons_succ, List.getElem_cons_zero] at h1
    rw [← hlen]
    exact List.mem_append_right _ (List.mem_append_right _ h1)
  · have h0 := hword 0 (by simp)
    rw [show argvBase texts - 4 * (0 + 1) = stackPtr texts + 4 by omega, List.getElem_cons_zero] at h0
    exact List.mem_append_right _ (List.mem_append_right _ h0)

/-- Nothing wraps around. -/
theorem StackLaid.runs (h : StackLaid texts) : byteRuns (stackBlocks texts) = blocks (stackBlocks texts) := by
  unfold byteRuns blocks
  apply List.flatMap_congr
  intro c hc
  have := h.desc.below hc
  exact byteRun_eq (by omega)

/-- **The stack is in its pages** exactly if there is room for it. -/
theorem stack_inside : (∀ w ∈ byteRuns (stackBlocks texts), InStack w.1) ↔ stackRoom texts ≤ 0x4000 := by
  constructor
  · unfold stackBlocks
    rw [inside_append, inside_append]
    rintro ⟨hcopies, hvector, hlast⟩
    obtain ⟨-, htop, -⟩ := copies_placed (copies_fits hcopies)
    have hmod : vectorTop texts % 4 = 0 := Nat.mul_mod_left _ _
    have hroom := copies_fits hcopies
    have hv := pushedWords_fits _ hmod (by omega) (by omega) hvector
    rw [length_vector] at hv
    obtain ⟨-, hbase, -⟩ :=
      pushedWords_placed (0 :: (argvUser texts).reverse) (u := vectorTop texts) (by omega)
        (by rw [length_vector]; omega)
    rw [length_vector] at hbase
    change argvBase texts + _ = _ at hbase
    have hl := pushedWords_fits _ (u := argvBase texts) (by omega) (by omega) (by omega) hlast
    simp only [List.length_cons, List.length_nil] at hl
    unfold stackRoom
    omega
  · intro hroom w hw
    have h := stack_laid hroom
    rw [h.runs] at hw
    obtain ⟨c, hc, hw⟩ := List.mem_flatMap.1 hw
    obtain ⟨i, hi, rfl⟩ := mem_block.1 hw
    have h1 := h.desc.below hc
    have h2 := h.desc.bottom_le hc
    have h3 := h.low
    rw [h.bottom_eq] at h2
    rw [inStack_iff]
    simp only
    omega

/-! ### What the program finds -/

/-- The bytes `l` at `a`, whatever was there before. -/
def StackHolds (ws : List (ℕ × UInt8)) (a : ℕ) (l : List UInt8) : Prop :=
  ∀ (f : ℕ → UInt8) (i : ℕ) (h : i < l.length), writes ws f (a + i) = l[i]

/-- `[a, a + n)` and `[b, b + k)` do not overlap. -/
def RangesApart (a n b k : ℕ) : Prop := a + n ≤ b ∨ b + k ≤ a

/-- **Argument passing**, for the writes `ws` and the stack pointer `sp`: they are in the pages of
the stack, and `argc` and `argv` are at `sp`, with an aligned copy of each of the first 64
arguments. The copies and the vector do not overlap. -/
structure ArgsPassed (argv : List (List UInt8)) (ws : List (ℕ × UInt8)) (sp : ℕ) : Prop where
  inside : ∀ w ∈ ws, InStack w.1
  passed : ∃ (base : ℕ) (copy : ℕ → ℕ),
    StackHolds ws sp (le 4 (min argv.length 64)) ∧ StackHolds ws (sp + 4) (le 4 base) ∧
    StackHolds ws (base + 4 * min argv.length 64) (le 4 0) ∧
    ∀ i (h : i < argv.length), i < 64 →
      StackHolds ws (base + 4 * i) (le 4 (copy i)) ∧ copy i % 4 = 0 ∧ StackHolds ws (copy i) (argv[i] ++ [0]) ∧
      RangesApart (copy i) (argv[i].length + 1) base (4 * (min argv.length 64 + 1)) ∧
      ∀ j (h' : j < argv.length), j < 64 → j ≠ i →
        RangesApart (copy i) (argv[i].length + 1) (copy j) (argv[j].length + 1)

theorem StackLaid.holds (h : StackLaid texts) {c : ℕ × List UInt8} (hc : c ∈ stackBlocks texts) :
    StackHolds (byteRuns (stackBlocks texts)) c.1 c.2 := by
  intro f i hi
  rw [h.runs]
  exact h.desc.holds hc hi

/-- Entry `i` of the vector. -/
theorem StackLaid.vector (h : StackLaid texts) {i : ℕ} (hi : i < texts.length) :
    (argvBase texts + 4 * i, le 4 ((argvUser texts).getD i 0)) ∈ stackBlocks texts := by
  have hu : i < (argvUser texts).length := by rwa [length_argvUser]
  have hv : texts.length - i < (0 :: (argvUser texts).reverse).length := by
    rw [length_vector]
    omega
  have hin := h.entry (texts.length - i) hv
  have htop := h.top
  rw [show vectorTop texts - 4 * (texts.length - i + 1) = argvBase texts + 4 * i by omega] at hin
  have hget : (0 :: (argvUser texts).reverse)[texts.length - i] = (argvUser texts)[i] := by
    rw [List.getElem_cons, dif_neg (by omega), List.getElem_reverse]
    congr 1
    rw [length_argvUser]
    omega
  rwa [hget, ← List.getD_eq_getElem _ 0] at hin

/-- The copies, with their texts. -/
theorem copies_getElem {i : ℕ} (hi : i < texts.length) :
    ∃ hc : i < (copies texts).length, (copies texts)[i] = ((argvUser texts).getD i 0, texts[i] ++ [0]) := by
  have hc : i < (copies texts).length := by rwa [length_copies]
  have hu : i < (argvUser texts).length := by rwa [length_argvUser]
  have hsnd : (copies texts)[i].2 = texts[i] ++ [0] := by
    have h := List.getElem_of_eq (pushedArgs_text texts (0xC0000000 - 1)) (i := i)
      (by rw [List.length_map]; exact length_copies ▸ hi)
    rwa [List.getElem_map, List.getElem_map] at h
  refine ⟨hc, ?_⟩
  have hfst : (argvUser texts)[i] = (copies texts)[i].1 := List.getElem_map ..
  rw [← hsnd, List.getD_eq_getElem _ _ hu, hfst]

/-- **Everything is passed** if there is room. -/
theorem args_passed (hroom : stackRoom (argv.take 64) ≤ 0x4000) :
    ArgsPassed argv (byteRuns (stackBlocks (argv.take 64))) (stackPtr (argv.take 64)) := by
  have h := stack_laid hroom
  have hlen : (argv.take 64).length = min argv.length 64 := by rw [List.length_take, min_comm]
  have hbase := h.base
  have htop := h.top
  have habove := h.above
  refine ⟨stack_inside.2 hroom, argvBase (argv.take 64), fun i => (argvUser (argv.take 64)).getD i 0, ?_,
    h.holds h.argv, ?_, ?_⟩
  · rw [← hlen]
    exact h.holds h.count
  · have h0 := h.entry 0 (by rw [length_vector]; omega)
    rw [show vectorTop (argv.take 64) - 4 * (0 + 1) = argvBase (argv.take 64) + 4 * min argv.length 64 by omega] at h0
    exact h.holds h0
  -- the copies, each with its address and its text
  have hcopy : ∀ i (hi : i < argv.length), i < 64 → ∃ hi' : i < (copies (argv.take 64)).length,
      (copies (argv.take 64))[i] = ((argvUser (argv.take 64)).getD i 0, argv[i] ++ [0]) := by
    intro i hi hi64
    have hi' : i < (argv.take 64).length := by omega
    obtain ⟨hc, hget⟩ := copies_getElem hi'
    refine ⟨hc, ?_⟩
    rw [hget, List.getElem_take]
  intro i hi hi64
  obtain ⟨hi', hci⟩ := hcopy i hi hi64
  have hmem : (copies (argv.take 64))[i] ∈ copies (argv.take 64) := List.getElem_mem _
  have hentry := h.vector (i := i) (by omega)
  have hbottom := h.copiesDesc.bottom_le hmem
  have hholds := h.holds (List.mem_append_left _ hmem)
  have hmod := h.aligned _ hmem
  rw [hci] at hbottom hholds hmod
  refine ⟨h.holds hentry, hmod, hholds, .inr (by simp only at hbottom ⊢; omega), ?_⟩
  intro j hj hj64 hne
  obtain ⟨hj', hcj⟩ := hcopy j hj hj64
  rcases Nat.lt_or_gt_of_ne hne with hlt | hlt
  · have hsep := h.copiesDesc.lt hlt hi'
    rw [hci, hcj] at hsep
    simp only [List.length_append, List.length_singleton] at hsep
    exact .inl hsep
  · have hsep := h.copiesDesc.lt hlt hj'
    rw [hci, hcj] at hsep
    simp only [List.length_append, List.length_singleton] at hsep
    exact .inr hsep

/-! ### The machine -/

/-- The bytes that are written to mapped user pages are there. -/
theorem writeAll_ok (ws : List (ℕ × UInt8)) : ∀ {m : Machine}, UserOK m →
    (∀ w ∈ ws, w.1 < 0xC0000000 ∧ mapping m (w.1 / 4096) ≠ none) → ∃ m', m.writeAll ws = some m' ∧ SamePages m m' ∧
      ∀ a < 0xC0000000, ((∃ w ∈ ws, w.1 = a) → ∀ f, m'.byteAt a = some (writes ws f a)) ∧
        ((∀ w ∈ ws, w.1 ≠ a) → m'.byteAt a = m.byteAt a) := by
  induction ws with
  | nil =>
    intro m _ _
    exact ⟨m, rfl, .refl m, fun a _ => ⟨fun hw => absurd hw (by simp), fun _ => rfl⟩⟩
  | cons w ws ih =>
    intro m h hin
    obtain ⟨hw, hm⟩ := hin w List.mem_cons_self
    obtain ⟨m₁, hw₁, hsame, hbyte⟩ := writeByte_ok h hw hm w.2
    obtain ⟨m', hw', hsame', hbyte'⟩ := ih (hsame.user h) fun w' hw' => by
      rw [hsame.mapping]
      exact hin w' (List.mem_cons_of_mem _ hw')
    refine ⟨m', ?_, hsame.trans hsame', ?_⟩
    · unfold Machine.writeAll
      rw [List.foldlM_cons, hw₁]
      exact hw'
    intro a ha
    obtain ⟨hlater, hnever⟩ := hbyte' a ha
    refine ⟨fun hmem f => ?_, fun hmem => ?_⟩
    · rw [writes_cons]
      by_cases hl : ∃ w' ∈ ws, w'.1 = a
      · -- a later write decides
        exact hlater hl _
      · -- the first write is the only one here
        push Not at hl
        obtain ⟨w', hw', rfl⟩ := hmem
        obtain rfl : w' = w := (List.mem_cons.1 hw').resolve_right fun hh => hl w' hh rfl
        rw [hnever hl, hbyte _ ha, if_pos rfl, writes_of_notMem hl, Function.update_self]
    · rw [hnever fun w' hw' => hmem w' (List.mem_cons_of_mem _ hw'), hbyte a ha,
        if_neg (hmem w List.mem_cons_self).symm]

/-- Bytes that are there whatever was there before were written. -/
theorem StackHolds.written (h : StackHolds ws a l) {i : ℕ} (hi : i < l.length) : ∃ w ∈ ws, w.1 = a + i := by
  by_contra hn
  push Not at hn
  have h0 := h (fun _ => 0) i hi
  have h1 := h (fun _ => 1) i hi
  rw [writes_of_notMem hn] at h0 h1
  exact absurd (h0.trans h1.symm) (by decide)

/-- `mapStack`, without looking into the allocator. -/
theorem mapStack_fun : Machine.mapStack = fun m =>
    let (phys, pmm) := m.pmm.pmmAllocPages procStackPages
    (m.withPmm pmm).pagingMapPages (0xC0000000 - 0x1000 * procStackPages) phys
      (pageUser ||| pageRw) procStackPages := rfl

theorem mapStack_eq {r : ℕ} {pmm : Pmm} (hal : m.pmm.pmmAllocPages procStackPages = (r, pmm)) :
    m.mapStack = (m.withPmm pmm).pagingMapPages (0xBFFFC * 4096) r (pageUser ||| pageRw) procStackPages := by
  have hpages : procStackPages = 4 := rfl
  have htop : 0xC0000000 - 0x1000 * procStackPages = 0xBFFFC * 4096 := by rw [hpages]
  refine (congrFun mapStack_fun m).trans ?_
  rewrite [hal, htop]
  dsimp only

/-- **The user stack of the process** holds what is pushed, if its frames were found. -/
theorem setupStack_holds {m₁ : Machine} (h : UserOK m₁) (hframes : (m₁.pmm.pmmAllocPages procStackPages).1 ≠ 0)
    (hstack : m₁.mapStack = some m) (hl : m.tableLost = false) (hroom : stackRoom texts ≤ 0x4000) :
    ∃ m', m.setupStack texts = some m' ∧ ∀ a l, StackHolds (byteRuns (stackBlocks texts)) a l →
      ∀ i (hi : i < l.length), m'.byteAt (a + i) = some l[i] := by
  have hnum : 0xBFFFC + procStackPages ≤ userPages := Nat.le_of_ble_eq_true rfl
  have hflags : ¬ large (pageUser ||| pageRw) := by decide
  obtain ⟨⟨r, pmm⟩, hal⟩ : ∃ x, m₁.pmm.pmmAllocPages procStackPages = x := ⟨_, rfl⟩
  rw [hal] at hframes
  rw [mapStack_eq hal] at hstack
  obtain ⟨hu, -, -, hmap⟩ := mapRegion_ok h hnum hal (.inl hframes) hflags hstack hl
  obtain ⟨m', hw, -, hbyte⟩ := writeAll_ok (byteRuns (stackBlocks texts)) hu (by
    intro w hw
    have hin := inStack_iff.1 (stack_inside.2 hroom w hw)
    refine ⟨hin.2, ?_⟩
    have hpages : procStackPages = 4 := rfl
    rw [hmap, if_pos (by omega)]
    exact Option.some_ne_none _)
  refine ⟨m', by rw [setupStack_eq, hw], ?_⟩
  intro a l hholds i hi
  obtain ⟨w, hw, heq⟩ := hholds.written hi
  have hin := inStack_iff.1 (stack_inside.2 hroom w hw)
  rw [(hbyte (a + i) (by omega)).1 ⟨w, hw, heq⟩ fun _ => 0, hholds]

theorem freeArgs_machine {s : Exec} (args : List Arg) : (s.freeArgs args).machine = s.machine := by
  unfold Exec.freeArgs
  induction args generalizing s with
  | nil => rfl
  | cons a args ih => exact ih

theorem schedAdd_machine {fuel process : ℕ} {s t : Exec} {r : Process} (h : s.schedAdd fuel process r = some t) :
    t.machine = s.machine := by
  unfold Exec.schedAdd at h
  obtain ⟨⟨node, u⟩, hu, h⟩ := Option.bind_eq_some_iff.1 h
  obtain ⟨ring, -, h⟩ := Option.bind_eq_some_iff.1 h
  obtain rfl := Option.some.inj h
  obtain ⟨heap, l, rfl, -⟩ := (kmalloc_cases hu).2
  rfl

/-- **Arguments of 16 KiB** do not fit: they are written to the page below the stack. -/
theorem arguments_overflow :
    let argv := [List.replicate 0x4000 (65 : UInt8)]
    ¬ ArgsPassed argv (byteRuns (stackBlocks (argv.take 64))) (stackPtr (argv.take 64)) := by
  intro argv h
  have hroom := stack_inside.1 h.inside
  have htake : argv.take 64 = argv := rfl
  rw [htake] at hroom
  unfold stackRoom at hroom
  rw [copiesRoom_cons, List.length_replicate] at hroom
  unfold wordRoom at hroom
  omega

/-- **Arguments are passed** to a new process exactly if the stack has room for them: at its stack
pointer are the count and the vector of the first 64, whose copies are disjoint. -/
theorem arguments_passed (argv : List (List UInt8)) :
    (ArgsPassed argv (byteRuns (stackBlocks (argv.take 64))) (stackPtr (argv.take 64)) ↔
      stackRoom (argv.take 64) ≤ 0x1000 * procStackPages) ∧
    (∀ (fuel : ℕ) (s : Exec) (x : Binary) (process : ℕ) (t : Exec), s.procRunCode fuel x argv =
      some (some process, t) → ∃ (m₁ m m' : Machine) (prev : ℕ), m₁.mapStack = some m ∧
        m.writeAll (byteRuns (stackBlocks (argv.take 64))) = some m' ∧ t.machine = m'.pagingSwitchDirectory prev) ∧
    ∀ m₁ m : Machine, UserOK m₁ → (m₁.pmm.pmmAllocPages procStackPages).1 ≠ 0 → m₁.mapStack = some m →
      m.tableLost = false →
      stackRoom (argv.take 64) ≤ 0x1000 * procStackPages → ∃ m', m.setupStack (argv.take 64) = some m' ∧
        ∀ a l, StackHolds (byteRuns (stackBlocks (argv.take 64))) a l → ∀ i (hi : i < l.length),
          m'.byteAt (a + i) = some l[i] := by
  refine ⟨⟨fun h => stack_inside.1 h.inside, args_passed⟩, ?_, ?_⟩
  · -- a process that was started
    intro fuel s x process t h
    have htemp : ∃ s₁, s.allocTempPage fuel = some s₁ := by
      unfold Exec.procRunCode at h
      obtain ⟨s₁, h₁, -⟩ := Option.bind_eq_some_iff.1 h
      exact ⟨s₁, h₁⟩
    obtain ⟨s₁, htemp⟩ := htemp
    obtain ⟨s₂, -, hout⟩ := runCode_cases h htemp
    cases hout with
    | started hnew hprev hne hload hstack hargs hadd =>
      rw [setupStack_eq] at hargs
      exact ⟨_, _, _, _, hstack, hargs, (schedAdd_machine hadd).trans (freeArgs_machine _)⟩
  · -- the bytes that its stack holds
    intro m₁ m h hframes hstack hl hroom
    exact setupStack_holds h hframes hstack hl hroom

/-- The arguments `ls` and `-l`. -/
theorem arguments_passed_two :
    ArgsPassed [[108, 115], [45, 108]] (byteRuns (stackBlocks (List.take 64 [[108, 115], [45, 108]])))
    (stackPtr (List.take 64 [[108, 115], [45, 108]])) :=
  (arguments_passed [[108, 115], [45, 108]]).1.2 (by decide)

end Saynaa
