import Saynaa.Lib.Bytes
import Saynaa.Sys.Files

/-!
# Descriptors

* `allocFd_cases`: a new descriptor is the first free one.
* `FdStep`: a call, as its process sees it.
* `steps_own`: only a process's own calls change its descriptors.
* `FdStep.frame`: a call on another descriptor leaves an open one as it is.
* `VfsNode.IsFile`: a node with a fixed content.
* `reads_in_order`: reads through a descriptor follow one another, whatever else happens.
-/

namespace Saynaa

open Lib

variable {σ : Type} {d : Drivers σ} {s t : FileState σ} {v v' : FdTable σ} {i j : Fin procMaxFd} {node : VfsNode σ}
  {flags : BitVec 32} {fd r : ℤ} {c : FileCall} {a : FileAnswer} {pid size o n : ℕ} {content : List UInt8}
  {buffer : ℕ → UInt8}

/-! ### Entries -/

theorem fdFromIndex_some : fdFromIndex v fd = some i ↔ fd = (i.val : ℤ) ∧ (v i).used = true := by
  unfold fdFromIndex
  split_ifs with h hused
  · constructor
    · intro hn
      cases hn
    · rintro ⟨rfl, -⟩
      have hi := i.isLt
      omega
  · rw [Option.some.injEq]
    constructor
    · rintro rfl
      exact ⟨by show fd = (fd.toNat : ℤ); omega, hused⟩
    · rintro ⟨rfl, -⟩
      exact Fin.ext (Int.toNat_natCast i.val)
  · constructor
    · intro hn
      cases hn
    · rintro ⟨rfl, hu⟩
      exact absurd hu hused

theorem fdFromIndex_used (h : (v i).used = true) : fdFromIndex v (i.val : ℤ) = some i := fdFromIndex_some.2 ⟨rfl, h⟩

/-- **A new descriptor** is the first free one, if there is one. -/
theorem allocFd_cases (v : FdTable σ) (node : VfsNode σ) (flags : BitVec 32) :
    (∃ i : Fin procMaxFd, (v i).used = false ∧ (∀ j < i, (v j).used = true) ∧
      allocFd v node flags =
        ((i.val : ℤ), Function.update v i
          ⟨true, flags, if flagged flags oAppend then node.length else 0, some node⟩)) ∨
    ((∀ i, (v i).used = true) ∧ allocFd v node flags = (-1, v)) := by
  unfold allocFd
  cases hfind : (List.finRange procMaxFd).find? fun i => !(v i).used with
  | none =>
    refine .inr ⟨fun i => ?_, rfl⟩
    have h := List.find?_eq_none.1 hfind i (List.mem_finRange i)
    simpa using h
  | some i =>
    refine .inl ⟨i, ?_, ?_, rfl⟩
    · simpa using List.find?_some hfind
    · intro j hj
      obtain ⟨k, hk, hget, hbefore⟩ := List.find?_eq_some_iff_getElem.1 hfind |>.2
      have hik : i.val = k := by
        rw [← hget, List.getElem_finRange]
        rfl
      have hlt : j.val < k := by
        rw [← hik]
        exact hj
      have h := hbefore j.val hlt
      rw [List.getElem_finRange] at h
      simpa using h

theorem openNode_frame (h : (s.fds i).used = true) (node : VfsNode σ) (flags : BitVec 32) :
    (s.openNode node flags).2.fds i = s.fds i := by
  show (allocFd s.fds node flags).2 i = s.fds i
  rcases allocFd_cases s.fds node flags with ⟨j, hfree, -, heq⟩ | ⟨-, heq⟩
  · have hij : i ≠ j := by
      rintro rfl
      rw [h] at hfree
      cases hfree
    rw [heq]
    exact Function.update_of_ne hij _ _
  · rw [heq]

/-! ### System calls -/

/-- The descriptor that a call is about. -/
def FileCall.descriptor : FileCall → Option ℤ
  | .open _ _ => none
  | .close fd | .read fd _ _ | .write fd _ | .seek fd _ _ => some fd

/-- At most the entry of `fd` changes. -/
def Touches (s t : FileState σ) (fd : ℤ) : Prop :=
  t.fds = s.fds ∨ ∃ i e, fdFromIndex s.fds fd = some i ∧ t.fds = Function.update s.fds i e

theorem Touches.frame (h : Touches s t fd) (hfd : fd ≠ (i.val : ℤ)) : t.fds i = s.fds i := by
  rcases h with h | ⟨j, e, hj, h⟩
  · rw [h]
  · have hij : i ≠ j := by
      rintro rfl
      exact hfd (fdFromIndex_some.1 hj).1
    rw [h]
    exact Function.update_of_ne hij _ _

theorem advance_touches (hi : fdFromIndex s.fds fd = some i) (w : σ) (n : ℤ) :
    Touches s ({ s with world := w }.advance i n) fd := by
  unfold FileState.advance
  split_ifs
  · exact .inr ⟨i, _, hi, rfl⟩
  · exact .inl rfl

theorem open_frame {path : Option Name} (h : s.syscallOpen d path flags = some (r, t)) (hi : (s.fds i).used = true) :
    t.fds i = s.fds i := by
  unfold FileState.syscallOpen at h
  cases path with
  | none =>
    cases h
    rfl
  | some path =>
    simp only at h
    by_cases hp : path = ptmxPath
    · -- the master of a new terminal
      rw [if_pos hp] at h
      obtain ⟨⟨node, w⟩, -, heq⟩ := Option.map_eq_some_iff.1 h
      cases node with
      | none =>
        cases heq
        rfl
      | some node =>
        have hfr := openNode_frame (s := { s with world := w }) hi node (if flags ≠ 0 then flags else oRdwr)
        have ht : ({ s with world := w }.openNode node (if flags ≠ 0 then flags else oRdwr)) = (r, t) := heq
        rwa [ht] at hfr
    · -- a node of the file system
      rw [if_neg hp] at h
      obtain ⟨⟨node, w⟩, -, heq⟩ := Option.map_eq_some_iff.1 h
      cases node with
      | none =>
        cases heq
        rfl
      | some node =>
        have hfr := openNode_frame (s := { s with world := w }) hi node flags
        have ht : (if flagged flags oRdonly ∧ node.read.isNone then (-1, { s with world := w })
          else if flagged flags oWronly ∧ node.write.isNone then (-1, { s with world := w })
          else { s with world := w }.openNode node flags) = (r, t) := heq
        split_ifs at ht
        · cases ht
          rfl
        · cases ht
          rfl
        · rwa [ht] at hfr

theorem close_touches (s : FileState σ) (fd : ℤ) : Touches s (s.syscallClose fd).2 fd := by
  unfold FileState.syscallClose
  cases hi : fdFromIndex s.fds fd with
  | none => exact .inl rfl
  | some i => exact .inr ⟨i, _, hi, rfl⟩

theorem readTty_fds {buffer' : ℕ → UInt8} (h : s.readTty d size buffer = some (r, buffer', t)) : t.fds = s.fds := by
  obtain ⟨x, -, heq⟩ := Option.map_eq_some_iff.1 h
  cases heq
  rfl

theorem writeTty_fds {data : List UInt8} (h : s.writeTty d data = some (r, t)) : t.fds = s.fds := by
  obtain ⟨x, -, heq⟩ := Option.map_eq_some_iff.1 h
  cases heq
  rfl

theorem read_touches {buffer' : ℕ → UInt8} (h : s.syscallRead d fd buffer size = some (r, buffer', t)) :
    Touches s t fd := by
  unfold FileState.syscallRead at h
  by_cases h0 : size = 0
  · rw [if_pos h0] at h
    cases h
    exact .inl rfl
  rw [if_neg h0] at h
  cases hi : fdFromIndex s.fds fd with
  | none =>
    rw [hi] at h
    exact .inl (readTty_fds h)
  | some i =>
    rw [hi] at h
    simp only at h
    cases hn : (s.fds i).node with
    | none =>
      rw [hn] at h
      exact .inl (readTty_fds h)
    | some node =>
      rw [hn] at h
      simp only at h
      by_cases hflag : flagged (s.fds i).flags oRdonly
      · rw [if_neg (not_not.2 hflag)] at h
        obtain ⟨x, -, hx⟩ := Option.bind_eq_some_iff.1 h
        by_cases hneg : x.1 < 0
        · rw [if_pos hneg] at hx
          exact .inl (readTty_fds (s := { s with world := x.2.2 }) hx)
        · rw [if_neg hneg] at hx
          cases hx
          exact advance_touches hi _ _
      · rw [if_pos hflag] at h
        exact .inl (readTty_fds h)

theorem write_touches {data : List UInt8} (h : s.syscallWrite d fd data = some (r, t)) : Touches s t fd := by
  unfold FileState.syscallWrite at h
  by_cases h0 : data = [] ∨ fd < 0
  · -- nothing to write, or no descriptor
    rw [if_pos h0] at h
    cases h
    exact .inl rfl
  rw [if_neg h0] at h
  -- a process whose output is captured writes to no file through descriptor 1
  cases hout : if fd = 1 then s.stdout else none with
  | some out =>
    rw [hout] at h
    cases h
    exact .inl rfl
  | none =>
    rw [hout] at h
    simp only at h
    cases hi : fdFromIndex s.fds fd with
    | none =>
      rw [hi] at h
      exact .inl (writeTty_fds h)
    | some i =>
      rw [hi] at h
      simp only at h
      cases hn : (s.fds i).node with
      | none =>
        rw [hn] at h
        exact .inl (writeTty_fds h)
      | some node =>
        rw [hn] at h
        simp only at h
        by_cases hflag : flagged (s.fds i).flags oWronly
        · rw [if_neg (not_not.2 hflag)] at h
          obtain ⟨x, -, hx⟩ := Option.bind_eq_some_iff.1 h
          by_cases hneg : x.1 < 0
          · rw [if_pos hneg] at hx
            exact .inl (writeTty_fds (s := { s with world := x.2 }) hx)
          · rw [if_neg hneg] at hx
            cases hx
            exact advance_touches hi _ _
        · rw [if_pos hflag] at h
          exact .inl (writeTty_fds h)

theorem seek_touches (s : FileState σ) (fd offset : ℤ) (whence : ℕ) :
    Touches s (s.syscallSeek fd offset whence).2 fd := by
  unfold FileState.syscallSeek
  cases hi : fdFromIndex s.fds fd with
  | none => exact .inl rfl
  | some i =>
    simp only
    split
    · exact .inl rfl
    split
    · exact .inl rfl
    split_ifs
    · exact .inl rfl
    · exact .inr ⟨i, _, hi, rfl⟩

/-- **A call on another descriptor**, or an open, leaves an open descriptor as it is. -/
theorem exec_frame (h : c.exec d s = some (a, t)) (hi : (s.fds i).used = true)
    (hfd : c.descriptor ≠ some (i.val : ℤ)) : t.fds i = s.fds i := by
  have hne {fd : ℤ} (hx : some fd ≠ some (i.val : ℤ)) : fd ≠ (i.val : ℤ) := fun heq => hx (congrArg some heq)
  cases c with
  | «open» path flags =>
    obtain ⟨x, hx, heq⟩ := Option.map_eq_some_iff.1 h
    cases heq
    exact open_frame hx hi
  | close fd =>
    cases h
    exact (close_touches s fd).frame (hne hfd)
  | read fd buffer size =>
    cases buffer with
    | none =>
      cases h
      rfl
    | some buffer =>
      obtain ⟨x, hx, heq⟩ := Option.map_eq_some_iff.1 h
      cases heq
      exact (read_touches hx).frame (hne hfd)
  | write fd data =>
    cases data with
    | none =>
      cases h
      rfl
    | some data =>
      obtain ⟨x, hx, heq⟩ := Option.map_eq_some_iff.1 h
      cases heq
      exact (write_touches hx).frame (hne hfd)
  | seek fd offset whence =>
    cases h
    exact (seek_touches s fd offset whence).frame (hne hfd)

/-! ### The view of a process -/

/-- A call, as its process sees it: the other processes and the drivers may have done anything in between. -/
def FdStep (d : Drivers σ) (v : FdTable σ) (c : FileCall × FileAnswer) (v' : FdTable σ) : Prop :=
  ∃ out w t, c.1.exec d ⟨v, out, w⟩ = some (c.2, t) ∧ t.fds = v'

/-- The calls of `pid`. -/
def callOf (pid : ℕ) : FileEvent → Option (FileCall × FileAnswer)
  | .call q c a => if q = pid then some (c, a) else none
  | _ => none

/-- The process and its descriptors. -/
def Files.Has (s : Files σ) (pid : ℕ) (v : FdTable σ) : Prop := ∃ p, s.proc pid = some p ∧ p.fds = v

theorem step_own {s t : Files σ} {e : FileEvent} {x : FileCall × FileAnswer} (h : s.Has pid v)
    (hst : Files.Step d s e t) (he : callOf pid e = some x) : ∃ v', FdStep d v x v' ∧ t.Has pid v' := by
  obtain ⟨p, hp, rfl⟩ := h
  cases hst with
  | @call q p' c a u hq hx =>
    obtain ⟨rfl, hxe⟩ := Option.ite_none_right_eq_some.1 he
    cases hxe
    obtain rfl : p = p' := Option.some.inj (hp.symm.trans hq)
    exact ⟨u.fds, ⟨_, _, u, hx, rfl⟩, _, Function.update_self _ _ _, rfl⟩
  | exec => cases he
  | start => cases he
  | exit => cases he
  | other => cases he

/-- **Other events** leave the descriptors of a process alone. -/
theorem step_other {s t : Files σ} {e : FileEvent} (h : s.Has pid v) (hst : Files.Step d s e t)
    (he : callOf pid e = none) (hend : e ≠ .exit pid) : t.Has pid v := by
  obtain ⟨p, hp, rfl⟩ := h
  have hnew {q : ℕ} {x : Option (FileProc σ)} (hq : s.proc q = none) : Function.update s.proc q x pid = some p := by
    have hne : pid ≠ q := by
      rintro rfl
      rw [hp] at hq
      cases hq
    rwa [Function.update_of_ne hne]
  cases hst with
  | @call q p' c a u hq hx =>
    have hne : pid ≠ q := by
      rintro rfl
      have hsome : callOf pid (.call pid c a) = some (c, a) := if_pos rfl
      rw [he] at hsome
      cases hsome
    exact ⟨p, (Function.update_of_ne hne _ _).trans hp, rfl⟩
  | exec _ hchild => exact ⟨p, hnew hchild, rfl⟩
  | start hfresh _ => exact ⟨p, hnew hfresh, rfl⟩
  | exit q =>
    have hne : pid ≠ q := by
      rintro rfl
      exact hend rfl
    exact ⟨p, (Function.update_of_ne hne _ _).trans hp, rfl⟩
  | other hsame =>
    have h := hsame pid
    rw [hp] at h
    obtain ⟨p', hp', hfds⟩ := Option.map_eq_some_iff.1 h
    exact ⟨p', hp', hfds⟩

/-- **A process by itself**: in any run, its calls are a run of its descriptors. -/
theorem steps_own {s t : Files σ} {es : List FileEvent} (hrun : Steps (Files.Step d) s es t) (hs : s.Has pid v)
    (hend : FileEvent.exit pid ∉ es) : ∃ v', Steps (FdStep d) v (es.filterMap (callOf pid)) v' ∧ t.Has pid v' := by
  refine hrun.project (R := fun s v => Files.Has s pid v) (K := fun e => e ≠ .exit pid) ?_ ?_ ?_ hs
  · intro s v e x t hs hst he
    exact step_own hs hst he
  · intro s v e t hs hst he hk
    exact step_other hs hst he hk
  · rintro e he rfl
    exact hend he

theorem FdStep.frame {x : FileCall × FileAnswer} (h : FdStep d v x v') (hi : (v i).used = true)
    (hfd : x.1.descriptor ≠ some (i.val : ℤ)) : v' i = v i := by
  obtain ⟨out, w, t, hx, rfl⟩ := h
  exact exec_frame hx hi hfd

/-! ### Files -/

/-- **A node with a fixed content**, which a read copies from. -/
structure VfsNode.IsFile (node : VfsNode σ) (content : List UInt8) : Prop where
  length_lt : content.length < 2 ^ 31
  read : ∃ op, node.read = some op ∧ ∀ offset size buffer w, offset ≤ content.length →
    content.length + size < 2 ^ 32 →
    op offset size buffer w = some ((((content.drop offset).take size).length : ℤ),
      copyIn buffer 0 ((content.drop offset).take size), w)

/-- A descriptor that reads `node` from `o` on. -/
def openAt (node : VfsNode σ) (flags : BitVec 32) (o : ℕ) : ProcFd σ := ⟨true, flags, o, some node⟩

/-- The entry goes on behind what was read. -/
theorem advance_entry (hi : s.fds i = openAt node flags o) (hlt : o + n < 2 ^ 32) :
    (s.advance i n).fds i = openAt node flags (o + n) := by
  unfold FileState.advance
  split_ifs with hpos
  · have hadd : add32 o (n : ℤ).toNat = o + n := by
      rw [Int.toNat_natCast]
      exact add32_of_lt hlt
    show Function.update s.fds i _ i = _
    rw [Function.update_self, hi]
    show openAt node flags (add32 o (n : ℤ).toNat) = _
    rw [hadd]
  · have hzero : n = 0 := by omega
    rw [hi, hzero, Nat.add_zero]

/-- **A read of a file** returns what comes next and goes on behind it. -/
theorem read_file (h : node.IsFile content) (hi : s.fds i = openAt node flags o) (hr : flagged flags oRdonly)
    (ho : o ≤ content.length) (hsize : content.length + size < 2 ^ 32) (h0 : size ≠ 0) (buffer : ℕ → UInt8) :
    s.syscallRead d i.val buffer size = some ((((content.drop o).take size).length : ℤ),
      copyIn buffer 0 ((content.drop o).take size), s.advance i ((content.drop o).take size).length) := by
  obtain ⟨op, hop, hread⟩ := h.read
  set l := (content.drop o).take size with hl
  have hres : (node.vfsRead (s.fds i).offset size buffer s.world) =
    some ((l.length : ℤ), copyIn buffer 0 l, s.world) := by
    unfold VfsNode.vfsRead
    rw [hop, hi]
    exact hread o size buffer s.world ho hsize
  have hused : (s.fds i).used = true := by rw [hi]; rfl
  have hnode : (s.fds i).node = some node := by rw [hi]; rfl
  have hflag : flagged (s.fds i).flags oRdonly := by rw [hi]; exact hr
  unfold FileState.syscallRead
  rw [if_neg h0, fdFromIndex_used hused]
  simp only
  rw [hnode]
  simp only
  rw [if_neg (not_not.2 hflag), hres, Option.bind_some]
  exact if_neg (by omega)

/-- The same, as the process sees it. -/
theorem FdStep.read (hstep : FdStep d v (.read i.val (some buffer) size, a) v') (h : node.IsFile content)
    (hi : v i = openAt node flags o) (hr : flagged flags oRdonly) (ho : o ≤ content.length)
    (hsize : content.length + size < 2 ^ 32) (h0 : size ≠ 0) :
    a = ⟨((content.drop o).take size).length, some (copyIn buffer 0 ((content.drop o).take size))⟩ ∧
      v' i = openAt node flags (o + ((content.drop o).take size).length) := by
  obtain ⟨out, w, t, hx, rfl⟩ := hstep
  have hread := read_file (d := d) (s := ⟨v, out, w⟩) h hi hr ho hsize h0 buffer
  obtain ⟨y, hy, heq⟩ := Option.map_eq_some_iff.1 hx
  obtain rfl := Option.some.inj (hread.symm.trans hy)
  cases heq
  have hlt := h.length_lt
  have hlen : ((content.drop o).take size).length ≤ content.length - o := by
    rw [List.length_take, List.length_drop]
    exact min_le_right _ _
  exact ⟨rfl, advance_entry hi (by omega)⟩

/-- The bytes that a call reads through the descriptor. -/
def bytesRead (fd : ℤ) : FileCall × FileAnswer → List UInt8
  | (.read f _ _, ⟨r, some buffer⟩) => if f = fd then copyOut buffer 0 r.toNat else []
  | _ => []

/-- A read that gets less than it asks for. -/
def ShortRead (fd : ℤ) : FileCall × FileAnswer → Prop
  | (.read f (some _) size, a) => f = fd ∧ size ≠ 0 ∧ a.eax < size
  | _ => False

/-- The call only reads through the descriptor, if it is about it at all. -/
def FileCall.OnlyReads (fd : ℤ) (length : ℕ) : FileCall → Prop
  | .read f _ size => f = fd → length + size < 2 ^ 32
  | c => c.descriptor ≠ some fd

/-- What has been read, from `o` to `o'`. -/
structure ReadUpTo (v : FdTable σ) (i : Fin procMaxFd) (node : VfsNode σ) (flags : BitVec 32)
    (content : List UInt8) (o : ℕ) (cs : List (FileCall × FileAnswer)) (o' : ℕ) : Prop where
  entry : v i = openAt node flags o'
  le : o' ≤ content.length
  bytes : content.drop o = cs.flatMap (bytesRead i.val) ++ content.drop o'
  atEnd : (∃ x ∈ cs, ShortRead i.val x) → o' = content.length

/-- Nothing was read. -/
theorem ReadUpTo.same {cs : List (FileCall × FileAnswer)} {o' : ℕ} {x : FileCall × FileAnswer}
    (h : ReadUpTo v i node flags content o cs o') (he : v' i = v i) (hb : bytesRead i.val x = [])
    (hs : ¬ ShortRead i.val x) : ReadUpTo v' i node flags content o (cs ++ [x]) o' := by
  refine ⟨he.trans h.entry, h.le, ?_, ?_⟩
  · rw [List.flatMap_append, List.flatMap_singleton, hb, List.append_nil]
    exact h.bytes
  · rintro ⟨y, hy, hshort⟩
    rcases List.mem_append.1 hy with hy | hy
    · exact h.atEnd ⟨y, hy, hshort⟩
    · obtain rfl := List.mem_singleton.1 hy
      exact absurd hshort hs

/-- **A read** goes on where the last one ended. -/
theorem ReadUpTo.read {cs : List (FileCall × FileAnswer)} {o' : ℕ} (h : ReadUpTo v i node flags content o cs o')
    (hfile : node.IsFile content) (hr : flagged flags oRdonly) (hsize : content.length + size < 2 ^ 32)
    (h0 : size ≠ 0) (hstep : FdStep d v (.read i.val (some buffer) size, a) v') :
    ∃ o'', ReadUpTo v' i node flags content o (cs ++ [(.read i.val (some buffer) size, a)]) o'' := by
  obtain ⟨rfl, hentry⟩ := hstep.read hfile h.entry hr h.le hsize h0
  set l := (content.drop o').take size with hl
  have hlen : l.length = min size (content.length - o') := by rw [hl, List.length_take, List.length_drop]
  have hle := h.le
  have hbytes : bytesRead i.val (.read i.val (some buffer) size, ⟨(l.length : ℤ), some (copyIn buffer 0 l)⟩) = l :=
    (if_pos rfl).trans copyOut_copyIn
  refine ⟨o' + l.length, hentry, by omega, ?_, ?_⟩
  · rw [List.flatMap_append, List.flatMap_singleton, hbytes, List.append_assoc, h.bytes]
    congr 1
    rw [← List.drop_drop, hl, List.length_take]
    conv_lhs => rw [← List.take_append_drop size (content.drop o')]
    congr 1
    rcases le_total size (content.drop o').length with hs | hs
    · rw [min_eq_left hs]
    · rw [min_eq_right hs, List.drop_of_length_le hs, List.drop_length]
  · rintro ⟨y, hy, hshort⟩
    rcases List.mem_append.1 hy with hy | hy
    · have := h.atEnd ⟨y, hy, hshort⟩
      omega
    · obtain rfl := List.mem_singleton.1 hy
      have hlt : (l.length : ℤ) < size := hshort.2.2
      omega

/-- A step of a process that only reads through the descriptor. -/
theorem ReadUpTo.step {cs : List (FileCall × FileAnswer)} {o' : ℕ} {x : FileCall × FileAnswer}
    (h : ReadUpTo v i node flags content o cs o') (hfile : node.IsFile content) (hr : flagged flags oRdonly)
    (hx : x.1.OnlyReads i.val content.length) (hstep : FdStep d v x v') :
    ∃ o'', ReadUpTo v' i node flags content o (cs ++ [x]) o'' := by
  have hused : (v i).used = true := by rw [h.entry]; rfl
  obtain ⟨c, a⟩ := x
  have hsame (hfd : c.descriptor ≠ some (i.val : ℤ)) (hb : bytesRead i.val (c, a) = [])
    (hs : ¬ ShortRead i.val (c, a)) :
      ∃ o'', ReadUpTo v' i node flags content o (cs ++ [(c, a)]) o'' := ⟨o', h.same (hstep.frame hused hfd) hb hs⟩
  cases c with
  | «open» path flags => exact hsame hx rfl id
  | close fd => exact hsame hx rfl id
  | write fd data => exact hsame hx rfl id
  | seek fd offset whence => exact hsame hx rfl id
  | read fd b size =>
    by_cases hfd : fd = i.val
    · subst hfd
      cases b with
      | none =>
        obtain ⟨out, w, t, ht, rfl⟩ := hstep
        cases ht
        exact ⟨o', h.same rfl rfl id⟩
      | some b =>
        by_cases h0 : size = 0
        · -- a read of nothing
          subst h0
          obtain ⟨out, w, t, ht, rfl⟩ := hstep
          cases ht
          refine ⟨o', h.same rfl ?_ fun hs => hs.2.1 rfl⟩
          exact (if_pos rfl).trans rfl
        · exact h.read hfile hr (hx rfl) h0 hstep
    · -- another descriptor
      refine hsame (fun heq => hfd (Option.some.inj heq)) ?_ ?_
      · obtain ⟨r, b'⟩ := a
        cases b' with
        | none => rfl
        | some b' => exact if_neg hfd
      · cases b with
        | none => exact id
        | some b => exact fun hs => hfd hs.1

/-- **Reads in order.** In any run, what a process gets through an open file is what the file has from the first
position on, without gaps and without repetition, and after a short read it is all of it. -/
theorem reads_in_order {s t : Files σ} {es : List FileEvent} (hrun : Steps (Files.Step d) s es t) (hs : s.Has pid v)
    (hi : v i = openAt node flags o) (hr : flagged flags oRdonly) (hfile : node.IsFile content)
    (ho : o ≤ content.length)
    (hend : FileEvent.exit pid ∉ es) (hes : ∀ x ∈ es.filterMap (callOf pid), x.1.OnlyReads i.val content.length) :
    ∃ v' o', t.Has pid v' ∧ ReadUpTo v' i node flags content o (es.filterMap (callOf pid)) o' := by
  obtain ⟨v', hown, ht⟩ := steps_own hrun hs hend
  have hreads : (∀ x ∈ es.filterMap (callOf pid), x.1.OnlyReads i.val content.length) →
      ∃ o', ReadUpTo v' i node flags content o (es.filterMap (callOf pid)) o' := by
    refine hown.inv (I := fun w cs => (∀ x ∈ cs, x.1.OnlyReads i.val content.length) →
      ∃ o', ReadUpTo w i node flags content o cs o') ?_ ?_
    · intro _
      refine ⟨o, hi, ho, rfl, ?_⟩
      rintro ⟨x, hx, -⟩
      cases hx
    · intro w cs x w' ih hstep hall
      obtain ⟨o', h⟩ := ih fun y hy => hall y (List.mem_append_left _ hy)
      exact h.step hfile hr (hall x (by simp)) hstep
  obtain ⟨o', h⟩ := hreads hes
  exact ⟨v', o', ht, h⟩

theorem flagged_rdonly : flagged oRdonly oRdonly := by decide

/-- Drivers that find one node, and log what is written to the terminal. -/
def logDrivers (node : VfsNode (List UInt8)) : Drivers (List UInt8) where
  vfsLookup _ w := some (some node, w)
  ptyOpenMaster w := some (none, w)
  ttydevReadActive _ _ buffer w := some (0, buffer, w)
  ttydevWriteActive _ data w := some (data.length, w ++ data)

/-- One process with these descriptors. -/
def oneProcess (fds : FdTable (List UInt8)) : Files (List UInt8) :=
  ⟨Function.update (fun _ => none) 1 (some ⟨fds, none⟩), fun _ => .fresh, []⟩

/-- A node of three bytes. -/
def threeNode : VfsNode (List UInt8) where
  flags := vfsNodeFile
  length := 3
  read := some fun offset size buffer w =>
    some ((((([5, 6, 7] : List UInt8).drop offset).take size).length : ℕ),
      copyIn buffer 0 (([5, 6, 7].drop offset).take size), w)
  write := none

theorem threeNode_isFile : threeNode.IsFile [5, 6, 7] := ⟨by norm_num, _, rfl, fun _ _ _ _ _ _ => rfl⟩

theorem first_lt : 0 < procMaxFd := by decide

/-- The first descriptor reads it. -/
def threeFds : FdTable (List UInt8) := Function.update (fun _ => .zero) ⟨0, first_lt⟩ (openAt threeNode oRdonly 0)

/-- The process reads two bytes and starts another one, which reads on in its own copy of the descriptor. -/
theorem reads_in_order_three :
    ∃ es t v' o', Steps (Files.Step (logDrivers threeNode)) (oneProcess threeFds) es t ∧ t.Has 1 v' ∧
    ReadUpTo v' ⟨0, first_lt⟩ threeNode oRdonly [5, 6, 7] 0 (es.filterMap (callOf 1)) o' ∧
    (es.filterMap (callOf 1)).flatMap (bytesRead 0) = [5, 6, 7] := by
  have hrun := ((((Steps.nil (oneProcess threeFds)).snoc (Files.Step.call (d := logDrivers threeNode) (q := 1)
      (c := .read 0 (some fun _ => 0) 2) rfl rfl)).snoc
    (Files.Step.exec (q := 1) (k := 2) rfl rfl)).snoc
    (Files.Step.call (q := 2) (c := .read 0 (some fun _ => 0) 2) rfl rfl)).snoc
    (Files.Step.call (q := 1) (c := .read 0 (some fun _ => 0) 2) rfl rfl)
  have hproc : (oneProcess threeFds).Has 1 threeFds := ⟨_, rfl, rfl⟩
  have hin := reads_in_order (v := threeFds) (i := ⟨0, first_lt⟩) hrun hproc rfl flagged_rdonly threeNode_isFile
    (Nat.zero_le _)
  obtain ⟨v', o', hv, h⟩ := hin (by
    intro h
    iterate 4
      obtain h | h := List.mem_append.1 h
      on_goal 2 => cases List.mem_singleton.1 h
    cases h) (by
    intro x hx
    obtain rfl | hx := List.mem_cons.1 hx
    · intro _
      decide
    obtain rfl := List.mem_singleton.1 hx
    intro _
    decide)
  exact ⟨_, _, v', o', hrun, hv, h, rfl⟩

end Saynaa
