import Saynaa.Proof.Ext2Read
import Saynaa.Proof.Ext2Safe
import Saynaa.Proof.Files
import Saynaa.User.Cat

/-!
# `cat` prints files

* `FdStep.open`: a file is opened as the first free descriptor.
* `FdStep.write`: a write leaves a descriptor alone that is not open for writing.
* `CatInv`: where `cat` is, what it has printed and how many calls it has made.
* `cat_prints`: in any run, `cat` prints the content of the file.
* `vfsNode_isFile`: a file of the `ext2` file system has a fixed content.
-/

namespace Saynaa

open Lib

variable {σ : Type} {d : Drivers σ} {s : FileState σ} {v v' : FdTable σ} {i : Fin procMaxFd} {node : VfsNode σ}
  {flags : BitVec 32} {fd : ℤ} {a : FileAnswer} {pid o n : ℕ} {content : List UInt8} {path : Name} {buf₀ : ℕ → UInt8}
  {cs : List (FileCall × FileAnswer)} {b : Cat} {c : FileCall}

/-- The node that a path leads to, whenever it is looked up. -/
def Drivers.Finds (d : Drivers σ) (path : Name) (node : VfsNode σ) : Prop :=
  path ≠ ptmxPath ∧ ∀ w node' w', d.vfsLookup path w = some (node', w') → node' = some node

/-- **Opening a node.** -/
theorem FdStep.open (h : FdStep d v (.open (some path) flags, a) v') (hfind : d.Finds path node)
    (hr : flagged flags oRdonly → node.read.isNone = false) (hw : flagged flags oWronly → node.write.isNone = false) :
    a = ⟨(allocFd v node flags).1, none⟩ ∧ v' = (allocFd v node flags).2 := by
  obtain ⟨out, w, t, hx, rfl⟩ := h
  obtain ⟨x, hopen, heq⟩ := Option.map_eq_some_iff.1 hx
  cases heq
  have hlook : (d.vfsLookup path w).map _ = some x := (if_neg hfind.1).symm.trans hopen
  obtain ⟨⟨node', w'⟩, hl, hbody⟩ := Option.map_eq_some_iff.1 hlook
  obtain rfl := hfind.2 w node' w' hl
  have hx' : (if flagged flags oRdonly ∧ node.read.isNone then (-1, ⟨v, out, w'⟩)
      else if flagged flags oWronly ∧ node.write.isNone then (-1, ⟨v, out, w'⟩)
      else FileState.openNode ⟨v, out, w'⟩ node flags) = x := hbody
  rw [if_neg fun hc => by simp [hr hc.1] at hc, if_neg fun hc => by simp [hw hc.1] at hc] at hx'
  subst hx'
  exact ⟨rfl, rfl⟩

/-- **A write** does not touch a descriptor that is not open for writing. -/
theorem FdStep.write {data : Option (List UInt8)} (h : FdStep d v (.write fd data, a) v') (hi : (v i).used = true)
    (hw : ¬ flagged (v i).flags oWronly) : v' i = v i := by
  by_cases hfd : fd = i.val
  swap
  · -- another descriptor stays
    exact h.frame hi fun heq => hfd (Option.some.inj heq)
  subst hfd
  obtain ⟨out, w, t, hx, rfl⟩ := h
  cases data with
  | none =>
    cases hx
    rfl
  | some data =>
    obtain ⟨x, hwrite, heq⟩ := Option.map_eq_some_iff.1 hx
    cases heq
    unfold FileState.syscallWrite at hwrite
    by_cases h0 : data = [] ∨ (i.val : ℤ) < 0
    · -- nothing is written
      rw [if_pos h0] at hwrite
      cases hwrite
      rfl
    rw [if_neg h0] at hwrite
    split at hwrite
    · cases hwrite
      rfl
    rw [fdFromIndex_used (v := v) hi] at hwrite
    simp only at hwrite
    cases hn : (v i).node with
    | none =>
      rw [hn] at hwrite
      exact congrFun (writeTty_fds hwrite) i
    | some node =>
      rw [hn] at hwrite
      simp only at hwrite
      rw [if_pos hw] at hwrite
      exact congrFun (writeTty_fds hwrite) i

/-! ### The program -/

/-- What a call writes to descriptor 1. -/
def toStdout : FileCall × FileAnswer → List UInt8
  | (.write fd (some data), _) => if fd = 1 then data else []
  | _ => []

def printed (cs : List (FileCall × FileAnswer)) : List UInt8 := cs.flatMap toStdout

theorem printed_snoc (cs : List (FileCall × FileAnswer)) (x : FileCall × FileAnswer) :
    printed (cs ++ [x]) = printed cs ++ toStdout x := by
  unfold printed
  rw [List.flatMap_append, List.flatMap_singleton]

/-- **Where `cat` is** in the file, what it has printed and how many calls it has made. -/
def CatInv (node : VfsNode σ) (content : List UInt8) (path : Name) (v : FdTable σ) (b : Cat)
    (cs : List (FileCall × FileAnswer)) : Prop :=
  match b with
  | .opening p => p = path ∧ cs = [] ∧ ∃ i, (v i).used = false
  | .reading fd _ => ∃ (i : Fin procMaxFd) (k : ℕ), fd = i.val ∧ v i = openAt node oRdonly (catBufSize * k) ∧
      catBufSize * k ≤ content.length ∧ printed cs = content.take (catBufSize * k) ∧ cs.length = 2 * k + 1
  | .writing fd buf n => ∃ (i : Fin procMaxFd) (k : ℕ), fd = i.val ∧ v i = openAt node oRdonly (catBufSize * k + n) ∧
      catBufSize * k ≤ content.length ∧ n = min catBufSize (content.length - catBufSize * k) ∧
      copyOut buf 0 n = (content.drop (catBufSize * k)).take n ∧ printed cs = content.take (catBufSize * k) ∧
      cs.length = 2 * k + 2
  | .newline _ rc => rc = 0 ∧ printed cs = content ∧ cs.length ≤ 2 * (content.length / catBufSize) + 3
  | .closing _ rc => rc = 0 ∧ printed cs = content ++ [byteNl] ∧ cs.length ≤ 2 * (content.length / catBufSize) + 4
  | .puts _ => False
  | .putsNewline => False
  | .done rc => rc = 0 ∧ printed cs = content ++ [byteNl] ∧ cs.length ≤ 2 * (content.length / catBufSize) + 5

theorem toStdout_one (data : List UInt8) (a : FileAnswer) : toStdout (.write 1 (some data), a) = data := by
  unfold toStdout
  exact if_pos rfl

theorem after_opening (path : Name) (r : ℤ) (x : Option (ℕ → UInt8)) :
    (cat buf₀).after (.opening path) ⟨r, x⟩ = if r < 0 then .puts catOpenFailed else .reading r buf₀ := rfl

theorem after_reading (fd r : ℤ) (buf : ℕ → UInt8) (x : Option (ℕ → UInt8)) :
    (cat buf₀).after (.reading fd buf) ⟨r, x⟩ =
      if r < 0 then .newline fd 1 else if r = 0 then .newline fd 0 else .writing fd (x.getD buf) r.toNat := rfl

theorem after_writing (fd : ℤ) (buf : ℕ → UInt8) (n : ℕ) (a : FileAnswer) :
    (cat buf₀).after (.writing fd buf n) a = if n < catBufSize then .newline fd 0 else .reading fd buf := rfl

theorem not_flagged_rdonly : ¬ flagged oRdonly oWronly := by decide

theorem not_append_rdonly : ¬ flagged oRdonly oAppend := by decide

/-- **A call** keeps it. -/
theorem CatInv.step (h : CatInv node content path v b cs) (hfile : node.IsFile content) (hfind : d.Finds path node)
    (hnext : (cat buf₀).next b = some c) (hstep : FdStep d v (c, a) v') :
    CatInv node content path v' ((cat buf₀).after b a) (cs ++ [(c, a)]) := by
  have hlen := hfile.length_lt
  cases b with
  | opening p =>
    obtain ⟨rfl, rfl, j, hj⟩ := h
    cases hnext
    obtain ⟨op, hop, -⟩ := hfile.read
    obtain ⟨rfl, rfl⟩ := hstep.open hfind (fun _ => by rw [hop]; rfl) fun hw => absurd hw not_flagged_rdonly
    rcases allocFd_cases v node oRdonly with ⟨i, -, -, heq⟩ | ⟨hall, -⟩
    · -- the file is opened, at its beginning
      rw [heq, if_neg not_append_rdonly]
      rw [after_opening, if_neg (by omega)]
      refine ⟨i, 0, rfl, ?_, Nat.zero_le _, rfl, rfl⟩
      exact Function.update_self _ _ _
    · rw [hall j] at hj
      cases hj
  | reading fd buf =>
    obtain ⟨i, k, rfl, hi, hle, hprint, hcount⟩ := h
    cases hnext
    have hsize : content.length + catBufSize < 2 ^ 32 := by
      unfold catBufSize
      omega
    obtain ⟨rfl, hi'⟩ := hstep.read hfile hi flagged_rdonly hle hsize (by decide)
    have hprint' : printed
      (cs ++ [(FileCall.read i.val (some buf) catBufSize,
        (⟨(((content.drop (catBufSize * k)).take catBufSize).length : ℤ),
        some (copyIn buf 0 ((content.drop (catBufSize * k)).take catBufSize))⟩ : FileAnswer))]) =
          content.take (catBufSize * k) := by
      rw [printed_snoc, hprint]
      exact List.append_nil _
    have hmin : ((content.drop (catBufSize * k)).take catBufSize).length =
      min catBufSize (content.length - catBufSize * k) := by
      rw [List.length_take, List.length_drop]
    set l := (content.drop (catBufSize * k)).take catBufSize with hl
    rw [after_reading, if_neg (by omega)]
    by_cases h0 : (l.length : ℤ) = 0
    · -- the end of the file
      have hend : catBufSize * k = content.length := by
        unfold catBufSize at hmin hle ⊢
        omega
      have hdiv : content.length / catBufSize = k := by
        rw [← hend]
        exact Nat.mul_div_cancel_left k (by decide)
      rw [if_pos h0]
      refine ⟨rfl, ?_, ?_⟩
      · rw [hprint', hend, List.take_length]
      · rw [List.length_append, hcount, hdiv]
        simp
    · -- a part of the file
      rw [if_neg h0]
      refine ⟨i, k, rfl, ?_, hle, ?_, ?_, hprint', ?_⟩
      · rw [hi', Int.toNat_natCast]
      · rw [Int.toNat_natCast, hmin]
      · rw [Int.toNat_natCast]
        have htake : (content.drop (catBufSize * k)).take l.length = l := by
          rw [hmin, ← List.length_drop, hl]
          exact List.take_eq_take_min.symm
        rw [htake]
        exact copyOut_copyIn
      · rw [List.length_append, hcount]
        rfl
  | writing fd buf n =>
    obtain ⟨i, k, rfl, hi, hle, hn, hbuf, hprint, hcount⟩ := h
    cases hnext
    have hkeep : v' i = v i := hstep.write (by rw [hi]; rfl) (by rw [hi]; exact not_flagged_rdonly)
    have hprint' : printed (cs ++ [(FileCall.write 1 (some (copyOut buf 0 n)), a)]) =
      content.take (catBufSize * k + n) := by
      rw [printed_snoc, hprint, toStdout_one, hbuf, List.take_add]
    rw [after_writing]
    by_cases hshort : n < catBufSize
    · -- a short part is the last one
      rw [if_pos hshort]
      have hend : catBufSize * k + n = content.length := by omega
      have hdiv : k ≤ content.length / catBufSize := by
        rw [Nat.le_div_iff_mul_le (by decide), mul_comm]
        exact hle
      refine ⟨rfl, ?_, ?_⟩
      · rw [hprint', hend, List.take_length]
      · rw [List.length_append, hcount]
        simp only [List.length_singleton]
        omega
    · -- after a full part comes another `read`
      rw [if_neg hshort]
      have hfull : n = catBufSize := by omega
      have hnext : catBufSize * k + n = catBufSize * (k + 1) := by rw [hfull]; ring
      refine ⟨i, k + 1, rfl, ?_, ?_, ?_, ?_⟩
      · rw [hkeep, hi, hnext]
      · omega
      · rw [hprint', hnext]
      · rw [List.length_append, hcount, List.length_singleton]
        ring
  | newline fd rc =>
    obtain ⟨rfl, hprint, hcount⟩ := h
    cases hnext
    refine ⟨rfl, ?_, ?_⟩
    · rw [printed_snoc, hprint]
      exact congrArg (content ++ ·) (toStdout_one [byteNl] a)
    · rw [List.length_append]
      exact Nat.add_le_add_right hcount 1
  | closing fd rc =>
    obtain ⟨rfl, hprint, hcount⟩ := h
    cases hnext
    refine ⟨rfl, ?_, ?_⟩
    · rw [printed_snoc, hprint]
      exact List.append_nil _
    · rw [List.length_append]
      exact Nat.add_le_add_right hcount 1
  | puts text => exact h.elim
  | putsNewline => exact h.elim
  | done rc => cases hnext

/-- Nothing else is printed on the way. -/
theorem CatInv.printed_prefix (h : CatInv node content path v b cs) : printed cs <+: content ++ [byteNl] := by
  have htake (n : ℕ) (hp : printed cs = content.take n) : printed cs <+: content ++ [byteNl] := by
    rw [hp]
    exact (List.take_prefix n content).trans (List.prefix_append _ _)
  cases b with
  | opening p =>
    obtain ⟨-, rfl, -⟩ := h
    exact List.nil_prefix
  | reading fd buf =>
    obtain ⟨i, k, -, -, -, hp, -⟩ := h
    exact htake _ hp
  | writing fd buf n =>
    obtain ⟨i, k, -, -, -, -, -, hp, -⟩ := h
    exact htake _ hp
  | newline fd rc =>
    rw [h.2.1]
    exact List.prefix_append _ _
  | closing fd rc =>
    rw [h.2.1]
  | puts text => exact h.elim
  | putsNewline => exact h.elim
  | done rc =>
    rw [h.2.1]

theorem CatInv.count (h : CatInv node content path v b cs) : cs.length ≤ 2 * (content.length / catBufSize) + 5 := by
  have hdiv {k : ℕ} (hle : catBufSize * k ≤ content.length) : k ≤ content.length / catBufSize := by
    rw [Nat.le_div_iff_mul_le (by decide), mul_comm]
    exact hle
  cases b with
  | opening p =>
    obtain ⟨-, rfl, -⟩ := h
    exact Nat.zero_le _
  | reading fd buf =>
    obtain ⟨i, k, -, -, hle, -, hc⟩ := h
    have := hdiv hle
    omega
  | writing fd buf n =>
    obtain ⟨i, k, -, -, hle, -, -, -, hc⟩ := h
    have := hdiv hle
    omega
  | newline fd rc => exact h.2.2.trans (by omega)
  | closing fd rc => exact h.2.2.trans (by omega)
  | puts text => exact h.elim
  | putsNewline => exact h.elim
  | done rc => exact h.2.2

/-- **`cat` in any run**: what it has printed is the beginning of the content and a newline, it makes only so many
calls, and when it ends it has printed all. -/
theorem cat_run {s t : Files σ} {es : List FileEvent} (hrun : Steps (Files.Step d) s es t) (hs : s.Has pid v)
    (hfree : ∃ i, (v i).used = false) (hfind : d.Finds path node) (hfile : node.IsFile content)
    (hend : FileEvent.exit pid ∉ es) (hprog : (cat buf₀).Follows (.opening path) (es.filterMap (callOf pid)) b) :
    printed (es.filterMap (callOf pid)) <+: content ++ [byteNl] ∧
      (es.filterMap (callOf pid)).length ≤ 2 * (content.length / catBufSize) + 5 ∧
      (b.next = none → b = .done 0 ∧ printed (es.filterMap (callOf pid)) = content ++ [byteNl]) := by
  obtain ⟨v', hown, -⟩ := steps_own hrun hs hend
  have hinv : CatInv node content path v' b (es.filterMap (callOf pid)) := by
    refine Program.inv (I := CatInv node content path) hprog hown ⟨rfl, rfl, hfree⟩ ?_
    intro w b cs c r w' h hnext hstep
    exact h.step hfile hfind hnext hstep
  refine ⟨hinv.printed_prefix, hinv.count, fun hdone => ?_⟩
  cases b with
  | done rc =>
    obtain ⟨rfl, hp, -⟩ := hinv
    exact ⟨rfl, hp⟩
  | opening p => cases hdone
  | reading fd buf => cases hdone
  | writing fd buf n => cases hdone
  | newline fd rc => cases hdone
  | closing fd rc => cases hdone
  | puts text => cases hdone
  | putsNewline => cases hdone

/-! ### Files of `ext2` -/

/-- **A file that the driver reads**: a laid out inode of less than 2 GiB, where the blocks that only double
indirect blocks lead to hold zeros. -/
structure Ext2Fs.Readable (fs : Ext2Fs) (inode ino : ℕ) : Prop where
  found : fs.getInode inode = .ok (some ino)
  isFile : ∃ mode, fs.inodeMode ino = .ok mode ∧ mode &&& ext2SIfdir = 0
  layout : fs.Ext2Layout ino
  size_lt : fs.fileSize ino < 2 ^ 31
  far : ∀ pos < fs.fileSize ino, (12 + fs.perBlock) * fs.blockSize ≤ pos → fs.fileByte ino pos = 0

/-- The content of a file. -/
def Ext2Fs.wholeFile (fs : Ext2Fs) (ino : ℕ) : List UInt8 := fs.fileBytes ino 0 (fs.fileSize ino)

theorem Ext2Fs.length_wholeFile (fs : Ext2Fs) (ino : ℕ) : (fs.wholeFile ino).length = fs.fileSize ino := by
  unfold wholeFile fileBytes copyOut
  rw [List.length_map, List.length_range]

theorem Ext2Fs.wholeFile_piece (fs : Ext2Fs) (ino o size : ℕ) :
    ((fs.wholeFile ino).drop o).take size = fs.fileBytes ino o (fs.readCount ino o size) := by
  unfold wholeFile fileBytes copyOut readCount
  refine List.ext_getElem (by simp) fun k h₁ h₂ => ?_
  rw [List.getElem_take, List.getElem_drop, List.getElem_map, List.getElem_map, List.getElem_range,
    List.getElem_range, Nat.zero_add]

/-- **Files have a fixed content.** -/
theorem vfsNode_isFile {fs : Ext2Fs} {n : Ext2Node} {ino : ℕ} (h : fs.Readable n.inode ino) :
    (fs.vfsNode n : VfsNode σ).IsFile (fs.wholeFile ino) := by
  refine ⟨?_, _, rfl, ?_⟩
  · rw [fs.length_wholeFile]
    exact h.size_lt
  intro offset size buffer w ho hsize
  rw [fs.length_wholeFile] at ho hsize
  obtain ⟨mode, hmode, hdir⟩ := h.isFile
  have hlt := h.size_lt
  have hcount : fs.readCount ino offset size ≤ fs.fileSize ino - offset := min_le_right _ _
  have hfile := (Ext2Fs.read_file_iff h.layout (show offset + size < 2 ^ 32 by omega) buffer).2
    ⟨by omega, fun pos _ h2 h3 => h.far pos (by omega) h3⟩
  have hread : fs.read n.inode offset size buffer = .ok ((fs.readCount ino offset size : ℤ),
      copyIn buffer 0 (fs.fileBytes ino offset (fs.readCount ino offset size))) := by
    unfold Ext2Fs.read
    rw [h.found]
    show (fs.inodeMode ino >>= _) = _
    rw [hmode]
    exact (if_neg (not_not.2 hdir)).trans hfile
  have hlen : (fs.fileBytes ino offset (fs.readCount ino offset size)).length = fs.readCount ino offset size := by
    unfold Ext2Fs.fileBytes copyOut
    rw [List.length_map, List.length_range]
  rw [fs.wholeFile_piece, hlen]
  simp only [hread]

/-- **`cat` prints files**, whatever other processes do in between: at any time a beginning of the file, then all
of it and a newline, within so many calls. -/
theorem cat_prints {s t : Files σ} {es : List FileEvent} {fs : Ext2Fs} {n : Ext2Node} {ino argc : ℕ}
    (hread : fs.Readable n.inode ino) (hfind : d.Finds path (fs.vfsNode n)) (hargc : 2 ≤ argc)
    (hrun : Steps (Files.Step d) s es t) (hs : s.Has pid v) (hfree : ∃ i, (v i).used = false)
    (hend : FileEvent.exit pid ∉ es)
    (hprog : (cat buf₀).Follows (.main argc (some path)) (es.filterMap (callOf pid)) b) :
    printed (es.filterMap (callOf pid)) <+: fs.wholeFile ino ++ [byteNl] ∧
      (es.filterMap (callOf pid)).length ≤ 2 * (fs.fileSize ino / catBufSize) + 5 ∧
      (b.next = none → b = .done 0 ∧ printed (es.filterMap (callOf pid)) = fs.wholeFile ino ++ [byteNl]) := by
  have hmain : Cat.main argc (some path) = .opening path := if_neg (by omega)
  rw [hmain] at hprog
  rw [← fs.length_wholeFile ino]
  exact cat_run hrun hs hfree hfind (vfsNode_isFile hread) hend hprog

/-- The file of two bytes in the small image. -/
theorem small_readable : Ext2Fs.smallFs.Readable 3 3328 := by
  have hsize : Ext2Fs.smallFs.fileSize 3328 = 2 := by decide +kernel
  refine ⟨rfl, ⟨0x8000, by decide +kernel, by decide⟩, ⟨⟨0, rfl⟩, by decide, fun i hi => ?_, ?_, ?_, ?_⟩, ?_, ?_⟩
  · interval_cases i <;> decide +kernel
  · decide +kernel
  · decide +kernel
  · decide +kernel
  · rw [hsize]
    norm_num
  · intro pos hpos hfar
    have h12 : (12 + Ext2Fs.smallFs.perBlock) * Ext2Fs.smallFs.blockSize = 274432 := by decide +kernel
    omega

def smallNode : Ext2Node := ⟨3, false, 2, [97]⟩

/-- `cat` reads the file, its child reads a byte of it as well, and `cat` prints it. -/
theorem cat_prints_small :
    ∃ es t, ∃ b : Cat, Steps (Files.Step (logDrivers (Ext2Fs.smallFs.vfsNode smallNode)))
      (oneProcess fun _ => .zero) es t ∧
    t.world = [9, 8, byteNl] ∧ printed (es.filterMap (callOf 1)) <+: Ext2Fs.smallFs.wholeFile 3328 ++ [byteNl] ∧
      (es.filterMap (callOf 1)).length ≤ 2 * (Ext2Fs.smallFs.fileSize 3328 / catBufSize) + 5 ∧
      (b.next = none → b = .done 0 ∧ printed (es.filterMap (callOf 1)) =
        Ext2Fs.smallFs.wholeFile 3328 ++ [byteNl]) := by
  have hwhole : Ext2Fs.smallFs.wholeFile 3328 = [9, 8] := by decide +kernel
  have hfile : (Ext2Fs.smallFs.vfsNode smallNode : VfsNode (List UInt8)).IsFile [9, 8] :=
    hwhole ▸ vfsNode_isFile small_readable
  have hread (s : FileState (List UInt8))
    (hs : s.fds ⟨0, first_lt⟩ = openAt (Ext2Fs.smallFs.vfsNode smallNode) oRdonly 0) :
      FileCall.exec (logDrivers (Ext2Fs.smallFs.vfsNode smallNode)) s (.read 0 (some fun _ => 0) catBufSize) =
        some (⟨2, some (copyIn (fun _ => 0) 0 [9, 8])⟩, s.advance ⟨0, first_lt⟩ 2) :=
    congrArg (Option.map _)
      (read_file hfile hs flagged_rdonly (Nat.zero_le _) (show 2 + catBufSize < 2 ^ 32 by decide)
      (by decide) fun _ => 0)
  have hrun := (((((((Steps.nil (oneProcess fun _ => .zero)).snoc
    (Files.Step.call (d := logDrivers (Ext2Fs.smallFs.vfsNode smallNode))
      (q := 1) (c := .open (some [slash, 97]) oRdonly) rfl rfl)).snoc
    (Files.Step.call (q := 1) (c := .read 0 (some fun _ => 0) catBufSize) rfl (hread _ rfl))).snoc
    (Files.Step.exec (q := 1) (k := 2) rfl rfl)).snoc
    (Files.Step.call (q := 2) (c := .seek 0 0 0) rfl rfl)).snoc
    (Files.Step.call (q := 1) (c := .write 1 (some [9, 8])) rfl rfl)).snoc
    (Files.Step.call (q := 1) (c := .write 1 (some [byteNl])) rfl rfl)).snoc
    (Files.Step.call (q := 1) (c := .close 0) rfl rfl)
  -- the same calls, as the program makes them
  have hmain : Cat.main 2 (some [slash, 97]) = .opening [slash, 97] := if_neg (by decide)
  have hopen := (Program.Follows.nil (p := cat fun _ => 0) (Cat.opening [slash, 97])).snoc (r := ⟨0, none⟩) rfl
  rw [after_opening, if_neg (by decide)] at hopen
  have hlook := hopen.snoc (r := ⟨2, some (copyIn (fun _ => 0) 0 [9, 8])⟩) rfl
  rw [after_reading, if_neg (by decide), if_neg (by decide)] at hlook
  have hwrite := hlook.snoc (r := ⟨2, none⟩) rfl
  rw [after_writing, if_pos (by decide)] at hwrite
  have hprog := (hwrite.snoc (r := ⟨1, none⟩) rfl).snoc (r := ⟨0, none⟩) rfl
  rw [← hmain] at hprog
  have hfind : (logDrivers (Ext2Fs.smallFs.vfsNode smallNode)).Finds [slash, 97]
    (Ext2Fs.smallFs.vfsNode smallNode) := by
    refine ⟨by decide, fun w node' w' h => ?_⟩
    cases h
    rfl
  refine ⟨_, _, _, hrun, rfl, cat_prints small_readable hfind le_rfl hrun ⟨_, rfl, rfl⟩ ⟨⟨0, first_lt⟩, rfl⟩ ?_ hprog⟩
  intro h
  iterate 7
    obtain h | h := List.mem_append.1 h
    on_goal 2 => cases List.mem_singleton.1 h
  cases h

end Saynaa
