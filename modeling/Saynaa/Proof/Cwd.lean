import Saynaa.Proof.AbsPath
import Saynaa.Proof.Vfs
import Saynaa.Sys.Cwd

/-!
# Working directories stay in normal form

* `resolve_here`: joining `"."` leads nowhere else.
* `CwdOK`: the array of a process holds the path of a stack, which leads to a directory.
* `syscallChdir_ok`: a change of directory, whatever the path is.
* `cwdStep_ok`: a step keeps all arrays.
* `cwd_canonical`: every reachable state.
-/

namespace Saynaa

open Lib

variable {Node : Type} {t : Tree Node} {ops : FloatOps} {stack resolved user cwd cwd' mem : ℕ → UInt8}
  {st st' : List Name} {l p r : List UInt8} {address path : BitVec 32} {cap : Option ℕ} {n fuel : ℕ}

/-! ### The joined paths -/

theorem resolve_split (cap : Option ℕ) (p r : List UInt8) :
    resolve cap (p ++ slash :: r) = resolveFrom cap (resolve cap p) r := by
  unfold resolve resolveFrom
  rw [List.splitOn_append_cons_self, List.foldl_append]

/-- The path of a stack and as much of `"/."` as there is room for. -/
theorem resolve_here (h : StackOK st) (hcap : ∀ n ∈ cap, st.length ≤ n) (hn : (render st).length ≤ n) (hn2 : 2 ≤ n) :
    resolve cap ((joined (render st) [period]).take n) = st := by
  have hst : resolve cap (render st) = st := resolve_render h hcap
  unfold joined
  rw [if_neg (by decide)]
  by_cases hroot : render st = [slash]
  · rw [if_pos hroot, List.take_of_length_le (by simpa using hn2)]
    have hnil : st = [] := by
      rw [← hst, hroot]
      exact resolve_cons cap []
    rw [hnil, resolve_cons, resolveFrom_single (by decide)]
    exact pathStep_here []
  rw [if_neg hroot, List.take_append, List.take_of_length_le hn]
  -- what is left of the two characters
  rcases hk : n - (render st).length with _ | _ | k
  · rwa [List.take_zero, List.append_nil]
  · rw [List.take_succ_cons, List.take_zero, resolve_split, hst]
    exact resolveFrom_nil st
  · rw [List.take_of_length_le (by simp), resolve_split, hst, resolveFrom_single (by decide)]
    exact pathStep_here st

/-- The path of a stack itself. -/
theorem resolve_same (h : StackOK st) (hcap : ∀ n ∈ cap, st.length ≤ n) (hn : (render st).length ≤ n) :
    resolve cap ((joined p (render st)).take n) = st := by
  have hjoined : joined p (render st) = render st := if_pos rfl
  rw [hjoined, List.take_of_length_le hn]
  exact resolve_render h hcap

/-! ### The array of a process -/

/-- A path leads to a directory. -/
def Tree.Leads (t : Tree Node) (l : List UInt8) : Prop :=
  ∃ node, (t.vfsLookup (some l)).1 = some node ∧ t.isDir node = true

/-- An array holds a string that fits, and zeros behind it. -/
structure Holds (cwd : ℕ → UInt8) (l : List UInt8) : Prop where
  cstr : CStr cwd 0 l
  fits : l.length < cwdSize
  zeros : ∀ i, l.length ≤ i → i < cwdSize → cwd i = 0

/-- **The array of a process**: the path of a stack of 64 entries, which leads to a directory. -/
structure CwdOK (t : Tree Node) (cwd : ℕ → UInt8) (st : List Name) : Prop where
  holds : Holds cwd (render st)
  stack : StackOK st
  depth : st.length ≤ maxSegments
  leads : t.Leads (render st)

/-- An array is determined by its string. -/
theorem Holds.unique (h : Holds cwd l) (h' : Holds cwd' l) : ∀ i < cwdSize, cwd' i = cwd i := by
  intro i hi
  by_cases hle : i ≤ l.length
  · exact h'.cstr.agree h.cstr i (Nat.zero_le i) (by omega)
  · rw [h.zeros i (by omega) hi, h'.zeros i (by omega) hi]

theorem setCwd_holds (h : CStr mem 0 l) (hlen : l.length < cwdSize) (cwd : ℕ → UInt8) : Holds (setCwd cwd mem) l := by
  have htake : l.take (cwdSize - 1) = l := List.take_of_length_le (by omega)
  have hcstr := strncpy_cstr h cwd (cwdSize - 1)
  rw [htake] at hcstr
  refine ⟨hcstr, hlen, ?_⟩
  intro i hl hi
  unfold setCwd
  by_cases hlast : i = cwdSize - 1
  · rw [hlast, Function.update_self]
  · rw [Function.update_of_ne hlast]
    exact strncpy_zero h hl (by omega)

/-- The kernel sees the string at the address of the array. -/
theorem withCwd_cstr (h : Holds cwd l) (user : ℕ → UInt8) (address : BitVec 32) :
    CStr (withCwd user cwd address) address.toNat l := by
  have hfits := h.fits
  obtain ⟨k, hk⟩ : ∃ k, cwdSize = (l.length + 1) + k := ⟨cwdSize - (l.length + 1), by omega⟩
  have hend : copyOut cwd (0 + l.length) 1 = [0] := congrArg (fun c => [c]) h.cstr.end_zero
  have hout : copyOut cwd 0 cwdSize = (l ++ [0]) ++ copyOut cwd (0 + (l.length + 1)) k := by
    rw [hk, copyOut_add, copyOut_add, copyOut_cstr h.cstr, hend]
  unfold withCwd
  rw [hout, ← copyIn_append]
  refine (CStr_copyIn h.cstr.ne_zero).congr fun i _ hi => copyIn_out (.inl ?_)
  rw [List.length_append, List.length_singleton]
  omega

/-- The root is a directory. -/
theorem root_ok {root : Node} (hroot : t.root = some root) (hdir : t.isDir root = true) (h : Holds cwd [slash]) :
    CwdOK t cwd [] := by
  refine ⟨h, fun c hc => absurd hc List.not_mem_nil, Nat.zero_le _, root, ?_, hdir⟩
  rw [render_nil, vfsLookup_pieces hroot rfl]
  rfl

/-! ### Changes of directory -/

/-- What a change of directory leads to. -/
noncomputable def target (st : List Name) (l : List UInt8) : List Name :=
  resolve (some maxSegments) ((joined (render st) l).take (cwdSize - 1))

theorem length_target (st : List Name) (l : List UInt8) : (render (target st l)).length < cwdSize := by
  have hhead : ((joined (render st) l).take (cwdSize - 1)).head? = some slash := head_take (joined_head rfl)
  have hle := length_render_le (some maxSegments) hhead
  have htake := List.length_take_le (cwdSize - 1) (joined (render st) l)
  have hsize : 0 < cwdSize := by decide
  unfold target
  omega

/-- **`syscall_chdir`** succeeds just when the path leads to a directory, which is then that of the process. -/
theorem syscallChdir_ok (h : CwdOK t cwd st) (ha : address ≠ 0) (hp : path ≠ 0)
    (hl : CStr (withCwd user cwd address) path.toNat l) (ops : FloatOps) (stack resolved : ℕ → UInt8) :
    ∃ r cwd', Returns (t.syscallChdir ops · stack resolved user cwd address path) (r, cwd') ∧
      (t.Leads (render (target st l)) ∧ r = 0 ∧ CwdOK t cwd' (target st l) ∨
        ¬ t.Leads (render (target st l)) ∧ r = -1 ∧ cwd' = cwd) := by
  have hfits := h.holds.fits
  obtain ⟨q, ⟨N, hN⟩, hq, -⟩ := makeAbsPath_ok ops ha (withCwd_cstr h.holds user address) hp hl rfl
    (show (render st).length < tempSize from hfits) (show 2 ≤ cwdSize by decide) stack resolved
  have hbound : joinBound cwdSize = cwdSize - 1 := rfl
  rw [hbound] at hq
  have hlen := length_target st l
  -- the run up to the lookup
  have hrun : ∀ fuel, N + cwdSize < fuel → t.syscallChdir ops fuel stack resolved user cwd address path =
      some ((t.vfsLookup (some (render (target st l)))).1.elim (-1, cwd) fun node =>
        if t.isDir node then (0, setCwd cwd q) else (-1, cwd)) := by
    intro fuel hf
    have htarget : resolve (some maxSegments) ((joined (render st) l).take (cwdSize - 1)) = target st l := rfl
    unfold Tree.syscallChdir resolveUserPath
    rw [if_neg (by simpa [cwdSize] using hp),
      show makeAbsPath ops (withCwd user cwd address) fuel stack address path (some resolved) cwdSize = _ from
        hN fuel (by omega)]
    show t.enter fuel cwd q = _
    unfold Tree.enter
    rw [strlen_cstr hq (by unfold target at hlen; omega), Option.map_some, copyOut_cstr hq, htarget]
    cases (t.vfsLookup (some (render (target st l)))).1 <;> rfl
  by_cases hleads : t.Leads (render (target st l))
  · obtain ⟨node, hnode, hdir⟩ := hleads
    refine ⟨0, setCwd cwd q, ⟨N + cwdSize, fun fuel hf => ?_⟩, .inl ⟨⟨node, hnode, hdir⟩, rfl, ?_⟩⟩
    · refine (hrun fuel hf).trans ?_
      rw [hnode, Option.elim_some, if_pos hdir]
    · exact ⟨setCwd_holds hq hlen cwd, resolve_stackOK _ _, length_resolve _ _, node, hnode, hdir⟩
  · refine ⟨-1, cwd, ⟨N + cwdSize, fun fuel hf => ?_⟩, .inr ⟨hleads, rfl, rfl⟩⟩
    refine (hrun fuel hf).trans ?_
    cases hnode : (t.vfsLookup (some (render (target st l)))).1 with
    | none => rfl
    | some node =>
      have hdir : t.isDir node ≠ true := fun hd => hleads ⟨node, hnode, hd⟩
      rw [Option.elim_some, if_neg hdir]

/-- Without a path nothing happens. -/
theorem syscallChdir_null (t : Tree Node) (ops : FloatOps) (stack resolved user cwd : ℕ → UInt8)
    (address : BitVec 32) :
    Returns (t.syscallChdir ops · stack resolved user cwd address 0) (-1, cwd) := ⟨0, fun _ _ => rfl⟩

/-- A path that leads back to where the process is. -/
theorem syscallChdir_same (h : CwdOK t cwd st) (ha : address ≠ 0) (hp : path ≠ 0)
    (hl : CStr (withCwd user cwd address) path.toNat l) (hsame : target st l = st) (ops : FloatOps)
    (stack resolved : ℕ → UInt8) :
    ∃ cwd', Returns (t.syscallChdir ops · stack resolved user cwd address path) (0, cwd') ∧ ∀ i < cwdSize,
      cwd' i = cwd i := by
  obtain ⟨r, cwd', hr, hcase⟩ := syscallChdir_ok h ha hp hl ops stack resolved
  rw [hsame] at hcase
  rcases hcase with ⟨-, rfl, hok⟩ | ⟨hno, -⟩
  · exact ⟨cwd', hr, h.holds.unique hok.holds⟩
  · exact absurd h.leads hno

/-- **`syscall_getcwd`** stores the string wherever it fits. -/
theorem syscallGetcwd_ok (h : Holds cwd l) (user : ℕ → UInt8) (buf : BitVec 32) (len : ℕ) :
    ∃ r user', Returns (syscallGetcwd · cwd user buf len) (r, user') ∧
      (r = l.length ∧ CStr user' buf.toNat l ∨ r = -1 ∧ (buf = 0 ∨ len ≤ l.length)) := by
  by_cases hbad : buf = 0 ∨ len = 0
  · refine ⟨-1, user, ⟨0, fun fuel _ => if_pos hbad⟩, .inr ⟨rfl, hbad.imp_right fun h0 => ?_⟩⟩
    rw [h0]
    exact Nat.zero_le _
  have hrun : ∀ fuel, l.length < fuel → syscallGetcwd fuel cwd user buf len =
      some (if l.length + 1 > len then (-1, user)
        else ((l.length : ℤ), Function.update (strncpy user buf.toNat cwd 0 (len - 1))
          (buf.toNat + (len - 1)) 0)) := by
    intro fuel hf
    unfold syscallGetcwd
    rw [if_neg hbad, strlen_cstr h.cstr hf, Option.map_some]
  by_cases hroom : l.length + 1 > len
  · refine ⟨-1, user, ⟨l.length, fun fuel hf => ?_⟩, .inr ⟨rfl, .inr (by omega)⟩⟩
    exact (hrun fuel hf).trans (congrArg some (if_pos hroom))
  · have hcopy := strncpy_cstr_at h.cstr user buf.toNat (len - 1)
    rw [List.take_of_length_le (by omega)] at hcopy
    refine ⟨l.length, _, ⟨l.length, fun fuel hf => ?_⟩, .inl ⟨rfl, hcopy⟩⟩
    exact (hrun fuel hf).trans (congrArg some (if_neg hroom))

/-! ### Runs -/

/-- The array of every process is right. -/
def CwdInv (t : Tree Node) (s : List (ℕ → UInt8)) : Prop := ∀ cwd ∈ s, ∃ st, CwdOK t cwd st

theorem procCwd_root : Holds (procCwd none) [slash] := setCwd_holds (literal_cstr slash_ne) (by decide) _

/-- A child is where its parent is. -/
theorem procCwd_ok (h : CwdOK t cwd st) : CwdOK t (procCwd (some cwd)) st := by
  have h0 : cwd 0 ≠ 0 := h.holds.cstr.1 ▸ h.holds.cstr.2.1
  have hcwd : procCwd (some cwd) = setCwd (fun _ => 0) cwd := congrArg (setCwd _) (if_pos h0)
  refine ⟨?_, h.stack, h.depth, h.leads⟩
  rw [hcwd]
  exact setCwd_holds h.holds.cstr h.holds.fits _

/-- **A step keeps all arrays.** -/
theorem cwdStep_ok {root : Node} (hroot : t.root = some root) (hdir : t.isDir root = true) (s s' : List (ℕ → UInt8))
    (h : CwdInv t s) (hs : CwdStep t ops s s') : CwdInv t s' := by
  intro x hx
  cases hs with
  | boot =>
    rcases List.mem_append.1 hx with hx | hx
    · exact h x hx
    · obtain rfl := List.mem_singleton.1 hx
      exact ⟨[], root_ok hroot hdir procCwd_root⟩
  | exec hcwd =>
    rcases List.mem_append.1 hx with hx | hx
    · exact h x hx
    · obtain rfl := List.mem_singleton.1 hx
      obtain ⟨st, hst⟩ := h _ hcwd
      exact ⟨st, procCwd_ok hst⟩
  | @chdir stack resolved user cwd' address path r i hi ha hpath hret =>
    rcases List.mem_or_eq_of_mem_set hx with hx | rfl
    · exact h x hx
    obtain ⟨st, hst⟩ := h _ (List.getElem_mem hi)
    rcases hpath with rfl | ⟨l, hl⟩
    · -- `chdir(NULL)`
      obtain ⟨-, rfl⟩ := Prod.mk.inj (hret.unique (syscallChdir_null t ops stack resolved user s[i] address))
      exact ⟨st, hst⟩
    by_cases hp : path = 0
    · subst hp
      obtain ⟨-, rfl⟩ := Prod.mk.inj (hret.unique (syscallChdir_null t ops stack resolved user s[i] address))
      exact ⟨st, hst⟩
    obtain ⟨r', cwd'', hret', hcase⟩ := syscallChdir_ok hst ha hp hl ops stack resolved
    obtain ⟨rfl, rfl⟩ := Prod.mk.inj (hret.unique hret')
    rcases hcase with ⟨-, -, hok⟩ | ⟨-, -, rfl⟩
    · exact ⟨_, hok⟩
    · exact ⟨st, hst⟩
  | exit => exact h x (List.mem_of_mem_eraseIdx hx)

/-- **Working directories stay canonical.** In every reachable state the array of a process holds an absolute path in
normal form, which leads to a directory. A change of directory always returns, and one that fails changes nothing. The
path itself, which is what `getcwd` stores, and `"."` lead nowhere else. -/
theorem cwd_canonical {root : Node} {s : List (ℕ → UInt8)} (hroot : t.root = some root) (hdir : t.isDir root = true)
    (hrun : Relation.ReflTransGen (CwdStep t ops) [] s) (hcwd : cwd ∈ s) :
    ∃ l, CStr cwd 0 l ∧ NormalPath l ∧ l.length < cwdSize ∧
      (∃ node, (t.vfsLookup (some l)).1 = some node ∧ t.isDir node = true) ∧
      (∀ (stack resolved user : ℕ → UInt8) (address path : BitVec 32), address ≠ 0 →
        PathArg (withCwd user cwd address) path →
        ∃ r cwd', Returns (t.syscallChdir ops · stack resolved user cwd address path) (r, cwd') ∧
          (r ≠ 0 → cwd' = cwd) ∧
          (path ≠ 0 → CStr (withCwd user cwd address) path.toNat l ∨
            CStr (withCwd user cwd address) path.toNat [period] →
            r = 0 ∧ ∀ i < cwdSize, cwd' i = cwd i)) ∧
      ∀ (user : ℕ → UInt8) (buf : BitVec 32) (len : ℕ), ∃ r user', Returns (syscallGetcwd · cwd user buf len)
        (r, user') ∧ (r = l.length ∧ CStr user' buf.toNat l ∨ r = -1 ∧ (buf = 0 ∨ len ≤ l.length)) := by
  have hinv : CwdInv t s := run_inv (cwdStep_ok hroot hdir) (fun x hx => absurd hx List.not_mem_nil) hrun
  obtain ⟨st, h⟩ := hinv cwd hcwd
  have hcap : ∀ n ∈ some maxSegments, st.length ≤ n := fun n hn => Option.some.inj hn ▸ h.depth
  have hfits := h.holds.fits
  refine ⟨render st, h.holds.cstr, normal_render h.stack, hfits, h.leads, ?_, ?_⟩
  · -- `chdir`
    intro stack resolved user address path ha hpath
    by_cases hp : path = 0
    · subst hp
      exact ⟨-1, cwd, syscallChdir_null t ops stack resolved user cwd address, fun _ => rfl, fun hne =>
        absurd rfl hne⟩
    obtain ⟨l, hl⟩ := hpath.resolve_left hp
    obtain ⟨r, cwd', hret, hcase⟩ := syscallChdir_ok h ha hp hl ops stack resolved
    refine ⟨r, cwd', hret, ?_, ?_⟩
    · intro hr
      rcases hcase with ⟨-, h0, -⟩ | ⟨-, -, hsame⟩
      · exact absurd h0 hr
      · exact hsame
    · intro _ hwhere
      have hsame : target st l = st := by
        rcases hwhere with hself | hhere
        · obtain rfl := hl.unique hself
          exact resolve_same h.stack hcap (by omega)
        · obtain rfl := hl.unique hhere
          exact resolve_here h.stack hcap (by omega) (by decide)
      obtain ⟨cwd'', hret', hunchanged⟩ := syscallChdir_same h ha hp hl hsame ops stack resolved
      obtain ⟨rfl, rfl⟩ := Prod.mk.inj (hret.unique hret')
      exact ⟨rfl, hunchanged⟩
  · -- `getcwd`
    intro user buf len
    exact syscallGetcwd_ok h.holds user buf len

/-- A root, and below it a directory `a` without entries. -/
def twoDirs : Tree Bool :=
  ⟨⟨fun deep => some fun name => if deep = false ∧ name = [97] then some true else none, some false⟩, fun _ => true⟩

theorem twoDirs_leads : twoDirs.Leads [slash, 97] := by
  refine ⟨true, ?_, rfl⟩
  rw [vfsLookup_pieces (show twoDirs.root = some false from rfl) rfl]
  decide +kernel

/-- A process moves to `a`, and starts a child there. -/
theorem cwd_canonical_moved : ∃ cwd, Relation.ReflTransGen (CwdStep twoDirs noFloat) [] [cwd, procCwd (some cwd)] ∧
    CStr (procCwd (some cwd)) 0 [slash, 97] ∧ NormalPath [slash, 97] := by
  have hroot : CwdOK twoDirs (procCwd none) [] := root_ok rfl rfl procCwd_root
  -- the path `"a"` in the memory of the process
  have hpath : CStr (withCwd (fun i => if i = 0x1000 then 97 else 0) (procCwd none) 0xC1000000#32)
    (0x1000#32).toNat [97] :=
    ⟨copyIn_out (.inl (by decide)), by decide, copyIn_out (.inl (by decide))⟩
  have hstack : StackOK [[97]] := by
    intro c hc
    rw [List.mem_singleton.1 hc]
    constructor <;> decide
  have hrender : render [[97]] = [slash, 97] := rfl
  have htarget : target [] [97] = [[97]] := by
    have hjoined : (joined (render []) [97]).take (cwdSize - 1) = render [[97]] := rfl
    unfold target
    rw [hjoined]
    exact resolve_render hstack fun n hn => by
      rw [← Option.some.inj hn]
      decide
  obtain ⟨r, cwd, hret, ⟨-, -, hcwd⟩ | ⟨hno, -⟩⟩ := syscallChdir_ok hroot (by decide) (by decide) hpath noFloat
    (fun _ => 0) fun _ => 0
  · have hchild := procCwd_ok hcwd
    rw [htarget] at hchild
    have hrun : Relation.ReflTransGen (CwdStep twoDirs noFloat) [] [cwd, procCwd (some cwd)] :=
      ((Relation.ReflTransGen.single (.boot [])).tail (.chdir 0 (by decide) (by decide) (.inr ⟨_, hpath⟩) hret)).tail
        (.exec List.mem_cons_self)
    obtain ⟨l, hl, hnormal, -⟩ := cwd_canonical (show twoDirs.root = some false from rfl) rfl hrun
      (List.mem_cons_of_mem _ List.mem_cons_self)
    obtain rfl := hl.unique hchild.holds.cstr
    exact ⟨cwd, hrun, hl, hnormal⟩
  · rw [htarget, hrender] at hno
    exact absurd twoDirs_leads hno

end Saynaa
