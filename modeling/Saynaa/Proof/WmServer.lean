import Saynaa.Proof.Mailbox

/-!
# Clients and the server of the window manager device

* `Registered`, `registered_enter`: who has an endpoint. `write_accepted`: which writes are accepted.
* `reads_ok`: reading on, a process gets to every message in its queue.
* `client_isolation`: only the server reaches clients, and no source is forged.
* `clients_answered`: clients that found an endpoint can be answered.
* `clients_refused`: the 33rd client is heard but cannot be answered.
-/

namespace Saynaa

open Lib

variable {s s' : Wm} {T : ℕ → List Msg} {pid src : ℕ} {b : List UInt8} {m : Msg} {ms : List Msg}

/-! ### Registration -/

/-- An endpoint has this pid; the free ones have pid 0. -/
def Registered (s : Wm) (pid : ℕ) : Prop := ∃ i, (s.eps i).pid = pid

/-- The process has an endpoint or finds a free one. -/
def Wm.CanRegister (s : Wm) (pid : ℕ) : Prop := Registered s pid ∨ Registered s 0

theorem findEp_registered : s.findEp pid = none ↔ ¬ Registered s pid := by
  rw [findEp_none]
  exact not_exists.symm

theorem SameEps.registered (h : SameEps s s') : Registered s' pid ↔ Registered s pid := by
  unfold Registered
  simp only [h.pid]

/-- Registration only takes free endpoints. -/
theorem ensureEp_pid (s : Wm) (pid : ℕ) (i : Fin wmEndpoints) :
    ((s.ensureEp pid).2.eps i).pid = (s.eps i).pid ∨
      (s.eps i).pid = 0 ∧ ((s.ensureEp pid).2.eps i).pid = pid := by
  unfold Wm.ensureEp
  cases s.findEp pid with
  | some j => exact .inl rfl
  | none =>
    cases hz : s.findEp 0 with
    | none => exact .inl rfl
    | some j =>
      by_cases hij : i = j
      · subst hij
        exact .inr ⟨findEp_some hz, by simp [Wm.setEp]⟩
      · exact .inl (by simp [Wm.setEp, Function.update_of_ne hij])

theorem Registered.ensureEp {p : ℕ} (h : Registered s p) (h0 : p ≠ 0) (pid : ℕ) :
    Registered (s.ensureEp pid).2 p := by
  obtain ⟨i, hi⟩ := h
  rcases ensureEp_pid s pid i with he | ⟨hz, -⟩
  · exact ⟨i, he.trans hi⟩
  · exact absurd (hi.symm.trans hz) h0

theorem registered_ensureEp (h : s.CanRegister pid) : Registered (s.ensureEp pid).2 pid := by
  unfold Wm.ensureEp
  cases hf : s.findEp pid with
  | some i => exact ⟨i, findEp_some hf⟩
  | none =>
    cases hz : s.findEp 0 with
    | some i => exact ⟨i, by simp [Wm.setEp]⟩
    | none => exact absurd (h.resolve_left (findEp_registered.1 hf)) (findEp_registered.1 hz)

theorem Registered.enter {p : ℕ} (h : Registered s p) (h0 : p ≠ 0) (src : ℕ) : Registered (s.enter src) p := by
  refine Registered.ensureEp ?_ h0 src
  split_ifs
  · exact Registered.ensureEp (s := { s with serverPid := src }) h h0 src
  · exact h

theorem registered_enter (h : s.CanRegister src) (h0 : src ≠ 0) : Registered (s.enter src) src := by
  unfold Wm.enter
  simp only
  split_ifs with hz
  · exact (registered_ensureEp (s := { s with serverPid := src }) h).ensureEp h0 src
  · exact registered_ensureEp h

theorem ensureEp_registered (h : Registered s pid) : (s.ensureEp pid).2 = s := by
  unfold Wm.ensureEp
  cases hf : s.findEp pid with
  | some i => rfl
  | none => exact absurd h (findEp_registered.1 hf)

theorem ensureEp_full (h : ¬ s.CanRegister pid) : (s.ensureEp pid).2 = s := by
  obtain ⟨h1, h2⟩ := not_or.1 h
  unfold Wm.ensureEp
  rw [findEp_registered.2 h1, findEp_registered.2 h2]

theorem enter_of_server (hz : s.serverPid ≠ 0) : s.enter src = (s.ensureEp src).2 := by
  unfold Wm.enter
  rw [if_neg hz]

theorem enter_pid (s : Wm) (src : ℕ) (i : Fin wmEndpoints) :
    ((s.enter src).eps i).pid = (s.eps i).pid ∨ (s.eps i).pid = 0 ∧ ((s.enter src).eps i).pid = src := by
  by_cases hz : s.serverPid = 0
  · set t := (({ s with serverPid := src } : Wm).ensureEp src).2 with ht
    have hent : s.enter src = (t.ensureEp src).2 := by
      unfold Wm.enter
      rw [if_pos hz]
    have h1 : (t.eps i).pid = (s.eps i).pid ∨ (s.eps i).pid = 0 ∧ (t.eps i).pid = src := ensureEp_pid _ src i
    have h2 := ensureEp_pid t src i
    rw [hent]
    omega
  · rw [enter_of_server hz]
    exact ensureEp_pid s src i

/-- **A write that is accepted**: by the server or to it, and the receiver has an endpoint. -/
theorem write_accepted (h : WmIs s T) (h0 : src ≠ 0) (hsrc : src < 2 ^ 32) (hb : WellFormed b) {dst : ℕ}
    (hdst : (s.enter src).destination b = dst) (hreg : Registered (s.enter src) dst)
    (hallow : src = (s.enter src).serverPid ∨ dst = (s.enter src).serverPid) :
    ∃ r s', Returns (fun fuel => devWmWrite fuel s (some src) (some b)) (r, s') ∧ 0 < r ∧ SameEps (s.enter src) s' ∧
      WmIs s' (Function.update T dst
        (makeRoom (hdrSize + (sentMsg src b).payload.length) (T dst) ++ [sentMsg src b])) := by
  obtain ⟨r, s', hr, hs', hcase⟩ := devWmWrite_ok h h0 hsrc hb
  rw [hdst, hs'] at hcase
  rcases hcase with ⟨-, -, ⟨hne, hne'⟩ | ⟨hnone, -⟩⟩ | ⟨hpos, -, hsame, hstep⟩
  · exact absurd hallow (not_or.2 ⟨hne, hne'⟩)
  · exact absurd hreg (findEp_registered.1 hnone)
  · rw [ensureEp_registered hreg] at hsame
    exact ⟨r, s', hr, hpos, hsame, wmStep_ok (enter_ok h h0) hstep⟩

/-- Type 3, one byte of payload, to the server. -/
def greeting : List UInt8 := [0, 0, 0, 0, 3, 0, 0, 0, 1, 0, 0, 0, 7]

theorem greeting_wellFormed : WellFormed greeting := by
  constructor <;> decide

/-- A greeting reaches the server, which has an endpoint. -/
theorem greeting_ok (h : WmIs s T) (h0 : src ≠ 0) (hsrc : src < 2 ^ 32)
    (hserver : Registered (s.enter src) (s.enter src).serverPid) :
    ∃ r s' T', Returns (fun fuel => devWmWrite fuel s (some src) (some greeting)) (r, s') ∧ 0 < r ∧
      SameEps (s.enter src) s' ∧ WmIs s' T' := by
  have hto : (s.enter src).destination greeting = (s.enter src).serverPid := if_pos (by decide)
  obtain ⟨r, s', hr, hpos, hsame, hT⟩ := write_accepted h h0 hsrc greeting_wellFormed hto hserver (.inr rfl)
  exact ⟨r, s', _, hr, hpos, hsame, hT⟩

/-! ### Reading up to a message -/

/-- `k` reads by `pid` with a buffer of `size` bytes. -/
def readN (size pid : ℕ) : ℕ → Wm → Wm
  | 0, s => s
  | k + 1, s => readN size pid k (devWmRead s (some pid) (some size)).2.2

/-- A read into a buffer that takes every message returns the oldest one. -/
theorem devWmRead_oldest (h : WmIs s T) (h0 : pid ≠ 0) {size : ℕ} (hsize : hdrSize + wmMaxPayload ≤ size)
    (hT : T pid = m :: ms) : ∃ s', devWmRead s (some pid) (some size) = ((m.bytes.length : ℤ), m.bytes, s') ∧
      WmIs s' (Function.update T pid ms) := by
  rcases hr : devWmRead s (some pid) (some size) with ⟨ret, bytes, s'⟩
  rcases (devWmRead_ok h h0 (some size) hr).2 with ⟨m', ms', hT', rfl, rfl, hw⟩ | ⟨-, -, -, hsmall⟩
  · obtain ⟨rfl, rfl⟩ := List.cons.inj (hT.symm.trans hT')
    exact ⟨s', rfl, hw⟩
  · have hm : m.OK := by
      by_cases hreg : Registered s pid
      · obtain ⟨i, hi⟩ := hreg
        have hq := h.queue i
        rw [hi, hT] at hq
        exact hq.msgs m List.mem_cons_self
      · have hnil := h.rest pid (.inr (not_exists.1 hreg))
        rw [hT] at hnil
        cases hnil
    have h1 := hsmall size m ms rfl hT
    have h2 := hm.len
    rw [length_bytes] at h1
    omega

/-- **The reads** after those of the older messages return a message that is queued. -/
theorem reads_ok {size : ℕ} (hsize : hdrSize + wmMaxPayload ≤ size) (h0 : pid ≠ 0) {rest : List Msg} :
    ∀ (ms : List Msg) {s : Wm} {T : ℕ → List Msg}, WmIs s T → T pid = ms ++ m :: rest →
      ∃ s', devWmRead (readN size pid ms.length s) (some pid) (some size) = ((m.bytes.length : ℤ), m.bytes, s') := by
  intro ms
  induction ms with
  | nil =>
    intro s T h hT
    obtain ⟨s', hr, -⟩ := devWmRead_oldest h h0 hsize hT
    exact ⟨s', hr⟩
  | cons x ms ih =>
    intro s T h hT
    obtain ⟨s1, hr, h1⟩ := devWmRead_oldest h h0 hsize hT
    unfold List.length readN
    rw [hr]
    exact ih h1 (Function.update_self ..)

/-! ### Who sent what -/

/-- A call of `dev_wm_write`: the writer and its buffer. -/
abbrev WmWrite := ℕ × Option (List UInt8)

/-- A write with a well-formed header. -/
def GoodWrite (w : WmWrite) : Prop := ∃ b, w.2 = some b ∧ WellFormed b

/-- **A run of reads and writes**, with the writes so far. -/
inductive WmRun : Wm → List WmWrite → Prop
  | init : WmRun initDevWm []
  | write {s s' : Wm} {H : List WmWrite} {src : ℕ} {buffer : Option (List UInt8)} {r : ℤ} (hr : WmRun s H)
      (h0 : src ≠ 0) (hsrc : src < 2 ^ 32)
      (hw : Returns (fun fuel => devWmWrite fuel s (some src) buffer) (r, s')) : WmRun s' (H ++ [(src, buffer)])
  | read {s s' : Wm} {H : List WmWrite} {pid : ℕ} {buffer : Option ℕ} {ret : ℤ} {bytes : List UInt8}
      (hr : WmRun s H) (h0 : pid ≠ 0) (hread : devWmRead s (some pid) buffer = (ret, bytes, s')) : WmRun s' H

/-- The server is the first writer with a well-formed header. -/
def ServerIs (H : List WmWrite) (server : ℕ) : Prop :=
  (∀ w ∈ H, ¬ GoodWrite w) ∧ server = 0 ∨
    ∃ H₁ w H₂, H = H₁ ++ w :: H₂ ∧ (∀ x ∈ H₁, ¬ GoodWrite x) ∧ GoodWrite w ∧ server = w.1

/-- Where a message in the queue of `pid` comes from. -/
def SentIn (H : List WmWrite) (server pid : ℕ) (m : Msg) : Prop :=
  ∃ b, (m.src, some b) ∈ H ∧ WellFormed b ∧ m = sentMsg m.src b ∧
    (pid ≠ server → m.src = server ∧ (WmSendHdr.ofBytes b).dst = pid) ∧
    (pid = server → (WmSendHdr.ofBytes b).dst = 0 ∨ (WmSendHdr.ofBytes b).dst = pid)

theorem SentIn.mono {H : List WmWrite} {server : ℕ} (h : SentIn H server pid m) (w : WmWrite) :
    SentIn (H ++ [w]) server pid m := by
  obtain ⟨b, hb, h⟩ := h
  exact ⟨b, List.mem_append_left _ hb, h⟩

theorem writer_ne {H : List WmWrite} (hr : WmRun s H) : ∀ w ∈ H, w.1 ≠ 0 := by
  induction hr with
  | init => exact fun w hw => absurd hw List.not_mem_nil
  | write _ h0 _ _ ih =>
    intro w hw
    rcases List.mem_append.1 hw with hw | hw
    · exact ih w hw
    · rw [List.mem_singleton.1 hw]
      exact h0
  | read _ _ _ ih => exact ih

/-- A write that is not well formed fails and changes nothing. -/
theorem devWmWrite_stays {buffer : Option (List UInt8)} {r : ℤ} (hg : ¬ GoodWrite (src, buffer))
    (hw : Returns (fun fuel => devWmWrite fuel s (some src) buffer) (r, s')) : r = -1 ∧ s' = s := by
  have hstay : Returns (fun fuel => devWmWrite fuel s (some src) buffer) (-1, s) := by
    cases buffer with
    | none => exact ⟨0, fun _ _ => rfl⟩
    | some b => exact ⟨0, fun fuel _ => devWmWrite_bad (fun hb => hg ⟨b, rfl, hb⟩) fuel s src⟩
  exact Prod.mk.inj (hw.unique hstay)

/-- **Client isolation.** The server is the first writer for good; what another process has in its
queue was sent by the server to it, and what the server has bears the pid of its sender. -/
theorem client_isolation {H : List WmWrite} (hr : WmRun s H) :
    ServerIs H s.serverPid ∧ ∃ T, WmIs s T ∧ ∀ pid, ∀ m ∈ T pid, SentIn H s.serverPid pid m := by
  induction hr with
  | init => exact ⟨.inl ⟨fun w hw => absurd hw List.not_mem_nil, rfl⟩, _, initDevWm_ok,
      fun pid m hm => absurd hm List.not_mem_nil⟩
  | @read s s' H pid buffer ret bytes hr h0 hread ih =>
    obtain ⟨hserver, T, hT, hsent⟩ := ih
    obtain ⟨hsame, hcase⟩ := devWmRead_ok hT h0 buffer hread
    rw [hsame.server]
    refine ⟨hserver, ?_⟩
    rcases hcase with ⟨m, ms, hq, -, -, hT'⟩ | ⟨-, -, rfl, -⟩
    · refine ⟨_, hT', fun p x hx => ?_⟩
      by_cases hp : p = pid
      · subst hp
        rw [Function.update_self] at hx
        exact hsent p x (by rw [hq]; exact List.mem_cons_of_mem _ hx)
      · rw [Function.update_of_ne hp] at hx
        exact hsent p x hx
    · exact ⟨T, hT, hsent⟩
  | @write s s' H src buffer r hr h0 hsrc hw ih =>
    obtain ⟨hserver, T, hT, hsent⟩ := ih
    by_cases hg : GoodWrite (src, buffer)
    · obtain ⟨b, hb, hwf⟩ := hg
      simp only at hb
      subst hb
      obtain ⟨r', s1, hret, hs1, hcase⟩ := devWmWrite_ok hT h0 hsrc hwf
      obtain ⟨rfl, rfl⟩ := Prod.mk.inj (hw.unique hret)
      have hgood : GoodWrite (src, some b) := ⟨b, rfl, hwf⟩
      -- the server stays, or nothing was sent before and the writer becomes it
      have hnew : ServerIs (H ++ [(src, some b)]) s'.serverPid ∧
          ∀ p, ∀ x ∈ T p, SentIn (H ++ [(src, some b)]) s'.serverPid p x := by
        rw [hs1, serverPid_enter]
        rcases hserver with ⟨hnone, hz⟩ | ⟨H₁, w, H₂, rfl, h1, hw1, hsrv⟩
        · rw [if_pos hz]
          refine ⟨.inr ⟨H, _, [], rfl, hnone, hgood, rfl⟩, fun p x hx => ?_⟩
          obtain ⟨b', hb', hwf', -⟩ := hsent p x hx
          exact absurd ⟨b', rfl, hwf'⟩ (hnone _ hb')
        · by_cases hz : s.serverPid = 0
          · -- the first good writer has a pid other than 0, so this cannot be
            exact absurd hz (hsrv ▸ writer_ne hr w (by simp))
          · rw [if_neg hz]
            exact ⟨.inr ⟨H₁, w, H₂ ++ [(src, some b)], by simp, h1, hw1, hsrv⟩,
              fun p x hx => (hsent p x hx).mono _⟩
      refine ⟨hnew.1, ?_⟩
      rcases hcase with ⟨-, rfl, -⟩ | ⟨-, hallow, -, hstep⟩
      · exact ⟨T, enter_ok hT h0, hnew.2⟩
      · refine ⟨_, wmStep_ok (enter_ok hT h0) hstep, fun p x hx => ?_⟩
        simp only at hx
        by_cases hp : p = (s.enter src).destination b
        · subst hp
          rw [Function.update_self] at hx
          rcases List.mem_append.1 hx with hx | hx
          · exact hnew.2 _ x (makeRoom_mem x hx)
          · rw [List.mem_singleton.1 hx]
            refine ⟨b, by simp [sentMsg], hwf, rfl, fun hne => ?_, fun heq => ?_⟩
            · refine ⟨hallow.resolve_right hne, ?_⟩
              unfold Wm.destination at hne ⊢
              split_ifs at hne ⊢ with hz
              · rw [hs1] at hne
                exact absurd rfl hne
              · rfl
            · unfold Wm.destination at heq ⊢
              split_ifs at heq ⊢ with hz
              · exact .inl hz
              · exact .inr rfl
        · rw [Function.update_of_ne hp] at hx
          exact hnew.2 p x hx
    · obtain ⟨-, rfl⟩ := devWmWrite_stays hg hw
      refine ⟨?_, T, hT, fun p x hx => (hsent p x hx).mono _⟩
      rcases hserver with ⟨hnone, hz⟩ | ⟨H₁, w, H₂, rfl, h1, hw1, hsrv⟩
      · refine .inl ⟨fun w hw => ?_, hz⟩
        rcases List.mem_append.1 hw with hw | hw
        · exact hnone w hw
        · rwa [List.mem_singleton.1 hw]
      · exact .inr ⟨H₁, w, H₂ ++ [(src, buffer)], by simp, h1, hw1, hsrv⟩

/-- Type 4, one byte of payload, to process 3. -/
def answer : List UInt8 := [3, 0, 0, 0, 4, 0, 0, 0, 1, 0, 0, 0, 9]

theorem answer_wellFormed : WellFormed answer := by
  constructor <;> decide

/-- Process 2 becomes the server, and process 3 greets it. -/
structure Greeting (s₂ s₃ : Wm) : Prop where
  first : ∃ r, Returns (fun fuel => devWmWrite fuel initDevWm (some 2) (some greeting)) (r, s₂) ∧ 0 < r
  second : ∃ r, Returns (fun fuel => devWmWrite fuel s₂ (some 3) (some greeting)) (r, s₃) ∧ 0 < r
  free : Registered s₂ 0
  server : s₃.serverPid = 2
  endpoint : Registered s₃ 3
  queues : ∃ T, WmIs s₃ T ∧ T 3 = []

theorem greetings : ∃ s₂ s₃, Greeting s₂ s₃ := by
  have hempty : Wm.CanRegister initDevWm 2 := .inr ⟨⟨0, by decide⟩, rfl⟩
  have hserver : (Wm.enter initDevWm 2).serverPid = 2 := by
    rw [serverPid_enter]
    rfl
  have hto : (Wm.enter initDevWm 2).destination greeting = 2 := (if_pos (by decide)).trans hserver
  obtain ⟨r, s₂, hr, hpos, hsame, hT⟩ :=
    write_accepted initDevWm_ok (by norm_num) (by norm_num) greeting_wellFormed hto
    (registered_enter hempty (by norm_num)) (.inl hserver.symm)
  -- one of 32 endpoints is taken
  have hfree : Registered s₂ 0 := hsame.registered.2 ⟨⟨1, by decide⟩, by decide +kernel⟩
  have hs₂ : s₂.serverPid = 2 := hsame.server.trans hserver
  have hserver' : (s₂.enter 3).serverPid = 2 := by
    rw [serverPid_enter, hs₂]
    rfl
  have hto' : (s₂.enter 3).destination greeting = 2 := (if_pos (by decide)).trans hserver'
  have hreg : Registered (s₂.enter 3) 2 :=
    (hsame.registered.2 (registered_enter hempty (by norm_num))).enter (by norm_num) 3
  obtain ⟨r', s₃, hr', hpos', hsame', hT'⟩ :=
    write_accepted hT (by norm_num) (by norm_num) greeting_wellFormed hto' hreg
    (.inr hserver'.symm)
  exact ⟨s₂, s₃, ⟨r, hr, hpos⟩, ⟨r', hr', hpos'⟩, hfree, hsame'.server.trans hserver',
    hsame'.registered.2 (registered_enter (.inr hfree) (by norm_num)), _, hT', rfl⟩

/-- Process 2 becomes the server, process 3 greets it, and reads what the server answers. -/
theorem client_isolation_answered : ∃ s, WmRun s [(2, some greeting), (3, some greeting), (2, some answer)] ∧
    ServerIs [(2, some greeting), (3, some greeting), (2, some answer)] s.serverPid ∧
    (∃ T, WmIs s T ∧ ∀ pid, ∀ m ∈ T pid,
      SentIn [(2, some greeting), (3, some greeting), (2, some answer)] s.serverPid pid m) ∧
    ∃ s', devWmRead s (some 3) (some 268) = (13, [2, 0, 0, 0, 4, 0, 0, 0, 1, 0, 0, 0, 9], s') := by
  obtain ⟨s₂, s₃, h⟩ := greetings
  obtain ⟨r₂, hr₂, -⟩ := h.first
  obtain ⟨r₃, hr₃, -⟩ := h.second
  obtain ⟨T, hT, hnil⟩ := h.queues
  have hserver : (s₃.enter 2).serverPid = 2 := by
    rw [serverPid_enter, h.server]
    rfl
  have hto : (s₃.enter 2).destination answer = 3 := if_neg (by decide)
  obtain ⟨r, s, hr, -, -, hT'⟩ := write_accepted hT (by norm_num) (by norm_num) answer_wellFormed hto
    (h.endpoint.enter (by norm_num) 2) (.inl hserver.symm)
  have hrun : WmRun s [(2, some greeting), (3, some greeting), (2, some answer)] :=
    .write (.write (.write .init (by norm_num) (by norm_num) hr₂) (by norm_num) (by norm_num) hr₃) (by norm_num)
      (by norm_num) hr
  have hqueue : Function.update T 3
    (makeRoom (hdrSize + (sentMsg 2 answer).payload.length) (T 3) ++ [sentMsg 2 answer]) 3 =
      sentMsg 2 answer :: [] := by
    rw [Function.update_self, hnil]
    rfl
  obtain ⟨s', hread, -⟩ := devWmRead_oldest hT' (by norm_num) (by decide : hdrSize + wmMaxPayload ≤ 268) hqueue
  obtain ⟨hsrv, hsent⟩ := client_isolation hrun
  exact ⟨s, hrun, hsrv, hsent, s', hread⟩

/-! ### Processes that start, write, read and exit -/

/-- The device, the processes that are alive, and those of them that had a write accepted. -/
structure Clients where
  wm : Wm
  live : Set ℕ
  accepted : Set ℕ

/-- **A step of the processes**; `C` restricts the writes. -/
inductive ClientStep (C : Wm → ℕ → Option (List UInt8) → Prop) : Clients → Clients → Prop
  | start {c : Clients} {pid : ℕ} (h0 : pid ≠ 0) (hpid : pid < 2 ^ 32) (hnew : pid ∉ c.live) :
      ClientStep C c { c with live := insert pid c.live }
  | exit {c : Clients} {pid : ℕ} (hlive : pid ∈ c.live) :
      ClientStep C c { c with live := c.live \ {pid}, accepted := c.accepted \ {pid} }
  | read {c : Clients} {pid : ℕ} {buffer : Option ℕ} {ret : ℤ} {bytes : List UInt8} {wm : Wm}
      (hlive : pid ∈ c.live) (hr : devWmRead c.wm (some pid) buffer = (ret, bytes, wm)) :
      ClientStep C c { c with wm := wm }
  | write {c : Clients} {pid : ℕ} {buffer : Option (List UInt8)} {r : ℤ} {wm : Wm}
      (hlive : pid ∈ c.live) (hC : C c.wm pid buffer)
      (hw : Returns (fun fuel => devWmWrite fuel c.wm (some pid) buffer) (r, wm)) :
      ClientStep C c { c with wm := wm, accepted := {p | p ∈ c.accepted ∨ p = pid ∧ 0 < r} }

/-- No process is there yet. -/
def initClients : Clients := ⟨initDevWm, ∅, ∅⟩

/-- A run of the processes. -/
abbrev ClientRun (C : Wm → ℕ → Option (List UInt8) → Prop) (c : Clients) : Prop :=
  Relation.ReflTransGen (ClientStep C) initClients c

/-- What the server writes to `pid` is accepted, and the reads of `pid` get to it. -/
def CanAnswer (s : Wm) (pid : ℕ) : Prop :=
  ∀ b, WellFormed b → (WmSendHdr.ofBytes b).dst = pid → ∃ r s',
    Returns (fun fuel => devWmWrite fuel s (some s.serverPid) (some b)) (r, s') ∧ 0 < r ∧
    ∀ size, hdrSize + wmMaxPayload ≤ size → ∃ k s'',
      devWmRead (readN size pid k s') (some pid) (some size) =
        (((sentMsg s.serverPid b).bytes.length : ℤ), (sentMsg s.serverPid b).bytes, s'')

/-- A write to the server comes from a process that has an endpoint or finds a free one. -/
def FindsEndpoint (s : Wm) (pid : ℕ) (buffer : Option (List UInt8)) : Prop :=
  ∀ b, buffer = some b → WellFormed b →
    (WmSendHdr.ofBytes b).dst = 0 ∨ (WmSendHdr.ofBytes b).dst = s.serverPid → s.CanRegister pid

/-- **A write keeps endpoints**, and leaves one to its process if it is accepted. -/
theorem devWmWrite_registered {buffer : Option (List UInt8)} {r : ℤ} (h : WmIs s T) (h0 : src ≠ 0)
    (hsrc : src < 2 ^ 32) (hfresh : s.serverPid = 0 → Registered s 0)
    (hserver : s.serverPid ≠ 0 → Registered s s.serverPid) (hC : FindsEndpoint s src buffer)
    (hw : Returns (fun fuel => devWmWrite fuel s (some src) buffer) (r, s')) :
    (r = -1 ∧ s' = s ∨ s'.serverPid = (s.enter src).serverPid ∧ Registered s' s'.serverPid) ∧
    (∃ T', WmIs s' T') ∧ (∀ p, p ≠ 0 → Registered s p → Registered s' p) ∧ (0 < r → Registered s' src) := by
  by_cases hg : GoodWrite (src, buffer)
  swap
  · -- a refused write changes nothing
    obtain ⟨rfl, rfl⟩ := devWmWrite_stays hg hw
    exact ⟨.inl ⟨rfl, rfl⟩, ⟨T, h⟩, fun _ _ hp => hp, by norm_num⟩
  obtain ⟨b, rfl, hwf⟩ : ∃ b, buffer = some b ∧ WellFormed b := hg
  obtain ⟨r', s1, hret, hs1, hcase⟩ := devWmWrite_ok h h0 hsrc hwf
  obtain ⟨rfl, rfl⟩ := Prod.mk.inj (hw.unique hret)
  have hkeep : ∀ p, p ≠ 0 → Registered (s.enter src) p → Registered s' p := by
    intro p hp hreg
    rcases hcase with ⟨-, rfl, -⟩ | ⟨-, -, hsame, -⟩
    · exact hreg
    · exact hsame.registered.2 (hreg.ensureEp hp _)
  have hsrv : Registered s' s'.serverPid := by
    rw [hs1, serverPid_enter]
    split_ifs with hz
    · exact hkeep src h0 (registered_enter (.inr (hfresh hz)) h0)
    · exact hkeep _ hz ((hserver hz).enter hz src)
  refine ⟨.inr ⟨hs1, hsrv⟩, ?_, fun p hp hreg => hkeep p hp (hreg.enter hp src), fun hpos => ?_⟩
  · rcases hcase with ⟨-, rfl, -⟩ | ⟨-, -, -, hstep⟩
    · exact ⟨T, enter_ok h h0⟩
    · exact ⟨_, wmStep_ok (enter_ok h h0) hstep⟩
  · obtain ⟨hneg, -⟩ | ⟨-, hallow, -⟩ := hcase
    · omega
    refine hkeep src h0 (registered_enter ?_ h0)
    by_cases hz : s.serverPid = 0
    · -- the first writer is the server
      exact .inr (hfresh hz)
    rw [hs1, serverPid_enter, if_neg hz] at hallow
    rcases hallow with heq | hdst
    · exact .inl (heq ▸ hserver hz)
    · refine hC b rfl hwf ?_
      unfold Wm.destination at hdst
      split_ifs at hdst with hb
      · exact .inl hb
      · exact .inr hdst

/-- What holds of the processes as long as the writes find endpoints. -/
structure ClientsOK (c : Clients) : Prop where
  queues : ∃ T, WmIs c.wm T
  fresh : c.wm.serverPid = 0 → Registered c.wm 0 ∧ c.accepted = ∅
  server : c.wm.serverPid ≠ 0 → Registered c.wm c.wm.serverPid
  serverLt : c.wm.serverPid < 2 ^ 32
  live : ∀ p ∈ c.live, p ≠ 0 ∧ p < 2 ^ 32
  accepted : ∀ p ∈ c.accepted, p ≠ 0 ∧ Registered c.wm p

theorem initClients_ok : ClientsOK initClients :=
  ⟨⟨_, initDevWm_ok⟩, fun _ => ⟨⟨⟨0, by decide⟩, rfl⟩, rfl⟩, fun h => absurd rfl h, by decide,
    fun _ hp => absurd hp (Set.notMem_empty _), fun _ hp => absurd hp (Set.notMem_empty _)⟩

theorem clientStep_ok {c c' : Clients} (h : ClientsOK c) (hs : ClientStep FindsEndpoint c c') : ClientsOK c' := by
  obtain ⟨⟨T, hT⟩, hfresh, hserver, hlt, hlive, hacc⟩ := h
  cases hs with
  | @start pid h0 hpid hnew =>
    refine ⟨⟨T, hT⟩, hfresh, hserver, hlt, fun p hp => ?_, hacc⟩
    rcases hp with rfl | hp
    · exact ⟨h0, hpid⟩
    · exact hlive p hp
  | @exit pid hl =>
    refine ⟨⟨T, hT⟩, fun hz => ⟨(hfresh hz).1, ?_⟩, hserver, hlt, fun p hp => hlive p hp.1,
      fun p hp => hacc p hp.1⟩
    simp [(hfresh hz).2]
  | @read pid buffer ret bytes wm hl hr =>
    obtain ⟨hsame, hcase⟩ := devWmRead_ok hT (hlive pid hl).1 buffer hr
    refine ⟨?_, fun hz => ?_, fun hz => ?_, hsame.server ▸ hlt, hlive, fun p hp => ⟨(hacc p hp).1, ?_⟩⟩
    · rcases hcase with ⟨m, ms, -, -, -, hT'⟩ | ⟨-, -, rfl, -⟩
      · exact ⟨_, hT'⟩
      · exact ⟨T, hT⟩
    · obtain ⟨h1, h2⟩ := hfresh (hsame.server ▸ hz)
      exact ⟨hsame.registered.2 h1, h2⟩
    · simp only [hsame.server] at hz ⊢
      exact hsame.registered.2 (hserver hz)
    · exact hsame.registered.2 (hacc p hp).2
  | @write pid buffer r wm hl hC hw =>
    obtain ⟨h0, hpid⟩ := hlive pid hl
    obtain ⟨hsrv, hT', hkeep, hnew⟩ := devWmWrite_registered hT h0 hpid (fun hz => (hfresh hz).1) hserver hC hw
    have hacc' : ∀ p, p ∈ c.accepted ∨ p = pid ∧ 0 < r → p ≠ 0 ∧ Registered wm p := by
      rintro p (hp | ⟨rfl, hpos⟩)
      · exact ⟨(hacc p hp).1, hkeep p (hacc p hp).1 (hacc p hp).2⟩
      · exact ⟨h0, hnew hpos⟩
    rcases hsrv with ⟨rfl, rfl⟩ | ⟨hs1, hreg⟩
    · exact ⟨⟨T, hT⟩, fun hz => ⟨(hfresh hz).1, by simp [(hfresh hz).2]⟩, hserver, hlt, hlive, hacc'⟩
    · have hcases : wm.serverPid ≠ 0 ∧ wm.serverPid < 2 ^ 32 := by
        rw [hs1, serverPid_enter]
        split_ifs with hz
        · exact ⟨h0, hpid⟩
        · exact ⟨hz, hlt⟩
      exact ⟨hT', fun hz => absurd hz hcases.1, fun _ => hreg, hcases.2, hlive, hacc'⟩

/-- **Clients that found an endpoint can be answered.** In a run in which the writes to the server
come from processes with an endpoint, or with one left for them, the server's answers to every
process that had a write accepted are accepted, and the process reads them. -/
theorem clients_answered {c : Clients} (hrun : ClientRun FindsEndpoint c) (hp : pid ∈ c.accepted) :
    c.wm.serverPid ≠ 0 ∧ CanAnswer c.wm pid := by
  obtain ⟨⟨T, hT⟩, hfresh, -, hlt, -, hacc⟩ := run_inv (I := ClientsOK) (fun _ _ h hs => clientStep_ok h hs)
    initClients_ok hrun
  obtain ⟨h0, hreg⟩ := hacc pid hp
  have hz : c.wm.serverPid ≠ 0 := by
    intro hz
    rw [(hfresh hz).2] at hp
    exact hp
  refine ⟨hz, fun b hb hdst => ?_⟩
  have hto : (c.wm.enter c.wm.serverPid).destination b = pid := by
    unfold Wm.destination
    rw [hdst, if_neg h0]
  have hserver : (c.wm.enter c.wm.serverPid).serverPid = c.wm.serverPid := by
    rw [serverPid_enter, if_neg hz]
  obtain ⟨r, s', hret, hpos, -, hT'⟩ := write_accepted hT hz hlt hb hto (hreg.enter h0 _) (.inl hserver.symm)
  refine ⟨r, s', hret, hpos, fun size hsize => ?_⟩
  obtain ⟨s'', hread⟩ :=
    reads_ok hsize h0 _ hT' (show _ = _ ++ sentMsg c.wm.serverPid b :: [] from Function.update_self ..)
  exact ⟨_, s'', hread⟩

/-- Process 2 becomes the server, and process 3, whose greeting was accepted, reads what it answers. -/
theorem clients_answered_second : ∃ c, ClientRun FindsEndpoint c ∧ 3 ∈ c.accepted ∧ c.wm.serverPid = 2 ∧
    CanAnswer c.wm 3 ∧ ∃ r s', Returns (fun fuel => devWmWrite fuel c.wm (some 2) (some answer)) (r, s') ∧ 0 < r ∧
      ∃ k s'', devWmRead (readN 268 3 k s') (some 3) (some 268) =
        (13, [2, 0, 0, 0, 4, 0, 0, 0, 1, 0, 0, 0, 9], s'') := by
  obtain ⟨s₂, s₃, h⟩ := greetings
  obtain ⟨r₂, hr₂, hpos₂⟩ := h.first
  obtain ⟨r₃, hr₃, hpos₃⟩ := h.second
  have hempty : Wm.CanRegister initDevWm 2 := .inr ⟨⟨0, by decide⟩, rfl⟩
  have hserver := ((Relation.ReflTransGen.refl (a := initClients)).tail
    (ClientStep.start (C := FindsEndpoint) (by norm_num : 2 ≠ 0) (by norm_num) (Set.notMem_empty _))).tail
    (.write (Set.mem_insert _ _) (fun _ _ _ _ => hempty) hr₂)
  have hnew : 3 ∉ insert 2 initClients.live := by
    rintro (h32 | hmem)
    · omega
    · exact hmem
  have hrun := (hserver.tail (.start (by norm_num : 3 ≠ 0) (by norm_num) hnew)).tail
    (.write (Set.mem_insert _ _) (fun _ _ _ _ => .inr h.free) hr₃)
  obtain ⟨hz, hcan⟩ := clients_answered hrun (.inr ⟨rfl, hpos₃⟩)
  obtain ⟨r, s', hr, hpos, hreads⟩ := hcan answer answer_wellFormed (by decide)
  obtain ⟨k, s'', hread⟩ := hreads 268 (by decide)
  simp only [h.server] at hr hread
  exact ⟨_, hrun, .inr ⟨rfl, hpos₃⟩, h.server, hcan, r, s', hr, hpos, k, s'', hread⟩

/-! ### More clients than endpoints -/

/-- The processes 1 to `n` have endpoints, no others have, and process 1 is the server. -/
structure Greeted (n : ℕ) (c : Clients) : Prop where
  queues : ∃ T, WmIs c.wm T
  pids : ∀ i, (c.wm.eps i).pid ≤ n
  all : ∀ p, 1 ≤ p → p ≤ n → Registered c.wm p
  server : c.wm.serverPid = if n = 0 then 0 else 1
  live : ∀ p ∈ c.live, p ≤ n

/-- Fewer than 32 processes leave an endpoint free. -/
theorem Greeted.free {n : ℕ} {c : Clients} (h : Greeted n c) (hn : n < wmEndpoints) : Registered c.wm 0 := by
  obtain ⟨T, hT⟩ := h.queues
  by_contra hfree
  have hpos : ∀ i, (c.wm.eps i).pid ≠ 0 := not_exists.1 hfree
  have hcard := Finset.card_le_card_of_injOn (s := Finset.univ) (t := Finset.Icc 1 n) (fun i => (c.wm.eps i).pid)
    (fun i _ => by
      have h1 := hpos i
      have h2 := h.pids i
      simp only [Finset.coe_Icc, Set.mem_Icc]
      omega)
    (fun i _ j _ hij => hT.inj i j (hpos i) hij)
  simp only [Finset.card_univ, Fintype.card_fin, Nat.card_Icc] at hcard
  omega

/-- 32 processes leave none. -/
theorem Greeted.full {c : Clients} (h : Greeted wmEndpoints c) : ¬ Registered c.wm 0 := by
  rintro ⟨i, hi⟩
  have hsub : Finset.Icc 0 wmEndpoints ⊆ Finset.univ.image fun i => (c.wm.eps i).pid := by
    intro p hp
    have hle := (Finset.mem_Icc.1 hp).2
    rw [Finset.mem_image]
    by_cases h0 : p = 0
    · exact ⟨i, Finset.mem_univ i, hi.trans h0.symm⟩
    · obtain ⟨j, hj⟩ := h.all p (by omega) hle
      exact ⟨j, Finset.mem_univ j, hj⟩
  have hcard := (Finset.card_le_card hsub).trans Finset.card_image_le
  simp only [Nat.card_Icc, Finset.card_univ, Fintype.card_fin] at hcard
  omega

/-- Process `n + 1` starts and greets the server. -/
theorem Greeted.next {n : ℕ} {c : Clients} (h : Greeted n c) (hrun : ClientRun (fun _ _ _ => True) c)
    (hn : n < wmEndpoints) : ∃ c', ClientRun (fun _ _ _ => True) c' ∧ Greeted (n + 1) c' := by
  obtain ⟨T, hT⟩ := h.queues
  have hlt : n + 1 < 2 ^ 32 := by
    have h32 : wmEndpoints = 32 := rfl
    omega
  have h0 : n + 1 ≠ 0 := n.succ_ne_zero
  have hreg := registered_enter (.inr (h.free hn)) h0
  have hserver : (c.wm.enter (n + 1)).serverPid = 1 := by
    rw [serverPid_enter, h.server]
    -- the first process is the server
    by_cases hn0 : n = 0
    · rw [if_pos hn0, if_pos rfl, hn0]
    · rw [if_neg hn0, if_neg one_ne_zero]
  have h1 : ∀ p, 1 ≤ p → p ≤ n + 1 → Registered (c.wm.enter (n + 1)) p := by
    intro p hp hle
    by_cases hpn : p = n + 1
    · exact hpn ▸ hreg
    · exact (h.all p hp (by omega)).enter (by omega) _
  obtain ⟨r, s', T', hr, -, hsame, hT'⟩ := greeting_ok hT h0 hlt
    (by rw [hserver]; exact h1 1 le_rfl (by omega))
  have hnew : n + 1 ∉ c.live := fun hl => by
    have := h.live _ hl
    omega
  refine ⟨_, (hrun.tail (.start h0 hlt hnew)).tail
    (.write (Set.mem_insert _ _) trivial hr), ⟨⟨T', hT'⟩, fun i => ?_, fun p hp hle => ?_, ?_, ?_⟩⟩
  · simp only [hsame.pid]
    have h2 := enter_pid c.wm (n + 1) i
    have h3 := h.pids i
    omega
  · exact hsame.registered.2 (h1 p hp hle)
  · exact hsame.server.trans (by rw [hserver, if_neg h0])
  · rintro p (rfl | hp)
    · exact le_rfl
    · exact (h.live p hp).trans n.le_succ

theorem greeted (n : ℕ) (hn : n ≤ wmEndpoints) : ∃ c, ClientRun (fun _ _ _ => True) c ∧ Greeted n c := by
  induction n with
  | zero =>
    exact ⟨initClients, .refl, ⟨_, initDevWm_ok⟩, fun _ => le_rfl, by omega, rfl,
      fun _ hp => absurd hp (Set.notMem_empty _)⟩
  | succ n ih =>
    obtain ⟨c, hrun, hc⟩ := ih (by omega)
    exact hc.next hrun (by omega)

/-- Type 3, no payload, to process 33. -/
def answer33 : List UInt8 := [33, 0, 0, 0, 3, 0, 0, 0, 0, 0, 0, 0]

/-- The 33rd process is heard by the server, which cannot answer it. -/
theorem clients_refused : ∃ c, ClientRun (fun _ _ _ => True) c ∧ 33 ∈ c.accepted ∧ c.wm.serverPid = 1 ∧
    ¬ CanAnswer c.wm 33 := by
  obtain ⟨c, hrun, hc⟩ := greeted wmEndpoints le_rfl
  obtain ⟨T, hT⟩ := hc.queues
  have hserver : c.wm.serverPid = 1 := hc.server
  have hnot : ¬ c.wm.CanRegister 33 := by
    rintro (⟨i, hi⟩ | hfree)
    · have h32 := hc.pids i
      have h33 : wmEndpoints = 32 := rfl
      omega
    · exact hc.full hfree
  have hstay : c.wm.enter 33 = c.wm := by
    rw [enter_of_server (by omega), ensureEp_full hnot]
  have hone : Registered c.wm 1 := hc.all 1 le_rfl (by decide)
  obtain ⟨r, s', T', hr, hpos, hsame, hT'⟩ := greeting_ok hT (by norm_num : 33 ≠ 0) (by norm_num)
    (by rwa [hstay, hserver])
  rw [hstay] at hsame
  have hnew : 33 ∉ c.live := fun hl => absurd (hc.live 33 hl) (by decide)
  refine ⟨_, (hrun.tail (.start (by norm_num) (by norm_num) hnew)).tail (.write (Set.mem_insert _ _) trivial hr),
    .inr ⟨rfl, hpos⟩, hsame.server.trans hserver, fun hans => ?_⟩
  have hsrv : s'.serverPid = 1 := hsame.server.trans hserver
  have hwf : WellFormed answer33 := by
    constructor <;> decide
  have hdst : (WmSendHdr.ofBytes answer33).dst = 33 := by decide
  obtain ⟨r1, s1, hr1, hpos1, -⟩ := hans answer33 hwf hdst
  simp only [hsrv] at hr1
  obtain ⟨r2, s2, hr2, -, hcase⟩ := devWmWrite_ok hT' one_ne_zero (by norm_num) hwf
  obtain ⟨rfl, rfl⟩ := Prod.mk.inj (hr1.unique hr2)
  rcases hcase with ⟨rfl, -⟩ | ⟨-, -, hsame2, hstep⟩
  · omega
  -- the message would be in the queue of a process without an endpoint
  have hent : s'.enter 1 = s' := by
    rw [enter_of_server (by omega), ensureEp_registered (hsame.registered.2 hone)]
  have hto : (s'.enter 1).destination answer33 = 33 := by
    unfold Wm.destination
    rw [hdst, if_neg (by norm_num)]
  have hnot' : ¬ s'.CanRegister 33 := by
    unfold Wm.CanRegister
    rw [hsame.registered, hsame.registered]
    exact hnot
  have hw := wmStep_ok (enter_ok hT' one_ne_zero) hstep
  rw [hto, hent, ensureEp_full hnot'] at hsame2
  rw [hto] at hw
  have hnil := hw.rest 33 (.inr fun i hi => hnot' (.inl ⟨i, (hsame2.pid i).symm.trans hi⟩))
  simp at hnil

end Saynaa
