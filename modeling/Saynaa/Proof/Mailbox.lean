import Saynaa.Proof.Wm

/-!
# A queue of messages for every process

* `WmIs s T`: the endpoint of each process holds the queue that `T` has for it.
* `enqueueMsg_ok`, `devWmRead_ok`: what the calls do to the queues.
* `devWmWrite_run`: a write makes these steps, and it never names process 0.
* `wm_refines`: the device refines the queues along every run.
-/

namespace Saynaa

open Lib

/-- **The device holds the queues `T`**, of which unregistered processes have empty ones. -/
structure WmIs (s : Wm) (T : ℕ → List Msg) : Prop where
  inj : ∀ i j, (s.eps i).pid ≠ 0 → (s.eps i).pid = (s.eps j).pid → i = j
  queue : ∀ i, QueueIs (s.eps i) (T (s.eps i).pid)
  rest : ∀ pid, (pid = 0 ∨ ∀ i, (s.eps i).pid ≠ pid) → T pid = []

variable {s s' : Wm} {T : ℕ → List Msg} {pid : ℕ} {i : Fin wmEndpoints}

theorem findEp_some (h : s.findEp pid = some i) : (s.eps i).pid = pid := by
  have h1 := List.find?_some h
  simpa using h1

theorem findEp_none : s.findEp pid = none ↔ ∀ i, (s.eps i).pid ≠ pid := by
  unfold Wm.findEp
  rw [List.find?_eq_none]
  simp

theorem queueIs_nil {pid : ℕ} {q : ℕ → UInt8} {r : ℕ} (h : r < wmqBytes) : QueueIs ⟨pid, q, r, r⟩ [] := by
  refine ⟨⟨h, h⟩, fun m hm => absurd hm List.not_mem_nil, ?_⟩
  apply List.eq_nil_of_length_eq_zero
  simp [Endpoint.qUsed]

theorem initDevWm_ok : WmIs initDevWm fun _ => [] :=
  ⟨fun _ _ h => absurd rfl h, fun _ => queueIs_nil (by decide), fun _ _ => rfl⟩

/-- An endpoint with a new queue. -/
theorem setEp_ok {ep : Endpoint} {ms : List Msg} (h : WmIs s T) (h0 : (s.eps i).pid ≠ 0)
    (hp : ep.pid = (s.eps i).pid) (hq : QueueIs ep ms) :
    WmIs (s.setEp i ep) (Function.update T (s.eps i).pid ms) := by
  have hpid : ∀ j, ((s.setEp i ep).eps j).pid = (s.eps j).pid := by
    intro j
    by_cases hj : j = i
    · subst hj
      simp [Wm.setEp, hp]
    · simp [Wm.setEp, Function.update_of_ne hj]
  refine ⟨fun j k hj hjk => ?_, fun j => ?_, fun pid hpid' => ?_⟩
  · rw [hpid] at hj
    rw [hpid, hpid] at hjk
    exact h.inj j k hj hjk
  · rw [hpid]
    by_cases hj : j = i
    · subst hj
      simpa [Wm.setEp] using hq
    · have hne : (s.eps j).pid ≠ (s.eps i).pid := fun he => hj (h.inj i j h0 he.symm).symm
      simpa [Wm.setEp, Function.update_of_ne hj, Function.update_of_ne hne] using h.queue j
  · simp only [hpid] at hpid'
    have hne : pid ≠ (s.eps i).pid := by
      rcases hpid' with rfl | hall
      · exact h0.symm
      · exact (hall i).symm
    rw [Function.update_of_ne hne]
    exact h.rest pid hpid'

@[simp] theorem serverPid_ensureEp (s : Wm) (pid : ℕ) : (s.ensureEp pid).2.serverPid = s.serverPid := by
  unfold Wm.ensureEp
  cases s.findEp pid with
  | some i => rfl
  | none => cases s.findEp 0 <;> rfl

/-- **Registration** leaves the queues alone. -/
theorem ensureEp_ok (h : WmIs s T) : WmIs (s.ensureEp pid).2 T ∧
    (∀ i, (s.ensureEp pid).1 = some i → ((s.ensureEp pid).2.eps i).pid = pid) ∧
    ((s.ensureEp pid).1 = none → (s.ensureEp pid).2 = s) := by
  unfold Wm.ensureEp
  cases hf : s.findEp pid with
  -- the process is registered
  | some i => exact ⟨h, fun j hj => Option.some.inj hj ▸ findEp_some hf, fun hn => nomatch hn⟩
  | none =>
    cases hz : s.findEp 0 with
    -- no endpoint is free
    | none => exact ⟨h, by simp, fun _ => rfl⟩
    -- the first free endpoint becomes that of the process
    | some i =>
      simp only
      have hi := findEp_some hz
      have hnew := findEp_none.1 hf
      refine ⟨⟨fun j k hj hjk => ?_, fun j => ?_, fun p hp => ?_⟩, fun j hj => ?_, fun hn => nomatch hn⟩
      · by_cases hji : j = i <;> by_cases hki : k = i
        · rw [hji, hki]
        · subst hji
          simp [Wm.setEp, Function.update_of_ne hki] at hjk
          exact absurd hjk.symm (hnew k)
        · subst hki
          simp [Wm.setEp, Function.update_of_ne hji] at hjk
          exact absurd hjk (hnew j)
        · simp [Wm.setEp, Function.update_of_ne hji, Function.update_of_ne hki] at hj hjk
          exact h.inj j k hj hjk
      · by_cases hji : j = i
        · subst hji
          simp only [Wm.setEp, Function.update_self]
          rw [h.rest pid (.inr hnew)]
          exact queueIs_nil (by decide)
        · simpa [Wm.setEp, Function.update_of_ne hji] using h.queue j
      · refine h.rest p ?_
        rcases hp with hp | hp
        · exact .inl hp
        · by_cases hp0 : p = 0
          · exact .inl hp0
          · refine .inr fun j => ?_
            by_cases hji : j = i
            · subst hji
              rw [hi]
              exact Ne.symm hp0
            · simpa [Wm.setEp, Function.update_of_ne hji] using hp j
      · rw [← Option.some.inj hj]
        simp [Wm.setEp]

/-- The endpoints belong to the same processes. -/
structure SameEps (s s' : Wm) : Prop where
  pid : ∀ i, (s'.eps i).pid = (s.eps i).pid
  server : s'.serverPid = s.serverPid

theorem setEp_same {ep : Endpoint} (hp : ep.pid = (s.eps i).pid) : SameEps s (s.setEp i ep) := by
  refine ⟨fun j => ?_, rfl⟩
  by_cases hj : j = i
  · subst hj
    simp [Wm.setEp, hp]
  · simp [Wm.setEp, Function.update_of_ne hj]

/-- **`enqueue_msg`** drops the oldest messages that are in the way and appends the new one, or
changes no queue. -/
theorem enqueueMsg_ok (h : WmIs s T) {dst src type : ℕ} (hd : dst ≠ 0) (hs : src < 2 ^ 32)
    (ht : type < 2 ^ 32) (payload : List UInt8) :
    ∃ res s', Returns (fun fuel => enqueueMsg fuel s dst src type payload) (res, false, s') ∧
      (res = .done ∧ payload.length ≤ wmMaxPayload ∧ WmIs s' (Function.update T dst
          (makeRoom (hdrSize + payload.length) (T dst) ++ [⟨src, type, payload⟩])) ∨
        (res = .tooLong ∧ wmMaxPayload < payload.length ∨
          res = .noEndpoint ∧ s.findEp dst = none ∧ s.findEp 0 = none) ∧ s' = s) ∧
      (payload.length ≤ wmMaxPayload → SameEps (s.ensureEp dst).2 s') := by
  by_cases hlen : payload.length > wmMaxPayload
  · refine ⟨.tooLong, s, ⟨0, fun fuel _ => ?_⟩, .inr ⟨.inl ⟨rfl, hlen⟩, rfl⟩, fun h => absurd h (not_le.2 hlen)⟩
    unfold enqueueMsg
    simp only
    rw [if_pos hlen]
  obtain ⟨h1, h2, h3⟩ := ensureEp_ok h
  rcases hens : s.ensureEp dst with ⟨oi, s1⟩
  rw [hens] at h1 h2 h3
  simp only at h1 h2 h3
  cases oi with
  | none =>
    refine ⟨.noEndpoint, s, ⟨0, fun fuel _ => ?_⟩, .inr ⟨.inr ⟨rfl, ?_⟩, rfl⟩, fun _ => ?_⟩
    · unfold enqueueMsg
      simp only
      rw [if_neg hlen, hens, h3 rfl]
    · unfold Wm.ensureEp at hens
      cases hf : s.findEp dst with
      | some i => simp [hf] at hens
      | none =>
        cases hz : s.findEp 0 with
        | some i => simp [hf, hz] at hens
        | none => exact ⟨rfl, rfl⟩
    · rw [h3 rfl]
      exact ⟨fun _ => rfl, rfl⟩
  | some i =>
    have hp := h2 i rfl
    have hq := h1.queue i
    rw [hp] at hq
    set m : Msg := ⟨src, type, payload⟩ with hm
    have hmok : m.OK := ⟨hs, ht, not_lt.1 hlen⟩
    set total := hdrSize + payload.length with htotal
    -- room is made, or was there
    obtain ⟨ep, N, hroom, hq', hp', hfree⟩ : ∃ ep N, (∀ fuel, N < fuel →
        (if (s1.eps i).qFree < total then (s1.eps i).dropLoop total fuel else some (false, s1.eps i)) =
          some (false, ep)) ∧ QueueIs ep (makeRoom total (T dst)) ∧ ep.pid = (s1.eps i).pid ∧ total ≤ ep.qFree := by
      obtain ⟨ep, h4, h5, h6, h7⟩ := dropLoop_ok (by omega : total ≤ hdrSize + wmMaxPayload) (T dst) hq
      by_cases hfit : (s1.eps i).qFree < total
      · exact ⟨ep, _, fun fuel hf => by rw [if_pos hfit, h4 fuel hf], h5, h6, h7⟩
      · have h8 := h4 ((T dst).length + 1) (by omega)
        unfold Endpoint.dropLoop at h8
        rw [if_neg fun h => hfit h.1] at h8
        have heq : s1.eps i = ep := by
          injection h8 with h8
          injection h8
        exact ⟨s1.eps i, 0, fun fuel _ => by rw [if_neg hfit], heq ▸ h5, rfl, not_lt.1 hfit⟩
    obtain ⟨hq'', hp''⟩ := hq'.append hmok hfree
    set ep' := if m.payload.length ≠ 0 then (ep.qWrite m.hdr.toBytes).qWrite m.payload
      else ep.qWrite m.hdr.toBytes with hep'
    refine ⟨.done, s1.setEp i ep', ⟨N, fun fuel hf => ?_⟩, .inl ⟨rfl, not_lt.1 hlen, ?_⟩,
      fun _ => setEp_same (hp''.trans hp')⟩
    · unfold enqueueMsg
      simp only
      rw [if_neg hlen, hens]
      simp only [← htotal]
      rw [hroom fuel hf]
      simp only [Option.bind_eq_bind, Option.bind_some]
      rw [if_neg (not_lt.2 hfree)]
      rfl
    · have h9 := setEp_ok h1 (i := i) (by rw [hp]; exact hd) (hp''.trans hp') hq''
      rwa [hp] at h9

/-- **`dev_wm_read`** returns the oldest message, or changes nothing; the latter only where there
is no message or the buffer is too small for it. -/
theorem devWmRead_ok (h : WmIs s T) (h0 : pid ≠ 0) (buffer : Option ℕ) {ret : ℤ} {bytes : List UInt8}
    (hr : devWmRead s (some pid) buffer = (ret, bytes, s')) :
    SameEps s s' ∧
    ((∃ m ms, T pid = m :: ms ∧ ret = m.bytes.length ∧ bytes = m.bytes ∧ WmIs s' (Function.update T pid ms)) ∨
      ret ≤ 0 ∧ bytes = [] ∧ s' = s ∧ ∀ size m ms, buffer = some size → T pid = m :: ms → size < m.bytes.length) := by
  have hstay : ∀ {x : ℤ}, x ≤ 0 → (x, ([] : List UInt8), s) = (ret, bytes, s') →
      (∀ size m ms, buffer = some size → T pid = m :: ms → size < m.bytes.length) →
      SameEps s s' ∧ ((∃ m ms, T pid = m :: ms ∧ ret = m.bytes.length ∧ bytes = m.bytes ∧
        WmIs s' (Function.update T pid ms)) ∨ ret ≤ 0 ∧ bytes = [] ∧ s' = s ∧
          ∀ size m ms, buffer = some size → T pid = m :: ms → size < m.bytes.length) := by
    intro x hx he hsmall
    injection he with he1 he
    injection he with he2 he3
    subst he3
    exact ⟨⟨fun _ => rfl, rfl⟩, .inr ⟨he1 ▸ hx, he2.symm, rfl, hsmall⟩⟩
  unfold devWmRead at hr
  cases buffer with
  -- no buffer
  | none => exact hstay (by norm_num) hr nofun
  | some size =>
    simp only at hr
    by_cases hsz : size < hdrSize
    · -- no room for a header
      rw [if_pos hsz] at hr
      refine hstay (by norm_num) hr fun size' m ms hs _ => ?_
      rw [← Option.some.inj hs, length_bytes]
      omega
    rw [if_neg hsz] at hr
    cases hf : s.findEp pid with
    -- the process is not registered
    | none =>
      rw [hf] at hr
      refine hstay le_rfl hr fun size' m ms _ hT => ?_
      rw [h.rest pid (.inr (findEp_none.1 hf))] at hT
      exact nomatch hT
    | some i =>
      rw [hf] at hr
      simp only at hr
      have hp := findEp_some hf
      have hq := h.queue i
      rw [hp] at hq
      cases hT : T pid with
      -- nothing is queued
      | nil =>
        rw [hT] at hq
        have hused : (s.eps i).qUsed = 0 := hq.used
        rw [if_pos hused] at hr
        rw [← hT]
        refine hstay le_rfl hr fun size' m ms _ hT' => ?_
        rw [hT] at hT'
        exact nomatch hT'
      | cons m ms =>
        rw [hT] at hq
        have hm := hq.msgs m List.mem_cons_self
        have hused := hq.used
        have h12 : hdrSize = 12 := rfl
        rw [msgBytes_cons, List.length_append, length_bytes] at hused
        rw [if_neg (by omega), hq.peek] at hr
        simp only [hm.ofBytes] at hr
        rcases h1 : (s.eps i).qRead hdrSize with ⟨b, ep1⟩
        rcases h2 : ep1.qRead m.payload.length with ⟨p, ep2⟩
        obtain ⟨hb, hp1, hpid1, hpid2, hq2, hq1⟩ := hq.read h1 h2
        have hlen : m.hdr.len = m.payload.length := rfl
        have hmax := hm.len
        have hmax' : wmMaxPayload = 256 := rfl
        have htotal : add32 hdrSize m.payload.length = hdrSize + m.payload.length :=
          add32_of_lt (by omega)
        rw [h1] at hr
        simp only [hb, hm.ofBytes, hlen, h2, htotal] at hr
        rw [← hT]
        by_cases hbig : m.payload.length > wmMaxPayload ∨ hdrSize + m.payload.length > size
        · -- the message does not fit, and stays
          rw [if_pos hbig] at hr
          refine hstay (by norm_num) hr fun size' m' ms' hs hT' => ?_
          rw [hT] at hT'
          obtain ⟨rfl, -⟩ := List.cons.inj hT'
          rw [← Option.some.inj hs, length_bytes]
          omega
        rw [if_neg hbig] at hr
        have h0' : (s.eps i).pid ≠ 0 := hp ▸ h0
        split_ifs at hr with hne
        · injection hr with hr1 hr
          injection hr with hr2 hr3
          have hset := setEp_ok h h0' hpid2 hq2
          rw [hp] at hset
          refine ⟨hr3 ▸ setEp_same hpid2, .inl ⟨m, ms, hT, ?_, ?_, hr3 ▸ hset⟩⟩
          · rw [← hr1, length_bytes]
          · rw [← hr2, hp1]
            rfl
        · injection hr with hr1 hr
          injection hr with hr2 hr3
          rw [not_not] at hne
          have hset := setEp_ok h h0' hpid1 (hq1 hne)
          rw [hp] at hset
          refine ⟨hr3 ▸ setEp_same hpid1, .inl ⟨m, ms, hT, ?_, ?_, hr3 ▸ hset⟩⟩
          · rw [← hr1, length_bytes]
          · rw [← hr2]
            unfold Msg.bytes
            rw [List.length_eq_zero_iff.1 hne, List.append_nil]

/-! ### Runs -/

/-- One call on the device and what it means for the queues `T`, given what it returned.
`register` is what `dev_wm_write` does before it sends. -/
inductive WmStep : Wm × (ℕ → List Msg) → Wm × (ℕ → List Msg) → Prop
  | enqueue {s s' : Wm} {T : ℕ → List Msg} {dst src type : ℕ} {payload : List UInt8} {res : Enqueued}
      {corrupt : Bool} (hd : dst ≠ 0) (hs : src < 2 ^ 32) (ht : type < 2 ^ 32)
      (hr : Returns (fun fuel => enqueueMsg fuel s dst src type payload) (res, corrupt, s')) :
      WmStep (s, T) (s', if res = .done then Function.update T dst
        (makeRoom (hdrSize + payload.length) (T dst) ++ [⟨src, type, payload⟩]) else T)
  | read {s s' : Wm} {T : ℕ → List Msg} {pid : ℕ} {buffer : Option ℕ} {ret : ℤ} {bytes : List UInt8}
      (hp : pid ≠ 0) (hr : devWmRead s (some pid) buffer = (ret, bytes, s')) :
      WmStep (s, T) (s', if 0 < ret then Function.update T pid (T pid).tail else T)
  | register {s : Wm} {T : ℕ → List Msg} {pid : ℕ} (server : ℕ) (hp : pid ≠ 0) :
      WmStep (s, T) ((({ s with serverPid := server } : Wm).ensureEp pid).2, T)

theorem wmStep_ok {x y : Wm × (ℕ → List Msg)} (h : WmIs x.1 x.2) (hs : WmStep x y) : WmIs y.1 y.2 := by
  cases hs with
  | @enqueue s s' T dst src type payload res corrupt hd hs ht hr =>
    obtain ⟨res1, s1, hr1, hcase, -⟩ := enqueueMsg_ok h hd hs ht payload
    obtain ⟨rfl, -, rfl⟩ : res = res1 ∧ corrupt = false ∧ s' = s1 := by
      simpa using hr.unique hr1
    rcases hcase with ⟨rfl, -, hw⟩ | ⟨hno, rfl⟩
    · -- the message is in its queue
      rw [if_pos rfl]
      exact hw
    · -- it is refused
      have hne : res ≠ .done := by
        rcases hno with ⟨rfl, -⟩ | ⟨rfl, -⟩ <;> simp
      rw [if_neg hne]
      exact h
  | @read s s' T pid buffer ret bytes hp hr =>
    rcases (devWmRead_ok h hp buffer hr).2 with ⟨m, ms, hT, hret, -, hw⟩ | ⟨hret, -, rfl, -⟩
    · -- a message is taken
      simp only at hT
      have hpos : 0 < ret := by
        have h12 : hdrSize = 12 := rfl
        rw [hret, length_bytes]
        omega
      rw [if_pos hpos, hT]
      exact hw
    · -- nothing is
      rw [if_neg (not_lt.2 hret)]
      exact h
  | @register s T pid server hp =>
    have hw : WmIs { s with serverPid := server } T := ⟨h.inj, h.queue, h.rest⟩
    exact (ensureEp_ok hw).1

/-! ### Writes -/

/-- The checks that `dev_wm_write` makes on the header. -/
structure WellFormed (b : List UInt8) : Prop where
  size : sendHdrSize ≤ b.length
  len : (WmSendHdr.ofBytes b).len ≤ wmMaxPayload
  total : sendHdrSize + (WmSendHdr.ofBytes b).len ≤ b.length

/-- The first writer becomes the server, and the sender is registered. -/
def Wm.enter (s : Wm) (src : ℕ) : Wm :=
  let s := if s.serverPid = 0 then (({ s with serverPid := src } : Wm).ensureEp src).2 else s
  (s.ensureEp src).2

/-- The process that a write goes to; 0 names the server. -/
def Wm.destination (s : Wm) (b : List UInt8) : ℕ :=
  if (WmSendHdr.ofBytes b).dst = 0 then s.serverPid else (WmSendHdr.ofBytes b).dst

/-- The message that a write by `src` sends. -/
def sentMsg (src : ℕ) (b : List UInt8) : Msg :=
  ⟨src, (WmSendHdr.ofBytes b).type, (b.drop sendHdrSize).take (WmSendHdr.ofBytes b).len⟩

theorem devWmWrite_bad {b : List UInt8} (hb : ¬ WellFormed b) (fuel : ℕ) (s : Wm) (src : ℕ) :
    devWmWrite fuel s (some src) (some b) = some (-1, s) := by
  have hmax : wmMaxPayload = 256 := rfl
  have hhdr : sendHdrSize = 12 := rfl
  unfold devWmWrite
  simp only
  by_cases h1 : b.length < sendHdrSize
  · rw [if_pos h1]
  by_cases h2 : (WmSendHdr.ofBytes b).len > wmMaxPayload
  · rw [if_neg h1, if_pos h2]
  have htotal : add32 sendHdrSize (WmSendHdr.ofBytes b).len = sendHdrSize + (WmSendHdr.ofBytes b).len :=
    add32_of_lt (by omega)
  by_cases h3 : b.length < sendHdrSize + (WmSendHdr.ofBytes b).len
  · rw [if_neg h1, if_neg h2, htotal, if_pos h3]
  · exact absurd ⟨not_lt.1 h1, not_lt.1 h2, not_lt.1 h3⟩ hb

theorem devWmWrite_good {b : List UInt8} (hb : WellFormed b) (fuel : ℕ) (s : Wm) (src : ℕ) :
    devWmWrite fuel s (some src) (some b) =
      if src ≠ (s.enter src).serverPid ∧ (s.enter src).destination b ≠ (s.enter src).serverPid then
        some (-1, s.enter src)
      else do
        let (sent, _, s') ← enqueueMsg fuel (s.enter src) ((s.enter src).destination b) src (sentMsg src b).type
          (sentMsg src b).payload
        return (if sent = .done then ((sendHdrSize + (WmSendHdr.ofBytes b).len : ℕ) : ℤ) else -1, s') := by
  have hmax : wmMaxPayload = 256 := rfl
  have hhdr : sendHdrSize = 12 := rfl
  obtain ⟨h1, h2, h3⟩ := hb
  have htotal : add32 sendHdrSize (WmSendHdr.ofBytes b).len = sendHdrSize + (WmSendHdr.ofBytes b).len :=
    add32_of_lt (by omega)
  unfold devWmWrite
  simp only
  rw [if_neg (not_lt.2 h1), if_neg (not_lt.2 h2), htotal, if_neg (not_lt.2 h3)]
  rfl

theorem serverPid_enter (s : Wm) (src : ℕ) :
    (s.enter src).serverPid = if s.serverPid = 0 then src else s.serverPid := by
  unfold Wm.enter
  simp only [serverPid_ensureEp]
  split_ifs
  · rw [serverPid_ensureEp]
  · rfl

/-- Registering the sender leaves the queues alone. -/
theorem enter_run {src : ℕ} (h0 : src ≠ 0) : Relation.ReflTransGen WmStep (s, T) (s.enter src, T) := by
  have h1 : Relation.ReflTransGen WmStep (s, T)
      (if s.serverPid = 0 then (({ s with serverPid := src } : Wm).ensureEp src).2 else s, T) := by
    split_ifs
    · exact .single (.register src h0)
    · exact .refl
  exact h1.tail (.register _ h0)

theorem enter_ok (h : WmIs s T) {src : ℕ} (h0 : src ≠ 0) : WmIs (s.enter src) T :=
  run_inv (I := fun x => WmIs x.1 x.2) (fun _ _ hx hs => wmStep_ok hx hs) h (enter_run h0)

/-- A write never names process 0. -/
theorem destination_ne (s : Wm) {src : ℕ} (h0 : src ≠ 0) (b : List UInt8) : (s.enter src).destination b ≠ 0 := by
  unfold Wm.destination
  rw [serverPid_enter]
  split_ifs <;> assumption

theorem sentMsg_type (src : ℕ) (b : List UInt8) : (sentMsg src b).type < 2 ^ 32 := by
  refine lt_of_lt_of_le (ofLe_lt _) ?_
  calc 256 ^ ((b.drop 4).take 4).length ≤ 256 ^ 4 := Nat.pow_le_pow_right (by norm_num) (by simp)
    _ = 2 ^ 32 := by norm_num

/-- **`dev_wm_write`** with a good header: it is refused to send from client to client, or for
want of an endpoint, or sends the message. -/
theorem devWmWrite_ok (h : WmIs s T) {src : ℕ} (h0 : src ≠ 0) (hsrc : src < 2 ^ 32) {b : List UInt8}
    (hb : WellFormed b) : ∃ r s', Returns (fun fuel => devWmWrite fuel s (some src) (some b)) (r, s') ∧
      s'.serverPid = (s.enter src).serverPid ∧
      (r = -1 ∧ s' = s.enter src ∧ (src ≠ s'.serverPid ∧ (s.enter src).destination b ≠ s'.serverPid ∨
          (s.enter src).findEp ((s.enter src).destination b) = none ∧ (s.enter src).findEp 0 = none) ∨
        0 < r ∧ (src = s'.serverPid ∨ (s.enter src).destination b = s'.serverPid) ∧
          SameEps ((s.enter src).ensureEp ((s.enter src).destination b)).2 s' ∧
          WmStep (s.enter src, T) (s', Function.update T ((s.enter src).destination b)
            (makeRoom (hdrSize + (sentMsg src b).payload.length) (T ((s.enter src).destination b)) ++
              [sentMsg src b]))) := by
  by_cases hpair : src ≠ (s.enter src).serverPid ∧ (s.enter src).destination b ≠ (s.enter src).serverPid
  · -- a client writes to a client
    refine ⟨-1, s.enter src, ⟨0, fun fuel _ => ?_⟩, rfl, .inl ⟨rfl, rfl, .inl hpair⟩⟩
    show devWmWrite fuel s (some src) (some b) = _
    rw [devWmWrite_good hb, if_pos hpair]
  · obtain ⟨res, s', ⟨N, hN⟩, hcase, hsame⟩ := enqueueMsg_ok (enter_ok h h0) (destination_ne s h0 b) hsrc
      (sentMsg_type src b) (sentMsg src b).payload
    have hlen : (sentMsg src b).payload.length ≤ wmMaxPayload := by
      have h1 := hb.len
      unfold sentMsg
      simp only [List.length_take]
      omega
    have hsame := hsame hlen
    have hserver : s'.serverPid = (s.enter src).serverPid := hsame.server.trans (serverPid_ensureEp _ _)
    refine ⟨if res = .done then ((sendHdrSize + (WmSendHdr.ofBytes b).len : ℕ) : ℤ) else -1, s',
      ⟨N, fun fuel hf => ?_⟩, hserver, ?_⟩
    · have hsent : enqueueMsg fuel (s.enter src) ((s.enter src).destination b) src (sentMsg src b).type
          (sentMsg src b).payload = some (res, false, s') := hN fuel hf
      show devWmWrite fuel s (some src) (some b) = _
      rw [devWmWrite_good hb, if_neg hpair, hsent]
      rfl
    rcases hcase with ⟨rfl, -, -⟩ | ⟨hno, rfl⟩
    · -- the message is in the queue of its receiver
      refine .inr ⟨?_, ?_, hsame, ?_⟩
      · rw [if_pos rfl]
        have hhdr : sendHdrSize = 12 := rfl
        omega
      · rw [hserver]
        tauto
      · have hstep := WmStep.enqueue (T := T) (destination_ne s h0 b) hsrc (sentMsg_type src b) ⟨N, hN⟩
        rwa [if_pos rfl] at hstep
    · -- it is too long, or its receiver cannot get an endpoint
      have hne : res ≠ .done := by
        rcases hno with ⟨rfl, -⟩ | ⟨rfl, -⟩ <;> simp
      rw [if_neg hne]
      refine .inl ⟨rfl, rfl, .inr ?_⟩
      rcases hno with ⟨-, hlong⟩ | ⟨-, hfull⟩
      · exact absurd hlen (not_le.2 hlong)
      · exact hfull

/-- **A write is such steps**: it registers the sender, and it names a process other than 0. -/
theorem devWmWrite_run (h : WmIs s T) {src : ℕ} (h0 : src ≠ 0) (hsrc : src < 2 ^ 32)
    (buffer : Option (List UInt8)) : ∃ r s' T', Returns (fun fuel => devWmWrite fuel s (some src) buffer) (r, s') ∧
      Relation.ReflTransGen WmStep (s, T) (s', T') := by
  cases buffer with
  | none => exact ⟨-1, s, T, ⟨0, fun _ _ => rfl⟩, .refl⟩
  | some b =>
    by_cases hb : WellFormed b
    · obtain ⟨r, s', hr, -, ⟨-, rfl, -⟩ | ⟨-, -, -, hstep⟩⟩ := devWmWrite_ok h h0 hsrc hb
      · exact ⟨r, _, T, hr, enter_run h0⟩
      · exact ⟨r, s', _, hr, (enter_run h0).tail hstep⟩
    · exact ⟨-1, s, T, ⟨0, fun fuel _ => devWmWrite_bad hb fuel s src⟩, .refl⟩

/-- **The device refines a queue of messages for each process.** In every run the rings hold
whole messages; sending drops whole oldest messages, as few as needed, and appends; the reset of
a corrupt queue and the failure after dropping do not happen; reading returns the oldest. -/
theorem wm_refines (hrun : Relation.ReflTransGen WmStep (initDevWm, fun _ => []) (s, T)) :
    WmIs s T ∧
    (∀ dst src type payload, dst ≠ 0 → src < 2 ^ 32 → type < 2 ^ 32 →
      ∃ res s', Returns (fun fuel => enqueueMsg fuel s dst src type payload) (res, false, s') ∧
        res ≠ .noSpace ∧ (res ≠ .done → s' = s ∧
          (wmMaxPayload < payload.length ∨ s.findEp dst = none ∧ s.findEp 0 = none)) ∧
        (res = .done → ∃ k,
          WmIs s' (Function.update T dst ((T dst).drop k ++ [⟨src, type, payload⟩])) ∧
          ∀ j < k, wmqBytes - 1 < (msgBytes ((T dst).drop j)).length + (hdrSize + payload.length))) ∧
    ∀ pid buffer ret bytes s', pid ≠ 0 → devWmRead s (some pid) buffer = (ret, bytes, s') →
      (0 < ret → ∃ m ms, T pid = m :: ms ∧ ret = bytes.length ∧ WmRecvHdr.ofBytes (bytes.take hdrSize) = m.hdr ∧
        bytes.drop hdrSize = m.payload ∧ WmIs s' (Function.update T pid ms)) ∧
      (ret ≤ 0 → s' = s) := by
  have hw : WmIs s T := run_inv (I := fun x => WmIs x.1 x.2) (fun _ _ hx hs => wmStep_ok hx hs) initDevWm_ok hrun
  refine ⟨hw, fun dst src type payload hd hs ht => ?_, fun pid buffer ret bytes s' hp hr =>
    ⟨fun hret => ?_, fun hret => ?_⟩⟩
  · -- a write
    obtain ⟨res, s', hr, hcase, -⟩ := enqueueMsg_ok hw hd hs ht payload
    refine ⟨res, s', hr, ?_⟩
    rcases hcase with ⟨rfl, hlen, hw'⟩ | ⟨hno, rfl⟩
    · have htotal : hdrSize + payload.length ≤ wmqBytes - 1 := by
        have hcap : hdrSize + wmMaxPayload ≤ wmqBytes - 1 := by decide
        omega
      obtain ⟨k, hk, -, hmin⟩ := makeRoom_spec htotal (T dst)
      refine ⟨by simp, fun hne => absurd rfl hne, fun _ => ⟨k, ?_, hmin⟩⟩
      rwa [← hk]
    · rcases hno with ⟨rfl, hlen⟩ | ⟨rfl, hfull⟩
      · exact ⟨by simp, fun _ => ⟨rfl, .inl hlen⟩, by simp⟩
      · exact ⟨by simp, fun _ => ⟨rfl, .inr hfull⟩, by simp⟩
  · -- a read
    rcases (devWmRead_ok hw hp buffer hr).2 with ⟨m, ms, hT, hret', hb, hw'⟩ | ⟨hle, -⟩
    · have hm : m.OK := by
        by_cases hreg : ∃ i, (s.eps i).pid = pid
        · obtain ⟨i, hi⟩ := hreg
          have hq := hw.queue i
          rw [hi, hT] at hq
          exact hq.msgs m List.mem_cons_self
        · have hnil := hw.rest pid (.inr (not_exists.1 hreg))
          rw [hT] at hnil
          cases hnil
      refine ⟨m, ms, hT, by rw [hret', hb], ?_, ?_, hw'⟩
      · rw [hb, ← List.append_nil m.bytes, take_bytes, hm.ofBytes]
      · rw [hb]
        exact List.drop_left' (length_toBytes _)
    · omega
  · rcases (devWmRead_ok hw hp buffer hr).2 with ⟨m, ms, -, hret', -⟩ | ⟨-, -, hs, -⟩
    · have h12 : hdrSize = 12 := rfl
      rw [hret', length_bytes] at hret
      omega
    · exact hs

/-- A message of a byte is sent to a process that has an endpoint or finds a free one. -/
theorem enqueue_step (h : WmIs s T) {dst src type : ℕ} (hd : dst ≠ 0) (hs : src < 2 ^ 32) (ht : type < 2 ^ 32)
    (b : UInt8) {i : Fin wmEndpoints} (hi : (s.eps i).pid = dst ∨ (s.eps i).pid = 0) : ∃ s',
    WmStep (s, T) (s', Function.update T dst (makeRoom (hdrSize + 1) (T dst) ++ [⟨src, type, [b]⟩])) ∧
      SameEps (s.ensureEp dst).2 s' := by
  obtain ⟨res, s', hr, hcase, hsame⟩ := enqueueMsg_ok h hd hs ht [b]
  have hdone : res = .done := by
    rcases hcase with ⟨hdone, -⟩ | ⟨⟨-, hlen⟩ | ⟨-, hnone, hfull⟩, -⟩
    · exact hdone
    · exact absurd hlen (not_lt.2 (Nat.le_of_ble_eq_true rfl))
    · exact absurd hi (not_or.2 ⟨findEp_none.1 hnone i, findEp_none.1 hfull i⟩)
  have hstep := WmStep.enqueue (T := T) hd hs ht hr
  rw [if_pos hdone] at hstep
  exact ⟨s', hstep, hsame (Nat.le_of_ble_eq_true rfl)⟩

/-- Processes 2 and 3 send a byte to process 1, which reads the first. -/
theorem wm_refines_two : ∃ s T, Relation.ReflTransGen WmStep (initDevWm, fun _ => []) (s, T) ∧
    T 1 = [⟨3, 4, [8]⟩] ∧ WmIs s T := by
  let i : Fin wmEndpoints := ⟨0, by decide⟩
  obtain ⟨s₁, h₁, hsame⟩ := enqueue_step initDevWm_ok (by norm_num : 1 ≠ 0) (by norm_num : 2 < 2 ^ 32)
    (by norm_num : 3 < 2 ^ 32) 7 (i := i) (.inr rfl)
  have hpid : (s₁.eps i).pid = 1 := (hsame.pid i).trans (by decide +kernel)
  have hw₁ := wmStep_ok initDevWm_ok h₁
  obtain ⟨s₂, h₂, -⟩ := enqueue_step hw₁ (by norm_num : 1 ≠ 0) (by norm_num : 3 < 2 ^ 32)
    (by norm_num : 4 < 2 ^ 32) 8 (.inl hpid)
  have hw₂ := wmStep_ok hw₁ h₂
  rcases hr : devWmRead s₂ (some 1) (some 268) with ⟨ret, bytes, s₃⟩
  have hrun := ((Relation.ReflTransGen.single h₁).tail h₂).tail (.read (by norm_num) hr)
  refine ⟨_, _, hrun, ?_, (wm_refines hrun).1⟩
  obtain ⟨-, ⟨m, ms, -, hret, -⟩ | ⟨-, -, -, hsmall⟩⟩ := devWmRead_ok hw₂ (by norm_num) (some 268) hr
  · have hpos : 0 < ret := by
      rw [hret, length_bytes]
      have h12 : hdrSize = 12 := rfl
      omega
    rw [if_pos hpos]
    rfl
  · -- a message of 13 bytes is not longer than the buffer
    exact absurd (hsmall 268 ⟨2, 3, [7]⟩ [⟨3, 4, [8]⟩] rfl rfl) (by decide)

end Saynaa
