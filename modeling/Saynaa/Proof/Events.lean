import Saynaa.Proof.Mailbox
import Saynaa.User.Events

/-!
# Which events a client loses

All windows of a process share one queue, and whoever reads it takes the oldest message.

* `devWmRead_queue`, `makeRoom_client`: the device gives the client the queue of its process.
* `recv_cases`: what one `wm_recv` does.
* `EventsKept`: everything delivered for an open window was returned or is queued.
* `KeepsEvents`: the steps that keep it so.
* `events_returned`: the runs that lose nothing are those of such steps.
-/

namespace Saynaa

open Lib WinMan GuiClient

variable {s t : GuiClient} {m : Msg} {ms q : List Msg} {id : ℕ} {win : Window} {ev : IpcEvent}

/-! ### The queue of the device -/

section Device

variable {d : Wm} {T : ℕ → List Msg} {pid : ℕ}

theorem WmIs.msgs (h : WmIs d T) (pid : ℕ) : ∀ m ∈ T pid, m.OK := by
  intro m hm
  have hep : ∃ i, (d.eps i).pid = pid := by
    by_contra hno
    rw [h.rest pid (.inr fun i he => hno ⟨i, he⟩)] at hm
    cases hm
  obtain ⟨i, rfl⟩ := hep
  exact (h.queue i).msgs m hm

theorem devWmRead_empty (h : WmIs d T) (hT : T pid = []) :
    devWmRead d (some pid) (some (hdrSize + wmMaxPayload)) = (0, [], d) := by
  unfold devWmRead
  simp only
  rw [if_neg (by omega)]
  cases hf : d.findEp pid with
  | none => rfl
  | some i =>
    have hq := h.queue i
    rw [findEp_some hf, hT] at hq
    have hused : (d.eps i).qUsed = 0 := hq.used
    simp only
    rw [if_pos hused]

/-- **Reading the device** is reading the queue. -/
theorem devWmRead_queue (h : WmIs d T) (h0 : pid ≠ 0) : ∃ d',
    devWmRead d (some pid) (some (hdrSize + wmMaxPayload)) = ((readQueue (T pid)).1, (readQueue (T pid)).2.1, d') ∧
      WmIs d' (Function.update T pid (readQueue (T pid)).2.2) := by
  cases hT : T pid with
  | nil =>
    refine ⟨d, devWmRead_empty h hT, ?_⟩
    have hsame : Function.update T pid [] = T := Function.update_eq_self_iff.2 hT.symm
    exact hsame.symm ▸ h
  | cons m ms =>
    rcases hr : devWmRead d (some pid) (some (hdrSize + wmMaxPayload)) with ⟨ret, bytes, d'⟩
    rcases (devWmRead_ok h h0 _ hr).2 with ⟨m', ms', hT', rfl, rfl, hw⟩ | ⟨-, -, -, hsmall⟩
    · obtain ⟨rfl, rfl⟩ := List.cons.inj (hT.symm.trans hT')
      exact ⟨d', rfl, hw⟩
    · have hlt := hsmall _ m ms rfl hT
      have hlen := (h.msgs pid m (hT ▸ List.mem_cons_self)).len
      rw [length_bytes] at hlt
      omega

/-- **A message that is sent** drops the oldest ones that are in the way, and comes behind the others. -/
theorem makeRoom_client {total : ℕ} (ht : total ≤ wmqBytes - 1) (s : GuiClient) (m : Msg) (hm : m.OK) :
    ∃ k t, (List.replicate k ClientAct.evict ++ [ClientAct.deliver m hm]).foldlM GuiClient.step s = some t ∧
      t.queue = makeRoom total s.queue ++ [m] := by
  obtain ⟨k, hk, -, -⟩ := makeRoom_spec ht s.queue
  have hevict : ∀ k (s : GuiClient), ∃ j t, (List.replicate j ClientAct.evict).foldlM GuiClient.step s = some t ∧
      t.queue = s.queue.drop k := by
    intro k
    induction k with
    | zero => exact fun s => ⟨0, s, rfl, rfl⟩
    | succ k ih =>
      intro s
      cases hq : s.queue with
      | nil => exact ⟨0, s, rfl, hq⟩
      | cons m ms =>
        obtain ⟨j, t, ht, hdrop⟩ := ih { s with queue := ms }
        refine ⟨j + 1, t, ?_, hdrop⟩
        have hstep : s.step .evict = some { s with queue := ms } := by
          unfold GuiClient.step
          rw [hq]
        rw [List.replicate_succ, List.foldlM_cons, hstep]
        exact ht
  obtain ⟨j, t, hrun, hdrop⟩ := hevict k s
  obtain ⟨u, hu, hqueue⟩ : ∃ u, t.step (.deliver m hm) = some u ∧ u.queue = t.queue ++ [m] := ⟨_, rfl, rfl⟩
  refine ⟨j, u, ?_, ?_⟩
  · rw [List.foldlM_append, hrun]
    exact hu
  · rw [hqueue, hk, hdrop]

end Device

/-! ### One call of `wm_recv` -/

theorem wmRecv_bytes (hm : m.OK) (want : ℕ) :
    wmRecv m.bytes.length m.bytes want = if want < m.payload.length then (-1, none)
      else ((m.bytes.length : ℤ), some m) := by
  have h12 : hdrSize = 12 := rfl
  have htake : m.bytes.take hdrSize = m.hdr.toBytes := by simpa using take_bytes m []
  have hdrop : (m.bytes.drop hdrSize).take m.payload.length = m.payload := by
    unfold Msg.bytes
    rw [List.drop_left' (length_toBytes _), List.take_length]
  have hlen : m.hdr.len = m.payload.length := rfl
  have hmax := hm.len
  have hbytes := length_bytes m
  unfold wmRecv
  rw [if_neg (by omega), if_neg (by omega), htake]
  simp only [hm.ofBytes, hlen, hdrop]
  rw [if_neg (by omega)]
  rfl

theorem recvMsg_cons (hm : m.OK) (hq : s.queue = m :: ms) (want : ℕ) :
    s.recvMsg true want = (if want < m.payload.length then (-1, none) else ((m.bytes.length : ℤ), some m), ms) := by
  unfold recvMsg
  rw [if_pos rfl, hq]
  simp only [readQueue]
  rw [wmRecv_bytes hm]

/-- Nothing is read. -/
theorem recvMsg_nothing {opened : Bool} (h : opened = false ∨ s.queue = []) (want : ℕ) :
    (s.recvMsg opened want).1.2 = none ∧ (s.recvMsg opened want).2 = s.queue := by
  unfold recvMsg
  cases opened with
  | false => exact ⟨rfl, rfl⟩
  | true =>
    have hq : s.queue = [] := h.resolve_left (by decide)
    rw [hq]
    exact ⟨rfl, rfl⟩

/-- What the client relies on: the messages are as the device keeps them, and the windows have their ids. -/
structure ClientOK (s : GuiClient) : Prop where
  msgs : ∀ m ∈ s.queue, m.OK
  ids : ∀ id win, s.wins id = some win → win.id = id

/-- What is done with the oldest message. -/
inductive Taken (s : GuiClient) (m : Msg) (ms : List Msg) : GuiClient → Prop
  /-- It is dropped. -/
  | dropped (mode : ClientMode) (hev : ∀ ev, m.event = some ev → s.mode ≠ .polling ev.winId) :
      Taken s m ms { s with queue := ms, mode := mode }
  /-- `get_event` returns it. -/
  | returned {ev : IpcEvent} {win : Window} (hev : m.event = some ev) (hw : s.wins ev.winId = some win)
      (hmode : s.mode = .polling ev.winId) :
      Taken s m ms { s with
        queue := ms, mode := .idle
        wins := Function.update s.wins ev.winId (some (win.track ev))
        returned := Function.update s.returned ev.winId (s.returned ev.winId ++ [win.event ev]) }
  /-- It answers `open_window`. -/
  | answered {width height : ℕ} {rep : IpcCreateReply} (hev : m.event = none) (hmode : ∀ id, s.mode ≠ .polling id) :
      Taken s m ms (({ s with queue := ms } : GuiClient).onReply width height rep)

/-- One pass of the loop of `get_event`. -/
theorem pollStep_cases (hs : ClientOK s) (hw : s.wins id = some win) (hmode : s.mode = .polling id) (opened : Bool) :
    ((opened = false ∨ s.queue = []) ∧ s.pollStep win opened = { s with mode := .idle }) ∨
      opened = true ∧ ∃ m ms, s.queue = m :: ms ∧ Taken s m ms (s.pollStep win opened) := by
  unfold pollStep
  by_cases hread : opened = false ∨ s.queue = []
  · obtain ⟨hnone, hq⟩ := recvMsg_nothing hread ipcEventSize
    rcases hr : s.recvMsg opened ipcEventSize with ⟨⟨r, msg⟩, q⟩
    rw [hr] at hnone hq
    obtain rfl : msg = none := hnone
    obtain rfl : q = s.queue := hq
    exact .inl ⟨hread, rfl⟩
  rw [not_or, Bool.not_eq_false] at hread
  obtain ⟨rfl, hne⟩ := hread
  obtain ⟨m, ms, hq⟩ := List.exists_cons_of_ne_nil hne
  have hm := hs.msgs m (hq ▸ List.mem_cons_self)
  have hid := hs.ids id win hw
  refine .inr ⟨rfl, m, ms, hq, ?_⟩
  rw [recvMsg_cons hm hq]
  cases hev : m.event with
  | none =>
    have hno : ∀ ev, m.event = some ev → s.mode ≠ .polling ev.winId := fun ev he => by
      rw [hev] at he
      cases he
    split_ifs
    · exact .dropped .idle hno
    · simp only [hev]
      exact .dropped s.mode hno
  | some ev =>
    have hlen : m.payload.length = ipcEventSize := by
      unfold Msg.event at hev
      split_ifs at hev with hbad
      rw [not_or, not_not, not_not] at hbad
      exact hbad.2
    rw [if_neg (by omega)]
    simp only [hev]
    split_ifs with hother
    · -- an event of another window is dropped
      refine .dropped s.mode fun ev' he hm' => hother ?_
      rw [hev] at he
      obtain rfl := Option.some.inj he
      rw [hmode] at hm'
      rw [hid]
      exact (ClientMode.polling.inj hm').symm
    · -- an event of this one is returned
      have hself : ev.winId = id := (not_not.1 hother).trans hid
      rw [hid, ← hself]
      exact .returned hev (hself ▸ hw) (hself ▸ hmode)

/-- One pass of the loop of `wm_open_window_ipc`. -/
theorem openStep_cases (hs : ClientOK s) {req width height spins : ℕ}
    (hmode : s.mode = .opening req width height spins)
    (opened : Bool) :
    ((opened = false ∨ s.queue = []) ∧ ∃ mode, s.openStep req width height spins opened = { s with mode := mode }) ∨
      opened = true ∧ ∃ m ms, s.queue = m :: ms ∧ Taken s m ms (s.openStep req width height spins opened) := by
  unfold openStep
  by_cases hread : opened = false ∨ s.queue = []
  · obtain ⟨hnone, hq⟩ := recvMsg_nothing hread createReplySize
    rcases hr : s.recvMsg opened createReplySize with ⟨⟨r, msg⟩, q⟩
    rw [hr] at hnone hq
    obtain rfl : msg = none := hnone
    obtain rfl : q = s.queue := hq
    exact .inl ⟨hread, _, rfl⟩
  rw [not_or, Bool.not_eq_false] at hread
  obtain ⟨rfl, hne⟩ := hread
  obtain ⟨m, ms, hq⟩ := List.exists_cons_of_ne_nil hne
  have hm := hs.msgs m (hq ▸ List.mem_cons_self)
  have hno : ∀ ev, m.event = some ev → s.mode ≠ .polling ev.winId := fun ev _ he => by
    rw [hmode] at he
    cases he
  refine .inr ⟨rfl, m, ms, hq, ?_⟩
  rw [recvMsg_cons hm hq]
  by_cases hbig : createReplySize < m.payload.length
  · rw [if_pos hbig]
    exact .dropped _ hno
  · rw [if_neg hbig]
    cases hrep : m.reply req with
    | none =>
      simp only [Option.bind_some, hrep]
      exact .dropped _ hno
    | some rep =>
      simp only [Option.bind_some, hrep]
      refine .answered ?_ fun id he => by rw [hmode] at he; cases he
      -- a reply is no event
      have htype : m.type = wmMsgCreateReply := by
        unfold Msg.reply at hrep
        simp only at hrep
        split_ifs at hrep with hok
        exact hok.1
      exact if_pos (.inl (by rw [htype]; decide))

/-- **One pass of a loop**: nothing is read, or the oldest message is taken. -/
theorem recv_cases (hs : ClientOK s) {opened : Bool} (ht : s.step (.recv opened) = some t) :
    ((opened = false ∨ s.queue = []) ∧ ∃ mode, t = { s with mode := mode }) ∨
      opened = true ∧ ∃ m ms, s.queue = m :: ms ∧ Taken s m ms t := by
  unfold GuiClient.step at ht
  cases hmode : s.mode with
  | idle =>
    rw [hmode] at ht
    cases ht
  | polling id =>
    rw [hmode] at ht
    obtain ⟨win, hw, rfl⟩ := Option.map_eq_some_iff.1 ht
    exact (pollStep_cases hs hw hmode opened).imp_left fun h => ⟨h.1, _, h.2⟩
  | opening req width height spins =>
    rw [hmode] at ht
    obtain rfl := Option.some.inj ht
    exact openStep_cases hs hmode opened

/-! ### Runs -/

/-- **Nothing is lost**: what was delivered for an open window was returned for it, in the same order, and the rest
is queued. -/
def EventsKept (s : GuiClient) : Prop := ∀ id win, s.wins id = some win →
  s.returned id ++ (eventsFor id s.queue).map win.event = (s.delivered id).map win.event

/-- **The condition**: the event that is taken from the queue is not for an open window, or `get_event` of that window
takes it. -/
def KeepsEvents (s : GuiClient) : ClientAct → Prop
  | .evict => ∀ m ev, s.queue.head? = some m → m.event = some ev → s.wins ev.winId = none
  | .recv true => ∀ m ev, s.queue.head? = some m → m.event = some ev →
      s.wins ev.winId = none ∨ s.mode = .polling ev.winId
  | _ => True

theorem eventsFor_cons (id : ℕ) (m : Msg) (ms : List Msg) : eventsFor id (m :: ms) =
    (match m.event with
      | none => []
      | some ev => if ev.winId = id then [ev] else []) ++ eventsFor id ms := by
  unfold eventsFor
  rw [List.filterMap_cons]
  cases m.event with
  | none => rfl
  | some ev =>
    simp only
    by_cases hid : ev.winId = id
    · rw [List.filter_cons_of_pos (by simpa using hid), if_pos hid]
      rfl
    · rw [List.filter_cons_of_neg (by simpa using hid), if_neg hid]
      rfl

theorem eventsFor_append (id : ℕ) (q q' : List Msg) : eventsFor id (q ++ q') = eventsFor id q ++ eventsFor id q' := by
  unfold eventsFor
  rw [List.filterMap_append, List.filter_append]

/-- The messages that are no event of the window do not matter to it. -/
theorem eventsFor_other (h : ∀ ev, m.event = some ev → ev.winId ≠ id) : eventsFor id (m :: ms) = eventsFor id ms := by
  rw [eventsFor_cons]
  cases hev : m.event with
  | none => rfl
  | some ev =>
    simp only
    rw [if_neg (h ev hev)]
    rfl

theorem eventsFor_self (h : m.event = some ev) : eventsFor ev.winId (m :: ms) = ev :: eventsFor ev.winId ms := by
  rw [eventsFor_cons, h]
  simp

theorem Taken.ok (hs : ClientOK s) (hq : s.queue = m :: ms) (h : Taken s m ms t) : ClientOK t := by
  have hms : ∀ m' ∈ ms, m'.OK := fun m' hm' => hs.msgs m' (hq ▸ List.mem_cons_of_mem _ hm')
  have hwin : ∀ {win : Window} {id : ℕ}, win.id = id → ∀ id' win', Function.update s.wins id (some win) id' =
    some win' → win'.id = id' := by
    intro win id hid id' win' hw
    by_cases he : id' = id
    · rw [he, Function.update_self] at hw
      rw [← Option.some.inj hw, he]
      exact hid
    · rw [Function.update_of_ne he] at hw
      exact hs.ids id' win' hw
  cases h with
  | dropped mode _ => exact ⟨hms, hs.ids⟩
  | @returned ev win _ hw _ =>
    have hid : win.id = ev.winId := hs.ids _ _ hw
    exact ⟨hms, hwin (show (win.track ev).id = ev.winId from hid)⟩
  | @answered width height rep _ _ =>
    unfold onReply
    split_ifs
    · exact ⟨hms, hs.ids⟩
    · exact ⟨hms, hwin rfl⟩

theorem step_evict (ht : s.step .evict = some t) : ∃ m ms, s.queue = m :: ms ∧ t = { s with queue := ms } := by
  simp only [GuiClient.step] at ht
  cases hq : s.queue with
  | nil =>
    rw [hq] at ht
    cases ht
  | cons m ms =>
    rw [hq] at ht
    exact ⟨m, ms, rfl, (Option.some.inj ht).symm⟩

theorem step_poll (ht : s.step (.poll id) = some t) : ∃ mode, t = { s with mode := mode } := by
  simp only [GuiClient.step] at ht
  split at ht
  · exact ⟨_, (Option.some.inj ht).symm⟩
  · cases ht

theorem step_openWindow {width height : ℕ} {sent : Bool} (ht : s.step (.openWindow width height sent) = some t) :
    ∃ reqId mode, t = { s with reqId := reqId, mode := mode } := by
  simp only [GuiClient.step] at ht
  split at ht
  · exact ⟨_, _, (Option.some.inj ht).symm⟩
  · cases ht

theorem step_ok (hs : ClientOK s) (a : ClientAct) (ht : s.step a = some t) : ClientOK t := by
  cases a with
  | deliver m hm =>
    obtain rfl := Option.some.inj ht
    refine ⟨fun m' hm' => ?_, hs.ids⟩
    rcases List.mem_append.1 hm' with hm' | hm'
    · exact hs.msgs m' hm'
    · rwa [List.mem_singleton.1 hm']
  | evict =>
    obtain ⟨m, ms, hq, rfl⟩ := step_evict ht
    exact ⟨fun m' hm' => hs.msgs m' (hq ▸ List.mem_cons_of_mem _ hm'), hs.ids⟩
  | poll id =>
    obtain ⟨mode, rfl⟩ := step_poll ht
    exact ⟨hs.msgs, hs.ids⟩
  | openWindow width height sent =>
    obtain ⟨reqId, mode, rfl⟩ := step_openWindow ht
    exact ⟨hs.msgs, hs.ids⟩
  | recv opened =>
    rcases recv_cases hs ht with ⟨-, mode, rfl⟩ | ⟨-, m, ms, hq, htaken⟩
    · exact ⟨hs.msgs, hs.ids⟩
    · exact htaken.ok hs hq

theorem Taken.kept (hk : EventsKept s) (hq : s.queue = m :: ms)
    (hc : ∀ ev, m.event = some ev → s.wins ev.winId = none ∨ s.mode = .polling ev.winId) (h : Taken s m ms t) :
    EventsKept t := by
  cases h with
  | dropped mode hev =>
    intro id win hw
    have hkept := hk id win hw
    rwa [hq, eventsFor_other fun ev he hid => ?_] at hkept
    rcases hc ev he with hno | hmode
    · rw [hid] at hno
      rw [hno] at hw
      cases hw
    · exact hev ev he hmode
  | @returned ev win hev hw hmode =>
    intro id win' hw'
    by_cases hid : id = ev.winId
    · -- the window that gets the event
      obtain rfl := hid
      have hkept := hk _ win hw
      rw [hq, eventsFor_self hev] at hkept
      have hwin' : win' = win.track ev := by simpa using hw'.symm
      rw [hwin']
      show Function.update s.returned ev.winId _ ev.winId ++ _ = _
      rw [Function.update_self, List.append_assoc]
      exact hkept
    · -- another window
      have hkept := hk id win' (by simpa [Function.update_of_ne hid] using hw')
      rw [hq, eventsFor_other fun ev' he => ?_] at hkept
      · show Function.update s.returned ev.winId _ id ++ _ = _
        rwa [Function.update_of_ne hid]
      · rw [hev] at he
        rw [← Option.some.inj he]
        exact Ne.symm hid
  | @answered width height rep hev _ =>
    unfold onReply
    split_ifs with h0
    · intro id win hw
      have hkept := hk id win hw
      rwa [hq, eventsFor_other fun ev he => by rw [hev] at he; cases he] at hkept
    · intro id win hw
      by_cases hid : id = rep.winId
      · obtain rfl := hid
        show Function.update s.returned rep.winId _ rep.winId ++ _ =
          (Function.update s.delivered rep.winId _ rep.winId).map _
        rw [Function.update_self, Function.update_self]
        rfl
      · have hkept := hk id win (by simpa [Function.update_of_ne hid] using hw)
        rw [hq, eventsFor_other fun ev he => by rw [hev] at he; cases he] at hkept
        show Function.update s.returned rep.winId _ id ++ _ = (Function.update s.delivered rep.winId _ id).map _
        rwa [Function.update_of_ne hid, Function.update_of_ne hid]

/-- An event of an open window that another call takes is lost. -/
theorem lost (hk : EventsKept s) (hq : s.queue = m :: ms) (hev : m.event = some ev) (hw : s.wins ev.winId = some win)
    (mode : ClientMode) : ¬ EventsKept { s with queue := ms, mode := mode } := by
  intro hk'
  have hbefore := congrArg List.length (hk ev.winId win hw)
  have hafter := congrArg List.length (hk' ev.winId win hw)
  rw [hq, eventsFor_self hev] at hbefore
  simp only [List.length_append, List.length_map, List.length_cons] at hbefore hafter
  omega

theorem step_kept (hs : ClientOK s) (hk : EventsKept s) (a : ClientAct) (ht : s.step a = some t)
    (hc : KeepsEvents s a) : EventsKept t := by
  cases a with
  | deliver m hm =>
    obtain rfl := Option.some.inj ht
    intro id win hw
    have hkept := hk id win hw
    have happend := eventsFor_append id s.queue [m]
    rw [eventsFor_cons] at happend
    cases hev : m.event with
    | none =>
      rw [hev] at happend
      simp only
      rw [happend]
      simpa [eventsFor] using hkept
    | some ev =>
      rw [hev] at happend
      simp only at happend ⊢
      rw [happend]
      by_cases hid : ev.winId = id
      · -- an event of this window
        rw [if_pos hid, hid, Function.update_self, List.map_append, List.map_append, ← List.append_assoc, hkept]
        simp [eventsFor]
      · -- an event of another one
        rw [if_neg hid, Function.update_of_ne (Ne.symm hid)]
        simpa [eventsFor] using hkept
  | evict =>
    obtain ⟨m, ms, hq, rfl⟩ := step_evict ht
    intro id win hw
    have hkept := hk id win hw
    rwa [hq, eventsFor_other fun ev he hid => ?_] at hkept
    have hno := hc m ev (by rw [hq]; rfl) he
    rw [hid] at hno
    rw [hno] at hw
    cases hw
  | poll id =>
    obtain ⟨mode, rfl⟩ := step_poll ht
    exact hk
  | openWindow width height sent =>
    obtain ⟨reqId, mode, rfl⟩ := step_openWindow ht
    exact hk
  | recv opened =>
    rcases recv_cases hs ht with ⟨-, mode, rfl⟩ | ⟨rfl, m, ms, hq, htaken⟩
    · exact hk
    · exact htaken.kept hk hq fun ev he => hc m ev (by rw [hq]; rfl) he

theorem step_lost (hs : ClientOK s) (hk : EventsKept s) (a : ClientAct) (ht : s.step a = some t)
    (hc : ¬ KeepsEvents s a) : ¬ EventsKept t := by
  cases a with
  | evict =>
    obtain ⟨m, ms, hq, rfl⟩ := step_evict ht
    unfold KeepsEvents at hc
    push Not at hc
    obtain ⟨m', ev, hhead, hev, hw⟩ := hc
    rw [hq] at hhead
    obtain rfl := Option.some.inj hhead
    obtain ⟨win, hw⟩ := Option.ne_none_iff_exists'.1 hw
    exact lost hk hq hev hw s.mode
  | recv opened =>
    cases opened with
    | false => exact absurd trivial hc
    | true =>
      unfold KeepsEvents at hc
      push Not at hc
      obtain ⟨m', ev, hhead, hev, hw, hmode⟩ := hc
      obtain ⟨win, hw⟩ := Option.ne_none_iff_exists'.1 hw
      rcases recv_cases hs ht with ⟨hnothing, -⟩ | ⟨-, m, ms, hq, htaken⟩
      · rw [hnothing.resolve_left (by decide)] at hhead
        cases hhead
      · rw [hq] at hhead
        obtain rfl := Option.some.inj hhead
        cases htaken with
        | dropped mode _ => exact lost hk hq hev hw mode
        | returned hev' _ hmode' =>
          rw [hev] at hev'
          obtain rfl := Option.some.inj hev'
          exact absurd hmode' hmode
        | answered hev' _ =>
          rw [hev] at hev'
          cases hev'
  | _ => exact absurd trivial hc

/-! ### Polling -/

/-- Calls of `get_event` of the window, and nothing else, lead from `s` to `t`. -/
inductive PollsTo (id : ℕ) : GuiClient → GuiClient → Prop
  | refl (s : GuiClient) : PollsTo id s s
  | poll {s t u : GuiClient} (h : s.step (.poll id) = some t) (h' : PollsTo id t u) : PollsTo id s u
  | recv {s t u : GuiClient} (h : s.step (.recv true) = some t) (h' : PollsTo id t u) : PollsTo id s u

theorem step_recv (hw : s.wins id = some win) (hmode : s.mode = .polling id) (opened : Bool) :
    s.step (.recv opened) = some (s.pollStep win opened) := by
  simp only [GuiClient.step]
  rw [hmode]
  simp only
  rw [hw, Option.map_some]

theorem pollStep_mode (hmode : s.mode = .polling id) (opened : Bool) :
    (s.pollStep win opened).mode = .idle ∨ (s.pollStep win opened).mode = .polling id := by
  unfold pollStep
  rcases s.recvMsg opened ipcEventSize with ⟨⟨r, msg⟩, q⟩
  cases msg with
  | none => exact .inl rfl
  | some m =>
    simp only
    cases m.event with
    | none => exact .inr hmode
    | some ev =>
      simp only
      split_ifs
      · exact .inr hmode
      · exact .inl rfl

/-- It is enough to look at a call that has begun. -/
theorem PollsTo.call (hw : s.wins id = some win) (hmode : s.mode = .idle ∨ s.mode = .polling id)
    (h : PollsTo id { s with mode := .polling id } t) : PollsTo id s t := by
  rcases hmode with hidle | hpolling
  · have hstep : s.step (.poll id) = some { s with mode := .polling id } := by
      simp only [GuiClient.step]
      rw [hidle, hw]
    exact .poll hstep h
  · rwa [← hpolling] at h

/-- One pass of a call of `get_event` returns the oldest message, or drops what is not for the window. -/
theorem pollStep_returns (hs : ClientOK s) (hw : s.wins id = some win) (hmode : s.mode = .polling id)
    (hq : s.queue = m :: ms) :
    ∃ win', (s.pollStep win true).wins id = some win' ∧ win'.toGuiWindow = win.toGuiWindow ∧
      (s.pollStep win true).queue = ms ∧ (s.pollStep win true).returned id ++ (eventsFor id ms).map win.event =
        s.returned id ++ (eventsFor id (m :: ms)).map win.event := by
  rcases pollStep_cases hs hw hmode true with ⟨hnothing, -⟩ | ⟨-, m', ms', hq', htaken⟩
  · rw [hq] at hnothing
    exact absurd hnothing (by simp)
  obtain ⟨rfl, rfl⟩ := List.cons.inj (hq.symm.trans hq')
  generalize s.pollStep win true = u at htaken
  cases htaken with
  | dropped mode hev =>
    have hother : eventsFor id (m :: ms) = eventsFor id ms :=
      eventsFor_other fun ev he hid => hev ev he (hid.symm ▸ hmode)
    exact ⟨win, hw, rfl, rfl, by rw [hother]⟩
  | @returned ev win' hev hw' hmode' =>
    obtain rfl : ev.winId = id := (ClientMode.polling.inj (hmode.symm.trans hmode')).symm
    obtain rfl : win' = win := Option.some.inj (hw'.symm.trans hw)
    refine ⟨win'.track ev, Function.update_self _ _ _, rfl, rfl, ?_⟩
    rw [eventsFor_self hev]
    show Function.update s.returned ev.winId _ ev.winId ++ _ = _
    rw [Function.update_self, List.append_assoc]
    rfl
  | answered _ hno => exact absurd hmode (hno id)

/-- **Polling a window often enough** returns what is queued for it, in its order. -/
theorem poll_drains (q : List Msg) : ∀ {s : GuiClient} {win : Window}, ClientOK s → s.wins id = some win →
    s.mode = .idle ∨ s.mode = .polling id → s.queue = q →
      ∃ t, PollsTo id s t ∧ t.mode = .idle ∧ t.queue = [] ∧
        t.returned id = s.returned id ++ (eventsFor id q).map win.event := by
  -- the induction is on what is queued when a pass of the loop begins
  induction q with
  | nil =>
    intro s win hs hw hmode hq
    set s0 : GuiClient := { s with mode := .polling id } with hs0
    have hw0 : s0.wins id = some win := hw
    have hstep := step_recv hw0 rfl true
    have hok0 : ClientOK s0 := ⟨hs.msgs, hs.ids⟩
    have hq0 : s0.queue = [] := hq
    rcases pollStep_cases hok0 hw0 rfl true with ⟨-, he⟩ | ⟨-, m, ms, hq', -⟩
    · rw [he] at hstep
      exact ⟨_, .call hw hmode (.recv hstep (.refl _)), rfl, hq, by simp [eventsFor, s0]⟩
    · rw [hq0] at hq'
      cases hq'
  | cons m ms ih =>
    intro s win hs hw hmode hq
    set s0 : GuiClient := { s with mode := .polling id } with hs0
    have hok0 : ClientOK s0 := ⟨hs.msgs, hs.ids⟩
    have hw0 : s0.wins id = some win := hw
    have hstep := step_recv hw0 rfl true
    obtain ⟨win', hw', hsame, hqueue, hret⟩ := pollStep_returns hok0 hw0 rfl hq
    obtain ⟨t, ht, htmode, htq, htret⟩ := ih (step_ok hok0 _ hstep) hw' (pollStep_mode rfl true) hqueue
    refine ⟨t, .call hw hmode (.recv hstep ht), htmode, htq, ?_⟩
    rw [htret, hsame]
    exact hret

/-! ### The runs that lose nothing -/

theorem newGuiClient_ok : ClientOK newGuiClient ∧ EventsKept newGuiClient := by
  refine ⟨⟨fun m hm => ?_, fun id win hw => ?_⟩, fun id win hw => ?_⟩
  · cases hm
  · cases hw
  · cases hw

/-- **A client loses no event** in exactly the runs in which no event of an open window is dropped to make room or
taken from the queue by another call than `get_event` of that window. And in every run, calls of `get_event` of a
window return what is queued for it. -/
theorem events_returned (acts : List ClientAct) :
    (AllStates GuiClient.step EventsKept newGuiClient acts ↔
      AllSteps GuiClient.step (fun s a _ => KeepsEvents s a) newGuiClient acts) ∧
    ∀ s, acts.foldlM GuiClient.step newGuiClient = some s → ∀ id win, s.wins id = some win →
      s.mode = .idle ∨ s.mode = .polling id →
        ∃ t, PollsTo id s t ∧ t.mode = .idle ∧ t.queue = [] ∧
          t.returned id = s.returned id ++ (eventsFor id s.queue).map win.event := by
  constructor
  · exact allStates_iff (I := fun s => ClientOK s ∧ EventsKept s) (fun _ h => h.2)
      (fun s a t h ht hc => ⟨step_ok h.1 a ht, step_kept h.1 h.2 a ht hc⟩)
      (fun s a t h ht hc => step_lost h.1 h.2 a ht hc) newGuiClient_ok acts
  · intro s hrun id win hw hmode
    have hok := (allStates_of (fun _ a _ h ht => step_ok h a ht) newGuiClient_ok.1 acts).last hrun
    exact poll_drains s.queue hok hw hmode rfl

/-! ### A process with two windows -/

/-- The window manager's answer to a request. -/
def replyMsg (req id : ℕ) : Msg := ⟨1, wmMsgCreateReply, le 4 req ++ (le 4 id ++ (le 4 0 ++ le 4 0))⟩

/-- The mouse moves to the corner of a window. -/
def moveMsg (id : ℕ) : Msg := ⟨1, wmMsgEvent, le 4 id ++ (le 4 evMouseMove ++ List.replicate 20 0)⟩

theorem replyMsg_ok (req id : ℕ) : (replyMsg req id).OK :=
  ⟨by norm_num [replyMsg], by norm_num [replyMsg, wmMsgCreateReply], by simp [replyMsg, wmMaxPayload]⟩

theorem moveMsg_ok (id : ℕ) : (moveMsg id).OK :=
  ⟨by norm_num [moveMsg], by norm_num [moveMsg, wmMsgEvent], by simp [moveMsg, wmMaxPayload]⟩

/-- Windows 1 and 2 are opened, and then the mouse moves over window 2. -/
def twoWindows : List ClientAct :=
  [.openWindow 4 4 true, .deliver (replyMsg 1 1) (replyMsg_ok 1 1), .recv true,
    .openWindow 4 4 true, .deliver (replyMsg 2 2) (replyMsg_ok 2 2), .recv true, .deliver (moveMsg 2) (moveMsg_ok 2)]

/-- What there is of window 2: the window itself, what was returned, what is queued, and what was delivered. -/
def GuiClient.second (s : GuiClient) : Bool × ℕ × ℕ × ℕ :=
  ((s.wins 2).isSome, (s.returned 2).length, (eventsFor 2 s.queue).length, (s.delivered 2).length)

def ClientMode.isIdle : ClientMode → Bool
  | .idle => true
  | _ => false

/-- `get_event` of window 2 returns the event. -/
theorem events_returned_two :
    (AllStates GuiClient.step EventsKept newGuiClient twoWindows ↔
      AllSteps GuiClient.step (fun s a _ => KeepsEvents s a) newGuiClient twoWindows) ∧
    ∃ s t, twoWindows.foldlM GuiClient.step newGuiClient = some s ∧ PollsTo 2 s t ∧ (t.returned 2).length = 1 := by
  obtain ⟨hiff, hpolls⟩ := events_returned twoWindows
  refine ⟨hiff, ?_⟩
  have hrun : (twoWindows.foldlM GuiClient.step newGuiClient).map
      (fun s => (s.second, s.mode.isIdle)) = some ((true, 0, 1, 1), true) := by decide +kernel
  obtain ⟨s, hs, he⟩ := Option.map_eq_some_iff.1 hrun
  obtain ⟨hsecond, hmode⟩ := Prod.mk.inj he
  obtain ⟨hsome, hreturned, hqueued, -⟩ : (s.wins 2).isSome = true ∧ (s.returned 2).length = 0 ∧
      (eventsFor 2 s.queue).length = 1 ∧ (s.delivered 2).length = 1 := by simpa [GuiClient.second] using hsecond
  obtain ⟨win, hw⟩ := Option.isSome_iff_exists.1 hsome
  have hidle : s.mode = .idle := by
    cases hm : s.mode with
    | idle => rfl
    | _ =>
      rw [hm] at hmode
      cases hmode
  obtain ⟨t, ht, -, -, hret⟩ := hpolls s hs 2 win hw (.inl hidle)
  refine ⟨s, t, hs, ht, ?_⟩
  rw [hret, List.length_append, List.length_map, hreturned, hqueued]

/-- **Another window's `get_event` drops it.** -/
theorem events_dropped :
    ¬ AllStates GuiClient.step EventsKept newGuiClient (twoWindows ++ [ClientAct.poll 1, ClientAct.recv true]) := by
  intro h
  have hrun : ((twoWindows ++
    [ClientAct.poll 1, ClientAct.recv true]).foldlM GuiClient.step newGuiClient).map GuiClient.second =
      some (true, 0, 0, 1) := by decide +kernel
  obtain ⟨s, hs, he⟩ := Option.map_eq_some_iff.1 hrun
  obtain ⟨hsome, hreturned, hqueued, hdelivered⟩ : (s.wins 2).isSome = true ∧ (s.returned 2).length = 0 ∧
      (eventsFor 2 s.queue).length = 0 ∧ (s.delivered 2).length = 1 := by simpa [GuiClient.second] using he
  obtain ⟨win, hw⟩ := Option.isSome_iff_exists.1 hsome
  have hlength := congrArg List.length (h.last hs 2 win hw)
  rw [List.length_append, List.length_map, List.length_map, hreturned, hqueued, hdelivered] at hlength
  cases hlength

end Saynaa
