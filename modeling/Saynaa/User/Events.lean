import Saynaa.Dev.Wm
import Saynaa.User.Gui

/-!
# Events of clients (`libraries/libgui/src/gui.c`)

`wm_recv`, `get_event` and the loop of `wm_open_window_ipc` that waits for the reply, in one process. A
`GuiClient` has the messages in the process's queue, its windows, and where it is between two calls of `wm_recv`;
new messages may come at any time. It records what was delivered for each window and what `get_event` returned.
-/

namespace Saynaa

open Lib WinMan

def wmMsgCreateReply : ℕ := 2
def wmMsgEvent : ℕ := 5

/-! ### Messages -/

/-- The number in the `n` bytes at `a`. -/
def field (b : List UInt8) (a n : ℕ) : ℕ := ofLe ((b.drop a).take n)

/-- `sizeof(wm_ipc_event_t)`. -/
def ipcEventSize : ℕ := 28

def IpcEvent.ofBytes (b : List UInt8) : IpcEvent :=
  { winId := field b 0 4, type := field b 4 4, x := toInt32 (field b 8 4), y := toInt32 (field b 12 4)
    left := field b 16 1 ≠ 0, right := field b 17 1 ≠ 0, middle := field b 18 1 ≠ 0
    keycode := field b 20 4, pressed := field b 24 1, repr := field b 25 1 }

/-- `wm_ipc_create_reply_t`. -/
structure IpcCreateReply where
  reqId : ℕ
  winId : ℕ
  x : ℤ
  y : ℤ

/-- `sizeof(wm_ipc_create_reply_t)`. -/
def createReplySize : ℕ := 16

def IpcCreateReply.ofBytes (b : List UInt8) : IpcCreateReply :=
  ⟨field b 0 4, field b 4 4, toInt32 (field b 8 4), toInt32 (field b 12 4)⟩

/-- What `sys_read` of `/dev/wm` returns and puts into the buffer, and the queue after it. -/
def readQueue : List Msg → ℤ × List UInt8 × List Msg
  | [] => (0, [], [])
  | m :: ms => (m.bytes.length, m.bytes, ms)

/-- `wm_recv` with a buffer of `want` bytes for the payload, after `sys_read` returned `r`. -/
def wmRecv (r : ℤ) (buf : List UInt8) (want : ℕ) : ℤ × Option Msg :=
  if r ≤ 0 then (r, none)
  else if r < hdrSize then (-1, none)
  else
    let hdr := WmRecvHdr.ofBytes (buf.take hdrSize)
    if hdr.len > wmMaxPayload ∨ r ≠ hdrSize + hdr.len then (-1, none)
    else if want < hdr.len then (-1, none)
    else (r, some ⟨hdr.src, hdr.type, (buf.drop hdrSize).take hdr.len⟩)

/-! ### Events -/

def wmEventKbd : ℕ := 6
def wmEventGainedFocus : ℕ := 7
def wmEventLostFocus : ℕ := 8
def wmEventClose : ℕ := 9

/-- `wm_event_t`. -/
structure WmEvent where
  type : ℕ := 0
  position : WmRect := ⟨0, 0, 0, 0⟩
  leftButton : Bool := false
  rightButton : Bool := false
  keycode : ℕ := 0
  pressed : Bool := false
  repr : ℕ := 0

/-- `window_t`, as far as drawing and events go. -/
structure Window extends GuiWindow where
  hoveredTitlebar : Bool := false
  lastMouseX : ℤ := 0
  lastMouseY : ℤ := 0
  lastLeft : Bool := false
  lastRight : Bool := false

/-- The state of the mouse for hovering. -/
def Window.track (win : Window) (ev : IpcEvent) : Window :=
  { win with
    lastMouseX := ev.x, lastMouseY := ev.y, lastLeft := ev.left, lastRight := ev.right
    hoveredTitlebar := ev.y ≥ 0 ∧ ev.y < wmTbHeight }

/-- The event that `get_event` makes of a message. -/
def GuiWindow.event (win : GuiWindow) (ev : IpcEvent) : WmEvent :=
  let event : WmEvent := { type := ev.type }
  let event : WmEvent :=
    if ev.type ≥ evMousePress ∧ ev.type ≤ evMouseExit then
      let event : WmEvent :=
        { event with
          position := { top := ev.y, left := ev.x, bottom := i32 (ev.y + 16), right := i32 (ev.x + 16) }
          leftButton := ev.left, rightButton := ev.right }
      let bx := i32 (toInt32 win.width - 24)
      let by' := 6
      -- a click on the close button
      if ev.type = evMousePress ∧ ev.left ∧ ev.y ≥ by' ∧ ev.y < by' + 18 ∧ ev.x ≥ bx ∧ ev.x < i32 (bx + 18) then
        { event with type := wmEventClose }
      else event
    else event
  let event : WmEvent := if ev.type = evGainedFocus then { event with type := wmEventGainedFocus } else event
  let event : WmEvent := if ev.type = evLostFocus then { event with type := wmEventLostFocus } else event
  if ev.type = evKbd then
    { event with type := wmEventKbd, keycode := ev.keycode, pressed := ev.pressed ≠ 0, repr := ev.repr }
  else event

/-! ### The client -/

/-- The number of times that `wm_open_window_ipc` calls `wm_recv`. -/
def openSpins : ℕ := 500

inductive ClientMode where
  | idle
  /-- In `get_event` of this window. -/
  | polling (id : ℕ)
  /-- In `wm_open_window_ipc`, for a window of this size, with the passes of the loop that are left. -/
  | opening (req width height spins : ℕ)

structure GuiClient where
  queue : List Msg
  wins : ℕ → Option Window
  reqId : ℕ
  mode : ClientMode
  delivered : ℕ → List IpcEvent
  returned : ℕ → List WmEvent

/-- The event in a message, if there is one. -/
def Msg.event (m : Msg) : Option IpcEvent :=
  if m.type ≠ wmMsgEvent ∨ m.payload.length ≠ ipcEventSize then none else some (.ofBytes m.payload)

/-- The answer to the request `req` in a message, if there is one. -/
def Msg.reply (m : Msg) (req : ℕ) : Option IpcCreateReply :=
  let rep := IpcCreateReply.ofBytes m.payload
  if m.type = wmMsgCreateReply ∧ m.payload.length = createReplySize ∧ rep.reqId = req then some rep else none

/-- The events for the window `id` among messages. -/
def eventsFor (id : ℕ) (q : List Msg) : List IpcEvent := (q.filterMap Msg.event).filter (·.winId = id)

inductive ClientAct where
  /-- A message comes to the end of the queue. -/
  | deliver (m : Msg) (hm : m.OK)
  /-- The oldest message is dropped to make room. -/
  | evict
  /-- `get_event` is called. -/
  | poll (id : ℕ)
  /-- `open_window` is called and has its shared memory; `WM_MSG_CREATE` was sent, or not. -/
  | openWindow (width height : ℕ) (sent : Bool)
  /-- The next `wm_recv`, whose `sys_open` succeeds or not. -/
  | recv (opened : Bool)

namespace GuiClient

variable (s : GuiClient)

/-- `wm_recv` from the queue. -/
def recvMsg (opened : Bool) (want : ℕ) : (ℤ × Option Msg) × List Msg :=
  if opened then
    let (r, buf, q) := readQueue s.queue
    (wmRecv r buf want, q)
  else ((-1, none), s.queue)

/-- One pass of the loop of `get_event`. -/
def pollStep (win : Window) (opened : Bool) : GuiClient :=
  match s.recvMsg opened ipcEventSize with
  | ((_, none), q) => { s with queue := q, mode := .idle }
  | ((_, some m), q) =>
    match m.event with
    | none => { s with queue := q }
    | some ev =>
      if ev.winId ≠ win.id then { s with queue := q }
      else
        { s with
          queue := q, mode := .idle
          wins := Function.update s.wins win.id (some (win.track ev))
          returned := Function.update s.returned win.id (s.returned win.id ++ [win.event ev]) }

/-- The answer has come: `open_window` returns a window, or fails. The messages behind the answer
are for the window. -/
def onReply (width height : ℕ) (rep : IpcCreateReply) : GuiClient :=
  if rep.winId = 0 then { s with mode := .idle }
  else
    { s with
      mode := .idle
      wins := Function.update s.wins rep.winId (some { id := rep.winId, width := width, height := height })
      delivered := Function.update s.delivered rep.winId (eventsFor rep.winId s.queue)
      returned := Function.update s.returned rep.winId [] }

/-- One pass of the loop of `wm_open_window_ipc`. Unrelated messages are dropped. -/
def openStep (req width height spins : ℕ) (opened : Bool) : GuiClient :=
  match s.recvMsg opened createReplySize with
  | ((_, msg), q) =>
    let s := { s with queue := q }
    match msg.bind fun m => m.reply req with
    | some rep => s.onReply width height rep
    | none => { s with mode := if spins ≤ 1 then .idle else .opening req width height (spins - 1) }

def step : ClientAct → Option GuiClient
  | .deliver m _ =>
    some { s with
      queue := s.queue ++ [m]
      delivered := match m.event with
        | none => s.delivered
        | some ev => Function.update s.delivered ev.winId (s.delivered ev.winId ++ [ev]) }
  | .evict =>
    match s.queue with
    | [] => none
    | _ :: ms => some { s with queue := ms }
  | .poll id =>
    match s.mode, s.wins id with
    | .idle, some _ => some { s with mode := .polling id }
    | _, _ => none
  | .openWindow width height sent =>
    match s.mode with
    | .idle =>
      some { s with
        reqId := add32 s.reqId 1
        mode := if sent then .opening s.reqId width height openSpins else .idle }
    | _ => none
  | .recv opened =>
    match s.mode with
    | .idle => none
    | .polling id => (s.wins id).map fun win => s.pollStep win opened
    | .opening req width height spins => some (s.openStep req width height spins opened)

end GuiClient

/-- A process that has opened no window. -/
def newGuiClient : GuiClient := ⟨[], fun _ => none, 1, .idle, fun _ => [], fun _ => []⟩

end Saynaa
