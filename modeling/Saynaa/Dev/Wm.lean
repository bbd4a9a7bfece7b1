import Saynaa.Lib.Bytes
import Saynaa.Libc.Math

/-!
# The window manager device (`kernel/src/fs/dev/dev_wm.c`)

Every endpoint has a ring of `WMQ_BYTES` bytes with a read and a write index; one byte
stays free. Messages are stored as a 12-byte header and the payload. `enqueueMsg` says
which of its `return`s was taken and whether the branch for a corrupt queue ran.

`none` is running out of fuel in the loop that drops messages.
-/

namespace Saynaa

open Lib

def wmEndpoints : ℕ := 32
def wmqBytes : ℕ := 8192
def wmMaxPayload : ℕ := 256

/-- `wm_recv_hdr_t`. -/
structure WmRecvHdr where
  src : ℕ
  type : ℕ
  len : ℕ

/-- `sizeof(wm_recv_hdr_t)`. -/
def hdrSize : ℕ := 12

/-- The header in memory. -/
def WmRecvHdr.toBytes (h : WmRecvHdr) : List UInt8 := le 4 h.src ++ (le 4 h.type ++ le 4 h.len)

/-- The header that `hdrSize` bytes of memory hold. -/
def WmRecvHdr.ofBytes (b : List UInt8) : WmRecvHdr :=
  ⟨ofLe (b.take 4), ofLe ((b.drop 4).take 4), ofLe ((b.drop 8).take 4)⟩

/-- A queued message. -/
structure Msg where
  src : ℕ
  type : ℕ
  payload : List UInt8

/-- The header in front of a message. -/
def Msg.hdr (m : Msg) : WmRecvHdr := ⟨m.src, m.type, m.payload.length⟩

/-- The bytes of a message in the ring. -/
def Msg.bytes (m : Msg) : List UInt8 := m.hdr.toBytes ++ m.payload

/-- The fields fit, and the payload is not longer than `WM_MAX_PAYLOAD`. -/
structure Msg.OK (m : Msg) : Prop where
  src : m.src < 2 ^ 32
  type : m.type < 2 ^ 32
  len : m.payload.length ≤ wmMaxPayload

/-- `wm_send_hdr_t`. -/
structure WmSendHdr where
  dst : ℕ
  type : ℕ
  len : ℕ

/-- `sizeof(wm_send_hdr_t)`. -/
def sendHdrSize : ℕ := 12

def WmSendHdr.ofBytes (b : List UInt8) : WmSendHdr :=
  ⟨ofLe (b.take 4), ofLe ((b.drop 4).take 4), ofLe ((b.drop 8).take 4)⟩

/-- `endpoint_t`. -/
structure Endpoint where
  pid : ℕ
  q : ℕ → UInt8
  r : ℕ
  w : ℕ

/-- `g_eps` and `g_server_pid`. -/
structure Wm where
  eps : Fin wmEndpoints → Endpoint
  serverPid : ℕ

namespace Endpoint

def qUsed (ep : Endpoint) : ℕ :=
  if ep.w ≥ ep.r then ep.w - ep.r else wmqBytes - (ep.r - ep.w)

def qFree (ep : Endpoint) : ℕ := (wmqBytes - 1) - ep.qUsed

def qWrite (ep : Endpoint) (src : List UInt8) : Endpoint :=
  let n := src.length
  let stop := wmqBytes - ep.w
  if n ≤ stop then { ep with q := copyIn ep.q ep.w src, w := (ep.w + n) % wmqBytes }
  else { ep with q := copyIn (copyIn ep.q ep.w (src.take stop)) 0 (src.drop stop), w := n - stop }

def qRead (ep : Endpoint) (n : ℕ) : List UInt8 × Endpoint :=
  let stop := wmqBytes - ep.r
  if n ≤ stop then (copyOut ep.q ep.r n, { ep with r := (ep.r + n) % wmqBytes })
  else (copyOut ep.q ep.r stop ++ copyOut ep.q 0 (n - stop), { ep with r := n - stop })

def qPeek (ep : Endpoint) (n : ℕ) : Option (List UInt8) :=
  if ep.qUsed < n then none
  else
    let stop := wmqBytes - ep.r
    if n ≤ stop then some (copyOut ep.q ep.r n)
    else some (copyOut ep.q ep.r stop ++ copyOut ep.q 0 (n - stop))

/-- Discard `n` bytes in pieces of at most 64. -/
def discard (ep : Endpoint) (n : ℕ) : Endpoint :=
  if n = 0 then ep
  else
    let chunk := if n > 64 then 64 else n
    discard (ep.qRead chunk).2 (n - chunk)
termination_by n
decreasing_by split_ifs <;> omega

/-- Drop the oldest messages until `total` bytes are free; `true` is the reset of a corrupt
queue. -/
def dropLoop (total : ℕ) : ℕ → Endpoint → Option (Bool × Endpoint)
  | 0, _ => none
  | fuel + 1, ep =>
    if ep.qFree < total ∧ ep.qUsed ≥ hdrSize then
      match ep.qPeek hdrSize with
      | none => some (false, ep)
      | some b =>
        let oldTotal := add32 hdrSize (WmRecvHdr.ofBytes b).len
        if oldTotal = 0 ∨ oldTotal > wmqBytes - 1 then some (true, { ep with r := 0, w := 0 })
        else dropLoop total fuel (ep.discard oldTotal)
    else some (false, ep)

end Endpoint

namespace Wm

/-- The endpoint of `pid`. -/
def findEp (s : Wm) (pid : ℕ) : Option (Fin wmEndpoints) :=
  (List.finRange wmEndpoints).find? fun i => (s.eps i).pid = pid

def setEp (s : Wm) (i : Fin wmEndpoints) (ep : Endpoint) : Wm :=
  { s with eps := Function.update s.eps i ep }

/-- The endpoint of `pid`, which is registered if it was not and there is room. -/
def ensureEp (s : Wm) (pid : ℕ) : Option (Fin wmEndpoints) × Wm :=
  match s.findEp pid with
  | some i => (some i, s)
  | none =>
    match s.findEp 0 with
    | some i => (some i, s.setEp i ⟨pid, fun _ => 0, 0, 0⟩)
    | none => (none, s)

end Wm

/-- The `return`s of `enqueue_msg`, all but the last of which return `false`. -/
inductive Enqueued where
  | tooLong
  | noEndpoint
  | noSpace
  | done
  deriving DecidableEq

/-- `enqueue_msg`; the flag tells whether a corrupt queue was reset. -/
def enqueueMsg (fuel : ℕ) (s : Wm) (dst src type : ℕ) (payload : List UInt8) :
    Option (Enqueued × Bool × Wm) :=
  let len := payload.length
  if len > wmMaxPayload then some (.tooLong, false, s)
  else
    match s.ensureEp dst with
    | (none, s) => some (.noEndpoint, false, s)
    | (some i, s) => do
      let hdr : WmRecvHdr := ⟨src, type, len⟩
      let total := hdrSize + len
      let room :=
        if (s.eps i).qFree < total then (s.eps i).dropLoop total fuel else some (false, s.eps i)
      let (corrupt, ep) ← room
      if ep.qFree < total then return (.noSpace, corrupt, s.setEp i ep)
      let ep := ep.qWrite hdr.toBytes
      let ep := if len ≠ 0 then ep.qWrite payload else ep
      return (.done, corrupt, s.setEp i ep)

/-- `dev_wm_read` by the process with pid `current` (`none`: no process) into a buffer of
`size` bytes (`none`: `NULL`): the returned value, the bytes put into the buffer, and the
new state. -/
def devWmRead (s : Wm) (current buffer : Option ℕ) : ℤ × List UInt8 × Wm :=
  match current, buffer with
  | none, _ => (-1, [], s)
  | _, none => (-1, [], s)
  | some pid, some size =>
    if size < hdrSize then (-1, [], s)
    else
      match s.findEp pid with
      | none => (0, [], s)
      | some i =>
        let ep := s.eps i
        if ep.qUsed = 0 then (0, [], s)
        else
          match ep.qPeek hdrSize with
          | none => (0, [], s)
          | some b =>
            let hdr := WmRecvHdr.ofBytes b
            let total := add32 hdrSize hdr.len
            if hdr.len > wmMaxPayload ∨ total > size then (-1, [], s)
            else
              let (b, ep) := ep.qRead hdrSize
              if (WmRecvHdr.ofBytes b).len ≠ 0 then
                let (p, ep) := ep.qRead (WmRecvHdr.ofBytes b).len
                (total, b ++ p, s.setEp i ep)
              else (total, b, s.setEp i ep)

/-- `dev_wm_write` by the process with pid `current` of the bytes `buffer`. -/
def devWmWrite (fuel : ℕ) (s : Wm) (current : Option ℕ) (buffer : Option (List UInt8)) : Option (ℤ × Wm) :=
  match current, buffer with
  | none, _ => some (-1, s)
  | _, none => some (-1, s)
  | some src, some b =>
    if b.length < sendHdrSize then some (-1, s)
    else
      let hdr := WmSendHdr.ofBytes b
      if hdr.len > wmMaxPayload then some (-1, s)
      else
        let total := add32 sendHdrSize hdr.len
        if b.length < total then some (-1, s)
        else
          -- the first writer becomes the server
          let s := if s.serverPid = 0 then (({ s with serverPid := src } : Wm).ensureEp src).2 else s
          let s := (s.ensureEp src).2
          let dst := if hdr.dst = 0 then s.serverPid else hdr.dst
          if src ≠ s.serverPid ∧ dst ≠ s.serverPid then some (-1, s)
          else do
            let (sent, _, s) ← enqueueMsg fuel s dst src hdr.type ((b.drop sendHdrSize).take hdr.len)
            return (if sent = .done then (total : ℤ) else -1, s)

/-- The state after `init_dev_wm`. -/
def initDevWm : Wm := ⟨fun _ => ⟨0, fun _ => 0, 0, 0⟩, 0⟩

end Saynaa
