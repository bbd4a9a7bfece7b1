import Saynaa.Sys.Kprintf

/-!
# The mouse (`kernel/src/drivers/mouse.c`)

The mouse sends packets of three bytes. The interrupt handler is given what the status port and the data port
read, and returns the calls of `dev_mouse_push_event`.
-/

namespace Saynaa

def mouseAlwaysSet : UInt8 := 0x08
def mouseXNeg : UInt8 := 0x10
def mouseYNeg : UInt8 := 0x20
def mouseXOverflow : UInt8 := 0x40
def mouseYOverflow : UInt8 := 0x80

def mouseBtnLeft : UInt8 := 0x01
def mouseBtnRight : UInt8 := 0x02
def mouseBtnMiddle : UInt8 := 0x04

/-- A call of `dev_mouse_push_event`. -/
structure MousePush where
  x : ℤ
  y : ℤ
  left : Bool
  right : Bool
  middle : Bool

/-- The globals of `mouse.c`. -/
structure Mouse where
  packet : ℕ → UInt8
  packetI : ℕ
  x : ℤ
  y : ℤ
  left : Bool
  right : Bool
  middle : Bool

namespace Mouse

variable (fb : KernelFb) (s : Mouse)

/-- The cursor is put back on the screen. -/
def ontoScreen : Mouse :=
  let s := if s.x < 0 then { s with x := 0 } else s
  let s := if s.y < 0 then { s with y := 0 } else s
  let s := if s.x ≥ toInt32 fb.width then { s with x := toInt32 (sub32 fb.width 1) } else s
  if s.y ≥ toInt32 fb.height then { s with y := toInt32 (sub32 fb.height 1) } else s

/-- `mouse_apply_packet`. -/
def applyPacket : Mouse × List MousePush :=
  let flags := s.packet 0
  if flags &&& mouseAlwaysSet = 0 then (s, [])
  else if flags &&& (mouseXOverflow ||| mouseYOverflow) ≠ 0 then (s, [])
  else
    let dx := if flags &&& mouseXNeg ≠ 0 then charInt (s.packet 1) else (s.packet 1).toNat
    let dy := if flags &&& mouseYNeg ≠ 0 then charInt (s.packet 2) else (s.packet 2).toNat
    let s := { s with x := i32 (s.x + dx), y := i32 (s.y - dy) }
    if fb.width = 0 ∨ fb.height = 0 then (s, [])
    else
      let s := { s.ontoScreen fb with
        left := flags &&& mouseBtnLeft ≠ 0
        right := flags &&& mouseBtnRight ≠ 0
        middle := flags &&& mouseBtnMiddle ≠ 0 }
      (s, [⟨s.x, s.y, s.left, s.right, s.middle⟩])

/-- A byte of the mouse; outside of a packet only one that may start a packet is taken. -/
def takeByte (byte : UInt8) : Mouse × List MousePush :=
  if s.packetI = 0 ∧ byte &&& mouseAlwaysSet = 0 then (s, [])
  else
    let s := { s with packet := Function.update s.packet s.packetI byte, packetI := s.packetI + 1 }
    if s.packetI = 3 then applyPacket fb { s with packetI := 0 } else (s, [])

/-- `mouse_handler`. -/
def mouseHandler (status byte : UInt8) : Mouse × List MousePush :=
  if status &&& 0x20 = 0 then (s, []) else s.takeByte fb byte

/-- The handler at each interrupt. -/
def interrupts : Mouse → List (UInt8 × UInt8) → Mouse × List MousePush
  | s, [] => (s, [])
  | s, (status, byte) :: irqs =>
    let (s, events) := s.mouseHandler fb status byte
    let (s, events') := interrupts s irqs
    (s, events ++ events')

end Mouse

end Saynaa
