import Saynaa.Sys.Mouse
import Saynaa.Proof.Kprintf

/-!
# What the mouse reports

* `MousePacket`: three bytes, with the movement that they stand for.
* `applyPacket_eq`: the movement that the driver sees.
* `packets_decoded`: the events are those of the packets, just if no fast movement is misread where it matters.
-/

namespace Saynaa

open Mouse
open Lib (forall_splits_nil forall_splits_cons)

variable {fb : KernelFb} {s : Mouse}

/-- A packet without overflow. -/
structure MousePacket where
  flags : UInt8
  moveX : UInt8
  moveY : UInt8
  always : flags &&& mouseAlwaysSet ≠ 0
  inRange : flags &&& (mouseXOverflow ||| mouseYOverflow) = 0

namespace MousePacket

variable (p : MousePacket)

def bytes : List UInt8 := [p.flags, p.moveX, p.moveY]

/-- A movement of nine bits, the first of them the sign. -/
def nineBit (neg : Prop) [Decidable neg] (b : UInt8) : ℤ := if neg then b.toNat - 256 else b.toNat

def dx : ℤ := nineBit (p.flags &&& mouseXNeg ≠ 0) p.moveX

def dy : ℤ := nineBit (p.flags &&& mouseYNeg ≠ 0) p.moveY

/-- The next position of the cursor. -/
def moved (fb : KernelFb) (pos : ℤ × ℤ) : ℤ × ℤ :=
  (max 0 (min (pos.1 + p.dx) (fb.width - 1)), max 0 (min (pos.2 - p.dy) (fb.height - 1)))

/-- The event at a position. -/
def event (pos : ℤ × ℤ) : MousePush :=
  ⟨pos.1, pos.2, p.flags &&& mouseBtnLeft ≠ 0, p.flags &&& mouseBtnRight ≠ 0, p.flags &&& mouseBtnMiddle ≠ 0⟩

/-- **The packets that are read well** at a position: a movement to the left or down by more than 128 is read as
one to the other side, which is not seen only if the cursor cannot move either way. -/
structure Tame (fb : KernelFb) (pos : ℤ × ℤ) : Prop where
  x : p.flags &&& mouseXNeg ≠ 0 → p.moveX.toNat < 128 → fb.width = 1 ∨ (pos.1 = 0 ∧ p.moveX.toNat = 0)
  y : p.flags &&& mouseYNeg ≠ 0 → p.moveY.toNat < 128 → fb.height = 1 ∨ (pos.2 = fb.height - 1 ∧ p.moveY.toNat = 0)

end MousePacket

/-- The position behind some packets. -/
def packetsMoved (fb : KernelFb) (pos : ℤ × ℤ) (packets : List MousePacket) : ℤ × ℤ :=
  packets.foldl (fun pos p => p.moved fb pos) pos

/-- The events of some packets. -/
def packetEvents (fb : KernelFb) : ℤ × ℤ → List MousePacket → List MousePush
  | _, [] => []
  | pos, p :: packets => p.event (p.moved fb pos) :: packetEvents fb (p.moved fb pos) packets

/-- A cursor on the screen. -/
structure OnScreen (fb : KernelFb) (pos : ℤ × ℤ) : Prop where
  left : 0 ≤ pos.1
  right : pos.1 < fb.width
  top : 0 ≤ pos.2
  bottom : pos.2 < fb.height

theorem OnScreen.moved {pos : ℤ × ℤ} (h : OnScreen fb pos) (p : MousePacket) : OnScreen fb (p.moved fb pos) := by
  have h1 := h.left
  have h2 := h.right
  have h3 := h.top
  have h4 := h.bottom
  unfold MousePacket.moved
  constructor <;> simp only <;> omega

/-- The position as the driver computes it. -/
def MousePacket.seen (p : MousePacket) (fb : KernelFb) (pos : ℤ × ℤ) : ℤ × ℤ :=
  let dx := if p.flags &&& mouseXNeg ≠ 0 then charInt p.moveX else p.moveX.toNat
  let dy := if p.flags &&& mouseYNeg ≠ 0 then charInt p.moveY else p.moveY.toNat
  (max 0 (min (pos.1 + dx) (fb.width - 1)), max 0 (min (pos.2 - dy) (fb.height - 1)))

theorem charInt_range (b : UInt8) : -128 ≤ charInt b ∧ charInt b < 128 := by
  have hlt := b.toNat_lt
  unfold charInt
  split_ifs <;> omega

/-- **The driver sees the movement** just if the packet is tame. -/
theorem seen_iff {pos : ℤ × ℤ} (h : OnScreen fb pos) (p : MousePacket) : p.seen fb pos = p.moved fb pos ↔
    p.Tame fb pos := by
  have h1 := h.left
  have h2 := h.right
  have h3 := h.top
  have h4 := h.bottom
  have hx := p.moveX.toNat_lt
  have hy := p.moveY.toNat_lt
  unfold MousePacket.seen MousePacket.moved MousePacket.dx MousePacket.dy MousePacket.nineBit charInt
  rw [Prod.ext_iff]
  simp only
  constructor
  · rintro ⟨hx', hy'⟩
    constructor
    · intro hneg hslow
      rw [if_pos hneg, if_pos hneg, if_pos hslow] at hx'
      omega
    · intro hneg hslow
      rw [if_pos hneg, if_pos hneg, if_pos hslow] at hy'
      omega
  · rintro ⟨htx, hty⟩
    constructor
    · split_ifs with hneg hslow
      · have := htx hneg hslow
        omega
      · rfl
      · rfl
    · split_ifs with hneg hslow
      · have := hty hneg hslow
        omega
      · rfl
      · rfl

/-- The cursor is put back to the nearest point of the screen. -/
theorem ontoScreen_eq (hw : 1 ≤ fb.width) (hh : 1 ≤ fb.height) (s : Mouse) :
    s.ontoScreen fb = { s with x := max 0 (min s.x (fb.width - 1)), y := max 0 (min s.y (fb.height - 1)) } := by
  obtain ⟨hw', hh'⟩ := fb_lt fb (by omega) (by omega)
  have hW : toInt32 fb.width = fb.width := toInt32_of_lt (by omega)
  have hH : toInt32 fb.height = fb.height := toInt32_of_lt (by omega)
  have hW1 : toInt32 (sub32 fb.width 1) = fb.width - 1 := by
    rw [sub32_of_le hw (by omega), toInt32_of_lt (by omega)]
    omega
  have hH1 : toInt32 (sub32 fb.height 1) = fb.height - 1 := by
    rw [sub32_of_le hh (by omega), toInt32_of_lt (by omega)]
    omega
  obtain ⟨packet, i, x, y, left, right, middle⟩ := s
  unfold ontoScreen
  rw [hW, hH, hW1, hH1]
  simp only
  split_ifs <;> simp only [Mouse.mk.injEq, true_and, and_true] at * <;> omega

/-- **A packet** moves the cursor as the driver sees it. -/
theorem applyPacket_eq (h : OnScreen fb (s.x, s.y)) (p : MousePacket) (h0 : s.packet 0 = p.flags)
    (h1 : s.packet 1 = p.moveX)
    (h2 : s.packet 2 = p.moveY) : ∃ s' : Mouse, s.applyPacket fb = (s', [p.event (p.seen fb (s.x, s.y))]) ∧
      (s'.x, s'.y) = p.seen fb (s.x, s.y) ∧ s'.packetI = s.packetI := by
  have hl := h.left
  have hr := h.right
  have ht := h.top
  have hb := h.bottom
  simp only at hl hr ht hb
  obtain ⟨hw', hh'⟩ := fb_lt fb (by omega) (by omega)
  have hsmall : ∀ (c : Prop) [Decidable c] (b : UInt8), -128 ≤ (if c then charInt b else b.toNat) ∧
      (if c then charInt b else b.toNat) < 256 := by
    intro c _ b
    have hc := charInt_range b
    have hlt := b.toNat_lt
    split_ifs <;> omega
  have hdx := hsmall (p.flags &&& mouseXNeg ≠ 0) p.moveX
  have hdy := hsmall (p.flags &&& mouseYNeg ≠ 0) p.moveY
  unfold applyPacket
  simp only
  rw [h0, h1, h2, if_neg p.always, if_neg (not_not.2 p.inRange), if_neg (by omega), i32_of_mem (by omega) (by omega),
    i32_of_mem (by omega) (by omega), ontoScreen_eq (by omega) (by omega)]
  exact ⟨_, rfl, rfl, rfl⟩

/-- The bytes that come from the mouse. -/
def mouseBytes (irqs : List (UInt8 × UInt8)) : List UInt8 := (irqs.filter fun irq => irq.1 &&& 0x20 ≠ 0).map Prod.snd

/-- Bytes taken one after the other. -/
def Mouse.takeBytes (fb : KernelFb) : Mouse → List UInt8 → Mouse × List MousePush
  | s, [] => (s, [])
  | s, byte :: bytes => ((takeBytes fb (s.takeByte fb byte).1 bytes).1,
      (s.takeByte fb byte).2 ++ (takeBytes fb (s.takeByte fb byte).1 bytes).2)

theorem interrupts_eq (irqs : List (UInt8 × UInt8)) (s : Mouse) :
    s.interrupts fb irqs = s.takeBytes fb (mouseBytes irqs) := by
  induction irqs generalizing s with
  | nil => rfl
  | cons irq irqs ih =>
    obtain ⟨status, byte⟩ := irq
    unfold interrupts mouseHandler
    simp only
    by_cases hkbd : status &&& 0x20 = 0
    · have hskip : mouseBytes ((status, byte) :: irqs) = mouseBytes irqs := by
        unfold mouseBytes
        rw [List.filter_cons_of_neg (by simpa using hkbd)]
      rw [if_pos hkbd, hskip, ih]
      rfl
    · have htake : mouseBytes ((status, byte) :: irqs) = byte :: mouseBytes irqs := by
        unfold mouseBytes
        rw [List.filter_cons_of_pos (by simpa using hkbd)]
        rfl
      rw [if_neg hkbd, htake, ih]
      rfl

/-- The bytes of a packet, outside of a packet. -/
theorem takeBytes_packet (h : OnScreen fb (s.x, s.y)) (hi : s.packetI = 0) (p : MousePacket) (bytes : List UInt8) :
    ∃ s' : Mouse, s.takeBytes fb (p.bytes ++ bytes) =
        ((s'.takeBytes fb bytes).1, p.event (p.seen fb (s.x, s.y)) :: (s'.takeBytes fb bytes).2) ∧
      (s'.x, s'.y) = p.seen fb (s.x, s.y) ∧ s'.packetI = 0 := by
  have hfirst : s.takeByte fb p.flags =
    ({ s with packet := Function.update s.packet 0 p.flags, packetI := 1 }, []) := by
    unfold takeByte
    rw [if_neg (fun hc => p.always hc.2)]
    simp only
    rw [hi]
    rfl
  obtain ⟨s', heq, hpos, hi'⟩ := applyPacket_eq (s := { s with
    packet := Function.update (Function.update (Function.update s.packet 0 p.flags) 1 p.moveX) 2 p.moveY,
      packetI := 0 })
    h p rfl rfl rfl
  refine ⟨s', ?_, hpos, hi'⟩
  have hlast : takeByte fb
      { s with packet := Function.update (Function.update s.packet 0 p.flags) 1 p.moveX, packetI := 2 } p.moveY =
      (s', [p.event (p.seen fb (s.x, s.y))]) := heq
  have hsplit : s.takeBytes fb (p.bytes ++ bytes) =
      let t := takeByte fb
        { s with packet := Function.update (Function.update s.packet 0 p.flags) 1 p.moveX, packetI := 2 } p.moveY
      ((takeBytes fb t.1 bytes).1, t.2 ++ (takeBytes fb t.1 bytes).2) := by
    show (_, (s.takeByte fb p.flags).2 ++ _) = _
    rw [hfirst]
    rfl
  rw [hsplit, hlast]
  rfl

/-- **The events** of packets, from a position on the screen. -/
theorem takeBytes_events (packets : List MousePacket) (h : OnScreen fb (s.x, s.y)) (hi : s.packetI = 0) :
    (s.takeBytes fb (packets.flatMap MousePacket.bytes)).2 = packetEvents fb (s.x, s.y) packets ↔
      ∀ before p after, packets = before ++ p :: after → p.Tame fb (packetsMoved fb (s.x, s.y) before) := by
  induction packets generalizing s with
  | nil => exact iff_of_true rfl (forall_splits_nil (P := fun before p => _))
  | cons p packets ih =>
    obtain ⟨s', heq, hpos, hi'⟩ := takeBytes_packet h hi p (packets.flatMap MousePacket.bytes)
    rw [List.flatMap_cons, heq]
    simp only [packetEvents, List.cons.injEq]
    rw [forall_splits_cons (P := fun before (q : MousePacket) => q.Tame fb (packetsMoved fb (s.x, s.y) before))]
    constructor
    · rintro ⟨hev, hrest⟩
      have hseen : p.seen fb (s.x, s.y) = p.moved fb (s.x, s.y) :=
        Prod.ext (congrArg MousePush.x hev) (congrArg MousePush.y hev)
      rw [← hseen, ← hpos] at hrest
      have hon : OnScreen fb (s'.x, s'.y) := by
        rw [hpos, hseen]
        exact h.moved p
      have htail := (ih hon hi').1 hrest
      rw [hpos, hseen] at htail
      exact ⟨(seen_iff h p).1 hseen, htail⟩
    · rintro ⟨hp, hall⟩
      have hseen := (seen_iff h p).2 hp
      rw [hseen] at hpos ⊢
      have hon : OnScreen fb (s'.x, s'.y) := by
        rw [hpos]
        exact h.moved p
      refine ⟨rfl, ?_⟩
      rw [← hpos]
      refine (ih hon hi').2 ?_
      rw [hpos]
      exact hall

/-- **The mouse reports its packets**, from a position on the screen and outside of a packet, exactly if each
packet is tame where it is read. -/
theorem packets_decoded (fb : KernelFb) (s : Mouse) (h : OnScreen fb (s.x, s.y)) (hi : s.packetI = 0)
    (packets : List MousePacket)
    (irqs : List (UInt8 × UInt8)) (hbytes : mouseBytes irqs = packets.flatMap MousePacket.bytes) :
    (s.interrupts fb irqs).2 = packetEvents fb (s.x, s.y) packets ↔
      ∀ before p after, packets = before ++ p :: after → p.Tame fb (packetsMoved fb (s.x, s.y) before) := by
  rw [interrupts_eq, hbytes]
  exact takeBytes_events packets h hi

/-- A small screen. -/
def smallFb : KernelFb := ⟨800, 200, 100, by norm_num, by norm_num⟩

/-- A mouse in the middle of it. -/
def middleMouse : Mouse := ⟨fun _ => 0, 0, 100, 50, false, false, false⟩

/-- A movement by one to the right. -/
def rightOne : MousePacket := ⟨0x08, 0x01, 0x00, by decide, by decide⟩

theorem packets_decoded_one :
    (middleMouse.interrupts smallFb [(0x21, 0x08), (0x01, 0x1E), (0x21, 0x01), (0x21, 0x00)]).2 =
    packetEvents smallFb (100, 50) [rightOne] ↔ ∀ before p after, [rightOne] = before ++ p :: after →
      p.Tame smallFb (packetsMoved smallFb (100, 50) before) :=
  packets_decoded smallFb middleMouse ⟨by decide, by decide, by decide, by decide⟩ rfl _ _ rfl

/-- A movement by 156 to the left. -/
def leftFast : MousePacket := ⟨0x18, 0x64, 0x00, by decide, by decide⟩

/-- **A fast movement to the left** is read as one to the right. -/
theorem packet_misread : (middleMouse.interrupts smallFb [(0x21, 0x18), (0x21, 0x64), (0x21, 0x00)]).2 ≠
    packetEvents smallFb (100, 50) [leftFast] := by
  intro heq
  have hx := congrArg (List.map MousePush.x) heq
  have hleft : List.map MousePush.x (packetEvents smallFb (100, 50) [leftFast]) = [0] := by decide
  have hright : List.map MousePush.x
    (middleMouse.interrupts smallFb [(0x21, 0x18), (0x21, 0x64), (0x21, 0x00)]).2 = [199] := by
    decide +kernel
  rw [hleft, hright] at hx
  exact absurd hx (by decide)

end Saynaa
