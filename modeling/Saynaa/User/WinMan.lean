import Saynaa.User.Compose

/-!
# The window manager (`userspace/src/wm.c`)

`WinMan` has the globals of the window manager, its back buffer, and two records of what it did:
the pixels that it wrote and the messages and system calls that it made, in their order. The
handlers of client messages, of mouse events and of keys are those of `main`.
-/

namespace Saynaa

def mouseSize : ℤ := 16
def wmTbHeight : ℤ := 30

/-- `wm_ipc_event_t`. -/
structure IpcEvent where
  winId : ℕ
  type : ℕ
  x : ℤ := 0
  y : ℤ := 0
  left : Bool := false
  right : Bool := false
  middle : Bool := false
  keycode : ℕ := 0
  pressed : ℕ := 0
  repr : ℕ := 0

def evMousePress : ℕ := 1
def evMouseRelease : ℕ := 2
def evMouseMove : ℕ := 3
def evMouseEnter : ℕ := 4
def evMouseExit : ℕ := 5
def evGainedFocus : ℕ := 6
def evLostFocus : ℕ := 7
def evKbd : ℕ := 8

/-- What the window manager asks of the kernel. -/
inductive WmCall where
  | event (pid : ℕ) (ev : IpcEvent)
  | createReply (pid reqId winId : ℕ) (x y : ℤ)
  | shmMap (shmId : ℕ)
  | shmClose (shmId : ℕ)

structure WinMan extends Scene where
  nextWinId : ℕ
  left : Bool
  right : Bool
  middle : Bool
  dragDx : ℤ
  dragDy : ℤ
  dragWin : ℕ
  dragging : Bool
  hoverWin : ℕ
  focusWin : ℕ
  back : ℕ → ℕ
  drawn : List PixelOp
  calls : List WmCall

/-- A slot after `memset`. -/
def WmWin.zero : WmWin := ⟨false, 0, 0, 0, 0, 0, 0, 0, none, 0, 0⟩

def WmWin.isBackground (w : WmWin) : Bool := w.flags &&& 1 ≠ 0
def WmWin.isForeground (w : WmWin) : Bool := w.flags &&& 2 ≠ 0
def WmWin.skipsInput (w : WmWin) : Bool := w.flags &&& 4 ≠ 0

def WmWin.isFocusable (w : WmWin) : Bool := ¬ w.skipsInput ∧ ¬ w.isBackground ∧ ¬ w.isForeground

def rectUnion (a b : Rect) : Rect :=
  let x0 := if a.x < b.x then a.x else b.x
  let y0 := if a.y < b.y then a.y else b.y
  let x1a := i32 (a.x + a.w)
  let y1a := i32 (a.y + a.h)
  let x1b := i32 (b.x + b.w)
  let y1b := i32 (b.y + b.h)
  let x1 := if x1a > x1b then x1a else x1b
  let y1 := if y1a > y1b then y1a else y1b
  ⟨x0, y0, i32 (x1 - x0), i32 (y1 - y0)⟩

/-! ### The table of windows -/

/-- `g_wins`. -/
abbrev WinTable := Fin maxWins → WmWin

namespace WinTable

def winById (t : WinTable) (id : ℕ) : Option (Fin maxWins) :=
  (List.finRange maxWins).find? fun i => (t i).inUse ∧ (t i).winId = id

/-- The window at a point, or 0; later slots are on top. -/
def winAt (t : WinTable) (x y : ℤ) : ℕ :=
  (List.finRange maxWins).foldl (fun best i =>
    let w := t i
    if ¬ w.inUse ∨ w.skipsInput then best
    else if x ≥ w.x ∧ x < i32 (w.x + toInt32 w.w) ∧ y ≥ w.y ∧ y < i32 (w.y + toInt32 w.h) then w.winId
    else best) 0

def topmostFocusableWindow (t : WinTable) : Option (Fin maxWins) :=
  (List.finRange maxWins).foldl (fun best i =>
    if (t i).inUse ∧ (t i).isFocusable then some i else best) none

/-- Slot `i` is moved to slot `j`. -/
def move (t : WinTable) (i j : Fin maxWins) : WinTable := Function.update (Function.update t j (t i)) i .zero

/-- The bubbling of `raise_window`: the first slot with the id behind which there is an empty slot or
a foreground window, and the first such slot behind it. -/
def bubble (t : WinTable) (id : ℕ) : Option (Fin maxWins × Fin maxWins) :=
  (List.finRange maxWins).findSome? fun i =>
    if i.val + 1 < maxWins ∧ (t i).inUse ∧ (t i).winId = id then
      ((List.finRange maxWins).find? fun j => i < j ∧ (¬ (t j).inUse ∨ (t j).isForeground)).map fun j => (i, j)
    else none

def raiseWindow (t : WinTable) (id : ℕ) : WinTable :=
  if id = 0 then t
  else
    match t.winById id with
    | none => t
    | some k =>
      if (t k).isBackground then t
      else if (t k).isForeground then t
      else
        match t.bubble id with
        | none => t
        | some (i, j) =>
          if ¬ (t j).inUse then t.move i j
          else
            -- insert before the first foreground window by swapping
            let j' : Fin maxWins := ⟨j - 1, by omega⟩
            Function.update (Function.update t j' (t i)) i (t j')

/-- A new foreground window goes to the last free slot. -/
def moveToEnd (t : WinTable) (id : ℕ) : WinTable :=
  match (List.finRange maxWins).find? fun i => i.val + 1 < maxWins ∧ (t i).inUse ∧ (t i).winId = id with
  | none => t
  | some i =>
    match (List.finRange maxWins).reverse.find? fun j => i < j ∧ ¬ (t j).inUse with
    | none => t
    | some j => t.move i j

end WinTable

namespace WinMan

open WinTable

variable (s : WinMan)

def draw (ops : List PixelOp) : WinMan := { s with back := paint ops s.back, drawn := s.drawn ++ ops }

/-- `composite_full` on the back buffer. -/
def redraw : WinMan := s.draw (compositeFull s.toScene)

/-- `composite_rect` on the back buffer. -/
def redrawRect (r : Rect) : WinMan := s.draw (compositeRect s.toScene r)

def call (c : WmCall) : WinMan := { s with calls := s.calls ++ [c] }

def sendEventTo (pid : ℕ) (ev : IpcEvent) : WinMan := if pid = 0 then s else s.call (.event pid ev)

/-- An event about a window, sent to its owner if the window exists. -/
def tell (id : ℕ) (ev : WmWin → IpcEvent) : WinMan :=
  match winById s.wins id with
  | none => s
  | some i => s.sendEventTo (s.wins i).ownerPid (ev (s.wins i))

/-- An event without data. -/
def notify (id type : ℕ) : WinMan := s.tell id fun w => { winId := w.winId, type := type }

def updateFocus (newFocus : ℕ) : WinMan :=
  if newFocus = s.focusWin then s
  else
    let s := s.notify s.focusWin evLostFocus
    let s := { s with focusWin := newFocus }
    s.notify s.focusWin evGainedFocus

def handleMouseEvent : WinMan :=
  let under := winAt s.wins s.mx s.my
  let s :=
    if under ≠ s.hoverWin then
      let s := if s.hoverWin ≠ 0 then s.notify s.hoverWin evMouseExit else s
      let s :=
        if under ≠ 0 then
          s.tell under fun w =>
            { winId := w.winId, type := evMouseEnter, x := i32 (s.mx - w.x), y := i32 (s.my - w.y) }
        else s
      { s with hoverWin := under }
    else s
  if under ≠ 0 then
    s.tell under fun w =>
      { winId := w.winId, type := evMouseMove, x := i32 (s.mx - w.x), y := i32 (s.my - w.y)
        left := s.left, right := s.right, middle := s.middle }
  else s

/-! ### Messages of clients -/

/-- `wm_ipc_create_t`. -/
structure CreateMsg where
  reqId : ℕ
  width : ℕ
  height : ℕ
  flags : ℕ
  shmId : ℕ
  width_lt : width < 2 ^ 32
  height_lt : height < 2 ^ 32

/-- Where a new window appears. -/
def newPos (id flags : ℕ) : ℤ × ℤ :=
  if flags &&& 1 ≠ 0 ∨ flags &&& 2 ≠ 0 then (0, 0)
  else (10 + ((id * 24 % 2 ^ 32 % 200 : ℕ) : ℤ), 40 + ((id * 18 % 2 ^ 32 % 140 : ℕ) : ℤ))

/-- The next window id, which is not 0, and the one after it. -/
def nextIds : ℕ × ℕ :=
  let id := s.nextWinId
  if id = 0 then (add32 id 1, add32 (add32 id 1) 1) else (id, add32 id 1)

/-- The record of a new window. -/
def newWin (src : ℕ) (c : CreateMsg) (buf : Buffer) : WmWin :=
  { inUse := true, winId := s.nextIds.1, ownerPid := src, flags := c.flags, w := c.width, h := c.height
    pitchPx := c.width, shmId := c.shmId, buf := some buf
    x := (newPos s.nextIds.1 c.flags).1, y := (newPos s.nextIds.1 c.flags).2 }

/-- `WM_MSG_CREATE` from `src`; `mapped` is what `SYS_SHM_MAP` returns. -/
def onCreate (src : ℕ) (c : CreateMsg) (mapped : Option Buffer) : WinMan :=
  match (List.finRange maxWins).find? fun i => ¬ (s.wins i).inUse with
  | none => s.call (.createReply src c.reqId 0 0 0)
  | some slot =>
    let s := s.call (.shmMap c.shmId)
    match mapped with
    | none => s.call (.createReply src c.reqId 0 0 0)
    | some buf =>
      let win := s.newWin src c buf
      let id := win.winId
      let s := { s with nextWinId := s.nextIds.2, wins := Function.update s.wins slot win }
      let s := if win.isForeground then { s with wins := moveToEnd s.wins id } else s
      let s := s.call (.createReply src c.reqId id win.x win.y)
      let s := { s with wins := raiseWindow s.wins id }
      let s :=
        match winById s.wins id with
        | none => s
        | some i => if (s.wins i).isFocusable then s.updateFocus id else s
      s.redraw

/-- `WM_MSG_CLOSE` from `src`. -/
def onClose (src winId : ℕ) : WinMan :=
  match winById s.wins winId with
  | none => s
  | some i =>
    if (s.wins i).ownerPid ≠ src then s
    else
      let wasFocused := s.focusWin = winId
      let s := if wasFocused then s.updateFocus 0 else s
      let s := s.call (.shmClose (s.wins i).shmId)
      let s := { s with wins := Function.update s.wins i .zero }
      let s := if s.hoverWin = winId then { s with hoverWin := 0 } else s
      let s := if s.dragWin = winId then { s with dragWin := 0, dragging := false } else s
      let s :=
        if wasFocused then
          match topmostFocusableWindow s.wins with
          | none => s.updateFocus 0
          | some j => s.updateFocus (s.wins j).winId
        else s
      s.redraw

/-- The rectangle of a damage message, with 32-bit edges. -/
def damageRect (w : WmWin) (top left bottom right : ℤ) : Rect :=
  let x0 := i32 (w.x + left)
  let y0 := i32 (w.y + top)
  let x1 := i32 (w.x + right)
  let y1 := i32 (w.y + bottom)
  ⟨x0, y0, i32 (x1 - x0), i32 (y1 - y0)⟩

/-- `WM_MSG_DAMAGE`. -/
def onDamage (winId : ℕ) (top left bottom right : ℤ) : WinMan :=
  match winById s.wins winId with
  | none => s
  | some i => s.redrawRect (damageRect (s.wins i) top left bottom right)

/-- A message of a client; for `create` with what `SYS_SHM_MAP` returns. -/
inductive WmMsg where
  | create (c : CreateMsg) (mapped : Option Buffer)
  | close (winId : ℕ)
  | damage (winId : ℕ) (top left bottom right : ℤ)

def onMsg (src : ℕ) : WmMsg → WinMan
  | .create c mapped => s.onCreate src c mapped
  | .close winId => s.onClose src winId
  | .damage winId top left bottom right => s.onDamage winId top left bottom right

/-- The state in which `main` begins to receive. -/
def start (screen : Screen) (back : ℕ → ℕ) : WinMan := redraw
  { screen := screen, wins := fun _ => .zero, mx := toInt32 screen.w / 2, my := toInt32 screen.h / 2
    nextWinId := 1, left := false, right := false, middle := false, dragDx := 0, dragDy := 0, dragWin := 0
    dragging := false, hoverWin := 0, focusWin := 0, back := back, drawn := [], calls := [] }

/-! ### The mouse -/

/-- `mouse_event_t`. -/
structure MouseEvent where
  x : ℤ
  y : ℤ
  buttons : ℕ

/-- The left button goes down. -/
def press : WinMan :=
  let under := winAt s.wins s.mx s.my
  let s :=
    if under ≠ 0 then
      let s := { s with wins := raiseWindow s.wins under }
      match winById s.wins under with
      | none => s
      | some i =>
        let w := s.wins i
        let s := if w.isFocusable then s.updateFocus under else s
        let lx := i32 (s.mx - w.x)
        let ly := i32 (s.my - w.y)
        -- drag only in the title bar of a window that is not in the foreground
        let s :=
          if ¬ w.isForeground ∧ ly ≥ 0 ∧ ly < wmTbHeight then
            { s with dragging := true, dragWin := under, dragDx := lx, dragDy := ly }
          else s
        s.sendEventTo w.ownerPid
          { winId := w.winId, type := evMousePress, x := lx, y := ly
            left := s.left, right := s.right, middle := s.middle }
    else s
  s.redraw

/-- A coordinate of a dragged window, kept on the screen. -/
def clampTo (n size w : ℤ) : ℤ :=
  let n := if n < 0 then 0 else n
  let top := i32 (size - w)
  let top := if top < 0 then 0 else top
  if n > top then top else n

/-- The dragged window follows the mouse; the flag says whether anything was drawn. -/
def drag (oldx oldy : ℤ) : WinMan × Bool :=
  match winById s.wins s.dragWin with
  | none => (s, false)
  | some i =>
    let w := s.wins i
    let nx := clampTo (i32 (s.mx - s.dragDx)) (toInt32 s.screen.w) (toInt32 w.w)
    let ny := clampTo (i32 (s.my - s.dragDy)) (toInt32 s.screen.h) (toInt32 w.h)
    if nx ≠ w.x ∨ ny ≠ w.y then
      let s := { s with wins := Function.update s.wins i { w with x := nx, y := ny } }
      let dirty := rectUnion ⟨w.x, w.y, toInt32 w.w, toInt32 w.h⟩ ⟨nx, ny, toInt32 w.w, toInt32 w.h⟩
      let dirty := rectUnion dirty
        (rectUnion ⟨oldx, oldy, mouseSize, mouseSize⟩ ⟨s.mx, s.my, mouseSize, mouseSize⟩)
      (s.redrawRect dirty, true)
    else (s, false)

/-- The left button goes up. -/
def release : WinMan :=
  let s := if s.dragging then { s with dragging := false, dragWin := 0 } else s
  let under := winAt s.wins s.mx s.my
  let s :=
    if under ≠ 0 then
      s.tell under fun w =>
        { winId := w.winId, type := evMouseRelease, x := i32 (s.mx - w.x), y := i32 (s.my - w.y)
          left := s.left, right := s.right, middle := s.middle }
    else s
  s.redraw

/-- A mouse event. -/
def onMouse (ev : MouseEvent) : WinMan :=
  let oldx := s.mx
  let oldy := s.my
  let oldLeft := s.left
  let s : WinMan :=
    { s with
      mx := ev.x, my := ev.y
      left := ev.buttons &&& 1 ≠ 0, right := ev.buttons &&& 2 ≠ 0, middle := ev.buttons &&& 4 ≠ 0 }
  let moved : Bool := oldx ≠ s.mx ∨ oldy ≠ s.my
  let leftDown := !oldLeft && s.left
  let leftUp := oldLeft && !s.left
  let (s, didRedraw) := if leftDown then (s.press, true) else (s, false)
  let (s, didRedraw) :=
    if s.dragging ∧ s.dragWin ≠ 0 ∧ s.left ∧ moved then
      let (s, drawn) := s.drag oldx oldy
      (s, didRedraw || drawn)
    else (s, didRedraw)
  let (s, didRedraw) := if leftUp then (s.release, true) else (s, didRedraw)
  if moved then
    let s := s.handleMouseEvent
    if didRedraw then s
    else
      s.redrawRect (rectUnion ⟨oldx, oldy, mouseSize, mouseSize⟩ ⟨s.mx, s.my, mouseSize, mouseSize⟩)
  else s

/-! ### The keyboard -/

/-- `kbd_event_t`. -/
structure KbdEvent where
  keycode : ℕ
  pressed : ℕ
  repr : ℕ

/-- The window that gets a key. Without a focused window the focus goes to the window under the mouse, or else to
the topmost normal window. -/
def recoverFocus : WinMan × Option (Fin maxWins) :=
  let fw := winById s.wins s.focusWin
  if fw.any fun i => (s.wins i).isFocusable then (s, fw)
  else
    let under := winAt s.wins s.mx s.my
    let uw := if under ≠ 0 then winById s.wins under else none
    match uw.filter fun i => (s.wins i).isFocusable with
    | some i => (s.updateFocus (s.wins i).winId, some i)
    | none =>
      match topmostFocusableWindow s.wins with
      | some i => (s.updateFocus (s.wins i).winId, some i)
      | none => (s, fw)

/-- An event of `/dev/kbd0`. -/
def onKey (ev : KbdEvent) : WinMan :=
  let (s, fw) := s.recoverFocus
  match fw with
  | none => s
  | some i =>
    s.sendEventTo (s.wins i).ownerPid
      { winId := (s.wins i).winId, type := evKbd, keycode := ev.keycode, pressed := ev.pressed, repr := ev.repr }

/-! ### The main loop -/

/-- What `main` receives. -/
inductive WmInput where
  | msg (src : ℕ) (m : WmMsg)
  | mouse (ev : MouseEvent)
  | key (ev : KbdEvent)

def handle : WmInput → WinMan
  | .msg src m => s.onMsg src m
  | .mouse ev => s.onMouse ev
  | .key ev => s.onKey ev

end WinMan

end Saynaa
