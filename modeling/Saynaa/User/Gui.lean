import Saynaa.User.WinMan

/-!
# Drawing a window (`libraries/libgui/src/gui.c`)

`render_window` sends the window manager a message about the damaged rectangle. The title, the frame
buffer and the state of the mouse are left out.
-/

namespace Saynaa

open WinMan

/-- What drawing reads of `window_t`: the id that the window manager gave, and the size. -/
structure GuiWindow where
  id : ℕ
  width : ℕ
  height : ℕ

/-- `wm_rect_t`. -/
structure WmRect where
  top : ℤ
  left : ℤ
  bottom : ℤ
  right : ℤ

namespace GuiWindow

variable (win : GuiWindow)

/-- `wm_damage`: the message that is sent, if there is one. Without a rectangle the lower and right edges
are those of the last row and column. -/
def wmDamage (clip : Option WmRect) : Option WmMsg :=
  if win.id = 0 then none
  else
    match clip with
    | some c => some (.damage win.id c.top c.left c.bottom c.right)
    | none => some (.damage win.id 0 0 (i32 (toInt32 win.height - 1)) (i32 (toInt32 win.width - 1)))

def renderWindow : Option WmMsg := win.wmDamage none

end GuiWindow

end Saynaa
