import Picomimi.Lib.Checked
import Picomimi.Lib.Run
import Picomimi.Lib.Word
/-!
# Terminal — the terminal emulator of `drivers/tty/terminal.c`

Every access to an array of the terminal, or to video memory, is checked, and a function that makes one out of bounds has no
result.  An `int` is an integer; where an escape parameter or an argument of a caller enters a sum, the sum wraps (`cInt`).
-/
namespace Pico
namespace Terminal

open Lib

def TERM_WIDTH : Int := 80
def TERM_HEIGHT : Int := 25
def TERM_SCROLLBACK : Int := 1000
def TERM_TAB_WIDTH : Int := 8
def MAX_ESC_PARAMS : Int := 16

def COLOR_BLACK : UInt8 := 0
def COLOR_BLUE : UInt8 := 1
def COLOR_GREEN : UInt8 := 2
def COLOR_CYAN : UInt8 := 3
def COLOR_RED : UInt8 := 4
def COLOR_MAGENTA : UInt8 := 5
def COLOR_BROWN : UInt8 := 6
def COLOR_LIGHT_GRAY : UInt8 := 7
def COLOR_DARK_GRAY : UInt8 := 8
def COLOR_LIGHT_BLUE : UInt8 := 9
def COLOR_LIGHT_GREEN : UInt8 := 10
def COLOR_LIGHT_CYAN : UInt8 := 11
def COLOR_LIGHT_RED : UInt8 := 12
def COLOR_LIGHT_MAGENTA : UInt8 := 13
def COLOR_YELLOW : UInt8 := 14
def COLOR_WHITE : UInt8 := 15

def ATTR_BOLD : UInt8 := 1
def ATTR_DIM : UInt8 := 2
def ATTR_UNDERLINE : UInt8 := 4
def ATTR_BLINK : UInt8 := 8
def ATTR_REVERSE : UInt8 := 16
def ATTR_HIDDEN : UInt8 := 32

/-- `term_cell_t`. -/
structure Cell where
  c : UInt8
  fg : UInt8
  bg : UInt8
  attr : UInt8

/-- `parse_state_t`. -/
inductive ParseState
  | normal | esc | csi | csiParam | osc | charset
  deriving DecidableEq

/-- The fields of `terminal_t` that steer it. -/
structure Control where
  scrollbackLines : Int
  scrollbackPos : Int
  scrollbackWrite : Int
  cursorX : Int
  cursorY : Int
  savedCursorX : Int
  savedCursorY : Int
  cursorVisible : Bool
  fgColor : UInt8
  bgColor : UInt8
  attr : UInt8
  defaultFg : UInt8
  defaultBg : UInt8
  state : ParseState
  escParams : Int → Int
  escParamCount : Int
  escIntermediateCount : Int
  escPrivate : Bool
  originMode : Bool
  autowrap : Bool
  insertMode : Bool
  linefeedMode : Bool
  cursorKeysApp : Bool
  scrollTop : Int
  scrollBottom : Int
  charsWritten : UInt64
  escapesProcessed : UInt64

/-- `terminal_t` with the video memory; `vgaCursor` and `vgaShape` are what the cursor registers were given last. -/
structure Term extends Control where
  screen : Int → Int → Cell
  scrollback : Option (Int → Cell)
  tabs : Int → UInt8
  vgaBuffer : Int → UInt16
  vgaCursor : UInt16
  vgaShape : Option (UInt8 × UInt8)

/-! ### The arrays -/

/-- Inside an array of `n`. -/
def Within (i n : Int) : Prop := 0 ≤ i ∧ i < n

instance (i n : Int) : Decidable (Within i n) := instDecidableAnd

/-- `screen[y][x]`, read. -/
def Term.cell (t : Term) (y x : Int) : Option Cell :=
  if Within y TERM_HEIGHT ∧ Within x TERM_WIDTH then some (t.screen y x) else none

/-- `screen[y][x]`, written. -/
def Term.setCell (t : Term) (y x : Int) (cell : Cell) : Option Term :=
  if Within y TERM_HEIGHT ∧ Within x TERM_WIDTH then
    some { t with screen := fun y' x' => if y' = y ∧ x' = x then cell else t.screen y' x' }
  else none

/-- `memcpy` of row `src` of the screen to row `dst`. -/
def Term.copyRow (t : Term) (dst src : Int) : Option Term :=
  if Within dst TERM_HEIGHT ∧ Within src TERM_HEIGHT then
    some { t with screen := fun y x => if y = dst then t.screen src x else t.screen y x }
  else none

/-- `scrollback[i]`, read. -/
def scrollbackCell (sb : Int → Cell) (i : Int) : Option Cell :=
  if Within i (TERM_WIDTH * TERM_SCROLLBACK) then some (sb i) else none

/-- `scrollback[i]`, written. -/
def Term.setScrollback (t : Term) (i : Int) (cell : Cell) : Option Term :=
  match t.scrollback with
  | none => none
  | some sb =>
    if Within i (TERM_WIDTH * TERM_SCROLLBACK) then some { t with scrollback := some fun j => if j = i then cell else sb j }
    else none

/-- `tabs[x]`, read. -/
def Term.tab (t : Term) (x : Int) : Option UInt8 := if Within x TERM_WIDTH then some (t.tabs x) else none

/-- `tabs[x] = 1`. -/
def Term.setTab (t : Term) (x : Int) : Option Term :=
  if Within x TERM_WIDTH then some { t with tabs := fun x' => if x' = x then 1 else t.tabs x' } else none

/-- `esc_params[i]`, read. -/
def Term.escParam (t : Term) (i : Int) : Option Int := if Within i MAX_ESC_PARAMS then some (t.escParams i) else none

/-- `esc_params[i]`, written. -/
def Term.setEscParam (t : Term) (i v : Int) : Option Term :=
  if Within i MAX_ESC_PARAMS then some { t with escParams := fun j => if j = i then v else t.escParams j } else none

/-- `vga_buffer[i]`, written. -/
def Term.setVga (t : Term) (i : Int) (v : UInt16) : Option Term :=
  if Within i (TERM_HEIGHT * TERM_WIDTH) then some { t with vgaBuffer := fun j => if j = i then v else t.vgaBuffer j }
  else none

/-! ### Rendering -/

/-- `vga_entry_color`. -/
def vgaEntryColor (fg bg : UInt8) : UInt8 := fg ||| (bg <<< 4)

/-- `vga_entry`. -/
def vgaEntry (c color : UInt8) : UInt16 := c.toUInt16 ||| (color.toUInt16 <<< 8)

/-- `vga_set_cursor`. -/
def vgaSetCursor (t : Term) (x y : Int) : Term := { t with vgaCursor := UInt16.ofInt (y * TERM_WIDTH + x) }

/-- `if (term->cursor_visible) vga_set_cursor(x, y);`. -/
def showCursor (t : Term) (x y : Int) : Term := if t.cursorVisible then vgaSetCursor t x y else t

/-- `term_render_cell`. -/
def termRenderCell (t : Term) (x y : Int) : Option Term := do
  let cell ← t.cell y x
  let fg := cell.fg
  let bg := cell.bg
  let fg := if cell.attr &&& ATTR_BOLD ≠ 0 then fg ||| 0x08 else fg
  let (fg, bg) := if cell.attr &&& ATTR_REVERSE ≠ 0 then (bg, fg) else (fg, bg)
  let fg := if cell.attr &&& ATTR_HIDDEN ≠ 0 then bg else fg
  let color := vgaEntryColor fg bg
  t.setVga (y * TERM_WIDTH + x) (vgaEntry (if cell.c ≠ 0 then cell.c else 32) color)

/-- `term_render_line`. -/
def termRenderLine (t : Term) (y : Int) : Option Term := forRange 0 TERM_WIDTH (fun x t => termRenderCell t x y) t

/-- `term_render_screen`. -/
def termRenderScreen (t : Term) : Option Term := do
  let t ← forRange 0 TERM_HEIGHT (fun y t => forRange 0 TERM_WIDTH (fun x t => termRenderCell t x y) t) t
  some (showCursor t t.cursorX t.cursorY)

/-- A row from column `a` up to `b`, filled with one cell. -/
def fillRow (t : Term) (y a b : Int) (cell : Term → Cell) : Option Term :=
  forRange a b (fun x t => t.setCell y x (cell t)) t

/-- A blank in the default colours. -/
def defaultBlank (t : Term) : Cell := ⟨32, t.defaultFg, t.defaultBg, 0⟩

/-- A blank in the colours of the moment. -/
def colourBlank (t : Term) : Cell := ⟨32, t.fgColor, t.bgColor, 0⟩

/-! ### Scrolling -/

/-- `term_save_line_to_scrollback`. -/
def termSaveLineToScrollback (t : Term) (y : Int) : Option Term :=
  if t.scrollback.isNone then some t
  else do
    let sbIdx := t.scrollbackWrite * TERM_WIDTH
    let t ← forRange 0 TERM_WIDTH (fun x t => do
      let cell ← t.cell y x
      t.setScrollback (sbIdx + x) cell) t
    let t := { t with scrollbackWrite := (t.scrollbackWrite + 1).tmod TERM_SCROLLBACK }
    some (if t.scrollbackLines < TERM_SCROLLBACK then { t with scrollbackLines := t.scrollbackLines + 1 } else t)

/-- `term_scroll_up`. -/
def termScrollUp (t : Term) (top bottom lines : Int) : Option Term :=
  if lines ≤ 0 then some t
  else do
    let lines := if bottom - top + 1 < lines then bottom - top + 1 else lines
    let t ← (if top = t.scrollTop then forRange 0 lines (fun i t => termSaveLineToScrollback t (top + i)) t else some t)
    let t ← forRange top (bottom - lines + 1) (fun y t => t.copyRow y (y + lines)) t
    let t ← forRange (bottom - lines + 1) (bottom + 1) (fun y t => fillRow t y 0 TERM_WIDTH defaultBlank) t
    forRange top (bottom + 1) (fun y t => termRenderLine t y) t

/-- `term_scroll_down`. -/
def termScrollDown (t : Term) (top bottom lines : Int) : Option Term :=
  if lines ≤ 0 then some t
  else do
    let lines := if bottom - top + 1 < lines then bottom - top + 1 else lines
    let t ← forRangeDown bottom (top + lines) (fun y t => t.copyRow y (y - lines)) t
    let t ← forRange top (top + lines) (fun y t => fillRow t y 0 TERM_WIDTH defaultBlank) t
    forRange top (bottom + 1) (fun y t => termRenderLine t y) t

/-- `term_scroll_view`. -/
def termScrollView (t : Term) (lines : Int) : Option Term :=
  match t.scrollback with
  | none => some t
  | some sb =>
    let pos := cInt (t.scrollbackPos + lines)
    let pos := if pos < 0 then 0 else pos
    let pos := if t.scrollbackLines < pos then t.scrollbackLines else pos
    let t := { t with scrollbackPos := pos }
    if 0 < pos then
      let sbStart := (t.scrollbackWrite - pos + TERM_SCROLLBACK).tmod TERM_SCROLLBACK
      forRange 0 TERM_HEIGHT (fun y t =>
        let sbIdx := (sbStart + y).tmod TERM_SCROLLBACK * TERM_WIDTH
        if y < pos then
          forRange 0 TERM_WIDTH (fun x t => do
            let cell ← scrollbackCell sb (sbIdx + x)
            let color := vgaEntryColor cell.fg cell.bg
            t.setVga (y * TERM_WIDTH + x) (vgaEntry (if cell.c ≠ 0 then cell.c else 32) color)) t
        else termRenderLine t y) t
    else termRenderScreen t

/-! ### The cursor -/

/-- `term_move_cursor`. -/
def termMoveCursor (t : Term) (x y : Int) : Term :=
  let x := if x < 0 then 0 else x
  let x := if TERM_WIDTH ≤ x then TERM_WIDTH - 1 else x
  let top := if t.originMode then t.scrollTop else 0
  let bottom := if t.originMode then t.scrollBottom else TERM_HEIGHT - 1
  let y := if y < top then top else y
  let y := if bottom < y then bottom else y
  showCursor { t with cursorX := x, cursorY := y } x y

/-- `term_newline`. -/
def termNewline (t : Term) : Option Term := do
  let t ← (if t.scrollBottom ≤ t.cursorY then termScrollUp t t.scrollTop t.scrollBottom 1
    else some { t with cursorY := t.cursorY + 1 })
  let t := if t.linefeedMode then { t with cursorX := 0 } else t
  some (showCursor t t.cursorX t.cursorY)

/-! ### Escape sequences -/

/-- `term_get_param`. -/
def termGetParam (t : Term) (idx deflt : Int) : Option Int :=
  if t.escParamCount ≤ idx then some deflt
  else do
    let p ← t.escParam idx
    some (if p = 0 then deflt else p)

/-- The colours of 30 to 37, and of 40 to 47. -/
def sgrColors : List UInt8 :=
  [COLOR_BLACK, COLOR_RED, COLOR_GREEN, COLOR_BROWN, COLOR_BLUE, COLOR_MAGENTA, COLOR_CYAN, COLOR_LIGHT_GRAY]

/-- The colours of 90 to 97, and of 100 to 107. -/
def sgrBright : List UInt8 :=
  [COLOR_DARK_GRAY, COLOR_LIGHT_RED, COLOR_LIGHT_GREEN, COLOR_YELLOW, COLOR_LIGHT_BLUE, COLOR_LIGHT_MAGENTA,
    COLOR_LIGHT_CYAN, COLOR_WHITE]

/-- The colours and the attributes of the characters to come. -/
structure Pen where
  fg : UInt8
  bg : UInt8
  attr : UInt8

def Control.pen (t : Control) : Pen := ⟨t.fgColor, t.bgColor, t.attr⟩

def Term.setPen (t : Term) (pen : Pen) : Term := { t with fgColor := pen.fg, bgColor := pen.bg, attr := pen.attr }

/-- `case 38:` and `case 48:`, with what the colour is for: the pen and the loop variable afterwards. -/
def sgrExtended (t : Term) (i : Int) (set : Pen → UInt8 → Pen) : Option (Pen × Int) :=
  if i + 2 < t.escParamCount then do
    let kind ← t.escParam (i + 1)
    if kind = 5 then
      let color ← t.escParam (i + 2)
      some (if color < 16 then set t.pen (UInt8.ofInt color) else t.pen, i + 2)
    else some (t.pen, i)
  else some (t.pen, i)

/-- The `switch` of `term_csi_sgr`, apart from 38 and 48. -/
def sgrSwitch (t : Control) (param : Int) : Pen :=
  let pen := t.pen
  if param = 0 then ⟨t.defaultFg, t.defaultBg, 0⟩
  else if param = 1 then { pen with attr := t.attr ||| ATTR_BOLD }
  else if param = 2 then { pen with attr := t.attr ||| ATTR_DIM }
  else if param = 4 then { pen with attr := t.attr ||| ATTR_UNDERLINE }
  else if param = 5 then { pen with attr := t.attr ||| ATTR_BLINK }
  else if param = 7 then { pen with attr := t.attr ||| ATTR_REVERSE }
  else if param = 8 then { pen with attr := t.attr ||| ATTR_HIDDEN }
  else if param = 21 ∨ param = 22 then { pen with attr := t.attr &&& ~~~(ATTR_BOLD ||| ATTR_DIM) }
  else if param = 24 then { pen with attr := t.attr &&& ~~~ATTR_UNDERLINE }
  else if param = 25 then { pen with attr := t.attr &&& ~~~ATTR_BLINK }
  else if param = 27 then { pen with attr := t.attr &&& ~~~ATTR_REVERSE }
  else if param = 28 then { pen with attr := t.attr &&& ~~~ATTR_HIDDEN }
  else if 30 ≤ param ∧ param ≤ 37 then { pen with fg := sgrColors.getD (param - 30).toNat 0 }
  else if param = 39 then { pen with fg := t.defaultFg }
  else if 40 ≤ param ∧ param ≤ 47 then { pen with bg := sgrColors.getD (param - 40).toNat 0 }
  else if param = 49 then { pen with bg := t.defaultBg }
  else if 90 ≤ param ∧ param ≤ 97 then { pen with fg := sgrBright.getD (param - 90).toNat 0 }
  else if 100 ≤ param ∧ param ≤ 107 then { pen with bg := sgrBright.getD (param - 100).toNat 0 }
  else pen

/-- The loop of `term_csi_sgr` from `i`, in at most `fuel` turns. -/
def sgrLoop : Nat → Int → Term → Option Term
  | 0, _, _ => none
  | fuel + 1, i, t =>
    if i < t.escParamCount ∨ i = 0 then do
      let param ← termGetParam t i 0
      let (pen, i) ← (if param = 38 then sgrExtended t i fun pen color => { pen with fg := color }
        else if param = 48 then sgrExtended t i fun pen color => { pen with bg := color }
        else some (sgrSwitch t.toControl param, i))
      sgrLoop fuel (i + 1) (t.setPen pen)
    else some t

/-- `term_csi_sgr`: a turn for each parameter, and one where there is none. -/
def termCsiSgr (t : Term) : Option Term := sgrLoop (t.escParamCount.toNat + 2) 0 t

/-- `case 'J':`. -/
def csiEraseDisplay (t : Term) : Option Term := do
  let mode ← termGetParam t 0 0
  let eraseLines (startY endY : Int) (t : Term) : Option Term := do
    let t ← forRange startY endY (fun y t => fillRow t y 0 TERM_WIDTH colourBlank) t
    termRenderScreen t
  if mode = 0 then
    let t ← fillRow t t.cursorY t.cursorX TERM_WIDTH colourBlank
    eraseLines (t.cursorY + 1) TERM_HEIGHT t
  else if mode = 1 then
    let endY := t.cursorY
    let t ← fillRow t t.cursorY 0 (t.cursorX + 1) colourBlank
    eraseLines 0 endY t
  else if mode = 2 then eraseLines 0 TERM_HEIGHT t
  else if mode = 3 then eraseLines 0 TERM_HEIGHT { t with scrollbackLines := 0, scrollbackWrite := 0 }
  else some t

/-- `case 'K':`. -/
def csiEraseLine (t : Term) : Option Term := do
  let mode ← termGetParam t 0 0
  let erase (startX endX : Int) : Option Term := do
    let t ← fillRow t t.cursorY startX endX colourBlank
    termRenderLine t t.cursorY
  if mode = 0 then erase t.cursorX TERM_WIDTH
  else if mode = 1 then erase 0 (t.cursorX + 1)
  else if mode = 2 then erase 0 TERM_WIDTH
  else some t

/-- `case 'r':`. -/
def csiMargins (t : Term) : Option Term := do
  let p ← termGetParam t 0 1
  let q ← termGetParam t 1 TERM_HEIGHT
  let top := cInt (p - 1)
  let bottom := cInt (q - 1)
  let top := if top < 0 then 0 else top
  let bottom := if TERM_HEIGHT ≤ bottom then TERM_HEIGHT - 1 else bottom
  if top < bottom then
    let t := { t with scrollTop := top, scrollBottom := bottom }
    some (termMoveCursor t 0 (if t.originMode then top else 0))
  else some t

/-- `case 'h':` and `case 'l':`. -/
def csiMode (t : Term) (p1 : Int) (set : Bool) : Term :=
  if t.escPrivate then
    if p1 = 1 then { t with cursorKeysApp := set }
    else if p1 = 6 then
      let t := { t with originMode := set }
      termMoveCursor t 0 (if set then t.scrollTop else 0)
    else if p1 = 7 then { t with autowrap := set }
    else if p1 = 25 then
      let t := { t with cursorVisible := set }
      if set then vgaSetCursor { t with vgaShape := some (14, 15) } t.cursorX t.cursorY else { t with vgaShape := none }
    else t
  else if p1 = 4 then { t with insertMode := set }
  else if p1 = 20 then { t with linefeedMode := set }
  else t

def ord (c : Char) : UInt8 := c.toUInt8

/-- The `switch` of `term_handle_csi`. -/
def csiSwitch (t : Term) (p1 p2 : Int) (final : UInt8) : Option Term :=
  if final = ord 'A' then some (termMoveCursor t t.cursorX (cInt (t.cursorY - p1)))
  else if final = ord 'B' then some (termMoveCursor t t.cursorX (cInt (t.cursorY + p1)))
  else if final = ord 'C' then some (termMoveCursor t (cInt (t.cursorX + p1)) t.cursorY)
  else if final = ord 'D' then some (termMoveCursor t (cInt (t.cursorX - p1)) t.cursorY)
  else if final = ord 'E' then some (termMoveCursor t 0 (cInt (t.cursorY + p1)))
  else if final = ord 'F' then some (termMoveCursor t 0 (cInt (t.cursorY - p1)))
  else if final = ord 'G' then some (termMoveCursor t (cInt (p1 - 1)) t.cursorY)
  else if final = ord 'H' ∨ final = ord 'f' then some (termMoveCursor t (cInt (p2 - 1)) (cInt (p1 - 1)))
  else if final = ord 'J' then csiEraseDisplay t
  else if final = ord 'K' then csiEraseLine t
  else if final = ord 'L' then termScrollDown t t.cursorY t.scrollBottom p1
  else if final = ord 'M' then termScrollUp t t.cursorY t.scrollBottom p1
  else if final = ord 'S' then termScrollUp t t.scrollTop t.scrollBottom p1
  else if final = ord 'T' then termScrollDown t t.scrollTop t.scrollBottom p1
  else if final = ord 'd' then some (termMoveCursor t t.cursorX (cInt (p1 - 1)))
  else if final = ord 'm' then termCsiSgr t
  else if final = ord 'n' then do
    let _ ← termGetParam t 0 0
    some t
  else if final = ord 'r' then csiMargins t
  else if final = ord 's' then some { t with savedCursorX := t.cursorX, savedCursorY := t.cursorY }
  else if final = ord 'u' then some (termMoveCursor t t.savedCursorX t.savedCursorY)
  else if final = ord 'h' ∨ final = ord 'l' then some (csiMode t p1 (final = ord 'h'))
  else some t

/-- `term_handle_csi`. -/
def termHandleCsi (t : Term) (final : UInt8) : Option Term := do
  let p1 ← termGetParam t 0 1
  let p2 ← termGetParam t 1 1
  csiSwitch { t with escapesProcessed := t.escapesProcessed + 1 } p1 p2 final

/-! ### Character output -/

/-- `while (next_tab < TERM_WIDTH && !term->tabs[next_tab]) next_tab++;`, with the columns that are left. -/
def nextTab (t : Term) : Nat → Int → Option Int
  | 0, x => some x
  | n + 1, x => do
    let stop ← t.tab x
    if stop = 0 then nextTab t n (x + 1) else some x

/-- The rest of `term_putchar_internal`: a regular character. -/
def termPrint (t : Term) (c : UInt8) : Option Term := do
  let t ← (if t.insertMode then
      forRangeDown (TERM_WIDTH - 1) (t.cursorX + 1) (fun x t => do
        let cell ← t.cell t.cursorY (x - 1)
        t.setCell t.cursorY x cell) t
    else some t)
  let t ← t.setCell t.cursorY t.cursorX ⟨c, t.fgColor, t.bgColor, t.attr⟩
  let t ← termRenderCell t t.cursorX t.cursorY
  let t := { t with cursorX := t.cursorX + 1, charsWritten := t.charsWritten + 1 }
  let t ← (if TERM_WIDTH ≤ t.cursorX then
      if t.autowrap then termNewline { t with cursorX := 0 } else some { t with cursorX := TERM_WIDTH - 1 }
    else some t)
  some (showCursor t t.cursorX t.cursorY)

/-- `term_putchar_internal`. -/
def termPutcharInternal (t : Term) (c : UInt8) : Option Term :=
  if c = 0 then some t
  else if c = 7 then some t
  else if c = 8 then some (if 0 < t.cursorX then { t with cursorX := t.cursorX - 1 } else t)
  else if c = 9 then do
    let next ← nextTab t (TERM_WIDTH - (t.cursorX + 1)).toNat (t.cursorX + 1)
    some { t with cursorX := if next < TERM_WIDTH then next else TERM_WIDTH - 1 }
  else if c = 10 then termNewline t
  else if c = 13 then some { t with cursorX := 0 }
  else if c = 0x1b then
    some { t with state := .esc, escParamCount := 0, escIntermediateCount := 0, escPrivate := false, escParams := fun _ => 0 }
  else termPrint t c

/-- `case STATE_ESC:` of `term_putchar`. -/
def putEsc (t : Term) (c : UInt8) : Option Term :=
  if c = ord '[' then some { t with state := .csi }
  else if c = ord ']' then some { t with state := .osc }
  else if c = ord '(' ∨ c = ord ')' ∨ c = ord '*' ∨ c = ord '+' then some { t with state := .charset }
  else if c = ord '7' then some { t with savedCursorX := t.cursorX, savedCursorY := t.cursorY, state := .normal }
  else if c = ord '8' then some { termMoveCursor t t.savedCursorX t.savedCursorY with state := .normal }
  else if c = ord 'D' then do
    let t ← termNewline t
    some { t with state := .normal }
  else if c = ord 'E' then do
    let t ← termNewline { t with cursorX := 0 }
    some { t with state := .normal }
  else if c = ord 'M' then do
    let t ← (if t.cursorY ≤ t.scrollTop then termScrollDown t t.scrollTop t.scrollBottom 1
      else some { t with cursorY := t.cursorY - 1 })
    some { t with state := .normal }
  else if c = ord 'c' then
    some { t with
      fgColor := t.defaultFg, bgColor := t.defaultBg, attr := 0, cursorX := 0, cursorY := 0, scrollTop := 0,
      scrollBottom := TERM_HEIGHT - 1, state := .normal }
  else some { t with state := .normal }

/-- What both `CSI` states do with a character that is no parameter. -/
def putFinal (t : Term) (c : UInt8) : Option Term :=
  if 0x40 ≤ c ∧ c ≤ 0x7e then do
    let t ← termHandleCsi t c
    some { t with state := .normal }
  else some { t with state := .normal }

/-- The value of a digit. -/
def digit (c : UInt8) : Int := (c.toNat : Int) - 48

/-- `case STATE_CSI:`. -/
def putCsi (t : Term) (c : UInt8) : Option Term :=
  if c = ord '?' then some { t with escPrivate := true }
  else if ord '0' ≤ c ∧ c ≤ ord '9' then do
    let t ← { t with state := .csiParam }.setEscParam 0 (digit c)
    some { t with escParamCount := 1 }
  else if c = ord ';' then some { t with state := .csiParam, escParamCount := 1 }
  else putFinal t c

/-- `case STATE_CSI_PARAM:`. -/
def putCsiParam (t : Term) (c : UInt8) : Option Term :=
  if ord '0' ≤ c ∧ c ≤ ord '9' then do
    let idx := if 0 < t.escParamCount then t.escParamCount - 1 else 0
    let p ← t.escParam idx
    t.setEscParam idx (cInt (p * 10 + digit c))
  else if c = ord ';' then
    some (if t.escParamCount < MAX_ESC_PARAMS then { t with escParamCount := t.escParamCount + 1 } else t)
  else putFinal t c

/-- `term_putchar`. -/
def termPutchar (t : Term) (c : UInt8) : Option Term :=
  match t.state with
  | .normal => termPutcharInternal t c
  | .esc => putEsc t c
  | .csi => putCsi t c
  | .csiParam => putCsiParam t c
  | .osc => some (if c = 7 ∨ c = ord '\\' then { t with state := .normal } else t)
  | .charset => some { t with state := .normal }

/-! ### Initialization -/

/-- `term_clear`. -/
def termClear (t : Term) : Option Term := do
  let t ← forRange 0 TERM_HEIGHT (fun y t => fillRow t y 0 TERM_WIDTH defaultBlank) t
  termRenderScreen { t with cursorX := 0, cursorY := 0 }

/-- The fields that steer `main_terminal`, after `memset`. -/
def zeroedControl : Control where
  scrollbackLines := 0
  scrollbackPos := 0
  scrollbackWrite := 0
  cursorX := 0
  cursorY := 0
  savedCursorX := 0
  savedCursorY := 0
  cursorVisible := false
  fgColor := 0
  bgColor := 0
  attr := 0
  defaultFg := 0
  defaultBg := 0
  state := .normal
  escParams := fun _ => 0
  escParamCount := 0
  escIntermediateCount := 0
  escPrivate := false
  originMode := false
  autowrap := false
  insertMode := false
  linefeedMode := false
  cursorKeysApp := false
  scrollTop := 0
  scrollBottom := 0
  charsWritten := 0
  escapesProcessed := 0

/-- `main_terminal` after `memset`, and the video memory as it was found. -/
def zeroed (vga : Int → UInt16) : Term where
  toControl := zeroedControl
  screen := fun _ _ => ⟨0, 0, 0, 0⟩
  scrollback := none
  tabs := fun _ => 0
  vgaBuffer := vga
  vgaCursor := 0
  vgaShape := none

/-- `term_init`; `got` when `kmalloc` returns the scrollback buffer. -/
def termInit (vga : Int → UInt16) (got : Bool) : Option Term := do
  let t := { zeroed vga with
    defaultFg := COLOR_LIGHT_GRAY, defaultBg := COLOR_BLACK, fgColor := COLOR_LIGHT_GRAY, bgColor := COLOR_BLACK,
    cursorVisible := true, autowrap := true, scrollTop := 0, scrollBottom := TERM_HEIGHT - 1 }
  let t ← forRange 0 (TERM_WIDTH / TERM_TAB_WIDTH) (fun i t => t.setTab (i * TERM_TAB_WIDTH)) t
  let t := { t with scrollback := if got then some fun _ => ⟨0, 0, 0, 0⟩ else none }
  let t ← termClear t
  some { t with vgaShape := some (14, 15) }

end Terminal
end Pico
