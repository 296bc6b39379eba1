import Mathlib.Data.List.Infix
import Picomimi.Lib.Lines
import Picomimi.Lib.Ring
import Picomimi.Lib.Run
/-!
# Tty — canonical input of `drivers/tty/tty.c`

`tty_receive_char` edits the line in `line_buf` and moves it to the circular `read_buf` when a line end arrives; `tty_read`
takes bytes out of `read_buf` up to a newline.  Under the default termios the bytes it has returned are a prefix of the
completed lines: each is what editing leaves of the characters that arrived since the line end before it.
-/
namespace Pico
namespace Tty

open Lib

def TTY_BUF_SIZE : Nat := 4096

def ISIG : UInt32 := 0x0001
def ICANON : UInt32 := 0x0002
def ECHO : UInt32 := 0x0008
def ECHOE : UInt32 := 0x0010
def ECHOK : UInt32 := 0x0020
def IEXTEN : UInt32 := 0x8000

def VINTR : Nat := 0
def VQUIT : Nat := 1
def VERASE : Nat := 2
def VKILL : Nat := 3
def VEOF : Nat := 4
def VSTART : Nat := 8
def VSTOP : Nat := 9
def VSUSP : Nat := 10
def VEOL : Nat := 11

structure Termios where
  cLflag : UInt32
  cCc : Nat → UInt8

/-- `default_termios`. -/
def defaultTermios : Termios where
  cLflag := ISIG ||| ICANON ||| ECHO ||| ECHOE ||| ECHOK ||| IEXTEN
  cCc := fun i => [0x03, 0x1c, 0x7f, 0x15, 0x04, 0, 1, 0, 0x11, 0x13, 0x1a, 0, 0x12, 0x0f, 0x17, 0x16, 0].getD i 0

structure TtyBuffer where
  data : Nat → UInt8
  head : Nat
  tail : Nat
  count : Nat

/-- A terminal; `hasWrite` when the driver has a `write`, and `written` is what it was given. -/
structure TtyStruct where
  termios : Termios
  readBuf : TtyBuffer
  lineBuf : Nat → UInt8
  linePos : Nat
  stopped : Bool
  hasWrite : Bool
  written : List UInt8

/-- `tty_alloc`, as far as input goes: zeroed memory and the default settings. -/
def ttyAlloc (hasWrite : Bool) : TtyStruct where
  termios := defaultTermios
  readBuf := ⟨fun _ => 0, 0, 0, 0⟩
  lineBuf := fun _ => 0
  linePos := 0
  stopped := false
  hasWrite := hasWrite
  written := []

/-- `buf_put`, with what it returns. -/
def bufPut (buf : TtyBuffer) (c : UInt8) : TtyBuffer × Int :=
  if buf.count = TTY_BUF_SIZE then (buf, -1)
  else (⟨Function.update buf.data buf.head c, (buf.head + 1) % TTY_BUF_SIZE, buf.tail, buf.count + 1⟩, 0)

/-- `buf_get`; `none` where it returns -1. -/
def bufGet (buf : TtyBuffer) : Option (UInt8 × TtyBuffer) :=
  if buf.count = 0 then none
  else some (buf.data buf.tail, ⟨buf.data, buf.head, (buf.tail + 1) % TTY_BUF_SIZE, buf.count - 1⟩)

/-- `tty->ops->write`, where there is one. -/
def TtyStruct.opsWrite (t : TtyStruct) (bs : List UInt8) : TtyStruct :=
  if t.hasWrite then { t with written := t.written ++ bs } else t

/-- `tty_handle_special`. -/
def ttyHandleSpecial (t : TtyStruct) (c : UInt8) : Bool :=
  if t.termios.cLflag &&& ISIG = 0 then false
  else if c = t.termios.cCc VINTR then true
  else if c = t.termios.cCc VQUIT then true
  else if c = t.termios.cCc VSUSP then true
  else false

/-- `tty_echo`. -/
def ttyEcho (t : TtyStruct) (c : UInt8) : TtyStruct :=
  if t.termios.cLflag &&& ECHO = 0 then t
  else if c < 32 ∧ c ≠ 10 ∧ c ≠ 9 ∧ c ≠ 13 then t.opsWrite [94, c + 64]
  else t.opsWrite [c]

/-- The loop of the kill character, on the characters still in the line. -/
def killLine (t : TtyStruct) : Nat → TtyStruct
  | 0 => t
  | n + 1 =>
    let t := { t with linePos := n }
    killLine (if t.termios.cLflag &&& ECHOK = 0 then t else t.opsWrite [8, 32, 8]) n

/-- One turn of the loop that moves the line to the read buffer. -/
def moveChar (t : TtyStruct) (i : Nat) : TtyStruct :=
  if t.lineBuf i ≠ t.termios.cCc VEOF then { t with readBuf := (bufPut t.readBuf (t.lineBuf i)).1 } else t

/-- `tty_receive_char`. -/
def ttyReceiveChar (t : TtyStruct) (c : UInt8) : TtyStruct :=
  if ttyHandleSpecial t c then t
  else if c = t.termios.cCc VSTOP then { t with stopped := true }
  else if c = t.termios.cCc VSTART then { t with stopped := false }
  else if t.termios.cLflag &&& ICANON = 0 then ttyEcho { t with readBuf := (bufPut t.readBuf c).1 } c
  else if c = t.termios.cCc VERASE then
    if 0 < t.linePos then
      let t := { t with linePos := t.linePos - 1 }
      if t.termios.cLflag &&& ECHOE = 0 then t else t.opsWrite [8, 32, 8]
    else t
  else if c = t.termios.cCc VKILL then killLine t t.linePos
  else
    let t := if t.linePos < TTY_BUF_SIZE - 1 then
        { t with lineBuf := Function.update t.lineBuf t.linePos c, linePos := t.linePos + 1 }
      else t
    let t := ttyEcho t c
    if c = 10 ∨ c = t.termios.cCc VEOL ∨ c = t.termios.cCc VEOF then
      { (List.range t.linePos).foldl moveChar t with linePos := 0 }
    else t

/-- The loop of `tty_read`, with the number of bytes it may still copy. -/
def ttyReadLoop : Nat → TtyStruct → TtyStruct × List UInt8
  | 0, t => (t, [])
  | n + 1, t =>
    match bufGet t.readBuf with
    | none => (t, [])
    | some (c, buf) =>
      let t := { t with readBuf := buf }
      if t.termios.cLflag &&& ICANON ≠ 0 ∧ c = 10 then (t, [c])
      else
        let (t, bytes) := ttyReadLoop n t
        (t, c :: bytes)

/-- `tty_read`, and the bytes it returned. -/
def ttyRead (t : TtyStruct) (count : Nat) : TtyStruct × List UInt8 := ttyReadLoop count t

/-! ### What the lines are -/

/-- The characters that are acted on and not typed: those of the signals and of flow control. -/
def isActed (c : UInt8) : Bool := c ∈ [0x03, 0x1c, 0x1a, 0x13, 0x11]

/-- The characters that end a line: newline, the unset end-of-line character, end of file. -/
def isLineEnd (c : UInt8) : Bool := c ∈ [10, 0, 0x04]

/-- What is left of the characters of a line: the end of file removed, erase and kill applied. -/
def lineOf (l : List UInt8) : List UInt8 := Lines.edit 0x7f 0x15 (l.filter (· ≠ 0x04))

/-- The characters received, cut behind each line end. -/
def cutLines (received : List UInt8) : List (List UInt8) × List UInt8 :=
  Lines.cut isLineEnd (received.filter fun c => !isActed c)

/-- **The lines completed by the characters received.** -/
def completed (received : List UInt8) : List (List UInt8) := (cutLines received).1.map lineOf

/-- **The line that is being edited.** -/
def editing (received : List UInt8) : List UInt8 := lineOf (cutLines received).2

theorem cutLines_of_acted {r : List UInt8} {c : UInt8} (h : isActed c = true) : cutLines (r ++ [c]) = cutLines r := by
  simp [cutLines, List.filter_append, h]

theorem cutLines_of_not_acted {r : List UInt8} {c : UInt8} (h : isActed c = false) :
    cutLines (r ++ [c]) = Lines.cutChar isLineEnd (cutLines r) c := by
  simp [cutLines, List.filter_append, h]

theorem lineOf_append {l : List UInt8} {c : UInt8} (h : c ≠ 0x04) :
    lineOf (l ++ [c]) = Lines.editChar 0x7f 0x15 (lineOf l) c := by
  simp [lineOf, List.filter_append, h]

theorem lineOf_append_eof (l : List UInt8) : lineOf (l ++ [0x04]) = lineOf l := by
  simp [lineOf, List.filter_append]

theorem eof_notMem_lineOf (l : List UInt8) : 0x04 ∉ lineOf l := by
  refine fun h => absurd (Lines.mem_of_mem_edit h) ?_
  simp

/-- A character that is edited into the line. -/
theorem editing_of_edited {r : List UInt8} {c : UInt8} (ha : isActed c = false) (he : isLineEnd c = false) :
    editing (r ++ [c]) = Lines.editChar 0x7f 0x15 (editing r) c ∧ completed (r ++ [c]) = completed r := by
  have hne : c ≠ 0x04 := by
    rintro rfl
    cases he
  unfold editing completed
  rw [cutLines_of_not_acted ha, Lines.cutChar, if_neg (by rw [he]; decide)]
  exact ⟨lineOf_append hne, rfl⟩

/-- A character that ends the line. -/
theorem completed_of_end {r : List UInt8} {c : UInt8} (he : isLineEnd c = true) :
    editing (r ++ [c]) = [] ∧ completed (r ++ [c]) = completed r ++ [(editing r ++ [c]).filter (· ≠ 0x04)] := by
  have hmem : c = 10 ∨ c = 0 ∨ c = 0x04 := by simpa [isLineEnd] using he
  have ha : isActed c = false := by rcases hmem with rfl | rfl | rfl <;> rfl
  have hkeep : (editing r).filter (· ≠ 0x04) = editing r := by
    refine List.filter_eq_self.2 fun x hx => ?_
    simp only [ne_eq, decide_not, Bool.not_eq_true', decide_eq_false_iff_not]
    rintro rfl
    exact eof_notMem_lineOf _ hx
  rw [List.filter_append, hkeep]
  unfold editing completed
  rw [cutLines_of_not_acted ha, Lines.cutChar, if_pos he]
  refine ⟨rfl, ?_⟩
  rw [List.map_append, List.map_cons, List.map_nil]
  congr 2
  rcases hmem with rfl | rfl | rfl
  · exact lineOf_append (by decide)
  · exact lineOf_append (by decide)
  · rw [lineOf_append_eof]
    exact (List.append_nil _).symm

/-! ### What the calls do -/

theorem opsWrite_eq (t : TtyStruct) (bs : List UInt8) : ∃ w, t.opsWrite bs = { t with written := w } := by
  unfold TtyStruct.opsWrite
  split
  · exact ⟨_, rfl⟩
  · exact ⟨t.written, rfl⟩

/-- An echo changes nothing but what the driver was given. -/
theorem ttyEcho_eq (t : TtyStruct) (c : UInt8) : ∃ w, ttyEcho t c = { t with written := w } := by
  unfold ttyEcho
  split
  · exact ⟨t.written, rfl⟩
  · split
    · exact opsWrite_eq t _
    · exact opsWrite_eq t _

theorem killLine_eq : ∀ (n : Nat) (t : TtyStruct), t.linePos = n →
    ∃ w, killLine t n = { t with linePos := 0, written := w }
  | 0, t, h => ⟨t.written, by rw [killLine, ← h]⟩
  | n + 1, t, _ => by
    obtain ⟨w, hw⟩ : ∃ w, (if t.termios.cLflag &&& ECHOK = 0 then { t with linePos := n }
        else { t with linePos := n }.opsWrite [8, 32, 8]) = { t with linePos := n, written := w } := by
      split
      · exact ⟨t.written, rfl⟩
      · exact opsWrite_eq _ _
    obtain ⟨w', hw'⟩ := killLine_eq n { t with linePos := n, written := w } rfl
    refine ⟨w', ?_⟩
    rw [killLine]
    exact (congrArg (killLine · n) hw).trans hw'

/-- The bytes in a buffer, oldest first. -/
def TtyBuffer.bytes (b : TtyBuffer) : List UInt8 := Ring.content b.data TTY_BUF_SIZE b.tail b.count

def TtyBuffer.Wf (b : TtyBuffer) : Prop := Ring.Wf TTY_BUF_SIZE b.tail b.head b.count

theorem bufPut_spec {b : TtyBuffer} (h : b.Wf) (hroom : b.count < TTY_BUF_SIZE) (c : UInt8) :
    (bufPut b c).1.Wf ∧ (bufPut b c).1.bytes = b.bytes ++ [c] := by
  have hne : ¬b.count = TTY_BUF_SIZE := Nat.ne_of_lt hroom
  unfold bufPut
  rw [if_neg hne]
  exact ⟨Ring.Wf.push h hroom, Ring.content_push h hroom c⟩

theorem bufGet_spec {b : TtyBuffer} (h : b.Wf) : bufGet b = none ∧ b.bytes = [] ∨
    ∃ c b', bufGet b = some (c, b') ∧ b'.Wf ∧ b.bytes = c :: b'.bytes := by
  obtain ⟨data, head, tail, count⟩ := b
  cases count with
  | zero => exact .inl ⟨rfl, rfl⟩
  | succ n => exact .inr ⟨data tail, _, rfl, Ring.Wf.pop h, Ring.content_pop h⟩

/-- **The loop that completes a line appends it to the read buffer**, without the end of file character. -/
theorem foldl_moveChar : ∀ (l : List Nat) (t : TtyStruct), t.readBuf.Wf →
    t.readBuf.count + ((l.map t.lineBuf).filter (· ≠ t.termios.cCc VEOF)).length ≤ TTY_BUF_SIZE →
      ∃ b, l.foldl moveChar t = { t with readBuf := b } ∧ b.Wf ∧
        b.bytes = t.readBuf.bytes ++ (l.map t.lineBuf).filter (· ≠ t.termios.cCc VEOF)
  | [], t, hw, _ => ⟨t.readBuf, rfl, hw, (List.append_nil _).symm⟩
  | i :: l, t, hw, hfit => by
    rw [List.map_cons] at hfit
    rw [List.foldl_cons, List.map_cons]
    by_cases hc : t.lineBuf i ≠ t.termios.cCc VEOF
    · rw [List.filter_cons_of_pos (by simpa using hc), List.length_cons] at hfit
      rw [List.filter_cons_of_pos (by simpa using hc), moveChar, if_pos hc]
      obtain ⟨hw', hbytes⟩ := bufPut_spec hw (by omega) (t.lineBuf i)
      have hcount : (bufPut t.readBuf (t.lineBuf i)).1.count = t.readBuf.count + 1 := by
        rw [bufPut, if_neg (by omega)]
      obtain ⟨b, heq, hb, hcontent⟩ := foldl_moveChar l { t with readBuf := (bufPut t.readBuf (t.lineBuf i)).1 } hw'
        (by simp only [hcount]; omega)
      refine ⟨b, heq, hb, ?_⟩
      rw [hcontent, hbytes, List.append_assoc, List.singleton_append]
    · rw [List.filter_cons_of_neg (by simpa using hc)] at hfit ⊢
      rw [moveChar, if_neg hc]
      exact foldl_moveChar l t hw hfit

section Receive

variable {t : TtyStruct} {c : UInt8} (hd : t.termios = defaultTermios)
include hd

theorem ttyHandleSpecial_default : ttyHandleSpecial t c = true ↔ c = 0x03 ∨ c = 0x1c ∨ c = 0x1a := by
  have hsig : ¬defaultTermios.cLflag &&& ISIG = 0 := by decide
  unfold ttyHandleSpecial
  rw [hd, if_neg hsig]
  change (if c = 0x03 then true else if c = 0x1c then true else if c = 0x1a then true else false) = true ↔ _
  split
  · simp_all
  · split
    · simp_all
    · split <;> simp_all

/-- The character of a signal or of flow control leaves the line and the read buffer alone. -/
theorem ttyReceiveChar_acted (h : isActed c = true) : ∃ b, ttyReceiveChar t c = { t with stopped := b } := by
  have hmem : c = 0x03 ∨ c = 0x1c ∨ c = 0x1a ∨ c = 0x13 ∨ c = 0x11 := by simpa [isActed] using h
  unfold ttyReceiveChar
  by_cases hs : ttyHandleSpecial t c = true
  · rw [if_pos hs]
    exact ⟨t.stopped, rfl⟩
  rw [if_neg hs, hd]
  rw [ttyHandleSpecial_default hd] at hs
  rcases hmem with rfl | rfl | rfl | rfl | rfl
  · exact absurd (.inl rfl) hs
  · exact absurd (.inr (.inl rfl)) hs
  · exact absurd (.inr (.inr rfl)) hs
  · exact ⟨true, by rw [if_pos (by decide)]⟩
  · exact ⟨false, by rw [if_neg (by decide), if_pos (by decide)]⟩

/-- What is left of `tty_receive_char` for a character that is not acted on. -/
theorem ttyReceiveChar_not_acted (h : isActed c = false) : ttyReceiveChar t c =
    if c = 0x7f then
      if 0 < t.linePos then { t with linePos := t.linePos - 1 }.opsWrite [8, 32, 8] else t
    else if c = 0x15 then killLine t t.linePos
    else
      let t := ttyEcho (if t.linePos < TTY_BUF_SIZE - 1 then
          { t with lineBuf := Function.update t.lineBuf t.linePos c, linePos := t.linePos + 1 }
        else t) c
      if isLineEnd c then { (List.range t.linePos).foldl moveChar t with linePos := 0 } else t := by
  have hmem : ¬(c = 0x03 ∨ c = 0x1c ∨ c = 0x1a ∨ c = 0x13 ∨ c = 0x11) := by simpa [isActed] using h
  have hs : ¬ttyHandleSpecial t c = true := by
    rw [ttyHandleSpecial_default hd]
    tauto
  have hstop : ¬c = t.termios.cCc VSTOP := by
    rw [hd]
    exact fun h => hmem (.inr (.inr (.inr (.inl h))))
  have hstart : ¬c = t.termios.cCc VSTART := by
    rw [hd]
    exact fun h => hmem (.inr (.inr (.inr (.inr h))))
  have hcanon : ¬t.termios.cLflag &&& ICANON = 0 := by
    rw [hd]
    decide
  have hechoe : ¬t.termios.cLflag &&& ECHOE = 0 := by
    rw [hd]
    decide
  have herase : t.termios.cCc VERASE = 0x7f := by
    rw [hd]
    rfl
  have hkill : t.termios.cCc VKILL = 0x15 := by
    rw [hd]
    rfl
  have hend : ∀ u : TtyStruct, u.termios = t.termios →
      ((c = 10 ∨ c = u.termios.cCc VEOL ∨ c = u.termios.cCc VEOF) ↔ isLineEnd c = true) := fun u hu => by
    rw [hu, hd]
    change c = 10 ∨ c = 0 ∨ c = 0x04 ↔ _
    simp [isLineEnd]
  unfold ttyReceiveChar
  rw [if_neg hs, if_neg hstop, if_neg hstart, if_neg hcanon, herase, hkill]
  simp only [if_neg hechoe]
  refine ite_congr rfl (fun _ => rfl) fun _ => ite_congr rfl (fun _ => rfl) fun _ => ?_
  refine ite_congr (propext (hend _ ?_)) (fun _ => rfl) fun _ => rfl
  obtain ⟨w, hw⟩ := ttyEcho_eq (if t.linePos < TTY_BUF_SIZE - 1 then
      { t with lineBuf := Function.update t.lineBuf t.linePos c, linePos := t.linePos + 1 } else t) c
  rw [hw]
  split
  · rfl
  · rfl

end Receive

/-- **A read takes bytes from the front of the read buffer**, none from behind a newline. -/
theorem ttyReadLoop_spec : ∀ (n : Nat) (t : TtyStruct), t.readBuf.Wf →
    (t.termios.cLflag &&& ICANON ≠ 0) → ∃ b, (ttyReadLoop n t).1 = { t with readBuf := b } ∧ b.Wf ∧
      t.readBuf.bytes = (ttyReadLoop n t).2 ++ b.bytes ∧ 10 ∉ (ttyReadLoop n t).2.dropLast
  | 0, t, hw, _ => ⟨t.readBuf, rfl, hw, rfl, List.not_mem_nil⟩
  | n + 1, t, hw, hcanon => by
    rcases bufGet_spec hw with ⟨hget, hnil⟩ | ⟨c, b, hget, hb, hbytes⟩
    · unfold ttyReadLoop
      rw [hget]
      exact ⟨t.readBuf, rfl, hw, rfl, List.not_mem_nil⟩
    · unfold ttyReadLoop
      rw [hget]
      by_cases hc : c = 10
      · simp only [if_pos (And.intro hcanon hc)]
        exact ⟨b, rfl, hb, hbytes, List.not_mem_nil⟩
      · obtain ⟨b', heq, hb', hrest, hnl⟩ := ttyReadLoop_spec n { t with readBuf := b } hb hcanon
        simp only [if_neg (fun h : _ ∧ c = 10 => hc h.2)]
        refine ⟨b', heq, hb', ?_, ?_⟩
        · rw [hbytes, List.cons_append]
          exact congrArg (c :: ·) hrest
        · cases hl : (ttyReadLoop n { t with readBuf := b }).2 with
          | nil => exact List.not_mem_nil
          | cons d l =>
            rw [hl] at hnl
            rw [List.dropLast_cons_cons, List.mem_cons]
            exact fun h => h.elim (fun h => hc h.symm) hnl

/-! ### Runs -/

inductive Call
  | receive (c : UInt8)
  | read (count : Nat)

/-- A terminal, the characters it has received and what each `tty_read` has returned. -/
structure Session where
  tty : TtyStruct
  received : List UInt8
  returned : List (List UInt8)

def Session.call (s : Session) : Call → Session
  | .receive c => { s with tty := ttyReceiveChar s.tty c, received := s.received ++ [c] }
  | .read count =>
    let (t, bytes) := ttyRead s.tty count
    { s with tty := t, returned := s.returned ++ [bytes] }

/-- A terminal from `tty_alloc` on, under characters and reads in any order. -/
def ttyMachine : Machine Session Call where
  init s := ∃ hasWrite, s = ⟨ttyAlloc hasWrite, [], []⟩
  step s c := some (s.call c)

/-- The line being edited leaves room for its end, and what is completed and unread fits the read buffer. -/
def Fits (s : Session) : Prop :=
  (editing s.received).length ≤ 4094 ∧ (completed s.received).flatten.length ≤ s.returned.flatten.length + TTY_BUF_SIZE

/-- **What the two buffers hold**: the line being edited, and the completed text that is still unread. -/
structure Inv (s : Session) : Prop where
  termios : s.tty.termios = defaultTermios
  line : (List.range s.tty.linePos).map s.tty.lineBuf = editing s.received
  ring : s.tty.readBuf.Wf
  text : s.returned.flatten ++ s.tty.readBuf.bytes = (completed s.received).flatten
  newline : ∀ r ∈ s.returned, 10 ∉ r.dropLast

theorem Inv.linePos_eq {s : Session} (h : Inv s) : s.tty.linePos = (editing s.received).length := by
  rw [← h.line, List.length_map, List.length_range]

theorem Inv.count_eq {s : Session} (h : Inv s) :
    s.returned.flatten.length + s.tty.readBuf.count = (completed s.received).flatten.length := by
  rw [← h.text, List.length_append]
  congr 1
  exact Ring.length_content.symm

theorem range_map_dropLast (f : Nat → UInt8) : ∀ n, (List.range (n - 1)).map f = ((List.range n).map f).dropLast
  | 0 => rfl
  | n + 1 => by rw [List.range_succ, List.map_append, List.map_cons, List.map_nil, List.dropLast_concat, Nat.add_sub_cancel]

theorem range_map_update (f : Nat → UInt8) (n : Nat) (c : UInt8) :
    (List.range (n + 1)).map (Function.update f n c) = (List.range n).map f ++ [c] := by
  rw [List.range_succ, List.map_append, List.map_cons, List.map_nil, Function.update_self]
  congr 1
  refine List.map_congr_left fun i hi => Function.update_of_ne ?_ _ _
  have := List.mem_range.1 hi
  omega

/-- An edited character: what has to hold of the line behind it. -/
theorem Inv.edited {s : Session} (h : Inv s) {c : UInt8} {t : TtyStruct} (ha : isActed c = false)
    (he : isLineEnd c = false) (ht : t.termios = s.tty.termios ∧ t.readBuf = s.tty.readBuf)
    (hline : (List.range t.linePos).map t.lineBuf = Lines.editChar 0x7f 0x15 (editing s.received) c) :
    Inv { s with tty := t, received := s.received ++ [c] } := by
  obtain ⟨hediting, hcompleted⟩ := editing_of_edited (r := s.received) ha he
  refine ⟨ht.1.trans h.termios, ?_, ?_, ?_, h.newline⟩
  · exact hline.trans hediting.symm
  · show t.readBuf.Wf
    rw [ht.2]
    exact h.ring
  · show s.returned.flatten ++ t.readBuf.bytes = (completed (s.received ++ [c])).flatten
    rw [ht.2, hcompleted]
    exact h.text

theorem Inv.receive {s : Session} (h : Inv s) (c : UInt8) (hfit : Fits s) (hfit' : Fits (s.call (.receive c))) :
    Inv (s.call (.receive c)) := by
  have hd := h.termios
  have hpos := h.linePos_eq
  have hroom : s.tty.linePos < TTY_BUF_SIZE - 1 := by
    rw [hpos]
    exact Nat.lt_of_le_of_lt hfit.1 (by decide)
  cases ha : isActed c with
  | true =>
    obtain ⟨b, hb⟩ := ttyReceiveChar_acted hd ha
    have hcut := cutLines_of_acted (r := s.received) ha
    unfold Session.call
    simp only [hb]
    refine ⟨hd, ?_, h.ring, ?_, h.newline⟩
    · show _ = lineOf (cutLines (s.received ++ [c])).2
      rw [hcut]
      exact h.line
    · show _ = ((cutLines (s.received ++ [c])).1.map lineOf).flatten
      rw [hcut]
      exact h.text
  | false =>
    have hrec := ttyReceiveChar_not_acted hd ha
    by_cases herase : c = 0x7f
    · subst herase
      rw [if_pos rfl] at hrec
      refine h.edited ha rfl ?_ ?_
      · rw [hrec]
        split
        · obtain ⟨w, hw⟩ := opsWrite_eq { s.tty with linePos := s.tty.linePos - 1 } [8, 32, 8]
          rw [hw]
          exact ⟨rfl, rfl⟩
        · exact ⟨rfl, rfl⟩
      · rw [Lines.editChar, if_pos rfl, ← h.line, ← range_map_dropLast, hrec]
        split
        · obtain ⟨w, hw⟩ := opsWrite_eq { s.tty with linePos := s.tty.linePos - 1 } [8, 32, 8]
          rw [hw]
        · rename_i hz
          have : s.tty.linePos = 0 := by omega
          rw [this]
    rw [if_neg herase] at hrec
    by_cases hkill : c = 0x15
    · subst hkill
      obtain ⟨w, hw⟩ := killLine_eq s.tty.linePos s.tty rfl
      rw [if_pos rfl, hw] at hrec
      refine h.edited ha rfl ?_ ?_
      · rw [hrec]
        exact ⟨rfl, rfl⟩
      · rw [hrec]
        rfl
    rw [if_neg hkill, if_pos hroom] at hrec
    obtain ⟨w, hw⟩ := ttyEcho_eq
      { s.tty with lineBuf := Function.update s.tty.lineBuf s.tty.linePos c, linePos := s.tty.linePos + 1 } c
    have hline := range_map_update s.tty.lineBuf s.tty.linePos c
    rw [h.line] at hline
    simp only [hw] at hrec
    cases he : isLineEnd c with
    | false =>
      rw [if_neg (by rw [he]; decide)] at hrec
      refine h.edited ha he ?_ ?_
      · rw [hrec]
        exact ⟨rfl, rfl⟩
      · rw [Lines.editChar, if_neg herase, if_neg hkill, hrec]
        exact hline
    | true =>
      rw [if_pos he] at hrec
      obtain ⟨hediting, hcompleted⟩ := completed_of_end (r := s.received) he
      have heof : s.tty.termios.cCc VEOF = 0x04 := by
        rw [hd]
        rfl
      have hcount := h.count_eq
      have hfull : (completed (s.received ++ [c])).flatten.length ≤ s.returned.flatten.length + TTY_BUF_SIZE := hfit'.2
      rw [hcompleted, List.flatten_append, List.length_append, List.flatten_singleton] at hfull
      obtain ⟨b, hmove, hb, hbytes⟩ := foldl_moveChar (List.range (s.tty.linePos + 1))
        { s.tty with lineBuf := Function.update s.tty.lineBuf s.tty.linePos c, linePos := s.tty.linePos + 1, written := w }
        h.ring (by simp only [hline, heof]; omega)
      simp only [hline, heof] at hbytes
      rw [hmove] at hrec
      unfold Session.call
      simp only [hrec]
      refine ⟨hd, ?_, hb, ?_, h.newline⟩
      · rw [hediting]
        rfl
      · show s.returned.flatten ++ b.bytes = (completed (s.received ++ [c])).flatten
        rw [hbytes, ← List.append_assoc, h.text, hcompleted, List.flatten_append, List.flatten_singleton]

theorem Inv.read {s : Session} (h : Inv s) (n : Nat) : Inv (s.call (.read n)) := by
  have hcanon : s.tty.termios.cLflag &&& ICANON ≠ 0 := by
    rw [h.termios]
    decide
  obtain ⟨b, heq, hb, hbytes, hnl⟩ := ttyReadLoop_spec n s.tty h.ring hcanon
  show Inv { s with tty := (ttyReadLoop n s.tty).1, returned := s.returned ++ [(ttyReadLoop n s.tty).2] }
  rw [heq]
  refine ⟨h.termios, h.line, hb, ?_, fun r hr => ?_⟩
  · show (s.returned ++ [(ttyReadLoop n s.tty).2]).flatten ++ b.bytes = _
    rw [List.flatten_append, List.flatten_singleton, List.append_assoc, ← hbytes]
    exact h.text
  · rcases List.mem_append.1 hr with hr | hr
    · exact h.newline r hr
    · rw [List.mem_singleton.1 hr]
      exact hnl

theorem Inv.of_always : ∀ {l : List Call} {s t : Session}, Inv s → ttyMachine.Always Fits s l → ttyMachine.run s l = some t → Inv t
  | [], _, _, h, _, hrun => by
    cases hrun
    exact h
  | c :: l, s, t, h, hfit, hrun => by
    obtain ⟨u, hu, hrest⟩ := ttyMachine.run_cons.1 hrun
    obtain ⟨hfs, hall⟩ := hfit
    have hfu := hall u hu
    cases hu
    refine of_always ?_ hfu hrest
    cases c with
    | receive c => exact h.receive c hfs hfu.head
    | read n => exact h.read n

/-- **Canonical input is the completed lines in order**: while lines and unread text fit their buffers, the bytes returned by
the reads so far are a prefix of the lines completed by the characters received so far, and no read goes on behind a
newline. -/
theorem ttyRead_completed {s₀ s : Session} {l : List Call} (h0 : ttyMachine.init s₀) (hfit : ttyMachine.Always Fits s₀ l)
    (hrun : ttyMachine.run s₀ l = some s) :
    s.returned.flatten <+: (completed s.received).flatten ∧ ∀ r ∈ s.returned, 10 ∉ r.dropLast := by
  have h : Inv s := by
    refine Inv.of_always ?_ hfit hrun
    obtain ⟨hasWrite, rfl⟩ := h0
    exact ⟨rfl, rfl, Ring.wf_zero (by decide), rfl, fun r hr => by cases hr⟩
  exact ⟨⟨s.tty.readBuf.bytes, h.text⟩, h.newline⟩

/-- `ab`, an erase, an interrupt and a newline; two reads; then `c` and an end of file. -/
def typed : List Call :=
  [.receive 97, .receive 98, .receive 0x7f, .receive 0x03, .receive 10, .read 1, .read 5, .receive 99, .receive 0x04]

instance : DecidablePred Fits := fun _ => instDecidableAnd

theorem ttyRead_completed_typed : ∃ s, ttyMachine.run ⟨ttyAlloc false, [], []⟩ typed = some s ∧
    s.returned = [[97], [10]] ∧ completed s.received = [[97, 10], [99]] ∧
    s.returned.flatten <+: (completed s.received).flatten := by
  refine ⟨_, rfl, by decide +kernel, by decide +kernel, ?_⟩
  have hfit : ttyMachine.Always Fits ⟨ttyAlloc false, [], []⟩ typed := by
    iterate 9 refine ⟨by decide +kernel, fun _ ht => ?_⟩; cases ht
    show Fits _
    decide +kernel
  exact (@ttyRead_completed ⟨ttyAlloc false, [], []⟩ _ typed ⟨false, rfl⟩ hfit rfl).1

end Tty
end Pico
