import Picomimi.Terminal
/-!
# TerminalSafe — the terminal emulator stays inside its arrays

`Inv` bounds the cursor, the scroll region, the number of parameters and the positions of the scrollback.  Every function of
the terminal keeps it from any state that satisfies it, whatever the parameters are, and makes no access out of bounds.
-/
namespace Pico
namespace Terminal

open Lib

/-- **What bounds the terminal's fields.** -/
structure Inv (t : Control) : Prop where
  cursorX : Within t.cursorX TERM_WIDTH
  cursorY : Within t.cursorY TERM_HEIGHT
  region : 0 ≤ t.scrollTop ∧ t.scrollTop < t.scrollBottom ∧ t.scrollBottom < TERM_HEIGHT
  params : 0 ≤ t.escParamCount ∧ t.escParamCount ≤ MAX_ESC_PARAMS
  pos : 0 ≤ t.scrollbackPos ∧ t.scrollbackPos ≤ TERM_SCROLLBACK
  lines : 0 ≤ t.scrollbackLines ∧ t.scrollbackLines ≤ TERM_SCROLLBACK
  write : Within t.scrollbackWrite TERM_SCROLLBACK

/-- A call that makes no access out of bounds and keeps the invariant. -/
abbrev Safe (r : Option Term) : Prop := Ok r fun t => Inv t.toControl

theorem Safe.bind {r : Option Term} {f : Term → Option Term} (h : Safe r) (hf : ∀ t : Term, Inv t.toControl → Safe (f t)) :
    Safe (r >>= f) := Ok.bind h hf

theorem forRange_safe {a b : Int} {body : Int → Term → Option Term} {t : Term} (h : Inv t.toControl)
    (hbody : ∀ (i : Int) (t : Term), a ≤ i → i < b → Inv t.toControl → Safe (body i t)) : Safe (forRange a b body t) :=
  forRange_ok hbody h

variable {t : Term} {x y : Int}

theorem Within.tmod {a n : Int} (ha : 0 ≤ a) (hn : 0 < n) : Within (a.tmod n) n := by
  rw [Int.tmod_eq_emod_of_nonneg ha]
  exact ⟨Int.emod_nonneg _ (by omega), Int.emod_lt_of_pos _ hn⟩

theorem within_zero : Within 0 TERM_WIDTH := by decide

theorem cell_ok (hy : Within y TERM_HEIGHT) (hx : Within x TERM_WIDTH) : Ok (t.cell y x) fun _ => True := by
  unfold Term.cell
  rw [if_pos ⟨hy, hx⟩]
  exact .pure trivial

theorem setCell_safe (h : Inv t.toControl) (hy : Within y TERM_HEIGHT) (hx : Within x TERM_WIDTH) (cell : Cell) :
    Safe (t.setCell y x cell) := by
  unfold Term.setCell
  rw [if_pos ⟨hy, hx⟩]
  exact .pure h

theorem copyRow_safe {dst src : Int} (h : Inv t.toControl) (hd : Within dst TERM_HEIGHT) (hs : Within src TERM_HEIGHT) :
    Safe (t.copyRow dst src) := by
  unfold Term.copyRow
  rw [if_pos ⟨hd, hs⟩]
  exact .pure h

theorem setVga_safe (h : Inv t.toControl) (hy : Within y TERM_HEIGHT) (hx : Within x TERM_WIDTH) (v : UInt16) :
    Safe (t.setVga (y * TERM_WIDTH + x) v) := by
  have hi : Within (y * TERM_WIDTH + x) (TERM_HEIGHT * TERM_WIDTH) := by
    unfold Within TERM_WIDTH TERM_HEIGHT at *
    omega
  unfold Term.setVga
  rw [if_pos hi]
  exact .pure h

theorem showCursor_inv (h : Inv t.toControl) : Inv (showCursor t x y).toControl := by
  unfold showCursor
  split
  · exact h
  · exact h

/-! ### Rendering and scrolling -/

theorem termRenderCell_safe (h : Inv t.toControl) (hx : Within x TERM_WIDTH) (hy : Within y TERM_HEIGHT) :
    Safe (termRenderCell t x y) := by
  unfold termRenderCell
  exact (cell_ok hy hx).bind fun _ _ => setVga_safe h hy hx _

theorem termRenderLine_safe (h : Inv t.toControl) (hy : Within y TERM_HEIGHT) : Safe (termRenderLine t y) :=
  forRange_safe h fun _ _ h0 h1 ht => termRenderCell_safe ht ⟨h0, h1⟩ hy

theorem termRenderScreen_safe (h : Inv t.toControl) : Safe (termRenderScreen t) := by
  unfold termRenderScreen
  refine (forRange_safe h fun y t h0 h1 ht => ?_).bind fun t ht => .pure (showCursor_inv ht)
  exact forRange_safe ht fun x t h0' h1' ht => termRenderCell_safe ht ⟨h0', h1'⟩ ⟨h0, h1⟩

/-- A row is filled between any two columns of it. -/
theorem fillRow_safe {a b : Int} (h : Inv t.toControl) (hy : Within y TERM_HEIGHT) (ha : 0 ≤ a) (hb : b ≤ TERM_WIDTH)
    (cell : Term → Cell) : Safe (fillRow t y a b cell) :=
  forRange_safe h fun _ _ h0 h1 ht => setCell_safe ht hy ⟨Int.le_trans ha h0, Int.lt_of_lt_of_le h1 hb⟩ _

theorem setScrollback_safe {i : Int} (h : Inv t.toControl) (hsb : t.scrollback.isSome) (hi : Within i (TERM_WIDTH * TERM_SCROLLBACK))
    (cell : Cell) : Ok (t.setScrollback i cell) fun t => Inv t.toControl ∧ t.scrollback.isSome := by
  obtain ⟨sb, hsb⟩ := Option.isSome_iff_exists.1 hsb
  unfold Term.setScrollback
  rw [hsb]
  simp only [if_pos hi]
  exact .pure ⟨h, rfl⟩

theorem termSaveLineToScrollback_safe (h : Inv t.toControl) (hy : Within y TERM_HEIGHT) :
    Safe (termSaveLineToScrollback t y) := by
  unfold termSaveLineToScrollback
  refine Ok.ite (fun _ => .pure h) fun hsb => ?_
  have hw := h.write
  -- the buffer is there throughout the copy
  refine Ok.bind (P := fun t => Inv t.toControl ∧ t.scrollback.isSome) (forRange_ok (fun x t h0 h1 ht => ?_) ⟨h, ?_⟩) ?_
  · refine (cell_ok hy ⟨h0, h1⟩).bind fun _ _ => setScrollback_safe ht.1 ht.2 ?_ _
    unfold Within TERM_WIDTH TERM_SCROLLBACK at *
    omega
  · simpa [Option.isSome_iff_ne_none] using hsb
  · rintro t ⟨ht, -⟩
    have hwrite : Within ((t.scrollbackWrite + 1).tmod TERM_SCROLLBACK) TERM_SCROLLBACK := by
      refine Within.tmod ?_ (by decide)
      have := ht.write.1
      omega
    have hlines := ht.lines
    refine .pure ?_
    split
    · rename_i hlt
      have hlt : t.scrollbackLines < TERM_SCROLLBACK := hlt
      have hlines : 0 ≤ t.scrollbackLines + 1 ∧ t.scrollbackLines + 1 ≤ TERM_SCROLLBACK := by omega
      exact { ht with write := hwrite, lines := hlines }
    · exact { ht with write := hwrite }

/-- **Scrolling up is safe whatever the region and the count**, as long as both ends are rows: a region that ends above its
top is left alone. -/
theorem termScrollUp_safe {top bottom : Int} (h : Inv t.toControl) (ht : 0 ≤ top) (hb : bottom < TERM_HEIGHT) (lines : Int) :
    Safe (termScrollUp t top bottom lines) := by
  unfold termScrollUp
  refine Ok.ite (fun _ => .pure h) fun hpos => ?_
  generalize hl : (if bottom - top + 1 < lines then bottom - top + 1 else lines) = k
  have hk : k ≤ bottom - top + 1 ∧ (k = bottom - top + 1 ∨ 0 < k) := by
    rw [← hl]
    split
    · exact ⟨Int.le_refl _, .inl rfl⟩
    · omega
  refine Safe.bind (Ok.ite (fun _ => ?_) fun _ => .pure h) fun t h => ?_
  · exact forRange_safe h fun i t h0 h1 h => termSaveLineToScrollback_safe h ⟨by omega, by omega⟩
  refine (forRange_safe h fun y t h0 h1 h => copyRow_safe h ⟨by omega, by omega⟩ ⟨by omega, by omega⟩).bind fun t h => ?_
  refine (forRange_safe h fun y t h0 h1 h => ?_).bind fun t h => ?_
  · exact fillRow_safe h ⟨by omega, by omega⟩ (Int.le_refl 0) (Int.le_refl _) _
  exact forRange_safe h fun y t h0 h1 h => termRenderLine_safe h ⟨by omega, by omega⟩

theorem termScrollDown_safe {top bottom : Int} (h : Inv t.toControl) (ht : 0 ≤ top) (hb : bottom < TERM_HEIGHT) (lines : Int) :
    Safe (termScrollDown t top bottom lines) := by
  unfold termScrollDown
  refine Ok.ite (fun _ => .pure h) fun hpos => ?_
  generalize hl : (if bottom - top + 1 < lines then bottom - top + 1 else lines) = k
  have hk : k ≤ bottom - top + 1 ∧ (k = bottom - top + 1 ∨ 0 < k) := by
    rw [← hl]
    split
    · exact ⟨Int.le_refl _, .inl rfl⟩
    · omega
  have hcopy : ∀ (y : Int) (t : Term), top + k ≤ y → y ≤ bottom → Inv t.toControl → Safe (t.copyRow y (y - k)) :=
    fun y t h0 h1 h => copyRow_safe h ⟨by omega, by omega⟩ ⟨by omega, by omega⟩
  refine Safe.bind (forRangeDown_ok hcopy h) fun t h => ?_
  refine (forRange_safe h fun y t h0 h1 h => ?_).bind fun t h => ?_
  · exact fillRow_safe h ⟨by omega, by omega⟩ (Int.le_refl 0) (Int.le_refl _) _
  exact forRange_safe h fun y t h0 h1 h => termRenderLine_safe h ⟨by omega, by omega⟩

theorem scrollbackCell_ok (sb : Int → Cell) {i : Int} (hi : Within i (TERM_WIDTH * TERM_SCROLLBACK)) :
    Ok (scrollbackCell sb i) fun _ => True := by
  unfold scrollbackCell
  rw [if_pos hi]
  exact .pure trivial

/-- **A view of the scrollback is safe whatever the argument**, also where the position wraps. -/
theorem termScrollView_safe (h : Inv t.toControl) (lines : Int) : Safe (termScrollView t lines) := by
  unfold termScrollView
  cases t.scrollback with
  | none => exact .pure h
  | some sb =>
    simp only
    generalize hp : (if cInt (t.scrollbackPos + lines) < 0 then 0 else cInt (t.scrollbackPos + lines)) = p
    generalize hq : (if t.scrollbackLines < p then t.scrollbackLines else p) = q
    have hq : 0 ≤ q ∧ q ≤ TERM_SCROLLBACK := by
      have hlines := h.lines
      have hp0 : 0 ≤ p := by
        rw [← hp]
        split <;> omega
      rw [← hq]
      split <;> omega
    have h' : Inv { t.toControl with scrollbackPos := q } := { h with pos := hq }
    refine Ok.ite (fun hpos => ?_) fun _ => termRenderScreen_safe h'
    have hw := h.write
    have hstart : Within ((t.scrollbackWrite - q + TERM_SCROLLBACK).tmod TERM_SCROLLBACK) TERM_SCROLLBACK := by
      refine Within.tmod ?_ (by decide)
      unfold Within at hw
      omega
    generalize (t.scrollbackWrite - q + TERM_SCROLLBACK).tmod TERM_SCROLLBACK = start at hstart
    refine forRange_safe h' fun y t h0 h1 h => Ok.ite (fun _ => ?_) fun _ => termRenderLine_safe h ⟨h0, h1⟩
    have hrow : Within ((start + y).tmod TERM_SCROLLBACK) TERM_SCROLLBACK :=
      Within.tmod (Int.add_nonneg hstart.1 h0) (by decide)
    refine forRange_safe h fun x t h0' h1' h => ?_
    refine (scrollbackCell_ok sb ?_).bind fun _ _ => setVga_safe h ⟨h0, h1⟩ ⟨h0', h1'⟩ _
    unfold Within TERM_WIDTH TERM_SCROLLBACK at *
    omega

/-! ### The cursor and the escape sequences -/

/-- **The cursor goes where it is sent, or to the nearest place it may go.** -/
theorem termMoveCursor_inv (h : Inv t.toControl) (x y : Int) : Inv (termMoveCursor t x y).toControl := by
  have hregion := h.region
  unfold termMoveCursor
  refine showCursor_inv ?_
  refine { h with cursorX := ?_, cursorY := ?_ }
  · show Within (if TERM_WIDTH ≤ if x < 0 then 0 else x then TERM_WIDTH - 1 else if x < 0 then 0 else x) TERM_WIDTH
    unfold Within TERM_WIDTH
    split <;> omega
  · show Within (if (if t.originMode then t.scrollBottom else TERM_HEIGHT - 1) <
        if y < (if t.originMode then t.scrollTop else 0) then if t.originMode then t.scrollTop else 0 else y then
      if t.originMode then t.scrollBottom else TERM_HEIGHT - 1
      else if y < (if t.originMode then t.scrollTop else 0) then if t.originMode then t.scrollTop else 0 else y) TERM_HEIGHT
    unfold Within TERM_HEIGHT at *
    cases t.originMode with
    | true => simp only [if_true]; split <;> omega
    | false => simp only [Bool.false_eq_true, if_false]; split <;> omega

theorem termNewline_safe (h : Inv t.toControl) : Safe (termNewline t) := by
  unfold termNewline
  refine Safe.bind (Ok.ite (fun _ => ?_) fun hlt => ?_) fun t h => ?_
  · exact termScrollUp_safe h h.region.1 h.region.2.2 1
  · have hy : Within (t.cursorY + 1) TERM_HEIGHT := by
      have hregion := h.region
      have hy := h.cursorY
      unfold Within at *
      omega
    exact .pure { h with cursorY := hy }
  · refine .pure (showCursor_inv ?_)
    split
    · exact { h with cursorX := within_zero }
    · exact h

theorem escParam_ok {i : Int} (h0 : 0 ≤ i) (h1 : i < MAX_ESC_PARAMS) : Ok (t.escParam i) fun _ => True := by
  unfold Term.escParam
  rw [if_pos ⟨h0, h1⟩]
  exact .pure trivial

/-- A parameter is read only below the count. -/
theorem termGetParam_ok (h : Inv t.toControl) {i : Int} (hi : 0 ≤ i) (deflt : Int) :
    Ok (termGetParam t i deflt) fun _ => True := by
  have hparams := h.params
  unfold termGetParam
  refine Ok.ite (fun _ => .pure trivial) fun hlt => ?_
  exact (escParam_ok hi (by omega)).bind fun _ _ => .pure trivial

theorem sgrExtended_ok (h : Inv t.toControl) {i : Int} (hi : 0 ≤ i) (set : Pen → UInt8 → Pen) :
    Ok (sgrExtended t i set) fun r => i ≤ r.2 := by
  have hparams := h.params
  unfold sgrExtended
  refine Ok.ite (fun hlt => ?_) fun _ => .pure (Int.le_refl i)
  refine (escParam_ok (by omega) (by omega)).bind fun _ _ => Ok.ite (fun _ => ?_) fun _ => .pure (Int.le_refl i)
  refine (escParam_ok (by omega) (by omega)).bind fun color _ => .pure ?_
  show i ≤ i + 2
  omega

/-- The loop over the parameters ends: its variable grows, and there is a first turn in any case. -/
theorem sgrLoop_safe : ∀ (fuel : Nat) (i : Int) (t : Term), Inv t.toControl → 0 ≤ i → t.escParamCount + 1 ≤ fuel + i →
    1 ≤ fuel → (1 ≤ i ∨ 2 ≤ fuel) → Safe (sgrLoop fuel i t)
  | 0, _, _, _, _, _, hpos, _ => by omega
  | fuel + 1, i, t, h, hi, hcount, _, hturn => by
    unfold sgrLoop
    refine Ok.ite (fun hgo => ?_) fun _ => .pure h
    refine (termGetParam_ok h hi 0).bind fun param _ => Ok.bind (P := fun r => i ≤ r.2) ?_ ?_
    · refine Ok.ite (fun _ => sgrExtended_ok h hi _) fun _ => ?_
      exact Ok.ite (fun _ => sgrExtended_ok h hi _) fun _ => .pure (Int.le_refl i)
    · rintro ⟨pen, j⟩ hj
      have hj : i ≤ j := hj
      have h' : Inv (t.setPen pen).toControl := { h with }
      have hcount' : (t.setPen pen).escParamCount = t.escParamCount := rfl
      exact sgrLoop_safe fuel (j + 1) _ h' (by omega) (by omega) (by omega) (by omega)

theorem termCsiSgr_safe (h : Inv t.toControl) : Safe (termCsiSgr t) := by
  have hparams := h.params
  exact sgrLoop_safe _ 0 t h (Int.le_refl 0) (by omega) (by omega) (.inr (by omega))

theorem csiEraseDisplay_safe (h : Inv t.toControl) : Safe (csiEraseDisplay t) := by
  have herase : ∀ (a b : Int) (t : Term), Inv t.toControl → 0 ≤ a → b ≤ TERM_HEIGHT → Safe (do
      let t ← forRange a b (fun y t => fillRow t y 0 TERM_WIDTH colourBlank) t
      termRenderScreen t) := fun a b t h ha hb => by
    refine (forRange_safe h fun y t h0 h1 h => ?_).bind fun t h => termRenderScreen_safe h
    exact fillRow_safe h ⟨by omega, by omega⟩ (Int.le_refl 0) (Int.le_refl _) _
  unfold csiEraseDisplay
  refine (termGetParam_ok h (Int.le_refl 0) 0).bind fun mode _ => ?_
  refine Ok.ite (fun _ => ?_) fun _ => Ok.ite (fun _ => ?_) fun _ => Ok.ite (fun _ => ?_) fun _ => Ok.ite (fun _ => ?_) fun _ => .pure h
  · refine (fillRow_safe h h.cursorY h.cursorX.1 (Int.le_refl _) _).bind fun t h => ?_
    exact herase _ _ t h (by have := h.cursorY.1; omega) (Int.le_refl _)
  · have hy := h.cursorY.2
    refine (fillRow_safe h h.cursorY (Int.le_refl 0) h.cursorX.2 _).bind fun t h => ?_
    exact herase _ _ t h (Int.le_refl 0) (by omega)
  · exact herase _ _ t h (Int.le_refl 0) (Int.le_refl _)
  · refine herase _ _ _ ?_ (Int.le_refl 0) (Int.le_refl _)
    have hzero : Within 0 TERM_SCROLLBACK := by decide
    exact { h with lines := ⟨hzero.1, Int.le_of_lt hzero.2⟩, write := hzero }

theorem csiEraseLine_safe (h : Inv t.toControl) : Safe (csiEraseLine t) := by
  have herase : ∀ a b : Int, 0 ≤ a → b ≤ TERM_WIDTH → Safe (do
      let t ← fillRow t t.cursorY a b colourBlank
      termRenderLine t t.cursorY) := fun a b ha hb =>
    (fillRow_safe h h.cursorY ha hb _).bind fun t h => termRenderLine_safe h h.cursorY
  unfold csiEraseLine
  refine (termGetParam_ok h (Int.le_refl 0) 0).bind fun mode _ => ?_
  refine Ok.ite (fun _ => ?_) fun _ => Ok.ite (fun _ => ?_) fun _ => Ok.ite (fun _ => ?_) fun _ => .pure h
  · exact herase _ _ h.cursorX.1 (Int.le_refl _)
  · exact herase _ _ (Int.le_refl 0) h.cursorX.2
  · exact herase _ _ (Int.le_refl 0) (Int.le_refl _)

theorem csiMargins_safe (h : Inv t.toControl) : Safe (csiMargins t) := by
  unfold csiMargins
  refine (termGetParam_ok h (Int.le_refl 0) 1).bind fun p _ => ?_
  refine (termGetParam_ok h (by decide) TERM_HEIGHT).bind fun q _ => ?_
  dsimp only
  generalize htop : (if cInt (p - 1) < 0 then 0 else cInt (p - 1)) = top
  generalize hbottom : (if TERM_HEIGHT ≤ cInt (q - 1) then TERM_HEIGHT - 1 else cInt (q - 1)) = bottom
  refine Ok.ite (fun hlt => .pure (termMoveCursor_inv ?_ _ _)) fun _ => .pure h
  have h0 : 0 ≤ top := by
    rw [← htop]
    split <;> omega
  have h1 : bottom < TERM_HEIGHT := by
    rw [← hbottom]
    split <;> omega
  exact { h with region := ⟨h0, hlt, h1⟩ }

theorem csiMode_inv (h : Inv t.toControl) (p1 : Int) (set : Bool) : Inv (csiMode t p1 set).toControl := by
  have horigin : Inv { t.toControl with originMode := set } := { h with }
  have hmove : ∀ y, Inv (termMoveCursor { t with originMode := set } 0 y).toControl :=
    fun y => @termMoveCursor_inv { t with originMode := set } horigin 0 y
  unfold csiMode
  split
  · split
    · exact { h with }
    split
    · exact hmove _
    split
    · exact { h with }
    split
    · split
      · exact { h with }
      · exact { h with }
    · exact h
  · split
    · exact { h with }
    split
    · exact { h with }
    · exact h

/-- **Every final character is safe, with any parameters.** -/
theorem csiSwitch_safe (h : Inv t.toControl) (p1 p2 : Int) (final : UInt8) : Safe (csiSwitch t p1 p2 final) := by
  have hmove : ∀ x y, Safe (some (termMoveCursor t x y)) := fun x y => .pure (termMoveCursor_inv h x y)
  unfold csiSwitch
  refine Ok.ite (fun _ => hmove _ _) fun _ => Ok.ite (fun _ => hmove _ _) fun _ => ?_
  refine Ok.ite (fun _ => hmove _ _) fun _ => Ok.ite (fun _ => hmove _ _) fun _ => ?_
  refine Ok.ite (fun _ => hmove _ _) fun _ => Ok.ite (fun _ => hmove _ _) fun _ => ?_
  refine Ok.ite (fun _ => hmove _ _) fun _ => Ok.ite (fun _ => hmove _ _) fun _ => ?_
  refine Ok.ite (fun _ => csiEraseDisplay_safe h) fun _ => Ok.ite (fun _ => csiEraseLine_safe h) fun _ => ?_
  refine Ok.ite (fun _ => termScrollDown_safe h h.cursorY.1 h.region.2.2 p1) fun _ => ?_
  refine Ok.ite (fun _ => termScrollUp_safe h h.cursorY.1 h.region.2.2 p1) fun _ => ?_
  refine Ok.ite (fun _ => termScrollUp_safe h h.region.1 h.region.2.2 p1) fun _ => ?_
  refine Ok.ite (fun _ => termScrollDown_safe h h.region.1 h.region.2.2 p1) fun _ => ?_
  refine Ok.ite (fun _ => hmove _ _) fun _ => Ok.ite (fun _ => termCsiSgr_safe h) fun _ => ?_
  refine Ok.ite (fun _ => (termGetParam_ok h (Int.le_refl 0) 0).bind fun _ _ => .pure h) fun _ => ?_
  refine Ok.ite (fun _ => csiMargins_safe h) fun _ => Ok.ite (fun _ => .pure { h with }) fun _ => ?_
  exact Ok.ite (fun _ => hmove _ _) fun _ => Ok.ite (fun _ => .pure (csiMode_inv h p1 _)) fun _ => .pure h

theorem termHandleCsi_safe (h : Inv t.toControl) (final : UInt8) : Safe (termHandleCsi t final) := by
  have h' : Inv { t.toControl with escapesProcessed := t.escapesProcessed + 1 } := { h with }
  unfold termHandleCsi
  refine (termGetParam_ok h (Int.le_refl 0) 1).bind fun p1 _ => ?_
  exact (termGetParam_ok h (by decide) 1).bind fun p2 _ => csiSwitch_safe h' p1 p2 final

/-! ### Characters -/

theorem nextTab_ok : ∀ (n : Nat) (x : Int), 0 ≤ x → x + n ≤ TERM_WIDTH → Ok (nextTab t n x) fun r => 0 ≤ r
  | 0, _, h0, _ => .pure h0
  | n + 1, x, h0, h1 => by
    have htab : Ok (t.tab x) fun _ => True := by
      unfold Term.tab
      rw [if_pos ⟨h0, by omega⟩]
      exact .pure trivial
    unfold nextTab
    exact htab.bind fun _ _ => Ok.ite (fun _ => nextTab_ok n (x + 1) (by omega) (by omega)) fun _ => .pure h0

/-- **A printed character** moves the cursor, which wraps or stays in the last column. -/
theorem termPrint_safe (h : Inv t.toControl) (c : UInt8) : Safe (termPrint t c) := by
  unfold termPrint
  refine Safe.bind (Ok.ite (fun _ => ?_) fun _ => .pure h) fun t h => ?_
  · have hx := h.cursorX.1
    refine forRangeDown_ok (fun x t h0 h1 ht => ?_) h
    refine (cell_ok ht.cursorY ⟨by omega, by omega⟩).bind fun _ _ => ?_
    exact setCell_safe ht ht.cursorY ⟨by omega, by omega⟩ _
  refine (setCell_safe h h.cursorY h.cursorX _).bind fun t h => ?_
  refine (termRenderCell_safe h h.cursorX h.cursorY).bind fun t h => ?_
  refine Safe.bind (Ok.ite (fun _ => Ok.ite (fun _ => ?_) fun _ => ?_) fun hlt => ?_) fun t h => .pure (showCursor_inv h)
  · have hzero : Inv { t.toControl with cursorX := 0, charsWritten := t.charsWritten + 1 } := { h with cursorX := within_zero }
    exact termNewline_safe hzero
  · have hlast : Within (TERM_WIDTH - 1) TERM_WIDTH := by decide
    exact .pure { h with cursorX := hlast }
  · have hnext : Within (t.cursorX + 1) TERM_WIDTH := ⟨Int.le_add_one h.cursorX.1, by simpa using hlt⟩
    exact .pure { h with cursorX := hnext }

theorem termPutcharInternal_safe (h : Inv t.toControl) (c : UInt8) : Safe (termPutcharInternal t c) := by
  have hx := h.cursorX
  unfold termPutcharInternal
  refine Ok.ite (fun _ => .pure h) fun _ => Ok.ite (fun _ => .pure h) fun _ => Ok.ite (fun _ => .pure ?_) fun _ => ?_
  · split
    · rename_i hpos
      have hback : Within (t.cursorX - 1) TERM_WIDTH := ⟨by omega, Int.lt_trans (by omega) hx.2⟩
      exact { h with cursorX := hback }
    · exact h
  refine Ok.ite (fun _ => ?_) fun _ => Ok.ite (fun _ => termNewline_safe h) fun _ => ?_
  · refine (nextTab_ok _ (t.cursorX + 1) (Int.le_add_one hx.1) ?_).bind fun next hnext => .pure ?_
    · have := hx.2
      omega
    · have hcol : Within (if next < TERM_WIDTH then next else TERM_WIDTH - 1) TERM_WIDTH := by
        unfold Within
        split
        · exact ⟨hnext, by assumption⟩
        · exact ⟨by decide, by decide⟩
      exact { h with cursorX := hcol }
  refine Ok.ite (fun _ => .pure { h with cursorX := within_zero }) fun _ => Ok.ite (fun _ => .pure ?_) fun _ => termPrint_safe h c
  have hnone : (0 : Int) ≤ 0 ∧ (0 : Int) ≤ MAX_ESC_PARAMS := by decide
  exact { h with params := hnone }

/-- The parser's state bounds nothing. -/
theorem Inv.setState {t : Control} (h : Inv t) (st : ParseState) : Inv { t with state := st } := { h with }

theorem putEsc_safe (h : Inv t.toControl) (c : UInt8) : Safe (putEsc t c) := by
  have hregion := h.region
  unfold putEsc
  refine Ok.ite (fun _ => .pure (h.setState _)) fun _ => Ok.ite (fun _ => .pure (h.setState _)) fun _ => ?_
  refine Ok.ite (fun _ => .pure (h.setState _)) fun _ => Ok.ite (fun _ => .pure { h with }) fun _ => ?_
  refine Ok.ite (fun _ => .pure ((termMoveCursor_inv h _ _).setState _)) fun _ => ?_
  refine Ok.ite (fun _ => (termNewline_safe h).bind fun t h => .pure (h.setState _)) fun _ => ?_
  refine Ok.ite (fun _ => ?_) fun _ => Ok.ite (fun _ => ?_) fun _ => Ok.ite (fun _ => .pure ?_) fun _ => .pure (h.setState _)
  · have hzero : Inv { t.toControl with cursorX := 0 } := { h with cursorX := within_zero }
    exact Safe.bind (termNewline_safe hzero) fun t h => .pure (h.setState _)
  · refine Safe.bind (Ok.ite (fun _ => ?_) fun hlt => ?_) fun t h => .pure (h.setState _)
    · exact termScrollDown_safe h hregion.1 hregion.2.2 1
    · have hy : Within (t.cursorY - 1) TERM_HEIGHT := by
        have hy := h.cursorY
        unfold Within at *
        omega
      exact .pure { h with cursorY := hy }
  · have hhome : Within 0 TERM_HEIGHT := by decide
    have hfull : (0 : Int) ≤ 0 ∧ 0 < TERM_HEIGHT - 1 ∧ TERM_HEIGHT - 1 < TERM_HEIGHT := by decide
    exact { h with cursorX := within_zero, cursorY := hhome, region := hfull }

theorem putFinal_safe (h : Inv t.toControl) (c : UInt8) : Safe (putFinal t c) := by
  unfold putFinal
  refine Ok.ite (fun _ => ?_) fun _ => .pure (h.setState _)
  exact (termHandleCsi_safe h c).bind fun t h => .pure (h.setState _)

theorem setEscParam_safe (h : Inv t.toControl) {i : Int} (h0 : 0 ≤ i) (h1 : i < MAX_ESC_PARAMS) (v : Int) :
    Safe (t.setEscParam i v) := by
  unfold Term.setEscParam
  rw [if_pos ⟨h0, h1⟩]
  exact .pure { h with }

theorem putCsi_safe (h : Inv t.toControl) (c : UInt8) : Safe (putCsi t c) := by
  have hone : (0 : Int) ≤ 1 ∧ (1 : Int) ≤ MAX_ESC_PARAMS := by decide
  unfold putCsi
  refine Ok.ite (fun _ => .pure { h with }) fun _ => Ok.ite (fun _ => ?_) fun _ => ?_
  · have hset := setEscParam_safe (t := { t with state := .csiParam }) (h.setState _) (Int.le_refl 0) (by decide)
    exact (hset _).bind fun t h => .pure { h with params := hone }
  · exact Ok.ite (fun _ => .pure { h with params := hone }) fun _ => putFinal_safe h c

/-- A digit goes to the last parameter, of which there are never more than the array holds. -/
theorem putCsiParam_safe (h : Inv t.toControl) (c : UInt8) : Safe (putCsiParam t c) := by
  have hparams := h.params
  unfold putCsiParam
  refine Ok.ite (fun _ => ?_) fun _ => Ok.ite (fun _ => .pure ?_) fun _ => putFinal_safe h c
  · generalize hidx : (if 0 < t.escParamCount then t.escParamCount - 1 else 0) = idx
    have hi : 0 ≤ idx ∧ idx < MAX_ESC_PARAMS := by
      unfold MAX_ESC_PARAMS at *
      rw [← hidx]
      split <;> omega
    exact (escParam_ok hi.1 hi.2).bind fun p _ => setEscParam_safe h hi.1 hi.2 _
  · split
    · rename_i hlt
      have hnext : 0 ≤ t.escParamCount + 1 ∧ t.escParamCount + 1 ≤ MAX_ESC_PARAMS := by omega
      exact { h with params := hnext }
    · exact h

/-- **Every character is safe in every state of the parser.** -/
theorem termPutchar_safe (h : Inv t.toControl) (c : UInt8) : Safe (termPutchar t c) := by
  unfold termPutchar
  cases t.state with
  | normal => exact termPutcharInternal_safe h c
  | esc => exact putEsc_safe h c
  | csi => exact putCsi_safe h c
  | csiParam => exact putCsiParam_safe h c
  | osc =>
    refine .pure ?_
    split
    · exact h.setState _
    · exact h
  | charset => exact .pure (h.setState _)

theorem termClear_safe (h : Inv t.toControl) : Safe (termClear t) := by
  have hhome : Within 0 TERM_HEIGHT := by decide
  unfold termClear
  refine (forRange_safe h fun y t h0 h1 h => ?_).bind fun t h => ?_
  · exact fillRow_safe h ⟨h0, h1⟩ (Int.le_refl 0) (Int.le_refl _) _
  · have h' : Inv { t.toControl with cursorX := 0, cursorY := 0 } := { h with cursorX := within_zero, cursorY := hhome }
    exact termRenderScreen_safe h'

/-- **`term_init` leaves a terminal within its bounds**, with and without a scrollback buffer. -/
theorem termInit_safe (vga : Int → UInt16) (got : Bool) : Safe (termInit vga got) := by
  have hstart : Inv { zeroedControl with
      defaultFg := COLOR_LIGHT_GRAY, defaultBg := COLOR_BLACK, fgColor := COLOR_LIGHT_GRAY, bgColor := COLOR_BLACK,
      cursorVisible := true, autowrap := true, scrollTop := 0, scrollBottom := TERM_HEIGHT - 1 } := by
    refine ⟨?_, ?_, ?_, ?_, ?_, ?_, ?_⟩ <;> decide
  have htabs : ∀ (i : Int) (t : Term), 0 ≤ i → i < TERM_WIDTH / TERM_TAB_WIDTH → Inv t.toControl →
      Safe (t.setTab (i * TERM_TAB_WIDTH)) := fun i t h0 h1 h => by
    have htab : Within (i * TERM_TAB_WIDTH) TERM_WIDTH := by
      unfold Within TERM_TAB_WIDTH TERM_WIDTH at *
      omega
    unfold Term.setTab
    rw [if_pos htab]
    exact .pure { h with }
  unfold termInit
  refine (forRange_safe hstart htabs).bind fun t h => ?_
  refine Safe.bind ?_ fun t h => .pure { h with }
  exact termClear_safe { h with }

/-! ### Runs -/

/-- A byte written to the terminal, or a call of `term_scroll_view`. -/
inductive Call
  | byte (c : UInt8)
  | scrollView (lines : Int)

/-- The terminal from `term_init` on; a call that leaves an array has no step. -/
def termMachine : Machine Term Call where
  init t := ∃ vga got, termInit vga got = some t
  step t
    | .byte c => termPutchar t c
    | .scrollView lines => termScrollView t lines

theorem termMachine_step_safe (h : Inv t.toControl) (c : Call) : Safe (termMachine.step t c) := by
  cases c with
  | byte c => exact termPutchar_safe h c
  | scrollView lines => exact termScrollView_safe h lines

theorem termMachine_run_safe : ∀ (l : List Call) (t : Term), Inv t.toControl → Safe (termMachine.run t l)
  | [], _, h => .pure h
  | c :: l, t, h => by
    obtain ⟨u, hu, hinv⟩ := termMachine_step_safe h c
    rw [Machine.run, hu]
    exact termMachine_run_safe l u hinv

/-- **The terminal emulator is safe**: it starts, whatever the video memory holds and whether or not it gets a scrollback
buffer; and after any bytes and any scroll views it has made no access out of bounds, its cursor is on the screen, its
scroll region is a region, and its parameter count and scrollback position are within their limits. -/
theorem terminal_safe (vga : Int → UInt16) (got : Bool) (l : List Call) :
    ∃ t₀ t, termInit vga got = some t₀ ∧ termMachine.run t₀ l = some t ∧
      (0 ≤ t.cursorX ∧ t.cursorX < TERM_WIDTH) ∧ (0 ≤ t.cursorY ∧ t.cursorY < TERM_HEIGHT) ∧
      (0 ≤ t.scrollTop ∧ t.scrollTop < t.scrollBottom ∧ t.scrollBottom < TERM_HEIGHT) ∧
      (0 ≤ t.escParamCount ∧ t.escParamCount ≤ MAX_ESC_PARAMS) ∧
      (0 ≤ t.scrollbackPos ∧ t.scrollbackPos ≤ TERM_SCROLLBACK) := by
  obtain ⟨t₀, ht₀, h₀⟩ := termInit_safe vga got
  obtain ⟨t, ht, h⟩ := termMachine_run_safe l t₀ h₀
  exact ⟨t₀, t, ht₀, ht, h.cursorX, h.cursorY, h.region, h.params, h.pos⟩

end Terminal
end Pico
