import SumiOS.Tty
import SumiOS.Lib.Terminal

/-!
# `SumiOS.Proofs.Tty.Refinement`: the console shows one terminal

The terminal is a `Grid` of 80 columns that is fed characters (`feed`). A driver is a
screen of 25 rows in video memory (`screenOf`), and `__kputchar` performs the actions of its
character on it (`putchar_drives`), the tab included. So the driver shows the window of
the terminal (`Shown`), whichever of its two copies runs, and `tty_init` hands the
screen over as it is.
-/

set_option autoImplicit false

namespace SumiOS

open Lib

/-! ### The terminal -/

/-- A space in the default color. -/
def blankCell : BitVec 16 := 0x0F20

/-- What a character does. A tab writes four spaces. -/
def charActions (ch : BitVec 8) : List (Action (BitVec 16)) :=
  if ch = 0x0A then [.newline]
  else if ch = 0x0D then [.carriageReturn]
  else if ch = 0x08 then [.back]
  else if ch = 0x09 then List.replicate 4 (.put blankCell)
  else [.put (cellOf CGA_TEXT_COLOR_DEFAULT ch)]

/-- One character on a terminal of 80 columns. -/
def feedChar (g : Grid (BitVec 16)) (ch : BitVec 8) : Grid (BitVec 16) :=
  (charActions ch).foldl (Grid.act 80) g

/-- The terminal that was fed a string. -/
def feed (s : List (BitVec 8)) : Grid (BitVec 16) := s.foldl feedChar (Grid.init blankCell)

/-! ### The devices -/

/-- The controller of a display mode. -/
def crtcOf (hw : Hardware) : DisplayMode → Crtc
  | .blackwhite => hw.blackwhite
  | .text => hw.text

/-- The cursor location that the controller holds. -/
def cursorRegisters (mode : DisplayMode) (hw : Hardware) : Nat :=
  ((crtcOf hw mode).data CRTC_DATA_CURSOR_LOC_HIGH).toNat * 256 +
    ((crtcOf hw mode).data CRTC_DATA_CURSOR_LOC_LOW).toNat

/-- Only cells of the screen were written. -/
def WritesInside (hw hw' : Hardware) : Prop :=
  ∀ i ∈ hw'.written, i < CGA_TEXT_SIZE ∨ i ∈ hw.written

/-- Writing nothing stays inside the screen, the base of the inductions over the loops. -/
theorem WritesInside.refl (hw : Hardware) : WritesInside hw hw := fun _ hi => Or.inr hi

/-- Two pieces of code that each write only cells of the screen do so one after the other. -/
theorem WritesInside.trans {hw hw₁ hw₂ : Hardware} (h : WritesInside hw hw₁)
    (h' : WritesInside hw₁ hw₂) : WritesInside hw hw₂ := by
  intro i hi
  rcases h' i hi with hlt | hi
  · exact Or.inl hlt
  · exact h i hi

section Devices

variable {hw : Hardware}

/-- The ports are no memory: a write to one changes neither the video memory nor the record of
written cells. -/
theorem outb_memory (port : BitVec 16) (value : BitVec 8) (hw : Hardware) :
    (outb port value hw).vram = hw.vram ∧ (outb port value hw).written = hw.written := by
  unfold outb
  split_ifs <;> exact ⟨rfl, rfl⟩

/-- Moving the cursor talks to the controller through ports only, so neither video memory nor the
record of written cells changes. -/
theorem setCursorLoc_memory (mode : DisplayMode) (loc : BitVec 16) (hw : Hardware) :
    (setCursorLoc mode loc hw).vram = hw.vram ∧
      (setCursorLoc mode loc hw).written = hw.written := by
  cases mode <;>
    simp only [setCursorLoc, setCursorLocBlackwhite, setCursorLocText, outb_memory, and_self]

/-- The serial and the parallel output of a character go through ports as well and leave video
memory alone. -/
theorem putcharPorts_memory (color ch : BitVec 8) (hw : Hardware) :
    (putcharLpt color ch (putcharSerial color ch hw)).vram = hw.vram ∧
      (putcharLpt color ch (putcharSerial color ch hw)).written = hw.written := by
  simp only [putcharLpt, putcharSerial, outb_memory, and_self]

/-- The two halves of the cursor location, as the two registers hold them, make up the location
again. -/
theorem halves_toNat (loc : BitVec 16) :
    ((loc >>> 8).setWidth 8).toNat * 256 + ((loc &&& 0xFF).setWidth 8).toNat = loc.toNat := by
  have hlow : (loc &&& 0xFF).toNat = loc.toNat % 2 ^ 8 := by
    rw [BitVec.toNat_and]
    exact Nat.and_two_pow_sub_one_eq_mod loc.toNat 8
  have hlt := loc.isLt
  rw [BitVec.toNat_setWidth, BitVec.toNat_setWidth, hlow, BitVec.toNat_ushiftRight,
    Nat.shiftRight_eq_div_pow]
  omega

/-- The two ports of the black-and-white controller: one selects a register, the other stores into
the selected one. -/
theorem outb_blackwhite (value : BitVec 8) (hw : Hardware) :
    outb CRTC_ADDRESS_REGISTER_BLACKWHITE value hw
        = { hw with blackwhite := hw.blackwhite.select value } ∧
      outb CRTC_DATA_REGISTER_BLACKWHITE value hw
        = { hw with blackwhite := hw.blackwhite.store value } :=
  ⟨if_pos rfl, by rw [outb, if_neg (by decide), if_pos rfl]⟩

/-- The two ports of the text controller, whose addresses differ from those of the other one, so
that neither reaches the other's registers. -/
theorem outb_text (value : BitVec 8) (hw : Hardware) :
    outb CRTC_ADDRESS_REGISTER_TEXT value hw = { hw with text := hw.text.select value } ∧
      outb CRTC_DATA_REGISTER_TEXT value hw = { hw with text := hw.text.store value } := by
  constructor
  · rw [outb, if_neg (by decide), if_neg (by decide), if_pos rfl]
  · rw [outb, if_neg (by decide), if_neg (by decide), if_neg (by decide), if_pos rfl]

/-- Each mode has its own controller, to which the halves are written one after the other. -/
theorem crtcOf_setCursorLoc (mode : DisplayMode) (loc : BitVec 16) (hw : Hardware) :
    crtcOf (setCursorLoc mode loc hw) mode =
      ((((crtcOf hw mode).select CRTC_DATA_CURSOR_LOC_HIGH).store
        ((loc >>> 8).setWidth 8)).select CRTC_DATA_CURSOR_LOC_LOW).store
          ((loc &&& 0xFF).setWidth 8) := by
  cases mode with
  | blackwhite => simp only [setCursorLoc, setCursorLocBlackwhite, outb_blackwhite, crtcOf]
  | text => simp only [setCursorLoc, setCursorLocText, outb_text, crtcOf]

/-- The controller of the mode holds the location afterwards. -/
theorem setCursorLoc_registers (mode : DisplayMode) (loc : BitVec 16) (hw : Hardware) :
    cursorRegisters mode (setCursorLoc mode loc hw) = loc.toNat := by
  have hne : CRTC_DATA_CURSOR_LOC_HIGH ≠ CRTC_DATA_CURSOR_LOC_LOW := by decide
  rw [← halves_toNat loc, cursorRegisters, crtcOf_setCursorLoc]
  simp only [Crtc.select, Crtc.store, Function.update_self, Function.update_of_ne hne]

/-! ### The loops -/

/-- A loop whose rounds write inside the screen does. -/
theorem forLoop_inside {body : Nat → Hardware → Hardware} {start : Nat} (n : Nat)
    (hbody : ∀ i < n, ∀ hw, WritesInside hw (body (start + i) hw)) :
    WritesInside hw (forLoop body start n hw) := by
  induction n with
  | zero => exact WritesInside.refl hw
  | succ n ih =>
      exact (ih fun i hi => hbody i (by omega)).trans (hbody n (by omega) _)

/-- A write to a cell of the screen is recorded as one inside the screen. -/
theorem setCell_inside {loc : Nat} (h : loc < CGA_TEXT_SIZE) (cell : BitVec 16) (hw : Hardware) :
    WritesInside hw (setCell loc cell hw) := by
  intro i hi
  rcases List.mem_cons.mp hi with rfl | hi
  · exact Or.inl h
  · exact Or.inr hi

/-- The loop that moves the cells up reads each cell before it is overwritten. -/
theorem forLoop_shift (k n : Nat) (hw : Hardware) (i : Nat) :
    (forLoop (fun i hw => setCell (i - k) (hw.vram i) hw) k n hw).vram i
      = if i < n then hw.vram (i + k) else hw.vram i := by
  induction n generalizing i with
  | zero => exact (if_neg (Nat.not_lt_zero i)).symm
  | succ n ih =>
      show Function.update (forLoop _ k n hw).vram (k + n - k) ((forLoop _ k n hw).vram (k + n)) i = _
      rw [ih (k + n), Nat.add_sub_cancel_left, if_neg (by omega)]
      by_cases he : i = n
      · rw [he, Function.update_self, if_pos (by omega), Nat.add_comm]
      · rw [Function.update_of_ne he, ih]
        exact if_congr (by omega) rfl rfl

/-- The loop that writes one character to `n` cells from `base` on, cell by cell: these cells have
it in the end, and the others are as before. -/
theorem forLoop_fill (color ch : BitVec 8) (base n : Nat) (hw : Hardware) (i : Nat) :
    (forLoop (fun i => setChar color ch (base + i)) 0 n hw).vram i
      = if base ≤ i ∧ i < base + n then cellOf color ch else hw.vram i := by
  induction n generalizing i with
  | zero => exact (if_neg (by omega)).symm
  | succ n ih =>
      show Function.update (forLoop _ 0 n hw).vram (base + (0 + n)) (cellOf color ch) i = _
      rw [Nat.zero_add]
      by_cases he : i = base + n
      · rw [he, Function.update_self, if_pos (by omega)]
      · rw [Function.update_of_ne he, ih]
        exact if_congr (by omega) rfl rfl

/-- A space in white on black is the blank cell with which the terminal is filled. -/
theorem cellOf_blank :
    cellOf (CGA_TEXT_COLOR_BLACK <<< 4 ||| CGA_TEXT_COLOR_WHIGHT) 0x20 = blankCell := by
  decide

/-- The two loops of `roll_screen_mem` move the screen up by one row and blank the last one, the
operation `roll` of the terminal library. -/
theorem rollScreenMem_vram (hw : Hardware) :
    (rollScreenMem hw).vram = roll CGA_TEXT_COLUMNS CGA_TEXT_ROWS blankCell hw.vram := by
  have hcols : CGA_TEXT_COLUMNS = 80 := rfl
  have hrows : CGA_TEXT_ROWS = 25 := rfl
  have hsize : CGA_TEXT_SIZE = 2000 := rfl
  funext i
  rw [rollScreenMem, forLoop_fill, forLoop_shift, cellOf_blank, hcols, hrows, hsize, roll]
  by_cases hup : i < 1920
  · rw [if_neg (by omega), if_pos (by omega), if_pos (by omega)]
  · by_cases hlast : i < 2000
    · rw [if_pos (by omega), if_neg (by omega), if_pos (by omega)]
    · rw [if_neg (by omega), if_neg (by omega), if_neg (by omega), if_neg (by omega)]

/-- Neither of the two loops reads or writes beyond the last cell of the screen. -/
theorem rollScreenMem_inside (hw : Hardware) : WritesInside hw (rollScreenMem hw) := by
  have hcols : CGA_TEXT_COLUMNS = 80 := rfl
  have hsize : CGA_TEXT_SIZE = 2000 := rfl
  have hshift : WritesInside hw (forLoop (fun i hw => setCell (i - CGA_TEXT_COLUMNS) (hw.vram i) hw)
      CGA_TEXT_COLUMNS (CGA_TEXT_SIZE - CGA_TEXT_COLUMNS) hw) :=
    forLoop_inside _ fun i hi hw => setCell_inside (by omega) _ hw
  exact hshift.trans (forLoop_inside _ fun i hi hw => setCell_inside (by omega) _ hw)

end Devices

/-! ### The driver -/

/-- The screen of a driver. -/
def screenOf (d : Driver) : Screen (BitVec 16) := ⟨d.hw.vram, d.cursorLoc.toNat⟩

/-- One action on the screen. -/
abbrev screenAct : Screen (BitVec 16) → Action (BitVec 16) → Screen (BitVec 16) :=
  Screen.act CGA_TEXT_COLUMNS CGA_TEXT_ROWS blankCell

/-- The driver performs the actions, and the controller has the new cursor. -/
structure Drives (d d' : Driver) (as : List (Action (BitVec 16))) : Prop where
  screen : screenOf d' = as.foldl screenAct (screenOf d)
  mode : d'.displayMode = d.displayMode
  registers : cursorRegisters d'.displayMode d'.hw = d'.cursorLoc.toNat
  inside : d'.cursorLoc.toNat < CGA_TEXT_SIZE
  written : WritesInside d.hw d'.hw

section Driver

variable {d d₁ d' : Driver} {as bs : List (Action (BitVec 16))} {a : Action (BitVec 16)}

/-- Drivers compose: the actions of a first step followed by those of a second are the actions of
both. -/
theorem Drives.trans (h : Drives d d₁ as) (h' : Drives d₁ d' bs) : Drives d d' (as ++ bs) where
  screen := by rw [List.foldl_append, ← h.screen, h'.screen]
  mode := h'.mode.trans h.mode
  registers := h'.registers
  inside := h'.inside
  written := h.written.trans h'.written

/-- With the cursor behind the last cell, settling scrolls and puts the cursor at the beginning of
the last row. -/
theorem settle_roll (h : d.cursorLoc.toNat ≥ CGA_TEXT_SIZE) :
    settle d = { d with
      hw := setCursorLoc d.displayMode 1920 (rollScreenMem d.hw), cursorLoc := 1920 } := by
  rw [settle, if_pos h]
  rfl

/-- With the cursor on the screen, settling only tells the controller where it is. -/
theorem settle_stay (h : ¬ d.cursorLoc.toNat ≥ CGA_TEXT_SIZE) :
    settle d = { d with hw := setCursorLoc d.displayMode d.cursorLoc d.hw } := by
  rw [settle, if_neg h]

/-- The end of `__kputchar_cga` is the end of an action. -/
theorem settle_screen (d : Driver) :
    screenOf (settle d) = Screen.settle CGA_TEXT_COLUMNS CGA_TEXT_ROWS blankCell (screenOf d) ∧
      (settle d).displayMode = d.displayMode ∧
      cursorRegisters (settle d).displayMode (settle d).hw = (settle d).cursorLoc.toNat ∧
      (settle d).cursorLoc.toNat < CGA_TEXT_SIZE ∧ WritesInside d.hw (settle d).hw := by
  have hsize : CGA_TEXT_ROWS * CGA_TEXT_COLUMNS = CGA_TEXT_SIZE := rfl
  rw [Screen.settle, hsize]
  by_cases hroll : d.cursorLoc.toNat ≥ CGA_TEXT_SIZE
  · have hroll' : (screenOf d).loc ≥ CGA_TEXT_SIZE := hroll
    rw [settle_roll hroll, if_pos hroll']
    have hlast : (1920 : BitVec 16).toNat < CGA_TEXT_SIZE := by decide
    refine ⟨?_, rfl, setCursorLoc_registers .., hlast, fun i hi => ?_⟩
    · rw [screenOf, (setCursorLoc_memory ..).1, rollScreenMem_vram]
      rfl
    · rw [(setCursorLoc_memory ..).2] at hi
      exact rollScreenMem_inside _ i hi
  · have hroll' : ¬ (screenOf d).loc ≥ CGA_TEXT_SIZE := hroll
    rw [settle_stay hroll, if_neg hroll']
    refine ⟨?_, rfl, setCursorLoc_registers .., Nat.lt_of_not_le hroll, fun i hi => ?_⟩
    · rw [screenOf, (setCursorLoc_memory ..).1]
      rfl
    · rw [(setCursorLoc_memory ..).2] at hi
      exact Or.inr hi

/-- To show that a step drives the screen it is enough to look at it before it settles: settling on
the driver is settling on the screen. -/
theorem settle_drives
    (hscreen : Screen.settle CGA_TEXT_COLUMNS CGA_TEXT_ROWS blankCell (screenOf d₁)
      = as.foldl screenAct (screenOf d))
    (hmode : d₁.displayMode = d.displayMode) (hwritten : WritesInside d.hw d₁.hw) :
    Drives d (settle d₁) as := by
  obtain ⟨hs, hm, hregisters, hinside, hw⟩ := settle_screen d₁
  exact ⟨hs.trans hscreen, hm.trans hmode, hregisters, hinside, hwritten.trans hw⟩

/-- The column of a location is its remainder by the 80 cells of a row. -/
theorem column_toNat (loc : BitVec 16) : (column loc).toNat = loc.toNat % 80 := by
  rw [column, BitVec.toNat_umod]
  rfl

/-- The start of the line, which a carriage return goes to: the location less its column. -/
theorem sub_column_toNat (loc : BitVec 16) :
    (loc - column loc).toNat = loc.toNat - loc.toNat % 80 := by
  have hle : column loc ≤ loc := by
    rw [BitVec.le_def, column_toNat]
    exact Nat.mod_le _ _
  rw [BitVec.toNat_sub_of_le hle, column_toNat]

/-- One column back, unless at the start of the line, as the words of the source compute it and as
a number. -/
theorem back_toNat (loc : BitVec 16) :
    (if column loc ≠ 0 then loc - 1 else loc).toNat
      = if loc.toNat % 80 ≠ 0 then loc.toNat - 1 else loc.toNat := by
  have hcol := column_toNat loc
  by_cases hzero : column loc = 0
  · have hstart : loc.toNat % 80 = 0 := by
      rw [← hcol, hzero]
      rfl
    rw [if_neg (not_not.mpr hzero), if_neg (not_not.mpr hstart)]
  · have hne : loc.toNat % 80 ≠ 0 := by
      rw [← hcol]
      exact fun h => hzero (BitVec.eq_of_toNat_eq h)
    have hle : (1 : BitVec 16) ≤ loc := by
      rw [BitVec.le_def]
      show 1 ≤ _
      omega
    rw [if_pos hzero, if_pos hne, BitVec.toNat_sub_of_le hle]
    rfl

/-- `__kputchar` of a character that is no tab is one action. -/
theorem putchar_drives_one (hd : d.cursorLoc.toNat < CGA_TEXT_SIZE) {ch : BitVec 8}
    (htab : ch ≠ 0x09) :
    Drives d (putchar CGA_TEXT_COLOR_DEFAULT ch d) (charActions ch) := by
  have hsize : CGA_TEXT_SIZE = 2000 := rfl
  -- The two ports are written first, and leave the screen as it is.
  obtain ⟨hvram, hwritten⟩ := putcharPorts_memory CGA_TEXT_COLOR_DEFAULT ch d.hw
  have hinside : WritesInside d.hw (putcharLpt CGA_TEXT_COLOR_DEFAULT ch
      (putcharSerial CGA_TEXT_COLOR_DEFAULT ch d.hw)) := by
    intro i hi
    rw [hwritten] at hi
    exact Or.inr hi
  rw [putchar, charActions]
  dsimp only
  by_cases hnewline : ch = 0x0A
  · rw [if_pos hnewline, if_pos hnewline]
    refine settle_drives ?_ rfl hinside
    -- The next line, at the start of it: the sum does not wrap.
    have hloc : (d.cursorLoc + BitVec.ofNat 16 CGA_TEXT_COLUMNS).toNat = d.cursorLoc.toNat + 80 := by
      rw [BitVec.toNat_add]
      show (_ + 80) % 2 ^ 16 = _
      omega
    simp only [screenOf, hvram, sub_column_toNat, hloc]
    rfl
  · rw [if_neg hnewline, if_neg hnewline]
    by_cases hreturn : ch = 0x0D
    · rw [if_pos hreturn, if_pos hreturn]
      refine settle_drives ?_ rfl hinside
      simp only [screenOf, hvram, sub_column_toNat]
      rfl
    · rw [if_neg hreturn, if_neg hreturn]
      by_cases hback : ch = 0x08
      · rw [if_pos hback, if_pos hback]
        refine settle_drives ?_ rfl hinside
        simp only [screenOf, hvram, back_toNat]
        rfl
      · rw [if_neg hback, if_neg hback, dif_neg htab, if_neg htab]
        -- All other characters are written to the cell at the cursor.
        refine settle_drives ?_ rfl (hinside.trans (setCell_inside hd _ _))
        have hloc : (d.cursorLoc + 1).toNat = d.cursorLoc.toNat + 1 := by
          rw [BitVec.toNat_add]
          show (_ + 1) % 2 ^ 16 = _
          omega
        simp only [screenOf, setChar, setCell, hvram, hloc]
        rfl

/-- `__kputchar` performs the actions of its character on the screen, whatever the character is.
The cases are those of the source: newline, carriage return, backspace, tab and all others. -/
theorem putchar_drives (hd : d.cursorLoc.toNat < CGA_TEXT_SIZE) (ch : BitVec 8) :
    Drives d (putchar CGA_TEXT_COLOR_DEFAULT ch d) (charActions ch) := by
  by_cases htab : ch = 0x09
  · subst htab
    obtain ⟨hvram, hwritten⟩ := putcharPorts_memory CGA_TEXT_COLOR_DEFAULT 0x09 d.hw
    rw [putchar]
    simp only [show ¬ (0x09 : BitVec 8) = 0x0A from by decide,
      show ¬ (0x09 : BitVec 8) = 0x0D from by decide,
      show ¬ (0x09 : BitVec 8) = 0x08 from by decide, if_false, dif_pos]
    generalize hd₁ : Driver.mk (putcharLpt CGA_TEXT_COLOR_DEFAULT 0x09
      (putcharSerial CGA_TEXT_COLOR_DEFAULT 0x09 d.hw)) d.cursorLoc d.displayMode = d₁
    have hscreen : screenOf d₁ = screenOf d := by
      rw [← hd₁, screenOf, hvram]
      rfl
    have hmode : d₁.displayMode = d.displayMode := by rw [← hd₁]
    have hloc : d₁.cursorLoc.toNat < CGA_TEXT_SIZE := by rwa [← hd₁]
    have hinside : WritesInside d.hw d₁.hw := by
      intro i hi
      rw [← hd₁] at hi
      exact Or.inr (hwritten ▸ hi)
    -- Four spaces, any of which may roll the screen.
    have hspace : ∀ {d : Driver}, d.cursorLoc.toNat < CGA_TEXT_SIZE →
        Drives d (putchar CGA_TEXT_COLOR_DEFAULT 0x20 d) [.put blankCell] :=
      fun h => putchar_drives_one h (by decide)
    have h₁ := hspace hloc
    have h₂ := hspace h₁.inside
    have h₃ := hspace h₂.inside
    have h₄ := hspace h₃.inside
    have hall := ((h₁.trans h₂).trans h₃).trans h₄
    refine settle_drives ?_ (hall.mode.trans hmode) (hinside.trans hall.written)
    have hstay : ¬ (screenOf _).loc ≥ CGA_TEXT_ROWS * CGA_TEXT_COLUMNS := Nat.not_le.mpr hall.inside
    rw [Screen.settle, if_neg hstay, hall.screen, hscreen]
    rfl
  · exact putchar_drives_one hd htab

/-! ### The two copies -/

/-- The driver shows the terminal, its controller holds the cursor, and besides the cells
`old` only cells of the screen were written. -/
structure Shown (old : Hardware) (g : Grid (BitVec 16)) (d : Driver) : Prop where
  shows : Shows CGA_TEXT_COLUMNS CGA_TEXT_ROWS blankCell g (screenOf d)
  registers : cursorRegisters d.displayMode d.hw = d.cursorLoc.toNat
  written : WritesInside old d.hw

variable {old : Hardware} {g : Grid (BitVec 16)}

/-- A driver that shows a terminal has its cursor on the screen, so that the next character has a
cell to go to. -/
theorem Shown.inside (h : Shown old g d) : d.cursorLoc.toNat < CGA_TEXT_SIZE :=
  h.shows.loc_lt (by decide)

/-- One more character is shown, since its actions on the screen are those on the terminal. -/
theorem Shown.putchar (h : Shown old g d) (ch : BitVec 8) :
    Shown old (feedChar g ch) (putchar CGA_TEXT_COLOR_DEFAULT ch d) := by
  have hdrives := putchar_drives h.inside ch
  refine ⟨?_, hdrives.registers, h.written.trans hdrives.written⟩
  rw [hdrives.screen]
  exact h.shows.acts (by decide) _

/-- A cleared screen shows the terminal at its start: all cells are blank and the cursor is in the
first one. -/
theorem shown_clearScreen (d : Driver) : Shown d.hw (Grid.init blankCell) (clearScreen d) := by
  have hsize : CGA_TEXT_SIZE = 2000 := rfl
  have hzero : forLoop (fun i => setChar (CGA_TEXT_COLOR_BLACK <<< 4 ||| CGA_TEXT_COLOR_WHIGHT) 0x20 i)
      0 CGA_TEXT_SIZE d.hw = forLoop (fun i => setChar (CGA_TEXT_COLOR_BLACK <<< 4 |||
        CGA_TEXT_COLOR_WHIGHT) 0x20 (0 + i)) 0 CGA_TEXT_SIZE d.hw := by
    simp only [Nat.zero_add]
  have hfill := forLoop_fill (CGA_TEXT_COLOR_BLACK <<< 4 ||| CGA_TEXT_COLOR_WHIGHT) 0x20 0
    CGA_TEXT_SIZE d.hw
  have hinside : WritesInside d.hw (forLoop (fun i => setChar (CGA_TEXT_COLOR_BLACK <<< 4 |||
      CGA_TEXT_COLOR_WHIGHT) 0x20 (0 + i)) 0 CGA_TEXT_SIZE d.hw) :=
    forLoop_inside _ fun i hi hw => setCell_inside (by omega) _ hw
  rw [clearScreen, hzero]
  generalize forLoop _ 0 CGA_TEXT_SIZE d.hw = hw at hfill hinside
  refine ⟨?_, setCursorLoc_registers .., fun i hi => ?_⟩
  · refine shows_init (by decide) fun i hi => ?_
    rw [(setCursorLoc_memory ..).1, hfill, if_pos ⟨Nat.zero_le i, by rwa [Nat.zero_add]⟩,
      cellOf_blank]
  · rw [(setCursorLoc_memory ..).2] at hi
    exact hinside i hi

/-- The driver of the booting stage. -/
def Console.bootDriver (c : Console) : Driver := ⟨c.hw, c.bootCursorLoc, c.bootDisplayMode⟩

/-- The driver of the kernel. -/
def Console.driver (c : Console) : Driver := ⟨c.hw, c.cursorLoc, c.displayMode⟩

/-- A string written by the boot stage's copy of the driver is fed to the terminal character by
character, and the terminal stays shown. -/
theorem shown_bootPutchar {c : Console} (h : Shown old g c.bootDriver) (s : List (BitVec 8)) :
    Shown old (s.foldl feedChar g) (s.foldl bootPutchar c).bootDriver := by
  induction s generalizing c g with
  | nil => exact h
  | cons ch s ih => exact ih (c := bootPutchar c ch) (h.putchar ch)

/-- The same for the copy of the kernel stage, which the console reaches through its own driver
record. -/
theorem shown_kputchar {c : Console} (h : Shown old g c.driver) (s : List (BitVec 8)) :
    Shown old (s.foldl feedChar g) (s.foldl kputchar c).driver := by
  induction s generalizing c g with
  | nil => exact h
  | cons ch s ih => exact ih (c := kputchar c ch) (h.putchar ch)

end Driver

/-- The console of both stages shows one terminal: the cells of the screen are the rows of
its window, the cursor and the controller are at its cursor, and no other cell is
written. -/
theorem console_shows_feed (c : Console) (s₁ s₂ : List (BitVec 8)) :
    let c' := s₂.foldl kputchar (ttyInit (s₁.foldl bootPutchar (bootClearScreen c)))
    let g := feed (s₁ ++ s₂)
    let top := g.row - 24
    (∀ i < 2000, c'.hw.vram i = g.cells (top + i / 80) (i % 80)) ∧
      c'.cursorLoc.toNat < 2000 ∧ c'.cursorLoc.toNat = (g.row - top) * 80 + g.col ∧
      cursorRegisters c'.displayMode c'.hw = c'.cursorLoc.toNat ∧
      ∀ i ∈ c'.hw.written, i < 2000 ∨ i ∈ c.hw.written := by
  intro c' g top
  have hclear : Shown c.hw (Grid.init blankCell) (bootClearScreen c).bootDriver :=
    shown_clearScreen c.bootDriver
  have hboot := shown_bootPutchar hclear s₁
  -- `tty_init` hands the variables over.
  have hinit : Shown c.hw (s₁.foldl feedChar (Grid.init blankCell))
      (ttyInit (s₁.foldl bootPutchar (bootClearScreen c))).driver := hboot
  have hshown := shown_kputchar hinit s₂
  rw [← List.foldl_append] at hshown
  exact ⟨fun i hi => hshown.shows.cell hi, hshown.inside, hshown.shows.loc, hshown.registers,
    hshown.written⟩

end SumiOS
