import Mathlib.Logic.Function.Basic
import Mathlib.Tactic.Common

/-!
# `SumiOS.Tty`: the console in text mode

`include/graphics/vga.h`, `arch/x86/tty.c` and `arch/x86/boot/tty_boot.c`. The booting
stage has a copy of the driver under its own names and with its own variables. The
bodies are the same, so each is written once, over `Driver`, the variables of a copy
and the devices that both copies drive; the two copies are its instances.

`text_mem` and `boot_text_mem` point to the same video memory, through the direct
mapping area and without it. `vram` is that memory by the index of the cell, with the
cells behind the screen.

The reads from ports only make the drivers wait or tell that there is no serial port, and
nothing that is modelled depends on them, so they are left out.
-/

set_option autoImplicit false

namespace SumiOS

/-! ### `graphics/vga.h` -/

inductive DisplayMode
  | blackwhite
  | text
deriving DecidableEq

def CGA_TEXT_COLUMNS : Nat := 80
def CGA_TEXT_ROWS : Nat := 25
def CGA_TEXT_SIZE : Nat := CGA_TEXT_COLUMNS * CGA_TEXT_ROWS
def CGA_TEXT_COLOR_BLACK : BitVec 8 := 0x0
def CGA_TEXT_COLOR_WHIGHT : BitVec 8 := 0xF
def CGA_TEXT_COLOR_DEFAULT : BitVec 8 := CGA_TEXT_COLOR_BLACK <<< 4 ||| CGA_TEXT_COLOR_WHIGHT

def CRTC_ADDRESS_REGISTER_BLACKWHITE : BitVec 16 := 0x3B4
def CRTC_DATA_REGISTER_BLACKWHITE : BitVec 16 := 0x3B5
def CRTC_ADDRESS_REGISTER_TEXT : BitVec 16 := 0x3D4
def CRTC_DATA_REGISTER_TEXT : BitVec 16 := 0x3D5
def CRTC_DATA_CURSOR_LOC_HIGH : BitVec 8 := 0xE
def CRTC_DATA_CURSOR_LOC_LOW : BitVec 8 := 0xF

def COM_SERIAL_TX : BitVec 16 := 0x3F8

/-! ### The devices -/

/-- A CRT controller: the index that was written to its address register, and its data
registers. -/
structure Crtc where
  address : BitVec 8
  data : BitVec 8 → BitVec 8

/-- The devices. `written` is not in the source: it lists the cells that were written, the
latest first. -/
structure Hardware where
  vram : Nat → BitVec 16
  blackwhite : Crtc
  text : Crtc
  written : List Nat

def Crtc.select (c : Crtc) (value : BitVec 8) : Crtc := { c with address := value }

def Crtc.store (c : Crtc) (value : BitVec 8) : Crtc :=
  { c with data := Function.update c.data c.address value }

/-- `outb`: the other ports do not belong to a controller. -/
def outb (port : BitVec 16) (value : BitVec 8) (hw : Hardware) : Hardware :=
  if port = CRTC_ADDRESS_REGISTER_BLACKWHITE then
    { hw with blackwhite := hw.blackwhite.select value }
  else if port = CRTC_DATA_REGISTER_BLACKWHITE then
    { hw with blackwhite := hw.blackwhite.store value }
  else if port = CRTC_ADDRESS_REGISTER_TEXT then { hw with text := hw.text.select value }
  else if port = CRTC_DATA_REGISTER_TEXT then { hw with text := hw.text.store value }
  else hw

/-- `text_mem[loc] = cell`. -/
def setCell (loc : Nat) (cell : BitVec 16) (hw : Hardware) : Hardware :=
  { hw with vram := Function.update hw.vram loc cell, written := loc :: hw.written }

/-! ### The driver -/

/-- The variables of one copy of the driver, and the devices. -/
structure Driver where
  hw : Hardware
  cursorLoc : BitVec 16
  displayMode : DisplayMode

def setCursorLocBlackwhite (cursorLoc : BitVec 16) (hw : Hardware) : Hardware :=
  let hw := outb CRTC_ADDRESS_REGISTER_BLACKWHITE CRTC_DATA_CURSOR_LOC_HIGH hw
  let hw := outb CRTC_DATA_REGISTER_BLACKWHITE ((cursorLoc >>> 8).setWidth 8) hw
  let hw := outb CRTC_ADDRESS_REGISTER_BLACKWHITE CRTC_DATA_CURSOR_LOC_LOW hw
  outb CRTC_DATA_REGISTER_BLACKWHITE ((cursorLoc &&& 0xFF).setWidth 8) hw

def setCursorLocText (cursorLoc : BitVec 16) (hw : Hardware) : Hardware :=
  let hw := outb CRTC_ADDRESS_REGISTER_TEXT CRTC_DATA_CURSOR_LOC_HIGH hw
  let hw := outb CRTC_DATA_REGISTER_TEXT ((cursorLoc >>> 8).setWidth 8) hw
  let hw := outb CRTC_ADDRESS_REGISTER_TEXT CRTC_DATA_CURSOR_LOC_LOW hw
  outb CRTC_DATA_REGISTER_TEXT ((cursorLoc &&& 0xFF).setWidth 8) hw

def setCursorLoc (mode : DisplayMode) (cursorLoc : BitVec 16) (hw : Hardware) : Hardware :=
  match mode with
  | .blackwhite => setCursorLocBlackwhite cursorLoc hw
  | .text => setCursorLocText cursorLoc hw

/-- `(color << 8) | val`. -/
def cellOf (color val : BitVec 8) : BitVec 16 := color.setWidth 16 <<< 8 ||| val.setWidth 16

def setChar (color val : BitVec 8) (loc : Nat) (hw : Hardware) : Hardware :=
  setCell loc (cellOf color val) hw

/-- A loop that calls `body` for `start`, …, `start + n - 1`. -/
def forLoop (body : Nat → Hardware → Hardware) (start : Nat) : Nat → Hardware → Hardware
  | 0, hw => hw
  | n + 1, hw => body (start + n) (forLoop body start n hw)

def rollScreenMem (hw : Hardware) : Hardware :=
  let hw := forLoop (fun i hw => setCell (i - CGA_TEXT_COLUMNS) (hw.vram i) hw) CGA_TEXT_COLUMNS
    (CGA_TEXT_SIZE - CGA_TEXT_COLUMNS) hw
  forLoop (fun i => setChar (CGA_TEXT_COLOR_BLACK <<< 4 ||| CGA_TEXT_COLOR_WHIGHT) 0x20
    (CGA_TEXT_SIZE - CGA_TEXT_COLUMNS + i)) 0 CGA_TEXT_COLUMNS hw

/-- `chr` of the two ports: the color and the character, with its sign. -/
def portChr (color ch : BitVec 8) : BitVec 16 := color.setWidth 16 <<< 8 ||| ch.signExtend 16

def putcharSerial (color ch : BitVec 8) (hw : Hardware) : Hardware :=
  outb COM_SERIAL_TX ((portChr color ch).setWidth 8) hw

def putcharLpt (color ch : BitVec 8) (hw : Hardware) : Hardware :=
  let hw := outb 0x378 ((portChr color ch).setWidth 8) hw
  let hw := outb 0x37A (0x8 ||| 0x4 ||| 0x1) hw
  outb 0x37A 0x8 hw

/-- The end of `__kputchar_cga`: roll the screen, and write the cursor location back. -/
def settle (d : Driver) : Driver :=
  let d :=
    if d.cursorLoc.toNat ≥ CGA_TEXT_SIZE then
      { d with hw := rollScreenMem d.hw,
               cursorLoc := BitVec.ofNat 16 (CGA_TEXT_SIZE - CGA_TEXT_COLUMNS) }
    else d
  { d with hw := setCursorLoc d.displayMode d.cursorLoc d.hw }

/-- `cursor_loc % CGA_TEXT_COLUMNS`. -/
def column (cursorLoc : BitVec 16) : BitVec 16 := cursorLoc % BitVec.ofNat 16 CGA_TEXT_COLUMNS

/-- `__kputchar`. The tab of `__kputchar_cga` calls `kputchar`, which calls `__kputchar` with
the default color. -/
def putchar (color ch : BitVec 8) (d : Driver) : Driver :=
  let d := { d with hw := putcharLpt color ch (putcharSerial color ch d.hw) }
  if ch = 0x0A then
    -- `'\n'` falls through to `'\r'`.
    let loc := d.cursorLoc + BitVec.ofNat 16 CGA_TEXT_COLUMNS
    settle { d with cursorLoc := loc - column loc }
  else if ch = 0x0D then settle { d with cursorLoc := d.cursorLoc - column d.cursorLoc }
  else if ch = 0x08 then
    settle { d with cursorLoc := if column d.cursorLoc ≠ 0 then d.cursorLoc - 1 else d.cursorLoc }
  else if _h : ch = 0x09 then
    let d := putchar CGA_TEXT_COLOR_DEFAULT 0x20 d
    let d := putchar CGA_TEXT_COLOR_DEFAULT 0x20 d
    let d := putchar CGA_TEXT_COLOR_DEFAULT 0x20 d
    settle (putchar CGA_TEXT_COLOR_DEFAULT 0x20 d)
  else
    settle { d with hw := setChar color ch d.cursorLoc.toNat d.hw, cursorLoc := d.cursorLoc + 1 }
termination_by if ch = 0x09 then 1 else 0
decreasing_by all_goals simp [_h]

def clearScreen (d : Driver) : Driver :=
  let hw := forLoop (fun i => setChar (CGA_TEXT_COLOR_BLACK <<< 4 ||| CGA_TEXT_COLOR_WHIGHT) 0x20 i)
    0 CGA_TEXT_SIZE d.hw
  { d with hw := setCursorLoc d.displayMode 0 hw, cursorLoc := 0 }

/-! ### The two copies -/

/-- The devices, and the variables of both copies. -/
structure Console where
  hw : Hardware
  bootCursorLoc : BitVec 16
  bootDisplayMode : DisplayMode
  cursorLoc : BitVec 16
  displayMode : DisplayMode

/-- A function of `tty_boot.c`. -/
def Console.onBoot (f : Driver → Driver) (c : Console) : Console :=
  let d := f ⟨c.hw, c.bootCursorLoc, c.bootDisplayMode⟩
  { c with hw := d.hw, bootCursorLoc := d.cursorLoc, bootDisplayMode := d.displayMode }

/-- A function of `tty.c`. -/
def Console.onKernel (f : Driver → Driver) (c : Console) : Console :=
  let d := f ⟨c.hw, c.cursorLoc, c.displayMode⟩
  { c with hw := d.hw, cursorLoc := d.cursorLoc, displayMode := d.displayMode }

def bootClearScreen (c : Console) : Console := c.onBoot clearScreen

def bootPutchar (c : Console) (ch : BitVec 8) : Console :=
  c.onBoot (putchar CGA_TEXT_COLOR_DEFAULT ch)

def kputchar (c : Console) (ch : BitVec 8) : Console :=
  c.onKernel (putchar CGA_TEXT_COLOR_DEFAULT ch)

/-- `tty_init`: reuse the info of the booting stage. -/
def ttyInit (c : Console) : Console :=
  { c with displayMode := c.bootDisplayMode, cursorLoc := c.bootCursorLoc }

end SumiOS
