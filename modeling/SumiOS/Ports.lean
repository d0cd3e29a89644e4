import SumiOS.Print
import SumiOS.Tty

/-!
# `SumiOS.Ports`: the console with its ports

`SumiOS.Tty` leaves out what the drivers read from ports. Here are the drivers with these
reads: the loops that wait for the serial and the parallel port, the cursor location that
is read back from its controller, the initialization of the serial port, and
`boot_tty_init`.

The devices behind the ports, but for the two CRT controllers, are a parameter. A `Bus`
says what they answer to a read, and how reads and writes change them; nothing else is
known about them. A port is the low half of the `int` that `inb` and `outb` are called with.
-/

set_option autoImplicit false

namespace SumiOS

/-! ### `graphics/vga.h` -/

def COM_SERIAL_BASE : BitVec 32 := 0x3F8
def COM_SERIAL_RX : BitVec 32 := COM_SERIAL_BASE + 0
def COM_SERIAL_DLL : BitVec 32 := COM_SERIAL_BASE + 0
def COM_SERIAL_DLM : BitVec 32 := COM_SERIAL_BASE + 1
def COM_SERIAL_IER : BitVec 32 := COM_SERIAL_BASE + 1
def COM_SERIAL_IER_RDI : BitVec 32 := COM_SERIAL_BASE + 1
def COM_SERIAL_IIR : BitVec 32 := COM_SERIAL_BASE + 2
def COM_SERIAL_FCR : BitVec 32 := COM_SERIAL_BASE + 2
def COM_SERIAL_LCR : BitVec 32 := COM_SERIAL_BASE + 3
def COM_SERIAL_LCR_DLAB : BitVec 32 := COM_SERIAL_BASE + 0x80
def COM_SERIAL_LCR_WLEN8 : BitVec 32 := COM_SERIAL_BASE + 3
def COM_SERIAL_MCR : BitVec 32 := COM_SERIAL_BASE + 4
def COM_SERIAL_LSR : BitVec 32 := COM_SERIAL_BASE + 5
def COM_SERIAL_LSR_TX_READY : BitVec 32 := COM_SERIAL_BASE + 0x20

namespace Ports

/-! ### The devices -/

/-- The devices behind the ports, but for the two controllers. -/
structure Bus (δ : Type) where
  inb : BitVec 16 → δ → BitVec 8 × δ
  outb : BitVec 16 → BitVec 8 → δ → δ

/-- The video memory and the controllers, and the other devices. `writes` and `reads` are
not in the source: they list what was written to ports, the latest first, and count the
reads. -/
structure Machine (δ : Type) where
  hw : Hardware
  dev : δ
  writes : List (BitVec 16 × BitVec 8)
  reads : Nat

section

variable {δ : Type} (bus : Bus δ)

/-- Something is done to the video memory. -/
def Machine.onVideo (f : Hardware → Hardware) (m : Machine δ) : Machine δ := { m with hw := f m.hw }

def outb (port : BitVec 32) (value : BitVec 8) (m : Machine δ) : Machine δ where
  hw := SumiOS.outb (port.setWidth 16) value m.hw
  dev := bus.outb (port.setWidth 16) value m.dev
  writes := (port.setWidth 16, value) :: m.writes
  reads := m.reads

/-- `inb`. The data registers of the controllers can be read. -/
def inb (port : BitVec 32) (m : Machine δ) : BitVec 8 × Machine δ :=
  let (value, dev) := bus.inb (port.setWidth 16) m.dev
  let value :=
    if port.setWidth 16 = CRTC_DATA_REGISTER_BLACKWHITE then
      m.hw.blackwhite.data m.hw.blackwhite.address
    else if port.setWidth 16 = CRTC_DATA_REGISTER_TEXT then m.hw.text.data m.hw.text.address
    else value
  (value, { m with dev := dev, reads := m.reads + 1 })

/-! ### The cursor -/

/-- `get_cursor_loc_blackwhite` and `get_cursor_loc_text`, with the registers of the two. -/
def getCursorLocAt (address data : BitVec 16) (m : Machine δ) : BitVec 16 × Machine δ :=
  let m := outb bus (address.setWidth 32) CRTC_DATA_CURSOR_LOC_HIGH m
  let (high, m) := inb bus (data.setWidth 32) m
  let m := outb bus (address.setWidth 32) CRTC_DATA_CURSOR_LOC_LOW m
  let (low, m) := inb bus (data.setWidth 32) m
  (high.setWidth 16 <<< 8 ||| low.setWidth 16, m)

def getCursorLocBlackwhite (m : Machine δ) : BitVec 16 × Machine δ :=
  getCursorLocAt bus CRTC_ADDRESS_REGISTER_BLACKWHITE CRTC_DATA_REGISTER_BLACKWHITE m

def getCursorLocText (m : Machine δ) : BitVec 16 × Machine δ :=
  getCursorLocAt bus CRTC_ADDRESS_REGISTER_TEXT CRTC_DATA_REGISTER_TEXT m

/-- The one of the two that belongs to a display mode. -/
def getCursorLoc (mode : DisplayMode) (m : Machine δ) : BitVec 16 × Machine δ :=
  match mode with
  | .blackwhite => getCursorLocBlackwhite bus m
  | .text => getCursorLocText bus m

/-- `set_cursor_loc_blackwhite` and `set_cursor_loc_text`, with the registers of the two. -/
def setCursorLocAt (address data : BitVec 16) (cursorLoc : BitVec 16) (m : Machine δ) : Machine δ :=
  let m := outb bus (address.setWidth 32) CRTC_DATA_CURSOR_LOC_HIGH m
  let m := outb bus (data.setWidth 32) ((cursorLoc >>> 8).setWidth 8) m
  let m := outb bus (address.setWidth 32) CRTC_DATA_CURSOR_LOC_LOW m
  outb bus (data.setWidth 32) ((cursorLoc &&& 0xFF).setWidth 8) m

def setCursorLocBlackwhite (cursorLoc : BitVec 16) (m : Machine δ) : Machine δ :=
  setCursorLocAt bus CRTC_ADDRESS_REGISTER_BLACKWHITE CRTC_DATA_REGISTER_BLACKWHITE cursorLoc m

def setCursorLocText (cursorLoc : BitVec 16) (m : Machine δ) : Machine δ :=
  setCursorLocAt bus CRTC_ADDRESS_REGISTER_TEXT CRTC_DATA_REGISTER_TEXT cursorLoc m

def setCursorLoc (mode : DisplayMode) (cursorLoc : BitVec 16) (m : Machine δ) : Machine δ :=
  match mode with
  | .blackwhite => setCursorLocBlackwhite bus cursorLoc m
  | .text => setCursorLocText bus cursorLoc m

/-! ### The ports that wait -/

/-- `__kputchar_delay`. -/
def putcharDelay (m : Machine δ) : Machine δ :=
  let m := (inb bus 0x84 m).2
  let m := (inb bus 0x84 m).2
  let m := (inb bus 0x84 m).2
  (inb bus 0x84 m).2

/-- A loop that waits until the status of a port is ready. The counter is what is left of
the 12800 rounds; the status is read once more after the last one. -/
def waitReady (status : BitVec 32) (ready : BitVec 8 → Bool) : Nat → Machine δ → Machine δ
  | 0, m => (inb bus status m).2
  | n + 1, m =>
      let (value, m) := inb bus status m
      if ready value then m else waitReady status ready n (putcharDelay bus m)

/-- `inb(COM_SERIAL_LSR) & COM_SERIAL_LSR_TX_READY`, with the byte as an `int`. -/
def serialReady (value : BitVec 8) : Bool := value.setWidth 32 &&& COM_SERIAL_LSR_TX_READY != 0

/-- `inb(0x378+1) & 0x80`. -/
def lptReady (value : BitVec 8) : Bool := value.setWidth 32 &&& 0x80 != 0

def putcharSerial (color ch : BitVec 8) (m : Machine δ) : Machine δ :=
  let m := waitReady bus COM_SERIAL_LSR serialReady 12800 m
  outb bus (COM_SERIAL_TX.setWidth 32) ((portChr color ch).setWidth 8) m

def putcharLpt (color ch : BitVec 8) (m : Machine δ) : Machine δ :=
  let m := waitReady bus (0x378 + 1) lptReady 12800 m
  let m := outb bus (0x378 + 0) ((portChr color ch).setWidth 8) m
  let m := outb bus (0x378 + 2) (0x8 ||| 0x4 ||| 0x1) m
  outb bus (0x378 + 2) 0x8 m

/-! ### The driver -/

/-- The variables of one copy of the driver, and the machine. -/
structure Driver (δ : Type) where
  m : Machine δ
  cursorLoc : BitVec 16
  displayMode : DisplayMode
  serialExists : Bool

/-- The end of `__kputchar_cga`. -/
def settle (d : Driver δ) : Driver δ :=
  let d :=
    if d.cursorLoc.toNat ≥ CGA_TEXT_SIZE then
      { d with m := d.m.onVideo rollScreenMem,
               cursorLoc := BitVec.ofNat 16 (CGA_TEXT_SIZE - CGA_TEXT_COLUMNS) }
    else d
  { d with m := setCursorLoc bus d.displayMode d.cursorLoc d.m }

/-- `__kputchar`. -/
def putchar (color ch : BitVec 8) (d : Driver δ) : Driver δ :=
  let d := { d with m := putcharLpt bus color ch (putcharSerial bus color ch d.m) }
  if ch = 0x0A then
    let loc := d.cursorLoc + BitVec.ofNat 16 CGA_TEXT_COLUMNS
    settle bus { d with cursorLoc := loc - column loc }
  else if ch = 0x0D then settle bus { d with cursorLoc := d.cursorLoc - column d.cursorLoc }
  else if ch = 0x08 then
    settle bus
      { d with cursorLoc := if column d.cursorLoc ≠ 0 then d.cursorLoc - 1 else d.cursorLoc }
  else if _h : ch = 0x09 then
    let d := putchar CGA_TEXT_COLOR_DEFAULT 0x20 d
    let d := putchar CGA_TEXT_COLOR_DEFAULT 0x20 d
    let d := putchar CGA_TEXT_COLOR_DEFAULT 0x20 d
    settle bus (putchar CGA_TEXT_COLOR_DEFAULT 0x20 d)
  else
    settle bus { d with m := d.m.onVideo (setChar color ch d.cursorLoc.toNat),
                        cursorLoc := d.cursorLoc + 1 }
termination_by if ch = 0x09 then 1 else 0
decreasing_by all_goals simp [_h]

def clearScreen (d : Driver δ) : Driver δ :=
  let m := d.m.onVideo (forLoop
    (fun i => setChar (CGA_TEXT_COLOR_BLACK <<< 4 ||| CGA_TEXT_COLOR_WHIGHT) 0x20 i) 0 CGA_TEXT_SIZE)
  { d with m := setCursorLoc bus d.displayMode 0 m, cursorLoc := 0 }

/-- `boot_tty_serial_init`. `outb` takes the low byte of a value. `tty.c` has a copy that is
not called. -/
def serialInit (d : Driver δ) : Driver δ :=
  -- Turn off the FIFO.
  let m := outb bus COM_SERIAL_FCR 0 d.m
  -- Set speed; requires DLAB latch.
  let m := outb bus COM_SERIAL_LCR (COM_SERIAL_LCR_DLAB.setWidth 8) m
  let m := outb bus COM_SERIAL_DLL (BitVec.ofNat 8 (115200 / 9600)) m
  let m := outb bus COM_SERIAL_DLM 0 m
  -- 8 data bits, 1 stop bit, parity off; turn off DLAB latch.
  let m := outb bus COM_SERIAL_LCR ((COM_SERIAL_LCR_WLEN8 &&& ~~~COM_SERIAL_LCR_DLAB).setWidth 8) m
  -- No modem controls.
  let m := outb bus COM_SERIAL_MCR 0 m
  -- Enable rcv interrupts.
  let m := outb bus COM_SERIAL_IER (COM_SERIAL_IER_RDI.setWidth 8) m
  let (status, m) := inb bus COM_SERIAL_LSR m
  let m := (inb bus COM_SERIAL_IIR m).2
  let m := (inb bus COM_SERIAL_RX m).2
  { d with m := m, serialExists := status != 0xFF }

/-! ### `boot_tty_init` -/

/-- `*(uint64_t *) "arttnba3"`. -/
def probeWord : BitVec 64 := 0x3361626E74747261

/-- The video memory of the text mode: whether there is some at `CGA_TEXT_VRAM_START`, and
what a read answers where there is no memory. That is not what was written. -/
structure Video where
  color : Bool
  floating : BitVec 64
  lost : floating ≠ probeWord

/-- `*(uint64_t *) text_mem = v`: four cells, the low one first. -/
def storeCells (v : BitVec 64) (hw : Hardware) : Hardware :=
  forLoop (fun i => setCell i (v.extractLsb' (16 * i) 16)) 0 4 hw

/-- `*(uint64_t *) text_mem`. -/
def loadCells (hw : Hardware) : BitVec 64 := hw.vram 3 ++ hw.vram 2 ++ hw.vram 1 ++ hw.vram 0

/-- The choice of the display mode: write to the memory of the text mode, and see whether
it is there. When it is not, the video memory is at `CGA_BLACKWHITE_VRAM_START`. -/
def probeVideo (video : Video) (d : Driver δ) : Driver δ :=
  let m := if video.color then d.m.onVideo (storeCells probeWord) else d.m
  let read := if video.color then loadCells m.hw else video.floating
  { d with m := m, displayMode := if read ≠ probeWord then .blackwhite else .text }

end

/-! ### The two copies -/

/-- The machine, and the variables of both copies. -/
structure Console (δ : Type) where
  m : Machine δ
  bootCursorLoc : BitVec 16
  bootDisplayMode : DisplayMode
  bootSerialExists : Bool
  cursorLoc : BitVec 16
  displayMode : DisplayMode
  serialExists : Bool

section

variable {δ : Type} (bus : Bus δ)

/-- A function of `tty_boot.c`. -/
def Console.onBoot (f : Driver δ → Driver δ) (c : Console δ) : Console δ :=
  let d := f ⟨c.m, c.bootCursorLoc, c.bootDisplayMode, c.bootSerialExists⟩
  { c with m := d.m, bootCursorLoc := d.cursorLoc, bootDisplayMode := d.displayMode,
           bootSerialExists := d.serialExists }

/-- A function of `tty.c`. -/
def Console.onKernel (f : Driver δ → Driver δ) (c : Console δ) : Console δ :=
  let d := f ⟨c.m, c.cursorLoc, c.displayMode, c.serialExists⟩
  { c with m := d.m, cursorLoc := d.cursorLoc, displayMode := d.displayMode,
           serialExists := d.serialExists }

def bootPutchar (c : Console δ) (ch : BitVec 8) : Console δ :=
  c.onBoot (putchar bus CGA_TEXT_COLOR_DEFAULT ch)

def kputchar (c : Console δ) (ch : BitVec 8) : Console δ :=
  c.onKernel (putchar bus CGA_TEXT_COLOR_DEFAULT ch)

/-- `boot_puts`. -/
def bootPuts (str : CStr) (c : Console δ) : Except Fault (Console δ) := do
  let c ← printstr (bootPutchar bus) str c
  return bootPutchar bus c (chr '\n')

/-- What `boot_tty_init` says when there is no serial port. -/
def noSerialPort : List (BitVec 8) :=
  "[x] NO serial port, you cannot input anything!\n".toList.map chr

/-- `boot_tty_init`. -/
def bootTtyInit (video : Video) (c : Console δ) : Except Fault (Console δ) :=
  let c := c.onBoot (probeVideo video)
  let c := c.onBoot (clearScreen bus)
  let c := c.onBoot (serialInit bus)
  if !c.bootSerialExists then bootPuts bus (arrayAt (noSerialPort ++ [0])) c else .ok c

/-- `tty_init`: reuse the info of the booting stage. -/
def ttyInit (c : Console δ) : Console δ :=
  { c with displayMode := c.bootDisplayMode, serialExists := c.bootSerialExists,
           cursorLoc := c.bootCursorLoc }

end

end Ports

end SumiOS
