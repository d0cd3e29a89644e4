import SumiOS.Lib.Bitfield
import SumiOS.Ports
import SumiOS.Proofs.Print.Digits
import SumiOS.Proofs.Tty.Refinement

/-!
# `SumiOS.Proofs.Tty.Ports`: the console, whatever the devices answer

The drivers with their reads do to the screen what those of `SumiOS.Tty` do
(`putchar_screen`): no answer of a device reaches it. So the console shows the terminal of
`SumiOS.Proofs.Tty.Refinement`, after `boot_tty_init` has chosen the display mode, and every
loop that waits ends (`console_shows`).

A device that only takes writes sees the list of the writes (`Machine.seenBy`). When it is
behind the serial or the parallel port, a character reaches it as `portWrites`, and a tab
as a tab and four spaces (`putchar_seenBy`). `lpt_strobes` and `uart_silent` follow for the
two ports:

* the parallel port signals every character once, whether it says that it is busy or not;
* a serial controller sends none of them. The initialization is to clear the divisor latch
  access bit, but the constants for its bits have the port added to them. The bit is clear
  while the divisor is written, and set from then on.
-/

set_option autoImplicit false

namespace SumiOS

open Lib

namespace Ports

/-! ### The screen -/

section Screen

variable {δ : Type} (bus : Bus δ)

/-- The variables and the video memory, without the other devices. -/
def Driver.screen (d : Driver δ) : SumiOS.Driver := ⟨d.m.hw, d.cursorLoc, d.displayMode⟩

/-- The screen of a driver that is written out: the video memory of its machine, the cursor
location and the mode. What the machine has besides is forgotten. -/
@[simp]
theorem screen_mk (m : Machine δ) (loc : BitVec 16) (mode : DisplayMode) (serialExists : Bool) :
    (Driver.mk m loc mode serialExists).screen = ⟨m.hw, loc, mode⟩ := rfl

/-- The video memory of the screen is the one of the machine, since `Driver.screen` only leaves the
other devices out. -/
@[simp]
theorem screen_hw (d : Driver δ) : d.screen.hw = d.m.hw := rfl

/-- The cursor location is a variable of the driver. No device takes part in it. -/
@[simp]
theorem screen_cursorLoc (d : Driver δ) : d.screen.cursorLoc = d.cursorLoc := rfl

/-- The display mode is a variable of the driver, which `boot_tty_init` sets once. -/
@[simp]
theorem screen_displayMode (d : Driver δ) : d.screen.displayMode = d.displayMode := rfl

/-- What `outb` does to the controllers is what it does in the model without devices. The bus sees
the write as well, but cannot answer to it. -/
@[simp]
theorem outb_hw (port : BitVec 32) (value : BitVec 8) (m : Machine δ) :
    (outb bus port value m).hw = SumiOS.outb (port.setWidth 16) value m.hw := rfl

/-- A read leaves the video memory and the controllers alone. It may change the device behind the
port, and it is counted. -/
@[simp]
theorem inb_hw (port : BitVec 32) (m : Machine δ) : (inb bus port m).2.hw = m.hw := rfl

/-- Something that is done to the video memory is done to the video memory of the machine, and
nothing else is touched. -/
@[simp]
theorem onVideo_hw (f : Hardware → Hardware) (m : Machine δ) : (m.onVideo f).hw = f m.hw := rfl

/-- A port that was widened to the `int` of `outb` is the same port again when its low half is
taken. The lemma turns the source's casts into the port numbers. -/
@[simp]
theorem setWidth_setWidth_port (port : BitVec 16) : (port.setWidth 32).setWidth 16 = port := by
  simp

/-- The four reads of the delay do nothing to the screen. -/
@[simp]
theorem putcharDelay_hw (m : Machine δ) : (putcharDelay bus m).hw = m.hw := rfl

/-- A loop that waits for a port reads only, however many rounds it takes. So the video memory
behind it is the one before it, whatever the port answers. -/
@[simp]
theorem waitReady_hw (status : BitVec 32) (ready : BitVec 8 → Bool) (n : Nat) (m : Machine δ) :
    (waitReady bus status ready n m).hw = m.hw := by
  induction n generalizing m with
  | zero => rfl
  | succ n ih =>
      simp only [waitReady]
      split
      · rfl
      · simp [ih]

/-- The serial port of the model with devices does to the video memory and the controllers what the
one without devices does: it writes one byte to a port that is not theirs. -/
@[simp]
theorem putcharSerial_hw (color ch : BitVec 8) (m : Machine δ) :
    (putcharSerial bus color ch m).hw = SumiOS.putcharSerial color ch m.hw := by
  simp [putcharSerial, SumiOS.putcharSerial]

/-- The same for the parallel port. The answers that it waits for decide how many reads there are,
but not what is written. -/
@[simp]
theorem putcharLpt_hw (color ch : BitVec 8) (m : Machine δ) :
    (putcharLpt bus color ch m).hw = SumiOS.putcharLpt color ch m.hw := by
  simp [putcharLpt, SumiOS.putcharLpt]

/-- The four writes that set the cursor reach the controller as they do without devices, in both
display modes. -/
@[simp]
theorem setCursorLoc_hw (mode : DisplayMode) (loc : BitVec 16) (m : Machine δ) :
    (setCursorLoc bus mode loc m).hw = SumiOS.setCursorLoc mode loc m.hw := by
  cases mode <;>
    simp [setCursorLoc, setCursorLocText, setCursorLocBlackwhite, setCursorLocAt,
      SumiOS.setCursorLoc, SumiOS.setCursorLocText, SumiOS.setCursorLocBlackwhite]

/-- The end of `__kputchar_cga`, which may roll the screen and sets the cursor, does the same with
and without devices. -/
theorem settle_screen (d : Driver δ) : (settle bus d).screen = SumiOS.settle d.screen := by
  by_cases h : d.cursorLoc.toNat ≥ CGA_TEXT_SIZE <;> simp [settle, SumiOS.settle, h]

/-- `__kputchar` does to the screen what it does without the devices. The cases are those of the
`switch`. A tab calls the function again for a space, four times. -/
theorem putchar_screen (color ch : BitVec 8) (d : Driver δ) :
    (putchar bus color ch d).screen = SumiOS.putchar color ch d.screen := by
  -- The two ports do not know the video memory.
  have hone : ∀ (color ch : BitVec 8) (d : Driver δ), ch ≠ 0x09 →
      (putchar bus color ch d).screen = SumiOS.putchar color ch d.screen := by
    intro color ch d htab
    rw [putchar, SumiOS.putchar]
    dsimp only
    by_cases hnewline : ch = 0x0A
    · rw [if_pos hnewline, if_pos hnewline, settle_screen]
      simp
    · rw [if_neg hnewline, if_neg hnewline]
      by_cases hreturn : ch = 0x0D
      · rw [if_pos hreturn, if_pos hreturn, settle_screen]
        simp
      · rw [if_neg hreturn, if_neg hreturn]
        by_cases hback : ch = 0x08
        · rw [if_pos hback, if_pos hback, settle_screen, screen_mk, putcharLpt_hw,
            putcharSerial_hw]
          rfl
        · rw [if_neg hback, if_neg hback, dif_neg htab, dif_neg htab, settle_screen]
          simp
  by_cases htab : ch = 0x09
  · subst htab
    rw [putchar, SumiOS.putchar]
    simp [settle_screen, hone]
  · exact hone color ch d htab

/-- Clearing the screen writes cells and sets the cursor, and no device has a say in it. So it is
the clearing of the model without devices. -/
theorem clearScreen_screen (d : Driver δ) :
    (clearScreen bus d).screen = SumiOS.clearScreen d.screen := by
  simp [clearScreen, SumiOS.clearScreen]

/-- The probe writes to the video memory of the text mode if there is such a memory. Else its write
is lost, and nothing has changed. -/
theorem probeVideo_hw (video : Video) (d : Driver δ) :
    (probeVideo video d).m.hw = if video.color then storeCells probeWord d.m.hw else d.m.hw := by
  rw [probeVideo]
  split <;> rfl

/-- The word of the probe is in the first four cells, so no cell outside of the screen
is written. -/
theorem storeCells_inside (v : BitVec 64) (hw : Hardware) : WritesInside hw (storeCells v hw) :=
  forLoop_inside _ fun i hi hw => by
    have hsize : CGA_TEXT_SIZE = 2000 := rfl
    exact setCell_inside (by omega) _ hw

/-- What was stored is read back. The four cells are the four parts of the word, the low
one first. -/
theorem loadCells_storeCells (v : BitVec 64) (hw : Hardware) : loadCells (storeCells v hw) = v := by
  have hcells : loadCells (storeCells v hw) = v.extractLsb' 48 16 ++ v.extractLsb' 32 16
      ++ v.extractLsb' 16 16 ++ v.extractLsb' 0 16 := rfl
  rw [hcells]
  apply BitVec.eq_of_getLsbD_eq
  intro i hi
  simp only [BitVec.getLsbD_append, BitVec.getLsbD_extractLsb']
  repeat' split
  all_goals
    rw [decide_eq_true (by omega), Bool.true_and]
    exact congrArg v.getLsbD (by omega)

/-- The mode is that of the memory that there is. A memory reads back what was written to it, and
where there is none, something else is read. -/
theorem probeVideo_mode (video : Video) (d : Driver δ) :
    (probeVideo video d).displayMode = if video.color then .text else .blackwhite := by
  simp only [probeVideo]
  by_cases hcolor : video.color
  · simp [hcolor, loadCells_storeCells]
  · simp [hcolor, video.lost]

/-- The initialization of the serial port does not reach the controllers, since its ports are
others than theirs. -/
theorem serialInit_hw (d : Driver δ) : (serialInit bus d).m.hw = d.m.hw := by
  rfl

end Screen

/-! ### What the other devices see -/

section Devices

variable {δ σ : Type} (bus : Bus δ)

/-- The state of a device that only takes writes, from `s` on. -/
def Machine.seenBy (m : Machine δ) (f : BitVec 16 × BitVec 8 → σ → σ) (s : σ) : σ :=
  m.writes.foldr f s

/-- The device is not behind the ports of the controllers. -/
structure IgnoresCrtc (f : BitVec 16 × BitVec 8 → σ → σ) : Prop where
  blackwhite : ∀ v s, f (CRTC_ADDRESS_REGISTER_BLACKWHITE, v) s = s ∧
    f (CRTC_DATA_REGISTER_BLACKWHITE, v) s = s
  text : ∀ v s, f (CRTC_ADDRESS_REGISTER_TEXT, v) s = s ∧ f (CRTC_DATA_REGISTER_TEXT, v) s = s

/-- What a character is to the serial and the parallel port. -/
def portWrites (ch : BitVec 8) : List (BitVec 16 × BitVec 8) :=
  [(COM_SERIAL_TX, ch), (0x378, ch), (0x37A, 0x8 ||| 0x4 ||| 0x1), (0x37A, 0x8)]

/-- A device takes a character. -/
def sendChar (f : BitVec 16 × BitVec 8 → σ → σ) (s : σ) (ch : BitVec 8) : σ :=
  (portWrites ch).foldl (fun s w => f w s) s

/-- The characters that reach the ports for one: the spaces of a tab follow it. -/
def echo (ch : BitVec 8) : List (BitVec 8) :=
  if ch = 0x09 then 0x09 :: List.replicate 4 0x20 else [ch]

/-- A device that only takes writes sees one more write, and it sees it behind all the earlier
ones. -/
@[simp]
theorem outb_seenBy (port : BitVec 32) (value : BitVec 8) (m : Machine δ)
    (f : BitVec 16 × BitVec 8 → σ → σ) (s : σ) :
    (outb bus port value m).seenBy f s = f (port.setWidth 16, value) (m.seenBy f s) := rfl

/-- A device that only takes writes sees nothing of a read. -/
@[simp]
theorem inb_seenBy (port : BitVec 32) (m : Machine δ) (f : BitVec 16 × BitVec 8 → σ → σ) (s : σ) :
    (inb bus port m).2.seenBy f s = m.seenBy f s := rfl

/-- A device behind a port sees nothing of what is done to the video memory. -/
@[simp]
theorem onVideo_seenBy (g : Hardware → Hardware) (m : Machine δ)
    (f : BitVec 16 × BitVec 8 → σ → σ) (s : σ) : (m.onVideo g).seenBy f s = m.seenBy f s := rfl

/-- A write is not counted as a read. -/
@[simp]
theorem outb_reads (port : BitVec 32) (value : BitVec 8) (m : Machine δ) :
    (outb bus port value m).reads = m.reads := rfl

/-- The video memory is no port, so a change of it is not counted as a read. -/
@[simp]
theorem onVideo_reads (g : Hardware → Hardware) (m : Machine δ) : (m.onVideo g).reads = m.reads := rfl

/-- A loop that waits writes nothing. This is what makes the list of the writes independent of the
answers. -/
@[simp]
theorem waitReady_writes (status : BitVec 32) (ready : BitVec 8 → Bool) (n : Nat) (m : Machine δ) :
    (waitReady bus status ready n m).writes = m.writes := by
  induction n generalizing m with
  | zero => rfl
  | succ n ih =>
      simp only [waitReady]
      split
      · rfl
      · rw [ih]
        rfl

/-- A loop that waits ends after so many reads: one of the status and four of the delay in each of
its `n` rounds, and one more of the status. -/
theorem waitReady_reads (status : BitVec 32) (ready : BitVec 8 → Bool) (n : Nat) (m : Machine δ) :
    (waitReady bus status ready n m).reads ≤ m.reads + (5 * n + 1) := by
  induction n generalizing m with
  | zero => exact Nat.le_refl _
  | succ n ih =>
      simp only [waitReady]
      split
      · show m.reads + 1 ≤ _
        omega
      · have hrest := ih (putcharDelay bus (inb bus status m).2)
        have hround : (putcharDelay bus (inb bus status m).2).reads = m.reads + 5 := rfl
        omega

/-- The low byte of what is written to the two ports is the character. The color is in the high
byte, which `outb` cuts off. -/
theorem portChr_low (color ch : BitVec 8) : (portChr color ch).setWidth 8 = ch := by
  apply BitVec.eq_of_getLsbD_eq
  intro i hi
  simp [portChr, BitVec.getLsbD_signExtend, hi]
  omega

/-- For a device that only takes writes, the first two calls of `__kputchar` are the writes of
`portWrites`, one after the other. The waiting in front of them is not seen. -/
@[simp]
theorem seenBy_putcharPorts (color ch : BitVec 8) (m : Machine δ) (f : BitVec 16 × BitVec 8 → σ → σ)
    (s : σ) : (putcharLpt bus color ch (putcharSerial bus color ch m)).seenBy f s
      = sendChar f (m.seenBy f s) ch := by
  simp [putcharLpt, putcharSerial, sendChar, portWrites, portChr_low, Machine.seenBy, outb]

/-- The two loops that wait end after so many reads, which is 64001 for each of them. This bounds
the time of a character. -/
theorem putcharPorts_reads (color ch : BitVec 8) (m : Machine δ) :
    (putcharLpt bus color ch (putcharSerial bus color ch m)).reads ≤ m.reads + 128002 := by
  have hserial := waitReady_reads bus COM_SERIAL_LSR serialReady 12800 m
  have hlpt := waitReady_reads bus (0x378 + 1) lptReady 12800 (putcharSerial bus color ch m)
  simp only [putcharLpt, putcharSerial, outb_reads] at *
  omega

/-- The cursor is set with writes only, so no device is asked anything for it. -/
@[simp]
theorem setCursorLoc_reads (mode : DisplayMode) (loc : BitVec 16) (m : Machine δ) :
    (setCursorLoc bus mode loc m).reads = m.reads := by
  cases mode <;> rfl

/-- A device that is not behind the ports of the controllers sees nothing of the cursor. -/
theorem setCursorLoc_seenBy (mode : DisplayMode) (loc : BitVec 16) (m : Machine δ)
    {f : BitVec 16 × BitVec 8 → σ → σ} (hf : IgnoresCrtc f) (s : σ) :
    (setCursorLoc bus mode loc m).seenBy f s = m.seenBy f s := by
  cases mode with
  | blackwhite => simp [setCursorLoc, setCursorLocBlackwhite, setCursorLocAt, hf.blackwhite]
  | text => simp [setCursorLoc, setCursorLocText, setCursorLocAt, hf.text]

/-- The characters went to the ports, and the waiting for them ended. -/
structure Sends (m m' : Machine δ) (cs : List (BitVec 8)) : Prop where
  seen : ∀ {σ : Type} (f : BitVec 16 × BitVec 8 → σ → σ) (s : σ), IgnoresCrtc f →
    m'.seenBy f s = cs.foldl (sendChar f) (m.seenBy f s)
  reads : m'.reads ≤ m.reads + 128002 * cs.length

variable {bus} {m m₁ m' : Machine δ} {d : Driver δ} {cs ds : List (BitVec 8)}

/-- Nothing was sent: all devices see what they saw, and no port was read. -/
theorem Sends.refl (m : Machine δ) : Sends m m [] := ⟨fun _ _ _ => rfl, Nat.le_add_right _ _⟩

/-- What was sent in two steps was sent one after the other, and the reads of both steps
are added. -/
theorem Sends.trans (h : Sends m m₁ cs) (h' : Sends m₁ m' ds) : Sends m m' (cs ++ ds) where
  seen f s hf := by rw [h'.seen f s hf, h.seen f s hf, List.foldl_append]
  reads := by
    have hfirst := h.reads
    have hsecond := h'.reads
    rw [List.length_append]
    omega

/-- The video memory is not behind a port. So a change of it adds nothing to what was sent. -/
theorem Sends.onVideo (h : Sends m m₁ cs) (g : Hardware → Hardware) : Sends m (m₁.onVideo g) cs :=
  ⟨h.seen, h.reads⟩

/-- The end of `__kputchar_cga` writes to the controllers only. A device that is not behind their
ports sees nothing of it. -/
theorem settle_sends (h : Sends m d.m cs) : Sends m (settle bus d).m cs where
  seen f s hf := by
    rw [← h.seen f s hf, settle]
    split <;> simp [setCursorLoc_seenBy bus _ _ _ hf]
  reads := by
    refine Nat.le_trans (Nat.le_of_eq ?_) h.reads
    rw [settle]
    split <;> simp

variable (bus) in
/-- The first thing that `__kputchar` does is to send the character to the serial and to the
parallel port, whatever the character is. -/
theorem putcharPorts_sends (color ch : BitVec 8) (m : Machine δ) :
    Sends m (putcharLpt bus color ch (putcharSerial bus color ch m)) [ch] where
  seen f s _ := by simp
  reads := putcharPorts_reads bus color ch m

/-- `__kputchar` of a character that is no tab sends this character and nothing else. The rest of
the function is about the screen. -/
theorem putchar_sends_one (color : BitVec 8) {ch : BitVec 8} (htab : ch ≠ 0x09) (d : Driver δ) :
    Sends d.m (putchar bus color ch d).m [ch] := by
  have hports := putcharPorts_sends bus color ch d.m
  rw [putchar]
  dsimp only
  -- Whatever happens to the cursor and the cells, nothing more is written to the two ports.
  by_cases hnewline : ch = 0x0A
  · rw [if_pos hnewline]
    exact settle_sends hports
  · rw [if_neg hnewline]
    by_cases hreturn : ch = 0x0D
    · rw [if_pos hreturn]
      exact settle_sends hports
    · rw [if_neg hreturn]
      by_cases hback : ch = 0x08
      · rw [if_pos hback]
        exact settle_sends hports
      · rw [if_neg hback, dif_neg htab]
        exact settle_sends (hports.onVideo _)

/-- `__kputchar` sends the character. After a tab it sends four spaces too, as the calls for these
go the whole way again. -/
theorem putchar_sends (color ch : BitVec 8) (d : Driver δ) :
    Sends d.m (putchar bus color ch d).m (echo ch) := by
  by_cases htab : ch = 0x09
  · subst htab
    have hspace : ∀ d : Driver δ,
        Sends d.m (putchar bus CGA_TEXT_COLOR_DEFAULT 0x20 d).m [0x20] :=
      fun d => putchar_sends_one _ (by decide) d
    rw [putchar]
    simp only [show ¬ (0x09 : BitVec 8) = 0x0A from by decide,
      show ¬ (0x09 : BitVec 8) = 0x0D from by decide,
      show ¬ (0x09 : BitVec 8) = 0x08 from by decide, if_false, dif_pos]
    have hports := putcharPorts_sends bus color 0x09 d.m
    have h₁ := hports.trans (hspace ⟨_, d.cursorLoc, d.displayMode, d.serialExists⟩)
    have h₂ := h₁.trans (hspace _)
    have h₃ := h₂.trans (hspace _)
    exact settle_sends (h₃.trans (hspace _))
  · rw [echo, if_neg htab]
    exact putchar_sends_one color htab d

/-- Whether there is a serial port is found out once. No character changes it. -/
theorem putchar_serialExists (color ch : BitVec 8) (d : Driver δ) :
    (putchar bus color ch d).serialExists = d.serialExists := by
  have hsettle : ∀ d : Driver δ, (settle bus d).serialExists = d.serialExists := by
    intro d
    rw [settle]
    split <;> rfl
  have hone : ∀ (color ch : BitVec 8) (d : Driver δ), ch ≠ 0x09 →
      (putchar bus color ch d).serialExists = d.serialExists := by
    intro color ch d htab
    rw [putchar]
    split_ifs <;> simp [hsettle]
  by_cases htab : ch = 0x09
  · subst htab
    rw [putchar]
    simp [hsettle, hone]
  · exact hone color ch d htab

end Devices

/-! ### The two stages -/

section Session

variable {δ : Type} (bus : Bus δ)

/-- The driver prints a string. -/
def print (s : List (BitVec 8)) (d : Driver δ) : Driver δ :=
  s.foldl (fun d ch => putchar bus CGA_TEXT_COLOR_DEFAULT ch d) d

/-- The screen shows what the terminal is fed, in the same mode. The induction is on the string,
and `Shown.putchar` is its step. -/
theorem print_shown {old : Hardware} {g : Grid (BitVec 16)} {d : Driver δ}
    (h : Shown old g d.screen) (s : List (BitVec 8)) :
    Shown old (s.foldl feedChar g) (print bus s d).screen ∧
      (print bus s d).displayMode = d.displayMode := by
  induction s generalizing d g with
  | nil => exact ⟨h, rfl⟩
  | cons ch s ih =>
      have hscreen := putchar_screen bus CGA_TEXT_COLOR_DEFAULT ch d
      have hmode := (putchar_drives h.inside ch).mode
      have hshown := h.putchar ch
      rw [← hscreen] at hmode hshown
      have hrest := ih hshown
      exact ⟨hrest.1, hrest.2.trans hmode⟩

/-- A string is sent character by character, each with the spaces of its tab. -/
theorem print_sends (s : List (BitVec 8)) (d : Driver δ) :
    Sends d.m (print bus s d).m (s.flatMap echo) := by
  induction s generalizing d with
  | nil => exact Sends.refl d.m
  | cons ch s ih => exact (putchar_sends _ ch d).trans (ih _)

/-- No string changes whether there is a serial port. -/
theorem print_serialExists (s : List (BitVec 8)) (d : Driver δ) :
    (print bus s d).serialExists = d.serialExists := by
  induction s generalizing d with
  | nil => rfl
  | cons ch s ih => exact (ih _).trans (putchar_serialExists ..)

/-- A string that is put together from two is printed like the first one and then the
second one. -/
theorem print_append (s s' : List (BitVec 8)) (d : Driver δ) :
    print bus (s ++ s') d = print bus s' (print bus s d) := List.foldl_append ..

/-- The driver of the booting stage. -/
def Console.boot (c : Console δ) : Driver δ :=
  ⟨c.m, c.bootCursorLoc, c.bootDisplayMode, c.bootSerialExists⟩

/-- The driver of the kernel. -/
def Console.kernel (c : Console δ) : Driver δ := ⟨c.m, c.cursorLoc, c.displayMode, c.serialExists⟩

/-- What the booting stage prints goes to the driver of the booting stage. The variables of the
kernel's driver wait. -/
theorem boot_print (s : List (BitVec 8)) (c : Console δ) :
    (s.foldl (bootPutchar bus) c).boot = print bus s c.boot := by
  induction s generalizing c with
  | nil => rfl
  | cons ch s ih => exact ih (bootPutchar bus c ch)

/-- What the kernel prints goes to the kernel's driver. -/
theorem kernel_print (s : List (BitVec 8)) (c : Console δ) :
    (s.foldl (kputchar bus) c).kernel = print bus s c.kernel := by
  induction s generalizing c with
  | nil => rfl
  | cons ch s ih => exact ih (kputchar bus c ch)

/-- Both stages: `boot_tty_init`, `s₁` on the console of the booting stage, `tty_init`, and
`s₂` on the one of the kernel. -/
def session (video : Video) (s₁ s₂ : List (BitVec 8)) (c : Console δ) :
    Except Fault (Console δ) := do
  let c ← bootTtyInit bus video c
  return s₂.foldl (kputchar bus) (ttyInit (s₁.foldl (bootPutchar bus) c))

/-- What `boot_tty_init` prints. -/
def greeting (serialExists : Bool) : List (BitVec 8) :=
  if serialExists then [] else noSerialPort ++ [chr '\n']

/-- The driver of the booting stage, when it has not printed anything. -/
def started (video : Video) (d : Driver δ) : Driver δ :=
  serialInit bus (clearScreen bus (probeVideo video d))

/-- `boot_tty_init` returns, and leaves a driver that has printed its greeting. The greeting is
empty when the status of the serial port is not `0xFF`. -/
theorem bootTtyInit_eq (video : Video) (c : Console δ) :
    ∃ c', bootTtyInit bus video c = .ok c' ∧
      c'.boot = print bus (greeting (started bus video c.boot).serialExists)
        (started bus video c.boot) := by
  generalize hc₀ : ((c.onBoot (probeVideo video)).onBoot (clearScreen bus)).onBoot (serialInit bus)
    = c₀
  have hstarted : started bus video c.boot = c₀.boot := by
    rw [← hc₀]
    rfl
  have hinit : bootTtyInit bus video c
      = if !c₀.bootSerialExists then bootPuts bus (arrayAt (noSerialPort ++ [0])) c₀ else .ok c₀ := by
    rw [← hc₀]
    rfl
  rw [hinit, hstarted]
  cases hserial : c₀.bootSerialExists with
  | true => exact ⟨c₀, rfl, by simp [greeting, print, Console.boot, hserial]⟩
  | false =>
      -- There is no NUL in the message.
      have hemits : printstr (bootPutchar bus) (arrayAt (noSerialPort ++ [0])) c₀
          = .ok (noSerialPort.foldl (bootPutchar bus) c₀) :=
        printstr_emits (nulTerminated_arrayAt (by decide)) (by decide) _ _ _
      refine ⟨(noSerialPort ++ [chr '\n']).foldl (bootPutchar bus) c₀, ?_, ?_⟩
      · rw [bootPuts, hemits, List.foldl_append]
        rfl
      · rw [boot_print]
        simp [greeting, Console.boot, hserial]

/-- What is left of a session of both stages is one string that was printed on one driver: the
greeting and the two strings. The handover in between loses nothing. -/
theorem session_eq (video : Video) (s₁ s₂ : List (BitVec 8)) (c : Console δ) :
    ∃ c', session bus video s₁ s₂ c = .ok c' ∧
      c'.kernel = print bus (greeting c'.serialExists ++ s₁ ++ s₂) (started bus video c.boot) := by
  obtain ⟨c₁, hc₁, hboot⟩ := bootTtyInit_eq bus video c
  refine ⟨s₂.foldl (kputchar bus) (ttyInit (s₁.foldl (bootPutchar bus) c₁)), ?_, ?_⟩
  · rw [session, hc₁]
    rfl
  · have hkernel : (s₂.foldl (kputchar bus) (ttyInit (s₁.foldl (bootPutchar bus) c₁))).kernel
        = print bus s₂ (print bus s₁ c₁.boot) := by
      rw [kernel_print, ← boot_print]
      rfl
    have hserial : (s₂.foldl (kputchar bus) (ttyInit (s₁.foldl (bootPutchar bus) c₁))).serialExists
        = (started bus video c.boot).serialExists := by
      show (Console.kernel _).serialExists = _
      rw [hkernel, print_serialExists, print_serialExists, hboot, print_serialExists]
    rw [hserial, hkernel, hboot, print_append, print_append]

/-- A driver that has not printed anything shows a blank screen. The old memory is the one behind
the probe, which `boot_tty_init` clears at once. -/
theorem started_shown (video : Video) (d : Driver δ) :
    Shown (probeVideo video d).m.hw (Grid.init blankCell) (started bus video d).screen := by
  have hscreen : (started bus video d).screen = SumiOS.clearScreen (probeVideo video d).screen := by
    rw [← clearScreen_screen bus]
    show SumiOS.Driver.mk (serialInit bus _).m.hw _ _ = _
    rw [serialInit_hw]
    rfl
  rw [hscreen]
  exact shown_clearScreen (probeVideo video d).screen

/-- The mode that the probe has found is not changed until the first character. -/
theorem started_displayMode (video : Video) (d : Driver δ) :
    (started bus video d).displayMode = if video.color then .text else .blackwhite :=
  probeVideo_mode video d

/-- There are three reads before the first character, all of them in the initialization of the
serial port. -/
theorem started_reads (video : Video) (d : Driver δ) :
    (started bus video d).m.reads = d.m.reads + 3 := by
  have hprobe : (probeVideo video d).m.reads = d.m.reads := by
    rw [probeVideo]
    split <;> rfl
  show (clearScreen bus (probeVideo video d)).m.reads + 3 = _
  rw [clearScreen]
  simp [hprobe]

/-- The probe writes no cell outside of the screen, with and without a memory of the text mode. -/
theorem probeVideo_inside (video : Video) (d : Driver δ) :
    WritesInside d.m.hw (probeVideo video d).m.hw := by
  rw [probeVideo_hw]
  split
  · exact storeCells_inside _ _
  · exact WritesInside.refl _

/-- The cursor location that is read back from the controller is the one in its registers, whose
two bytes are joined. -/
theorem getCursorLoc_toNat (mode : DisplayMode) (m : Machine δ) :
    (getCursorLoc bus mode m).1.toNat = cursorRegisters mode m.hw := by
  have hjoin : ∀ high low : BitVec 8,
      (high.setWidth 16 <<< 8 ||| low.setWidth 16).toNat = high.toNat * 256 + low.toNat := by
    intro high low
    rw [BitVec.or_comm, Lib.toNat_twoBytes (Nat.le_refl 16)]
    omega
  cases mode with
  | blackwhite => exact hjoin _ _
  | text => exact hjoin _ _

/-- What the initialization of the serial port writes. -/
def serialWrites : List (BitVec 16 × BitVec 8) :=
  [(0x3FA, 0), (0x3FB, 0x78), (0x3F8, 12), (0x3F9, 0), (0x3FB, 0x83), (0x3FC, 0), (0x3F9, 0xF9)]

/-- Before the first character a device sees the seven writes that initialize the serial port, when
it is not behind the ports of the controllers. -/
theorem started_seenBy {σ : Type} (video : Video) (d : Driver δ)
    {f : BitVec 16 × BitVec 8 → σ → σ} (hf : IgnoresCrtc f) (s : σ) :
    (started bus video d).m.seenBy f s
      = serialWrites.foldl (fun s w => f w s) (d.m.seenBy f s) := by
  have hinit : ∀ d : Driver δ, (serialInit bus d).m.seenBy f s
      = serialWrites.foldl (fun s w => f w s) (d.m.seenBy f s) := fun _ => rfl
  have hprobe : (probeVideo video d).m.seenBy f s = d.m.seenBy f s := by
    rw [probeVideo]
    split <;> rfl
  rw [started, hinit, clearScreen]
  simp [setCursorLoc_seenBy bus _ _ _ hf, hprobe]

/-- A device that only takes writes sees the initialization of the serial port, and then the
characters of both stages, with the spaces of their tabs. -/
theorem session_seenBy {σ : Type} (video : Video) (c : Console δ) (s₁ s₂ : List (BitVec 8))
    {f : BitVec 16 × BitVec 8 → σ → σ} (hf : IgnoresCrtc f) (s : σ) :
    ∃ c', session bus video s₁ s₂ c = .ok c' ∧
      c'.m.seenBy f s = ((greeting c'.serialExists ++ s₁ ++ s₂).flatMap echo).foldl (sendChar f)
        (serialWrites.foldl (fun s w => f w s) (c.m.seenBy f s)) := by
  obtain ⟨c', hsession, hkernel⟩ := session_eq bus video s₁ s₂ c
  refine ⟨c', hsession, ?_⟩
  have hsends := (print_sends bus (greeting c'.serialExists ++ s₁ ++ s₂)
    (started bus video c.boot)).seen f s hf
  rw [← hkernel, started_seenBy bus video _ hf] at hsends
  exact hsends

end Session

/-- Whatever the devices answer, both stages end and show one terminal: in the mode of the
video memory that there is, the cells of the screen are the rows of its window, and the
cursor is at its cursor and can be read back from the controller. No other cell is
written, and the ports are read a bounded number of times for each character. -/
theorem console_shows {δ : Type} (bus : Bus δ) (video : Video) (c : Console δ)
    (s₁ s₂ : List (BitVec 8)) :
    ∃ c', session bus video s₁ s₂ c = .ok c' ∧
      let s := greeting c'.serialExists ++ s₁ ++ s₂
      let top := (feed s).row - 24
      c'.displayMode = (if video.color then .text else .blackwhite) ∧
      (∀ i < 2000, c'.m.hw.vram i = (feed s).cells (top + i / 80) (i % 80)) ∧
      c'.cursorLoc.toNat = ((feed s).row - top) * 80 + (feed s).col ∧
      (getCursorLoc bus c'.displayMode c'.m).1 = c'.cursorLoc ∧
      (∀ i ∈ c'.m.hw.written, i < 2000 ∨ i ∈ c.m.hw.written) ∧
      c'.m.reads ≤ c.m.reads + 3 + 128002 * (s.flatMap echo).length := by
  obtain ⟨c', hsession, hkernel⟩ := session_eq bus video s₁ s₂ c
  refine ⟨c', hsession, ?_⟩
  intro s top
  obtain ⟨hshown, hmode⟩ := print_shown bus (started_shown bus video c.boot) s
  have hsends := (print_sends bus s (started bus video c.boot)).reads
  rw [started_reads] at hsends
  rw [← hkernel] at hshown hmode hsends
  refine ⟨hmode.trans (started_displayMode bus video c.boot), fun i hi => hshown.shows.cell hi,
    hshown.shows.loc, BitVec.eq_of_toNat_eq ?_, fun i hi => ?_, hsends⟩
  · rw [getCursorLoc_toNat]
    exact hshown.registers
  · cases hshown.written i hi with
    | inl h => exact Or.inl h
    | inr h => exact probeVideo_inside video c.boot i h

/-- A bus without devices: nobody pulls a line low. -/
def floatingBus : Bus Unit := ⟨fun _ d => (0xFF, d), fun _ _ d => d⟩

/-- A machine in black and white and without devices, before `boot_tty_init`. -/
def darkConsole : Console Unit :=
  ⟨⟨⟨fun _ => 0, ⟨0, fun _ => 0⟩, ⟨0, fun _ => 0⟩, []⟩, (), [], 0⟩, 0, .text, true, 0, .text, true⟩

/-- A machine without devices: the lines of all ports float, and the only video memory is the one
in black and white. There is no serial port, and the screen says so before it shows the two
strings. -/
theorem console_shows_dark :
    ∃ c', session floatingBus ⟨false, 0xFFFFFFFFFFFFFFFF, by decide⟩ [0x41, 0x0A] [0x42] darkConsole
        = .ok c' ∧
      c'.displayMode = .blackwhite ∧ c'.m.hw.vram 0 = 0x0F5B ∧ c'.m.hw.vram 160 = 0x0F41 ∧
      c'.m.hw.vram 240 = 0x0F42 ∧ c'.cursorLoc = 241 := by
  obtain ⟨c', hsession, hmode, hcells, hloc, -⟩ := console_shows floatingBus
    ⟨false, 0xFFFFFFFFFFFFFFFF, by decide⟩ darkConsole [0x41, 0x0A] [0x42]
  obtain ⟨c₁, hsession₁, hkernel⟩ := session_eq floatingBus
    ⟨false, 0xFFFFFFFFFFFFFFFF, by decide⟩ [0x41, 0x0A] [0x42] darkConsole
  obtain rfl : c' = c₁ := Except.ok.inj (hsession.symm.trans hsession₁)
  -- The status register reads as the lines that nobody pulls low.
  have hserial : c'.serialExists = false :=
    (congrArg Driver.serialExists hkernel).trans (print_serialExists ..)
  rw [hserial] at hcells hloc
  have hfeed : ∃ g, feed (greeting false ++ [0x41, 0x0A] ++ [0x42]) = g ∧ g.cells 0 0 = 0x0F5B ∧
      g.cells 2 0 = 0x0F41 ∧ g.cells 3 0 = 0x0F42 ∧ g.row = 3 ∧ g.col = 1 := by
    refine ⟨_, rfl, ?_⟩
    decide +kernel
  obtain ⟨g, hg, hfirst, hsecond, hthird, hrow, hcol⟩ := hfeed
  rw [hg, hrow] at hcells
  rw [hg, hrow, hcol] at hloc
  exact ⟨c', hsession, hmode, (hcells 0 (by decide)).trans hfirst,
    (hcells 160 (by decide)).trans hsecond, (hcells 240 (by decide)).trans hthird,
    BitVec.eq_of_toNat_eq hloc⟩

/-! ### The parallel port -/

/-- The registers of the parallel port, and the bytes that were on its data lines whenever the
strobe went on. What a printer makes of them is up to the printer. -/
structure Lpt where
  data : BitVec 8
  control : BitVec 8
  strobed : List (BitVec 8)

/-- The strobe is bit 0 of the control register. -/
def Lpt.strobe (p : Lpt) : Bool := p.control.getLsbD 0

/-- The line that resets a printer is bit 2 of the control register, and it is active low. -/
def Lpt.reset (p : Lpt) : Bool := !p.control.getLsbD 2

def Lpt.outb (w : BitVec 16 × BitVec 8) (p : Lpt) : Lpt :=
  if w.1 = 0x378 then { p with data := w.2 }
  else if w.1 = 0x37A then
    { p with control := w.2,
             strobed := if w.2.getLsbD 0 && !p.strobe then p.strobed ++ [p.data] else p.strobed }
  else p

/-- The parallel port is at other numbers than the controllers, so it sees nothing of
the cursor. -/
theorem lpt_ignoresCrtc : IgnoresCrtc Lpt.outb where
  blackwhite _ _ := ⟨rfl, rfl⟩
  text _ _ := ⟨rfl, rfl⟩

/-- What the last write of a character leaves in the control register: the strobe is off, and the
line for a reset is active. -/
theorem lpt_idle {data : BitVec 8} {strobed : List (BitVec 8)} :
    (Lpt.mk data 0x8 strobed).strobe = false ∧ (Lpt.mk data 0x8 strobed).reset = true := by
  show (0x8 : BitVec 8).getLsbD 0 = false ∧ (!(0x8 : BitVec 8).getLsbD 2) = true
  decide

/-- The strobe goes on once for a character, unless it was on before, and is off at the end. The
character is on the data lines at that moment. -/
theorem lpt_sendChar (p : Lpt) (ch : BitVec 8) :
    sendChar Lpt.outb p ch = ⟨ch, 0x8, if p.strobe then p.strobed else p.strobed ++ [ch]⟩ := by
  cases h : p.strobe <;> simp [sendChar, portWrites, Lpt.outb, Lpt.strobe, COM_SERIAL_TX] at h ⊢ <;>
    simp [h]

/-- A string on the parallel port. Only the first character can be without an edge, since the
strobe is off after each of them. -/
theorem lpt_sendChars (p : Lpt) (cs : List (BitVec 8)) :
    cs.foldl (sendChar Lpt.outb) p
      = ⟨cs.getLast?.getD p.data, if cs = [] then p.control else 0x8,
          p.strobed ++ cs.drop (if p.strobe then 1 else 0)⟩ := by
  induction cs generalizing p with
  | nil => simp
  | cons ch cs ih =>
      have hoff : ∀ cs', (Lpt.mk ch 0x8 cs').strobe = false := fun _ => lpt_idle.1
      rw [List.foldl_cons, lpt_sendChar, ih, hoff]
      cases h : p.strobe <;> simp [List.getLast?_cons]

/-! ### A serial controller -/

/-- The registers of a serial controller, and the bytes that it has sent. -/
structure Uart where
  lcr : BitVec 8
  divisorLow : BitVec 8
  divisorHigh : BitVec 8
  ier : BitVec 8
  sent : List (BitVec 8)

/-- The divisor latch access bit. -/
def Uart.dlab (u : Uart) : Bool := u.lcr.getLsbD 7

/-- The first two registers are those of the divisor while that bit is set. -/
def Uart.outb (w : BitVec 16 × BitVec 8) (u : Uart) : Uart :=
  if w.1 = 0x3F8 then
    if u.dlab then { u with divisorLow := w.2 } else { u with sent := u.sent ++ [w.2] }
  else if w.1 = 0x3F9 then
    if u.dlab then { u with divisorHigh := w.2 } else { u with ier := w.2 }
  else if w.1 = 0x3FB then { u with lcr := w.2 }
  else u

/-- The serial controller is at other numbers than the controllers of the screen. -/
theorem uart_ignoresCrtc : IgnoresCrtc Uart.outb where
  blackwhite _ _ := ⟨rfl, rfl⟩
  text _ _ := ⟨rfl, rfl⟩

/-- While the divisor latch access bit is set, a character changes the low byte of the divisor and
is not sent. So only the last one of a string is left there. -/
theorem uart_sendChars (u : Uart) (hu : u.lcr.getLsbD 7 = true) (cs : List (BitVec 8)) :
    cs.foldl (sendChar Uart.outb) u
      = { u with divisorLow := cs.getLast?.getD u.divisorLow } := by
  induction cs generalizing u with
  | nil => rfl
  | cons ch cs ih =>
      have hone : sendChar Uart.outb u ch = { u with divisorLow := ch } := by
        simp [sendChar, portWrites, Uart.outb, Uart.dlab, COM_SERIAL_TX, hu]
      rw [List.foldl_cons, hone, ih { u with divisorLow := ch } hu]
      cases cs with
      | nil => rfl
      | cons a as => simp [List.getLast?_cons]

section

variable {δ : Type} (bus : Bus δ) (video : Video) (c : Console δ) (s₁ s₂ : List (BitVec 8))

/-- Every character is on the data lines when the strobe goes on, once and in order, and the
spaces of a tab after it. The first one has no edge when the strobe was on before. Nothing that
the port answers makes a difference. Behind the last character, the line that resets a printer
is left active. -/
theorem lpt_strobes (p₀ : Lpt) :
    ∃ c', session bus video s₁ s₂ c = .ok c' ∧
      let p := c.m.seenBy Lpt.outb p₀
      let p' := c'.m.seenBy Lpt.outb p₀
      let s := (greeting c'.serialExists ++ s₁ ++ s₂).flatMap echo
      p'.strobed = p.strobed ++ s.drop (if p.strobe then 1 else 0) ∧
        (s ≠ [] → p'.strobe = false ∧ p'.reset = true) := by
  obtain ⟨c', hsession, hseen⟩ := session_seenBy bus video c s₁ s₂ lpt_ignoresCrtc p₀
  refine ⟨c', hsession, ?_⟩
  intro p p' s
  -- The initialization of the serial port is not for the parallel port.
  have hinit : serialWrites.foldl (fun p w => Lpt.outb w p) p = p := rfl
  have hlast : p' = _ := hseen
  rw [hlast, hinit, lpt_sendChars]
  refine ⟨rfl, fun hs => ?_⟩
  rw [if_neg hs]
  exact lpt_idle

/-- The serial port sends one byte while it is initialized, the low byte of the divisor, and
nothing of what is printed: all of it goes to the divisor. -/
theorem uart_silent (u₀ : Uart) :
    ∃ c', session bus video s₁ s₂ c = .ok c' ∧
      let u := c.m.seenBy Uart.outb u₀
      c'.m.seenBy Uart.outb u₀
        = ⟨0x83, ((greeting c'.serialExists ++ s₁ ++ s₂).flatMap echo).getLast?.getD u.divisorLow,
            0xF9, 0, u.sent ++ [12]⟩ := by
  obtain ⟨c', hsession, hseen⟩ := session_seenBy bus video c s₁ s₂ uart_ignoresCrtc u₀
  refine ⟨c', hsession, ?_⟩
  intro u
  have hinit : serialWrites.foldl (fun u w => Uart.outb w u) u
      = ⟨0x83, u.divisorLow, 0xF9, 0, u.sent ++ [12]⟩ := by
    simp [serialWrites, Uart.outb, Uart.dlab]
  have hdlab : (0x83 : BitVec 8).getLsbD 7 = true := by decide
  rw [hseen, hinit]
  exact uart_sendChars ⟨0x83, u.divisorLow, 0xF9, 0, u.sent ++ [12]⟩ hdlab _

end

end Ports

end SumiOS
