import SumiOS.Boot
import SumiOS.Entry
import SumiOS.Multiboot
import SumiOS.Ports

/-!
# `SumiOS.Startup`: from the boot loader to `main`

`startup64` and the part of `arch/x86/boot/mm_boot.c` that `SumiOS.Boot` takes as given: the
memory is detected through CMOS, whose ports are those of `SumiOS.Ports`, and the stack is
remapped in the end. What is printed on the way is left out, and so is the terminal.

`bringUp` is the whole way, from `start` on. The stack pointer that `boot_mm_init` moves is
up to the compiler, so it is an argument.

The memory of `bringUp` is that of `start`, of the page tables and of everything that the
code leaves alone. From `startup64` on the compiled code also writes to its variables, to the
stack of `.boot.data` and, behind `putchar`, to the video memory. Where these bytes are is up to
the compiler as well, so they are not followed: what is proved about memory says which bytes
it is about.
-/

set_option autoImplicit false

namespace SumiOS

open Lib Ports

/-! ### CMOS -/

def MC_NVRAM_START : BitVec 32 := 0xe
def NVRAM_BASELO : BitVec 32 := MC_NVRAM_START + 7
def NVRAM_EXTLO : BitVec 32 := MC_NVRAM_START + 9
def NVRAM_EXT16LO : BitVec 32 := MC_NVRAM_START + 38

section

variable {δ : Type} (bus : Bus δ)

/-- `nvram_read`. -/
def nvramRead (r : BitVec 32) (m : Machine δ) : BitVec 32 × Machine δ :=
  let m := Ports.outb bus 0x070 (r.setWidth 8) m
  let (low, m) := inb bus (0x070 + 1) m
  let m := Ports.outb bus 0x070 ((r + 1).setWidth 8) m
  let (high, m) := inb bus (0x070 + 1) m
  (low.setWidth 32 ||| high.setWidth 32 <<< 8, m)

/-- `boot_mm_detect`. The product is one of `int`s, and the sums are of 64 bits. -/
def bootMmDetect (m : Machine δ) : Word × Machine δ :=
  let (memBase, m) := nvramRead bus NVRAM_BASELO m
  let (memExt, m) := nvramRead bus NVRAM_EXTLO m
  let (memExt16, m) := nvramRead bus NVRAM_EXT16LO m
  let memBase := memBase.signExtend 64
  let memExt := memExt.signExtend 64
  let memExt16 := (memExt16 * 64).signExtend 64
  let bootMemTotal :=
    if memExt16 ≠ 0 then 16 * 1024 + memExt16
    else if memExt ≠ 0 then 1 * 1024 + memExt
    else memBase
  (bootMemTotal * 1024, m)

/-! ### `startup64` -/

/-- What `boot_mm_init` leaves. -/
structure BootState (δ : Type) where
  mem : Mem
  mm : BootMm
  bootKernPgtable : Word
  rsp : Word
  dev : Machine δ

/-- `boot_mm_init`. -/
def bootMmInit (bootStart : Word) (image : KernelImage) (mem : Mem) (rsp : Word) (m : Machine δ) :
    Option (BootState δ) :=
  let (bootMemTotal, m) := bootMmDetect bus m
  (bootMmPgtableInit image mem (BootMm.start bootMemTotal (bootMmInitStart bootStart image))).map
    fun r => ⟨r.1, r.2.1, r.2.2, rsp + KERNEL_BASE_ADDR, m⟩

def MULTIBOOT2_BOOTLOADER_MAGIC : BitVec 32 := 0x36d76289

/-- `startup64` returns, or calls `main`. -/
inductive Startup (δ : Type) where
  | returned
  | main (mbi : Word) (state : BootState δ)

/-- `startup64`. -/
def startup64 (bootStart : Word) (image : KernelImage) (magic : BitVec 32) (mbi : Word) (mem : Mem)
    (rsp : Word) (m : Machine δ) : Option (Startup δ) :=
  if magic ≠ MULTIBOOT2_BOOTLOADER_MAGIC then some .returned
  else if mbi &&& 7 ≠ 0 then some .returned
  else (bootMmInit bus bootStart image mem rsp m).map fun state => .main mbi state

/-- From the registers of the boot loader on: `start`, and `startup64` with its two words. -/
def bringUp (bootStack : BitVec 32) (bootStart : Word) (image : KernelImage) (mem : Mem)
    (eax ebx : BitVec 32) (rsp : Word) (m : Machine δ) : Option (Entered × Startup δ) :=
  (start bootStack mem eax ebx).bind fun e =>
    (startup64 bus bootStart image e.edi (e.esi.setWidth 64) e.mem rsp m).map fun s => (e, s)

end

end SumiOS
