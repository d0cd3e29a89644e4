import SumiOS.Boot
import SumiOS.Lib.Cells

/-!
# `SumiOS.Entry`: the way into long mode

`arch/x86/boot/boot.S`: the screen is cleared and gets its first letters, the tables map the
first 20 MB to themselves, and the two words that the boot loader leaves in registers go over
the stack. The code runs with 32-bit registers and without paging, so that the video memory
is part of the memory that it writes to.

The labels of `.boot.data` follow each other page by page, so that they are given by the
first one, `boot_stack`. The instructions that switch the processor to long mode are left out.
-/

set_option autoImplicit false

namespace SumiOS

open Lib

/-! ### `.boot.data` -/

section

variable (bootStack : BitVec 32)

def bootStackTop : BitVec 32 := bootStack + 0x2000
def bootPageTablePgd : BitVec 32 := bootStack + 0x2000
def bootPageTablePud : BitVec 32 := bootStack + 0x3000
def bootPageTablePmd : BitVec 32 := bootStack + 0x4000
def bootPageTablePt : BitVec 32 := bootStack + 0x5000
def bootPageTableEnd : BitVec 32 := bootStack + 0xf000

end

/-! ### `.boot.text` -/

/-- `mov v, (a)`. -/
def store (m : Mem) (a v : BitVec 32) : Mem := m.write32 (a.setWidth 64) v

/-- `movw $v, a`. -/
def storew (m : Mem) (a : BitVec 32) (v : BitVec 16) : Mem := m.write16 (a.setWidth 64) v

/-- `mov (a), %reg`. -/
def load (m : Mem) (a : BitVec 32) : BitVec 32 := m.read32 (a.setWidth 64)

/-- `PAGE_ATTR_P | PAGE_ATTR_RW`. -/
def tableAttr : BitVec 32 := (PAGE_ATTR_P ||| PAGE_ATTR_RW).setWidth 32

/-- After so many rounds, a register is where it was before. -/
def registerBound : Nat := 2 ^ 32

/-- `.cls`. -/
def clsLoop : Nat → Mem → BitVec 32 → Option Mem
  | 0, _, _ => none
  | n + 1, m, ecx =>
      let m := storew m (0xb8000 + ecx) 0x0f20
      let ecx := ecx + 2
      if ecx ≠ 80 * 25 * 2 then clsLoop n m ecx else some m

/-- The letters that are put into the first line. -/
def printLetters (m : Mem) : Mem :=
  let m := storew m 0xb8000 0x2F61
  let m := storew m 0xb8002 0x2F72
  let m := storew m 0xb8004 0x2F74
  let m := storew m 0xb8006 0x2F74
  let m := storew m 0xb8008 0x2F6e
  let m := storew m 0xb800a 0x2F62
  let m := storew m 0xb800c 0x2F61
  storew m 0xb800e 0x2F33

/-- `.pte_loop`, with the registers that it leaves. -/
def pteLoop : Nat → Mem → BitVec 32 → BitVec 32 → BitVec 32 →
    Option (Mem × BitVec 32 × BitVec 32)
  | 0, _, _, _, _ => none
  | n + 1, m, ebx, edx, ecx =>
      let m := store m edx ebx
      let ebx := ebx + 0x1000
      let edx := edx + 8
      let ecx := ecx + 1
      if ecx ≠ 512 then pteLoop n m ebx edx ecx else some (m, ebx, edx)

/-- `.pt_loop`. -/
def ptLoop (tableEnd esp : BitVec 32) : Nat → Mem → BitVec 32 → BitVec 32 → BitVec 32 → Option Mem
  | 0, _, _, _, _ => none
  | n + 1, m, eax, ebx, edx =>
      -- The entry is made in `edx`, which is kept on the stack.
      let m := store m (esp - 4) edx
      let m := store m eax (edx ||| tableAttr)
      let edx := load m (esp - 4)
      (pteLoop registerBound m ebx edx 0).bind fun (m, ebx, edx) =>
        if edx ≠ tableEnd then ptLoop tableEnd esp n m (eax + 8) ebx edx else some m

/-- What the code hands to long mode. -/
structure Entered where
  mem : Mem
  cr3 : BitVec 32
  edi : BitVec 32
  esi : BitVec 32

/-- `start`, with the magic number of the boot loader in `eax` and the address of its
information in `ebx`. -/
def start (bootStack : BitVec 32) (m : Mem) (eax ebx : BitVec 32) : Option Entered :=
  let esp := bootStackTop bootStack
  let m := store m (esp - 4) ebx
  let m := store m (esp - 8) eax
  -- `pushl $0; popf`.
  let m := store m (esp - 12) 0
  let esp := esp - 8
  (clsLoop registerBound m 0).bind fun m =>
    let m := printLetters m
    let m := store m (bootPageTablePgd bootStack) (bootPageTablePud bootStack ||| tableAttr)
    let m := store m (bootPageTablePud bootStack) (bootPageTablePmd bootStack ||| tableAttr)
    (ptLoop (bootPageTableEnd bootStack) esp registerBound m (bootPageTablePmd bootStack) tableAttr
      (bootPageTablePt bootStack)).map fun m =>
        ⟨m, bootPageTablePgd bootStack, load m esp, load m (esp + 4)⟩

end SumiOS
