import SumiOS.Lib.Bitfield
import SumiOS.Lib.ByteRun
import SumiOS.String

/-!
# `SumiOS.Interrupt`: the descriptor tables of the processor

`arch/x86/include/asm/desc.h`, `gate.h`, `interrupt.h` and `trap.h`,
`arch/x86/kernel/desc.c` and `interrupt.c`, and `arch_init` of `arch/x86/init.c`.

A packed structure is the list of its fields, each with its width, the lowest first. In
memory it is the number that they are packed into. The addresses of the tables, of the
handlers and of the local variable `desc` are arguments (`Symbols`).

`clock_init` and `cpu_init` are empty, and the handlers only print and halt.
-/

set_option autoImplicit false

namespace SumiOS

open Lib

/-! ### `asm/desc.h` -/

def SEG_TYPE_SYS_80386_INTR_GATE : BitVec 4 := 0b1110
def SEG_TYPE_SYS_80386_TRAP_GATE : BitVec 4 := 0b1111

/-- `struct descriptor`. -/
structure Descriptor where
  limit0 : BitVec 16
  base0 : BitVec 16
  base1 : BitVec 8
  type : BitVec 4
  s : BitVec 1
  dpl : BitVec 2
  p : BitVec 1
  limit1 : BitVec 4
  avl : BitVec 1
  l : BitVec 1
  d : BitVec 1
  g : BitVec 1
  base2 : BitVec 8
deriving DecidableEq

def Descriptor.fields (x : Descriptor) : List (Nat × Nat) :=
  [(16, x.limit0.toNat), (16, x.base0.toNat), (8, x.base1.toNat), (4, x.type.toNat),
    (1, x.s.toNat), (2, x.dpl.toNat), (1, x.p.toNat), (4, x.limit1.toNat), (1, x.avl.toNat),
    (1, x.l.toNat), (1, x.d.toNat), (1, x.g.toNat), (8, x.base2.toNat)]

/-- `sizeof(struct descriptor)`. -/
def DESCRIPTOR_SIZE : Nat := 8

def GDT_ENTRIES : Nat := 32
def GDT_SIZE : Nat := GDT_ENTRIES * DESCRIPTOR_SIZE

/-- `DESCRIPTOR_INIT(base, limit, flags)`. -/
def descriptorInit (base limit flags : BitVec 32) : Descriptor where
  limit0 := limit.setWidth 16
  limit1 := ((limit >>> 16) &&& 0xF).setWidth 4
  base0 := base.setWidth 16
  base1 := ((base >>> 16) &&& 0xFF).setWidth 8
  base2 := ((base >>> 24) &&& 0xFF).setWidth 8
  type := (flags &&& 0xF).setWidth 4
  s := ((flags >>> 4) &&& 1).setWidth 1
  dpl := ((flags >>> 5) &&& 3).setWidth 2
  p := ((flags >>> 7) &&& 1).setWidth 1
  avl := ((flags >>> 12) &&& 1).setWidth 1
  l := ((flags >>> 13) &&& 1).setWidth 1
  d := ((flags >>> 14) &&& 1).setWidth 1
  g := ((flags >>> 15) &&& 1).setWidth 1

def GDT_KERNEL_CS : Nat := 1
def GDT_KERNEL_DS : Nat := 2
def GDT_USER32_CS : Nat := 3
def GDT_USER_DS : Nat := 4
def GDT_USER_CS : Nat := 5

def DEFAULT_KERNEL_CS_SELECTOR : BitVec 32 := 8

/-! ### `kernel/desc.c` -/

/-- `gdt`. The entries that are not named are zero. -/
def gdt (i : Nat) : Descriptor :=
  if i = GDT_KERNEL_CS then descriptorInit 0 0xFFFFF 0xA09B
  else if i = GDT_KERNEL_DS then descriptorInit 0 0xFFFFF 0xC093
  else if i = GDT_USER32_CS then descriptorInit 0 0xFFFFF 0xC0FB
  else if i = GDT_USER_DS then descriptorInit 0 0xFFFFF 0xC0F3
  else if i = GDT_USER_CS then descriptorInit 0 0xFFFFF 0xA0FB
  else descriptorInit 0 0 0

/-! ### `asm/gate.h` -/

/-- `struct gate_desc`. -/
structure GateDesc where
  offset0 : BitVec 16
  selector : BitVec 16
  ist : BitVec 3
  zero : BitVec 5
  type : BitVec 4
  zero2 : BitVec 1
  dpl : BitVec 2
  p : BitVec 1
  offset1 : BitVec 16
  offset2 : BitVec 32
  reserved : BitVec 32
deriving DecidableEq

def GateDesc.fields (x : GateDesc) : List (Nat × Nat) :=
  [(16, x.offset0.toNat), (16, x.selector.toNat), (3, x.ist.toNat), (5, x.zero.toNat),
    (4, x.type.toNat), (1, x.zero2.toNat), (2, x.dpl.toNat), (1, x.p.toNat),
    (16, x.offset1.toNat), (32, x.offset2.toNat), (32, x.reserved.toNat)]

/-- `sizeof(struct gate_desc)`. -/
def GATE_DESC_SIZE : Nat := 16

/-- `KERNEL_INTR_GATE_INIT(handler, selector)` and `KERNEL_TRAP_GATE_INIT(handler, selector)`
but for the type. The fields that are not named are zero. -/
def kernelGateInit (type : BitVec 4) (handler : Word) (selector : BitVec 32) : GateDesc where
  offset0 := handler.setWidth 16
  offset1 := (handler >>> 16).setWidth 16
  offset2 := (handler >>> 32).setWidth 32
  selector := selector.setWidth 16
  zero := 0
  zero2 := 0
  type := type
  dpl := 0
  p := 1
  ist := 0
  reserved := 0

def kernelIntrGateInit (handler : Word) (selector : BitVec 32) : GateDesc :=
  kernelGateInit SEG_TYPE_SYS_80386_INTR_GATE handler selector

def kernelTrapGateInit (handler : Word) (selector : BitVec 32) : GateDesc :=
  kernelGateInit SEG_TYPE_SYS_80386_TRAP_GATE handler selector

/-! ### `kernel/interrupt.c` -/

def IDT_ENTRIES : Nat := 32

/-- `sizeof(idt)`. The structure is aligned to pages, so it is one page long. -/
def IDT_SIZE : Nat := 4096

/-- The addresses of `idt`, `gdt`, the local variable `desc` and the handlers. -/
structure Symbols where
  idt : Word
  gdt : Word
  desc : Word
  nullIntrHandler : Word
  pageFaultHandler : Word

/-- `&idt.idt[nr]`. -/
def idtEntry (sym : Symbols) (nr : BitVec 32) : Word :=
  sym.idt + nr.signExtend 64 * BitVec.ofNat 64 GATE_DESC_SIZE

/-- `memcpy(&idt.idt[nr], &desc, sizeof(struct gate_desc))`, with `desc` on the stack. -/
def setGate (sym : Symbols) (m : Mem) (nr : BitVec 32) (desc : GateDesc) : Mem :=
  let m := m.writeNum sym.desc GATE_DESC_SIZE (pack desc.fields)
  memcpy m (idtEntry sym nr) sym.desc (BitVec.ofNat 64 GATE_DESC_SIZE)

def setIntrHandler (sym : Symbols) (m : Mem) (nr : BitVec 32) (handler : Word) : Mem :=
  setGate sym m nr (kernelIntrGateInit handler DEFAULT_KERNEL_CS_SELECTOR)

def setTrapHandler (sym : Symbols) (m : Mem) (nr : BitVec 32) (handler : Word) : Mem :=
  setGate sym m nr (kernelTrapGateInit handler DEFAULT_KERNEL_CS_SELECTOR)

/-! ### `asm/trap.h` -/

def TRAP_DE : BitVec 32 := 0
def TRAP_DB : BitVec 32 := 1
def TRAP_NMI : BitVec 32 := 2
def TRAP_BP : BitVec 32 := 3
def TRAP_OF : BitVec 32 := 4
def TRAP_BR : BitVec 32 := 5
def TRAP_UD : BitVec 32 := 6
def TRAP_NM : BitVec 32 := 7
def TRAP_DF : BitVec 32 := 8
def TRAP_OLD_MF : BitVec 32 := 9
def TRAP_TS : BitVec 32 := 10
def TRAP_NP : BitVec 32 := 11
def TRAP_SS : BitVec 32 := 12
def TRAP_GP : BitVec 32 := 13
def TRAP_PF : BitVec 32 := 14
def TRAP_NON_1 : BitVec 32 := 15
def TRAP_MF : BitVec 32 := 16
def TRAP_AC : BitVec 32 := 17
def TRAP_MC : BitVec 32 := 18
def TRAP_XM : BitVec 32 := 19
def TRAP_VE : BitVec 32 := 20
def TRAP_CP : BitVec 32 := 21

/-! ### `x86/init.c` -/

/-- A table register of the processor: `struct gdt_register` and `struct idt_register`. -/
structure TableRegister where
  size : BitVec 16
  address : Word

/-- The memory, the table registers and the interrupt flag. -/
structure Cpu where
  mem : Mem
  gdtr : TableRegister
  idtr : TableRegister
  interruptFlag : Bool

def gdtInit (sym : Symbols) (c : Cpu) : Cpu :=
  { c with gdtr := ⟨BitVec.ofNat 16 GDT_SIZE, sym.gdt⟩ }

/-- The calls of `set_intr_handler`. -/
def idtHandlers (sym : Symbols) : List (BitVec 32 × Word) :=
  [(TRAP_DE, sym.nullIntrHandler), (TRAP_DB, sym.nullIntrHandler),
    (TRAP_NMI, sym.nullIntrHandler), (TRAP_BP, sym.nullIntrHandler),
    (TRAP_OF, sym.nullIntrHandler), (TRAP_BR, sym.nullIntrHandler),
    (TRAP_UD, sym.nullIntrHandler), (TRAP_NM, sym.nullIntrHandler),
    (TRAP_DF, sym.nullIntrHandler), (TRAP_OLD_MF, sym.nullIntrHandler),
    (TRAP_TS, sym.nullIntrHandler), (TRAP_NP, sym.nullIntrHandler),
    (TRAP_SS, sym.nullIntrHandler), (TRAP_GP, sym.nullIntrHandler),
    (TRAP_PF, sym.pageFaultHandler), (TRAP_NON_1, sym.nullIntrHandler),
    (TRAP_MF, sym.nullIntrHandler), (TRAP_AC, sym.nullIntrHandler),
    (TRAP_MC, sym.nullIntrHandler), (TRAP_XM, sym.nullIntrHandler),
    (TRAP_VE, sym.nullIntrHandler), (TRAP_CP, sym.nullIntrHandler)]

def idtInit (sym : Symbols) (c : Cpu) : Cpu :=
  let mem := (idtHandlers sym).foldl (fun m h => setIntrHandler sym m h.1 h.2) c.mem
  { c with mem := mem, idtr := ⟨BitVec.ofNat 16 IDT_SIZE, sym.idt⟩ }

/-- `arch_init`. Its last instruction is `cli`, under a comment that says that interrupts are
turned on. -/
def archInit (sym : Symbols) (c : Cpu) : Cpu :=
  { idtInit sym (gdtInit sym c) with interruptFlag := false }

end SumiOS
