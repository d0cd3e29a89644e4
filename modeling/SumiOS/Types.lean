import Mathlib.Algebra.Group.Int.Defs
import Mathlib.Algebra.Group.Nat.Defs
import Mathlib.Tactic.Common

/-!
# `SumiOS.Types`: machine words, page constants and the memory layout

`include/sumios/types.h`, `include/sumios/align.h`, `include/mm/page_types.h`,
`include/mm/types.h` and `include/mm/layout.h`. `size_t`, `virt_addr_t`,
`phys_addr_t` and the page-table entry types are all 64-bit words.
-/

set_option autoImplicit false

namespace SumiOS

/-- `size_t`, and with it `virt_addr_t`, `phys_addr_t` and `page_attr_t`. -/
abbrev Word := BitVec 64

/-- `ALIGN(x, n)`: align up, `n` a power of two. -/
def align (x n : Word) : Word := (x + (n - 1)) &&& ~~~(n - 1)

/-! ### `mm/page_types.h` -/

def PAGE_SHIFT : Nat := 12
def PAGE_SIZE : Word := 1#64 <<< PAGE_SHIFT
def PAGE_MASK : Word := ~~~(PAGE_SIZE - 1)

def PAGE_ATTR_P : Word := 1
def PAGE_ATTR_RW : Word := 1 <<< 1

/-! ### `mm/layout.h` -/

def KERNEL_PAGE_ARRAY : Word := 0xffff800000000000
def KERNEL_DIRECT_MAPPING_AREA : Word := 0xffff888000000000
def KERNEL_BASE_ADDR : Word := 0xffffffff81000000

/-- `KERNEL_VA_IS_PHYS_ZERO(va)`: the two addresses that map frame 0. -/
def kernelVaIsPhysZero (va : Word) : Bool :=
  va == KERNEL_DIRECT_MAPPING_AREA || va == KERNEL_BASE_ADDR

/-- `PHYS_TO_KERNEL_DIRECT_MAPPING_ADDR(x)`. -/
def physToKernelDirectMappingAddr (x : Word) : Word := x + KERNEL_DIRECT_MAPPING_AREA

end SumiOS
