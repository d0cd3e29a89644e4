import SumiOS.PageAlloc
import SumiOS.Lib.ByteMem

/-!
# `SumiOS.PageTable`: four-level page tables

`include/mm/page_table.h` and `mm/pgtable.c`. A table is a page of memory with
512 entries of eight bytes. Tables are named by their physical addresses, and
the code reads and writes them through a window: the table at the physical
address `x` is at the virtual address `x + window`. In the kernel the window is
the direct mapping area; during boot, physical addresses are used as they are.

`mm_init_pgtable_map`, `mm_pgtable_map` and `boot_pgtable_map` have the same
body. They differ in the window and in the allocator of the tables. That body is
`pgtableMap`, and the two parameters are its first arguments.
-/

set_option autoImplicit false

namespace SumiOS

open Lib

/-! ### `mm/page_table.h` -/

def PTE_OFFSET : Nat := 12
def PMD_OFFSET : Nat := 21
def PUD_OFFSET : Nat := 30
def PGD_OFFSET : Nat := 39
def PT_ENTRY_MASK : Word := 0b111111111

/-- `((addr >> offset) & PT_ENTRY_MASK)`. -/
def ptEntry (offset : Nat) (addr : Word) : Word := (addr >>> offset) &&& PT_ENTRY_MASK

def pteEntry (addr : Word) : Word := ptEntry PTE_OFFSET addr
def pmdEntry (addr : Word) : Word := ptEntry PMD_OFFSET addr
def pudEntry (addr : Word) : Word := ptEntry PUD_OFFSET addr
def pgdEntry (addr : Word) : Word := ptEntry PGD_OFFSET addr

/-! ### Mapping and lookup -/

/-- `&table[i]`, for the table at the physical address `table`. -/
def entryAddr (window table i : Word) : Word := table + window + i * 8

/-- `table[i] & PAGE_MASK`: the physical address of the next table. -/
def nextTable (window : Word) (m : Mem) (table i : Word) : Word :=
  m.read64 (entryAddr window table i) &&& PAGE_MASK

section Map

variable {σ : Type} (window : Word) (alloc : σ → σ × Word)

/-- One level of the mapping: an empty entry gets a new table, which is cleared
through the entry itself, and then the attributes. -/
def ensureTable (m : Mem) (s : σ) (table i attr : Word) : Mem × σ :=
  let e := entryAddr window table i
  if m.read64 e = 0 then
    let (s, page) := alloc s
    let m := m.write64 e page
    let m := m.memset (m.read64 e + window) 0 PAGE_SIZE.toNat
    (m.write64 e (m.read64 e ||| attr), s)
  else (m, s)

/-- The body of the three mapping functions: map for a single page. -/
def pgtableMap (m : Mem) (s : σ) (pgtable va pa attr : Word) : Mem × σ :=
  let pgd := pgtable
  let (m, s) := ensureTable window alloc m s pgd (pgdEntry va) attr
  let pud := nextTable window m pgd (pgdEntry va)
  let (m, s) := ensureTable window alloc m s pud (pudEntry va) attr
  let pmd := nextTable window m pud (pudEntry va)
  let (m, s) := ensureTable window alloc m s pmd (pmdEntry va) attr
  let pte := nextTable window m pmd (pmdEntry va)
  (m.write64 (entryAddr window pte (pteEntry va)) (pa ||| attr), s)

/-- The body of the two lookups in the kernel: `-1` when the walk meets an empty
entry, or a leaf with the address 0 that is not at one of the two addresses that
map frame 0. -/
def pgtableGetPa (m : Mem) (pgtable va : Word) : Word :=
  let pgd := pgtable
  if m.read64 (entryAddr window pgd (pgdEntry va)) = 0 then -1
  else
    let pud := nextTable window m pgd (pgdEntry va)
    if m.read64 (entryAddr window pud (pudEntry va)) = 0 then -1
    else
      let pmd := nextTable window m pud (pudEntry va)
      if m.read64 (entryAddr window pmd (pmdEntry va)) = 0 then -1
      else
        let pte := nextTable window m pmd (pmdEntry va)
        let e := m.read64 (entryAddr window pte (pteEntry va))
        if e &&& PAGE_MASK = 0 && !kernelVaIsPhysZero va then -1 else e &&& PAGE_MASK

end Map

/-! ### `mm/pgtable.c` -/

/-- `mm_phys_alloc(PAGE_SIZE)`, whose loop does not go round. -/
def mmPhysAllocPage (b : Buddy) : Buddy × Word :=
  match allocPages b 0 with
  | (b, none) => (b, -1)
  | (b, some p) => (b, pageToPhys p)

/-- For a page, `mm_phys_alloc` is total: its loop over the orders ends at once. -/
theorem mmPhysAlloc_page (b : Buddy) : mmPhysAlloc b PAGE_SIZE = some (mmPhysAllocPage b) := by
  have h : expandOrder PAGE_SIZE 64 0 = some 0 := rfl
  rw [mmPhysAlloc, h]
  rfl

def mmPgtableGetVaPte (m : Mem) (pgtable va : Word) : Word :=
  pgtableGetPa KERNEL_DIRECT_MAPPING_AREA m pgtable va

def mmPgtableMap (m : Mem) (b : Buddy) (pgtable va pa attr : Word) : Mem × Buddy :=
  pgtableMap KERNEL_DIRECT_MAPPING_AREA mmPhysAllocPage m b pgtable va pa attr

end SumiOS
