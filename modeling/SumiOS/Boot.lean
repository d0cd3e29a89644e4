import SumiOS.PageTable

/-!
# `SumiOS.Boot`: the page table of the booting stage

`arch/x86/boot/mm_boot.c`: the allocator of the booting stage, the lookup and the
mapping of single pages, and `boot_mm_pgtable_init`, which maps the kernel image
and the first 10 MB of the direct mapping area. Paging with the identity map of
the boot header is on, so tables are at their physical addresses and the window
is 0.

The detection of memory through CMOS only gives `boot_mem_total`, which is an
argument here. The addresses of the linker symbols are arguments too.
-/

set_option autoImplicit false

namespace SumiOS

open Lib

/-- `boot_mem_total` and `boot_mem_alloc_start`. `returned` is not in the source:
it lists the results of `boot_mm_alloc` so far, the latest first, and no code
reads it. -/
structure BootMm where
  bootMemTotal : Word
  bootMemAllocStart : Word
  returned : List Word

/-- Before the first allocation. -/
def BootMm.start (bootMemTotal bootMemAllocStart : Word) : BootMm :=
  ⟨bootMemTotal, bootMemAllocStart, []⟩

/-- `boot_mm_alloc`, without the record of its results. -/
def allocBoot (b : BootMm) (sz : Word) : BootMm × Word :=
  if sz = 0 then (b, 0)
  else
    let sz := align sz PAGE_SIZE
    if sz + b.bootMemAllocStart ≥ b.bootMemTotal then (b, 0)
    else ({ b with bootMemAllocStart := b.bootMemAllocStart + sz }, b.bootMemAllocStart)

/-- `boot_mm_alloc`. -/
def bootMmAlloc (b : BootMm) (sz : Word) : BootMm × Word :=
  let (b, chunk) := allocBoot b sz
  ({ b with returned := chunk :: b.returned }, chunk)

/-- `boot_get_pgtable_map_pa`, without the messages that it prints. It follows the entries as
they are, with their attributes, and returns the last one as it is. -/
def bootGetPgtableMapPa (m : Mem) (pgtable va : Word) : Word :=
  let pgd := pgtable
  if m.read64 (entryAddr 0 pgd (pgdEntry va)) = 0 then -1
  else
    let pud := m.read64 (entryAddr 0 pgd (pgdEntry va))
    if m.read64 (entryAddr 0 pud (pudEntry va)) = 0 then -1
    else
      let pmd := m.read64 (entryAddr 0 pud (pudEntry va))
      if m.read64 (entryAddr 0 pmd (pmdEntry va)) = 0 then -1
      else
        let pte := m.read64 (entryAddr 0 pmd (pmdEntry va))
        m.read64 (entryAddr 0 pte (pteEntry va))

def bootPgtableMap (m : Mem) (b : BootMm) (pgtable va pa attr : Word) : Mem × BootMm :=
  pgtableMap 0 (fun b => bootMmAlloc b PAGE_SIZE) m b pgtable va pa attr

/-- The linker symbols that `boot_mm_pgtable_init` uses. -/
structure KernelImage where
  rosegEnd : Word
  kernelEnd : Word
  bootPageTablePud : Word

/-- Where `boot_mm_init` lets the allocations start: behind the image and a page. -/
def bootMmInitStart (bootStart : Word) (image : KernelImage) : Word :=
  let kernelSize := image.kernelEnd - bootStart
  let kernelSize := kernelSize - KERNEL_BASE_ADDR
  align (bootStart + kernelSize + PAGE_SIZE) PAGE_SIZE

/-- The state of a loop of `boot_mm_pgtable_init`. -/
structure BootLoop where
  mem : Mem
  mm : BootMm
  kernVirt : Word
  kernPhys : Word

/-- The loops of `boot_mm_pgtable_init`, which map page after page while `more`
says so. `none` says that a loop does not end. -/
def mapWhile (pgtable attr : Word) (more : Word → Word → Bool) : Nat → BootLoop → Option BootLoop
  | 0, _ => none
  | n + 1, st =>
      if more st.kernVirt st.kernPhys then
        let (mem, mm) := bootPgtableMap st.mem st.mm pgtable st.kernVirt st.kernPhys attr
        mapWhile pgtable attr more n ⟨mem, mm, st.kernVirt + PAGE_SIZE, st.kernPhys + PAGE_SIZE⟩
      else some st

/-- After so many rounds, the counters of a loop are where they were before. -/
def loopBound : Nat := 2 ^ 52 + 1

/-- `boot_mm_pgtable_init`, up to the load of `cr3`, with the value that it gives
to `boot_kern_pgtable`. -/
def bootMmPgtableInit (image : KernelImage) (mem : Mem) (mm : BootMm) :
    Option (Mem × BootMm × Word) := do
  let (mm, pgtable) := bootMmAlloc mm PAGE_SIZE
  let mem := mem.memset pgtable 0 PAGE_SIZE.toNat
  -- Map for the read-only region.
  let st ← mapWhile pgtable PAGE_ATTR_P (fun virt _ => virt < image.rosegEnd) loopBound
    ⟨mem, mm, KERNEL_BASE_ADDR, 0⟩
  -- Map for the read-write region.
  let st ← mapWhile pgtable (PAGE_ATTR_P ||| PAGE_ATTR_RW) (fun virt _ => virt < image.kernelEnd)
    loopBound st
  -- Map for the 10 MB direct mapping memory temporarily.
  let st ← mapWhile pgtable (PAGE_ATTR_P ||| PAGE_ATTR_RW) (fun _ phys => phys < 0xa00000)
    loopBound ⟨st.mem, st.mm, KERNEL_DIRECT_MAPPING_AREA, 0⟩
  -- Reget the boot page table in it.
  let e := entryAddr 0 pgtable 0
  let mem := st.mem.write64 e image.bootPageTablePud
  let mem := mem.write64 e (mem.read64 e ||| (PAGE_ATTR_P ||| PAGE_ATTR_RW))
  return (mem, st.mm, pgtable)

end SumiOS
