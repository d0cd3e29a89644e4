import Mathlib.Tactic.IntervalCases
import SumiOS.InitLive
import SumiOS.Proofs.Boot.Startup
import SumiOS.Proofs.Init.Demand
import SumiOS.Proofs.Kernel.Start

/-!
# `SumiOS.Proofs.Kernel.Image`: from the boot loader to the runs of the kernel

The booting stage leaves what `mm_init` needs (`LoadedImage.prepared`): its pages are behind
the image and in front of `boot_mem_alloc_start`, and seen in the direct mapping area they
are a tree of tables. So the stages can be put together, from the registers of the boot
loader to any run of the kernel (`bringUp_image`). The page table is the history of the calls
of both stages, and the image stays where it is: nobody gets its memory, it is mapped behind
`KERNEL_BASE_ADDR`, and no write through the direct mapping area reaches it.

What the program writes to its own bytes is not followed here either (`OwnBytes`). So `mm_init`
may find any values there, and the results hold for every memory that has the other bytes.
-/

set_option autoImplicit false

namespace SumiOS

open Lib Ports

/-! ### Physical memory -/

/-- Looking at memory by physical address and back through the direct mapping area is looking at
the same memory. -/
theorem directMem_physMem (m : Mem) : directMem (physMem m) = m := by
  funext a
  rw [directMem, physMem, physToKernelDirectMappingAddr, BitVec.sub_add_cancel]

/-- The direct mapping area shows physical memory, so reading through it reads the same bytes. -/
theorem sameBytes_directMem (P : Word → Prop) (m : Mem) : SameBytes P m (physMem (directMem m)) := by
  intro x _
  rw [physMem, directMem, physToKernelDirectMappingAddr, BitVec.add_sub_cancel]

/-- A walk in the direct mapping area is a walk in physical memory. -/
theorem pgtableWalk_directMem (m : Mem) (root va : Word) :
    pgtableWalk KERNEL_DIRECT_MAPPING_AREA (directMem m) root va = pgtableWalk 0 m root va := by
  rw [pgtableWalk_eq_walkTo, pgtableWalk_eq_walkTo, view_directMem]

/-- A leaf that is not zero is what the walk comes to. -/
theorem translates_of_leafOf {m : Mem} {root va pa leaf : Word} (hleaf : leafOf 0 m root va = leaf)
    (hne : leaf ≠ 0) (hpa : leaf &&& PAGE_MASK = pa) : Translates m root va pa := by
  rw [Translates]
  rw [leafOf] at hleaf
  cases hwalk : pgtableWalk 0 m root va with
  | none =>
      rw [hwalk] at hleaf
      exact absurd hleaf.symm hne
  | some leaf' =>
      rw [hwalk] at hleaf
      exact ⟨leaf, congrArg some hleaf, hne, hpa⟩

/-- The frame behind an address of the direct mapping area is the frame of the physical address. -/
theorem frameOf_direct (x : Word) : frameOf (physToKernelDirectMappingAddr x) = pageOf x := by
  rw [frameOf, physToKernelDirectMappingAddr, BitVec.add_sub_cancel]

/-- The last call for an address is the last one of the later calls, and one of the earlier calls
only when there is none. -/
theorem lastCall_or {va : Word} {calls calls' : List MapCall} :
    lastCall va (calls ++ calls') = (lastCall va calls').or (lastCall va calls) := by
  rw [lastCall, List.reverse_append, List.find?_append]
  rfl

/-! ### What the booting stage leaves -/

section Handover

variable {δ : Type} {bus : Bus δ} {bootStack eax ebx : BitVec 32} {image : KernelImage} {mem : Mem}
  {bootStart rsp mbi va : Word} {dev : Machine δ} {e : Entered} {b : BootState δ} {s : Kmem}
  {entries : List MmapEntry} {own : Word → Prop}

/-- The pages of the booting stage follow each other behind the image, up to
`boot_mem_alloc_start`, which is where the kernel stage goes on to allocate. -/
theorem LoadedImage.bootPages (h : LoadedImage bootStack image mem)
    (hup : bringUp bus bootStack bootStart image mem eax ebx rsp dev = some (e, .main mbi b))
    (hboot : 0 ∉ b.mm.returned) : PageAligned b.mm.bootMemAllocStart ∧
      b.mm.bootMemAllocStart.toNat = image.size.toNat + 4096 * (1 + bootDemand image) ∧
      ∀ q ∈ b.mm.returned, PageAligned q ∧ image.size.toNat + 4096 ≤ q.toNat ∧
        q.toNat < b.mm.bootMemAllocStart.toNat := by
  obtain ⟨-, hinit, -⟩ := h.bringUp_inv hup
  have hnat : (bootMmInitStart bootStart image).toNat = image.size.toNat + 4096 :=
    bootMmInitStart_toNat h.placed
  have hsmall := h.placed.size_lt
  have hfew := bootDemand_few h.placed
  obtain ⟨hcursor, haligned⟩ := bootStage_cursor h.placed hinit hboot
  have hend : b.mm.bootMemAllocStart.toNat = image.size.toNat + 4096 * (1 + bootDemand image) := by
    rw [hcursor, pageAfter_toNat (by omega), hnat]
    omega
  refine ⟨haligned, hend, fun q hq => ?_⟩
  have hmod := haligned.toNat_mod
  obtain ⟨i, hi, hq⟩ := (mem_bootPages h.placed hinit hboot).mp hq
  refine ⟨pageAligned_iff.mpr ?_, ?_, ?_⟩
  · omega
  · omega
  · omega

/-- What `mm_init` finds in the direct mapping area is the tree of the booting stage. -/
theorem LoadedImage.tree (h : LoadedImage bootStack image mem)
    (hup : bringUp bus bootStack bootStart image mem eax ebx rsp dev = some (e, .main mbi b))
    (hboot : 0 ∉ b.mm.returned) (hown : OwnBytes bootStack image own)
    (hmem : SameBytes (fun x => ¬ own x) b.mem (physMem s.mem)) :
    ∃ T A, BootTree image (physMem s.mem) b.mm.returned b.bootKernPgtable T A := by
  obtain ⟨-, hinit, -⟩ := h.bringUp_inv hup
  exact bootTree_elsewhere h.placed hinit hboot hown hmem

/-- This is what `mm_init` needs, when the map of the boot loader has the memory behind the
image. -/
theorem LoadedImage.prepared (h : LoadedImage bootStack image mem)
    (hup : bringUp bus bootStack bootStart image mem eax ebx rsp dev = some (e, .main mbi b))
    (hboot : 0 ∉ b.mm.returned) (hown : OwnBytes bootStack image own)
    (hmem : SameBytes (fun x => ¬ own x) b.mem (physMem s.mem)) (hmap : MemoryMap (2 ^ 46) entries)
    (hin : ∃ e ∈ entries, e.Available ∧ e.Holds b.mm.bootMemAllocStart.toNat)
    (hclear : OutsideNotFree entries s.buddy) :
    Prepared entries b.mm.bootMemAllocStart b.bootKernPgtable (· ∈ b.mm.returned) s where
  map := hmap
  start := (h.bootPages hup hboot).1
  inside := hin
  clear := hclear
  below := by
    intro q hq
    obtain ⟨haligned, -, hlt⟩ := (h.bootPages hup hboot).2.2 q hq
    exact ⟨haligned, hlt⟩
  tables := by
    obtain ⟨T, A, htree⟩ := h.tree hup hboot hown hmem
    obtain ⟨hlaid, haligned, hused⟩ := htree.tables
    refine ⟨T, ⟨?_, haligned, fun π p hp => ?_⟩, htree.rooted⟩
    · rw [← directMem_physMem s.mem, view_directMem]
      exact hlaid
    · exact Or.inl ((hused π p hp).resolve_left id)

/-- The leaves are those of the calls: behind the other root entries than the first, the last call
for a page decides. -/
theorem LoadedImage.leaf (h : LoadedImage bootStack image mem)
    (hup : bringUp bus bootStack bootStart image mem eax ebx rsp dev = some (e, .main mbi b))
    (hboot : 0 ∉ b.mm.returned) (hown : OwnBytes bootStack image own)
    (hmem : SameBytes (fun x => ¬ own x) b.mem (physMem s.mem)) (hva : pgdEntry va ≠ 0) :
    leafOf KERNEL_DIRECT_MAPPING_AREA s.mem b.bootKernPgtable va
      = ((lastCall va (bootCalls image)).map fun c => c.pa ||| c.attr).getD 0 := by
  obtain ⟨T, A, htree⟩ := h.tree hup hboot hown hmem
  rw [← directMem_physMem s.mem, leafOf, pgtableWalk_directMem]
  exact htree.walk_getD (indexOf_ne_zero hva)

end Handover

/-! ### The image -/

section Image

variable {δ : Type} {bus : Bus δ} {bootStack eax ebx : BitVec 32} {image : KernelImage}
  {mem info m : Mem} {own : Word → Prop} {bootStart rsp mbi t va : Word} {dev : Machine δ} {e : Entered} {b : BootState δ} {s s₁ : Kmem}
  {tags n : Nat} {la : LinearAlloc} {k : Kernel} {ops : List KernelOp}

/-- The image is behind the last root entry, at each of its addresses. -/
theorem pgdEntry_image (h : image.Placed) {x : Word} (hx : x < image.size) :
    pgdEntry (KERNEL_BASE_ADDR + x) = 511 := by
  have hbase : KERNEL_BASE_ADDR.toNat = 18446744071578845184 := rfl
  have hsize := h.size_toNat
  have hend := image.kernelEnd.isLt
  have hlt := BitVec.lt_def.mp hx
  refine BitVec.eq_of_toNat_eq ?_
  rw [pgdEntry_toNat, BitVec.toNat_add, hbase]
  show _ = 511
  omega

/-- The frames of the image are neither available to the buddy system nor those of a table, since
all pages of both stages lie behind its end. -/
theorem Initialized.image_apart {entries : List MmapEntry} {bootMemAllocStart kernPgtable : Word}
    {base : Word → Prop} {x : Word}
    (hready : Initialized entries bootMemAllocStart kernPgtable base la s s₁) (hx : x < image.size)
    (hstart : image.size.toNat + 4096 ≤ bootMemAllocStart.toNat)
    (hbase : ∀ q, base q → image.size.toNat + 4096 ≤ q.toNat) :
    frameOf (physToKernelDirectMappingAddr x) ∉ freedSet entries la ∧
      ∀ q, BootPage base la q → frameOf (physToKernelDirectMappingAddr x) ≠ pageOf q := by
  have hlt := BitVec.lt_def.mp hx
  rw [frameOf_direct, pageOf_eq]
  constructor
  · intro hfreed
    obtain ⟨-, hlow⟩ := hready.usable _ hfreed
    omega
  · intro q hq
    have hlow : image.size.toNat + 4096 ≤ q.toNat := by
      cases hq with
      | inl hq => exact hbase q hq
      | inr hq => exact hstart.trans (hready.behind q hq)
    rw [pageOf_eq]
    omega

section Runs

variable (hloaded : LoadedImage bootStack image mem)
  (hup : bringUp bus bootStack bootStart image mem eax ebx rsp dev = some (e, .main mbi b))
  (hboot : 0 ∉ b.mm.returned) (hown : OwnBytes bootStack image own)
  (hmem : SameBytes (fun x => ¬ own x) b.mem (physMem s.mem))
  (hready : Initialized (mapEntries info t 24 n) b.mm.bootMemAllocStart b.bootKernPgtable
    (· ∈ b.mm.returned) la s s₁)
  (hrun : run (Kernel.step b.bootKernPgtable) (Kernel.start s₁) ops = some k)
  (htables : -1 ∉ k.tables) (hm : SameBytes (fun x => ¬ own x) (physMem k.heap.kmem.mem) m)

include hloaded hup hboot hown hready hrun htables hm

/-- The program's own bytes are in no table of the kernel, so memory that differs from the kernel's
in these bytes only has the same tables. -/
theorem Initialized.run_tables {q a : Word} (hq : BootPage (· ∈ b.mm.returned) la q ∨ q ∈ k.tables)
    (ha : frameOf a = pageOf q) : directMem m a = k.heap.kmem.mem a := by
  obtain ⟨-, hend, hpages⟩ := hloaded.bootPages hup hboot
  have hplace : physToKernelDirectMappingAddr (a - KERNEL_DIRECT_MAPPING_AREA) = a := by
    rw [physToKernelDirectMappingAddr, BitVec.sub_add_cancel]
  have hout : ¬ own (a - KERNEL_DIRECT_MAPPING_AREA) := by
    intro hax
    obtain ⟨hnot, hapart⟩ := hready.image_apart (hown.below _ hax) (by omega)
      fun q hq => (hpages q hq).2.1
    rw [hplace] at hnot hapart
    cases hq with
    | inl hq => exact hapart q hq ha
    | inr hq =>
        obtain ⟨P, ho⟩ := (hready.inv.run hready.apart hrun htables).heap
        exact hnot (ha ▸ ho.table_mem hq)
  have hbyte := (hm _ hout).symm
  rwa [physMem, hplace] at hbyte

include hmem

/-- The page table is the history of the calls of both stages: the last call for a page decides,
and those of the kernel stage come after those of the booting stage. -/
theorem Initialized.run_leaf (harea : areaEntry (pgdEntry va) = false) :
    leafOf 0 m b.bootKernPgtable va =
      ((lastCall va (if pgdEntry va = 0 then mapsOf ops else bootCalls image ++ mapsOf ops)).map
        fun c => c.pa ||| c.attr).getD 0 := by
  have hI := hready.inv.run hready.apart hrun htables
  have hmaps : k.maps = mapsOf ops := (Kernel.run_maps hrun).1
  rw [leafOf, ← pgtableWalk_directMem, ← leafOf, hI.leaf_of (fun q hq a ha =>
    Initialized.run_tables hloaded hup hboot hown hready hrun htables hm hq ha), hmaps,
    hready.leaf va harea]
  by_cases hva : pgdEntry va = 0
  · rw [if_pos hva, if_pos hva]
  · rw [if_neg hva, if_neg hva, hloaded.leaf hup hboot hown hmem hva, lastCall_or]
    generalize lastCall va (bootCalls image) = last
    cases lastCall va (mapsOf ops) with
    | none => rw [Option.none_or, Option.map_none, Option.getD_none]
    | some c => rw [Option.some_or, Option.map_some, Option.getD_some, Option.getD_some]

/-- The image stays mapped through a run, because no call of `mm_pgtable_map` is for it: the root
entry of the image is one of the kernel's own. -/
theorem Initialized.run_translates {x : Word} (hx : x < image.size) :
    Translates m b.bootKernPgtable (KERNEL_BASE_ADDR + x) (x &&& PAGE_MASK) := by
  have htop := pgdEntry_image hloaded.placed hx
  obtain ⟨T, A, htree⟩ := hloaded.tree hup hboot hown hmem
  obtain ⟨leaf, hwalk, hne, hpa⟩ := htree.image_translates hloaded.placed hx
  refine translates_of_leafOf ?_ hne hpa
  have hnone : lastCall (KERNEL_BASE_ADDR + x) (mapsOf ops) = none := by
    rw [Option.eq_none_iff_forall_ne_some]
    intro c hc
    have hsame := pgdEntry_of_pathOf ((sameFrom_iff _ _ 4 (by decide)).mp (lastCall_same hc))
    have hfalse := (Kernel.run_maps hrun).2 c (lastCall_mem hc)
    rw [hsame, htop] at hfalse
    exact absurd hfalse (by decide)
  have hva : pgdEntry (KERNEL_BASE_ADDR + x) ≠ 0 := by
    rw [htop]
    decide
  have harea : areaEntry (pgdEntry (KERNEL_BASE_ADDR + x)) = false := by
    rw [htop]
    decide
  rw [Initialized.run_leaf hloaded hup hboot hown hmem hready hrun htables hm harea, if_neg hva,
    lastCall_or, hnone, Option.none_or, ← htree.walk_getD (indexOf_ne_zero hva), hwalk,
    Option.getD_some]

omit hown in
/-- Outside of the program's own bytes, the image is as `boot.S` left it: no table, no object and
no block lies in it. -/
theorem Initialized.run_image {x : Word} (hx : x < image.size) (hout : ¬ own x) :
    m x = e.mem x := by
  obtain ⟨-, hstage, -⟩ := hloaded.bringUp_inv hup
  obtain ⟨-, hend, hpages⟩ := hloaded.bootPages hup hboot
  obtain ⟨hnot, hapart⟩ := hready.image_apart hx (by omega) fun q hq => (hpages q hq).2.1
  have hkept : k.heap.kmem.mem (physToKernelDirectMappingAddr x)
      = s₁.mem (physToKernelDirectMappingAddr x) :=
    hready.inv.run_frame hready.apart hrun htables hnot hapart
  have hbefore : physMem s.mem x = b.mem x := (hmem x hout).symm
  rw [physMem] at hbefore
  rw [← hm x hout, physMem, hkept, hready.frame _ hapart, hbefore]
  exact image_stays hloaded.placed hstage hboot hx

end Runs

/-- From the registers of the boot loader to any run of the kernel in which no allocation for the
page table fails. Outside of the page array and the direct mapping area, an address is
translated as the last call of the booting stage or of `mm_pgtable_map` for its page says; what
was behind root entry 0 is gone. The image is mapped behind `KERNEL_BASE_ADDR` and its bytes,
other than the program's own, are those that `boot.S` left, and no client holds any of them.

The program's own bytes may have any value when `mm_init` begins, and in the end. -/
theorem bringUp_image (hloaded : LoadedImage bootStack image mem)
    (hup : bringUp bus bootStack bootStart image mem eax ebx rsp dev = some (e, .main mbi b))
    (hboot : 0 ∉ b.mm.returned) (hown : OwnBytes bootStack image own)
    (hmem : SameBytes (fun x => ¬ own x) b.mem (physMem s.mem)) (hinfo : BootInfo info mbi tags t n)
    (hmap : MemoryMap (2 ^ 46) (mapEntries info t 24 n))
    (hin : ∃ e ∈ mapEntries info t 24 n, e.Available ∧ e.Holds b.mm.bootMemAllocStart.toNat)
    (hclear : OutsideNotFree (mapEntries info t 24 n) s.buddy)
    (hinit : mmInit info mbi b.mm.bootMemAllocStart b.bootKernPgtable tags (n + 1) s = some (la, s₁))
    (hok : 0 ∉ la.returned)
    (hsep : Separated topOrder [] (freedFrames (mapEntries info t 24 n) la.mmAllocEnd))
    (hrun : run (Kernel.step b.bootKernPgtable) (Kernel.start s₁) ops = some k)
    (htables : -1 ∉ k.tables) :
    (∀ m, SameBytes (fun x => ¬ own x) (physMem k.heap.kmem.mem) m →
      (∀ va, areaEntry (pgdEntry va) = false →
        leafOf 0 m b.bootKernPgtable va =
          ((lastCall va (if pgdEntry va = 0 then mapsOf ops else bootCalls image ++ mapsOf ops)).map
            fun c => c.pa ||| c.attr).getD 0) ∧
      ∀ x < image.size,
        Translates m b.bootKernPgtable (KERNEL_BASE_ADDR + x) (x &&& PAGE_MASK) ∧
          (¬ own x → m x = e.mem x)) ∧
      ∀ r ∈ k.heap.held, ∀ y, r.Holds y → image.size ≤ y - KERNEL_DIRECT_MAPPING_AREA := by
  -- From here on only the state that `mm_init` leaves is used.
  have hready := mmInit_initialized hinfo
    (hloaded.prepared hup hboot hown hmem hmap hin hclear) hinit hok hsep
  refine ⟨fun m hm => ⟨fun va harea => ?_, fun x hx => ⟨?_, fun hout => ?_⟩⟩, fun r hr y hy => ?_⟩
  · exact Initialized.run_leaf hloaded hup hboot hown hmem hready hrun htables hm harea
  · exact Initialized.run_translates hloaded hup hboot hown hmem hready hrun htables hm hx
  · exact Initialized.run_image hloaded hup hboot hmem hready hrun htables hm hx hout
  · have hI := hready.inv.run hready.apart hrun htables
    obtain ⟨hram, -⟩ := hI.held (fun q hq => (hready.apart q hq).2) hr hy
    obtain ⟨-, hlow⟩ := hready.usable _ hram
    obtain ⟨-, hend, -⟩ := hloaded.bootPages hup hboot
    rw [frameOf, pageOf_eq] at hlow
    refine BitVec.le_def.mpr ?_
    omega

end Image

/-- The map of a boot loader with 32 frames and, behind a hole, four frames. -/
def loaderInfo : Mem := infoAt 0x9500
  [80, 0, 6, 64, 24, 0, 0x200000, 0, 0x20000, 0, 1, 0, 0x230000, 0, 0x4000, 0, 1, 0, 0, 8]

def loaderMap : List MmapEntry := [⟨0x200000, 0x20000, 1⟩, ⟨0x230000, 0x4000, 1⟩]

/-- The memory map that is read from the bytes of the boot loader's information. -/
theorem loaderInfo_entries : mapEntries loaderInfo 0x9508 24 2 = loaderMap := by decide

/-- The walk over these bytes finds the memory map behind the header, and it has two entries. -/
theorem loaderInfo_bootInfo : BootInfo loaderInfo 0x9500 1 0x9508 2 where
  found := ⟨⟨0x9508, 0x9508, [0x9508]⟩, by rfl, rfl⟩
  ne_zero := by decide
  map := ⟨by decide, by decide, by decide, by decide, by decide⟩
  fits := by decide

/-- The two areas satisfy the side conditions on memory maps. -/
theorem loaderMap_memoryMap : MemoryMap (2 ^ 46) loaderMap :=
  .of_stops (by decide) (by decide) (by decide) (by decide)

/-- The image behind that information is one that the boot loader may leave: its symbols are in
order, and its words for the tables are zero. -/
theorem loaded_loaderInfo : LoadedImage 0x101000 image2 loaderInfo where
  placed := by decide
  data := ⟨by decide, by decide, by decide⟩
  zero := by
    intro k hlow hk
    have hplace : (((0x101000 : BitVec 32).setWidth 64 + BitVec.ofNat 64 k) - 0x9500).toNat
        = 0x101000 - 0x9500 + k := by
      rw [BitVec.toNat_sub, BitVec.toNat_add, BitVec.toNat_ofNat]
      simp
      omega
    show loaderInfo _ = 0
    unfold loaderInfo infoAt
    dsimp only
    rw [hplace, List.getD_eq_default _ _ (by simp; omega)]
    simp
  inside := by decide
  pud := by decide

/-- Seven pages are in the first entry, wherever the booting stage stops. -/
theorem loaderMap_scan {d : Nat} (hd : d < 20) :
    ∃ la, loaderMap.foldlM (scanEntry (BitVec.ofNat 64 (0x201000 + 4096 * d))) LinearAlloc.static
      = some la ∧ ∀ m ≤ 7,
        0 ∉ (linearAllocs m la).returned ∧ (linearAllocs m la).mmAllocEnd = 0x220000 := by
  interval_cases d
  all_goals exact ⟨_, rfl, by decide⟩

/-- So the map that the kernel reads does, which is the form that its theorems ask for. -/
theorem loaderInfo_memoryMap : MemoryMap (2 ^ 46) (mapEntries loaderInfo 0x9508 24 2) := by
  rw [loaderInfo_entries]
  exact loaderMap_memoryMap

/-- Behind the booting stage, `mm_init` comes to its end, and what is behind the hole is free. -/
theorem loaderInfo_mmInit :
    ∃ e b la s₁, bringUp (cmosBus cmos64) 0x101000 0x100000 image2 loaderInfo
        MULTIBOOT2_BOOTLOADER_MAGIC 0x9500 0x102f00 newMachine = some (e, .main 0x9500 b) ∧
      0 ∉ b.mm.returned ∧
      (∃ e ∈ mapEntries loaderInfo 0x9508 24 2, e.Available ∧ e.Holds b.mm.bootMemAllocStart.toNat) ∧
      mmInit loaderInfo 0x9500 b.mm.bootMemAllocStart b.bootKernPgtable 1 3
        { smallKmem with mem := directMem b.mem } = some (la, s₁) ∧
      0 ∉ la.returned ∧ la.mmAllocEnd = 0x220000 ∧
      Separated topOrder [] (freedFrames (mapEntries loaderInfo 0x9508 24 2) la.mmAllocEnd) ∧
      Initialized (mapEntries loaderInfo 0x9508 24 2) b.mm.bootMemAllocStart b.bootKernPgtable
        (· ∈ b.mm.returned) la { smallKmem with mem := directMem b.mem } s₁ ∧ s₁.slubs = [] := by
  obtain ⟨e, m', mm, root, -, hstage, hup⟩ := loaded_loaderInfo.bringUp_eq (cmosBus cmos64) 0x100000
    0x102f00 MULTIBOOT2_BOOTLOADER_MAGIC 0x9500 newMachine
  rw [if_neg (not_not.mpr rfl), if_neg (not_not.mpr (by decide))] at hup
  have henough : 0 ∉ mm.returned := (enough_iff loaded_loaderInfo.placed
    (bootMmDetect_toNat (hasCmos_cmosBus cmos64) newMachine) hstage).mpr image2_room
  generalize hb : (⟨m', mm, root, 0x102f00 + KERNEL_BASE_ADDR,
    (bootMmDetect (cmosBus cmos64) newMachine).2⟩ : BootState (BitVec 8)) = b at hup
  have hboot : 0 ∉ b.mm.returned := hb ▸ henough
  -- The booting stage stops in the first entry of the map.
  obtain ⟨-, hend, -⟩ := loaded_loaderInfo.bootPages hup hboot
  have hsize : image2.size.toNat = 0x200000 := by decide
  have hfew := bootDemand_regions loaded_loaderInfo.placed
  rw [hsize] at hend hfew
  generalize bootDemand image2 = d at hend hfew
  have hstart : b.mm.bootMemAllocStart = BitVec.ofNat 64 (0x201000 + 4096 * d) := by
    refine BitVec.eq_of_toNat_eq ?_
    rw [hend, BitVec.toNat_ofNat]
    omega
  obtain ⟨la, hscan, hpages⟩ := loaderMap_scan (d := d) (by omega)
  have hin : ∃ e ∈ mapEntries loaderInfo 0x9508 24 2,
      e.Available ∧ e.Holds b.mm.bootMemAllocStart.toNat := by
    rw [loaderInfo_entries]
    refine ⟨⟨0x200000, 0x20000, 1⟩, List.mem_cons_self, rfl, ?_, ?_⟩
    · show 0x200000 ≤ _
      omega
    · show _ < 0x220000
      omega
  have hprep := loaded_loaderInfo.prepared hup hboot (s := { smallKmem with mem := directMem b.mem })
    ownBytes2_own (sameBytes_directMem _ b.mem) loaderInfo_memoryMap hin fun _ _ => rfl
  obtain ⟨v, vs, hvisits, hregion, hstructs⟩ : ∃ v vs, visitsOf loaderMap = v :: vs ∧
      (∀ w ∈ v :: vs, innerPaths (physToKernelDirectMappingAddr w.2) =
        innerPaths (physToKernelDirectMappingAddr v.2)) ∧
      ∀ w ∈ v :: vs, pathOf (structVa w) = pathOf (structVa v) :=
    ⟨_, _, rfl, by decide, by decide⟩
  rw [← hstart, ← loaderInfo_entries] at hscan
  rw [← loaderInfo_entries] at hvisits
  obtain ⟨m, hm, s₁, hinit, hslubs⟩ := mmInit_few loaderInfo_bootInfo hprep (by decide) hvisits hregion
    hstructs hscan fun n hn => (hpages n hn).1
  obtain ⟨hok, hareaEnd⟩ := hpages m hm
  have hsep : Separated topOrder [] (freedFrames (mapEntries loaderInfo 0x9508 24 2)
      (linearAllocs m la).mmAllocEnd) := by
    rw [loaderInfo_entries, hareaEnd]
    decide
  have hready := mmInit_initialized loaderInfo_bootInfo hprep hinit hok hsep
  exact ⟨e, b, _, s₁, hup, hboot, hin, hinit, hok, hareaEnd, hsep, hready, hslubs⟩

/-- The page that a client gets is not the image: on a machine with 64 MB, after the code from
`boot.S` on and one `alloc_pages`, the stack is still mapped, the first byte of the image is the
one from before, and what the client holds lies behind the image. -/
theorem bringUp_image_loader :
    ∃ e b la s₁ k, bringUp (cmosBus cmos64) 0x101000 0x100000 image2 loaderInfo
        MULTIBOOT2_BOOTLOADER_MAGIC 0x9500 0x102f00 newMachine = some (e, .main 0x9500 b) ∧
      mmInit loaderInfo 0x9500 b.mm.bootMemAllocStart b.bootKernPgtable 1 3
        { smallKmem with mem := directMem b.mem } = some (la, s₁) ∧
      run (Kernel.step b.bootKernPgtable) (Kernel.start s₁) [.client (.allocPages 0)] = some k ∧
      k.heap.held ≠ [] ∧
      (∀ m, SameBytes (fun x => ¬ ownBytes2 x) (physMem k.heap.kmem.mem) m →
        Translates m b.bootKernPgtable (KERNEL_BASE_ADDR + 0x102f00) 0x102000 ∧
          m 0x100000 = e.mem 0x100000) ∧
      ∀ r ∈ k.heap.held, ∀ y, r.Holds y → image2.size ≤ y - KERNEL_DIRECT_MAPPING_AREA := by
  obtain ⟨e, b, la, s₁, hup, hboot, hin, hinit, hok, hareaEnd, hsep, hready, hslubs⟩ :=
    loaderInfo_mmInit
  have hfree : (0x230 : Int) ∈ freedSet (mapEntries loaderInfo 0x9508 24 2) la := by
    rw [loaderInfo_entries, freedSet, hareaEnd]
    show (0x230 : Int) ∈ freedFrames loaderMap 0x220000
    decide
  obtain ⟨k, hrun, hheld, hnil⟩ := hready.run_allocPages hslubs hfree
  have htables : -1 ∉ k.tables := by
    rw [hnil]
    exact List.not_mem_nil
  obtain ⟨himage, hclients⟩ := bringUp_image loaded_loaderInfo hup hboot ownBytes2_own
    (s := { smallKmem with mem := directMem b.mem }) (sameBytes_directMem _ b.mem)
    loaderInfo_bootInfo loaderInfo_memoryMap hin (fun _ _ => rfl) hinit hok hsep hrun htables
  refine ⟨e, b, la, s₁, k, hup, hinit, hrun, hheld, fun m hm => ?_, hclients⟩
  obtain ⟨-, hbytes⟩ := himage m hm
  exact ⟨(hbytes 0x102f00 (by decide)).1, (hbytes 0x100000 (by decide)).2 (by decide)⟩

end SumiOS
