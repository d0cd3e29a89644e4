import SumiOS.Proofs.Kernel.Enough
import SumiOS.Proofs.Kernel.Kept

/-!
# `SumiOS.Proofs.Kernel.Safety`: runs of the kernel

Five results about every run from `mm_init` on, in which clients allocate and write and pages
are mapped, in any order, as long as no page for a table is missing:

* `kernel_isolated`: what clients hold is available memory that nobody else uses, neither
  another client nor the page table, nor the page array;
* `kernel_conserves`: no frame gets lost or is there twice;
* `kernel_translates`: what the page table translates is decided by the calls of
  `mm_pgtable_map` alone;
* `kernel_keeps`: the contents of what a client holds are decided by the writes of clients
  alone;
* `kernel_null_final`: once `kmalloc` returned NULL, it does so for all sizes of that cache.
-/

set_option autoImplicit false

namespace SumiOS

open Lib

section Safety

variable {info : Mem} {mbi bootMemAllocStart kernPgtable t : Word} {tags n : Nat} {s s₁ : Kmem}
  {la : LinearAlloc} {base : Word → Prop} {k k' : Kernel} {ops ops' : List KernelOp}

/-- Mappings outside of the areas of the kernel are none of the direct mapping area. -/
theorem ownEntry_direct {va y : Word} (hy : y.toNat < 2 ^ 46)
    (hsame : SameFrom PTE_OFFSET va (physToKernelDirectMappingAddr y)) :
    ownEntry (pgdEntry va) = true := by
  rw [ownEntry, pgdEntry_of_pathOf ((sameFrom_iff _ _ 4 (by decide)).mp hsame), areaEntry_direct hy,
    Bool.true_or]

/-- What clients hold is available memory that nobody else uses: no other client, no table that
a walk dereferences, and neither the booting stage nor the linear allocator, and so not the
page array. `kmalloc` always returns. -/
theorem kernel_isolated (hinfo : BootInfo info mbi tags t n)
    (hprep : Prepared (mapEntries info t 24 n) bootMemAllocStart kernPgtable base s)
    (hinit : mmInit info mbi bootMemAllocStart kernPgtable tags (n + 1) s = some (la, s₁))
    (hok : 0 ∉ la.returned)
    (hsep : Separated topOrder [] (freedFrames (mapEntries info t 24 n) la.mmAllocEnd))
    (hrun : run (Kernel.step kernPgtable) (Kernel.start s₁) ops = some k) (htables : -1 ∉ k.tables) :
    (k.heap.held ++ k.tables.map fun q => blockRegion (tableBlock q)).Pairwise Region.Disjoint ∧
      (∀ r ∈ k.heap.held, ∀ x, r.Holds x →
        (∃ e ∈ mapEntries info t 24 n, e.Available ∧ e.HasFrame (frameOf x)) ∧
        (bootMemAllocStart.toNat : Int) ≤ 4096 * frameOf x ∧
        (∀ q, base q ∨ q ∈ la.returned → frameOf x ≠ pageOf q) ∧
        ∀ va, ∀ q ∈ getPaDerefs KERNEL_DIRECT_MAPPING_AREA k.heap.kmem.mem kernPgtable va,
          frameOf x ≠ pageOf q) ∧
      ∀ sz, kmalloc k.heap.kmem sz ≠ none := by
  have hready := mmInit_initialized hinfo hprep hinit hok hsep
  have hI := hready.inv.run hready.apart hrun htables
  obtain ⟨P, hs⟩ := hI.heap
  refine ⟨?_, fun r hr x hx => ?_, fun sz hnone => ?_⟩
  · rw [← Kernel.ghost_held]
    exact hs.disjoint
  · obtain ⟨hram, hapart⟩ := hI.held (fun q hq => (hready.apart q hq).2) hr hx
    obtain ⟨havail, hlow⟩ := hready.usable _ hram
    refine ⟨havail, hlow, fun q hq => hapart q (Or.inl hq), ?_⟩
    intro va q hq
    exact hapart q (hI.derefs hq).2
  · obtain ⟨r, hr⟩ := hI.kmalloc sz
    exact absurd (hnone.symm.trans hr) (by simp)

/-- A client has a frame, and a page was mapped, with tables out of the other frames. -/
theorem kernel_isolated_small :
    ∃ la s₁ k, mmInit smallInfo 0x10000 0x800000 0x1000 1 3 smallKmem = some (la, s₁) ∧
      run (Kernel.step 0x1000) (Kernel.start s₁) [.client (.allocPages 0), .map smallCall] = some k ∧
      k.heap.held ≠ [] ∧
      (k.heap.held ++ k.tables.map fun q => blockRegion (tableBlock q)).Pairwise Region.Disjoint ∧
      (∀ r ∈ k.heap.held, ∀ x, r.Holds x →
        (∃ e ∈ mapEntries smallInfo 0x10008 24 2, e.Available ∧ e.HasFrame (frameOf x)) ∧
        ((0x800000 : Word).toNat : Int) ≤ 4096 * frameOf x ∧
        (∀ q, q = 0x1000 ∨ q ∈ la.returned → frameOf x ≠ pageOf q) ∧
        ∀ va, ∀ q ∈ getPaDerefs KERNEL_DIRECT_MAPPING_AREA k.heap.kmem.mem 0x1000 va,
          frameOf x ≠ pageOf q) ∧
      ∀ sz, kmalloc k.heap.kmem sz ≠ none := by
  obtain ⟨la, s₁, k, -, -, hinit, hok, hsep, hrun, ⟨r, hr, -⟩, -, htables, -⟩ := smallMap_run
  exact ⟨la, s₁, k, hinit, hrun, List.ne_nil_of_mem hr, kernel_isolated smallInfo_bootInfo smallInfo_prepared hinit hok hsep
    hrun htables⟩

/-- No frame gets lost or is there twice: the frames that the buddy system started with are those
of the free blocks, of the blocks that clients hold, of the tables and of the blocks of the
caches, which are all apart. `alloc_pages` fails only when no free block is large enough. -/
theorem kernel_conserves (hinfo : BootInfo info mbi tags t n)
    (hprep : Prepared (mapEntries info t 24 n) bootMemAllocStart kernPgtable base s)
    (hinit : mmInit info mbi bootMemAllocStart kernPgtable tags (n + 1) s = some (la, s₁))
    (hok : 0 ∉ la.returned)
    (hsep : Separated topOrder [] (freedFrames (mapEntries info t 24 n) la.mmAllocEnd))
    (hrun : run (Kernel.step kernPgtable) (Kernel.start s₁) ops = some k) (htables : -1 ∉ k.tables) :
    k.blocks.Pairwise Block.Apart ∧
      (∀ c d, FreeBlock k.heap.kmem.buddy c → FreeBlock k.heap.kmem.buddy d → c ≠ d → c.Apart d) ∧
      (∀ c ∈ k.blocks, ∀ d, FreeBlock k.heap.kmem.buddy d → c.Apart d) ∧
      (∀ x, x ∈ freedFrames (mapEntries info t 24 n) la.mmAllocEnd ↔
        ∃ c, (c ∈ k.blocks ∨ FreeBlock k.heap.kmem.buddy c) ∧ x ∈ c.frames) ∧
      ∀ order, (allocPages k.heap.kmem.buddy order).2 = none ↔
        ∀ c, FreeBlock k.heap.kmem.buddy c → c.order < order := by
  have hready := mmInit_initialized hinfo hprep hinit hok hsep
  exact (hready.inv.run hready.apart hrun htables).tiled

/-- The four frames: a client has one, and the rest are in tables or free. -/
theorem kernel_conserves_small :
    ∃ la s₁ k, mmInit smallInfo 0x10000 0x800000 0x1000 1 3 smallKmem = some (la, s₁) ∧
      run (Kernel.step 0x1000) (Kernel.start s₁) [.client (.allocPages 0), .map smallCall] = some k ∧
      k.heap.held ≠ [] ∧
      k.blocks.Pairwise Block.Apart ∧
      (∀ c d, FreeBlock k.heap.kmem.buddy c → FreeBlock k.heap.kmem.buddy d → c ≠ d → c.Apart d) ∧
      (∀ c ∈ k.blocks, ∀ d, FreeBlock k.heap.kmem.buddy d → c.Apart d) ∧
      (∀ x, x ∈ freedFrames (mapEntries smallInfo 0x10008 24 2) la.mmAllocEnd ↔
        ∃ c, (c ∈ k.blocks ∨ FreeBlock k.heap.kmem.buddy c) ∧ x ∈ c.frames) ∧
      ∀ order, (allocPages k.heap.kmem.buddy order).2 = none ↔
        ∀ c, FreeBlock k.heap.kmem.buddy c → c.order < order := by
  obtain ⟨la, s₁, k, -, -, hinit, hok, hsep, hrun, ⟨r, hr, -⟩, -, htables, -⟩ := smallMap_run
  exact ⟨la, s₁, k, hinit, hrun, List.ne_nil_of_mem hr, kernel_conserves smallInfo_bootInfo smallInfo_prepared hinit hok hsep
    hrun htables⟩

/-- The page table translates a page as the last call of `mm_pgtable_map` for it says, and
like `mm_init` left it when there was none, whatever the clients allocate and write. So each
byte that a client holds stays mapped to its own frame, with the attributes P and RW. -/
theorem kernel_translates (hinfo : BootInfo info mbi tags t n)
    (hprep : Prepared (mapEntries info t 24 n) bootMemAllocStart kernPgtable base s)
    (hinit : mmInit info mbi bootMemAllocStart kernPgtable tags (n + 1) s = some (la, s₁))
    (hok : 0 ∉ la.returned)
    (hsep : Separated topOrder [] (freedFrames (mapEntries info t 24 n) la.mmAllocEnd))
    (hrun : run (Kernel.step kernPgtable) (Kernel.start s₁) ops = some k) (htables : -1 ∉ k.tables) :
    (∀ va, leafOf KERNEL_DIRECT_MAPPING_AREA k.heap.kmem.mem kernPgtable va =
      ((lastCall va (mapsOf ops)).map fun c => c.pa ||| c.attr).getD
        (leafOf KERNEL_DIRECT_MAPPING_AREA s₁.mem kernPgtable va)) ∧
      ∀ r ∈ k.heap.held, ∀ x, r.Holds x →
        ExactAt k.heap.kmem.mem kernPgtable (x - KERNEL_DIRECT_MAPPING_AREA) := by
  have hready := mmInit_initialized hinfo hprep hinit hok hsep
  have hI := hready.inv.run hready.apart hrun htables
  obtain ⟨hmaps, hown⟩ := Kernel.run_maps hrun
  have hleaf : ∀ va, leafOf KERNEL_DIRECT_MAPPING_AREA k.heap.kmem.mem kernPgtable va =
      ((lastCall va (mapsOf ops)).map fun c => c.pa ||| c.attr).getD
        (leafOf KERNEL_DIRECT_MAPPING_AREA s₁.mem kernPgtable va) := by
    intro va
    rw [hI.leaf, hmaps]
    rfl
  refine ⟨hleaf, fun r hr x hx => ?_⟩
  obtain ⟨hram, -⟩ := hI.held (fun q hq => (hready.apart q hq).2) hr hx
  obtain ⟨⟨e, he, -, hframe⟩, -⟩ := hready.usable _ hram
  have hbound := hprep.map.bounded e he
  rw [frameOf, pageOf_eq] at hframe
  generalize x - KERNEL_DIRECT_MAPPING_AREA = y at hframe
  have hholds : e.Holds y.toNat := by
    have hmod := (hprep.map.addrs e he).toNat_mod
    have hmodl := (hprep.map.lens e he).toNat_mod
    obtain ⟨hlow, hhigh⟩ := hframe
    unfold MmapEntry.stop at hhigh
    unfold MmapEntry.Holds
    omega
  have hy : y.toNat < 2 ^ 46 := hholds.2.trans_le hbound
  -- No call was for the page of the byte.
  have hnone : lastCall (physToKernelDirectMappingAddr y) (mapsOf ops) = none := by
    rw [Option.eq_none_iff_forall_ne_some]
    intro c hc
    have htrue := ownEntry_direct hy (lastCall_same hc)
    rw [hown c (lastCall_mem hc)] at htrue
    exact absurd htrue (by decide)
  obtain ⟨leaf, hwalk, hexact⟩ := hready.direct e he y hholds
  have hsame := hleaf (physToKernelDirectMappingAddr y)
  rw [hnone, Option.map_none, Option.getD_none, leafOf, leafOf, hwalk, Option.getD_some] at hsame
  cases hfinal : pgtableWalk KERNEL_DIRECT_MAPPING_AREA k.heap.kmem.mem kernPgtable
      (physToKernelDirectMappingAddr y) with
  | none =>
      rw [hfinal, Option.getD_none] at hsame
      rw [← hsame] at hexact
      exact absurd hexact.2 (by decide)
  | some leaf' =>
      rw [hfinal, Option.getD_some] at hsame
      exact ⟨leaf, by rw [hfinal, hsame], hexact⟩

/-- The page that was mapped is found at its address, and the frame of the client at its own. -/
theorem kernel_translates_small :
    ∃ la s₁ k, mmInit smallInfo 0x10000 0x800000 0x1000 1 3 smallKmem = some (la, s₁) ∧
      run (Kernel.step 0x1000) (Kernel.start s₁) [.client (.allocPages 0), .map smallCall] = some k ∧
      k.heap.held ≠ [] ∧
      leafOf KERNEL_DIRECT_MAPPING_AREA k.heap.kmem.mem 0x1000 0x400000 = 0x811003 ∧
      ∀ r ∈ k.heap.held, ∀ x, r.Holds x →
        ExactAt k.heap.kmem.mem 0x1000 (x - KERNEL_DIRECT_MAPPING_AREA) := by
  obtain ⟨la, s₁, k, -, -, hinit, hok, hsep, hrun, ⟨r, hr, -⟩, -, htables, -⟩ := smallMap_run
  obtain ⟨hleaf, hheld⟩ := kernel_translates smallInfo_bootInfo smallInfo_prepared hinit hok hsep
    hrun htables
  refine ⟨la, s₁, k, hinit, hrun, List.ne_nil_of_mem hr, ?_, hheld⟩
  have hlast : lastCall 0x400000 (mapsOf [.client (.allocPages 0), .map smallCall])
      = some smallCall := by decide
  rw [hleaf 0x400000, hlast]
  rfl

/-- What a client holds it keeps, and a byte of it has the value that clients wrote to it last.
Neither `kmalloc` nor `mm_pgtable_map` changes it. -/
theorem kernel_keeps (hinfo : BootInfo info mbi tags t n)
    (hprep : Prepared (mapEntries info t 24 n) bootMemAllocStart kernPgtable base s)
    (hinit : mmInit info mbi bootMemAllocStart kernPgtable tags (n + 1) s = some (la, s₁))
    (hok : 0 ∉ la.returned)
    (hsep : Separated topOrder [] (freedFrames (mapEntries info t 24 n) la.mmAllocEnd))
    (hrun : run (Kernel.step kernPgtable) (Kernel.start s₁) ops = some k)
    (hrun' : run (Kernel.step kernPgtable) k ops' = some k') (htables : -1 ∉ k'.tables) :
    ∀ r ∈ k.heap.held, ∀ x, r.Holds x →
      r ∈ k'.heap.held ∧ k'.heap.kmem.mem x = (lastWrite x ops').getD (k.heap.kmem.mem x) := by
  intro r hr x hx
  have hready := mmInit_initialized hinfo hprep hinit hok hsep
  have htables₁ : -1 ∉ k.tables := fun h => htables ((Kernel.run_tables hrun').subset h)
  exact (hready.inv.run hready.apart hrun htables₁).run_keeps hready.apart hrun' htables hr hx

/-- The client writes to its frame, and what it wrote is still there after a call of `kmalloc`. -/
theorem kernel_keeps_small :
    ∃ la s₁ k k' x, mmInit smallInfo 0x10000 0x800000 0x1000 1 3 smallKmem = some (la, s₁) ∧
      run (Kernel.step 0x1000) (Kernel.start s₁) [.client (.allocPages 0), .map smallCall] = some k ∧
      run (Kernel.step 0x1000) k [.client (.write x 0x5a), .client (.kmalloc 64)] = some k' ∧
      ∃ r, r.Holds x ∧ r ∈ k.heap.held ∧ r ∈ k'.heap.held ∧ k'.heap.kmem.mem x = 0x5a := by
  obtain ⟨la, s₁, k, k', x, hinit, hok, hsep, hrun, ⟨r, hr, hx⟩, hrun', -, htables⟩ := smallMap_run
  have hlast : lastWrite x [.client (.write x 0x5a), .client (.kmalloc 64)] = some 0x5a := by
    rw [lastWrite_cons]
    exact if_pos rfl
  obtain ⟨hkept, hvalue⟩ := kernel_keeps smallInfo_bootInfo smallInfo_prepared hinit hok hsep
    hrun hrun' htables r hr x hx
  rw [hlast, Option.getD_some] at hvalue
  exact ⟨la, s₁, k, k', x, hinit, hrun, hrun', r, hx, hr, hkept, hvalue⟩

/-- Nothing is given back, so NULL is final: when `kmalloc` returns NULL, it does so from then on
for all sizes of the same cache. -/
theorem kernel_null_final (hinfo : BootInfo info mbi tags t n)
    (hprep : Prepared (mapEntries info t 24 n) bootMemAllocStart kernPgtable base s)
    (hinit : mmInit info mbi bootMemAllocStart kernPgtable tags (n + 1) s = some (la, s₁))
    (hok : 0 ∉ la.returned)
    (hsep : Separated topOrder [] (freedFrames (mapEntries info t 24 n) la.mmAllocEnd))
    (hrun : run (Kernel.step kernPgtable) (Kernel.start s₁) ops = some k)
    (hrun' : run (Kernel.step kernPgtable) k ops' = some k') (htables : -1 ∉ k'.tables) :
    ∀ sz ≤ KMALLOC_MAX_CACHE_SIZE, ∀ sz' ≤ KMALLOC_MAX_CACHE_SIZE, slubIndex sz = slubIndex sz' →
      (∃ s', kmalloc k.heap.kmem sz = some (s', 0)) → ∃ s', kmalloc k'.heap.kmem sz' = some (s', 0) := by
  have hready := mmInit_initialized hinfo hprep hinit hok hsep
  have htables₁ : -1 ∉ k.tables := fun h => htables ((Kernel.run_tables hrun').subset h)
  have hI := hready.inv.run hready.apart hrun htables₁
  have hI' := hI.run hready.apart hrun' htables
  have hnull : ∀ q ∈ freedSet (mapEntries info t 24 n) la, slubAddr q ≠ 0 :=
    fun q hq => freedSet_slubAddr hprep.map hq
  intro sz hsz sz' hsz' hsame hfail
  obtain ⟨i, hi, hindex, -⟩ := slubIndex_spec hsz
  have hindex' : slubIndex sz' = some i := hsame ▸ hindex
  obtain ⟨P, ho⟩ := hI.heap
  obtain ⟨P', ho'⟩ := hI'.heap
  have hout := (ho.toSimulates.kmalloc_null_iff hnull hsz hindex).mp hfail
  exact (ho'.toSimulates.kmalloc_null_iff hnull hsz' hindex').mpr
    (hI.run_outOf hready.apart hrun' htables hi hout)

/-- Clients get all four frames. Then `kmalloc(33)` returns NULL, and `kmalloc(64)` does so after
one more call. -/
theorem kernel_null_final_small :
    ∃ la s₁ k k', mmInit smallInfo 0x10000 0x800000 0x1000 1 3 smallKmem = some (la, s₁) ∧
      run (Kernel.step 0x1000) (Kernel.start s₁) (List.replicate 4 (.client (.allocPages 0))) = some k ∧
      run (Kernel.step 0x1000) k [.client (.kmalloc 8192), .client (.kmalloc 64)] = some k' ∧
      (∃ s', kmalloc k.heap.kmem 33 = some (s', 0)) ∧ ∃ s', kmalloc k'.heap.kmem 64 = some (s', 0) := by
  obtain ⟨la, s₁, k, k', hinit, hok, hsep, hrun, hnull, hrun', htables⟩ := smallMap_exhausted
  exact ⟨la, s₁, k, k', hinit, hrun, hrun', hnull, kernel_null_final smallInfo_bootInfo smallInfo_prepared
    hinit hok hsep hrun hrun' htables 33 (by decide) 64 (by decide) rfl hnull⟩

end Safety

end SumiOS
