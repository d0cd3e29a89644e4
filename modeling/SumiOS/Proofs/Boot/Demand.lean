import SumiOS.Proofs.Boot.Translation
import SumiOS.Proofs.PageTable.Count

/-!
# `SumiOS.Proofs.Boot.Demand`: the pages that the booting stage uses

`boot_mm_pgtable_init` allocates the root and a table for every inner path that its
calls come to for the first time (`bootDemand`). The allocator hands out the pages from
`boot_mem_alloc_start` on, as long as the memory lasts (`bootSupply`).
`bootMmPgtableInit_supply` says that the results are the first `bootDemand` pages of the
supply, whether or not the memory is enough.
-/

set_option autoImplicit false

namespace SumiOS

open Lib

/-- The inner paths of the calls, call by call. -/
def bootSteps (image : KernelImage) : List (List (List (BitVec 9))) :=
  (bootCalls image).map fun c => innerPaths c.va

/-- The pages that the page table of the booting stage needs. -/
def bootDemand (image : KernelImage) : Nat := 1 + demand [] (bootSteps image)

/-- The pages that `boot_mm_alloc` can hand out: those with memory behind them. -/
def bootSupply (total start : Word) : List Word := areaPages start (total.toNat - start.toNat - 1)

/-! ### The start -/

section Start

variable {image : KernelImage} {bootStart : Word}

/-- `ALIGN` to the page size yields a page boundary. -/
theorem align_aligned (x : Word) : PageAligned (align x PAGE_SIZE) := pageAligned_and _

/-- The address of the image does not matter: it is taken off and added again. -/
theorem bootMmInitStart_eq :
    bootMmInitStart bootStart image = align (image.size + PAGE_SIZE) PAGE_SIZE := by
  have hsize : bootStart + (image.kernelEnd - bootStart - KERNEL_BASE_ADDR) = image.size := by
    rw [KernelImage.size]
    bv_omega
  rw [bootMmInitStart, hsize]

/-- The allocations start one page behind the image: its end is rounded up to a page, which it is
already, and a page is left free. -/
theorem bootMmInitStart_toNat (h : image.Placed) :
    (bootMmInitStart bootStart image).toNat = image.size.toNat + 4096 := by
  have hsmall := h.size_lt
  have hnat := h.size_toNat
  have hmod := h.kernelAligned.toNat_mod
  have hbase : KERNEL_BASE_ADDR.toNat = 18446744071578845184 := rfl
  have hle := BitVec.le_def.mp h.base
  have hle' := BitVec.le_def.mp h.roseg
  have hpage : PAGE_SIZE.toNat = 4096 := rfl
  have hlow : (PAGE_SIZE - 1).toNat = 4095 := rfl
  have hadd : (image.size + PAGE_SIZE + (PAGE_SIZE - 1)).toNat = image.size.toNat + 8191 := by
    rw [BitVec.toNat_add, BitVec.toNat_add, hpage, hlow]
    omega
  have hmask : ((image.size + PAGE_SIZE + (PAGE_SIZE - 1)) &&& PAGE_MASK).toNat
      = image.size.toNat + 4096 := by
    rw [toNat_and_mask, hadd]
    omega
  rw [bootMmInitStart_eq]
  exact hmask

/-- The booting stage does not allocate from address 0 on, so NULL is none of its first pages. -/
theorem bootMmInitStart_ne_zero (h : image.Placed) : bootMmInitStart bootStart image ≠ 0 := by
  have hnat : (bootMmInitStart bootStart image).toNat = image.size.toNat + 4096 :=
    bootMmInitStart_toNat h
  intro h0
  rw [h0] at hnat
  exact absurd hnat (by simp)

/-- The image has less than 2 GB, so the calls for it and for the direct mapping area are few. -/
theorem bootCalls_few (h : image.Placed) : (bootCalls image).length < 2 ^ 20 := by
  have hsmall := h.size_lt
  have hsize := h.size_toNat
  have hroseg := BitVec.le_def.mp h.roseg
  have hbase := BitVec.le_def.mp h.base
  rw [bootCalls_length]
  unfold pagesTo
  omega

end Start

/-! ### The allocator -/

section Allocator

variable {b : BootMm} {k : Nat}

/-- `boot_mm_alloc` draws on the memory behind the cursor: it takes the first page that is left
there, or fails when none is left, and the supply afterwards is the rest. -/
theorem bootMmAlloc_draws (hpos : b.bootMemAllocStart ≠ 0)
    (hfit : b.bootMemAllocStart.toNat + 4096 < 2 ^ 64) :
    Draws (fun b => bootMmAlloc b PAGE_SIZE)
      (fun b => bootSupply b.bootMemTotal b.bootMemAllocStart) b := by
  have hsize : PAGE_SIZE.toNat = 4096 := rfl
  have hnat : (b.bootMemAllocStart + PAGE_SIZE).toNat = b.bootMemAllocStart.toNat + 4096 := by
    rw [BitVec.toNat_add, hsize]
    omega
  unfold Draws bootSupply
  dsimp only
  by_cases hfail : PAGE_SIZE + b.bootMemAllocStart ≥ b.bootMemTotal
  · have hle := BitVec.le_def.mp hfail
    rw [BitVec.add_comm, hnat] at hle
    rw [bootMmAlloc_fail hfail]
    have hnone : areaPages b.bootMemAllocStart
        (b.bootMemTotal.toNat - b.bootMemAllocStart.toNat - 1) = [] := areaPages_nil (by omega)
    exact Or.inr ⟨rfl, hnone, hnone⟩
  · have hlt := BitVec.lt_def.mp (BitVec.not_le.mp hfail)
    rw [BitVec.add_comm, hnat] at hlt
    rw [bootMmAlloc_ok hfail]
    refine Or.inl ⟨hpos, ?_⟩
    have hroom : b.bootMemTotal.toNat - (b.bootMemAllocStart.toNat + 4096) - 1 =
        b.bootMemTotal.toNat - b.bootMemAllocStart.toNat - 1 - 4096 := by omega
    rw [hnat, hroom]
    exact areaPages_cons (by omega)

/-- The cursor after some allocations is at most so many pages further, and it has not come round
to 0, so that the supply can be counted in numbers. -/
theorem bootAllocs_cursor (hpos : b.bootMemAllocStart ≠ 0)
    (hfit : b.bootMemAllocStart.toNat + 4096 * k < 2 ^ 64) :
    (bootAllocs k b).bootMemAllocStart ≠ 0 ∧
      (bootAllocs k b).bootMemAllocStart.toNat ≤ b.bootMemAllocStart.toNat + 4096 * k := by
  induction k with
  | zero => exact ⟨hpos, Nat.le_refl _⟩
  | succ k ih =>
      obtain ⟨hne, hle⟩ := ih (by omega)
      have hsize : PAGE_SIZE.toNat = 4096 := rfl
      have hsucc : bootAllocs (k + 1) b = (bootMmAlloc (bootAllocs k b) PAGE_SIZE).1 :=
        Function.iterate_succ_apply' _ k b
      rw [hsucc]
      by_cases hfail : PAGE_SIZE + (bootAllocs k b).bootMemAllocStart ≥ (bootAllocs k b).bootMemTotal
      · rw [bootMmAlloc_fail hfail]
        exact ⟨hne, hle.trans (by omega)⟩
      · rw [bootMmAlloc_ok hfail]
        have hnat : ((bootAllocs k b).bootMemAllocStart + PAGE_SIZE).toNat =
            (bootAllocs k b).bootMemAllocStart.toNat + 4096 := by
          rw [BitVec.toNat_add, hsize]
          omega
        refine ⟨fun h0 => ?_, hnat.le.trans (by omega)⟩
        have hzero := congrArg BitVec.toNat h0
        rw [hnat] at hzero
        exact absurd hzero (Nat.succ_ne_zero _)

end Allocator

/-! ### The tables -/

section Tables

variable {image : KernelImage} {m m' : Mem} {mm' : BootMm} {total start root : Word}

/-- Each call takes at most three tables, and the root is one more. -/
theorem bootDemand_le : bootDemand image ≤ 1 + 3 * (bootCalls image).length := by
  have hle : demand [] (bootSteps image) ≤ 3 * (bootSteps image).length := by
    refine demand_le fun step hstep => ?_
    obtain ⟨c, -, rfl⟩ := List.mem_map.mp hstep
    exact Nat.le_refl 3
  rw [bootSteps, List.length_map] at hle
  unfold bootDemand bootSteps
  omega

/-- `boot_mm_pgtable_init` does nothing to its allocator but to take pages from it, one for the
root and at most three for each call. -/
theorem bootMmPgtableInit_allocs (h : image.Placed)
    (hinit : bootMmPgtableInit image m (BootMm.start total start) = some (m', mm', root)) :
    ∃ k ≤ 1 + 3 * (bootCalls image).length, mm' = bootAllocs k (BootMm.start total start) := by
  cases halloc : bootMmAlloc (BootMm.start total start) PAGE_SIZE with
  | mk mm₁ root₁ =>
      rw [bootMmPgtableInit_eq h m halloc rfl, Option.some.injEq, Prod.mk.injEq, Prod.mk.injEq] at hinit
      obtain ⟨-, rfl, -⟩ := hinit
      obtain ⟨k, hk, he⟩ := bootPgtableMap_allocs (m.memset root₁ 0 PAGE_SIZE.toNat) mm₁ root₁
        (bootCalls image)
      have hfirst : (bootMmAlloc (BootMm.start total start) PAGE_SIZE).1 = mm₁ := by rw [halloc]
      refine ⟨k + 1, by omega, ?_⟩
      rw [he, ← hfirst]
      exact (Function.iterate_succ_apply _ k _).symm

/-- When nothing fails, `boot_mm_pgtable_init` allocates exactly as many pages as the demand of its
calls counts. It does not matter whether the function itself or the same number of bare allocations
is known not to fail. -/
theorem bootMmPgtableInit_count (h : image.Placed) (hstart : PageAligned start)
    (hinit : bootMmPgtableInit image m (BootMm.start total start) = some (m', mm', root))
    (hok : 0 ∉ mm'.returned ∨ 0 ∉ (bootAllocs (bootDemand image) (BootMm.start total start)).returned) :
    mm' = bootAllocs (bootDemand image) (BootMm.start total start) := by
  generalize hn : demand [] (bootSteps image) = n
  have hall : bootAllocs (bootDemand image) (BootMm.start total start) =
      bootAllocs n (bootMmAlloc (BootMm.start total start) PAGE_SIZE).1 := by
    rw [bootDemand, hn, Nat.add_comm]
    exact Function.iterate_succ_apply _ n _
  rw [hall] at hok ⊢
  cases halloc : bootMmAlloc (BootMm.start total start) PAGE_SIZE with
  | mk mm₁ root₁ =>
      rw [bootMmPgtableInit_eq h m halloc rfl, Option.some.injEq, Prod.mk.injEq, Prod.mk.injEq] at hinit
      obtain ⟨-, rfl, -⟩ := hinit
      rw [halloc] at hok
      obtain ⟨k, -, hk⟩ := bootPgtableMap_allocs (m.memset root₁ 0 PAGE_SIZE.toNat) mm₁ root₁
        (bootCalls image)
      have hsuffix : ∀ j, mm₁.returned <:+ (bootAllocs j mm₁).returned :=
        fun j => log_iterate bootMmAlloc_returned j mm₁
      -- The page of the root is the first of them, so it was there as well.
      have hfirst : 0 ∉ mm₁.returned := by
        intro hz
        rw [hk] at hok
        exact hok.elim (fun h => h ((hsuffix k).subset hz)) fun h => h ((hsuffix n).subset hz)
      -- The calls start from a root that is the only table.
      obtain ⟨hbump, hrun⟩ := bootRoot_run (m := m) hstart halloc hfirst
      have hfresh : ∀ j, 0 ∉ (bootAllocs j mm₁).returned →
          Fresh (fun _ => False) (bootAllocs j mm₁).returned :=
        fun j hj => (hbump.allocs j).fresh hj fun _ hf => hf.elim
      have hfresh' : Fresh (fun _ => False)
            (mapCalls bootPgtableMap (m.memset root₁ 0 PAGE_SIZE.toNat) mm₁ root₁
              (bootCalls image)).2.returned ∨ Fresh (fun _ => False) (bootAllocs n mm₁).returned := by
        rw [hk] at hok ⊢
        exact hok.imp (hfresh k) (hfresh n)
      rw [bootPgtableMap_eq] at hfresh' ⊢
      exact mapCalls_count bootMmAlloc_returned (bootCalls image)
        (fun c hc => ⟨bootCalls_tagged c hc, trivial⟩) hrun.tables hrun.rooted
        (hrun.history.inUse fun c hc => absurd hc List.not_mem_nil) hn.symm hfresh'

/-- The pages of the booting stage are the first ones of the supply, as many as its demand, whether
or not the supply is large enough. -/
theorem bootMmPgtableInit_supply (h : image.Placed) (hstart : PageAligned start) (hpos : start ≠ 0)
    (hfit : start.toNat + 4096 * (2 + 3 * (bootCalls image).length) < 2 ^ 64)
    (hinit : bootMmPgtableInit image m (BootMm.start total start) = some (m', mm', root)) :
    pagesOf mm'.returned = (bootSupply total start).take (bootDemand image) ∧
      (0 ∉ mm'.returned ↔ bootDemand image ≤ (bootSupply total start).length) := by
  obtain ⟨k, hk, hrun⟩ := bootMmPgtableInit_allocs h hinit
  have hle : bootDemand image ≤ 1 + 3 * (bootCalls image).length := bootDemand_le
  have hdraws : ∀ j < max k (bootDemand image), Draws (fun b => bootMmAlloc b PAGE_SIZE)
      (fun b => bootSupply b.bootMemTotal b.bootMemAllocStart)
      (allocated (fun b => bootMmAlloc b PAGE_SIZE) j (BootMm.start total start)) := by
    intro j hj
    obtain ⟨hne, hbelow⟩ : (bootAllocs j (BootMm.start total start)).bootMemAllocStart ≠ 0 ∧
        (bootAllocs j (BootMm.start total start)).bootMemAllocStart.toNat ≤ start.toNat + 4096 * j :=
      bootAllocs_cursor hpos (show start.toNat + _ < _ by omega)
    exact bootMmAlloc_draws hne (Nat.lt_of_le_of_lt (Nat.add_le_add_right hbelow 4096) (by omega))
  exact run_supply bootMmAlloc_returned rfl hrun hdraws (bootMmPgtableInit_count h hstart hinit)

/-- With enough memory, the cursor is behind these pages, and it is there that the kernel stage
starts to allocate. -/
theorem bootMmPgtableInit_cursor (h : image.Placed) (hstart : PageAligned start) (hpos : start ≠ 0)
    (hinit : bootMmPgtableInit image m (BootMm.start total start) = some (m', mm', root))
    (hok : 0 ∉ mm'.returned) (hroom : bootDemand image ≤ (bootSupply total start).length) :
    mm'.bootMemAllocStart = pageAfter start (bootDemand image) ∧
      start.toNat + 4096 * bootDemand image < total.toNat := by
  have hpages : bootDemand image ≤ (total.toNat - start.toNat - 1) / 4096 := by
    rwa [bootSupply, areaPages, List.length_map, List.length_range] at hroom
  have hdemand : 0 < bootDemand image := Nat.lt_of_lt_of_le Nat.one_pos (Nat.le_add_right 1 _)
  have hlt : start.toNat + 4096 * bootDemand image < total.toNat := by omega
  have hbound := total.isLt
  obtain ⟨-, -, hcursor⟩ := returned_of_enough (b := BootMm.start total start) hpos List.not_mem_nil
    (bootDemand image) hlt
  rw [← bootMmPgtableInit_count h hstart hinit (Or.inl hok)] at hcursor
  refine ⟨BitVec.eq_of_toNat_eq ?_, hlt⟩
  rw [pageAfter_toNat (by omega)]
  exact hcursor

end Tables

/-! ### How many pages the booting stage takes -/

section Regions

variable {image : KernelImage} {base x : Word} {n : Nat}

/-- The starts of the regions of 2 MB from an address on. -/
def regionsFrom (base : Word) (n : Nat) : List Word :=
  (List.range n).map fun j => base + BitVec.ofNat 64 (2 ^ 21 * j)

/-- There is one address for each region. -/
theorem regionsFrom_length : (regionsFrom base n).length = n := by
  rw [regionsFrom, List.length_map, List.length_range]

/-- The addresses in a region need the same tables. -/
theorem mem_regionsFrom (hbase : base.toNat % 2 ^ 21 = 0) (hfit : base.toNat + 2 ^ 21 * n ≤ 2 ^ 64)
    (hx : x.toNat < 2 ^ 21 * n) : ∃ y ∈ regionsFrom base n, innerPaths (base + x) = innerPaths y := by
  have hdiv : x.toNat / 2 ^ 21 < n := Nat.div_lt_of_lt_mul hx
  refine ⟨_, List.mem_map.mpr ⟨_, List.mem_range.mpr hdiv, rfl⟩, ?_⟩
  have hsame : SameFrom 21 (base + x) (base + BitVec.ofNat 64 (2 ^ 21 * (x.toNat / 2 ^ 21))) := by
    rw [sameFrom_iff_nat, BitVec.toNat_add, BitVec.toNat_add, BitVec.toNat_ofNat]
    omega
  exact innerPaths_of_upper ((sameFrom_iff _ _ 3 (by decide)).mp hsame)

/-- Three tables for each 2 MB of the image and of the direct mapping area, and the root. -/
theorem bootDemand_regions (h : image.Placed) :
    bootDemand image ≤ 16 + 3 * ((image.size.toNat + (2 ^ 21 - 1)) / 2 ^ 21) := by
  have hbase : KERNEL_BASE_ADDR.toNat = 18446744071578845184 := rfl
  have hdirect : KERNEL_DIRECT_MAPPING_AREA.toNat = 18446612682070032384 := rfl
  have hlimit : (0xa00000 : Word).toNat = 10485760 := rfl
  have hsize := h.size_toNat
  have hend := image.kernelEnd.isLt
  generalize hn : (image.size.toNat + (2 ^ 21 - 1)) / 2 ^ 21 = n
  have hsteps : bootSteps image = ((bootCalls image).map (·.va)).map innerPaths := by
    rw [List.map_map]
    rfl
  have hle : demand [] (((bootCalls image).map (·.va)).map innerPaths) ≤
      3 * (regionsFrom KERNEL_BASE_ADDR n ++ regionsFrom KERNEL_DIRECT_MAPPING_AREA 5).length := by
    refine demand_map_le (fun va hva => ⟨by simp [innerPaths], ?_⟩) fun va _ => Nat.le_refl 3
    obtain ⟨c, hc, rfl⟩ := List.mem_map.mp hva
    obtain ⟨-, ⟨hva, hpa⟩ | ⟨hva, hpa⟩⟩ := bootCalls_place h hc
    · -- A page of the image itself.
      have hpa := BitVec.lt_def.mp hpa
      obtain ⟨y, hy, hsame⟩ : ∃ y ∈ regionsFrom KERNEL_BASE_ADDR n,
          innerPaths (KERNEL_BASE_ADDR + c.pa) = innerPaths y :=
        mem_regionsFrom (by omega) (by omega) (by omega)
      exact ⟨y, List.mem_append_left _ hy, by rw [hva, hsame]⟩
    · have hpa := BitVec.lt_def.mp hpa
      obtain ⟨y, hy, hsame⟩ : ∃ y ∈ regionsFrom KERNEL_DIRECT_MAPPING_AREA 5,
          innerPaths (KERNEL_DIRECT_MAPPING_AREA + c.pa) = innerPaths y :=
        mem_regionsFrom (by omega) (by omega) (by omega)
      exact ⟨y, List.mem_append_right _ hy, by rw [hva, hsame]⟩
  rw [List.length_append, regionsFrom_length, regionsFrom_length] at hle
  rw [bootDemand, hsteps]
  omega

end Regions

/-! ### The booting stage, from where it starts -/

section Stage

variable {image : KernelImage} {bootStart total : Word} {m m' : Mem} {mm : BootMm} {root : Word}

/-- The pages of the booting stage, behind the image: the first ones of the supply, and a cursor
that has not come round to 0. -/
theorem bootStage_supply (h : image.Placed)
    (hinit : bootMmPgtableInit image m (BootMm.start total (bootMmInitStart bootStart image))
      = some (m', mm, root)) :
    pagesOf mm.returned = (bootSupply total (bootMmInitStart bootStart image)).take (bootDemand image) ∧
      (0 ∉ mm.returned ↔
        bootDemand image ≤ (bootSupply total (bootMmInitStart bootStart image)).length) := by
  have hnat : (bootMmInitStart bootStart image).toNat = image.size.toNat + 4096 :=
    bootMmInitStart_toNat h
  have hsmall := h.size_lt
  have hcalls := bootCalls_few h
  exact bootMmPgtableInit_supply h (align_aligned _) (bootMmInitStart_ne_zero h) (by omega) hinit

/-- The cursor of the booting stage does not come round to 0, because the image and its tables
together are far smaller than the address space. -/
theorem bootStage_cursor_ne_zero (h : image.Placed)
    (hinit : bootMmPgtableInit image m (BootMm.start total (bootMmInitStart bootStart image))
      = some (m', mm, root)) : mm.bootMemAllocStart ≠ 0 := by
  have hnat : (bootMmInitStart bootStart image).toNat = image.size.toNat + 4096 :=
    bootMmInitStart_toNat h
  have hsmall := h.size_lt
  have hcalls := bootCalls_few h
  obtain ⟨k, hk, hmm⟩ := bootMmPgtableInit_allocs h hinit
  rw [hmm]
  refine (bootAllocs_cursor (bootMmInitStart_ne_zero h) ?_).1
  show (bootMmInitStart bootStart image).toNat + _ < _
  omega

/-- When nothing fails, the cursor is behind these pages. -/
theorem bootStage_cursor (h : image.Placed)
    (hinit : bootMmPgtableInit image m (BootMm.start total (bootMmInitStart bootStart image))
      = some (m', mm, root)) (hok : 0 ∉ mm.returned) :
    mm.bootMemAllocStart = pageAfter (bootMmInitStart bootStart image) (bootDemand image) ∧
      PageAligned mm.bootMemAllocStart := by
  have hstart : PageAligned (bootMmInitStart bootStart image) := align_aligned _
  obtain ⟨hcursor, -⟩ := bootMmPgtableInit_cursor h hstart (bootMmInitStart_ne_zero h) hinit hok
    ((bootStage_supply h hinit).2.mp hok)
  refine ⟨hcursor, ?_⟩
  rw [hcursor]
  exact hstart.pageAfter _

end Stage

end SumiOS
