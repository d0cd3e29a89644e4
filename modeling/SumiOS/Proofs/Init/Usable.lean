import SumiOS.Proofs.Boot.Translation
import SumiOS.Proofs.Init.Owned
import SumiOS.Proofs.Init.Written

/-!
# `SumiOS.Proofs.Init.Usable`: when the buddy system starts with usable memory only

The page structs of the freed frames are mapped (`SumiOS.Proofs.Init.Mapping`), so the
free loop is a binary counter as long as no merge reaches over a hole
(`SumiOS.Proofs.Buddy.Counter`). Whether one does is decided by the frames alone:
`ownsUsable_iff`.

`bootMmPgtableInit_kernelTables` and `bootMmPgtableInit_arrayUnmapped` say that the
booting stage leaves a page table as it is assumed here and for the reads of the free loop.
-/

set_option autoImplicit false

namespace SumiOS

open Lib

/-- Every frame of a free block is in an available entry, and no frame is in two. -/
structure OwnsUsable (entries : List MmapEntry) (b : Buddy) : Prop where
  usable : ∀ c, FreeBlock b c → ∀ y ∈ c.frames, ∃ e ∈ entries, e.Available ∧ e.HasFrame y
  apart : ∀ c d, FreeBlock b c → FreeBlock b d → c ≠ d → c.Apart d

section Usable

variable {bootMemAllocStart kernPgtable : Word} {entries : List MmapEntry} {mem : Mem}
  {b : Buddy} {st : InitState}

/-- The free loop keeps to usable memory exactly when the list of its frames is
separated. -/
theorem ownsUsable_iff_freed (hmap : MemoryMap (2 ^ 46) entries)
    (hstart : PageAligned bootMemAllocStart)
    (hin : ∃ e ∈ entries, e.Available ∧ e.Holds bootMemAllocStart.toNat)
    (hclear : OutsideNotFree entries b)
    (htables : KernelTables mem kernPgtable bootMemAllocStart)
    (h : mmPagesAllocatorInit bootMemAllocStart kernPgtable entries mem b = some st)
    (hok : 0 ∉ st.la.returned) :
    OwnsUsable entries st.buddy ↔ Separated topOrder [] (freedFrames entries st.la.mmAllocEnd) := by
  obtain ⟨st₀, hbefore, hla, hbuddy⟩ := mmPagesAllocatorInit_cases hmap (by decide) h
  have hmapping := beforeFree_mapping hmap hstart hin htables hbefore
  have hunvisited := hclear.unvisited hmap (by decide)
  obtain ⟨seq, e, hA, -, -⟩ := freed_ascended hmap hunvisited
    (pageMapped st₀.mem kernPgtable) st₀.la.mmAllocEnd hbefore
  -- The page structs of the freed frames are mapped.
  have hmapped : ∀ x ∈ freedFrames entries st₀.la.mmAllocEnd,
      pageMapped st₀.mem kernPgtable x = true := by
    intro x hx
    obtain ⟨v, hv, rfl⟩ := List.mem_map.mp hx
    have hv := (List.mem_filter.mp hv).1
    refine hmapping.pageMapped (hla ▸ hok) (visitsOf_lt hmap hv) ?_
    rw [List.append_nil, List.mem_reverse]
    exact List.mem_map_of_mem hv
  have huntouched := beforeFree_untouched hbefore hunvisited hmapped
  rw [hbuddy, hla, ← freeFrames_iff_separated huntouched (freedFrames_sorted hmap)]
  constructor
  · intro hown
    refine ⟨fun c hc y hy => ?_, hown.apart⟩
    have hge := hA.frame_ge ((freeBlock_iff hasFreelists_buddyHeads hA.rep).mp hc) hy
    obtain ⟨e, he, havail, hframe⟩ := hown.usable c hc y hy
    exact (mem_freedFrames hmap).mpr
      ⟨e, he, havail, (hmap.bounded e he).trans_lt (by decide), hframe, hge⟩
  · rintro ⟨hfreed, hapart⟩
    refine ⟨fun c hc y hy => ?_, hapart⟩
    obtain ⟨e, he, havail, -, hframe, -⟩ := (mem_freedFrames hmap).mp (hfreed c hc y hy)
    exact ⟨e, he, havail, hframe⟩

/-- The buddy system starts with usable memory only, exactly when the list of the available frames
from `mm_alloc_end` on is separated: that is when no block that can still grow lies at the distance
of its own size behind another one. -/
theorem ownsUsable_iff (hmap : MemoryMap (2 ^ 46) entries)
    (hstart : PageAligned bootMemAllocStart)
    (hin : ∃ e ∈ entries, e.Available ∧ e.Holds bootMemAllocStart.toNat)
    (hclear : OutsideNotFree entries b)
    (htables : KernelTables mem kernPgtable bootMemAllocStart)
    (h : mmPagesAllocatorInit bootMemAllocStart kernPgtable entries mem b = some st)
    (hok : 0 ∉ st.la.returned) :
    ∃ st₀, beforeFree bootMemAllocStart kernPgtable entries (visitsOf entries) mem b = some st₀ ∧
      (OwnsUsable entries st.buddy ↔
        Separated topOrder [] (freedFrames entries st₀.la.mmAllocEnd)) := by
  obtain ⟨st₀, hbefore, hla, -⟩ := mmPagesAllocatorInit_cases hmap (by decide) h
  refine ⟨st₀, hbefore, ?_⟩
  rw [← hla]
  exact ownsUsable_iff_freed hmap hstart hin hclear htables h hok

end Usable

/-- The frames that are freed with `fullMap` follow each other, so that they are separated, and the
blocks that are made of them consist of them only. -/
theorem ownsUsable_iff_fullMap :
    ∃ st, mmPagesAllocatorInit 0x800000 0x1000 fullMap (fun _ => 0) cleared = some st ∧
      OwnsUsable fullMap st.buddy := by
  obtain ⟨st, hst, hok, hend⟩ := fullMap_run
  obtain ⟨st₀, hbefore, hiff⟩ := ownsUsable_iff fullMap_memoryMap (by decide) fullMap_start
    (fun _ _ => rfl) zeroTables hst hok
  obtain ⟨st₁, hbefore', hla, -⟩ := mmPagesAllocatorInit_cases fullMap_memoryMap (by decide) hst
  obtain rfl : st₀ = st₁ := Option.some.inj (hbefore.symm.trans hbefore')
  refine ⟨st, hst, hiff.mpr ?_⟩
  rw [← hla, hend]
  decide

/-- The hole between the last two entries of `holeMap` becomes part of a block, since the merge
takes the free head at the distance of a block for a block of the same size. -/
theorem not_always_ownsUsable :
    ¬ ∀ (bootMemAllocStart kernPgtable : Word) (entries : List MmapEntry) (mem : Mem) (b : Buddy)
      (st : InitState), MemoryMap (2 ^ 46) entries → PageAligned bootMemAllocStart →
      (∃ e ∈ entries, e.Available ∧ e.Holds bootMemAllocStart.toNat) → OutsideNotFree entries b →
      KernelTables mem kernPgtable bootMemAllocStart →
      mmPagesAllocatorInit bootMemAllocStart kernPgtable entries mem b = some st →
      0 ∉ st.la.returned → OwnsUsable entries st.buddy := by
  intro hall
  obtain ⟨st, hst, hok, hend⟩ := holeMap_run
  have hown := hall 0x800000 0x1000 holeMap (fun _ => 0) cleared st holeMap_memoryMap (by decide)
    holeMap_start (fun _ _ => rfl) zeroTables hst hok
  rw [ownsUsable_iff_freed holeMap_memoryMap (by decide) holeMap_start (fun _ _ => rfl) zeroTables
    hst hok, hend] at hown
  exact absurd hown (by decide)

/-! ### The page table that the booting stage leaves -/

/-- The memory of the kernel: physical memory, seen in the direct mapping area. -/
def directMem (m : Mem) : Mem := fun a => m (a - KERNEL_DIRECT_MAPPING_AREA)

/-- Tables in memory that is seen through the direct mapping area are those at their physical
addresses. -/
theorem view_directMem (m : Mem) :
    view KERNEL_DIRECT_MAPPING_AREA (directMem m) = view 0 m := by
  funext p i
  unfold view Mem.read64
  congr 1
  funext k
  unfold directMem entryAddr
  congr 1
  generalize BitVec.setWidth 64 i * 8 = offset
  bv_omega

/-- The tree of the booting stage, seen in the direct mapping area. Its tables are below
`boot_mem_alloc_start`. -/
theorem BootTree.direct {image : KernelImage} {m m' : Mem} {mm' : BootMm} {total start root : Word}
    {T : List (BitVec 9) → Option Word} {A : List (BitVec 9) → Word}
    (htree : BootTree image m' mm'.returned root T A) (h : image.Placed) (hstart : PageAligned start)
    (hinit : bootMmPgtableInit image m (BootMm.start total start) = some (m', mm', root))
    (hok : 0 ∉ mm'.returned) (hne : mm'.bootMemAllocStart ≠ 0) :
    Tables KERNEL_DIRECT_MAPPING_AREA (· ≠ 0)
        (fun q => q.toNat < mm'.bootMemAllocStart.toNat) [] (directMem m') T ∧
      ∀ π, π ≠ [0] → SumiOS.entries KERNEL_DIRECT_MAPPING_AREA (directMem m') T π = A π := by
  have hbump := bootMmPgtableInit_bumped h hstart hinit
  obtain ⟨limit, hle, hcursor, -, hrisen⟩ := hbump.risen hok
  have hnat : mm'.bootMemAllocStart.toNat = limit := by
    have hlt : limit < 2 ^ 64 := by
      refine Nat.lt_of_le_of_ne hle fun he => hne ?_
      rw [hcursor, he]
      rfl
    rw [hcursor, BitVec.toNat_ofNat, Nat.mod_eq_of_lt hlt]
  obtain ⟨hlaid, haligned, hused⟩ := htree.tables
  refine ⟨⟨?_, haligned, fun π p hp => Or.inl ?_⟩, fun π hπ => ?_⟩
  · rw [view_directMem]
    exact hlaid
  · have hmem := (hused π p hp).resolve_left id
    rw [hnat]
    exact (hrisen.between p hmem).2
  · rw [← htree.entries π hπ, SumiOS.entries, view_directMem]
    rfl

/-- When no allocation of the booting stage failed, it leaves a page table with tables
below `boot_mem_alloc_start`. -/
theorem bootMmPgtableInit_kernelTables {image : KernelImage} {m m' : Mem} {mm' : BootMm}
    {total start root : Word} (h : image.Placed) (hstart : PageAligned start)
    (hinit : bootMmPgtableInit image m (BootMm.start total start) = some (m', mm', root))
    (hok : 0 ∉ mm'.returned) (hne : mm'.bootMemAllocStart ≠ 0) :
    KernelTables (directMem m') root mm'.bootMemAllocStart := by
  obtain ⟨T, A, htree⟩ := bootMmPgtableInit_tree h hstart hinit hok
  exact ⟨T, (htree.direct h hstart hinit hok hne).1, htree.rooted⟩

/-- The booting stage maps no page struct: its calls are for the image and for the direct mapping
area, which have other entries in the topmost table than the page array. -/
theorem bootMmPgtableInit_arrayUnmapped {image : KernelImage} {m m' : Mem} {mm' : BootMm}
    {total start root : Word} (h : image.Placed) (hstart : PageAligned start)
    (hinit : bootMmPgtableInit image m (BootMm.start total start) = some (m', mm', root))
    (hok : 0 ∉ mm'.returned) : ArrayUnmapped (directMem m') root := by
  obtain ⟨T, A, htree⟩ := bootMmPgtableInit_tree h hstart hinit hok
  obtain ⟨hlaid, haligned, hused⟩ := htree.tables
  rw [← view_directMem] at hlaid
  intro q hq
  by_contra hmapped
  rw [Bool.not_eq_false, pageMapped_eq_iff ⟨hlaid, haligned, hused⟩ htree.rooted hq] at hmapped
  have hpath : pathOf (frameVa q) ≠ [0] := fun h => by simp [pathOf] at h
  have hentry : entries KERNEL_DIRECT_MAPPING_AREA (directMem m') T (pathOf (frameVa q)) =
      A (pathOf (frameVa q)) := by
    rw [← htree.entries _ hpath, SumiOS.entries, view_directMem]
    rfl
  rw [hentry, htree.history.leaf] at hmapped
  cases hlast : lastCall (frameVa q) (bootCalls image) with
  | none =>
      rw [hlast] at hmapped
      exact hmapped BitVec.zero_and
  | some c =>
      -- The image and the direct mapping area have other root entries.
      have hsame := sameFrom_iff_nat.mp (lastCall_same hlast)
      have hnat := frameVa_toNat hq
      have hsize := h.size_lt
      have hbase : KERNEL_BASE_ADDR.toNat = 18446744071578845184 := rfl
      have hdirect : KERNEL_DIRECT_MAPPING_AREA.toNat = 18446612682070032384 := rfl
      obtain ⟨hlow, hhigh⟩ := hq
      obtain ⟨-, ⟨hva, hpa⟩ | ⟨hva, hpa⟩⟩ := bootCalls_place h (lastCall_mem hlast)
      · have hpa := BitVec.lt_def.mp hpa
        have hend := h.size_toNat
        have hlt := image.kernelEnd.isLt
        rw [hva, BitVec.toNat_add, hbase, PTE_OFFSET] at hsame
        omega
      · have hpa : c.pa.toNat < 0xa00000 := BitVec.lt_def.mp hpa
        rw [hva, BitVec.toNat_add, hdirect, PTE_OFFSET] at hsame
        omega

end SumiOS
