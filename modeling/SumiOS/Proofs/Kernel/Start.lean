import SumiOS.Kernel
import SumiOS.Proofs.Init.Decode
import SumiOS.Proofs.Init.Usable
import SumiOS.Proofs.Kernel.Run

/-!
# `SumiOS.Proofs.Kernel.Start`: the invariant after `mm_init`

`mm_init` leaves a buddy system that is sound (`init_sound`) and a page table that is a tree
(`init_tree`), apart from each other: the tables are those of the booting stage or pages of
the linear allocator, and the free blocks begin at `mm_alloc_end` (`bootPage_lt`). So
`Kernel.Inv` holds when `main` comes to its loop. `Initialized` says this, and what memory and
the old mapping have become (`mmInit_initialized`).

`smallMap_mmInit` is a machine of twelve frames, from the information of the boot loader to the
end of `mm_init`.
-/

set_option autoImplicit false

namespace SumiOS

open Lib

/-! ### What `mm_init` relies on -/

/-- The walk over the tags comes to a memory map of `n` entries at `t`. -/
structure BootInfo (info : Mem) (mbi : Word) (tags : Nat) (t : Word) (n : Nat) : Prop where
  found : ∃ w, tagLoop info tags (TagWalk.start mbi) = some w ∧ w.mmapInfo = t
  ne_zero : t ≠ 0
  map : WellFormedMmap info t 24 n
  fits : StrideFits 24 n

/-- The memory that the booting stage leaves, with its tables in `base`. -/
structure Prepared (entries : List MmapEntry) (bootMemAllocStart kernPgtable : Word)
    (base : Word → Prop) (s : Kmem) : Prop where
  map : MemoryMap (2 ^ 46) entries
  start : PageAligned bootMemAllocStart
  inside : ∃ e ∈ entries, e.Available ∧ e.Holds bootMemAllocStart.toNat
  clear : OutsideNotFree entries s.buddy
  below : ∀ q, base q → PageAligned q ∧ q.toNat < bootMemAllocStart.toNat
  tables : ∃ T, Tables KERNEL_DIRECT_MAPPING_AREA (· ≠ 0) base [] s.mem T ∧ T [] = some kernPgtable

/-- The pages that hold tables after `mm_init`, or the page array. -/
def BootPage (base : Word → Prop) (la : LinearAlloc) (q : Word) : Prop := base q ∨ q ∈ la.returned

/-- The kernel when `main` comes to its loop: nobody holds anything. -/
def Kernel.start (s : Kmem) : Kernel := ⟨⟨s, []⟩, [], []⟩

section Start

variable {info : Mem} {mbi bootMemAllocStart kernPgtable t va : Word} {tags n : Nat} {s s₁ : Kmem}
  {la : LinearAlloc} {entries : List MmapEntry} {st : InitState} {base : Word → Prop}

/-- The memory that the booting stage leaves has a tree of tables at the kernel's root, all of them
below the first free byte. -/
theorem Prepared.kernelTables (h : Prepared entries bootMemAllocStart kernPgtable base s) :
    KernelTables s.mem kernPgtable bootMemAllocStart := by
  obtain ⟨T, hT, hroot⟩ := h.tables
  refine ⟨T, ⟨hT.laid, hT.aligned, fun π p hp => ?_⟩, hroot⟩
  exact (hT.used π p hp).imp_left fun hq => (h.below p hq).2

/-- With a map that the loops find, `mm_init` is `mm_pages_allocator_init` on its entries and
`kmem_cache_init`. -/
theorem mmInit_eq (hinfo : BootInfo info mbi tags t n) :
    mmInit info mbi bootMemAllocStart kernPgtable tags (n + 1) s
      = (mmPagesAllocatorInit bootMemAllocStart kernPgtable (mapEntries info t 24 n) s.mem
          s.buddy).map fun st =>
            (st.la, kmemCacheInit { s with buddy := st.buddy, mem := st.mem }) := by
  obtain ⟨w, hwalk, rfl⟩ := hinfo.found
  simp only [mmInit, hwalk, Option.bind_eq_bind, Option.bind_some, if_neg hinfo.ne_zero,
    initFromTag_eq hinfo.map hinfo.fits]
  cases mmPagesAllocatorInit bootMemAllocStart kernPgtable (mapEntries info w.mmapInfo 24 n) s.mem
    s.buddy with
  | none => rfl
  | some st => rfl

/-! ### The buddy system -/

/-- The frames that the buddy system starts with: the available ones from `mm_alloc_end` on. -/
def freedSet (entries : List MmapEntry) (la : LinearAlloc) : Set Int :=
  { y | y ∈ freedFrames entries la.mmAllocEnd }

/-- The free lists are sound, and hold the frames that were freed, each in one block. That is where
the separation of the frames enters: without it a merge may take a frame that was never freed. -/
theorem init_sound (hprep : Prepared entries bootMemAllocStart kernPgtable base s)
    (h : mmPagesAllocatorInit bootMemAllocStart kernPgtable entries s.mem s.buddy = some st)
    (hok : 0 ∉ st.la.returned)
    (hsep : Separated topOrder [] (freedFrames entries st.la.mmAllocEnd)) :
    ∃ pages, Sound st.buddy pages ∧ framesOf pages = freedSet entries st.la := by
  have hown : OwnsUsable entries st.buddy :=
    (ownsUsable_iff_freed hprep.map hprep.start hprep.inside hprep.clear hprep.kernelTables h
      hok).mpr hsep
  obtain ⟨st₀, hbefore, hla, hbuddy⟩ := mmPagesAllocatorInit_cases hprep.map (by decide) h
  obtain ⟨seq, e, hA, hcover, -⟩ := freed_ascended hprep.map
    (hprep.clear.unvisited hprep.map (by decide)) (pageMapped st₀.mem kernPgtable) st₀.la.mmAllocEnd
    hbefore
  rw [← hbuddy, ← hla] at hA
  rw [← hla] at hcover
  have hfree : ∀ c, FreeBlock st.buddy c ↔ c ∈ blocksOf fun k => seq (.freelist k) :=
    fun c => freeBlock_iff hasFreelists_buddyHeads hA.rep
  -- The lists are rings without repetition, the blocks are apart, and they cover what was freed.
  refine ⟨fun k => seq (.freelist k), ⟨?_, ?_, ?_⟩, ?_⟩
  · intro k hk
    exact hA.rep.ring ((hasFreelists_buddyHeads k).mpr hk)
  · intro k hk
    exact hA.rep.nodup ((hasFreelists_buddyHeads k).mpr hk)
  · intro c hc d hd hne
    exact hown.apart c d ((hfree c).mpr hc) ((hfree d).mpr hd) hne
  · ext y
    constructor
    · intro hy
      obtain ⟨c, hc, hyc⟩ := hy
      obtain ⟨e', he, havail, hframe⟩ := hown.usable c ((hfree c).mpr hc) y hyc
      refine (mem_freedFrames hprep.map).mpr ⟨e', he, havail, ?_, hframe, hA.frame_ge hc hyc⟩
      exact (hprep.map.bounded e' he).trans_lt (by decide)
    · exact hcover y

/-! ### The page table -/

/-- The direct mapping is right in a tree. -/
def DirectLeaves (entries : List MmapEntry) (A : List (BitVec 9) → Word) : Prop :=
  ∀ e ∈ entries, ∀ x : Word, e.Holds x.toNat → ExactLeaf (A (pathOf (physToKernelDirectMappingAddr x))) x

/-- A call for a page of the page array keeps the direct mapping, as the array ends in front of the
direct mapping area. -/
theorem directLeaves_struct (hmap : MemoryMap (2 ^ 46) entries) {v : MmapEntry × Word}
    {frame attr : Word} {A A' : List (BitVec 9) → Word} (hv : v.2.toNat < 2 ^ 46)
    (heffect : Effect (structVa v) frame attr A A') (hA : DirectLeaves entries A) :
    DirectLeaves entries A' := by
  intro e he x hx
  have hidx := frameIdx_lt hv
  have hx46 : x.toNat < 2 ^ 46 := hx.2.trans_le (hmap.bounded e he)
  have hne : pathOf (physToKernelDirectMappingAddr x) ≠ pathOf (structVa v) := by
    intro hpath
    -- The page array ends in front of the direct mapping area.
    have hnat := sameFrom_iff_nat.mp ((sameFrom_iff _ _ 4 (by decide)).mpr hpath)
    have hbase : KERNEL_PAGE_ARRAY.toNat = 0xffff800000000000 := rfl
    have hdirect : KERNEL_DIRECT_MAPPING_AREA.toNat = 0xffff888000000000 := rfl
    have hsize : (64 : Word).toNat = 64 := rfl
    rw [physToKernelDirectMappingAddr, structVa, pageVa, BitVec.toNat_add, BitVec.toNat_add,
      BitVec.toNat_mul, hbase, hdirect, hsize] at hnat
    omega
  rw [heffect.keep _ hne fun hm => pathOf_not_inner hm.1]
  exact hA e he x hx

/-- The leaves outside of the areas of `mm_init` are those of `mem`. -/
def LeavesOf (mem : Mem) (kernPgtable : Word) (A : List (BitVec 9) → Word) : Prop :=
  ∀ va, areaEntry (pgdEntry va) = false → pgdEntry va ≠ 0 →
    A (pathOf va) = leafOf KERNEL_DIRECT_MAPPING_AREA mem kernPgtable va

/-- An address outside of root entry 0 has an index other than 0 there. -/
theorem indexOf_ne_zero (hva : pgdEntry va ≠ 0) : indexOf PGD_OFFSET va ≠ 0 := by
  intro hzero
  rw [pgdEntry_eq, hzero] at hva
  exact hva rfl

/-- The loops start with the tables that are there and an allocator that took no page. -/
theorem Prepared.mapping (hprep : Prepared entries bootMemAllocStart kernPgtable base s)
    (hscan : entries.foldlM (scanEntry bootMemAllocStart) LinearAlloc.static = some la) :
    TreeMapping bootMemAllocStart kernPgtable base (fun _ A => LeavesOf s.mem kernPgtable A)
      s.mem la := by
  obtain ⟨hmap, hstart, hin, -, -, T, hT, hroot⟩ := hprep
  obtain ⟨hinv, hlog⟩ :=
    linearInv_scanned (fun e he _ => hmap.addrs e he) hmap.bounded hstart hin hscan
  rw [← hlog] at hT
  exact ⟨hinv, fun _ => ⟨T, hT, hroot, fun va _ hva =>
    (pgtableWalk_getD hT hroot (indexOf_ne_zero hva)).symm⟩⟩

/-- When the frames are freed, the direct mapping is right, and the other leaves and the rest of
memory are as they were. -/
theorem beforeFree_extends (hprep : Prepared entries bootMemAllocStart kernPgtable base s)
    {st₀ : InitState}
    (h : beforeFree bootMemAllocStart kernPgtable entries (visitsOf entries) s.mem s.buddy = some st₀) :
    ∃ la, Extends bootMemAllocStart kernPgtable base
      (fun A => DirectLeaves entries A ∧ LeavesOf s.mem kernPgtable A) ⟨s.mem, la, s.buddy⟩ st₀ := by
  have hmap := hprep.map
  obtain ⟨T, hT, hroot⟩ := hprep.tables
  have hbelow : ∀ q, base q → q.toNat < bootMemAllocStart.toNat := fun q hq => (hprep.below q hq).2
  have hstop : ∀ e ∈ entries, e.stop ≤ 2 ^ 46 := hmap.bounded
  have hvisits : allVisits entries = some (visitsOf entries) :=
    allVisits_eq hmap.addrs hmap.lens fun e he => (hstop e he).trans (by decide)
  have hvs : ∀ v ∈ visitsOf entries, v.2.toNat < 2 ^ 46 := fun v hv => visitsOf_lt hmap hv
  rw [beforeFree, Option.map_eq_some_iff] at h
  obtain ⟨la, hscan, rfl⟩ := h
  have hlog := (linearInv_scanned (fun e he _ => hmap.addrs e he) hstop hprep.start hprep.inside
    hscan).2
  rw [← hlog] at hT
  refine ⟨la, ?_⟩
  have hbegin := hprep.mapping hscan
  -- The first loop.
  have hfirst : Extends bootMemAllocStart kernPgtable base (LeavesOf s.mem kernPgtable)
      ⟨s.mem, la, s.buddy⟩
      ((visitsOf entries).foldl (fun st v => mapDirect kernPgtable st v.2) ⟨s.mem, la, s.buddy⟩) := by
    refine Extends.foldl (fun v hv st hst => ?_) hbegin
    refine extends_mapDirect hbelow (hvs v hv) (fun A A' hA heffect va harea hva => ?_) hst
    rw [heffect.elsewhere (areaEntry_direct (hvs v hv)) harea]
    exact hA va harea hva
  have hdirect : TreeMapping bootMemAllocStart kernPgtable base
      (fun _ A => DirectLeaves entries A ∧ LeavesOf s.mem kernPgtable A)
      ((visitsOf entries).foldl (fun st v => mapDirect kernPgtable st v.2) ⟨s.mem, la, s.buddy⟩).mem
      ((visitsOf entries).foldl (fun st v => mapDirect kernPgtable st v.2) ⟨s.mem, la, s.buddy⟩).la := by
    refine ⟨hfirst.mapping.linear, fun hok => ?_⟩
    obtain ⟨T', hT', hroot', hleaves⟩ := hfirst.mapping.tree hok
    have hfresh : Fresh base _ := (hfirst.mapping.linear.cursor hok).risen.fresh hbelow
    have hright := (directMapped_iff_visitedLow ⟨s.mem, la, s.buddy⟩ hstop hvisits hT hroot hfresh).mpr
      (visitedLow_of_aligned hmap.addrs s.mem kernPgtable)
    refine ⟨T', hT', hroot', fun e he x hx => ?_, hleaves⟩
    exact (exactAt_iff hT' hroot' (hx.2.trans_le (hstop e he))).mp (hright e he x hx)
  -- The second loop.
  have hsecond := Extends.foldl (fun v hv st hst => extends_initFrame hbelow (hvs v hv)
    (fun frame A A' hA heffect => ⟨directLeaves_struct hmap (hvs v hv) heffect hA.1,
      fun va harea hva => by
        rw [heffect.elsewhere (areaEntry_pageVa (frameIdx_lt (hvs v hv))) harea]
        exact hA.2 va harea hva⟩) hst) hdirect
  have hboth := hfirst.trans hsecond
  exact ⟨hboth.mapping, hboth.log, hboth.frame⟩

/-- In the end, `mm_pages_allocator_init` clears root entry 0, behind which the booting stage had
its tables of the first memory. -/
theorem mmPagesAllocatorInit_mem (hmap : MemoryMap (2 ^ 46) entries) {mem : Mem} {b : Buddy}
    (h : mmPagesAllocatorInit bootMemAllocStart kernPgtable entries mem b = some st) :
    ∃ st₀, beforeFree bootMemAllocStart kernPgtable entries (visitsOf entries) mem b = some st₀ ∧
      st.la = st₀.la ∧ st.mem = st₀.mem.write64
        (entryAddr KERNEL_DIRECT_MAPPING_AREA kernPgtable ((0 : BitVec 9).setWidth 64)) 0 := by
  rw [mmPagesAllocatorInit, allVisits_eq hmap.addrs hmap.lens
    fun e he => (hmap.bounded e he).trans (by decide)] at h
  obtain ⟨st₀, hbefore, rfl⟩ := Option.map_eq_some_iff.mp h
  exact ⟨st₀, hbefore, rfl, rfl⟩

/-- What `mm_pages_allocator_init` leaves of the old tables: one tree with the same root, in which
the leaves outside of the two areas are those from before and the direct mapping is right. -/
theorem init_tree (hprep : Prepared entries bootMemAllocStart kernPgtable base s)
    (h : mmPagesAllocatorInit bootMemAllocStart kernPgtable entries s.mem s.buddy = some st)
    (hok : 0 ∉ st.la.returned) :
    (∃ T, Tables KERNEL_DIRECT_MAPPING_AREA (fun _ => True) (BootPage base st.la) [] st.mem T ∧
      T [] = some kernPgtable) ∧ DirectMapped entries st.mem kernPgtable ∧
      (∀ va, areaEntry (pgdEntry va) = false → leafOf KERNEL_DIRECT_MAPPING_AREA st.mem kernPgtable va
        = if pgdEntry va = 0 then 0 else leafOf KERNEL_DIRECT_MAPPING_AREA s.mem kernPgtable va) ∧
      ∀ a, (∀ q, BootPage base st.la q → frameOf a ≠ pageOf q) → st.mem a = s.mem a := by
  obtain ⟨st₀, hbefore, hla, hmem⟩ := mmPagesAllocatorInit_mem hprep.map h
  rw [hla] at hok
  obtain ⟨la, hextends⟩ := beforeFree_extends hprep hbefore
  obtain ⟨T, hT, hroot, hdirect, hleaves⟩ := hextends.mapping.tree hok
  obtain ⟨hhidden, hentries⟩ := hT.hide hroot 0 0
  rw [← hmem, ← hla] at hhidden
  rw [← hmem] at hentries
  have hkept : Tables KERNEL_DIRECT_MAPPING_AREA (· ≠ 0) base st.la.returned st.mem T :=
    ⟨hhidden.laid.mono fun j hj => ⟨hj, hj⟩, hhidden.aligned, hhidden.used⟩
  have hempty : view KERNEL_DIRECT_MAPPING_AREA st.mem kernPgtable 0 = 0 := by
    rw [hmem]
    exact view_write_self
  have hbase : ∀ π p, T π = some p → BootPage base st.la p ∨ p ∈ ([] : List Word) :=
    fun π p hp => Or.inl (hhidden.used π p hp)
  have hpath : ∀ va, pathOf va ≠ [0] := fun va hp => by simp [pathOf] at hp
  -- The old mapping is gone, so root entry 0 counts.
  have hothers : Tables KERNEL_DIRECT_MAPPING_AREA (fun j => True ∧ j ≠ 0) (BootPage base st.la) []
      st.mem T :=
    ⟨hhidden.laid.mono fun j hj => ⟨hj.2, hj.2⟩, hhidden.aligned, hbase⟩
  refine ⟨⟨_, hothers.pruned hroot hempty⟩, ?_, ?_, ?_⟩
  · intro e he x hx
    have hx46 : x.toNat < 2 ^ 46 := hx.2.trans_le (hprep.map.bounded e he)
    rw [exactAt_iff hkept hroot hx46, hentries _ (hpath _)]
    exact hdirect e he x hx
  · intro va harea
    by_cases hva : pgdEntry va = 0
    · rw [if_pos hva, leafOf, pgtableWalk, hva]
      exact congrArg (Option.getD · 0) (if_pos hempty)
    · rw [if_neg hva, leafOf, pgtableWalk_getD hkept hroot (indexOf_ne_zero hva),
        hentries _ (hpath va)]
      exact hleaves va harea hva
  · intro a ha
    have hcursor := hextends.mapping.linear.cursor hok
    have hoff : ∀ q, base q ∨ q ∈ st₀.la.returned → OffPage KERNEL_DIRECT_MAPPING_AREA q a := by
      intro q hq
      have haligned : PageAligned q :=
        hq.elim (fun hb => (hprep.below q hb).1) (hcursor.risen.aligned q)
      refine (offPage_iff haligned).mpr (ha q ?_)
      rw [BootPage, hla]
      exact hq
    rw [hmem]
    exact (write64_offPage (hoff _ (hT.used [] _ hroot))).trans (hextends.frame hok a hoff)

/-! ### The invariant -/

/-- `kmem_cache_init` writes to no object and takes no block. -/
theorem kmemCacheInit_same (s : Kmem) :
    (kmemCacheInit s).mem = s.mem ∧ (kmemCacheInit s).slubs = [] := by
  have hrounds : ∀ (is : List Nat) (r : Kmem × Word),
      (is.foldl initCache r).1.mem = r.1.mem ∧ (is.foldl initCache r).1.slubs = r.1.slubs := by
    intro is
    induction is with
    | nil => exact fun r => ⟨rfl, rfl⟩
    | cons i is ih => exact fun r => ih (initCache r i)
  exact hrounds _ _

/-- The pages of the booting stage and of the linear allocator are in front of `mm_alloc_end`. -/
theorem bootPage_lt (hprep : Prepared entries bootMemAllocStart kernPgtable base s)
    (h : mmPagesAllocatorInit bootMemAllocStart kernPgtable entries s.mem s.buddy = some st)
    (hok : 0 ∉ st.la.returned) :
    bootMemAllocStart.toNat < st.la.mmAllocEnd.toNat ∧
      (∀ q ∈ st.la.returned, bootMemAllocStart.toNat ≤ q.toNat) ∧
      ∀ q, BootPage base st.la q → PageAligned q ∧ 4096 * pageOf q < st.la.mmAllocEnd.toNat := by
  obtain ⟨st₀, hbefore, hla, -⟩ := mmPagesAllocatorInit_cases hprep.map (by decide) h
  have hlinear := beforeFree_linear hprep.map hprep.start hprep.inside hbefore
  rw [← hla] at hlinear
  have hcursor := hlinear.cursor hok
  have hend := hcursor.below
  refine ⟨hend, fun q hq => (hcursor.risen.between q hq).1, fun q hq => ?_⟩
  rw [pageOf_eq]
  cases hq with
  | inl hq =>
      obtain ⟨haligned, hlt⟩ := hprep.below q hq
      exact ⟨haligned, by omega⟩
  | inr hq =>
      have hlast := hcursor.ends q hq
      exact ⟨hcursor.risen.aligned q hq, by omega⟩

/-- No frame that was freed is at NULL, as the frames of the map lie below `2 ^ 46`. -/
theorem freedSet_slubAddr (hmap : MemoryMap (2 ^ 46) entries) {y : Int}
    (hy : y ∈ freedSet entries la) : slubAddr y ≠ 0 := by
  obtain ⟨e, he, -, -, hframe, hlow⟩ := (mem_freedFrames hmap).mp hy
  have hbound := hmap.bounded e he
  have hlt := hframe.2
  intro hzero
  have hphys := physOf_slubAddr (p := y) (by omega) (by omega)
  have hnull : physOf 0 = 4096 * 0x778000000 := by decide
  rw [hzero, hnull] at hphys
  omega

/-- What `mm_init` leaves: the buddy system owns available memory that nobody else uses, the
invariant holds, and the direct mapping is right. Elsewhere, the page table and memory are as they
were, and what was behind root entry 0 is not mapped any more. -/
structure Initialized (entries : List MmapEntry) (bootMemAllocStart kernPgtable : Word)
    (base : Word → Prop) (la : LinearAlloc) (s s₁ : Kmem) : Prop where
  usable : ∀ y ∈ freedSet entries la, (∃ e ∈ entries, e.Available ∧ e.HasFrame y) ∧
    (bootMemAllocStart.toNat : Int) ≤ 4096 * y
  behind : ∀ q ∈ la.returned, bootMemAllocStart.toNat ≤ q.toNat
  apart : ∀ q, BootPage base la q → PageAligned q ∧ pageOf q ∉ freedSet entries la
  inv : (Kernel.start s₁).Inv (freedSet entries la) (BootPage base la) kernPgtable
    (leafOf KERNEL_DIRECT_MAPPING_AREA s₁.mem kernPgtable)
  direct : DirectMapped entries s₁.mem kernPgtable
  leaf : ∀ va, areaEntry (pgdEntry va) = false → leafOf KERNEL_DIRECT_MAPPING_AREA s₁.mem kernPgtable va
    = if pgdEntry va = 0 then 0 else leafOf KERNEL_DIRECT_MAPPING_AREA s.mem kernPgtable va
  frame : ∀ a, (∀ q, BootPage base la q → frameOf a ≠ pageOf q) → s₁.mem a = s.mem a

/-- `mm_init` as a whole: when no allocation fails and the freed frames are separated, it leaves
the kernel as `Initialized` describes, from which its runs start. -/
theorem mmInit_initialized (hinfo : BootInfo info mbi tags t n)
    (hprep : Prepared (mapEntries info t 24 n) bootMemAllocStart kernPgtable base s)
    (hinit : mmInit info mbi bootMemAllocStart kernPgtable tags (n + 1) s = some (la, s₁))
    (hok : 0 ∉ la.returned)
    (hsep : Separated topOrder [] (freedFrames (mapEntries info t 24 n) la.mmAllocEnd)) :
    Initialized (mapEntries info t 24 n) bootMemAllocStart kernPgtable base la s s₁ := by
  rw [mmInit_eq hinfo, Option.map_eq_some_iff] at hinit
  obtain ⟨st, hst, heq⟩ := hinit
  obtain ⟨rfl, rfl⟩ := Prod.mk.inj heq
  have hmem : (kmemCacheInit { s with buddy := st.buddy, mem := st.mem }).mem = st.mem :=
    (kmemCacheInit_same _).1
  obtain ⟨pages, hsound, hframes⟩ := init_sound hprep hst hok hsep
  obtain ⟨⟨T, hT, hroot⟩, hdirect, hleaf, hframe⟩ := init_tree hprep hst hok
  obtain ⟨hend, hbehind, hboot⟩ := bootPage_lt hprep hst hok
  have hphys : ∀ c ∈ blocksOf pages, Physical c := by
    intro c hc
    have hpos : (0 : Int) < 2 ^ c.order := pow_pos (by decide) _
    have hlast : c.start + 2 ^ c.order - 1 ∈ c.frames := ⟨by omega, by omega⟩
    have hfreed : ∀ y ∈ c.frames, y ∈ freedSet (mapEntries info t 24 n) st.la :=
      fun y hy => hframes ▸ ⟨c, hc, hy⟩
    -- The first and the last frame of a block are both frames of the map.
    obtain ⟨-, -, -, -, -, hlow⟩ := (mem_freedFrames hprep.map).mp (hfreed _ c.start_mem)
    obtain ⟨e, he, -, -, hhigh, -⟩ := (mem_freedFrames hprep.map).mp (hfreed _ hlast)
    have hbound := hprep.map.bounded e he
    have hlt := hhigh.2
    constructor
    · omega
    · omega
  refine ⟨fun y hy => ?_, hbehind, fun q hq => ?_, ?_, ?_, ?_, ?_⟩
  · obtain ⟨e, he, havail, -, hin, hle⟩ := (mem_freedFrames hprep.map).mp hy
    exact ⟨⟨e, he, havail, hin⟩, by omega⟩
  · obtain ⟨haligned, hlt⟩ := hboot q hq
    refine ⟨haligned, fun hy => ?_⟩
    obtain ⟨-, -, -, -, -, hle⟩ := (mem_freedFrames hprep.map).mp hy
    omega
  · have hslub := slubInv_init (s := { s with buddy := st.buddy, mem := st.mem }) hsound hphys
    rw [hframes] at hslub
    refine ⟨⟨Pool.start pages, ⟨hslub, fun sz obj hy => absurd hy List.not_mem_nil⟩, ?_⟩,
      fun q hq => absurd hq List.not_mem_nil, T, ?_, hroot, fun va => ?_⟩
    · rw [← hframes]
      intro y hy
      obtain ⟨c, hc, hyc⟩ := hy
      exact ⟨c, Or.inr hc, hyc⟩
    · show Tables _ _ _ _ (kmemCacheInit _).mem _
      rw [hmem]
      exact hT
    · show SumiOS.entries _ (kmemCacheInit _).mem _ _ = leafOf _ (kmemCacheInit _).mem _ _
      rw [hmem, leafOf, pgtableWalk_getD hT hroot trivial]
  · rw [hmem]
    exact hdirect
  · rw [hmem]
    exact hleaf
  · rw [hmem]
    exact hframe

/-- In one region of 2 MB and with the page structs in one page, `mm_init` comes to its end and
takes at most seven pages. -/
theorem mmInit_few (hinfo : BootInfo info mbi tags t n)
    (hprep : Prepared (mapEntries info t 24 n) bootMemAllocStart kernPgtable base s)
    (hcount : (mapEntries info t 24 n).countP (fun e => decide e.Available) ≤ PHYS_MM_SEGS_NUM_MAX)
    {v : MmapEntry × Word} {vs : List (MmapEntry × Word)}
    (hvisits : visitsOf (mapEntries info t 24 n) = v :: vs)
    (hregion : ∀ w ∈ v :: vs, innerPaths (physToKernelDirectMappingAddr w.2) =
      innerPaths (physToKernelDirectMappingAddr v.2))
    (hstructs : ∀ w ∈ v :: vs, pathOf (structVa w) = pathOf (structVa v))
    (hscan : (mapEntries info t 24 n).foldlM (scanEntry bootMemAllocStart) LinearAlloc.static = some la)
    (hfew : ∀ m ≤ 7, 0 ∉ (linearAllocs m la).returned) :
    ∃ m ≤ 7, ∃ s₁, mmInit info mbi bootMemAllocStart kernPgtable tags (n + 1) s
      = some (linearAllocs m la, s₁) ∧ s₁.slubs = [] := by
  have hmap := hprep.map
  obtain ⟨st, hst⟩ : ∃ st, mmPagesAllocatorInit bootMemAllocStart kernPgtable
      (mapEntries info t 24 n) s.mem s.buddy = some st :=
    Option.isSome_iff_exists.mp ((mmPagesAllocatorInit_isSome hmap (by decide)).mpr hcount)
  obtain ⟨st₀, hbefore, hla, -⟩ := mmPagesAllocatorInit_cases hmap (by decide) hst
  have hlt : ∀ w ∈ v :: vs, w.2.toNat < 2 ^ 46 := fun w hw => visitsOf_lt hmap (hvisits ▸ hw)
  rw [hvisits] at hbefore
  obtain ⟨m, hm, hpages⟩ := beforeFree_few (fun e he _ => hmap.addrs e he) hmap.bounded hprep.start
    hprep.inside hprep.kernelTables hlt hregion hstructs hscan hfew hbefore
  refine ⟨m, hm, kmemCacheInit { s with buddy := st.buddy, mem := st.mem }, ?_,
    (kmemCacheInit_same _).2⟩
  rw [mmInit_eq hinfo, hst, Option.map_some, hla, hpages]

/-- When there is memory at all, the first client that asks for a frame gets one. -/
theorem Initialized.run_allocPages
    (hready : Initialized entries bootMemAllocStart kernPgtable base la s s₁)
    (hslubs : s₁.slubs = []) {y : Int} (hy : y ∈ freedSet entries la) :
    ∃ k, run (Kernel.step kernPgtable) (Kernel.start s₁) [.client (.allocPages 0)] = some k ∧
      k.heap.held ≠ [] ∧ k.tables = [] := by
  obtain ⟨-, -, -, hcover, halloc⟩ := hready.inv.tiled
  -- There is a free block.
  have hnone : (Kernel.start s₁).blocks = [] := by
    show [] ++ s₁.slubs.map _ = []
    rw [hslubs]
    rfl
  obtain ⟨c, hc, -⟩ := (hcover y).mp hy
  rw [hnone] at hc
  have hfree := hc.resolve_left List.not_mem_nil
  refine ⟨⟨⟨{ s₁ with buddy := (allocPages s₁.buddy 0).1 }, [.block 0 (allocPages s₁.buddy 0).2]⟩,
    [], []⟩, rfl, ?_, rfl⟩
  cases hp : (allocPages s₁.buddy 0).2 with
  | none => exact absurd ((halloc 0).mp hp c hfree) (Nat.not_lt_zero _)
  | some p => exact List.cons_ne_nil _ _

end Start

/-! ### A small machine -/

/-- A memory map of eight frames and, behind a hole, four frames. -/
def smallInfo : Mem := infoAt 0x10000
  [80, 0, 6, 64, 24, 0, 0x800000, 0, 0x8000, 0, 1, 0, 0x810000, 0, 0x4000, 0, 1, 0, 0, 8]

def smallMap : List MmapEntry := [⟨0x800000, 0x8000, 1⟩, ⟨0x810000, 0x4000, 1⟩]

/-- Zero memory, and no cache. -/
def smallKmem : Kmem := ⟨cleared, fun _ => 0, fun _ => ⟨0, none, 0⟩, []⟩

/-- The memory map that is read from the bytes of the small machine. -/
theorem smallInfo_entries : mapEntries smallInfo 0x10008 24 2 = smallMap := by decide

/-- The walk over these bytes finds the memory map behind the header, and it has two entries. -/
theorem smallInfo_bootInfo : BootInfo smallInfo 0x10000 1 0x10008 2 where
  found := ⟨⟨0x10008, 0x10008, [0x10008]⟩, by rfl, rfl⟩
  ne_zero := by decide
  map := ⟨by decide, by decide, by decide, by decide, by decide⟩
  fits := by decide

/-- Zero memory with an empty root table at `0x1000` is what a booting stage may leave for this
map. -/
theorem smallMap_prepared : Prepared smallMap 0x800000 0x1000 (· = 0x1000) smallKmem where
  map := .of_stops (by decide) (by decide) (by decide) (by decide)
  start := by decide
  inside := ⟨⟨0x800000, 0x8000, 1⟩, List.mem_cons_self, rfl, by decide, by decide⟩
  clear := fun _ _ => rfl
  below := by
    intro q hq
    rw [hq]
    decide
  tables := by
    have hzero : ∀ i, view KERNEL_DIRECT_MAPPING_AREA (fun _ => 0) 0x1000 i = 0 := by
      intro i
      show ofBytes (fun _ => 0) = 0
      rfl
    have hrun : MapRun _ (· = (0x1000 : Word)) 0x1000 [] [] _ _ :=
      mapRun_nil (by decide) hzero (Or.inl rfl)
    obtain ⟨hlaid, haligned, hused⟩ := hrun.tables
    exact ⟨_, ⟨hlaid.mono fun _ _ => trivial, haligned, hused⟩, hrun.rooted⟩

/-- The same for the map as the kernel reads it. -/
theorem smallInfo_prepared :
    Prepared (mapEntries smallInfo 0x10008 24 2) 0x800000 0x1000 (· = 0x1000) smallKmem := by
  rw [smallInfo_entries]
  exact smallMap_prepared

/-- The linear allocator needs no more than the first eight frames, and the others are one
block. -/
theorem smallMap_mmInit :
    ∃ la s₁, mmInit smallInfo 0x10000 0x800000 0x1000 1 3 smallKmem = some (la, s₁) ∧
      0 ∉ la.returned ∧ la.mmAllocEnd = 0x808000 ∧ s₁.slubs = [] := by
  obtain ⟨la, hscan, hfew⟩ : ∃ la,
      smallMap.foldlM (scanEntry 0x800000) LinearAlloc.static = some la ∧ ∀ n ≤ 7,
        0 ∉ (linearAllocs n la).returned ∧ (linearAllocs n la).mmAllocEnd = 0x808000 :=
    ⟨_, rfl, by decide⟩
  obtain ⟨v, vs, hvisits, hregion, hstructs⟩ : ∃ v vs, visitsOf smallMap = v :: vs ∧
      (∀ w ∈ v :: vs, innerPaths (physToKernelDirectMappingAddr w.2) =
        innerPaths (physToKernelDirectMappingAddr v.2)) ∧
      ∀ w ∈ v :: vs, pathOf (structVa w) = pathOf (structVa v) :=
    ⟨_, _, rfl, by decide, by decide⟩
  rw [← smallInfo_entries] at hscan hvisits
  obtain ⟨m, hm, s₁, hinit, hslubs⟩ := mmInit_few smallInfo_bootInfo smallInfo_prepared (by decide)
    hvisits hregion hstructs hscan fun n hn => (hfew n hn).1
  exact ⟨_, s₁, hinit, (hfew m hm).1, (hfew m hm).2, hslubs⟩

end SumiOS
