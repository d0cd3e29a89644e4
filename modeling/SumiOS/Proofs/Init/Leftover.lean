import SumiOS.Proofs.Init.Demand

/-!
# `SumiOS.Proofs.Init.Leftover`: the frames that nobody gets

The linear allocator has handed out what is in front of `mm_alloc_start`, and the free loop
hands over what is from `mm_alloc_end` on. The frames between the two go to nobody.

`leftoverFreed_iff` says when all available frames from `mm_alloc_start` on are in the free
lists, for an initialization in which no allocation fails: when there are no available
frames between the two addresses. As long as no available entry is empty there are always
some, since the area in use is never used up (`LinearAlloc.AtEntry`). An empty entry behind
an area that is used up exactly stops the allocator at its end (`leftoverFreed_iff_exactMap`).

After a failed allocation the page structs of some frames are in frame 0, on top of each
other, so that the free lists are not those of the model any more.
-/

set_option autoImplicit false

namespace SumiOS

open Lib

section Leftover

variable {bootMemAllocStart kernPgtable : Word} {entries : List MmapEntry} {mem : Mem}
  {b : Buddy} {st : InitState}

/-- Every available frame from `mm_alloc_start` on is in a free block. -/
def LeftoverFreed (entries : List MmapEntry) (st : InitState) : Prop :=
  ∀ e ∈ entries, e.Available → ∀ x, e.HasFrame x → (st.la.mmAllocStart.toNat : Int) ≤ 4096 * x →
    ∃ c, FreeBlock st.buddy c ∧ x ∈ c.frames

/-- Every available frame from `mm_alloc_start` on starts at or behind `mm_alloc_end`, where
the free loop begins. -/
def LeftoverVisited (entries : List MmapEntry) (la : LinearAlloc) : Prop :=
  ∀ e ∈ entries, e.Available → ∀ x, e.HasFrame x → (la.mmAllocStart.toNat : Int) ≤ 4096 * x →
    (la.mmAllocEnd.toNat : Int) ≤ 4096 * x

/-- The linear allocator is at an address of an available entry, and works up to the
end of that entry. Its areas are available entries. -/
structure LinearAlloc.AtEntry (entries : List MmapEntry) (la : LinearAlloc) : Prop where
  areas : ∀ i < la.physMmAreaNum, ∃ e ∈ entries, e.Available ∧
    la.physMmAreaArr i = ⟨e.addr, e.addr + e.len⟩
  idx : la.physMmAreaIdx ≤ la.physMmAreaNum
  cursor : 0 ∉ la.returned → ∃ e ∈ entries, e.Available ∧ e.Holds la.mmAllocStart.toNat ∧
    la.mmAllocEnd.toNat = e.stop

/-- One more allocation. It does not use up an area: that of a successful one ends behind
the cursor. -/
theorem LinearAlloc.AtEntry.alloc {la : LinearAlloc} (h : la.AtEntry entries)
    (hmap : MemoryMap (2 ^ 46) entries) (hlen : ∀ e ∈ entries, e.Available → e.len ≠ 0) :
    (mmInitPhysAllocLinear la PAGE_SIZE).1.AtEntry entries := by
  obtain ⟨hidx, hcase⟩ := allocLinear_cases h.idx
  have hsame := allocLinear_same la PAGE_SIZE
  have hret := mmInitPhysAllocLinear_returned la
  have hareas : ∀ i < la.physMmAreaNum, ∃ e ∈ entries, e.Available ∧
      (allocLinear la PAGE_SIZE).1.physMmAreaArr i = ⟨e.addr, e.addr + e.len⟩ := by
    rw [hsame.arr]
    exact h.areas
  refine ⟨?_, ?_, fun hok => ?_⟩
  · show ∀ i < (allocLinear la PAGE_SIZE).1.physMmAreaNum, _
    rw [hsame.num]
    exact hareas
  · show _ ≤ (allocLinear la PAGE_SIZE).1.physMmAreaNum
    rw [hsame.num]
    exact hidx
  · rw [hret] at hok
    obtain ⟨hne, hold⟩ := not_or.mp fun hor => hok (List.mem_cons.mpr hor)
    -- A successful allocation stays in the area or slides to the next one.
    obtain ⟨-, -, hadv⟩ := hcase.resolve_left fun h0 => hne h0.1.symm
    obtain ⟨e, he, havail, hin, hend⟩ := h.cursor hold
    show ∃ e ∈ entries, e.Available ∧ e.Holds (allocLinear la PAGE_SIZE).1.mmAllocStart.toNat ∧
      (allocLinear la PAGE_SIZE).1.mmAllocEnd.toNat = e.stop
    cases hadv with
    | ahead hs he' hroom =>
        refine ⟨e, he, havail, ⟨?_, ?_⟩, by rw [he', hend]⟩
        · have hbound := hmap.bounded e he
          have hlow := hin.1
          have hhigh : la.mmAllocStart.toNat < e.stop := hin.2
          have hsize : PAGE_SIZE.toNat = 4096 := rfl
          rw [hs, BitVec.toNat_add, hsize]
          omega
        · have hlt := BitVec.lt_def.mp hroom
          rw [he', hend] at hlt
          exact hlt
    | slide i hi _ hs he' =>
        -- The cursor is at the start of the next area, which is an entry that is not empty.
        obtain ⟨e₂, he₂, havail₂, harea⟩ := h.areas i hi
        have hbound := hmap.bounded e₂ he₂
        rw [hs, he', harea]
        exact ⟨e₂, he₂, havail₂, MmapEntry.holds_addr (hlen e₂ he₂ havail₂),
          MmapEntry.stop_toNat (by omega)⟩

/-- When the frames are freed, the linear allocator is still inside an entry: it starts in one, and
each allocation stays in it or moves on to another. Only the number of allocations that the loops
have made matters. -/
theorem beforeFree_atEntry {visits : List (MmapEntry × Word)} (hmap : MemoryMap (2 ^ 46) entries)
    (hin : ∃ e ∈ entries, e.Available ∧ e.Holds bootMemAllocStart.toNat)
    (hlen : ∀ e ∈ entries, e.Available → e.len ≠ 0)
    (h : beforeFree bootMemAllocStart kernPgtable entries visits mem b = some st) :
    st.la.AtEntry entries := by
  obtain ⟨la, n, hscan, hla⟩ := beforeFree_allocs h
  have hdone := scanned_entries hmap.stops hscan
  have hstart : la.AtEntry entries := by
    refine ⟨hdone.areas, by rw [hdone.idx]; exact Nat.zero_le _, fun _ => ?_⟩
    obtain ⟨hs, e, he, havail, hholds, hend⟩ := hdone.cursor hin
    have hbound := hmap.bounded e he
    rw [hs, hend]
    exact ⟨e, he, havail, hholds, MmapEntry.stop_toNat (by omega)⟩
  rw [hla]
  clear hla
  induction n with
  | zero => exact hstart
  | succ n ih =>
      rw [linearAllocs, Function.iterate_succ_apply']
      exact ih.alloc hmap hlen

/-- The free loop gives the leftover memory to the buddy system exactly when it visits it. -/
theorem leftoverFreed_iff_visited (hmap : MemoryMap (2 ^ 46) entries)
    (hclear : OutsideNotFree entries b)
    (h : mmPagesAllocatorInit bootMemAllocStart kernPgtable entries mem b = some st) :
    LeftoverFreed entries st ↔ LeftoverVisited entries st.la := by
  obtain ⟨st₀, hbefore, hla, hbuddy⟩ := mmPagesAllocatorInit_cases hmap (by decide) h
  obtain ⟨seq, e', hA, hcover, -⟩ := freed_ascended hmap (hclear.unvisited hmap (by decide))
    (pageMapped st₀.mem kernPgtable) st₀.la.mmAllocEnd hbefore
  have hfree : ∀ x, (∃ c, FreeBlock st.buddy c ∧ x ∈ c.frames) ↔ Covered seq x := by
    intro x
    rw [hbuddy]
    exact exists_congr fun c => and_congr_left fun _ =>
      freeBlock_iff hasFreelists_buddyHeads hA.rep
  unfold LeftoverFreed LeftoverVisited
  simp only [hfree, hla]
  constructor
  · intro hall e he havail x hx hstart
    obtain ⟨c, hc, hxc⟩ := hall e he havail x hx hstart
    exact hA.frame_ge hc hxc
  · intro hall e he havail x hx hstart
    have hstop := (hmap.bounded e he).trans_lt (show 2 ^ 46 < 2 ^ 64 by decide)
    exact hcover x ((mem_freedFrames hmap).mpr
      ⟨e, he, havail, hstop, hx, hall e he havail x hx hstart⟩)

/-- While no allocation fails, the frame at the cursor is left over and not visited. -/
theorem not_leftoverVisited (hmap : MemoryMap (2 ^ 46) entries)
    (hstart : PageAligned bootMemAllocStart)
    (hin : ∃ e ∈ entries, e.Available ∧ e.Holds bootMemAllocStart.toNat)
    (hlen : ∀ e ∈ entries, e.Available → e.len ≠ 0)
    (h : mmPagesAllocatorInit bootMemAllocStart kernPgtable entries mem b = some st)
    (hok : 0 ∉ st.la.returned) : ¬ LeftoverVisited entries st.la := by
  obtain ⟨st₀, hbefore, hla, -⟩ := mmPagesAllocatorInit_cases hmap (by decide) h
  rw [hla] at hok ⊢
  intro hall
  obtain ⟨e, he, havail, hholds, hend⟩ := (beforeFree_atEntry hmap hin hlen hbefore).cursor hok
  have hmod := ((beforeFree_linear hmap hstart hin hbefore).cursor hok).aligned.toNat_mod
  have hlt : st₀.la.mmAllocStart.toNat < e.stop := hholds.2
  have hle := hholds.1
  have hframe : e.HasFrame ((st₀.la.mmAllocStart.toNat / 4096 : Nat) : Int) := by
    unfold MmapEntry.HasFrame
    omega
  have hvisit := hall e he havail _ hframe (by omega)
  omega

/-- An initialization in which no allocation fails gives all leftover memory to the buddy
system exactly when the free loop visits all of it. When no available entry is empty, it
never does. -/
theorem leftoverFreed_iff (hmap : MemoryMap (2 ^ 46) entries)
    (hstart : PageAligned bootMemAllocStart)
    (hin : ∃ e ∈ entries, e.Available ∧ e.Holds bootMemAllocStart.toNat)
    (hclear : OutsideNotFree entries b)
    (h : mmPagesAllocatorInit bootMemAllocStart kernPgtable entries mem b = some st)
    (hok : 0 ∉ st.la.returned) :
    ∃ st₀, beforeFree bootMemAllocStart kernPgtable entries (visitsOf entries) mem b = some st₀ ∧
      (LeftoverFreed entries st ↔ LeftoverVisited entries st₀.la) ∧
      ((∀ e ∈ entries, e.Available → e.len ≠ 0) → ¬ LeftoverFreed entries st) := by
  obtain ⟨st₀, hbefore, hla, -⟩ := mmPagesAllocatorInit_cases hmap (by decide) h
  have hiff := leftoverFreed_iff_visited hmap hclear h
  refine ⟨st₀, hbefore, hla ▸ hiff, fun hlen hall => ?_⟩
  exact not_leftoverVisited hmap hstart hin hlen h hok (hiff.mp hall)

end Leftover

/-! ### A map that is used up exactly -/

/-- Seven frames, an empty entry, and two frames. -/
def exactMap : List MmapEntry :=
  [⟨0x800000, 0x7000, 1⟩, ⟨0x808000, 0, 1⟩, ⟨0x810000, 0x2000, 1⟩]

/-- The map without a leftover satisfies the side conditions on memory maps. -/
theorem exactMap_memoryMap : MemoryMap (2 ^ 46) exactMap :=
  .of_stops (by decide) (by decide) (by decide) (by decide)

/-- The first free byte behind the image lies in its first area. -/
theorem exactMap_start : ∃ e ∈ exactMap, e.Available ∧ e.Holds (0x800000 : Word).toNat :=
  ⟨⟨0x800000, 0x7000, 1⟩, List.mem_cons_self, rfl, by decide, by decide⟩

/-- In memory that is zero, no entry is in use. -/
theorem zeroGrown : Grown (fun π => if π = [] then some 0x1000 else none) []
    (fun π => if π = [] then some 0x1000 else none)
    (entries KERNEL_DIRECT_MAPPING_AREA (fun _ => 0) fun π => if π = [] then some 0x1000 else none) where
  sub _ _ h := h
  inner := zeroRun.history.inUse fun c hc => absurd hc List.not_mem_nil
  leaf v _ := by
    have hnone : lastCall (structVa v) [] = none := rfl
    rw [zeroRun.history.leaf, hnone]
    exact iff_of_false (fun h => h (by decide)) List.not_mem_nil
  closed _ h := absurd h List.not_mem_nil

/-- The two loops take all seven frames, and the allocator ends at the empty entry. -/
theorem exactMap_run :
    ∃ st, mmPagesAllocatorInit 0x800000 0x1000 exactMap (fun _ => 0) cleared = some st ∧
      0 ∉ st.la.returned ∧ st.la.mmAllocStart = 0x808000 ∧ st.la.mmAllocEnd = 0x808000 := by
  have hsome : (mmPagesAllocatorInit 0x800000 0x1000 exactMap (fun _ => 0) cleared).isSome :=
    (mmPagesAllocatorInit_isSome exactMap_memoryMap (by decide)).mpr (by decide)
  obtain ⟨st, hst⟩ := Option.isSome_iff_exists.mp hsome
  obtain ⟨st₀, hbefore, hla, -⟩ := mmPagesAllocatorInit_cases exactMap_memoryMap (by decide) hst
  obtain ⟨la, hscan, hseven⟩ : ∃ la,
      exactMap.foldlM (scanEntry 0x800000) LinearAlloc.static = some la ∧
        0 ∉ (linearAllocs 7 la).returned ∧ (linearAllocs 7 la).mmAllocStart = 0x808000 ∧
        (linearAllocs 7 la).mmAllocEnd = 0x808000 :=
    ⟨_, rfl, by decide⟩
  have hvisits : allVisits exactMap = some (visitsOf exactMap) :=
    allVisits_eq exactMap_memoryMap.addrs exactMap_memoryMap.lens fun e he =>
      (exactMap_memoryMap.bounded e he).trans (by decide)
  have htables := zeroRun.tables
  have hcount := beforeFree_count (fun e he _ => exactMap_memoryMap.addrs e he)
    exactMap_memoryMap.bounded (by decide) exactMap_start
    ⟨htables.laid.mono fun _ _ => trivial, htables.aligned, htables.used⟩ zeroRun.rooted zeroGrown
    hvisits hscan (n := 7) (by decide) hbefore (Or.inr hseven.1)
  refine ⟨st, hst, ?_⟩
  rw [hla, hcount]
  exact hseven

/-- With `exactMap`, all frames that are left are in the free lists: the linear allocator has used
up the first entry and stands in the empty one, where the free loop starts. -/
theorem leftoverFreed_iff_exactMap :
    ∃ st, mmPagesAllocatorInit 0x800000 0x1000 exactMap (fun _ => 0) cleared = some st ∧
      st.la.mmAllocStart = 0x808000 ∧ LeftoverFreed exactMap st := by
  obtain ⟨st, hst, hok, hstart, hend⟩ := exactMap_run
  obtain ⟨st₀, hbefore, hiff, -⟩ := leftoverFreed_iff exactMap_memoryMap (by decide) exactMap_start
    (fun _ _ => rfl) hst hok
  obtain ⟨st₁, hbefore', hla, -⟩ := mmPagesAllocatorInit_cases exactMap_memoryMap (by decide) hst
  obtain rfl : st₀ = st₁ := Option.some.inj (hbefore.symm.trans hbefore')
  refine ⟨st, hst, hstart, hiff.mpr fun e _ _ x _ hx => ?_⟩
  rw [← hla, hstart] at hx
  rw [← hla, hend]
  exact hx

/-- With `holeMap`, the rest of the first entry is lost: the allocator stops inside it, and the
free loop starts with the end of that entry, so that neither of them has these frames. -/
theorem not_always_leftoverFreed :
    ¬ ∀ (bootMemAllocStart kernPgtable : Word) (entries : List MmapEntry) (mem : Mem) (b : Buddy)
      (st : InitState), MemoryMap (2 ^ 46) entries → PageAligned bootMemAllocStart →
      (∃ e ∈ entries, e.Available ∧ e.Holds bootMemAllocStart.toNat) → OutsideNotFree entries b →
      KernelTables mem kernPgtable bootMemAllocStart →
      mmPagesAllocatorInit bootMemAllocStart kernPgtable entries mem b = some st →
      0 ∉ st.la.returned → LeftoverFreed entries st := by
  intro hall
  obtain ⟨st, hst, hok, -⟩ := holeMap_run
  have hfreed := hall 0x800000 0x1000 holeMap (fun _ => 0) cleared st holeMap_memoryMap (by decide)
    holeMap_start (fun _ _ => rfl) zeroTables hst hok
  rw [leftoverFreed_iff_visited holeMap_memoryMap (fun _ _ => rfl) hst] at hfreed
  exact not_leftoverVisited holeMap_memoryMap (by decide) holeMap_start (by decide) hst hok hfreed

end SumiOS
