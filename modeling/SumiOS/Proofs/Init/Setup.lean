import SumiOS.Proofs.Init.Frames

/-!
# `SumiOS.Proofs.Init.Setup`: the linear allocator until the frames are freed

`mm_pages_allocator_init` fills the areas of the linear allocator from the memory
map, and then allocates page tables and pages of the page array with it.
`beforeFree_linear` says that the invariant of the allocator holds when the frames
are freed. `mmPagesAllocatorInit_isSome` says when the function comes to its end:
when the areas fit into their array.
-/

set_option autoImplicit false

namespace SumiOS

open Lib

/-! ### The areas -/

/-- The entry is available memory. -/
abbrev MmapEntry.Available (e : MmapEntry) : Prop := e.type = MULTIBOOT_MEMORY_AVAILABLE

/-- The linear allocator after the loop over some entries. -/
structure Scanned (first : Word) (done : List MmapEntry) (la : LinearAlloc) : Prop where
  areas : ∀ i < la.physMmAreaNum, ∃ e ∈ done, e.Available ∧
    la.physMmAreaArr i = ⟨e.addr, e.addr + e.len⟩
  idx : la.physMmAreaIdx = 0
  returned : la.returned = []
  cursor : (∃ e ∈ done, e.Available ∧ e.Holds first.toNat) →
    la.mmAllocStart = first ∧ ∃ e ∈ done, e.Available ∧ e.Holds first.toNat ∧
      la.mmAllocEnd = e.addr + e.len
  idle : (∀ e ∈ done, e.Available → ¬ e.Holds first.toNat) →
    la.mmAllocStart = -1 ∧ la.mmAllocEnd = 0

section Scan

variable {first : Word} {entries done : List MmapEntry} {e : MmapEntry} {la la' : LinearAlloc}

/-- An entry that ends below `2 ^ 64` has its end as a word, without wrapping around. -/
theorem MmapEntry.stop_toNat (h : e.stop < 2 ^ 64) : (e.addr + e.len).toNat = e.stop := by
  unfold MmapEntry.stop at h ⊢
  rw [BitVec.toNat_add]
  omega

/-- An entry in which the address does not lie changes nothing but the areas. -/
theorem Scanned.skip (h : Scanned first done la) {arr : Nat → PhysMmArea} {num : Nat}
    (hareas : ∀ i < num, ∃ e' ∈ done ++ [e], e'.Available ∧ arr i = ⟨e'.addr, e'.addr + e'.len⟩)
    (hout : ¬ (e.Available ∧ e.Holds first.toNat)) :
    Scanned first (done ++ [e]) { la with physMmAreaArr := arr, physMmAreaNum := num } where
  areas := hareas
  idx := h.idx
  returned := h.returned
  cursor := by
    rintro ⟨e', he', hin'⟩
    rcases List.mem_append.mp he' with he' | he'
    · obtain ⟨hs, e'', he'', hin'', hend⟩ := h.cursor ⟨e', he', hin'⟩
      exact ⟨hs, e'', List.mem_append_left _ he'', hin'', hend⟩
    · rw [List.mem_singleton.mp he'] at hin'
      exact absurd hin' hout
  idle hno := h.idle fun e' he' => hno e' (List.mem_append_left _ he')

/-- One more entry of the scan: an available one is added to the array of areas, and becomes the
current one when it holds the first free byte; any other one is passed over. -/
theorem Scanned.scanEntry (h : Scanned first done la) (hstop : e.Available → e.stop < 2 ^ 64)
    (hscan : scanEntry first la e = some la') : Scanned first (done ++ [e]) la' := by
  have hmem : e ∈ done ++ [e] := List.mem_append_right _ (List.mem_singleton.mpr rfl)
  have hold : ∀ i < la.physMmAreaNum, ∃ e' ∈ done ++ [e], e'.Available ∧
      la.physMmAreaArr i = ⟨e'.addr, e'.addr + e'.len⟩ := by
    intro i hi
    obtain ⟨e', he', harea⟩ := h.areas i hi
    exact ⟨e', List.mem_append_left _ he', harea⟩
  unfold SumiOS.scanEntry at hscan
  by_cases havail : e.Available
  · -- The end of the entry does not wrap, so the test of the code is the one on numbers.
    have hnat : (e.addr + e.len).toNat = e.stop := MmapEntry.stop_toNat (hstop havail)
    have hholds : (first ≥ e.addr ∧ first < e.addr + e.len) ↔ e.Holds first.toNat := by
      rw [ge_iff_le, BitVec.le_def, BitVec.lt_def, hnat]
      rfl
    rw [if_pos havail] at hscan
    by_cases hfull : la.physMmAreaNum ≥ PHYS_MM_SEGS_NUM_MAX
    · rw [if_pos hfull] at hscan
      -- There is no room for another area, and the scan stops the machine.
      exact absurd hscan (by simp)
    · rw [if_neg hfull, Option.some.injEq] at hscan
      have hareas : ∀ i < la.physMmAreaNum + 1, ∃ e' ∈ done ++ [e], e'.Available ∧
          Function.update la.physMmAreaArr la.physMmAreaNum ⟨e.addr, e.addr + e.len⟩ i
            = ⟨e'.addr, e'.addr + e'.len⟩ := by
        intro i hi
        by_cases hin : i = la.physMmAreaNum
        · exact ⟨e, hmem, havail, by rw [hin, Function.update_self]⟩
        · rw [Function.update_of_ne hin]
          exact hold i (by omega)
      subst hscan
      by_cases hin : e.Holds first.toNat
      · dsimp only
        rw [if_pos (hholds.mpr hin)]
        exact ⟨hareas, h.idx, h.returned, fun _ => ⟨rfl, e, hmem, havail, hin, rfl⟩,
          fun hno => absurd hin (hno e hmem havail)⟩
      · dsimp only
        rw [if_neg fun hc => hin (hholds.mp hc)]
        exact h.skip hareas fun ha => hin ha.2
  · rw [if_neg havail, Option.some.injEq] at hscan
    subst hscan
    exact h.skip hold fun ha => havail ha.1

/-- The loop over all entries, by induction on them: the areas are those of the available entries
that were scanned, in their order. -/
theorem Scanned.foldlM (hstops : ∀ e ∈ entries, e.Available → e.stop < 2 ^ 64) (h : Scanned first done la)
    (hscan : entries.foldlM (SumiOS.scanEntry first) la = some la') :
    Scanned first (done ++ entries) la' := by
  induction entries generalizing done la with
  | nil =>
      obtain rfl : la = la' := Option.some.inj hscan
      rwa [List.append_nil]
  | cons e es ih =>
      rw [List.foldlM_cons] at hscan
      obtain ⟨la₁, hfirst, hrest⟩ := Option.bind_eq_some_iff.mp hscan
      have hstep := h.scanEntry (hstops e List.mem_cons_self) hfirst
      have hall := ih (fun e' he' => hstops e' (List.mem_cons_of_mem e he')) hstep hrest
      rwa [List.append_assoc] at hall

/-- After the loop, the areas are the available entries. -/
theorem scanned_entries (hstops : ∀ e ∈ entries, e.Available → e.stop < 2 ^ 64)
    (hscan : entries.foldlM (scanEntry first) LinearAlloc.static = some la) :
    Scanned first entries la := by
  have hstart : Scanned first [] LinearAlloc.static :=
    ⟨fun i hi => absurd hi (Nat.not_lt_zero i), rfl, rfl,
      fun ⟨e, he, _⟩ => absurd he List.not_mem_nil, fun _ => ⟨rfl, rfl⟩⟩
  exact hstart.foldlM hstops hscan

/-- The scan of a map whose entries are bounded leaves the available areas in the array, and the
cursor in the area of `first`. -/
theorem scanned_of_bounded (hbounded : ∀ e ∈ entries, e.stop ≤ 2 ^ 46)
    (hscan : entries.foldlM (scanEntry first) LinearAlloc.static = some la) :
    Scanned first entries la :=
  scanned_entries (fun e he _ => (hbounded e he).trans_lt (by decide)) hscan

/-- In a bounded memory map no available entry wraps around. -/
theorem MemoryMap.stops (hmap : MemoryMap (2 ^ 46) entries) :
    ∀ e ∈ entries, e.Available → e.stop < 2 ^ 64 :=
  fun e he _ => (hmap.bounded e he).trans_lt (by decide)

/-- Then the allocator is at the beginning of its work: its areas are valid, its cursor is the
first free byte, and nothing has been handed out that the invariant would speak of. -/
theorem linearInv_scanned (haddrs : ∀ e ∈ entries, e.Available → PageAligned e.addr)
    (hbounded : ∀ e ∈ entries, e.stop ≤ 2 ^ 46) (hfirst : PageAligned first)
    (hin : ∃ e ∈ entries, e.Available ∧ e.Holds first.toNat)
    (hscan : entries.foldlM (scanEntry first) LinearAlloc.static = some la) :
    LinearInv first la ∧ la.returned = [] := by
  have hdone := scanned_of_bounded hbounded hscan
  have hstop : ∀ e ∈ entries, (e.addr + e.len).toNat = e.stop ∧ e.stop ≤ 2 ^ 46 := by
    intro e he
    have hle := hbounded e he
    exact ⟨MmapEntry.stop_toNat (by omega), hle⟩
  obtain ⟨hs, e, he, -, hholds, hend⟩ := hdone.cursor hin
  refine ⟨⟨fun i hi => ?_, by rw [hdone.idx]; exact Nat.zero_le _, fun _ => ?_⟩, hdone.returned⟩
  · obtain ⟨e', he', havail, harea⟩ := hdone.areas i hi
    obtain ⟨hnat, hle⟩ := hstop e' he'
    rw [harea]
    exact ⟨haddrs e' he' havail, by rw [hnat]; exact Nat.le_add_right _ _, by rw [hnat]; exact hle⟩
  · obtain ⟨hnat, hle⟩ := hstop e he
    have hlt : first.toNat < e.stop := hholds.2
    rw [hs, hdone.returned, hend]
    exact ⟨hfirst, Nat.le_refl _, by omega, by omega, by omega, risen_nil _ _,
      fun _ hq => absurd hq List.not_mem_nil⟩

/-- The loop stays inside the array exactly when the available entries fit into the slots that are
left, by induction on the entries. -/
theorem foldlM_scanEntry_isSome (first : Word) (entries : List MmapEntry) (la : LinearAlloc)
    (hnum : la.physMmAreaNum ≤ PHYS_MM_SEGS_NUM_MAX) :
    (entries.foldlM (scanEntry first) la).isSome ↔
      la.physMmAreaNum + entries.countP (fun e => decide e.Available) ≤ PHYS_MM_SEGS_NUM_MAX := by
  induction entries generalizing la with
  | nil => simpa [Option.isSome] using hnum
  | cons e es ih =>
      rw [List.foldlM_cons, List.countP_cons]
      by_cases havail : e.Available
      · by_cases hfull : la.physMmAreaNum ≥ PHYS_MM_SEGS_NUM_MAX
        · -- The array is full, and one more entry would be written behind it.
          have hnone : scanEntry first la e = none := by
            rw [scanEntry, if_pos havail, if_pos hfull]
          rw [hnone, if_pos (decide_eq_true havail)]
          refine iff_of_false (by simp) ?_
          omega
        · -- There is room, and the entry is written behind the others.
          obtain ⟨la', hsome, hnum'⟩ : ∃ la', scanEntry first la e = some la' ∧
              la'.physMmAreaNum = la.physMmAreaNum + 1 := by
            rw [scanEntry, if_pos havail, if_neg hfull]
            refine ⟨_, rfl, ?_⟩
            dsimp only
            split
            · rfl
            · rfl
          rw [hsome, if_pos (decide_eq_true havail)]
          show (es.foldlM (scanEntry first) la').isSome ↔ _
          rw [ih la' (by omega), hnum']
          omega
      · have hsome : scanEntry first la e = some la := by
          rw [scanEntry, if_neg havail]
        rw [hsome, if_neg (by simpa using havail)]
        exact ih la hnum

end Scan

/-! ### The allocations -/

section Allocs

variable {bootMemAllocStart kernPgtable : Word} {entries : List MmapEntry}
  {visits : List (MmapEntry × Word)} {mem : Mem} {b : Buddy} {st : InitState}

/-- The record of the results grows at its front. -/
theorem linearAllocs_log (n : Nat) (la : LinearAlloc) : la.returned <:+ (linearAllocs n la).returned :=
  log_iterate mmInitPhysAllocLinear_returned n la

/-- When no allocation failed, none of the earlier ones did. -/
theorem linearAllocs_ok (n : Nat) {la : LinearAlloc} (hok : 0 ∉ (linearAllocs n la).returned) :
    0 ∉ la.returned :=
  fun hm => hok ((linearAllocs_log n la).subset hm)

/-- A mapping call of the initialisation takes at most three pages from the linear allocator. -/
theorem mmInitPgtableMap_allocs (m : Mem) (la : LinearAlloc) (pgtable va pa attr : Word) :
    ∃ n ≤ 3, (mmInitPgtableMap m la pgtable va pa attr).2 = linearAllocs n la :=
  pgtableMap_allocs KERNEL_DIRECT_MAPPING_AREA (fun la => mmInitPhysAllocLinear la PAGE_SIZE) m la
    pgtable va pa attr

/-- So does a round of the first loop, which is one such call. -/
theorem mapDirect_allocs (kernPgtable : Word) (st : InitState) (pa : Word) :
    ∃ n ≤ 3, (mapDirect kernPgtable st pa).la = linearAllocs n st.la :=
  mmInitPgtableMap_allocs st.mem st.la kernPgtable (physToKernelDirectMappingAddr pa) pa
    (PAGE_ATTR_RW ||| PAGE_ATTR_P)

/-- A frame needs at most three tables and a page for its page struct. -/
theorem initFrame_allocs (kernPgtable : Word) (st : InitState) (v : MmapEntry × Word) :
    ∃ n ≤ 4, (initFrame kernPgtable st v).la = linearAllocs n st.la := by
  show ∃ n ≤ 4, (backPage kernPgtable st (pageVa (frameIdx v.2))).la = linearAllocs n st.la
  unfold backPage
  split
  · obtain ⟨n, hle, hn⟩ := mmInitPgtableMap_allocs st.mem (mmInitPhysAllocLinear st.la PAGE_SIZE).1
      kernPgtable (pageVa (frameIdx v.2)) (mmInitPhysAllocLinear st.la PAGE_SIZE).2
      (PAGE_ATTR_P ||| PAGE_ATTR_RW)
    refine ⟨n + 1, by omega, hn.trans ?_⟩
    exact (Function.iterate_succ_apply _ n _).symm
  · exact ⟨0, by omega, rfl⟩

/-- A loop of steps that only allocate does nothing else to the linear allocator, by induction on
its rounds. -/
theorem foldl_allocs {α : Type} {f : InitState → α → InitState} (xs : List α)
    (hf : ∀ st x, ∃ n, (f st x).la = linearAllocs n st.la) (st : InitState) :
    ∃ n, (xs.foldl f st).la = linearAllocs n st.la := by
  induction xs generalizing st with
  | nil => exact ⟨0, rfl⟩
  | cons x xs ih =>
      obtain ⟨n, hn⟩ := hf st x
      obtain ⟨k, hk⟩ := ih (f st x)
      refine ⟨k + n, ?_⟩
      rw [List.foldl_cons, hk, hn]
      exact (Function.iterate_add_apply _ k n _).symm

/-- The first loop as a whole takes some number of pages, and does nothing else to the linear
allocator. -/
theorem mapDirects_allocs (kernPgtable : Word) (visits : List (MmapEntry × Word)) (st : InitState) :
    ∃ n, (visits.foldl (fun st v => mapDirect kernPgtable st v.2) st).la = linearAllocs n st.la :=
  foldl_allocs visits (fun st v => (mapDirect_allocs kernPgtable st v.2).imp fun _ h => h.2) st

/-- Neither does the second loop, so after both the allocator is where so many allocations bring
it. -/
theorem initFrames_allocs (kernPgtable : Word) (visits : List (MmapEntry × Word)) (st : InitState) :
    ∃ n, (visits.foldl (initFrame kernPgtable) st).la = linearAllocs n st.la :=
  foldl_allocs visits (fun st v => (initFrame_allocs kernPgtable st v).imp fun _ h => h.2) st

/-- Everything between the areas and the free loop only allocates pages, as far as the linear
allocator is concerned. -/
theorem beforeFree_allocs
    (h : beforeFree bootMemAllocStart kernPgtable entries visits mem b = some st) :
    ∃ la n, entries.foldlM (scanEntry bootMemAllocStart) LinearAlloc.static = some la ∧
      st.la = linearAllocs n la := by
  rw [beforeFree, Option.map_eq_some_iff] at h
  obtain ⟨la, hscan, rfl⟩ := h
  obtain ⟨n, hn⟩ := mapDirects_allocs kernPgtable visits ⟨mem, la, b⟩
  obtain ⟨k, hk⟩ := initFrames_allocs kernPgtable visits
    (visits.foldl (fun st v => mapDirect kernPgtable st v.2) ⟨mem, la, b⟩)
  refine ⟨la, k + n, hscan, ?_⟩
  show (visits.foldl (initFrame kernPgtable) _).la = _
  rw [hk, hn]
  exact (Function.iterate_add_apply _ k n _).symm

/-- When the frames are freed, the invariant of the linear allocator holds. -/
theorem beforeFree_linear (hmap : MemoryMap (2 ^ 46) entries) (hstart : PageAligned bootMemAllocStart)
    (hin : ∃ e ∈ entries, e.Available ∧ e.Holds bootMemAllocStart.toNat)
    (h : beforeFree bootMemAllocStart kernPgtable entries visits mem b = some st) :
    LinearInv bootMemAllocStart st.la := by
  obtain ⟨la, n, hscan, hla⟩ := beforeFree_allocs h
  obtain ⟨hinv, -⟩ := linearInv_scanned (fun e he _ => hmap.addrs e he) hmap.bounded hstart hin hscan
  rw [hla]
  exact hinv.allocs n

/-- `mm_pages_allocator_init` on a memory map comes to its end exactly when the
available entries fit into the array of the areas. -/
theorem mmPagesAllocatorInit_isSome {bound : Nat} (hmap : MemoryMap bound entries)
    (hbound : bound ≤ 2 ^ 64) :
    (mmPagesAllocatorInit bootMemAllocStart kernPgtable entries mem b).isSome ↔
      entries.countP (fun e => decide e.Available) ≤ PHYS_MM_SEGS_NUM_MAX := by
  rw [mmPagesAllocatorInit, allVisits_eq hmap.addrs hmap.lens
    fun e he => (hmap.bounded e he).trans hbound]
  simp only [beforeFree, Option.isSome_map]
  have hsome := foldlM_scanEntry_isSome bootMemAllocStart entries LinearAlloc.static (Nat.zero_le _)
  rw [hsome]
  show 0 + _ ≤ _ ↔ _
  rw [Nat.zero_add]

/-- `mm_pages_allocator_init` ends with the free loop, which works on what the loops before it have
left. -/
theorem mmPagesAllocatorInit_cases {bound : Nat} (hmap : MemoryMap bound entries) (hbound : bound ≤ 2 ^ 64)
    (h : mmPagesAllocatorInit bootMemAllocStart kernPgtable entries mem b = some st) :
    ∃ st₀, beforeFree bootMemAllocStart kernPgtable entries (visitsOf entries) mem b = some st₀ ∧
      st.la = st₀.la ∧ st.buddy = freeFrames (pageMapped st₀.mem kernPgtable) st₀.buddy
        (freedFrames entries st₀.la.mmAllocEnd) := by
  rw [mmPagesAllocatorInit, allVisits_eq hmap.addrs hmap.lens
    fun e he => (hmap.bounded e he).trans hbound] at h
  obtain ⟨st₀, hbefore, rfl⟩ := Option.map_eq_some_iff.mp h
  exact ⟨st₀, hbefore, rfl, foldl_freeFrame st₀.mem kernPgtable st₀.buddy⟩

end Allocs

end SumiOS
