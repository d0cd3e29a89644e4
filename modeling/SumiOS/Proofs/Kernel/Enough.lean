import Mathlib.Data.Finset.Card
import SumiOS.Proofs.Kernel.Final
import SumiOS.Proofs.Kernel.Start

/-!
# `SumiOS.Proofs.Kernel.Enough`: as long as frames are left

A frame is left when it is in no block that somebody has (`Kernel.Left`). Then it is in a free
block, so `alloc_pages(0)` succeeds, and one frame less is left. `mm_pgtable_map` does this at
most three times, so with three frames left no page for a table is missing
(`Kernel.mapPage_enough`). A client that asks often enough gets all of them
(`Kernel.Inv.run_exhausts`), and then `kmalloc` has to return NULL (`Kernel.Inv.kmalloc_null`).

The runs at the end are those of a machine with twelve frames, of which four are left when
`mm_init` comes to its end.
-/

set_option autoImplicit false

namespace SumiOS

open Lib

/-- The frames of `ram` that are in no block of a client, of a table or of a cache. -/
def Kernel.Left (ram : Set Int) (k : Kernel) (F : Finset Int) : Prop :=
  ∀ x, x ∈ F ↔ x ∈ ram ∧ ∀ c ∈ k.blocks, x ∉ c.frames

/-- A page for a table is taken. -/
def Kernel.takeTable (k : Kernel) : Kernel :=
  let r := logged mmPhysAllocPage (k.heap.kmem.buddy, k.tables)
  { k with heap := { k.heap with kmem := { k.heap.kmem with buddy := r.1.1 } }, tables := r.1.2 }

section Left

variable {ram : Set Int} {base : Word → Prop} {kernPgtable : Word} {walk : Word → Word}
  {k k' : Kernel} {P : Pool} {F : Finset Int} {p x : Int} {sz : Word} {n : Nat}

/-- One more block of one frame was taken. The frame was left before, and the frames that are left
now are the others. -/
theorem Kernel.Left.cons (hleft : k.Left ram F) (hblocks : k'.blocks.Perm (⟨p, 0⟩ :: k.blocks))
    (ho : k'.ghost.Owns ram P) : p ∈ F ∧ k'.Left ram (F.erase p) := by
  obtain ⟨hapart, -, -, hcover, -⟩ := Kernel.tiled ho
  have hmem : ⟨p, 0⟩ ∈ k'.blocks := hblocks.mem_iff.mpr List.mem_cons_self
  have hram : p ∈ ram := (hcover p).mpr ⟨_, Or.inl hmem, (frames_page p).mpr rfl⟩
  have hold : ∀ c ∈ k.blocks, p ∉ c.frames := by
    intro c hc hp
    have hpair := (hblocks.pairwise_iff fun h => Block.apart_comm.mp h).mp hapart
    have hne := (List.pairwise_cons.mp hpair).1 c hc
    rw [Block.apart_iff_disjoint] at hne
    exact Set.disjoint_left.mp hne ((frames_page p).mpr rfl) hp
  refine ⟨(hleft p).mpr ⟨hram, hold⟩, fun x => ?_⟩
  rw [Finset.mem_erase, hleft x]
  simp only [hblocks.mem_iff, List.forall_mem_cons, frames_page]
  exact and_left_comm

/-- While a frame is left, `alloc_pages(0)` returns one, because a free block of any order can be
split. -/
theorem Kernel.Left.alloc (hleft : k.Left ram F) (ho : k.ghost.Owns ram P) (hne : F.Nonempty) :
    ∃ p, (allocPages k.heap.kmem.buddy 0).2 = some p := by
  obtain ⟨-, -, -, hcover, hnone⟩ := Kernel.tiled ho
  obtain ⟨x, hx⟩ := hne
  obtain ⟨hram, hout⟩ := (hleft x).mp hx
  obtain ⟨c, hc, hxc⟩ := (hcover x).mp hram
  have hfree := hc.resolve_left fun hin => hout c hin hxc
  rw [← Option.ne_none_iff_exists']
  exact fun h => absurd ((hnone 0).mp h c hfree) (Nat.not_lt_zero _)

/-- When no frame is left, no block is free. -/
theorem Kernel.Left.no_free (hleft : k.Left ram ∅) (ho : k.ghost.Owns ram P) (c : Block) :
    ¬ FreeBlock k.heap.kmem.buddy c := by
  intro hfree
  obtain ⟨-, -, hbetween, hcover, -⟩ := Kernel.tiled ho
  refine Finset.notMem_empty c.start ((hleft c.start).mpr ⟨?_, fun d hd hmem => ?_⟩)
  · exact (hcover c.start).mpr ⟨c, Or.inr hfree, c.start_mem⟩
  · have hne := hbetween d hd c hfree
    rw [Block.apart_iff_disjoint] at hne
    exact Set.disjoint_left.mp hne hmem c.start_mem

/-! ### Tables -/

/-- A page for a table is a frame that was left, and all other frames that were left still are. Its
address is not the one that the source returns for a failure. -/
theorem Kernel.takeTable_left (hleft : k.Left ram F) (ho : k.ghost.Owns ram P)
    (haligned : ∀ q ∈ k.tables, PageAligned q) (hne : F.Nonempty) (hok : -1 ∉ k.tables) :
    -1 ∉ k.takeTable.tables ∧ (∀ q ∈ k.takeTable.tables, PageAligned q) ∧
      (∃ P', k.takeTable.ghost.Owns ram P') ∧ ∃ p, p ∈ F ∧ k.takeTable.Left ram (F.erase p) := by
  obtain ⟨p, hp⟩ := hleft.alloc ho hne
  have hpage : (mmPhysAllocPage k.heap.kmem.buddy).2 = pageToPhys p := by
    rw [mmPhysAllocPage]
    cases halloc : allocPages k.heap.kmem.buddy 0 with
    | mk b r =>
        rw [halloc] at hp
        obtain rfl : r = some p := hp
        rfl
  have htables : k.takeTable.tables = pageToPhys p :: k.tables := by
    rw [← hpage]
    rfl
  -- A frame of `ram` has an address of 64 bits, and it is not the one that stands for failure.
  have hstep : k.ghost.step (.allocPages 0) = some _ := rfl
  obtain ⟨P₁, -, ho₁⟩ := ho.step hstep
  have hheld : ⟨p, 0⟩ ∈ heldBlocks
      (.block 0 (allocPages k.heap.kmem.buddy 0).2 :: k.ghost.answers) := by
    rw [hp]
    exact List.mem_cons_self
  have hphys := ho₁.inv.physical ⟨p, 0⟩ (Or.inl (List.mem_append_left _ hheld))
  have hfirst : 0 ≤ p := hphys.1
  have hlast : p + 2 ^ 0 ≤ (2 : Int) ^ 52 := hphys.2
  obtain ⟨halign, hframe⟩ := pageToPhys_spec hfirst (by omega)
  have hne : pageToPhys p ≠ -1 := fun e => absurd (e ▸ halign) (by decide)
  have hmore : -1 ∉ k.takeTable.tables := by
    rw [htables, List.mem_cons, not_or]
    exact ⟨fun e => hne e.symm, hok⟩
  have hcall : logged mmPhysAllocPage (k.heap.kmem.buddy, k.tables)
      = ((k.takeTable.heap.kmem.buddy, k.takeTable.tables), pageToPhys p) :=
    Prod.ext rfl hpage
  obtain ⟨haligned', ho'⟩ := Heap.Owns.allocTable ho haligned hcall hne
  refine ⟨hmore, haligned', ⟨_, ho'⟩, p, hleft.cons ?_ ho'⟩
  have hblocks : k.takeTable.blocks = heldBlocks k.heap.answers ++
      (⟨p, 0⟩ :: k.tables.map tableBlock) ++ k.heap.kmem.slubs.map fun q => slubBlock q.1 q.2 := by
    rw [Kernel.blocks, htables, List.map_cons, tableBlock, hframe]
    rfl
  rw [hblocks, Kernel.blocks, List.append_assoc, List.append_assoc]
  exact List.perm_middle

/-- So many pages, when so many frames are left: none of the calls fails, and the frames that are
left become as many fewer. -/
theorem Kernel.takeTables_left (n : Nat) (hleft : k.Left ram F) (ho : k.ghost.Owns ram P)
    (haligned : ∀ q ∈ k.tables, PageAligned q) (hn : n ≤ F.card) (hok : -1 ∉ k.tables) :
    -1 ∉ ((fun t => (logged mmPhysAllocPage t).1)^[n] (k.heap.kmem.buddy, k.tables)).2 := by
  induction n generalizing k P F with
  | zero => exact hok
  | succ n ih =>
      have hne : F.Nonempty := Finset.card_pos.mp (by omega)
      obtain ⟨hok', haligned', ⟨P', ho'⟩, p, hp, hleft'⟩ :=
        Kernel.takeTable_left hleft ho haligned hne hok
      rw [Function.iterate_succ_apply]
      refine ih hleft' ho' haligned' ?_ hok'
      rw [Finset.card_erase_of_mem hp]
      omega

/-- With three frames left, no page for a table is missing. -/
theorem Kernel.mapPage_enough (hleft : k.Left ram F) (hI : k.Inv ram base kernPgtable walk)
    (hn : 3 ≤ F.card) (hok : -1 ∉ k.tables) (c : MapCall) :
    -1 ∉ (k.mapPage kernPgtable c).tables := by
  obtain ⟨P, ho⟩ := hI.heap
  obtain ⟨n, hle, hcalls⟩ := pgtableMap_allocs KERNEL_DIRECT_MAPPING_AREA (logged mmPhysAllocPage)
    k.heap.kmem.mem (k.heap.kmem.buddy, k.tables) kernPgtable c.va c.pa c.attr
  have htables : (k.mapPage kernPgtable c).tables
      = ((fun t => (logged mmPhysAllocPage t).1)^[n] (k.heap.kmem.buddy, k.tables)).2 :=
    congrArg Prod.snd hcalls
  rw [htables]
  exact Kernel.takeTables_left n hleft ho hI.aligned (hle.trans hn) hok

/-! ### Clients -/

/-- A client asks for a frame while one is left, and gets it: the free lists hold the frames that
are left, whatever the orders of their blocks. -/
theorem Kernel.Inv.alloc_left (hI : k.Inv ram base kernPgtable walk) (hleft : k.Left ram F)
    (hbase : ∀ q, base q → PageAligned q ∧ pageOf q ∉ ram) (hne : F.Nonempty)
    (hok : -1 ∉ k.tables) :
    ∃ p k', k.step kernPgtable (.client (.allocPages 0)) = some k' ∧ p ∈ F ∧
      k'.Left ram (F.erase p) ∧ k'.heap.answers = .block 0 (some p) :: k.heap.answers ∧
      k'.heap.kmem.slubs = k.heap.kmem.slubs ∧ k'.tables = k.tables ∧
      k'.Inv ram base kernPgtable walk := by
  obtain ⟨P, ho⟩ := hI.heap
  obtain ⟨p, hp⟩ := hleft.alloc ho hne
  obtain ⟨k', hk'⟩ : ∃ k' : Kernel, k' = { k with heap := ⟨{ k.heap.kmem with
      buddy := (allocPages k.heap.kmem.buddy 0).1 }, .block 0 (some p) :: k.heap.answers⟩ } := ⟨_, rfl⟩
  have hstep : k.step kernPgtable (.client (.allocPages 0)) = some k' := by
    rw [hk', ← hp]
    rfl
  have hanswers : k'.heap.answers = .block 0 (some p) :: k.heap.answers := by rw [hk']
  have hslubs : k'.heap.kmem.slubs = k.heap.kmem.slubs := by rw [hk']
  have htables : k'.tables = k.tables := by rw [hk']
  have hI' := hI.step hbase hstep (htables ▸ hok)
  obtain ⟨P', ho'⟩ := hI'.heap
  have hblocks : k'.blocks = ⟨p, 0⟩ :: k.blocks := by
    rw [Kernel.blocks, Kernel.blocks, hanswers, hslubs, htables]
    rfl
  obtain ⟨hmem, hleft'⟩ := hleft.cons (List.Perm.of_eq hblocks) ho'
  exact ⟨p, k', hstep, hmem, hleft', hanswers, hslubs, htables, hI'⟩

/-- A client that asks often enough gets all frames, one with each call. The induction is on the
number of frames that are left. -/
theorem Kernel.Inv.run_exhausts (hI : k.Inv ram base kernPgtable walk) (hleft : k.Left ram F)
    (hbase : ∀ q, base q → PageAligned q ∧ pageOf q ∉ ram) (hok : -1 ∉ k.tables)
    (hcard : F.card = n) :
    ∃ k', Lib.run (Kernel.step kernPgtable) k (List.replicate n (.client (.allocPages 0))) = some k' ∧
      k'.Left ram ∅ ∧ k'.heap.kmem.slubs = k.heap.kmem.slubs ∧ k'.tables = k.tables ∧
      k'.Inv ram base kernPgtable walk := by
  induction n generalizing k F with
  | zero =>
      obtain rfl := Finset.card_eq_zero.mp hcard
      exact ⟨k, rfl, hleft, rfl, rfl, hI⟩
  | succ n ih =>
      have hne : F.Nonempty := Finset.card_pos.mp (by omega)
      obtain ⟨p, k₁, hstep, hp, hleft₁, -, hslubs₁, htables₁, hI₁⟩ := hI.alloc_left hleft hbase hne hok
      obtain ⟨k', hrun, hleft', hslubs', htables', hI'⟩ := ih hI₁ hleft₁ (htables₁ ▸ hok) (by
        rw [Finset.card_erase_of_mem hp]
        omega)
      refine ⟨k', ?_, hleft', hslubs'.trans hslubs₁, htables'.trans htables₁, hI'⟩
      rw [List.replicate_succ]
      exact run_cons.mpr ⟨k₁, hstep, hrun⟩

/-- When no frame is left and the caches have no block, `kmalloc` returns NULL. -/
theorem Kernel.Inv.kmalloc_null (hI : k.Inv ram base kernPgtable walk) (hleft : k.Left ram ∅)
    (hnull : ∀ q ∈ ram, slubAddr q ≠ 0) (hslubs : k.heap.kmem.slubs = [])
    (hsz : sz ≤ KMALLOC_MAX_CACHE_SIZE) : ∃ s', SumiOS.kmalloc k.heap.kmem sz = some (s', 0) := by
  obtain ⟨P, ho⟩ := hI.heap
  obtain ⟨i, hi, hindex, -⟩ := slubIndex_spec hsz
  refine (ho.toSimulates.kmalloc_null_iff hnull hsz hindex).mpr
    ((ho.inv.outOfObjects_iff hi).mpr ⟨?_, fun m _ hm => ?_⟩)
  · -- An object of the chain would be in a block of the cache.
    refine List.eq_nil_iff_forall_not_mem.mpr fun y hy => ?_
    obtain ⟨q, hq, -⟩ := ho.inv.member i y (List.mem_append_left _ hy)
    have hnone : P.slubs = [] := ho.inv.slubs.symm.trans hslubs
    rw [hnone] at hq
    exact absurd hq List.not_mem_nil
  · refine List.eq_nil_iff_forall_not_mem.mpr fun q hq => ?_
    exact hleft.no_free ho ⟨q, m⟩
      ((freeBlock_iff hasFreelists_kernelHeads ho.inv.blockInv.rep).mpr ⟨hm, hq⟩)

/-- A call of `kmalloc` is always a step, with some answer, and it takes no page for a table. -/
theorem Kernel.Inv.kmalloc_step (hI : k.Inv ram base kernPgtable walk) (sz : Word) :
    ∃ k', k.step kernPgtable (.client (.kmalloc sz)) = some k' ∧ k'.tables = k.tables := by
  obtain ⟨r, hr⟩ := hI.kmalloc sz
  refine ⟨{ k with heap := ⟨r.1, .object sz r.2 :: k.heap.answers⟩ }, ?_, rfl⟩
  rw [Kernel.step, Heap.step, hr]
  rfl

/-- A client writes to a byte that somebody holds. -/
theorem Kernel.write_step {a : Word} {v : BitVec 8} (hheld : ∃ r ∈ k.heap.held, r.Holds a) :
    ∃ k', k.step kernPgtable (.client (.write a v)) = some k' ∧ k'.tables = k.tables := by
  obtain ⟨r, hr, ha⟩ := hheld
  have hany : k.heap.held.any (·.Holds a) = true := List.any_eq_true.mpr ⟨r, hr, decide_eq_true ha⟩
  obtain ⟨h, hh⟩ : ∃ h, k.heap.step (.write a v) = some h := ⟨_, if_pos hany⟩
  refine ⟨{ k with heap := h }, ?_, rfl⟩
  rw [Kernel.step, hh]
  rfl

/-- After `mm_init`, all frames that were freed are left. -/
theorem Kernel.left_start {entries : List MmapEntry} {la : LinearAlloc} {s₁ : Kmem}
    (hslubs : s₁.slubs = []) :
    (Kernel.start s₁).Left (freedSet entries la) (freedFrames entries la.mmAllocEnd).toFinset := by
  have hnone : (Kernel.start s₁).blocks = [] := by
    show [] ++ s₁.slubs.map _ = []
    rw [hslubs]
    rfl
  intro x
  rw [List.mem_toFinset, hnone]
  exact ⟨fun hx => ⟨hx, fun c hc => absurd hc List.not_mem_nil⟩, fun h => h.1⟩

end Left

/-! ### Runs of the small machine -/

/-- A page of a process, far from the areas of the kernel. -/
def smallCall : MapCall := ⟨0x400000, 0x811000, PAGE_ATTR_P ||| PAGE_ATTR_RW⟩

/-- The small machine frees four frames, those behind the hole, and its initialization succeeds; so
the counts below are small numbers. -/
theorem smallMap_few :
    ∃ la s₁, mmInit smallInfo 0x10000 0x800000 0x1000 1 3 smallKmem = some (la, s₁) ∧
      0 ∉ la.returned ∧
      Separated topOrder [] (freedFrames (mapEntries smallInfo 0x10008 24 2) la.mmAllocEnd) ∧
      s₁.slubs = [] ∧
      (freedFrames (mapEntries smallInfo 0x10008 24 2) la.mmAllocEnd).toFinset.card = 4 := by
  obtain ⟨la, s₁, hinit, hok, hend, hslubs⟩ := smallMap_mmInit
  refine ⟨la, s₁, hinit, hok, ?_, hslubs, ?_⟩
  · rw [smallInfo_entries, hend]
    decide
  · rw [smallInfo_entries, hend]
    decide

/-- A client gets a frame, and a page is mapped, for which the other three frames are enough. Then
the client writes to its frame, and there is a call of `kmalloc`. -/
theorem smallMap_run :
    ∃ la s₁ k k' x, mmInit smallInfo 0x10000 0x800000 0x1000 1 3 smallKmem = some (la, s₁) ∧
      0 ∉ la.returned ∧
      Separated topOrder [] (freedFrames (mapEntries smallInfo 0x10008 24 2) la.mmAllocEnd) ∧
      run (Kernel.step 0x1000) (Kernel.start s₁) [.client (.allocPages 0), .map smallCall] = some k ∧
      (∃ r ∈ k.heap.held, r.Holds x) ∧
      run (Kernel.step 0x1000) k [.client (.write x 0x5a), .client (.kmalloc 64)] = some k' ∧
      -1 ∉ k.tables ∧ -1 ∉ k'.tables := by
  obtain ⟨la, s₁, hinit, hok, hsep, hslubs, hcard⟩ := smallMap_few
  have hready := mmInit_initialized smallInfo_bootInfo smallInfo_prepared hinit hok hsep
  obtain ⟨p, k₁, hstep, hp, hleft, hanswers, -, hnil, hI₁⟩ := hready.inv.alloc_left
    (Kernel.left_start hslubs) hready.apart (Finset.card_pos.mp (by omega)) List.not_mem_nil
  have hcall : smallCall.Valid ∧ ownEntry (pgdEntry smallCall.va) = false := by decide
  have htables : -1 ∉ (k₁.mapPage 0x1000 smallCall).tables := by
    refine Kernel.mapPage_enough hleft hI₁ ?_ (hnil ▸ List.not_mem_nil) smallCall
    rw [Finset.card_erase_of_mem hp]
    omega
  have hmap : k₁.step 0x1000 (.map smallCall) = some (k₁.mapPage 0x1000 smallCall) := by
    rw [Kernel.step, if_pos hcall]
  have hrun : run (Kernel.step 0x1000) (Kernel.start s₁) [.client (.allocPages 0), .map smallCall]
      = some (k₁.mapPage 0x1000 smallCall) :=
    run_cons.mpr ⟨k₁, hstep, run_cons.mpr ⟨_, hmap, rfl⟩⟩
  -- The client still has its frame.
  have hheld : ∃ r ∈ (k₁.mapPage 0x1000 smallCall).heap.held, r.Holds (slubAddr p) := by
    refine ⟨blockRegion ⟨p, 0⟩, List.mem_filterMap.mpr ⟨.block 0 (some p), ?_, rfl⟩, ?_⟩
    · show _ ∈ k₁.heap.answers
      rw [hanswers]
      exact List.mem_cons_self
    · show (slubAddr p - slubAddr p).toNat < 4096
      rw [BitVec.sub_self]
      decide
  generalize k₁.mapPage 0x1000 smallCall = k at *
  have hI := hready.inv.run hready.apart hrun htables
  obtain ⟨k₂, hwrite, hsame₂⟩ := Kernel.write_step hheld
  have htables₂ : -1 ∉ k₂.tables := hsame₂.symm ▸ htables
  obtain ⟨k', hlast, hsame⟩ := (hI.step hready.apart hwrite htables₂).kmalloc_step 64
  have hrun' : run (Kernel.step 0x1000) k [.client (.write (slubAddr p) 0x5a), .client (.kmalloc 64)]
      = some k' :=
    run_cons.mpr ⟨k₂, hwrite, run_cons.mpr ⟨k', hlast, rfl⟩⟩
  exact ⟨la, s₁, k, k', slubAddr p, hinit, hok, hsep, hrun, hheld, hrun', htables,
    hsame.symm ▸ htables₂⟩

/-- A client gets all four frames, and then there is a call of `kmalloc`. -/
theorem smallMap_exhausted :
    ∃ la s₁ k k', mmInit smallInfo 0x10000 0x800000 0x1000 1 3 smallKmem = some (la, s₁) ∧
      0 ∉ la.returned ∧
      Separated topOrder [] (freedFrames (mapEntries smallInfo 0x10008 24 2) la.mmAllocEnd) ∧
      run (Kernel.step 0x1000) (Kernel.start s₁) (List.replicate 4 (.client (.allocPages 0))) = some k ∧
      (∃ s', kmalloc k.heap.kmem 33 = some (s', 0)) ∧
      run (Kernel.step 0x1000) k [.client (.kmalloc 8192), .client (.kmalloc 64)] = some k' ∧
      -1 ∉ k'.tables := by
  obtain ⟨la, s₁, hinit, hok, hsep, hslubs, hcard⟩ := smallMap_few
  have hready := mmInit_initialized smallInfo_bootInfo smallInfo_prepared hinit hok hsep
  obtain ⟨k, hrun, hleft, hnone, hnil, hI⟩ := hready.inv.run_exhausts (Kernel.left_start hslubs) hready.apart
    List.not_mem_nil hcard
  have htables : -1 ∉ k.tables := hnil ▸ List.not_mem_nil
  have hnull : ∃ s', kmalloc k.heap.kmem 33 = some (s', 0) := hI.kmalloc_null hleft
    (fun q hq => freedSet_slubAddr smallInfo_prepared.map hq) (hnone.trans hslubs) (by decide)
  obtain ⟨k₁, hfirst, hsame₁⟩ := hI.kmalloc_step 8192
  have htables₁ : -1 ∉ k₁.tables := hsame₁.symm ▸ htables
  obtain ⟨k', hlast, hsame⟩ := (hI.step hready.apart hfirst htables₁).kmalloc_step 64
  have hrun' : run (Kernel.step 0x1000) k [.client (.kmalloc 8192), .client (.kmalloc 64)] = some k' :=
    run_cons.mpr ⟨k₁, hfirst, run_cons.mpr ⟨k', hlast, rfl⟩⟩
  exact ⟨la, s₁, k, k', hinit, hok, hsep, hrun, hnull, hrun', hsame.symm ▸ htables₁⟩

end SumiOS
