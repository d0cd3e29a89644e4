import SumiOS.Proofs.Init.Mapping

/-!
# `SumiOS.Proofs.Init.Owned`: what the buddy system owns after the initialization

The free loop hands over the available frames from `mm_alloc_end` on, in ascending
order, and merging never moves the start of a block below the first of them
(`freed_ascended`). So the buddy system owns nothing that the boot phase uses
(`bootMemory_notFreed`), as the linear allocator has used nothing from
`mm_alloc_end` on. The frames between `mm_alloc_start` and `mm_alloc_end`, which were not
used either, are the subject of `SumiOS.Proofs.Init.Leftover`.
-/

set_option autoImplicit false

namespace SumiOS

open Lib

/-- The page structs of the frames that no loop visits read as not free. -/
def UnvisitedNotFree (entries : List MmapEntry) (b : Buddy) : Prop :=
  ∀ x, (∀ v ∈ visitsOf entries, pageOf v.2 ≠ x) → (b.pages x).isFree = false

/-- The page structs of the frames outside all entries read as not free. -/
def OutsideNotFree (entries : List MmapEntry) (b : Buddy) : Prop :=
  ∀ x, (∀ e ∈ entries, ¬ e.HasFrame x) → (b.pages x).isFree = false

/-- The first frame that starts at or behind an address. -/
def firstFrame (a : Word) : Int := ((a.toNat + 4095) / 4096 : Nat)

section Owned

variable {bootMemAllocStart kernPgtable : Word} {entries : List MmapEntry} {mem : Mem}
  {b : Buddy} {st : InitState} {bound : Nat}

/-- A frame is at or behind the first whole one exactly when its address is at or behind the given
one. -/
theorem firstFrame_le_iff {a : Word} {x : Int} : firstFrame a ≤ x ↔ (a.toNat : Int) ≤ 4096 * x := by
  unfold firstFrame
  omega

/-- When every entry ends in front of `2 ^ 64`, its frames are visited. -/
theorem OutsideNotFree.unvisited (h : OutsideNotFree entries b) (hmap : MemoryMap bound entries)
    (hbound : bound < 2 ^ 64) : UnvisitedNotFree entries b := by
  intro x hx
  refine h x fun e he hframe => ?_
  have hstop := (hmap.bounded e he).trans_lt hbound
  obtain ⟨w, hv, hw, -⟩ := (mem_visitsOf hmap).mpr ⟨he, hstop, hframe⟩
  exact hx _ hv hw

/-- After the free loop the lists are well formed, every freed frame is in a block, and
all blocks are between the first frame from `mm_alloc_end` on and the last one that
was freed. -/
theorem freed_ascended (hmap : MemoryMap bound entries) (hclear : UnvisitedNotFree entries b)
    {st₀ : InitState} (mapped : Int → Bool) (mmAllocEnd : Word)
    (h : beforeFree bootMemAllocStart kernPgtable entries (visitsOf entries) mem b = some st₀) :
    ∃ seq e, Ascended buddyHeads (freeFrames mapped st₀.buddy (freedFrames entries mmAllocEnd)) seq
        (firstFrame mmAllocEnd) e ∧
      (∀ x ∈ freedFrames entries mmAllocEnd, Covered seq x) ∧
      ∀ y, firstFrame mmAllocEnd ≤ y → (∀ x ∈ freedFrames entries mmAllocEnd, x < y) → e ≤ y := by
  have huntouched : Untouched mapped st₀.buddy [] :=
    beforeFree_untouched h hclear fun x hx => absurd hx List.not_mem_nil
  have hlower : ∀ x ∈ freedFrames entries mmAllocEnd, firstFrame mmAllocEnd ≤ x := by
    intro x hx
    obtain ⟨e, -, -, -, -, hle⟩ := (mem_freedFrames hmap).mp hx
    exact firstFrame_le_iff.mpr hle
  obtain ⟨seq, e, hA, -, hcover, hupper⟩ :=
    Ascended.free_frames mapped hasFreelists_buddyHeads (freedFrames entries mmAllocEnd)
      (huntouched.ascended (firstFrame mmAllocEnd)) (le_refl _) hlower (freedFrames_sorted hmap)
  exact ⟨seq, e, hA, hcover, hupper⟩

/-- No block starts below `mm_alloc_end`, and so no frame of a block lies below it. -/
theorem Ascended.frame_ge {H : Set Head} {b : Buddy} {seq : Head → List Int} {a : Word} {e y : Int}
    {c : Block} (hA : Ascended H b seq (firstFrame a) e) (hc : Listed seq c) (hy : y ∈ c.frames) :
    (a.toNat : Int) ≤ 4096 * y := by
  have hlower := hA.lower c hc
  rw [Block.mem_frames] at hy
  exact firstFrame_le_iff.mp (hlower.trans hy.1)

/-- The buddy system never owns memory that the boot phase uses: its blocks have no
frame below `boot_mem_alloc_start`, and none that the linear allocator handed out. -/
theorem bootMemory_notFreed (hmap : MemoryMap (2 ^ 46) entries)
    (hstart : PageAligned bootMemAllocStart)
    (hin : ∃ e ∈ entries, e.Available ∧ e.Holds bootMemAllocStart.toNat)
    (hclear : OutsideNotFree entries b)
    (h : mmPagesAllocatorInit bootMemAllocStart kernPgtable entries mem b = some st)
    (hok : 0 ∉ st.la.returned) :
    ∀ c, FreeBlock st.buddy c → ∀ y ∈ c.frames,
      (bootMemAllocStart.toNat : Int) ≤ 4096 * y ∧ ∀ q ∈ st.la.returned, pageOf q ≠ y := by
  obtain ⟨st₀, hbefore, hla, hbuddy⟩ := mmPagesAllocatorInit_cases hmap (by decide) h
  obtain ⟨seq, e, hA, -, -⟩ := freed_ascended hmap (hclear.unvisited hmap (by decide))
    (pageMapped st₀.mem kernPgtable) st₀.la.mmAllocEnd hbefore
  have hlinear := beforeFree_linear hmap hstart hin hbefore
  rw [hla] at hok ⊢
  have hcursor := hlinear.cursor hok
  intro c hc y hy
  rw [hbuddy] at hc
  have hge := hA.frame_ge ((freeBlock_iff hasFreelists_buddyHeads hA.rep).mp hc) hy
  have hbelow := hcursor.below
  refine ⟨by omega, fun q hq hqy => ?_⟩
  -- What was handed out is in front of the end of the current area.
  have hends := hcursor.ends q hq
  have hmod := (hcursor.risen.aligned q hq).toNat_mod
  rw [pageOf_eq] at hqy
  omega

end Owned

/-- The blocks that are left of `holeMap`: they have frames behind the first entry only, in which
all pages of the boot phase lie. -/
theorem bootMemory_notFreed_holeMap :
    ∃ st, mmPagesAllocatorInit 0x800000 0x1000 holeMap (fun _ => 0) cleared = some st ∧
      ∀ c, FreeBlock st.buddy c → ∀ y ∈ c.frames,
        ((0x800000 : Word).toNat : Int) ≤ 4096 * y ∧ ∀ q ∈ st.la.returned, pageOf q ≠ y := by
  obtain ⟨st, hst, hok, -⟩ := holeMap_run
  exact ⟨st, hst, bootMemory_notFreed holeMap_memoryMap (by decide) holeMap_start (fun _ _ => rfl)
    hst hok⟩

end SumiOS
