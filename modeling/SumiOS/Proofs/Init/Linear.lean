import SumiOS.MmInit
import SumiOS.Proofs.PageTable.Map

/-!
# `SumiOS.Proofs.Init.Linear`: the linear allocator

`mm_init_phys_alloc_linear` hands out the pages of one area, and slides to an area
further up when it has run out. `Cursor` is what holds while no allocation has
failed: the results are different pages in front of the cursor, and all of them
lie below the end of the current area. `LinearInv.allocs` carries it through any
number of page allocations.
-/

set_option autoImplicit false

namespace SumiOS

open Lib

/-- The state after `n` allocations of a page. -/
abbrev linearAllocs (n : Nat) (la : LinearAlloc) : LinearAlloc :=
  (fun la => (mmInitPhysAllocLinear la PAGE_SIZE).1)^[n] la

/-- The mapper of `mm_init.c` is the common mapper, with its tables seen through the direct mapping
area and its pages from the linear allocator. -/
theorem mmInitPgtableMap_eq :
    mmInitPgtableMap =
      pgtableMap KERNEL_DIRECT_MAPPING_AREA (fun la => mmInitPhysAllocLinear la PAGE_SIZE) := rfl

/-! ### One allocation -/

/-- Where the cursor is after a successful allocation: behind the page, or at the
start of an area further up. -/
inductive Advance (la la' : LinearAlloc) : Prop
  | ahead (hstart : la'.mmAllocStart = la.mmAllocStart + PAGE_SIZE)
      (hend : la'.mmAllocEnd = la.mmAllocEnd) (hroom : la'.mmAllocStart < la'.mmAllocEnd)
  | slide (i : Nat) (hi : i < la.physMmAreaNum)
      (hge : la.mmAllocEnd ≤ (la.physMmAreaArr i).start)
      (hstart : la'.mmAllocStart = (la.physMmAreaArr i).start)
      (hend : la'.mmAllocEnd = (la.physMmAreaArr i).stop)

/-- Where the cursor is after a failed allocation: where it was, or behind the last
page of the last area. -/
inductive Stuck (la la' : LinearAlloc) : Prop
  | same (hstart : la'.mmAllocStart = la.mmAllocStart) (hend : la'.mmAllocEnd = la.mmAllocEnd)
  | spent (hroom : PAGE_SIZE + la.mmAllocStart ≤ la.mmAllocEnd)
      (hstart : la'.mmAllocStart = la.mmAllocStart + PAGE_SIZE)
      (hend : la'.mmAllocEnd = la.mmAllocEnd)

/-- What every allocation leaves alone. -/
structure SameAreas (la la' : LinearAlloc) : Prop where
  arr : la'.physMmAreaArr = la.physMmAreaArr
  num : la'.physMmAreaNum = la.physMmAreaNum
  returned : la'.returned = la.returned

/-- The slide passes the areas that start below the end of the current one. It ends
behind the last area, or at the first area that starts at or behind that end. -/
theorem slideArea_first (n : Nat) : ∀ la : LinearAlloc,
    ((∀ j, la.physMmAreaIdx ≤ j → j < la.physMmAreaIdx + n →
        (la.physMmAreaArr j).start < la.mmAllocEnd) ∧
      slideArea la n = { la with physMmAreaIdx := la.physMmAreaIdx + n }) ∨
    ∃ i, la.physMmAreaIdx ≤ i ∧ i < la.physMmAreaIdx + n ∧
      (∀ j, la.physMmAreaIdx ≤ j → j < i → (la.physMmAreaArr j).start < la.mmAllocEnd) ∧
      la.mmAllocEnd ≤ (la.physMmAreaArr i).start ∧
      slideArea la n = { la with
        physMmAreaIdx := i
        mmAllocStart := (la.physMmAreaArr i).start
        mmAllocEnd := (la.physMmAreaArr i).stop } := by
  induction n with
  | zero => exact fun la => Or.inl ⟨fun j h1 h2 => by omega, rfl⟩
  | succ n ih =>
      intro la
      rw [slideArea]
      by_cases h : (la.physMmAreaArr la.physMmAreaIdx).start ≥ la.mmAllocEnd
      · exact Or.inr ⟨la.physMmAreaIdx, le_refl _, by omega, fun j h1 h2 => by omega, h, if_pos h⟩
      · simp only [h, if_false]
        -- The area at the index is passed, and the rest is the slide from the next one.
        have hpass : ∀ {m}, (∀ j, la.physMmAreaIdx + 1 ≤ j → j < m →
            (la.physMmAreaArr j).start < la.mmAllocEnd) →
            ∀ j, la.physMmAreaIdx ≤ j → j < m → (la.physMmAreaArr j).start < la.mmAllocEnd := by
          intro m hrest j h1 h2
          rcases Nat.eq_or_lt_of_le h1 with heq | hlt
          · rw [← heq]
            exact BitVec.not_le.mp h
          · exact hrest j hlt h2
        rcases ih { la with physMmAreaIdx := la.physMmAreaIdx + 1 } with
          ⟨hrest, he⟩ | ⟨i, hle, hi, hrest, hge, he⟩
        · refine Or.inl ⟨hpass fun j h1 h2 => hrest j h1 (by simp only; omega), he.trans ?_⟩
          rw [Nat.add_assoc, Nat.add_comm 1 n]
        · dsimp only at hle hi
          exact Or.inr ⟨i, by omega, by omega, hpass hrest, hge, he⟩

/-- Sliding to the next area changes the cursor and leaves the array of areas. -/
theorem slideArea_same (n : Nat) : ∀ la : LinearAlloc, SameAreas la (slideArea la n) := by
  induction n with
  | zero => exact fun la => ⟨rfl, rfl, rfl⟩
  | succ n ih =>
      intro la
      rw [slideArea]
      split
      · exact ⟨rfl, rfl, rfl⟩
      · obtain ⟨harr, hnum, hreturned⟩ := ih { la with physMmAreaIdx := la.physMmAreaIdx + 1 }
        exact ⟨harr, hnum, hreturned⟩

/-- So does an allocation of any size: whether it stays in its area, moves on or fails, the array
of areas is the one from before. -/
theorem allocLinear_same (la : LinearAlloc) (sz : Word) : SameAreas la (allocLinear la sz).1 := by
  have hrefl : SameAreas la la := ⟨rfl, rfl, rfl⟩
  rw [allocLinear]
  dsimp only
  split
  · exact hrefl
  · split
    · exact hrefl
    · split
      · obtain ⟨harr, hnum, hreturned⟩ := slideArea_same (la.physMmAreaNum - la.physMmAreaIdx)
          { la with mmAllocStart := la.mmAllocStart + align sz PAGE_SIZE }
        split
        · exact ⟨harr, hnum, hreturned⟩
        · exact ⟨harr, hnum, hreturned⟩
      · exact ⟨rfl, rfl, rfl⟩

/-- A page allocation fails, or gives the page at the cursor and moves on. -/
theorem allocLinear_cases {la : LinearAlloc} (hidx : la.physMmAreaIdx ≤ la.physMmAreaNum) :
    let r := allocLinear la PAGE_SIZE
    r.1.physMmAreaIdx ≤ la.physMmAreaNum ∧ (r.2 = 0 ∧ Stuck la r.1 ∨
      r.2 = la.mmAllocStart ∧ PAGE_SIZE + la.mmAllocStart ≤ la.mmAllocEnd ∧ Advance la r.1) := by
  have halign : align PAGE_SIZE PAGE_SIZE = PAGE_SIZE := by decide
  have hall : la.physMmAreaIdx + (la.physMmAreaNum - la.physMmAreaIdx) = la.physMmAreaNum := by
    omega
  rw [allocLinear, if_neg (by decide), halign]
  by_cases hbig : PAGE_SIZE + la.mmAllocStart > la.mmAllocEnd
  · rw [if_pos hbig]
    exact ⟨hidx, Or.inl ⟨rfl, .same rfl rfl⟩⟩
  · rw [if_neg hbig]
    have hroom := BitVec.not_lt.mp hbig
    dsimp only
    split
    · rcases slideArea_first (la.physMmAreaNum - la.physMmAreaIdx)
        { la with mmAllocStart := la.mmAllocStart + PAGE_SIZE } with
        ⟨-, he⟩ | ⟨i, -, hi, -, hge, he⟩
      · -- The loop has run out of areas.
        rw [he, if_pos hall]
        exact ⟨hall.le, Or.inl ⟨rfl, .spent hroom rfl rfl⟩⟩
      · have hi : i < la.physMmAreaNum := by
          rwa [hall] at hi
        rw [he, if_neg hi.ne]
        exact ⟨hi.le, Or.inr ⟨rfl, hroom, .slide i hi hge rfl rfl⟩⟩
    · rename_i hmore
      exact ⟨hidx, Or.inr ⟨rfl, hroom, .ahead rfl rfl (BitVec.not_le.mp hmore)⟩⟩

/-- Each call puts its result at the head of the record, NULL as well. -/
theorem mmInitPhysAllocLinear_returned (la : LinearAlloc) :
    (mmInitPhysAllocLinear la PAGE_SIZE).1.returned =
      (mmInitPhysAllocLinear la PAGE_SIZE).2 :: la.returned := by
  show _ :: (allocLinear la PAGE_SIZE).1.returned = _
  rw [(allocLinear_same la PAGE_SIZE).returned]
  rfl

/-! ### Any number of allocations -/

/-- The cursor, the end of its area and the results, while no allocation has
failed. All areas end at most at `2 ^ 46`, so nothing wraps around. -/
structure Cursor (first : Word) (start stop : Word) (log : List Word) : Prop where
  aligned : PageAligned start
  ahead : first.toNat ≤ start.toNat
  below : first.toNat < stop.toNat
  start_le : start.toNat ≤ 2 ^ 46
  stop_le : stop.toNat ≤ 2 ^ 46
  risen : Risen first.toNat start.toNat log
  ends : ∀ q ∈ log, q.toNat < stop.toNat

/-- An area of a memory map that ends at most at `2 ^ 46`. -/
structure PhysMmArea.Valid (area : PhysMmArea) : Prop where
  aligned : PageAligned area.start
  le : area.start.toNat ≤ area.stop.toNat
  stop_le : area.stop.toNat ≤ 2 ^ 46

/-- What holds of the linear allocator after any number of allocations. -/
structure LinearInv (first : Word) (la : LinearAlloc) : Prop where
  areas : ∀ i < la.physMmAreaNum, (la.physMmAreaArr i).Valid
  idx : la.physMmAreaIdx ≤ la.physMmAreaNum
  cursor : 0 ∉ la.returned → Cursor first la.mmAllocStart la.mmAllocEnd la.returned

section Inv

variable {first : Word} {la la' : LinearAlloc}

/-- A successful allocation moves the cursor up, inside the area or to the start of the next one,
so that the page that was handed out lies below the new cursor and above all earlier ones. -/
theorem Cursor.advance (h : Cursor first la.mmAllocStart la.mmAllocEnd la.returned)
    (hinv : LinearInv first la) (hroom : PAGE_SIZE + la.mmAllocStart ≤ la.mmAllocEnd)
    (hadv : Advance la la') :
    Cursor first la'.mmAllocStart la'.mmAllocEnd (la.mmAllocStart :: la.returned) := by
  have hsize : PAGE_SIZE.toNat = 4096 := rfl
  have hstart := h.start_le
  have hstop := h.stop_le
  have hroom : 4096 + la.mmAllocStart.toNat ≤ la.mmAllocEnd.toNat := by
    have hle := BitVec.le_def.mp hroom
    rw [BitVec.toNat_add, hsize] at hle
    omega
  -- All pages handed out lie below the end of the area.
  have hends : ∀ stop, la.mmAllocEnd.toNat ≤ stop → ∀ q ∈ la.mmAllocStart :: la.returned,
      q.toNat < stop := by
    intro stop hle
    refine List.forall_mem_cons.mpr ⟨by omega, fun q hq => ?_⟩
    have hlt := h.ends q hq
    omega
  have hahead := h.ahead
  have hbelow := h.below
  cases hadv with
  | ahead hs he _ =>
      have hnat : la'.mmAllocStart.toNat = la.mmAllocStart.toNat + 4096 := by
        rw [hs, BitVec.toNat_add, hsize]
        omega
      have hmod := h.aligned.toNat_mod
      rw [he]
      exact ⟨pageAligned_iff.mpr (by omega), by omega, hbelow, by omega, hstop,
        h.risen.push h.aligned hahead (Nat.le_refl _) (by omega), hends _ (Nat.le_refl _)⟩
  | slide i hi hge hs he =>
      -- The next area starts behind the end of this one.
      obtain ⟨haligned, hle, hbound⟩ := hinv.areas i hi
      have hge := BitVec.le_def.mp hge
      rw [hs, he]
      exact ⟨haligned, by omega, by omega, by omega, hbound,
        h.risen.push h.aligned hahead (Nat.le_refl _) (by omega), hends _ (by omega)⟩

/-- One more allocation keeps the invariant: the areas stay valid, the index stays in the array,
and while nothing fails the cursor stays above everything that was handed out. -/
theorem LinearInv.alloc (h : LinearInv first la) :
    LinearInv first (mmInitPhysAllocLinear la PAGE_SIZE).1 := by
  obtain ⟨hidx, hcase⟩ := allocLinear_cases h.idx
  have hsame := allocLinear_same la PAGE_SIZE
  have hret := mmInitPhysAllocLinear_returned la
  refine ⟨?_, ?_, fun hok => ?_⟩
  · show ∀ i < (allocLinear la PAGE_SIZE).1.physMmAreaNum, _
    rw [hsame.num]
    intro i hi
    show ((allocLinear la PAGE_SIZE).1.physMmAreaArr i).Valid
    rw [hsame.arr]
    exact h.areas i hi
  · show _ ≤ (allocLinear la PAGE_SIZE).1.physMmAreaNum
    rw [hsame.num]
    exact hidx
  · rw [hret] at hok ⊢
    obtain ⟨hne, hold⟩ := not_or.mp fun hor => hok (List.mem_cons.mpr hor)
    obtain ⟨hchunk, hroom, hadv⟩ := hcase.resolve_left fun h0 => hne h0.1.symm
    have hnext := (h.cursor hold).advance h hroom hadv
    rw [← hchunk] at hnext
    exact hnext

/-- The invariant of the linear allocator holds after any number of pages. -/
theorem LinearInv.allocs (h : LinearInv first la) (n : Nat) :
    LinearInv first (linearAllocs n la) := by
  induction n with
  | zero => exact h
  | succ n ih =>
      rw [linearAllocs, Function.iterate_succ_apply']
      exact ih.alloc

end Inv

end SumiOS
