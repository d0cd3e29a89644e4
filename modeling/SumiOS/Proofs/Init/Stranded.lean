import SumiOS.Proofs.Init.AreaEnds

/-!
# `SumiOS.Proofs.Init.Stranded`: memory that the linear allocator cannot reach

`mm_init_phys_alloc_linear` moves to the next area only after an allocation that uses up
the current one exactly. When less than a page is left, or the area is empty, it stays
and fails for good, whatever the next areas have. When the last page of the last area is
taken, it fails as well, although it took the page.

`failsWhenFull_iff` says in which states a failure means that no memory is left
(`NotStranded`), and which memory maps lead to such states only (`UsesUpMap`). The first
part follows from one allocation (`mmInitPhysAllocLinear_null_iff`) and the invariants of
the cursor. The second one is an induction on the pages that are left, with the steps of
`CursorStep` on both sides.
-/

set_option autoImplicit false

namespace SumiOS

open Lib

/-- There is room for a page from `start` to `stop`. The difference of the words is the
length of an area also when its end wraps around to 0. -/
def HasRoom (start stop : Word) : Prop := PAGE_SIZE ≤ stop - start

instance (start stop : Word) : Decidable (HasRoom start stop) :=
  inferInstanceAs (Decidable (PAGE_SIZE ≤ stop - start))

/-- An area that starts at or behind the end of the current one has room for a page. -/
def LinearAlloc.RoomBehind (la : LinearAlloc) : Prop :=
  ∃ i < la.physMmAreaNum, la.mmAllocEnd ≤ (la.physMmAreaArr i).start ∧
    HasRoom (la.physMmAreaArr i).start (la.physMmAreaArr i).stop

/-- The allocation of a page fails only when no page is left in the current area or behind it. -/
def FailsWhenFull (la : LinearAlloc) : Prop :=
  (mmInitPhysAllocLinear la PAGE_SIZE).2 = 0 →
    ¬ HasRoom la.mmAllocStart la.mmAllocEnd ∧ ¬ la.RoomBehind

/-- The allocator can go on. With less than a page left no area behind has room, with one
page left there is an area to go on with, and with more the end of the area has not
wrapped around to 0. A page at address 0 cannot be told from a failure. -/
structure NotStranded (la : LinearAlloc) : Prop where
  less : la.mmAllocEnd - la.mmAllocStart < PAGE_SIZE → la.mmAllocStart ≠ -PAGE_SIZE → ¬ la.RoomBehind
  page : la.mmAllocEnd - la.mmAllocStart = PAGE_SIZE → la.mmAllocStart ≠ 0 ∧
    ∃ i, la.physMmAreaIdx ≤ i ∧ i < la.physMmAreaNum ∧ la.mmAllocEnd ≤ (la.physMmAreaArr i).start
  more : PAGE_SIZE < la.mmAllocEnd - la.mmAllocStart → la.mmAllocStart ≠ 0 ∧ la.mmAllocEnd ≠ 0

/-- The area from `start` to `stop` consists of whole pages, at least one. -/
def WholePages (start stop : Word) : Prop :=
  start < stop ∧ (stop.toNat - start.toNat) % 4096 = 0

/-- The areas that the allocator uses up lead to one with a rest, and no area behind that
one has room for a page. -/
def UsesUp (start stop : Word) : List PhysMmArea → Prop
  | [] => ¬ WholePages start stop
  | area :: areas =>
      if area.start < stop then UsesUp start stop areas
      else (WholePages start stop → UsesUp area.start area.stop areas) ∧
        (¬ WholePages start stop → ∀ area' ∈ area :: areas, ¬ HasRoom area'.start area'.stop)

instance UsesUp.decidable : ∀ (start stop : Word) (areas : List PhysMmArea),
    Decidable (UsesUp start stop areas)
  | _, _, [] => inferInstanceAs (Decidable (¬ (_ ∧ _)))
  | start, stop, area :: areas =>
      have := UsesUp.decidable start stop areas
      have := UsesUp.decidable area.start area.stop areas
      inferInstanceAs (Decidable (if area.start < stop then UsesUp start stop areas
        else (start < stop ∧ (stop.toNat - start.toNat) % 4096 = 0 → UsesUp area.start area.stop areas) ∧
          (¬ (start < stop ∧ (stop.toNat - start.toNat) % 4096 = 0) →
            ∀ area' ∈ area :: areas, ¬ HasRoom area'.start area'.stop)))

/-- The same from the address `first` on. Without an area to start in, no area has room. -/
def UsesUpMap (first : Word) (entries : List MmapEntry) : Prop :=
  match startEntry first entries with
  | none => ∀ area ∈ availableAreas entries, ¬ HasRoom area.start area.stop
  | some e => (first = 0 → ¬ HasRoom first (e.addr + e.len)) ∧
      UsesUp first (e.addr + e.len) (availableAreas entries)

/-! ### One allocation -/

section Step

variable {la : LinearAlloc}

/-- An allocation fails when the page does not fit, as the code compares, when it takes the
page at address 0, or when it uses up the area and finds no other one. -/
theorem mmInitPhysAllocLinear_null_iff (hidx : la.physMmAreaIdx ≤ la.physMmAreaNum) :
    (mmInitPhysAllocLinear la PAGE_SIZE).2 = 0 ↔
      la.mmAllocEnd < PAGE_SIZE + la.mmAllocStart ∨ la.mmAllocStart = 0 ∨
        la.mmAllocEnd ≤ la.mmAllocStart + PAGE_SIZE ∧
          ∀ i, la.physMmAreaIdx ≤ i → i < la.physMmAreaNum →
            (la.physMmAreaArr i).start < la.mmAllocEnd := by
  have halign : align PAGE_SIZE PAGE_SIZE = PAGE_SIZE := by decide
  have hall : la.physMmAreaIdx + (la.physMmAreaNum - la.physMmAreaIdx) = la.physMmAreaNum := by omega
  show (allocLinear la PAGE_SIZE).2 = 0 ↔ _
  rw [allocLinear, if_neg (by decide), halign]
  by_cases hbig : PAGE_SIZE + la.mmAllocStart > la.mmAllocEnd
  · rw [if_pos hbig]
    exact iff_of_true rfl (Or.inl hbig)
  · rw [if_neg hbig, or_iff_right hbig]
    dsimp only
    by_cases hslide : la.mmAllocStart + PAGE_SIZE ≥ la.mmAllocEnd
    · rw [if_pos hslide, and_iff_right hslide]
      -- The area is used up: the next one that starts behind it is taken.
      rcases slideArea_first (la.physMmAreaNum - la.physMmAreaIdx)
          { la with mmAllocStart := la.mmAllocStart + PAGE_SIZE } with
        ⟨hnone, he⟩ | ⟨i, hle, hi, -, hge, he⟩
      · dsimp only at hnone
        rw [hall] at hnone
        rw [he, if_pos hall]
        exact iff_of_true rfl (Or.inr hnone)
      · dsimp only at hle hi hge
        rw [hall] at hi
        rw [he, if_neg hi.ne]
        refine (or_iff_left fun hnone => ?_).symm
        exact BitVec.not_le.mpr (hnone i hle hi) hge
    · rw [if_neg hslide]
      exact (or_iff_left fun h => hslide h.1).symm

/-- With room for a page, a failure is never right. -/
theorem HasRoom.fails_iff (h : HasRoom la.mmAllocStart la.mmAllocEnd) :
    FailsWhenFull la ↔ (mmInitPhysAllocLinear la PAGE_SIZE).2 ≠ 0 :=
  ⟨fun hF h0 => (hF h0).1 h, fun hne h0 => absurd h0 hne⟩

/-- An end that lies a page or more behind the start leaves room, without any wrap-around to
consider. -/
theorem hasRoom_of_le {start stop : Word} (h : start.toNat + 4096 ≤ stop.toNat) :
    HasRoom start stop := by
  have hle : start ≤ stop := BitVec.le_def.mpr (by omega)
  have hsize : PAGE_SIZE.toNat = 4096 := rfl
  rw [HasRoom, BitVec.le_def, BitVec.toNat_sub_of_le hle, hsize]
  omega

/-- The cursor is not behind the end of its area, unless that end is 0. -/
def LinearAlloc.Ordered (la : LinearAlloc) : Prop :=
  la.mmAllocEnd ≠ 0 → la.mmAllocStart ≤ la.mmAllocEnd

/-- An allocation keeps the cursor in front of the end of its area: it either stays in the area or
moves on to one that starts behind. -/
theorem LinearAlloc.Ordered.alloc (h : la.Ordered) (hareas : AreasApart la)
    (hidx : la.physMmAreaIdx ≤ la.physMmAreaNum) :
    (mmInitPhysAllocLinear la PAGE_SIZE).1.Ordered := by
  show (allocLinear la PAGE_SIZE).1.mmAllocEnd ≠ 0 →
    (allocLinear la PAGE_SIZE).1.mmAllocStart ≤ (allocLinear la PAGE_SIZE).1.mmAllocEnd
  rcases (allocLinear_cases hidx).2 with ⟨-, hstuck⟩ | ⟨-, -, hadv⟩
  · cases hstuck with
    | same hs he =>
        rw [hs, he]
        exact h
    | spent hroom hs he =>
        rw [hs, he, BitVec.add_comm]
        exact fun _ => hroom
  · cases hadv with
    | ahead hs he hlt =>
        rw [hs, he]
        rw [hs, he] at hlt
        exact fun _ => BitVec.le_of_lt hlt
    | slide i hi hge hs he =>
        rw [hs, he]
        exact hareas.le i hi

/-- What is left of the current area, without a wrap. -/
theorem LinearAlloc.Ordered.left (h : la.Ordered) (hne : la.mmAllocEnd ≠ 0) :
    la.mmAllocStart.toNat ≤ la.mmAllocEnd.toNat ∧
      (la.mmAllocEnd - la.mmAllocStart).toNat = la.mmAllocEnd.toNat - la.mmAllocStart.toNat := by
  have hle := h hne
  exact ⟨BitVec.le_def.mp hle, BitVec.toNat_sub_of_le hle⟩

/-- No area in the last page of the address space has room for another page. -/
theorem AreasApart.not_roomBehind (h : AreasApart la) (hhigh : 2 ^ 64 - 4096 < la.mmAllocEnd.toNat) :
    ¬ la.RoomBehind := by
  rintro ⟨i, hi, hge, hroom⟩
  have hsize : PAGE_SIZE.toNat = 4096 := rfl
  have hge := BitVec.le_def.mp hge
  have hroom := BitVec.le_def.mp hroom
  rw [BitVec.toNat_sub, hsize] at hroom
  by_cases htop : (la.physMmAreaArr i).stop = 0
  · rw [htop] at hroom
    have hzero : (0 : Word).toNat = 0 := rfl
    omega
  · have hle := BitVec.le_def.mp (h.le i hi htop)
    omega

/-- The sum of the check. Past the last page of the address space it wraps around. -/
theorem toNat_page_add (start : Word) : (PAGE_SIZE + start).toNat =
    if start.toNat + 4096 < 2 ^ 64 then start.toNat + 4096 else start.toNat + 4096 - 2 ^ 64 := by
  have hsize : PAGE_SIZE.toNat = 4096 := rfl
  rw [BitVec.toNat_add, hsize]
  split <;> omega

/-- With less than a page left the allocator returns NULL and does not look further, so it must be
that no area behind has room. -/
theorem failsWhenFull_less (hareas : AreasApart la) (hord : la.Ordered)
    (hidx : la.physMmAreaIdx ≤ la.physMmAreaNum)
    (hless : la.mmAllocEnd - la.mmAllocStart < PAGE_SIZE) :
    FailsWhenFull la ↔ (la.mmAllocStart ≠ -PAGE_SIZE → ¬ la.RoomBehind) := by
  have hnull := mmInitPhysAllocLinear_null_iff hidx
  have hno : ¬ HasRoom la.mmAllocStart la.mmAllocEnd := BitVec.not_le.mpr hless
  have hsize : PAGE_SIZE.toNat = 4096 := rfl
  have hsum := toNat_page_add la.mmAllocStart
  unfold FailsWhenFull
  rw [and_iff_right hno]
  by_cases hlast : la.mmAllocStart = -PAGE_SIZE
  · -- The sum wraps around to 0, so the check passes, and the cursor stays in the area.
    refine iff_of_true (fun h0 => ?_) fun hne => absurd hlast hne
    rw [hlast] at hnull hless
    have hne : la.mmAllocEnd ≠ 0 := fun h0 => by
      rw [h0] at hless
      exact absurd hless (by decide)
    rcases hnull.mp h0 with hfull | hzero | ⟨hslide, -⟩
    · exact absurd hfull BitVec.not_lt_zero
    · exact absurd hzero (by decide)
    · exact absurd (BitVec.le_zero_iff.mp hslide) hne
  · rw [forall_prop_of_true hlast]
    constructor
    · intro hF hroom
      have hfits : ¬ la.mmAllocEnd < PAGE_SIZE + la.mmAllocStart := fun hfull =>
        hF (hnull.mpr (Or.inl hfull)) hroom
      have hfits := BitVec.le_def.mp (BitVec.not_lt.mp hfits)
      have hlow : la.mmAllocStart.toNat ≠ 2 ^ 64 - 4096 := fun h => hlast (BitVec.eq_of_toNat_eq h)
      -- The page fits in the check only, which wraps around in the last page.
      have hhigh : 2 ^ 64 - 4096 < la.mmAllocStart.toNat := by
        by_cases hzero : la.mmAllocEnd = 0
        · rw [hzero, hsum] at hfits
          have h0 : (0 : Word).toNat = 0 := rfl
          split at hfits <;> omega
        · obtain ⟨hle, hleft⟩ := hord.left hzero
          have hless := BitVec.lt_def.mp hless
          rw [hleft, hsize] at hless
          rw [hsum] at hfits
          split at hfits <;> omega
      have hne : la.mmAllocEnd ≠ 0 := fun hzero => by
        rw [hzero, hsum, if_neg (by omega)] at hfits
        have h0 : (0 : Word).toNat = 0 := rfl
        omega
      exact hareas.not_roomBehind (hhigh.trans_le (hord.left hne).1) hroom
    · exact fun hno _ => hno

/-- With exactly one page left the allocator must find an area to go on with, since otherwise it
returns NULL for the page that is there. -/
theorem failsWhenFull_page (hidx : la.physMmAreaIdx ≤ la.physMmAreaNum)
    (hpage : la.mmAllocEnd - la.mmAllocStart = PAGE_SIZE) :
    FailsWhenFull la ↔ la.mmAllocStart ≠ 0 ∧
      ∃ i, la.physMmAreaIdx ≤ i ∧ i < la.physMmAreaNum ∧ la.mmAllocEnd ≤ (la.physMmAreaArr i).start := by
  have hnull := mmInitPhysAllocLinear_null_iff hidx
  have hroom : HasRoom la.mmAllocStart la.mmAllocEnd := by
    rw [HasRoom, hpage]
    exact BitVec.le_refl _
  -- The check passes, and the page uses up the area.
  have hend : la.mmAllocEnd = PAGE_SIZE + la.mmAllocStart := by
    rw [← hpage, BitVec.sub_add_cancel]
  have hfits : ¬ la.mmAllocEnd < PAGE_SIZE + la.mmAllocStart := by
    rw [← hend]
    exact BitVec.lt_irrefl _
  have hslide : la.mmAllocEnd ≤ la.mmAllocStart + PAGE_SIZE := by
    rw [BitVec.add_comm, ← hend]
    exact BitVec.le_refl _
  rw [or_iff_right hfits, and_iff_right hslide] at hnull
  rw [hroom.fails_iff, Ne, hnull, not_or]
  refine and_congr_right fun _ => ?_
  simp only [not_forall, BitVec.not_lt, exists_prop]

/-- With more than a page left NULL can only come from an address 0 or an end that wrapped around
to 0. -/
theorem failsWhenFull_more (hord : la.Ordered) (hidx : la.physMmAreaIdx ≤ la.physMmAreaNum)
    (hmore : PAGE_SIZE < la.mmAllocEnd - la.mmAllocStart) :
    FailsWhenFull la ↔ la.mmAllocStart ≠ 0 ∧ la.mmAllocEnd ≠ 0 := by
  have hnull := mmInitPhysAllocLinear_null_iff hidx
  have hroom : HasRoom la.mmAllocStart la.mmAllocEnd := BitVec.le_of_lt hmore
  have hsize : PAGE_SIZE.toNat = 4096 := rfl
  have hsum := toNat_page_add la.mmAllocStart
  have hmore := BitVec.lt_def.mp hmore
  rw [hroom.fails_iff, Ne, hnull]
  by_cases hzero : la.mmAllocEnd = 0
  · -- The end has wrapped around, and the check fails.
    refine iff_of_false (not_not_intro (Or.inl ?_)) fun h => h.2 hzero
    have h0 : (0 : Word).toNat = 0 := rfl
    rw [BitVec.toNat_sub, hzero, hsize] at hmore
    rw [BitVec.lt_def, hsum, hzero]
    split <;> omega
  · -- More than a page is left, so only the cursor at address 0 makes the call fail.
    obtain ⟨hle, hleft⟩ := hord.left hzero
    rw [hleft, hsize] at hmore
    have hlt := la.mmAllocEnd.isLt
    rw [if_pos (by omega)] at hsum
    rw [and_iff_left hzero, not_iff_not]
    refine ⟨fun h => ?_, fun h => Or.inr (Or.inl h)⟩
    rcases h with hfull | hzero | ⟨hslide, -⟩
    · have hfull := BitVec.lt_def.mp hfull
      omega
    · exact hzero
    · have hslide := BitVec.le_def.mp hslide
      rw [BitVec.add_comm] at hslide
      omega

/-- In a state with these invariants, a failure means that no page is left exactly when the
allocator is not stranded. -/
theorem failsWhenFull_iff_notStranded (hareas : AreasApart la) (hord : la.Ordered)
    (hidx : la.physMmAreaIdx ≤ la.physMmAreaNum) : FailsWhenFull la ↔ NotStranded la := by
  constructor
  · intro hF
    exact ⟨fun h => (failsWhenFull_less hareas hord hidx h).mp hF,
      fun h => (failsWhenFull_page hidx h).mp hF, fun h => (failsWhenFull_more hord hidx h).mp hF⟩
  · rintro ⟨hless, hpage, hmore⟩
    by_cases hlt : la.mmAllocEnd - la.mmAllocStart < PAGE_SIZE
    · exact (failsWhenFull_less hareas hord hidx hlt).mpr (hless hlt)
    · by_cases heq : la.mmAllocEnd - la.mmAllocStart = PAGE_SIZE
      · exact (failsWhenFull_page hidx heq).mpr (hpage heq)
      · have hgt : PAGE_SIZE < la.mmAllocEnd - la.mmAllocStart :=
          BitVec.lt_def.mpr (Nat.lt_of_le_of_ne (BitVec.le_def.mp (BitVec.not_lt.mp hlt)) fun h =>
            heq (BitVec.eq_of_toNat_eq h.symm))
        exact (failsWhenFull_more hord hidx hgt).mpr (hmore hgt)

end Step

/-! ### The areas behind the current one -/

section Areas

variable {la : LinearAlloc} {start stop : Word} {area : PhysMmArea} {areas : List PhysMmArea}

/-- A page taken from the middle of an area does not change which areas are used up after it. -/
theorem usesUp_ahead (h : start.toNat + 4096 < stop.toNat) :
    UsesUp start stop areas ↔ UsesUp (start + PAGE_SIZE) stop areas := by
  have hlt := stop.isLt
  have hsize : PAGE_SIZE.toNat = 4096 := rfl
  have hnat : (start + PAGE_SIZE).toNat = start.toNat + 4096 := by
    rw [BitVec.toNat_add, hsize]
    omega
  have hwhole : WholePages start stop ↔ WholePages (start + PAGE_SIZE) stop := by
    unfold WholePages
    rw [BitVec.lt_def, BitVec.lt_def, hnat]
    omega
  induction areas with
  | nil => exact not_congr hwhole
  | cons area areas ih =>
      rw [UsesUp, UsesUp]
      by_cases hskip : area.start < stop
      · rw [if_pos hskip, if_pos hskip]
        exact ih
      · rw [if_neg hskip, if_neg hskip, hwhole]

/-- With one page left, the first area behind decides: the allocator goes on with it, and without
such an area the last page is refused. -/
theorem usesUp_last (areas : List PhysMmArea) (h : start.toNat + 4096 = stop.toNat) :
    UsesUp start stop areas ↔
      match areas.dropWhile fun a => decide (a.start < stop) with
      | [] => False
      | a :: rest => UsesUp a.start a.stop rest := by
  have hwhole : WholePages start stop := ⟨BitVec.lt_def.mpr (by omega), by omega⟩
  induction areas with
  | nil => exact iff_of_false (not_not_intro hwhole) id
  | cons area areas ih =>
      rw [UsesUp]
      by_cases hskip : area.start < stop
      · rw [if_pos hskip, List.dropWhile_cons_of_pos (by simpa using hskip)]
        exact ih
      · rw [if_neg hskip, List.dropWhile_cons_of_neg (by simpa using hskip)]
        exact ⟨fun h => h.1 hwhole, fun h => ⟨fun _ => h, fun hno => absurd hwhole hno⟩⟩

/-- With a rest that is no page, the allocator stays. -/
theorem usesUp_rest (areas : List PhysMmArea) (h : ¬ WholePages start stop) :
    UsesUp start stop areas ↔
      ∀ a ∈ areas.dropWhile (fun a => decide (a.start < stop)), ¬ HasRoom a.start a.stop := by
  induction areas with
  | nil => exact iff_of_true h (by simp)
  | cons area areas ih =>
      rw [UsesUp]
      by_cases hskip : area.start < stop
      · rw [if_pos hskip, ih, List.dropWhile_cons_of_pos (by simpa using hskip)]
      · rw [if_neg hskip, List.dropWhile_cons_of_neg (by simpa using hskip)]
        exact ⟨fun hand => hand.2 h, fun hall => ⟨fun hwhole => absurd hwhole h, fun _ => hall⟩⟩

/-- The area that the cursor is in is not one behind it, so it may be left out of the areas that
are to come. -/
theorem usesUp_self (h : area.start ≤ area.stop) (hasc : ∀ a ∈ areas, area.start ≤ a.start) :
    UsesUp area.start area.stop (area :: areas) ↔ UsesUp area.start area.stop areas := by
  by_cases hlt : area.start < area.stop
  · rw [UsesUp, if_pos hlt]
  · have heq : area.stop = area.start := BitVec.le_antisymm (BitVec.not_lt.mp hlt) h
    have hnot : ¬ WholePages area.start area.stop := fun hwhole => hlt hwhole.1
    have hempty : ¬ HasRoom area.start area.stop := by
      rw [HasRoom, heq, BitVec.sub_self]
      decide
    have hkeep : areas.dropWhile (fun a => decide (a.start < area.stop)) = areas := by
      cases areas with
      | nil => rfl
      | cons a as =>
          refine List.dropWhile_cons_of_neg ?_
          rw [heq]
          simpa using hasc a List.mem_cons_self
    rw [usesUp_rest _ hnot, usesUp_rest _ hnot, hkeep, List.dropWhile_cons_of_neg (by simpa using hlt),
      List.forall_mem_cons]
    exact and_iff_right hempty

/-- The areas that are left are in ascending order. -/
theorem AreasApart.rest_ascending (h : AreasApart la) :
    la.rest.Pairwise fun a a' => a.start ≤ a'.start := by
  unfold LinearAlloc.rest
  refine List.pairwise_map.mpr ((List.pairwise_lt_range' 1).imp_of_mem fun _ hj hij => ?_)
  rw [List.mem_range'_1] at hj
  exact h.ascending _ _ hij (by omega)

/-- In ascending order, the areas behind an address are the last ones, so that passing over the
first ones finds exactly these. -/
theorem mem_dropWhile_ascending (hasc : areas.Pairwise fun a a' => a.start ≤ a'.start) :
    area ∈ areas.dropWhile (fun a => decide (a.start < stop)) ↔ area ∈ areas ∧ stop ≤ area.start := by
  induction areas with
  | nil => simp
  | cons a as ih =>
      obtain ⟨hfirst, hrest⟩ := List.pairwise_cons.mp hasc
      by_cases hskip : a.start < stop
      · rw [List.dropWhile_cons_of_pos (by simpa using hskip), ih hrest, List.mem_cons]
        refine and_congr_left fun hge => (or_iff_right fun heq => ?_).symm
        rw [heq] at hge
        exact BitVec.not_le.mpr hskip hge
      · rw [List.dropWhile_cons_of_neg (by simpa using hskip)]
        refine (and_iff_left_of_imp fun hmem => ?_).symm
        have hge := BitVec.not_lt.mp hskip
        rcases List.mem_cons.mp hmem with rfl | hmem
        · exact hge
        · exact BitVec.le_trans hge (hfirst area hmem)

/-- The areas behind the current one are left: those that were passed start below its end. -/
theorem EndState.roomBehind_iff (h : EndState la) (hareas : AreasApart la) (hne : la.mmAllocEnd ≠ 0) :
    la.RoomBehind ↔ ∃ a : PhysMmArea, a ∈ la.later ∧ HasRoom a.start a.stop := by
  have hpassed : ∀ i < la.physMmAreaIdx, (la.physMmAreaArr i).start < la.mmAllocEnd := by
    cases h with
    | idle hstart hend => exact absurd hend hne
    | within hpassed hclear => exact hpassed
    | top hend hidx harea => exact absurd hend hne
  have hmem : ∀ a, a ∈ la.later ↔ a ∈ la.rest ∧ la.mmAllocEnd ≤ a.start := fun a =>
    mem_dropWhile_ascending hareas.rest_ascending
  simp only [hmem, LinearAlloc.mem_rest]
  constructor
  · rintro ⟨i, hi, hge, hroom⟩
    have hidx : la.physMmAreaIdx ≤ i := Nat.le_of_not_lt fun hlt =>
      BitVec.not_le.mpr (hpassed i hlt) hge
    exact ⟨_, ⟨⟨i, hidx, hi, rfl⟩, hge⟩, hroom⟩
  · rintro ⟨_, ⟨⟨i, -, hi, rfl⟩, hge⟩, hroom⟩
    exact ⟨i, hi, hge, hroom⟩

end Areas

/-! ### A run -/

section Run

variable {entries : List MmapEntry} {first : Word} {la : LinearAlloc}

/-- An allocation moves the cursor and leaves the array of areas as it is. -/
theorem AreasApart.alloc (h : AreasApart la) :
    AreasApart (mmInitPhysAllocLinear la PAGE_SIZE).1 := by
  have hsame := allocLinear_same la PAGE_SIZE
  have hnum : (mmInitPhysAllocLinear la PAGE_SIZE).1.physMmAreaNum = la.physMmAreaNum := hsame.num
  have harr : (mmInitPhysAllocLinear la PAGE_SIZE).1.physMmAreaArr = la.physMmAreaArr := hsame.arr
  obtain ⟨hasc, hapart, hle⟩ := h
  constructor <;> rw [hnum, harr] <;> assumption

/-- The order of cursor and end is kept over any number of allocations. -/
theorem LinearAlloc.Ordered.allocs (h : la.Ordered) (hE : EndState la) (hareas : AreasApart la)
    (hidx : la.physMmAreaIdx ≤ la.physMmAreaNum) (n : Nat) : (linearAllocs n la).Ordered := by
  induction n with
  | zero => exact h
  | succ n ih =>
      obtain ⟨-, hA, hI, -, -⟩ := hE.allocs hareas hidx n
      rw [linearAllocs, Function.iterate_succ_apply']
      exact ih.alloc hA hI

/-- All failures of a run are right when the first one is, and those of the rest are. -/
theorem forall_failsWhenFull : (∀ n, FailsWhenFull (linearAllocs n la)) ↔
    FailsWhenFull la ∧ ∀ n, FailsWhenFull (linearAllocs n (mmInitPhysAllocLinear la PAGE_SIZE).1) := by
  constructor
  · exact fun h => ⟨h 0, fun n => h (n + 1)⟩
  · rintro ⟨hzero, hsucc⟩ n
    cases n with
    | zero => exact hzero
    | succ n => exact hsucc n

/-- After a success the rest of the run decides. -/
theorem forall_failsWhenFull_next (hne : (mmInitPhysAllocLinear la PAGE_SIZE).2 ≠ 0) :
    (∀ n, FailsWhenFull (linearAllocs n la)) ↔
      ∀ n, FailsWhenFull (linearAllocs n (mmInitPhysAllocLinear la PAGE_SIZE).1) := by
  rw [forall_failsWhenFull]
  exact and_iff_right fun h0 => absurd h0 hne

/-- When the check fails and less than a page is left, nothing changes any more. -/
theorem forall_failsWhenFull_full (hfull : la.mmAllocEnd < PAGE_SIZE + la.mmAllocStart)
    (hno : ¬ HasRoom la.mmAllocStart la.mmAllocEnd) :
    (∀ n, FailsWhenFull (linearAllocs n la)) ↔ ¬ la.RoomBehind := by
  have hfail : ∀ la : LinearAlloc, la.mmAllocEnd < PAGE_SIZE + la.mmAllocStart →
      mmInitPhysAllocLinear la PAGE_SIZE = ({ la with returned := 0 :: la.returned }, 0) := by
    intro la hfull
    have halign : align PAGE_SIZE PAGE_SIZE = PAGE_SIZE := by decide
    rw [mmInitPhysAllocLinear, allocLinear, if_neg (by decide), halign, if_pos hfull]
  constructor
  · intro hall
    refine (hall 0 ?_).2
    show (mmInitPhysAllocLinear la PAGE_SIZE).2 = 0
    rw [hfail la hfull]
  · intro hbehind n
    induction n generalizing la with
    | zero => exact fun _ => ⟨hno, hbehind⟩
    | succ n ih =>
        have hsucc : linearAllocs (n + 1) la = linearAllocs n { la with returned := 0 :: la.returned } :=
          congrArg (fun r : LinearAlloc × Word => linearAllocs n r.1) (hfail la hfull)
        rw [hsucc]
        exact ih hfull hno hbehind

/-- In an area that ends below the last page of the address space, the check fails when less
than a page is left. -/
theorem InEntry.full (h : InEntry entries la) (hends : EndsBelow (2 ^ 64 - 4096) entries)
    (hlt : la.mmAllocEnd.toNat < la.mmAllocStart.toNat + 4096) :
    la.mmAllocEnd < PAGE_SIZE + la.mmAllocStart ∧ ¬ HasRoom la.mmAllocStart la.mmAllocEnd ∧
      ¬ WholePages la.mmAllocStart la.mmAllocEnd := by
  obtain ⟨e, he, havail, -, hstart, hend⟩ := h.cursor
  have hbound := hends e he havail
  have hsize : PAGE_SIZE.toNat = 4096 := rfl
  have hle : la.mmAllocStart ≤ la.mmAllocEnd := BitVec.le_def.mpr (by omega)
  refine ⟨?_, ?_, ?_⟩
  · rw [BitVec.lt_def, toNat_page_add, if_pos (by omega)]
    exact hlt
  · rw [HasRoom, BitVec.le_def, BitVec.toNat_sub_of_le hle, hsize]
    omega
  · rintro ⟨hpos, hmod⟩
    have hpos := BitVec.lt_def.mp hpos
    omega

/-- Stuck in front of less than a page, the allocator is at its end: nothing behind may have room
for a page. -/
theorem InEntry.usesUp_full (h : InEntry entries la) (hends : EndsBelow (2 ^ 64 - 4096) entries)
    (hE : EndState la) (hareas : AreasApart la) (hne : la.mmAllocEnd ≠ 0)
    (hlt : la.mmAllocEnd.toNat < la.mmAllocStart.toNat + 4096) :
    (∀ n, FailsWhenFull (linearAllocs n la)) ↔ UsesUp la.mmAllocStart la.mmAllocEnd la.rest := by
  obtain ⟨hfull, hno, hwhole⟩ := h.full hends hlt
  rw [forall_failsWhenFull_full hfull hno, hE.roomBehind_iff hareas hne, usesUp_rest la.rest hwhole]
  simp only [not_exists, not_and]
  rfl

/-- The last page of the last area is taken with a failure. -/
theorem usesUp_stuck (hroom : la.mmAllocStart.toNat + 4096 = la.mmAllocEnd.toNat)
    (hlater : la.later = []) (hnull : (mmInitPhysAllocLinear la PAGE_SIZE).2 = 0) :
    (∀ n, FailsWhenFull (linearAllocs n la)) ↔ UsesUp la.mmAllocStart la.mmAllocEnd la.rest := by
  have hP := usesUp_last la.rest hroom
  unfold LinearAlloc.later at hlater
  rw [hlater] at hP
  refine iff_of_false (fun hall => ?_) hP.mp
  exact (hall 0 hnull).1 (hasRoom_of_le hroom.le)

/-- The last page of an area leads to the next one, whose first page is then the next to be handed
out. -/
theorem InEntry.usesUp_slide {area : PhysMmArea} {areas : List PhysMmArea} (h : InEntry entries la)
    (hends : EndsBelow (2 ^ 64 - 4096) entries) (hareas : AreasApart la)
    (hroom : la.mmAllocStart.toNat + 4096 = la.mmAllocEnd.toNat) (hlater : la.later = area :: areas) :
    UsesUp la.mmAllocStart la.mmAllocEnd la.rest ↔ UsesUp area.start area.stop (area :: areas) := by
  have hP := usesUp_last la.rest hroom
  have hsub : List.Sublist (area :: areas) la.rest := by
    rw [← hlater]
    exact List.dropWhile_sublist _
  obtain ⟨i, -, hi, rfl⟩ := LinearAlloc.mem_rest.mp (hsub.subset List.mem_cons_self)
  unfold LinearAlloc.later at hlater
  rw [hlater] at hP
  have hasc := List.pairwise_cons.mp (hareas.rest_ascending.sublist hsub)
  exact hP.trans (usesUp_self (h.area_valid hends hi) hasc.1).symm

/-- A success takes one of the pages that are left. -/
theorem InEntry.supply_shrinks (h : InEntry entries la) (hends : EndsBelow (2 ^ 64 - 4096) entries)
    (hpos : 0 < la.mmAllocStart.toNat) (hne : (mmInitPhysAllocLinear la PAGE_SIZE).2 ≠ 0) :
    (mmInitPhysAllocLinear la PAGE_SIZE).1.supply.length < la.supply.length := by
  have hdraws := h.draws hends hpos
  unfold Draws at hdraws
  dsimp only at hdraws
  obtain ⟨-, hsupply⟩ := hdraws.resolve_right fun h0 => hne h0.1
  rw [hsupply, List.length_cons]
  exact Nat.lt_succ_self _

/-- The pages that are left are the measure: each allocation takes one of them, and the
condition on the areas says the same before and after it. -/
theorem InEntry.usesUp_iff (h : InEntry entries la) (hends : EndsBelow (2 ^ 64 - 4096) entries)
    (hE : EndState la) (hareas : AreasApart la) (hpos : 0 < la.mmAllocStart.toNat) :
    (∀ n, FailsWhenFull (linearAllocs n la)) ↔ UsesUp la.mmAllocStart la.mmAllocEnd la.rest := by
  generalize hleft : la.supply.length = left
  induction left using Nat.strong_induction_on generalizing la with
  | _ left ih =>
      have hnext := h.alloc hends
      dsimp only at hnext
      obtain ⟨hInext, hmono, -⟩ := hnext
      -- A success leads to a state with fewer pages left.
      have hrest : (mmInitPhysAllocLinear la PAGE_SIZE).2 = la.mmAllocStart →
          ((∀ n, FailsWhenFull (linearAllocs n la)) ↔
            UsesUp (mmInitPhysAllocLinear la PAGE_SIZE).1.mmAllocStart
              (mmInitPhysAllocLinear la PAGE_SIZE).1.mmAllocEnd
              (mmInitPhysAllocLinear la PAGE_SIZE).1.rest) := by
        intro hchunk
        have hne : (mmInitPhysAllocLinear la PAGE_SIZE).2 ≠ 0 := by
          rw [hchunk]
          rintro h0
          rw [h0] at hpos
          exact absurd hpos (by decide)
        rw [forall_failsWhenFull_next hne]
        exact ih _ (hleft ▸ h.supply_shrinks hends hpos hne) hInext (hE.alloc hareas h.idx)
          hareas.alloc (by omega) rfl
      cases h.cursorStep hends with
      | full hroom hchunk _ _ _ =>
          have hne : la.mmAllocEnd ≠ 0 := by
            obtain ⟨e, -, -, -, hstop, hend⟩ := h.cursor
            rintro h0
            have hzero : (0 : Word).toNat = 0 := rfl
            rw [h0] at hend
            omega
          exact h.usesUp_full hends hE hareas hne hroom
      | ahead hroom hchunk hstart' hend' hrest' =>
          rw [hrest hchunk, hstart', hend', hrest']
          exact (usesUp_ahead hroom).symm
      | last hroom hlater hchunk _ _ => exact usesUp_stuck hroom hlater hchunk
      | slide area areas hroom hlater hchunk hstart' hend' hrest' =>
          rw [hrest hchunk, hstart', hend', hrest']
          exact (h.usesUp_slide hends hareas hroom hlater).symm

end Run

/-- Where the allocator starts: in the entry that holds the first address, with all available areas
in the array. -/
theorem cursor_scanned {first : Word} {entries : List MmapEntry} {la : LinearAlloc}
    (hscan : entries.foldlM (scanEntry first) LinearAlloc.static = some la) :
    la.rest = availableAreas entries ∧
      (startEntry first entries = none ∧ la.mmAllocStart = -1 ∧ la.mmAllocEnd = 0 ∨
        ∃ e, startEntry first entries = some e ∧ first < e.addr + e.len ∧
          la.mmAllocStart = first ∧ la.mmAllocEnd = e.addr + e.len) := by
  obtain ⟨-, -, hcursor⟩ := foldlM_scanEntry_areas hscan
  refine ⟨rest_scanned hscan, ?_⟩
  cases hstart : startEntry first entries with
  | none =>
      rw [hstart] at hcursor
      exact Or.inl ⟨rfl, (Prod.mk.inj hcursor).1, (Prod.mk.inj hcursor).2⟩
  | some e =>
      rw [hstart] at hcursor
      have hholds := List.find?_some hstart
      have hholds : e.Available ∧ first ≥ e.addr ∧ first < e.addr + e.len := of_decide_eq_true hholds
      exact Or.inr ⟨e, rfl, hholds.2.2, (Prod.mk.inj hcursor).1, (Prod.mk.inj hcursor).2⟩

/-- On a map that ends below the last page of the address space, all failures are right
exactly when the allocator uses up the map. -/
theorem forall_failsWhenFull_iff {first : Word} {entries : List MmapEntry} {la : LinearAlloc}
    (hmap : ByteMap (availableEntries entries)) (hends : EndsBelow (2 ^ 64 - 4096) entries)
    (hscan : entries.foldlM (scanEntry first) LinearAlloc.static = some la) :
    (∀ n, FailsWhenFull (linearAllocs n la)) ↔ UsesUpMap first entries := by
  obtain ⟨hE, hareas, hidx, hall⟩ := hmap.endState hscan
  obtain ⟨hrest, hcursor⟩ := cursor_scanned hscan
  unfold UsesUpMap
  rcases hcursor with ⟨hnone, hstart, hend⟩ | ⟨e, hsome, hlt, hstart, hend⟩
  · -- Without a start entry the cursor stays at 0, and every call fails.
    rw [hnone]
    have hfull : la.mmAllocEnd < PAGE_SIZE + la.mmAllocStart := by
      rw [hstart, hend]
      decide
    have hno : ¬ HasRoom la.mmAllocStart la.mmAllocEnd := by
      rw [hstart, hend]
      decide
    rw [forall_failsWhenFull_full hfull hno, LinearAlloc.RoomBehind, hend, ← hall]
    simp only [List.forall_mem_map, List.mem_range, not_exists, not_and]
    exact forall₂_congr fun i _ => forall_prop_of_true (BitVec.le_def.mpr (Nat.zero_le _))
  · rw [hsome]
    have hin : ∃ e ∈ entries, e.Available ∧ e.Holds first.toNat := by
      rw [← startEntry_ne_none hends, hsome]
      exact Option.some_ne_none e
    have hstops : ∀ e ∈ entries, e.Available → e.stop < 2 ^ 64 := fun e he havail =>
      (hends e he havail).trans (by decide)
    obtain ⟨hI, -⟩ := (scanned_entries hstops hscan).inEntry hends hin
    have hne : la.mmAllocEnd ≠ 0 := by
      rw [hend]
      exact fun h0 => BitVec.not_lt_zero (h0 ▸ hlt)
    dsimp only
    rw [← hrest, ← hend, ← hstart]
    by_cases hzero : la.mmAllocStart = 0
    · rw [forall_prop_of_true hzero]
      by_cases hroom : HasRoom la.mmAllocStart la.mmAllocEnd
      · -- The page at address 0 is taken for a failure.
        refine iff_of_false (fun hF => ?_) fun h => h.1 hroom
        have hnull := (mmInitPhysAllocLinear_null_iff hidx).mpr (Or.inr (Or.inl hzero))
        exact (hF 0 hnull).1 hroom
      · rw [and_iff_right hroom]
        refine hI.usesUp_full hends hE hareas hne ?_
        have hless := BitVec.lt_def.mp (BitVec.not_le.mp hroom)
        have hsize : PAGE_SIZE.toNat = 4096 := rfl
        have hwhole : la.mmAllocEnd - 0 = la.mmAllocEnd := BitVec.sub_zero _
        rw [hzero, hwhole, hsize] at hless
        omega
    · have hpos : 0 < la.mmAllocStart.toNat := Nat.pos_of_ne_zero fun h => hzero (BitVec.eq_of_toNat_eq h)
      rw [hI.usesUp_iff hends hE hareas hpos]
      exact (and_iff_right fun h0 => absurd h0 hzero).symm

/-- The linear allocator fails only when no memory is left, in every state of every run
that leads through states in which it is not stranded. Below the last page of the address
space these are the runs on the memory maps that it uses up. -/
theorem failsWhenFull_iff (first : Word) (entries : List MmapEntry) (la : LinearAlloc)
    (hmap : ByteMap (availableEntries entries))
    (hscan : entries.foldlM (scanEntry first) LinearAlloc.static = some la) :
    (∀ n, FailsWhenFull (linearAllocs n la) ↔ NotStranded (linearAllocs n la)) ∧
      (EndsBelow (2 ^ 64 - 4096) entries →
        ((∀ n, FailsWhenFull (linearAllocs n la)) ↔ UsesUpMap first entries)) := by
  obtain ⟨hE, hareas, hidx, -⟩ := hmap.endState hscan
  have hord : la.Ordered := by
    rcases (cursor_scanned hscan).2 with ⟨-, -, hend⟩ | ⟨e, -, hlt, hstart, hend⟩
    · exact fun hne => absurd hend hne
    · rw [LinearAlloc.Ordered, hstart, hend]
      exact fun _ => BitVec.le_of_lt hlt
  refine ⟨fun n => ?_, fun hends => forall_failsWhenFull_iff hmap hends hscan⟩
  obtain ⟨-, hareas', hidx', -, -⟩ := hE.allocs hareas hidx n
  exact failsWhenFull_iff_notStranded hareas' (hord.allocs hE hareas hidx n) hidx'

/-! ### An area with a rest -/

/-- Two areas. The second one has two pages and a half. -/
def twoAreas (len : Word) : List MmapEntry := [⟨0x800000, len, 1⟩, ⟨0x810000, 0x2800, 1⟩]

/-- The two areas lie apart in ascending order, whichever length the first one has up to the start
of the second. -/
theorem twoAreas_byteMap {len : Word} (hlen : len.toNat ≤ 0x10000) :
    ByteMap (availableEntries (twoAreas len)) := by
  have haddr : (0x800000 : Word).toNat = 0x800000 := rfl
  have hnext : (0x810000 : Word).toNat = 0x810000 := rfl
  have hstop : MmapEntry.stop ⟨0x800000, len, 1⟩ ≤ (0x810000 : Word).toNat := by
    unfold MmapEntry.stop
    dsimp only
    omega
  show ByteMap (twoAreas len)
  refine byteMap_of_stops (List.forall_mem_cons.mpr ⟨hstop.trans (by decide), by decide⟩) ?_
  exact List.pairwise_pair.mpr hstop

/-- The first area is used up after eight pages, and half a page is left of the second one, so that
in every state the allocator fails only when nothing is left. -/
theorem failsWhenFull_iff_twoAreas :
    ∃ la, (twoAreas 0x8000).foldlM (scanEntry 0x800000) LinearAlloc.static = some la ∧
      ∀ n, FailsWhenFull (linearAllocs n la) := by
  have hends : EndsBelow (2 ^ 64 - 4096) (twoAreas 0x8000) :=
    List.forall_mem_cons.mpr ⟨fun _ => by decide, List.forall_mem_singleton.mpr fun _ => by decide⟩
  refine ⟨_, rfl, ((failsWhenFull_iff 0x800000 (twoAreas 0x8000) _
    (twoAreas_byteMap (by decide)) rfl).2 hends).mpr ⟨fun h => absurd h (by decide), by decide⟩⟩

/-- With half a page left of the first area, the ninth allocation fails although the second area is
untouched: the allocator does not look behind an area with a remainder. -/
theorem not_failsWhenFull_twoAreas :
    ByteMap (availableEntries (twoAreas 0x8800)) ∧ ∃ la,
      (twoAreas 0x8800).foldlM (scanEntry 0x800000) LinearAlloc.static = some la ∧
      ¬ FailsWhenFull (linearAllocs 8 la) := by
  refine ⟨twoAreas_byteMap (by decide), _, rfl, fun hF => ?_⟩
  have hbehind := (hF (by decide)).2
  exact hbehind ⟨1, by decide, by decide, by decide⟩

end SumiOS
