import SumiOS.Proofs.Init.Supply
import SumiOS.Proofs.Init.Loops

/-!
# `SumiOS.Proofs.Init.AreaEnds`: the end of the current area

`mm_alloc_end` is 0 before the first area, and then the end of an area. It is never
strictly inside one, since the areas do not overlap, and the areas that the allocator
has passed start below it. This holds on every memory map with boundaries at any byte
address (`ByteMap`), also when the end of an area wraps around to 0 (`EndState`).

`EndState.alloc` is the step lemma, `EndState.allocs` its iteration, and
`ByteMap.endState` the start.
-/

set_option autoImplicit false

namespace SumiOS

open Lib

/-- A memory map with boundaries at any byte address: the entries do not overlap, and are
in ascending order. -/
structure ByteMap (entries : List MmapEntry) : Prop where
  bounded : ∀ e ∈ entries, e.stop ≤ 2 ^ 64
  ascending : entries.Pairwise fun e e' => e.addr ≤ e'.addr
  disjoint : entries.Pairwise fun e e' => ∀ a, ¬ (e.Holds a ∧ e'.Holds a)

/-- Entries that each end before the next ones start. -/
theorem byteMap_of_stops {entries : List MmapEntry} (hbounded : ∀ e ∈ entries, e.stop ≤ 2 ^ 64)
    (hstops : entries.Pairwise fun e e' => e.stop ≤ e'.addr.toNat) : ByteMap entries where
  bounded := hbounded
  ascending := hstops.imp fun hle => BitVec.le_def.mpr ((Nat.le_add_right _ _).trans hle)
  disjoint := hstops.imp fun hle _ ha => absurd (ha.1.2.trans_le hle) (Nat.not_lt.mpr ha.2.1)

/-- The entries that become areas. -/
def availableEntries (entries : List MmapEntry) : List MmapEntry :=
  entries.filter fun e => decide e.Available

/-- The area holds the address, as words. -/
def PhysMmArea.Has (area : PhysMmArea) (a : Word) : Prop := area.start ≤ a ∧ a < area.stop

/-- The address is strictly inside the area. -/
def PhysMmArea.Straddles (area : PhysMmArea) (a : Word) : Prop := area.start < a ∧ a < area.stop

/-- The areas of a memory map. -/
structure AreasApart (la : LinearAlloc) : Prop where
  ascending : ∀ i j, i < j → j < la.physMmAreaNum →
    (la.physMmAreaArr i).start ≤ (la.physMmAreaArr j).start
  apart : ∀ i j, i < la.physMmAreaNum → j < la.physMmAreaNum → i ≠ j → ∀ a,
    ¬ ((la.physMmAreaArr i).Has a ∧ (la.physMmAreaArr j).Has a)
  le : ∀ i < la.physMmAreaNum, (la.physMmAreaArr i).stop ≠ 0 →
    (la.physMmAreaArr i).start ≤ (la.physMmAreaArr i).stop

/-- What `mm_alloc_end` can be: 0 before the first area, the end of an area that is not
inside another one, or 0 again in an area that ends at the top of the address space. -/
inductive EndState (la : LinearAlloc) : Prop
  | idle (hstart : la.mmAllocStart = -1) (hend : la.mmAllocEnd = 0)
  | within (hpassed : ∀ i < la.physMmAreaIdx, (la.physMmAreaArr i).start < la.mmAllocEnd)
      (hclear : ∀ i < la.physMmAreaNum, ¬ (la.physMmAreaArr i).Straddles la.mmAllocEnd)
  | top (hend : la.mmAllocEnd = 0) (hidx : la.physMmAreaIdx < la.physMmAreaNum)
      (harea : (la.physMmAreaArr la.physMmAreaIdx).stop = 0)

section End

variable {la : LinearAlloc}

/-- The end that the allocator works towards lies inside no area. -/
theorem EndState.clear (h : EndState la) :
    ∀ i < la.physMmAreaNum, ¬ (la.physMmAreaArr i).Straddles la.mmAllocEnd := by
  intro i hi hs
  cases h with
  | idle hstart hend => exact BitVec.not_lt_zero (hend ▸ hs.1)
  | within hpassed hclear => exact hclear i hi hs
  | top hend hidx harea => exact BitVec.not_lt_zero (hend ▸ hs.1)

/-- A nonempty area shares its last address with no other one, so its end is not inside. -/
theorem AreasApart.not_straddles (h : AreasApart la) {k i : Nat} (hk : k < la.physMmAreaNum)
    (hi : i < la.physMmAreaNum) (hne : (la.physMmAreaArr k).start < (la.physMmAreaArr k).stop) :
    ¬ (la.physMmAreaArr i).Straddles (la.physMmAreaArr k).stop := by
  intro hs
  by_cases hik : i = k
  · exact absurd (hik ▸ hs.2) (BitVec.lt_irrefl _)
  · have h1 := BitVec.lt_def.mp hne
    have h2 := BitVec.lt_def.mp hs.1
    have h3 := BitVec.lt_def.mp hs.2
    have hlast : ((la.physMmAreaArr k).stop - 1).toNat = (la.physMmAreaArr k).stop.toNat - 1 := by
      bv_omega
    refine h.apart i k hi hk hik ((la.physMmAreaArr k).stop - 1) ⟨⟨?_, ?_⟩, ?_, ?_⟩
    · rw [BitVec.le_def, hlast]
      omega
    · rw [BitVec.lt_def, hlast]
      omega
    · rw [BitVec.le_def, hlast]
      omega
    · rw [BitVec.lt_def, hlast]
      omega

/-- A slide from the end of an area goes to an area whose end is not inside another one:
an empty area inside another one comes behind it, and would have been passed. -/
theorem slide_within (hareas : AreasApart la) (hidx : la.physMmAreaIdx ≤ la.physMmAreaNum)
    (hpassed : ∀ i < la.physMmAreaIdx, (la.physMmAreaArr i).start < la.mmAllocEnd)
    (hclear : ∀ i < la.physMmAreaNum, ¬ (la.physMmAreaArr i).Straddles la.mmAllocEnd) :
    EndState (slideArea la (la.physMmAreaNum - la.physMmAreaIdx)) := by
  have hall : la.physMmAreaIdx + (la.physMmAreaNum - la.physMmAreaIdx) = la.physMmAreaNum := by omega
  rcases slideArea_first (la.physMmAreaNum - la.physMmAreaIdx) la with
    ⟨hrest, he⟩ | ⟨k, hle, hk, hrest, hge, he⟩
  · rw [he]
    refine .within (fun i hi => ?_) hclear
    cases Nat.lt_or_ge i la.physMmAreaIdx with
    | inl hlt => exact hpassed i hlt
    | inr hge => exact hrest i hge hi
  · rw [hall] at hk
    rw [he]
    -- All areas in front of `k` start below the old end.
    have hfront : ∀ i < k, (la.physMmAreaArr i).start < la.mmAllocEnd := fun i hi => by
      cases Nat.lt_or_ge i la.physMmAreaIdx with
      | inl hlt => exact hpassed i hlt
      | inr hge => exact hrest i hge hi
    by_cases htop : (la.physMmAreaArr k).stop = 0
    · exact .top htop hk htop
    · have hup := hareas.le k hk htop
      refine .within (fun i hi => ?_) fun i hi hs => ?_
      · have hlt := BitVec.lt_def.mp (hfront i hi)
        have hle' := BitVec.le_def.mp (BitVec.le_trans hge hup)
        exact BitVec.lt_def.mpr (hlt.trans_le hle')
      · by_cases hempty : (la.physMmAreaArr k).start < (la.physMmAreaArr k).stop
        · exact hareas.not_straddles hk hi hempty hs
        · have heq : (la.physMmAreaArr k).stop = (la.physMmAreaArr k).start :=
            BitVec.le_antisymm (BitVec.not_lt.mp hempty) hup
          have hs : (la.physMmAreaArr i).Straddles (la.physMmAreaArr k).stop := hs
          rw [heq] at hs
          have hlow := BitVec.lt_def.mp hs.1
          have hhigh := BitVec.lt_def.mp hs.2
          have hold := BitVec.le_def.mp hge
          have hik : i < k := by
            by_contra hki
            rcases Nat.eq_or_lt_of_le (Nat.not_lt.mp hki) with rfl | hlt
            · exact absurd hlow (Nat.lt_irrefl _)
            · have hasc := BitVec.le_def.mp (hareas.ascending k i hlt hi)
              omega
          exact hclear i hi ⟨hfront i hik, BitVec.lt_def.mpr (hold.trans_lt hhigh)⟩

/-- A slide in an area that ends at the top of the address space stays there. -/
theorem slide_top (hend : la.mmAllocEnd = 0) (hidx : la.physMmAreaIdx < la.physMmAreaNum)
    (harea : (la.physMmAreaArr la.physMmAreaIdx).stop = 0) :
    EndState (slideArea la (la.physMmAreaNum - la.physMmAreaIdx)) := by
  obtain ⟨n, hn⟩ := Nat.exists_eq_succ_of_ne_zero (Nat.sub_ne_zero_of_lt hidx)
  have hge : (la.physMmAreaArr la.physMmAreaIdx).start ≥ la.mmAllocEnd := by
    rw [hend]
    exact BitVec.le_def.mpr (Nat.zero_le _)
  rw [hn, slideArea, if_pos hge]
  exact .top harea hidx harea

/-- What a page allocation does to the cursor: nothing, a step, or a step and a slide. -/
theorem allocLinear_state (la : LinearAlloc) :
    (allocLinear la PAGE_SIZE).1 = la ∨ (PAGE_SIZE + la.mmAllocStart ≤ la.mmAllocEnd ∧
      ((allocLinear la PAGE_SIZE).1 = { la with mmAllocStart := la.mmAllocStart + PAGE_SIZE } ∨
        (allocLinear la PAGE_SIZE).1 = slideArea { la with mmAllocStart := la.mmAllocStart + PAGE_SIZE }
          (la.physMmAreaNum - la.physMmAreaIdx))) := by
  have halign : align PAGE_SIZE PAGE_SIZE = PAGE_SIZE := by decide
  rw [allocLinear, if_neg (by decide), halign]
  dsimp only
  split
  · exact Or.inl rfl
  · rename_i hbig
    refine Or.inr ⟨BitVec.not_lt.mp hbig, ?_⟩
    split
    · split <;> exact Or.inr rfl
    · exact Or.inl rfl

/-- A page allocation keeps the end of the current area outside of the areas. -/
theorem EndState.alloc (h : EndState la) (hareas : AreasApart la)
    (hidx : la.physMmAreaIdx ≤ la.physMmAreaNum) :
    EndState (mmInitPhysAllocLinear la PAGE_SIZE).1 := by
  suffices h' : EndState (allocLinear la PAGE_SIZE).1 by
    cases h' with
    | idle hstart hend => exact .idle hstart hend
    | within hpassed hclear => exact .within hpassed hclear
    | top hend hidx harea => exact .top hend hidx harea
  rcases allocLinear_state la with he | ⟨hroom, he | he⟩
  · rw [he]
    exact h
  · rw [he]
    cases h with
    | idle hstart hend =>
        rw [hstart, hend] at hroom
        exact absurd hroom (by decide)
    | within hpassed hclear => exact .within hpassed hclear
    | top hend hidx harea => exact .top hend hidx harea
  · rw [he]
    cases h with
    | idle hstart hend =>
        rw [hstart, hend] at hroom
        exact absurd hroom (by decide)
    | within hpassed hclear =>
        exact slide_within ⟨hareas.ascending, hareas.apart, hareas.le⟩ hidx hpassed hclear
    | top hend hidx harea =>
        exact slide_top hend hidx harea

/-- Any number of pages keeps what is known of the end, of the areas and of the index. -/
theorem EndState.allocs (h : EndState la) (hareas : AreasApart la)
    (hidx : la.physMmAreaIdx ≤ la.physMmAreaNum) (n : Nat) :
    EndState (linearAllocs n la) ∧ AreasApart (linearAllocs n la) ∧
      (linearAllocs n la).physMmAreaIdx ≤ (linearAllocs n la).physMmAreaNum ∧
      (linearAllocs n la).physMmAreaNum = la.physMmAreaNum ∧
      (linearAllocs n la).physMmAreaArr = la.physMmAreaArr := by
  induction n with
  | zero => exact ⟨h, hareas, hidx, rfl, rfl⟩
  | succ n ih =>
      obtain ⟨hE, hA, hI, hnum, harr⟩ := ih
      have hsucc : linearAllocs (n + 1) la
          = (mmInitPhysAllocLinear (linearAllocs n la) PAGE_SIZE).1 :=
        Function.iterate_succ_apply' _ n la
      have hsame := allocLinear_same (linearAllocs n la) PAGE_SIZE
      have hidx' := (allocLinear_cases hI).1
      rw [hsucc]
      generalize linearAllocs n la = la₁ at hE hA hI hnum harr hsame hidx' ⊢
      have hnum' : (mmInitPhysAllocLinear la₁ PAGE_SIZE).1.physMmAreaNum = la₁.physMmAreaNum := hsame.num
      have harr' : (mmInitPhysAllocLinear la₁ PAGE_SIZE).1.physMmAreaArr = la₁.physMmAreaArr := hsame.arr
      refine ⟨hE.alloc hA hI, ?_, ?_, hnum'.trans hnum, harr'.trans harr⟩
      · obtain ⟨hasc, hapart, hle⟩ := hA
        constructor <;> rw [hnum', harr'] <;> assumption
      · rw [hnum']
        exact hidx'

end End

section Map

variable {bootMemAllocStart kernPgtable : Word} {entries : List MmapEntry} {e : MmapEntry}
  {visits : List (MmapEntry × Word)} {mem : Mem} {b : Buddy} {st : InitState} {la : LinearAlloc}

/-- An address that the area of an entry holds, as words, is an address of the entry. -/
theorem MmapEntry.holds_of_has (hstop : e.stop ≤ 2 ^ 64) {a : Word}
    (h : PhysMmArea.Has ⟨e.addr, e.addr + e.len⟩ a) : e.Holds a.toNat := by
  have hhigh := BitVec.lt_def.mp h.2
  rw [stop_word hstop] at hhigh
  refine ⟨BitVec.le_def.mp h.1, ?_⟩
  split at hhigh
  · exact hhigh
  · exact absurd hhigh (Nat.not_lt_zero _)

/-- The areas of a memory map, one by one. -/
theorem exists_area (hareas : (List.range la.physMmAreaNum).map la.physMmAreaArr
    = availableAreas entries) (he : e ∈ entries) (havail : e.Available) :
    ∃ k < la.physMmAreaNum, la.physMmAreaArr k = ⟨e.addr, e.addr + e.len⟩ := by
  have hmem : (⟨e.addr, e.addr + e.len⟩ : PhysMmArea) ∈ availableAreas entries :=
    List.mem_map_of_mem (List.mem_filter.mpr ⟨he, decide_eq_true havail⟩)
  rw [← hareas, List.mem_map] at hmem
  obtain ⟨k, hk, heq⟩ := hmem
  exact ⟨k, List.mem_range.mp hk, heq⟩

/-- The available entries of a map of bytes are again one. -/
theorem ByteMap.available (hmap : ByteMap entries) : ByteMap (availableEntries entries) where
  bounded := fun e he => hmap.bounded e (List.mem_filter.mp he).1
  ascending := hmap.ascending.filter _
  disjoint := hmap.disjoint.filter _

/-- The areas that the scan recorded of such a map lie apart, in their order. -/
theorem ByteMap.areasApart (hmap : ByteMap (availableEntries entries))
    (hareas : (List.range la.physMmAreaNum).map la.physMmAreaArr = availableAreas entries) :
    AreasApart la := by
  have hpair : (availableAreas entries).Pairwise fun area area' =>
      area.start ≤ area'.start ∧ ∀ a, ¬ (area.Has a ∧ area'.Has a) := by
    refine List.pairwise_map.mpr ?_
    refine (hmap.ascending.and hmap.disjoint).imp_of_mem fun he he' h => ⟨h.1, fun a ha => ?_⟩
    exact h.2 a.toNat ⟨MmapEntry.holds_of_has (hmap.bounded _ he) ha.1,
      MmapEntry.holds_of_has (hmap.bounded _ he') ha.2⟩
  have hindex : ∀ i j, i < j → j < la.physMmAreaNum →
      (la.physMmAreaArr i).start ≤ (la.physMmAreaArr j).start ∧
        ∀ a, ¬ ((la.physMmAreaArr i).Has a ∧ (la.physMmAreaArr j).Has a) := by
    intro i j hij hj
    rw [← hareas, List.pairwise_map, List.pairwise_iff_getElem] at hpair
    have h := hpair i j (by simpa using hij.trans hj) (by simpa using hj) hij
    simpa using h
  refine ⟨fun i j hij hj => (hindex i j hij hj).1, fun i j hi hj hne a ha => ?_, fun i hi hstop => ?_⟩
  · -- Two areas share no address, whichever of them comes first.
    rcases Nat.lt_or_gt_of_ne hne with h | h
    · exact (hindex i j h hj).2 a ha
    · exact (hindex j i h hi).2 a ha.symm
  · have hmem : la.physMmAreaArr i ∈ availableAreas entries := by
      rw [← hareas]
      exact List.mem_map_of_mem (List.mem_range.mpr hi)
    obtain ⟨e, he, heq⟩ := List.mem_map.mp hmem
    rw [← heq] at hstop ⊢
    have hword := stop_word (hmap.bounded e he)
    rw [BitVec.le_def, hword]
    split
    · exact Nat.le_add_right _ _
    · rename_i htop
      rw [if_neg htop] at hword
      exact absurd (BitVec.eq_of_toNat_eq hword) hstop

/-- After the areas were found, the end of the current one is not inside another one. -/
theorem ByteMap.endState (hmap : ByteMap (availableEntries entries))
    (hscan : entries.foldlM (scanEntry bootMemAllocStart) LinearAlloc.static = some la) :
    EndState la ∧ AreasApart la ∧ la.physMmAreaIdx ≤ la.physMmAreaNum ∧
      (List.range la.physMmAreaNum).map la.physMmAreaArr = availableAreas entries := by
  obtain ⟨hareas, hidx, hcursor⟩ := foldlM_scanEntry_areas hscan
  have hareas : (List.range la.physMmAreaNum).map la.physMmAreaArr = availableAreas entries := hareas
  have hidx : la.physMmAreaIdx = 0 := hidx
  have hapart := hmap.areasApart hareas
  refine ⟨?_, hapart, by rw [hidx]; exact Nat.zero_le _, hareas⟩
  cases hstart : startEntry bootMemAllocStart entries with
  | none =>
      rw [hstart] at hcursor
      -- No entry holds the start, so the cursor was never set.
      exact .idle (Prod.mk.inj hcursor).1 (Prod.mk.inj hcursor).2
  | some e =>
      rw [hstart] at hcursor
      -- The cursor lies in `e`, which is one of the areas: its end is none that an area goes across.
      have hend : la.mmAllocEnd = e.addr + e.len := (Prod.mk.inj hcursor).2
      have he : e ∈ entries := List.mem_reverse.mp (List.mem_of_find?_eq_some hstart)
      have hholds := List.find?_some hstart
      obtain ⟨havail, hlow, hhigh⟩ : e.Available ∧ bootMemAllocStart ≥ e.addr ∧
        bootMemAllocStart < e.addr + e.len := of_decide_eq_true hholds
      obtain ⟨k, hk, heq⟩ := exists_area hareas he havail
      refine .within (fun i hi => absurd hi (by rw [hidx]; exact Nat.not_lt_zero i)) fun i hi => ?_
      rw [hend]
      have hne : (la.physMmAreaArr k).start < (la.physMmAreaArr k).stop := by
        rw [heq]
        exact BitVec.lt_def.mpr ((BitVec.le_def.mp hlow).trans_lt (BitVec.lt_def.mp hhigh))
      have hnot := hapart.not_straddles hk hi hne
      rwa [heq] at hnot

/-- Before the frames are freed, `mm_alloc_end` is not inside an available entry. -/
theorem ByteMap.mmAllocEnd_clear (hmap : ByteMap entries)
    (h : beforeFree bootMemAllocStart kernPgtable entries visits mem b = some st) (he : e ∈ entries)
    (havail : e.Available) : ¬ (e.addr < st.la.mmAllocEnd ∧ st.la.mmAllocEnd < e.addr + e.len) := by
  obtain ⟨la, n, hscan, hla⟩ := beforeFree_allocs h
  obtain ⟨hE, hA, hI, hareas⟩ := hmap.available.endState hscan
  obtain ⟨hE', -, -, hnum, harr⟩ := hE.allocs hA hI n
  obtain ⟨k, hk, heq⟩ := exists_area hareas he havail
  have hclear := hE'.clear k (by rw [hnum]; exact hk)
  rw [harr, heq] at hclear
  rw [hla]
  exact hclear

end Map

end SumiOS
