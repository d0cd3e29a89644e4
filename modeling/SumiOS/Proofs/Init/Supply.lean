import SumiOS.Proofs.Init.Pages
import SumiOS.Proofs.PageTable.Count

/-!
# `SumiOS.Proofs.Init.Supply`: the pages of the linear allocator in advance

What `mm_init_phys_alloc_linear` can hand out is known once the areas are: the whole
pages of the area that the cursor is in, then those of the first area further up, as
long as each one is used up without a rest (`supplyFrom`). The page that uses up the
last area is lost.

An allocation takes the first page of that list (`InEntry.draws`), so any number of
allocations takes a prefix of it (`allocated_supply`). `kernelSupply` is the list in terms
of the memory map.
-/

set_option autoImplicit false

namespace SumiOS

open Lib

/-- The pages that are left when the cursor is at `start`, the current area ends at `stop`,
and these areas follow. -/
def supplyFrom (start stop : Word) : List PhysMmArea → List Word
  | [] => areaPages start (stop.toNat - start.toNat - 1)
  | area :: areas =>
      if area.start < stop then supplyFrom start stop areas
      else areaPages start (stop.toNat - start.toNat) ++
        if start < stop ∧ (stop.toNat - start.toNat) % 4096 = 0
        then supplyFrom area.start area.stop areas else []

/-- The areas from the index on. -/
def LinearAlloc.rest (la : LinearAlloc) : List PhysMmArea :=
  (List.range' la.physMmAreaIdx (la.physMmAreaNum - la.physMmAreaIdx)).map la.physMmAreaArr

/-- Those among them that the slide may go to. -/
def LinearAlloc.later (la : LinearAlloc) : List PhysMmArea :=
  la.rest.dropWhile fun area => decide (area.start < la.mmAllocEnd)

/-- The pages that the allocator has left. -/
def LinearAlloc.supply (la : LinearAlloc) : List Word :=
  supplyFrom la.mmAllocStart la.mmAllocEnd la.rest

/-! ### The list -/

section List

variable {start stop : Word} {area : PhysMmArea} {areas : List PhysMmArea}

/-- Without room for a page, nothing is left: the allocator does not leave an area whose remainder
is less than a page. -/
theorem supplyFrom_full (h : stop.toNat - start.toNat < 4096) : supplyFrom start stop areas = [] := by
  induction areas with
  | nil => exact areaPages_nil (by omega)
  | cons area areas ih =>
      rw [supplyFrom]
      split
      · exact ih
      · have hrest : ¬ (start < stop ∧ (stop.toNat - start.toNat) % 4096 = 0) := by
          intro ⟨hlt, hmod⟩
          have hlt := BitVec.lt_def.mp hlt
          omega
        rw [areaPages_nil h, if_neg hrest]
        rfl

/-- When no other area starts behind the current one, its pages are all that is left. -/
theorem supplyFrom_only (h : ∀ a ∈ areas, a.start < stop) :
    supplyFrom start stop areas = areaPages start (stop.toNat - start.toNat - 1) := by
  induction areas with
  | nil => rfl
  | cons area areas ih =>
      obtain ⟨hfirst, hrest⟩ := List.forall_mem_cons.mp h
      rw [supplyFrom, if_pos hfirst]
      exact ih hrest

/-- With room behind it, the first page is the one at the cursor, and the supply goes on a page
further. What the areas behind contribute does not depend on where in the area the cursor is. -/
theorem supplyFrom_ahead (h : start.toNat + 4096 < stop.toNat) :
    supplyFrom start stop areas = start :: supplyFrom (start + PAGE_SIZE) stop areas := by
  have hlt := stop.isLt
  have hsize : PAGE_SIZE.toNat = 4096 := rfl
  have hnat : (start + PAGE_SIZE).toNat = start.toNat + 4096 := by
    rw [BitVec.toNat_add, hsize]
    omega
  have hroom : stop.toNat - (start.toNat + 4096) = stop.toNat - start.toNat - 4096 := by omega
  induction areas with
  | nil =>
      have hroom' : stop.toNat - (start.toNat + 4096) - 1 = stop.toNat - start.toNat - 1 - 4096 := by
        rw [hroom, Nat.sub_right_comm]
      rw [supplyFrom, supplyFrom, hnat, hroom']
      exact areaPages_cons (by omega)
  | cons area areas ih =>
      rw [supplyFrom, supplyFrom]
      by_cases hskip : area.start < stop
      · rw [if_pos hskip, if_pos hskip, ih]
      · have hiff : (start < stop ∧ (stop.toNat - start.toNat) % 4096 = 0) ↔
            (start + PAGE_SIZE < stop ∧ (stop.toNat - (start.toNat + 4096)) % 4096 = 0) := by
          rw [BitVec.lt_def, BitVec.lt_def, hnat]
          omega
        rw [if_neg hskip, if_neg hskip, hnat, areaPages_cons (by omega), hroom, List.cons_append,
          ← hroom]
        simp only [hiff]

/-- The page that uses up the area is handed out if there is an area to go on with. -/
theorem supplyFrom_last (areas : List PhysMmArea) (h : start.toNat + 4096 = stop.toNat) :
    supplyFrom start stop areas =
      match areas.dropWhile fun a => decide (a.start < stop) with
      | [] => []
      | a :: rest => start :: supplyFrom a.start a.stop rest := by
  induction areas with
  | nil => exact areaPages_nil (by omega)
  | cons area areas ih =>
      rw [supplyFrom]
      by_cases hskip : area.start < stop
      · rw [if_pos hskip, ih, List.dropWhile_cons_of_pos (by simpa using hskip)]
      · have hexact : start < stop ∧ (stop.toNat - start.toNat) % 4096 = 0 := by
          rw [BitVec.lt_def]
          omega
        rw [if_neg hskip, if_pos hexact, List.dropWhile_cons_of_neg (by simpa using hskip),
          areaPages_cons (by omega), areaPages_nil (by omega)]
        rfl

/-- The area that the cursor is in is not one to go on with. -/
theorem supplyFrom_self (h : area.start ≤ area.stop) :
    supplyFrom area.start area.stop (area :: areas) = supplyFrom area.start area.stop areas := by
  rw [supplyFrom]
  have hle := BitVec.le_def.mp h
  by_cases hlt : area.start < area.stop
  · rw [if_pos hlt]
  · have hnat : area.stop.toNat = area.start.toNat := by
      have hge := BitVec.le_def.mp (BitVec.not_lt.mp hlt)
      omega
    rw [if_neg hlt, if_neg fun hand => hlt hand.1, hnat, supplyFrom_full (by omega),
      areaPages_nil (by omega)]
    rfl

end List

/-! ### The slide -/

/-- The slide goes to the first area that starts at or behind the end of the current one. -/
theorem slideArea_dropWhile (n : Nat) : ∀ la : LinearAlloc,
    let areas := (List.range' la.physMmAreaIdx n).map la.physMmAreaArr
    (areas.dropWhile (fun a => decide (a.start < la.mmAllocEnd)) = [] ∧
      slideArea la n = { la with physMmAreaIdx := la.physMmAreaIdx + n }) ∨
    ∃ a rest i, areas.dropWhile (fun a => decide (a.start < la.mmAllocEnd)) = a :: rest ∧
      la.physMmAreaIdx ≤ i ∧ i < la.physMmAreaIdx + n ∧
      (List.range' i (la.physMmAreaIdx + n - i)).map la.physMmAreaArr = a :: rest ∧
      slideArea la n =
        { la with physMmAreaIdx := i, mmAllocStart := a.start, mmAllocEnd := a.stop } := by
  induction n with
  | zero => exact fun la => Or.inl ⟨rfl, rfl⟩
  | succ n ih =>
      intro la
      dsimp only
      rw [List.range'_succ, List.map_cons, slideArea]
      by_cases hskip : (la.physMmAreaArr la.physMmAreaIdx).start < la.mmAllocEnd
      · -- The area starts before the end of the current one, and the loop goes on to the next.
        rw [List.dropWhile_cons_of_pos (by simpa using hskip), if_neg (BitVec.not_le.mpr hskip)]
        have hsum : la.physMmAreaIdx + (n + 1) = la.physMmAreaIdx + 1 + n := by omega
        cases ih { la with physMmAreaIdx := la.physMmAreaIdx + 1 } with
        | inl hnone =>
            rw [hsum]
            exact Or.inl hnone
        | inr hsome =>
            obtain ⟨a, rest, i, hdrop, hle, hlt, hareas, hslide⟩ := hsome
            dsimp only at hdrop hle hlt hareas
            rw [← hsum] at hareas
            exact Or.inr ⟨a, rest, i, hdrop, by omega, by omega, hareas, hslide⟩
      · -- The first area at or behind the end is the one that the cursor slides to.
        rw [List.dropWhile_cons_of_neg (by simpa using hskip), if_pos (BitVec.not_lt.mp hskip)]
        refine Or.inr ⟨_, _, la.physMmAreaIdx, rfl, Nat.le_refl _, by omega, ?_, rfl⟩
        rw [Nat.add_sub_cancel_left, List.range'_succ, List.map_cons]

/-! ### Allocations -/

section Allocations

variable {entries : List MmapEntry} {first : Word} {la : LinearAlloc}

/-- The areas are entries, and do not end in front of their start. -/
theorem InEntry.area_valid (h : InEntry entries la) (hends : EndsBelow (2 ^ 64 - 4096) entries) {i : Nat}
    (hi : i < la.physMmAreaNum) : (la.physMmAreaArr i).start ≤ (la.physMmAreaArr i).stop := by
  obtain ⟨e, he, havail, harea⟩ := h.areas i hi
  have hbound := hends e he havail
  rw [harea, BitVec.le_def, MmapEntry.stop_toNat (by omega)]
  exact Nat.le_add_right _ _

/-- An area that is left is one of the areas. -/
theorem LinearAlloc.mem_rest {area : PhysMmArea} : area ∈ la.rest ↔
    ∃ i, la.physMmAreaIdx ≤ i ∧ i < la.physMmAreaNum ∧ la.physMmAreaArr i = area := by
  rw [LinearAlloc.rest, List.mem_map]
  refine exists_congr fun i => ?_
  rw [List.mem_range'_1, ← and_assoc]
  exact and_congr_left fun _ => ⟨fun h => ⟨h.1, by omega⟩, fun h => ⟨h.1, by omega⟩⟩

/-- What an allocation does to the cursor and to the areas that are left. -/
inductive CursorStep (la la' : LinearAlloc) (chunk : Word) : Prop
  | full (hroom : la.mmAllocEnd.toNat < la.mmAllocStart.toNat + 4096) (hchunk : chunk = 0)
      (hstart : la'.mmAllocStart = la.mmAllocStart) (hend : la'.mmAllocEnd = la.mmAllocEnd)
      (hrest : la'.rest = la.rest)
  | ahead (hroom : la.mmAllocStart.toNat + 4096 < la.mmAllocEnd.toNat) (hchunk : chunk = la.mmAllocStart)
      (hstart : la'.mmAllocStart = la.mmAllocStart + PAGE_SIZE) (hend : la'.mmAllocEnd = la.mmAllocEnd)
      (hrest : la'.rest = la.rest)
  | last (hroom : la.mmAllocStart.toNat + 4096 = la.mmAllocEnd.toNat) (hlater : la.later = [])
      (hchunk : chunk = 0) (hstart : la'.mmAllocStart = la.mmAllocEnd)
      (hend : la'.mmAllocEnd = la.mmAllocEnd)
  | slide (area : PhysMmArea) (areas : List PhysMmArea)
      (hroom : la.mmAllocStart.toNat + 4096 = la.mmAllocEnd.toNat) (hlater : la.later = area :: areas)
      (hchunk : chunk = la.mmAllocStart) (hstart : la'.mmAllocStart = area.start)
      (hend : la'.mmAllocEnd = area.stop) (hrest : la'.rest = area :: areas)

/-- With an end below the last page of the address space, no sum wraps around. -/
theorem InEntry.cursorStep (h : InEntry entries la) (hends : EndsBelow (2 ^ 64 - 4096) entries) :
    CursorStep la (mmInitPhysAllocLinear la PAGE_SIZE).1 (mmInitPhysAllocLinear la PAGE_SIZE).2 := by
  obtain ⟨e, he, havail, -, hstart, hend⟩ := h.cursor
  have hbound := hends e he havail
  have hidx := h.idx
  have hsize : PAGE_SIZE.toNat = 4096 := rfl
  have halign : align PAGE_SIZE PAGE_SIZE = PAGE_SIZE := by decide
  have hnat : (la.mmAllocStart + PAGE_SIZE).toNat = la.mmAllocStart.toNat + 4096 := by
    rw [BitVec.toNat_add, hsize]
    omega
  -- The record of the results is no part of what is left.
  suffices hcase : CursorStep la (allocLinear la PAGE_SIZE).1 (allocLinear la PAGE_SIZE).2 by
    cases hcase with
    | full hroom hchunk hstart hend hrest => exact .full hroom hchunk hstart hend hrest
    | ahead hroom hchunk hstart hend hrest => exact .ahead hroom hchunk hstart hend hrest
    | last hroom hlater hchunk hstart hend => exact .last hroom hlater hchunk hstart hend
    | slide area areas hroom hlater hchunk hstart hend hrest =>
        exact .slide area areas hroom hlater hchunk hstart hend hrest
  rw [allocLinear, if_neg (by decide), halign]
  by_cases hbig : PAGE_SIZE + la.mmAllocStart > la.mmAllocEnd
  · rw [if_pos hbig]
    have hlt := BitVec.lt_def.mp hbig
    rw [BitVec.add_comm, hnat] at hlt
    exact .full hlt rfl rfl rfl rfl
  · rw [if_neg hbig]
    have hle := BitVec.le_def.mp (BitVec.not_lt.mp hbig)
    rw [BitVec.add_comm, hnat] at hle
    dsimp only
    by_cases hslide : la.mmAllocStart + PAGE_SIZE ≥ la.mmAllocEnd
    · -- It uses up the area.
      rw [if_pos hslide]
      have hge := BitVec.le_def.mp hslide
      rw [hnat] at hge
      have hexact : la.mmAllocStart.toNat + 4096 = la.mmAllocEnd.toNat := by omega
      have hall : la.physMmAreaIdx + (la.physMmAreaNum - la.physMmAreaIdx) = la.physMmAreaNum := by
        omega
      cases slideArea_dropWhile (la.physMmAreaNum - la.physMmAreaIdx)
          { la with mmAllocStart := la.mmAllocStart + PAGE_SIZE } with
      | inl hspent =>
          obtain ⟨hdrop, hslid⟩ := hspent
          rw [hslid, if_pos hall]
          refine .last hexact hdrop rfl ?_ rfl
          exact BitVec.eq_of_toNat_eq (hnat.trans hexact)
      | inr hnext =>
          obtain ⟨area, areas, i, hdrop, -, hi, hareas, hslid⟩ := hnext
          dsimp only at hi hareas
          rw [hall] at hi hareas
          rw [hslid, if_neg hi.ne]
          exact .slide area areas hexact hdrop rfl rfl rfl hareas
    · -- The area goes on behind it.
      rw [if_neg hslide]
      have hlt := BitVec.lt_def.mp (BitVec.not_le.mp hslide)
      rw [hnat] at hlt
      refine .ahead hlt rfl rfl rfl ?_
      simp only [LinearAlloc.rest]

/-- An allocation takes the first page that is left, in the current area or the next one, and
leaves the supply without that page. When the supply is empty it fails. -/
theorem InEntry.draws (h : InEntry entries la) (hends : EndsBelow (2 ^ 64 - 4096) entries)
    (hpos : 0 < la.mmAllocStart.toNat) :
    Draws (fun la => mmInitPhysAllocLinear la PAGE_SIZE) LinearAlloc.supply la := by
  have hne : la.mmAllocStart ≠ 0 := by
    intro h0
    rw [h0] at hpos
    exact absurd hpos (by decide)
  unfold Draws LinearAlloc.supply
  cases h.cursorStep hends with
  | full hroom hchunk hstart hend hrest =>
      rw [hstart, hend, hrest]
      have hnone : supplyFrom la.mmAllocStart la.mmAllocEnd la.rest = [] := supplyFrom_full (by omega)
      exact Or.inr ⟨hchunk, hnone, hnone⟩
  | ahead hroom hchunk hstart hend hrest =>
      rw [hchunk, hstart, hend, hrest]
      exact Or.inl ⟨hne, supplyFrom_ahead hroom⟩
  | last hroom hlater hchunk hstart hend =>
      rw [hstart, hend]
      refine Or.inr ⟨hchunk, ?_, supplyFrom_full (by omega)⟩
      have hlast := supplyFrom_last la.rest hroom
      unfold LinearAlloc.later at hlater
      rwa [hlater] at hlast
  | slide area areas hroom hlater hchunk hstart hend hrest =>
      rw [hchunk, hstart, hend, hrest]
      have hlast := supplyFrom_last la.rest hroom
      -- The allocator still has the area that it is in before it.
      have hmem : area ∈ la.rest := (List.dropWhile_sublist _).subset (by
        rw [← LinearAlloc.later, hlater]
        exact List.mem_cons_self)
      obtain ⟨i, -, hi, rfl⟩ := LinearAlloc.mem_rest.mp hmem
      unfold LinearAlloc.later at hlater
      rw [hlater] at hlast
      rw [supplyFrom_self (h.area_valid hends hi)]
      exact Or.inl ⟨hne, hlast⟩

/-- The cursor stays in an entry, and does not go back. -/
theorem InEntry.allocs (h : InEntry entries la) (hends : EndsBelow (2 ^ 64 - 4096) entries) (n : Nat) :
    InEntry entries (linearAllocs n la) ∧
      la.mmAllocStart.toNat ≤ (linearAllocs n la).mmAllocStart.toNat := by
  induction n with
  | zero => exact ⟨h, Nat.le_refl _⟩
  | succ n ih =>
      obtain ⟨hI, hle⟩ := ih
      obtain ⟨hI', hle', -⟩ := hI.alloc hends
      rw [linearAllocs, Function.iterate_succ_apply']
      exact ⟨hI', hle.trans hle'⟩

/-- The allocator behaves as a supply of pages from any state that it comes to by handing out
pages. -/
theorem InEntry.draws_allocs (h : InEntry entries la) (hends : EndsBelow (2 ^ 64 - 4096) entries)
    (hpos : 0 < la.mmAllocStart.toNat) (k : Nat) :
    Draws (fun la => mmInitPhysAllocLinear la PAGE_SIZE) LinearAlloc.supply (linearAllocs k la) := by
  obtain ⟨hI, hle⟩ := h.allocs hends k
  exact hI.draws hends (by omega)

end Allocations

/-! ### The areas of the memory map -/

/-- The areas, in the order of the memory map. -/
def availableAreas (entries : List MmapEntry) : List PhysMmArea :=
  (entries.filter fun e => decide e.Available).map fun e => ⟨e.addr, e.addr + e.len⟩

/-- The entry in which the linear allocator starts: the last one that holds the address. -/
def startEntry (first : Word) (entries : List MmapEntry) : Option MmapEntry :=
  entries.reverse.find? fun e => decide (e.Available ∧ first ≥ e.addr ∧ first < e.addr + e.len)

/-- What the linear allocator hands out, from the address `first` on. -/
def kernelSupply (first : Word) (entries : List MmapEntry) : List Word :=
  match startEntry first entries with
  | none => []
  | some e => supplyFrom first (e.addr + e.len) (availableAreas entries)

section Areas

variable {entries : List MmapEntry} {first : Word} {la la' : LinearAlloc}

/-- One entry of the loop, as a case distinction: an entry that is not available changes nothing,
and an available one is appended to the array, and sets cursor and end when it holds the first free
byte. -/
theorem scanEntry_cases {e : MmapEntry} (hscan : scanEntry first la e = some la') :
    ¬ e.Available ∧ la' = la ∨ e.Available ∧ la'.physMmAreaNum = la.physMmAreaNum + 1 ∧
      la'.physMmAreaArr = Function.update la.physMmAreaArr la.physMmAreaNum ⟨e.addr, e.addr + e.len⟩ ∧
      la'.physMmAreaIdx = la.physMmAreaIdx ∧ (la'.mmAllocStart, la'.mmAllocEnd) =
        if first ≥ e.addr ∧ first < e.addr + e.len then (first, e.addr + e.len)
        else (la.mmAllocStart, la.mmAllocEnd) := by
  unfold scanEntry at hscan
  by_cases havail : e.Available
  · rw [if_pos havail] at hscan
    by_cases hfull : la.physMmAreaNum ≥ PHYS_MM_SEGS_NUM_MAX
    · rw [if_pos hfull] at hscan
      exact absurd hscan (by simp)
    · rw [if_neg hfull, Option.some.injEq] at hscan
      subst hscan
      refine Or.inr ⟨havail, ?_⟩
      dsimp only
      split
      · exact ⟨rfl, rfl, rfl, rfl⟩
      · exact ⟨rfl, rfl, rfl, rfl⟩
  · rw [if_neg havail, Option.some.injEq] at hscan
    exact Or.inl ⟨havail, hscan.symm⟩

/-- The start in a longer map: the later entries come first. -/
theorem startEntry_cons (e : MmapEntry) (es : List MmapEntry) : startEntry first (e :: es) =
    (startEntry first es).or
      (if e.Available ∧ first ≥ e.addr ∧ first < e.addr + e.len then some e else none) := by
  unfold startEntry
  rw [List.reverse_cons, List.find?_append]
  by_cases hc : e.Available ∧ first ≥ e.addr ∧ first < e.addr + e.len
  · simp [hc]
  · rw [if_neg hc, List.find?_cons_of_neg (by simpa using hc)]
    rfl

/-- An available entry is an area, from its address up to its end as a word. -/
theorem availableAreas_cons {e : MmapEntry} (havail : e.Available) (es : List MmapEntry) :
    availableAreas (e :: es) = ⟨e.addr, e.addr + e.len⟩ :: availableAreas es := by
  have hfilter : (e :: es).filter (fun e => decide e.Available) =
      e :: es.filter fun e => decide e.Available :=
    List.filter_cons_of_pos (by simpa using havail)
  rw [availableAreas, hfilter]
  rfl

/-- One more area in the array appends it to the list of areas, as the slots before it are kept. -/
theorem map_update_succ (arr : Nat → PhysMmArea) (n : Nat) (area : PhysMmArea) :
    (List.range (n + 1)).map (Function.update arr n area) = (List.range n).map arr ++ [area] := by
  have hold : (List.range n).map (Function.update arr n area) = (List.range n).map arr := by
    refine List.map_congr_left fun i hi => ?_
    rw [List.mem_range] at hi
    exact Function.update_of_ne (by omega) _ _
  rw [List.range_succ, List.map_append, hold, List.map_singleton, Function.update_self]

/-- The loop over the entries appends the areas, and puts the cursor into the last entry
that holds the address. -/
theorem foldlM_scanEntry_areas (hscan : entries.foldlM (scanEntry first) la = some la') :
    (List.range la'.physMmAreaNum).map la'.physMmAreaArr =
        (List.range la.physMmAreaNum).map la.physMmAreaArr ++ availableAreas entries ∧
      la'.physMmAreaIdx = la.physMmAreaIdx ∧
      (la'.mmAllocStart, la'.mmAllocEnd) =
        ((startEntry first entries).map fun e => (first, e.addr + e.len)).getD
          (la.mmAllocStart, la.mmAllocEnd) := by
  induction entries generalizing la with
  | nil =>
      obtain rfl : la = la' := Option.some.inj hscan
      exact ⟨(List.append_nil _).symm, rfl, rfl⟩
  | cons e es ih =>
      rw [List.foldlM_cons] at hscan
      obtain ⟨la₁, hfirst, hrest⟩ := Option.bind_eq_some_iff.mp hscan
      obtain ⟨hareas, hidx, hcursor⟩ := ih hrest
      rw [hareas, hidx, hcursor, startEntry_cons]
      cases scanEntry_cases hfirst with
      | inl hskip =>
          -- An entry that is not available changes nothing.
          obtain ⟨havail, rfl⟩ := hskip
          rw [if_neg fun hc => havail hc.1, Option.or_none]
          exact ⟨by simp [availableAreas, havail], rfl, rfl⟩
      | inr htake =>
          obtain ⟨havail, hnum, harr, hidx', hcursor'⟩ := htake
          refine ⟨?_, hidx', ?_⟩
          · rw [hnum, harr, map_update_succ, availableAreas_cons havail, List.append_assoc,
              List.singleton_append]
          · rw [hcursor']
            by_cases hin : first ≥ e.addr ∧ first < e.addr + e.len
            · rw [if_pos hin, if_pos ⟨havail, hin⟩]
              -- A later entry that holds the address takes the cursor.
              cases startEntry first es with
              | none => rfl
              | some e' => rfl
            · rw [if_neg hin, if_neg fun hc => hin hc.2, Option.or_none]

/-- After the loop, all areas are left, in the order in which the entries come in the map. -/
theorem rest_scanned (hscan : entries.foldlM (scanEntry first) LinearAlloc.static = some la) :
    la.rest = availableAreas entries := by
  obtain ⟨hareas, hidx, -⟩ := foldlM_scanEntry_areas hscan
  have hidx : la.physMmAreaIdx = 0 := hidx
  rw [LinearAlloc.rest, hidx, Nat.sub_zero, ← List.range_eq_range', hareas]
  rfl

/-- After the loop, the allocator has the supply of the memory map. -/
theorem supply_scanned (hin : startEntry first entries ≠ none)
    (hscan : entries.foldlM (scanEntry first) LinearAlloc.static = some la) :
    la.supply = kernelSupply first entries := by
  obtain ⟨-, -, hcursor⟩ := foldlM_scanEntry_areas hscan
  obtain ⟨e, he⟩ := Option.ne_none_iff_exists'.mp hin
  rw [he, Option.map_some, Option.getD_some, Prod.mk.injEq] at hcursor
  rw [LinearAlloc.supply, kernelSupply, he, hcursor.1, hcursor.2, rest_scanned hscan]

/-- There is an entry to start in exactly when an available one holds the address. -/
theorem startEntry_ne_none (hends : EndsBelow (2 ^ 64 - 4096) entries) :
    startEntry first entries ≠ none ↔ ∃ e ∈ entries, e.Available ∧ e.Holds first.toNat := by
  have hholds : ∀ e ∈ entries, e.Available →
      (first ≥ e.addr ∧ first < e.addr + e.len ↔ e.Holds first.toNat) := by
    intro e he havail
    have hbound := hends e he havail
    rw [ge_iff_le, BitVec.le_def, BitVec.lt_def, MmapEntry.stop_toNat (by omega)]
    rfl
  rw [startEntry, Option.ne_none_iff_isSome, List.find?_isSome]
  simp only [List.mem_reverse, decide_eq_true_eq]
  refine exists_congr fun e => and_congr_right fun he => and_congr_right fun havail => ?_
  exact hholds e he havail

/-- Without one, nothing is supplied, since the cursor is set by no entry. -/
theorem kernelSupply_nil (hends : EndsBelow (2 ^ 64 - 4096) entries)
    (hno : ¬ ∃ e ∈ entries, e.Available ∧ e.Holds first.toNat) : kernelSupply first entries = [] := by
  have hnone : startEntry first entries = none := by
    by_contra hsome
    exact hno ((startEntry_ne_none hends).mp hsome)
  rw [kernelSupply, hnone]

end Areas

end SumiOS
