import SumiOS.Proofs.Init.AreaEnds
import SumiOS.Proofs.Init.Mapping
import SumiOS.Proofs.PageTable.Installs

/-!
# `SumiOS.Proofs.Init.TablesApart`: the tables that the initialization installs

`mm_init_phys_alloc_linear` rounds the size up to a page, but not the start of an area. In
an area that starts inside a page all its results do, and an entry drops the low 12 bits of
such a table when it is followed: the walk uses another page than the one that was
allocated and cleared.

`initInstalls` lists what the rounds of the two mapping loops install. `Installing` says
what a part of them does to the record of the pages and to the tree, and parts are put
together by `Installing.trans`. `tablesApart_iff` is the result: the tables are right
exactly when all pages that were drawn for them are aligned.
-/

set_option autoImplicit false

namespace SumiOS

open Lib

section Loops

variable (kernPgtable : Word)

/-- What the rounds of the loop over the direct mapping area install. -/
def directInstalls : InitState → List (MmapEntry × Word) → List TableInstall
  | _, [] => []
  | st, v :: vs =>
      mapInstalls KERNEL_DIRECT_MAPPING_AREA (fun la => mmInitPhysAllocLinear la PAGE_SIZE) st.mem st.la
        kernPgtable (physToKernelDirectMappingAddr v.2) (PAGE_ATTR_RW ||| PAGE_ATTR_P) ++
      directInstalls (mapDirect kernPgtable st v.2) vs

/-- What `backPage` installs. -/
def backInstalls (st : InitState) (p : Word) : List TableInstall :=
  if mmInitPgtableGetPa st.mem kernPgtable p = -1 then
    mapInstalls KERNEL_DIRECT_MAPPING_AREA (fun la => mmInitPhysAllocLinear la PAGE_SIZE) st.mem
      (mmInitPhysAllocLinear st.la PAGE_SIZE).1 kernPgtable p (PAGE_ATTR_P ||| PAGE_ATTR_RW)
  else []

/-- What the rounds of the loop over the page structs install. -/
def frameInstalls : InitState → List (MmapEntry × Word) → List TableInstall
  | _, [] => []
  | st, v :: vs =>
      backInstalls kernPgtable st (pageVa (frameIdx v.2)) ++
        frameInstalls (initFrame kernPgtable st v) vs

/-- The state after these rounds of the first and then of the second loop. -/
def initRounds (vs vs' : List (MmapEntry × Word)) (st : InitState) : InitState :=
  vs'.foldl (initFrame kernPgtable) (vs.foldl (fun st v => mapDirect kernPgtable st v.2) st)

/-- What these rounds install. -/
def initInstalls (vs vs' : List (MmapEntry × Word)) (st : InitState) : List TableInstall :=
  directInstalls kernPgtable st vs ++
    frameInstalls kernPgtable (vs.foldl (fun st v => mapDirect kernPgtable st v.2) st) vs'

end Loops

/-! ### Parts of the rounds -/

/-- A part of the rounds, with what it installs. The pages are results of the allocator, in
their order, and while they are aligned and fresh they become tables of the tree. -/
structure Installing (kernPgtable : Word) (installs : List TableInstall) (mem mem' : Mem)
    (la la' : LinearAlloc) : Prop where
  record : ∀ tabs, List.Sublist tabs la.returned →
    List.Sublist ((installs.map TableInstall.page).reverse ++ tabs) la'.returned
  tree : ∀ base tabs T, Tables KERNEL_DIRECT_MAPPING_AREA (· ≠ 0) base tabs mem T →
    T [] = some kernPgtable → Fresh base ((installs.map TableInstall.page).reverse ++ tabs) →
    (∀ x ∈ installs, x.table = x.page) ∧
      ∃ T', Tables KERNEL_DIRECT_MAPPING_AREA (· ≠ 0) base
        ((installs.map TableInstall.page).reverse ++ tabs) mem' T' ∧ T' [] = some kernPgtable

section Parts

variable {kernPgtable va pa attr : Word} {installs installs' : List TableInstall}
  {mem mem' mem'' : Mem} {la la' la'' : LinearAlloc} {st : InitState} {v : MmapEntry × Word}
  {vs vs' : List (MmapEntry × Word)}

/-- No round installs nothing, and the tree is the one that was there. -/
theorem installing_nil : Installing kernPgtable [] mem mem la la where
  record _ h := h
  tree _ _ T hT hroot _ := ⟨fun _ hx => absurd hx List.not_mem_nil, T, hT, hroot⟩

/-- Two parts of the rounds one after the other install what the first and then what the second
installs. -/
theorem Installing.trans (h : Installing kernPgtable installs mem mem' la la')
    (h' : Installing kernPgtable installs' mem' mem'' la' la'') :
    Installing kernPgtable (installs ++ installs') mem mem'' la la'' := by
  have hpages : ∀ tabs, ((installs ++ installs').map TableInstall.page).reverse ++ tabs =
      (installs'.map TableInstall.page).reverse ++
        ((installs.map TableInstall.page).reverse ++ tabs) := by
    intro tabs
    rw [List.map_append, List.reverse_append, List.append_assoc]
  constructor
  · intro tabs htabs
    rw [hpages]
    exact h'.record _ (h.record tabs htabs)
  · intro base tabs T hT hroot hfresh
    rw [hpages] at hfresh ⊢
    obtain ⟨hfirst, T', hT', hroot'⟩ := h.tree base tabs T hT hroot
      (hfresh.suffix (List.suffix_append _ _))
    obtain ⟨hsecond, hT''⟩ := h'.tree base _ T' hT' hroot' hfresh
    exact ⟨List.forall_mem_append.mpr ⟨hfirst, hsecond⟩, hT''⟩

/-- An allocation of a page that is not a table. -/
theorem installing_alloc :
    Installing kernPgtable [] mem mem la (mmInitPhysAllocLinear la PAGE_SIZE).1 where
  record tabs h := by
    rw [mmInitPhysAllocLinear_returned]
    exact h.cons _
  tree _ _ T hT hroot _ := ⟨fun _ hx => absurd hx List.not_mem_nil, T, hT, hroot⟩

/-- A mapping call installs the tables that it creates, at pages that the allocator has returned in
this order. -/
theorem installing_map (mem : Mem) (la : LinearAlloc) (pa : Word) (htop : indexOf PGD_OFFSET va ≠ 0)
    (hattr : attr &&& PAGE_MASK = 0) (hP : attr &&& PAGE_ATTR_P = PAGE_ATTR_P) :
    Installing kernPgtable
      (mapInstalls KERNEL_DIRECT_MAPPING_AREA (fun la => mmInitPhysAllocLinear la PAGE_SIZE) mem la
        kernPgtable va attr)
      mem (mmInitPgtableMap mem la kernPgtable va pa attr).1
      la (mmInitPgtableMap mem la kernPgtable va pa attr).2 where
  record _ htabs := mapInstalls_sublist mmInitPhysAllocLinear_returned la pa htabs
  tree _ _ _ hT hroot hfresh := mapInstalls_tree _ la pa hattr hP hT hroot htop hfresh

/-- A round of the first loop, whose address lies in the direct mapping area. -/
theorem installing_direct (st : InitState) (hpa : pa.toNat < 2 ^ 46) :
    Installing kernPgtable
      (mapInstalls KERNEL_DIRECT_MAPPING_AREA (fun la => mmInitPhysAllocLinear la PAGE_SIZE) st.mem st.la
        kernPgtable (physToKernelDirectMappingAddr pa) (PAGE_ATTR_RW ||| PAGE_ATTR_P))
      st.mem (mapDirect kernPgtable st pa).mem st.la (mapDirect kernPgtable st pa).la := by
  unfold mapDirect
  exact installing_map st.mem st.la pa (direct_pgd_ne_zero hpa) (by decide) (by decide)

/-- All rounds of the first loop, by induction on the visits. -/
theorem installing_directs (vs : List (MmapEntry × Word)) (hvs : ∀ v ∈ vs, v.2.toNat < 2 ^ 46) :
    ∀ st : InitState, Installing kernPgtable (directInstalls kernPgtable st vs) st.mem
      (vs.foldl (fun st v => mapDirect kernPgtable st v.2) st).mem st.la
      (vs.foldl (fun st v => mapDirect kernPgtable st v.2) st).la := by
  induction vs with
  | nil => exact fun _ => installing_nil
  | cons v vs ih =>
      intro st
      obtain ⟨hv, hrest⟩ := List.forall_mem_cons.mp hvs
      exact (installing_direct st hv).trans (ih hrest (mapDirect kernPgtable st v.2))

/-- Backing a page of the page array installs tables, and the page itself as a leaf. -/
theorem installing_back (st : InitState) (htop : indexOf PGD_OFFSET va ≠ 0) :
    Installing kernPgtable (backInstalls kernPgtable st va) st.mem (backPage kernPgtable st va).mem
      st.la (backPage kernPgtable st va).la := by
  unfold backInstalls backPage
  by_cases h : mmInitPgtableGetPa st.mem kernPgtable va = -1
  · rw [if_pos h, if_pos h]
    have halloc : Installing kernPgtable [] st.mem st.mem st.la
        (mmInitPhysAllocLinear st.la PAGE_SIZE).1 := installing_alloc
    dsimp only
    generalize mmInitPhysAllocLinear st.la PAGE_SIZE = s at halloc ⊢
    have hattr : (PAGE_ATTR_P ||| PAGE_ATTR_RW) &&& PAGE_MASK = 0 := by decide
    have hP : (PAGE_ATTR_P ||| PAGE_ATTR_RW) &&& PAGE_ATTR_P = PAGE_ATTR_P := by decide
    have hboth := halloc.trans (installing_map st.mem s.1 s.2 htop hattr hP)
    rwa [List.nil_append] at hboth
  · rw [if_neg h, if_neg h]
    exact installing_nil

/-- All rounds of the second loop, by induction on the visits. -/
theorem installing_frames (vs : List (MmapEntry × Word)) (hvs : ∀ v ∈ vs, v.2.toNat < 2 ^ 46) :
    ∀ st : InitState, Installing kernPgtable (frameInstalls kernPgtable st vs) st.mem
      (vs.foldl (initFrame kernPgtable) st).mem st.la (vs.foldl (initFrame kernPgtable) st).la := by
  induction vs with
  | nil => exact fun _ => installing_nil
  | cons v vs ih =>
      intro st
      obtain ⟨hv, hrest⟩ := List.forall_mem_cons.mp hvs
      obtain ⟨htop, -⟩ := pageVa_pgd_ne_zero (frameIdx_lt hv)
      exact (installing_back st htop).trans (ih hrest (initFrame kernPgtable st v))

/-- Any number of rounds of the first loop, followed by any number of rounds of the second. -/
theorem installing_rounds (hvs : ∀ v ∈ vs, v.2.toNat < 2 ^ 46) (hvs' : ∀ v ∈ vs', v.2.toNat < 2 ^ 46)
    (st : InitState) : Installing kernPgtable (initInstalls kernPgtable vs vs' st) st.mem
      (initRounds kernPgtable vs vs' st).mem st.la (initRounds kernPgtable vs vs' st).la :=
  (installing_directs vs hvs st).trans (installing_frames vs' hvs' _)

/-- What is cleared is what the allocator returned, in all rounds of both loops, by one induction
for each of them. -/
theorem initInstalls_cleared (vs vs' : List (MmapEntry × Word)) (st : InitState) :
    ∀ x ∈ initInstalls kernPgtable vs vs' st, x.cleared = x.page := by
  refine List.forall_mem_append.mpr ⟨?_, ?_⟩
  · induction vs generalizing st with
    | nil => exact fun x hx => absurd hx List.not_mem_nil
    | cons v vs ih => exact List.forall_mem_append.mpr ⟨mapInstalls_cleared, ih _⟩
  · generalize vs.foldl (fun st v => mapDirect kernPgtable st v.2) st = st₁
    induction vs' generalizing st₁ with
    | nil => exact fun x hx => absurd hx List.not_mem_nil
    | cons v vs' ih =>
        refine List.forall_mem_append.mpr ⟨?_, ih _⟩
        unfold backInstalls
        split
        · exact mapInstalls_cleared
        · exact fun x hx => absurd hx List.not_mem_nil

/-- The rounds only allocate, as far as the linear allocator is concerned. -/
theorem initRounds_allocs (kernPgtable : Word) (vs vs' : List (MmapEntry × Word)) (st : InitState) :
    ∃ n, (initRounds kernPgtable vs vs' st).la = linearAllocs n st.la := by
  obtain ⟨n, hn⟩ := mapDirects_allocs kernPgtable vs st
  obtain ⟨k, hk⟩ := initFrames_allocs kernPgtable vs'
    (vs.foldl (fun st v => mapDirect kernPgtable st v.2) st)
  refine ⟨k + n, ?_⟩
  rw [initRounds, hk, hn]
  exact (Function.iterate_add_apply _ k n _).symm

end Parts

/-! ### The pages -/

section Pages

variable {entries : List MmapEntry} {first kernPgtable : Word} {la : LinearAlloc}
  {installs : List TableInstall}

/-- While no allocation fails, the results rise by a page or more each time, so that no two of them
overlap even where they are not aligned. -/
theorem InEntry.returned_rise (h : InEntry entries la) (hends : EndsBelow (2 ^ 64 - 4096) entries)
    (hlog : la.returned = []) (n : Nat) (hok : 0 ∉ (linearAllocs n la).returned) :
    (linearAllocs n la).returned.Pairwise (fun q q' => q'.toNat + 4096 ≤ q.toNat) ∧
      ∀ q ∈ (linearAllocs n la).returned, la.mmAllocStart.toNat ≤ q.toNat ∧
        q.toNat + 4096 ≤ (linearAllocs n la).mmAllocStart.toNat := by
  induction n with
  | zero =>
      show la.returned.Pairwise _ ∧ ∀ q ∈ la.returned, _
      rw [hlog]
      exact ⟨List.Pairwise.nil, fun q hq => absurd hq List.not_mem_nil⟩
  | succ n ih =>
      have hsucc : linearAllocs (n + 1) la = (mmInitPhysAllocLinear (linearAllocs n la) PAGE_SIZE).1 :=
        Function.iterate_succ_apply' _ n la
      obtain ⟨hI, hahead⟩ := h.allocs hends n
      obtain ⟨-, hle, hcase⟩ := hI.alloc hends
      rw [hsucc] at hok ⊢
      rw [mmInitPhysAllocLinear_returned] at hok ⊢
      obtain ⟨hne, hold⟩ := not_or.mp fun hor => hok (List.mem_cons.mpr hor)
      obtain ⟨hpair, hbetween⟩ := ih hold
      obtain ⟨hchunk, -, hbehind⟩ := hcase.resolve_left fun h0 => hne h0.symm
      refine ⟨List.pairwise_cons.mpr ⟨fun q hq => ?_, hpair⟩,
        List.forall_mem_cons.mpr ⟨⟨?_, hbehind⟩, fun q hq => ?_⟩⟩
      · rw [hchunk]
        exact (hbetween q hq).2
      · rw [hchunk]
        exact hahead
      · exact ⟨(hbetween q hq).1, (hbetween q hq).2.trans hle⟩

/-- Tables at rising pages do not overlap: each lies a page or more behind the one before, and an
aligned page does not reach over the end of the address space. -/
theorem tablesApart_of_rise (hexact : ∀ x ∈ installs, x.table = x.page)
    (hcleared : ∀ x ∈ installs, x.cleared = x.page)
    (hrise : (installs.map TableInstall.page).Pairwise fun q q' => q.toNat + 4096 ≤ q'.toNat) :
    TablesApart installs where
  exact x hx := ⟨hexact x hx, (hexact x hx).trans (hcleared x hx).symm⟩
  apart := by
    rw [List.pairwise_map] at hrise
    refine hrise.imp_of_mem fun {x y} hx hy hle a ha => ?_
    obtain ⟨hxa, hya⟩ := ha
    unfold TableInstall.Covers at hxa hya
    rw [hexact x hx] at hxa
    rw [hexact y hy] at hya
    rw [BitVec.toNat_sub] at hxa hya
    -- An aligned page does not reach over the end of the address space.
    have hmod := (TableInstall.aligned (hexact y hy)).toNat_mod
    have hx := x.page.isLt
    have hy := y.page.isLt
    have ha := a.isLt
    omega

end Pages

/-- Without an area that holds the first address, no page is allocated while none fails. -/
theorem Scanned.returned_nil {first : Word} {entries : List MmapEntry} {la : LinearAlloc}
    (h : Scanned first entries la) (hno : ∀ e ∈ entries, e.Available → ¬ e.Holds first.toNat) (n : Nat)
    (hok : 0 ∉ (linearAllocs n la).returned) : (linearAllocs n la).returned = [] := by
  obtain ⟨hs, he⟩ := h.idle hno
  cases n with
  | zero => exact h.returned
  | succ n =>
      have hnull : (mmInitPhysAllocLinear la PAGE_SIZE).2 = 0 :=
        linearResults_idle hs he 1 _ List.mem_cons_self
      have hmem : 0 ∈ (mmInitPhysAllocLinear la PAGE_SIZE).1.returned := by
        rw [mmInitPhysAllocLinear_returned, hnull]
        exact List.mem_cons_self
      exact absurd ((linearAllocs_log n _).subset hmem) hok

/-- Aligned pages give right tables, when the loops stay below `2 ^ 46`: rising pages that
are aligned are different pages, and pages of the areas are not among the tables of the
booting stage. -/
theorem tablesApart_of_aligned {first kernPgtable : Word} {entries : List MmapEntry} {st : InitState}
    {vs vs' : List (MmapEntry × Word)} (htables : KernelTables st.mem kernPgtable first)
    (hscan : entries.foldlM (scanEntry first) LinearAlloc.static = some st.la)
    (hok : 0 ∉ (initRounds kernPgtable vs vs' st).la.returned)
    (hends : EndsBelow (2 ^ 64 - 4096) entries) (hvs : ∀ v ∈ vs, v.2.toNat < 2 ^ 46)
    (hvs' : ∀ v ∈ vs', v.2.toNat < 2 ^ 46)
    (haligned : ∀ x ∈ initInstalls kernPgtable vs vs' st, PageAligned x.page) :
    TablesApart (initInstalls kernPgtable vs vs' st) := by
  have hcleared : ∀ x ∈ initInstalls kernPgtable vs vs' st, x.cleared = x.page :=
    initInstalls_cleared vs vs' st
  have hparts : Installing kernPgtable (initInstalls kernPgtable vs vs' st) st.mem
      (initRounds kernPgtable vs vs' st).mem st.la (initRounds kernPgtable vs vs' st).la :=
    installing_rounds hvs hvs' st
  obtain ⟨n, hn⟩ := initRounds_allocs kernPgtable vs vs' st
  generalize initInstalls kernPgtable vs vs' st = installs at hparts hcleared haligned ⊢
  rw [hn] at hok
  have hdone := scanned_entries (fun e he havail => (hends e he havail).trans (by decide)) hscan
  have hrecord := hparts.record [] (List.nil_sublist _)
  rw [hn, List.append_nil] at hrecord
  by_cases hin : ∃ e ∈ entries, e.Available ∧ e.Holds first.toNat
  · -- The pages are handed out in ascending order, from the first free byte on.
    obtain ⟨hI, hfirst⟩ := hdone.inEntry hends hin
    obtain ⟨hpair, hbetween⟩ := hI.returned_rise hends hdone.returned n hok
    have hpages := List.pairwise_reverse.mp (hpair.sublist hrecord)
    obtain ⟨T, hT, hroot⟩ := htables
    refine tablesApart_of_rise ?_ hcleared hpages
    refine (hparts.tree _ [] T hT hroot ?_).1
    rw [List.append_nil]
    refine ⟨?_, fun q hq => ?_, fun q hq hlow => ?_⟩
    · refine List.nodup_reverse.mpr (hpages.imp fun hle he => ?_)
      rw [he] at hle
      omega
    · obtain ⟨x, hx, rfl⟩ := List.mem_map.mp (List.mem_reverse.mp hq)
      exact haligned x hx
    · -- All tables of the booting stage lie below the first page.
      have hge := (hbetween q (hrecord.subset hq)).1
      rw [hfirst] at hge
      omega
  · -- The cursor is in no area, so no page is handed out.
    have hnil := hdone.returned_nil (fun e he havail hholds => hin ⟨e, he, havail, hholds⟩) n hok
    rw [hnil, List.sublist_nil, List.reverse_eq_nil_iff, List.map_eq_nil_iff] at hrecord
    rw [hrecord]
    exact ⟨fun x hx => absurd hx List.not_mem_nil, List.Pairwise.nil⟩

/-- After any number of rounds, the tables of the initialization are right exactly when all
pages that were drawn for them are aligned. That this is enough needs visited frames in the
direct mapping area, and areas that end in front of the last page of the address space. -/
theorem tablesApart_iff (first kernPgtable : Word) (entries : List MmapEntry) (mem : Mem) (b : Buddy)
    (la : LinearAlloc) (vs vs' : List (MmapEntry × Word))
    (htables : KernelTables mem kernPgtable first)
    (hscan : entries.foldlM (scanEntry first) LinearAlloc.static = some la)
    (hok : 0 ∉ (initRounds kernPgtable vs vs' ⟨mem, la, b⟩).la.returned) :
    let installs := initInstalls kernPgtable vs vs' ⟨mem, la, b⟩
    (TablesApart installs → ∀ x ∈ installs, PageAligned x.page) ∧
      (EndsBelow (2 ^ 64 - 4096) entries → (∀ v ∈ vs ++ vs', v.2.toNat < 2 ^ 46) →
        (TablesApart installs ↔ ∀ x ∈ installs, PageAligned x.page)) := by
  intro installs
  have haligned : TablesApart installs → ∀ x ∈ installs, PageAligned x.page := fun h x hx =>
    TableInstall.aligned (h.exact x hx).1
  refine ⟨haligned, fun hends hvs => ⟨haligned, fun hall => ?_⟩⟩
  obtain ⟨hfirst, hsecond⟩ := List.forall_mem_append.mp hvs
  exact tablesApart_of_aligned htables hscan hok hends hfirst hsecond hall

/-! ### Two maps of which the first area is used up -/

/-- A map whose first entry has two pages. -/
def firstVisit : MmapEntry × Word := (⟨0x800000, 0x2000, 1⟩, 0x800000)

/-- The first round takes both pages and the one behind them: with an empty tree it needs a table
on each of the three levels, and the third page decides whether they are right. -/
theorem firstRound {la : LinearAlloc} {p : Word}
    (h₁ : (mmInitPhysAllocLinear la PAGE_SIZE).2 = 0x800000)
    (h₂ : (mmInitPhysAllocLinear (linearAllocs 1 la) PAGE_SIZE).2 = 0x801000)
    (h₃ : (mmInitPhysAllocLinear (linearAllocs 2 la) PAGE_SIZE).2 = p)
    (hok : ∀ n ≤ 3, 0 ∉ (linearAllocs n la).returned) :
    0 ∉ (initRounds 0x1000 [firstVisit] [] ⟨fun _ => 0, la, cleared⟩).la.returned ∧
      (initInstalls 0x1000 [firstVisit] [] ⟨fun _ => 0, la, cleared⟩).map TableInstall.page =
        [0x800000, 0x801000, p] := by
  have hzero : ∀ i, view KERNEL_DIRECT_MAPPING_AREA (fun _ => 0) 0x1000 i = 0 := by
    intro i
    show ofBytes (fun _ => 0) = 0
    rfl
  constructor
  · obtain ⟨n, hn, hla⟩ := mapDirect_allocs 0x1000 ⟨fun _ => 0, la, cleared⟩ firstVisit.2
    show 0 ∉ (mapDirect 0x1000 ⟨fun _ => 0, la, cleared⟩ firstVisit.2).la.returned
    rw [hla]
    exact hok n hn
  · have hpages : (mapInstalls KERNEL_DIRECT_MAPPING_AREA (fun la => mmInitPhysAllocLinear la PAGE_SIZE)
        (fun _ => 0) la 0x1000 (physToKernelDirectMappingAddr firstVisit.2)
        (PAGE_ATTR_RW ||| PAGE_ATTR_P)).map TableInstall.page =
        [0x800000, 0x801000, (mmInitPhysAllocLinear (linearAllocs 2 la) PAGE_SIZE).2] :=
      mapInstalls_empty (by decide) (hzero _) h₁ h₂ (by decide) (by decide) (by decide) (by decide)
        (by decide)
    rw [h₃] at hpages
    rw [initInstalls, directInstalls, directInstalls, frameInstalls, List.append_nil, List.append_nil]
    exact hpages

/-- Two pages, and an area that starts at a page. -/
def evenMap : List MmapEntry := [⟨0x800000, 0x2000, 1⟩, ⟨0x803000, 0x10000, 1⟩]

/-- The three tables of the first round lie in both areas, apart from each other, and each begins
where the walk of the processor looks for it. -/
theorem tablesApart_iff_evenMap :
    ∃ la, evenMap.foldlM (scanEntry 0x800000) LinearAlloc.static = some la ∧
      let installs := initInstalls 0x1000 [firstVisit] [] ⟨fun _ => 0, la, cleared⟩
      installs.map TableInstall.page = [0x800000, 0x801000, 0x803000] ∧ TablesApart installs := by
  obtain ⟨la, hscan, h₁, h₂, h₃, hok⟩ : ∃ la,
      evenMap.foldlM (scanEntry 0x800000) LinearAlloc.static = some la ∧
      (mmInitPhysAllocLinear la PAGE_SIZE).2 = 0x800000 ∧
      (mmInitPhysAllocLinear (linearAllocs 1 la) PAGE_SIZE).2 = 0x801000 ∧
      (mmInitPhysAllocLinear (linearAllocs 2 la) PAGE_SIZE).2 = 0x803000 ∧
      ∀ n ≤ 3, 0 ∉ (linearAllocs n la).returned := ⟨_, rfl, rfl, rfl, rfl, by decide⟩
  obtain ⟨hround, hpages⟩ := firstRound h₁ h₂ h₃ hok
  have hends : EndsBelow (2 ^ 64 - 4096) evenMap :=
    List.forall_mem_cons.mpr ⟨fun _ => by decide, List.forall_mem_singleton.mpr fun _ => by decide⟩
  have hvisits : ∀ v ∈ [firstVisit] ++ [], v.2.toNat < 2 ^ 46 := by decide
  refine ⟨la, hscan, hpages, ((tablesApart_iff 0x800000 0x1000 evenMap (fun _ => 0) cleared la
    [firstVisit] [] zeroTables hscan hround).2 hends hvisits).mpr fun x hx => ?_⟩
  have haligned : ∀ p ∈ [(0x800000 : Word), 0x801000, 0x803000], PageAligned p :=
    List.forall_mem_cons.mpr ⟨rfl, List.forall_mem_cons.mpr ⟨rfl, List.forall_mem_singleton.mpr rfl⟩⟩
  exact haligned _ (hpages ▸ List.mem_map_of_mem hx)

/-- Two pages, and an area that starts in the middle of a page. -/
def halfMap : List MmapEntry := [⟨0x800000, 0x2000, 1⟩, ⟨0x802800, 0x10000, 1⟩]

/-- The third table of the first round is at `0x802800`, and the walk uses `0x802000`, where the
low bits are cut off that the area has brought along. -/
theorem not_tablesApart_halfMap :
    ByteMap (availableEntries halfMap) ∧ ∃ la,
      halfMap.foldlM (scanEntry 0x800000) LinearAlloc.static = some la ∧
      0 ∉ (initRounds 0x1000 [firstVisit] [] ⟨fun _ => 0, la, cleared⟩).la.returned ∧
      ¬ TablesApart (initInstalls 0x1000 [firstVisit] [] ⟨fun _ => 0, la, cleared⟩) := by
  obtain ⟨la, hscan, h₁, h₂, h₃, hok⟩ : ∃ la,
      halfMap.foldlM (scanEntry 0x800000) LinearAlloc.static = some la ∧
      (mmInitPhysAllocLinear la PAGE_SIZE).2 = 0x800000 ∧
      (mmInitPhysAllocLinear (linearAllocs 1 la) PAGE_SIZE).2 = 0x801000 ∧
      (mmInitPhysAllocLinear (linearAllocs 2 la) PAGE_SIZE).2 = 0x802800 ∧
      ∀ n ≤ 3, 0 ∉ (linearAllocs n la).returned := ⟨_, rfl, rfl, rfl, rfl, by decide⟩
  obtain ⟨hround, hpages⟩ := firstRound h₁ h₂ h₃ hok
  refine ⟨byteMap_of_stops (by decide) (by decide), la, hscan, hround, fun h => ?_⟩
  have hmem : (0x802800 : Word) ∈
      (initInstalls 0x1000 [firstVisit] [] ⟨fun _ => 0, la, cleared⟩).map TableInstall.page := by
    rw [hpages]
    decide
  obtain ⟨x, hx, hpage⟩ := List.mem_map.mp hmem
  have haligned := TableInstall.aligned (h.exact x hx).1
  rw [hpage] at haligned
  exact absurd haligned (by decide)

end SumiOS
