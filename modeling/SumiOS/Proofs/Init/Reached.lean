import SumiOS.Proofs.Init.Demand
import SumiOS.Proofs.PageTable.Derefs

/-!
# `SumiOS.Proofs.Init.Reached`: the direct mapping area is built through itself

`mm_init_pgtable_map` and `mm_init_pgtable_get_pa` dereference tables in the direct mapping
area while that area is being mapped. The booting stage maps its first 10 MB. What lies
above can be dereferenced once the loop has come to it.

`TablesReached` says that every table of the two loops is dereferenced late enough. Whether
it holds is decided by the tables of the booting stage and by the pages that the linear
allocator supplies, visit by visit: `Climbs`. Only the first loop matters
(`tablesReached_iff`). An image of 10 MB is too large: the root itself lies above.
-/

set_option autoImplicit false

namespace SumiOS

open Lib

/-! ### What is dereferenced, and when -/

/-- The page of `x` is in the direct mapping area: the booting stage mapped it, or the loop
visited an address in it. -/
def Reached (done : List Word) (x : Word) : Prop :=
  x < 0xa00000 ∨ ∃ pa ∈ done, pa.toNat / 4096 = x.toNat / 4096

instance (done : List Word) (x : Word) : Decidable (Reached done x) :=
  inferInstanceAs (Decidable (x < 0xa00000 ∨ ∃ pa ∈ done, pa.toNat / 4096 = x.toNat / 4096))

/-- `mm_init_phys_alloc_linear(PAGE_SIZE)`, as `mm_init_pgtable_map` calls it. -/
abbrev linearPage (la : LinearAlloc) : LinearAlloc × Word := mmInitPhysAllocLinear la PAGE_SIZE

/-- The tables that the first loop dereferences for a frame. -/
def mapDirectDerefs (kernPgtable : Word) (st : InitState) (pa : Word) : List Word :=
  mapDerefs KERNEL_DIRECT_MAPPING_AREA linearPage st.mem st.la kernPgtable
    (physToKernelDirectMappingAddr pa) (PAGE_ATTR_RW ||| PAGE_ATTR_P)

/-- The tables that the second loop dereferences for a frame: for the lookup, and for the
mapping of a new page. -/
def backPageDerefs (kernPgtable : Word) (st : InitState) (p : Word) : List Word :=
  getPaDerefs KERNEL_DIRECT_MAPPING_AREA st.mem kernPgtable p ++
    if mmInitPgtableGetPa st.mem kernPgtable p = -1 then
      mapDerefs KERNEL_DIRECT_MAPPING_AREA linearPage st.mem (linearPage st.la).1 kernPgtable p
        (PAGE_ATTR_P ||| PAGE_ATTR_RW)
    else []

/-- In the first loop, every table is reached by what was mapped before. -/
def DirectsReached (kernPgtable : Word) :
    List Word → InitState → List (MmapEntry × Word) → Prop
  | _, _, [] => True
  | done, st, v :: vs =>
      (∀ x ∈ mapDirectDerefs kernPgtable st v.2, Reached done x) ∧
        DirectsReached kernPgtable (v.2 :: done) (mapDirect kernPgtable st v.2) vs

/-- In the second loop, every table is reached by what the first one mapped. -/
def FramesReached (kernPgtable : Word) (done : List Word) :
    InitState → List (MmapEntry × Word) → Prop
  | _, [] => True
  | st, v :: vs =>
      (∀ x ∈ backPageDerefs kernPgtable st (structVa v), Reached done x) ∧
        FramesReached kernPgtable done (initFrame kernPgtable st v) vs

/-- `mm_pages_allocator_init` dereferences no table that it cannot reach. -/
def TablesReached (bootMemAllocStart kernPgtable : Word) (entries : List MmapEntry)
    (visits : List (MmapEntry × Word)) (mem : Mem) (b : Buddy) : Prop :=
  ∃ la, entries.foldlM (scanEntry bootMemAllocStart) LinearAlloc.static = some la ∧
    DirectsReached kernPgtable [] ⟨mem, la, b⟩ visits ∧
      FramesReached kernPgtable (visits.map fun v => v.2)
        (visits.foldl (fun st v => mapDirect kernPgtable st v.2) ⟨mem, la, b⟩) visits

/-- At each visit, the tables of the booting stage on the path and the pages for the new
tables are reached. `mem` is the memory that the booting stage leaves, `used` are the paths
that have tables, `pages` is what the allocator still has. -/
def Climbs (mem : Mem) (kernPgtable : Word) :
    List (List (BitVec 9)) → List Word → List Word → List (MmapEntry × Word) → Prop
  | _, _, _, [] => True
  | used, done, pages, v :: vs =>
      (∀ x ∈ getPaDerefs KERNEL_DIRECT_MAPPING_AREA mem kernPgtable
          (physToKernelDirectMappingAddr v.2), Reached done x) ∧
        (∀ x ∈ pages.take (unused used (directStep v)).length, Reached done x) ∧
          Climbs mem kernPgtable (directStep v ++ used) (v.2 :: done)
            (pages.drop (unused used (directStep v)).length) vs

section Reached

variable {done done' : List Word} {x : Word}

/-- What some visits reach is reached by more of them. -/
theorem Reached.mono (h : Reached done x) (hsub : ∀ pa ∈ done, pa ∈ done') : Reached done' x :=
  h.imp_right fun ⟨pa, hpa, he⟩ => ⟨pa, hsub pa hpa, he⟩

variable {mem : Mem} {kernPgtable : Word} {used : List (List (BitVec 9))} {pages : List Word}
  {visits : List (MmapEntry × Word)} {st : InitState}

/-- The first visit comes through the root, which must have been reached before it. -/
theorem DirectsReached.root (h : DirectsReached kernPgtable done st visits) (hne : visits ≠ []) :
    Reached done kernPgtable := by
  cases visits with
  | nil => exact absurd rfl hne
  | cons v vs =>
      rw [DirectsReached] at h
      exact h.1 kernPgtable root_mem_mapDerefs

/-- Below 10 MB everything is reached from the beginning. -/
theorem Climbs.of_low (hboot : ∀ v ∈ visits, ∀ x ∈ getPaDerefs KERNEL_DIRECT_MAPPING_AREA mem
      kernPgtable (physToKernelDirectMappingAddr v.2), x < 0xa00000)
    (hpages : ∀ x ∈ pages, x < 0xa00000) : Climbs mem kernPgtable used done pages visits := by
  induction visits generalizing used done pages with
  | nil => trivial
  | cons v vs ih =>
      obtain ⟨hfirst, hrest⟩ := List.forall_mem_cons.mp hboot
      exact ⟨fun x hx => Or.inl (hfirst x hx),
        fun x hx => Or.inl (hpages x (List.mem_of_mem_take hx)),
        ih hrest fun x hx => hpages x (List.mem_of_mem_drop hx)⟩

/-- When the climb gets anywhere, the root table was reached before its first step. -/
theorem Climbs.root (h : Climbs mem kernPgtable used done pages visits) (hne : visits ≠ []) :
    Reached done kernPgtable := by
  cases visits with
  | nil => exact absurd rfl hne
  | cons v vs => exact h.1 kernPgtable List.mem_cons_self

end Reached

/-! ### The tables of one call -/

section Calls

variable {first kernPgtable va attr x : Word} {base : Word → Prop}
  {Q : (List (BitVec 9) → Option Word) → (List (BitVec 9) → Word) → Prop} {mem mem₀ : Mem}
  {la : LinearAlloc} {T₀ : List (BitVec 9) → Option Word} {log : List Word}

/-- The tables on a path are those of the booting stage and pages of the allocator. -/
theorem TreeMapping.getPaDerefs_cases
    (h : TreeMapping first kernPgtable (fun q => ∃ π, T₀ π = some q) Q mem la)
    (hT₀ : Tables KERNEL_DIRECT_MAPPING_AREA (· ≠ 0) base log mem₀ T₀)
    (hroot₀ : T₀ [] = some kernPgtable) (htop : indexOf PGD_OFFSET va ≠ 0)
    (hsub : ∀ T A, Q T A → ∀ π p, T₀ π = some p → T π = some p) (hok : 0 ∉ la.returned) :
    (x ∈ getPaDerefs KERNEL_DIRECT_MAPPING_AREA mem₀ kernPgtable va →
      x ∈ getPaDerefs KERNEL_DIRECT_MAPPING_AREA mem kernPgtable va) ∧
    (x ∈ getPaDerefs KERNEL_DIRECT_MAPPING_AREA mem kernPgtable va →
      x ∈ getPaDerefs KERNEL_DIRECT_MAPPING_AREA mem₀ kernPgtable va ∨ x ∈ la.returned) := by
  obtain ⟨T, hT, hroot, hQ⟩ := h.tree hok
  have hold := hsub T _ hQ
  rw [mem_getPaDerefs hT₀ hroot₀ htop, mem_getPaDerefs hT hroot htop]
  constructor
  · intro ⟨k, hk, hx⟩
    exact ⟨k, hk, hold _ _ hx⟩
  · intro ⟨k, hk, hx⟩
    refine (hT.used _ x hx).imp_left fun ⟨π, hπ⟩ => ⟨k, hk, ?_⟩
    rw [← hT.laid.inj π _ x (hold π x hπ) hx]
    exact hπ

/-- A mapping call dereferences the tables on the path and the pages it allocates. -/
theorem TreeMapping.mem_mapDerefs (h : TreeMapping first kernPgtable base Q mem la) (pa : Word)
    (hbase : ∀ q, base q → q.toNat < first.toNat) (htop : indexOf PGD_OFFSET va ≠ 0)
    (hattr : attr &&& PAGE_MASK = 0) (hP : attr &&& PAGE_ATTR_P = PAGE_ATTR_P)
    (hok : 0 ∉ (mmInitPgtableMap mem la kernPgtable va pa attr).2.returned) :
    ∃ new, (mmInitPgtableMap mem la kernPgtable va pa attr).2.returned = new ++ la.returned ∧
      ∀ x, x ∈ mapDerefs KERNEL_DIRECT_MAPPING_AREA linearPage mem la kernPgtable va attr ↔
        x ∈ getPaDerefs KERNEL_DIRECT_MAPPING_AREA mem kernPgtable va ∨ x ∈ new := by
  obtain ⟨n, -, hn⟩ := mmInitPgtableMap_allocs mem la kernPgtable va pa attr
  have hold : 0 ∉ la.returned := by
    rw [hn] at hok
    exact linearAllocs_ok n hok
  obtain ⟨T, hT, hroot, -⟩ := h.tree hold
  have hfresh : Fresh base (mmInitPgtableMap mem la kernPgtable va pa attr).2.returned := by
    rw [hn] at hok ⊢
    exact ((h.linear.allocs n).cursor hok).risen.fresh hbase
  exact SumiOS.mem_mapDerefs mmInitPhysAllocLinear_returned hattr hP hT hroot htop hfresh

end Calls

/-! ### The loops -/

section Loops

variable {first kernPgtable x : Word} {mem₀ : Mem} {la la₀ : LinearAlloc} {st : InitState}
  {T₀ : List (BitVec 9) → Option Word} {used : List (List (BitVec 9))} {done : List Word}
  {entries : List MmapEntry} {visits : List (MmapEntry × Word)} {n : Nat}

/-- The pages that some allocations added to the record are those of the supply. -/
theorem mem_new_iff {log new pages : List Word} (h : pagesOf (new ++ log) = pagesOf log ++ pages)
    (hok : 0 ∉ new ++ log) : x ∈ new ↔ x ∈ pages := by
  have hpages : pagesOf (new ++ log) = pagesOf log ++ pagesOf new := by
    unfold pagesOf
    rw [List.filter_append, List.reverse_append]
  rw [hpages, List.append_cancel_left_eq] at h
  rw [← h, mem_pagesOf]
  refine (and_iff_left_of_imp fun hx h0 => hok ?_).symm
  exact List.mem_append_left _ (h0 ▸ hx)

/-- The pages that one visit of the first loop allocates, and the tables that it dereferences. -/
theorem TreeMapping.mapDirect_new {base : Word → Prop}
    {Q : (List (BitVec 9) → Option Word) → (List (BitVec 9) → Word) → Prop} {v : MmapEntry × Word}
    (h : TreeMapping first kernPgtable base Q st.mem st.la)
    (hbase : ∀ q, base q → q.toNat < first.toNat) (hv : v.2.toNat < 2 ^ 46)
    (hdraws : ∀ k, Draws linearPage LinearAlloc.supply (linearAllocs k st.la))
    (hcount : (mapDirect kernPgtable st v.2).la = linearAllocs n st.la)
    (hok : 0 ∉ (mapDirect kernPgtable st v.2).la.returned) :
    ∃ new, (mapDirect kernPgtable st v.2).la.returned = new ++ st.la.returned ∧
      (∀ x, x ∈ new ↔ x ∈ st.la.supply.take n) ∧
      ∀ x, x ∈ mapDirectDerefs kernPgtable st v.2 ↔
        x ∈ getPaDerefs KERNEL_DIRECT_MAPPING_AREA st.mem kernPgtable
          (physToKernelDirectMappingAddr v.2) ∨ x ∈ new := by
  obtain ⟨-, htaken, -⟩ := allocated_supply mmInitPhysAllocLinear_returned n fun k _ => hdraws k
  obtain ⟨new, hnew, hderefs⟩ :=
    h.mem_mapDerefs v.2 hbase (direct_pgd_ne_zero hv) (by decide) (by decide) hok
  have hnew : (mapDirect kernPgtable st v.2).la.returned = new ++ st.la.returned := hnew
  refine ⟨new, hnew, fun x => ?_, hderefs⟩
  rw [hnew] at hok
  refine mem_new_iff ?_ hok
  rw [← hnew, hcount]
  exact htaken

/-- One visit of the first loop reaches its tables exactly when the pages it walks through and the
pages it is given lie where the earlier visits have mapped. The tree grows by the paths of its
frame. -/
theorem TreeMapping.mapDirect_reached {v : MmapEntry × Word}
    (hT₀ : Tables KERNEL_DIRECT_MAPPING_AREA (· ≠ 0) (fun q => q.toNat < first.toNat) [] mem₀ T₀)
    (hroot₀ : T₀ [] = some kernPgtable)
    (h : TreeMapping first kernPgtable (fun q => ∃ π, T₀ π = some q) (Grown T₀ used) st.mem st.la)
    (hv : v.2.toNat < 2 ^ 46)
    (hdraws : ∀ k, Draws linearPage LinearAlloc.supply (linearAllocs k st.la))
    (hlog : ∀ x ∈ st.la.returned, Reached done x) (hn : n = (unused used (directStep v)).length)
    (hok : 0 ∉ (mapDirect kernPgtable st v.2).la.returned) :
    (mapDirect kernPgtable st v.2).la = linearAllocs n st.la ∧
      (mapDirect kernPgtable st v.2).la.supply = st.la.supply.drop n ∧
      (∀ x ∈ (mapDirect kernPgtable st v.2).la.returned,
        x ∈ st.la.returned ∨ x ∈ st.la.supply.take n) ∧
      ((∀ x ∈ mapDirectDerefs kernPgtable st v.2, Reached done x) ↔
        (∀ x ∈ getPaDerefs KERNEL_DIRECT_MAPPING_AREA mem₀ kernPgtable
          (physToKernelDirectMappingAddr v.2), Reached done x) ∧
          ∀ x ∈ st.la.supply.take n, Reached done x) := by
  have hcount := h.mapDirect_count hT₀.below hv hn (Or.inl hok)
  obtain ⟨hleft, -, -⟩ := allocated_supply mmInitPhysAllocLinear_returned n fun k _ => hdraws k
  obtain ⟨new, hnew, hpages, hderefs⟩ := h.mapDirect_new hT₀.below hv hdraws hcount hok
  have hold : 0 ∉ st.la.returned := by
    rw [hnew] at hok
    exact fun hm => hok (List.mem_append_right _ hm)
  refine ⟨hcount, by rw [hcount]; exact hleft, fun x hx => ?_, ?_⟩
  · rw [hnew, List.mem_append] at hx
    exact hx.symm.imp_right (hpages x).mp
  · -- The walk meets the tables of the booting stage and those that were added since.
    have hwalk := fun x => h.getPaDerefs_cases (x := x) hT₀ hroot₀ (direct_pgd_ne_zero hv)
      (fun _ _ hQ => hQ.sub) hold
    constructor
    · intro hall
      exact ⟨fun x hx => hall x ((hderefs x).mpr (Or.inl ((hwalk x).1 hx))),
        fun x hx => hall x ((hderefs x).mpr (Or.inr ((hpages x).mpr hx)))⟩
    · intro ⟨hboot, hsupply⟩ x hx
      cases (hderefs x).mp hx with
      | inl hpath =>
          cases (hwalk x).2 hpath with
          | inl hb => exact hboot x hb
          | inr hm => exact hlog x hm
      | inr hm => exact hsupply x ((hpages x).mp hm)

/-- The first loop reaches its tables exactly when the pages come in time. The induction is on the
visits: what one of them maps is reached by all later ones. -/
theorem directsReached_iff
    (hT₀ : Tables KERNEL_DIRECT_MAPPING_AREA (· ≠ 0) (fun q => q.toNat < first.toNat) [] mem₀ T₀)
    (hroot₀ : T₀ [] = some kernPgtable) (visits : List (MmapEntry × Word))
    (hvisits : ∀ v ∈ visits, v.2.toNat < 2 ^ 46)
    (h : TreeMapping first kernPgtable (fun q => ∃ π, T₀ π = some q) (Grown T₀ used) st.mem st.la)
    (hdraws : ∀ k, Draws linearPage LinearAlloc.supply (linearAllocs k st.la))
    (hlog : ∀ x ∈ st.la.returned, Reached done x)
    (hok : 0 ∉ (visits.foldl (fun st v => mapDirect kernPgtable st v.2) st).la.returned) :
    DirectsReached kernPgtable done st visits ↔
      Climbs mem₀ kernPgtable used done st.la.supply visits := by
  -- On the rounds: each adds the paths of its tables to those in use, and its page to those mapped.
  induction visits generalizing st used done with
  | nil => exact Iff.rfl
  | cons v vs ih =>
      obtain ⟨hv, hvs⟩ := List.forall_mem_cons.mp hvisits
      rw [List.foldl_cons] at hok
      have hok' : 0 ∉ (mapDirect kernPgtable st v.2).la.returned := by
        obtain ⟨j, hj⟩ := mapDirects_allocs kernPgtable vs (mapDirect kernPgtable st v.2)
        rw [hj] at hok
        exact linearAllocs_ok j hok
      generalize hn : (unused used (directStep v)).length = n
      obtain ⟨hla, hsupply, hnew, hiff⟩ := h.mapDirect_reached hT₀ hroot₀ hv hdraws hlog hn.symm hok'
      rw [DirectsReached, Climbs, hn, hiff, and_assoc]
      refine and_congr_right fun _ => and_congr_right fun htaken => ?_
      rw [← hsupply]
      refine ih hvs (h.mapDirect_grown hT₀.below hv) (fun k => ?_) (fun x hx => ?_) hok
      · have hadd : linearAllocs k (linearAllocs n st.la) = linearAllocs (k + n) st.la :=
          (Function.iterate_add_apply _ k n st.la).symm
        rw [hla, hadd]
        exact hdraws (k + n)
      · -- A page of the log was there before, or was reached in this round.
        have hreached : Reached done x := (hnew x hx).elim (hlog x) (htaken x)
        exact hreached.mono fun pa hpa => List.mem_cons_of_mem _ hpa

/-- One visit of the second loop dereferences tables of the booting stage and pages of the
allocator. -/
theorem TreeMapping.backPage_derefs {v : MmapEntry × Word}
    (hT₀ : Tables KERNEL_DIRECT_MAPPING_AREA (· ≠ 0) (fun q => q.toNat < first.toNat) [] mem₀ T₀)
    (hroot₀ : T₀ [] = some kernPgtable)
    (h : TreeMapping first kernPgtable (fun q => ∃ π, T₀ π = some q) (Grown T₀ used) st.mem st.la)
    (hv : v.2.toNat < 2 ^ 46) (hok : 0 ∉ (initFrame kernPgtable st v).la.returned)
    (hx : x ∈ backPageDerefs kernPgtable st (structVa v)) :
    x ∈ getPaDerefs KERNEL_DIRECT_MAPPING_AREA mem₀ kernPgtable (structVa v) ∨
      x ∈ (initFrame kernPgtable st v).la.returned := by
  have hbase := hT₀.below
  obtain ⟨htop, -⟩ := pageVa_pgd_ne_zero (frameIdx_lt hv)
  obtain ⟨k, -, hk⟩ := initFrame_allocs kernPgtable st v
  have hsuffix : st.la.returned ⊆ (initFrame kernPgtable st v).la.returned := by
    rw [hk]
    exact (linearAllocs_log k _).subset
  have hold : 0 ∉ st.la.returned := fun hm => hok (hsuffix hm)
  -- The tables on the path, before anything is allocated.
  have hpath : x ∈ getPaDerefs KERNEL_DIRECT_MAPPING_AREA st.mem kernPgtable (structVa v) →
      x ∈ getPaDerefs KERNEL_DIRECT_MAPPING_AREA mem₀ kernPgtable (structVa v) ∨
        x ∈ (initFrame kernPgtable st v).la.returned := by
    intro hx
    obtain ⟨-, hcases⟩ := h.getPaDerefs_cases hT₀ hroot₀ htop (fun _ _ hQ => hQ.sub) hold
    exact (hcases hx).imp_right fun hm => hsuffix hm
  rw [backPageDerefs, List.mem_append] at hx
  refine hx.elim hpath fun hx => ?_
  by_cases hlookup : mmInitPgtableGetPa st.mem kernPgtable (structVa v) = -1
  · rw [if_pos hlookup] at hx
    rw [initFrame_mapped hlookup] at hok hpath ⊢
    have halloc := h.alloc
    have hx : x ∈ mapDerefs KERNEL_DIRECT_MAPPING_AREA linearPage st.mem
        (mmInitPhysAllocLinear st.la PAGE_SIZE).1 kernPgtable (structVa v)
          (PAGE_ATTR_P ||| PAGE_ATTR_RW) := hx
    generalize (mmInitPhysAllocLinear st.la PAGE_SIZE).1 = la at hx hok hpath halloc ⊢
    generalize (mmInitPhysAllocLinear st.la PAGE_SIZE).2 = pa at hok hpath ⊢
    obtain ⟨new, hnew, hderefs⟩ := halloc.mem_mapDerefs pa hbase htop (by decide) (by decide) hok
    refine ((hderefs x).mp hx).elim hpath fun hm => Or.inr ?_
    rw [hnew]
    exact List.mem_append_left _ hm
  · rw [if_neg hlookup] at hx
    exact absurd hx List.not_mem_nil

/-- The second loop reaches its tables when all pages are reached, by induction on the visits: it
uses tables of the booting stage and pages of the linear allocator, and the first loop has mapped
them all. -/
theorem framesReached
    (hT₀ : Tables KERNEL_DIRECT_MAPPING_AREA (· ≠ 0) (fun q => q.toNat < first.toNat) [] mem₀ T₀)
    (hroot₀ : T₀ [] = some kernPgtable) (visits : List (MmapEntry × Word))
    (hvisits : ∀ v ∈ visits, v.2.toNat < 2 ^ 46)
    (hstructs : ∀ v ∈ visits, ∀ x ∈ getPaDerefs KERNEL_DIRECT_MAPPING_AREA mem₀ kernPgtable (structVa v),
      Reached done x)
    (h : TreeMapping first kernPgtable (fun q => ∃ π, T₀ π = some q) (Grown T₀ used) st.mem st.la)
    (hlog : ∀ x ∈ (visits.foldl (initFrame kernPgtable) st).la.returned, Reached done x)
    (hok : 0 ∉ (visits.foldl (initFrame kernPgtable) st).la.returned) :
    FramesReached kernPgtable done st visits := by
  have hbase := hT₀.below
  induction visits generalizing st used with
  | nil => trivial
  | cons v vs ih =>
      obtain ⟨hv, hvs⟩ := List.forall_mem_cons.mp hvisits
      obtain ⟨hstruct, hstructs⟩ := List.forall_mem_cons.mp hstructs
      rw [List.foldl_cons] at hlog hok
      have hsuffix : (initFrame kernPgtable st v).la.returned ⊆
          (vs.foldl (initFrame kernPgtable) (initFrame kernPgtable st v)).la.returned := by
        obtain ⟨j, hj⟩ := initFrames_allocs kernPgtable vs (initFrame kernPgtable st v)
        rw [hj]
        exact (linearAllocs_log j _).subset
      refine ⟨fun x hx => ?_, ih hvs hstructs (h.initFrame_grown hbase hv) hlog hok⟩
      exact (h.backPage_derefs hT₀ hroot₀ hv (fun hm => hok (hsuffix hm)) hx).elim (hstruct x)
        fun hm => hlog x (hsuffix hm)

end Loops

/-! ### The whole run -/

section Run

variable {first kernPgtable : Word} {entries : List MmapEntry} {visits : List (MmapEntry × Word)}
  {image : KernelImage} {mem₀ : Mem} {b : Buddy} {st : InitState} {la : LinearAlloc}
  {T₀ : List (BitVec 9) → Option Word} {v : MmapEntry × Word} {x : Word}

/-- A page in an available entry that starts on a page is visited by the first loop, and therefore
reached once the loop is over. -/
theorem reached_of_holdsPage {e : MmapEntry} (hstop : ∀ e ∈ entries, e.stop ≤ 2 ^ 46)
    (hvisits : allVisits entries = some visits) (he : e ∈ entries) (haddr : PageAligned e.addr)
    (hpage : e.HoldsPage x) : Reached (visits.map fun v => v.2) x := by
  have hbound := hstop e he
  have hmod := haddr.toNat_mod
  obtain ⟨hlow, hhigh⟩ := hpage
  have hnat : (BitVec.ofNat 64 (4096 * (x.toNat / 4096))).toNat = 4096 * (x.toNat / 4096) := by
    rw [BitVec.toNat_ofNat]
    omega
  refine Or.inr ⟨BitVec.ofNat 64 (4096 * (x.toNat / 4096)), ?_, by omega⟩
  have hmem : BitVec.ofNat 64 (4096 * (x.toNat / 4096)) ∈ byteVisits e := by
    rw [mem_byteVisits (hbound.trans_lt (by decide)), hnat]
    unfold MmapEntry.Visits MmapEntry.Holds MmapEntry.visitIn
    unfold MmapEntry.stop at hhigh
    omega
  rw [allVisits_bytes hstop, Option.some.injEq] at hvisits
  rw [← hvisits, List.mem_map]
  exact ⟨(e, _), List.mem_flatMap.mpr ⟨e, he, List.mem_map_of_mem hmem⟩, rfl⟩

/-- The results of the allocator lie in available entries, as whole pages, however many allocations
there are; the ones that failed are left out. -/
theorem InEntry.returned_inside (h : InEntry entries la) (hends : EndsBelow (2 ^ 64 - 4096) entries)
    (hlog : la.returned = []) (n : Nat) :
    ∀ x ∈ (linearAllocs n la).returned, x ≠ 0 → ∃ e ∈ entries, e.Available ∧ e.HoldsPage x := by
  induction n with
  | zero =>
      intro x hx
      have hx : x ∈ la.returned := hx
      rw [hlog] at hx
      exact absurd hx List.not_mem_nil
  | succ n ih =>
      have hsucc : linearAllocs (n + 1) la = (mmInitPhysAllocLinear (linearAllocs n la) PAGE_SIZE).1 :=
        Function.iterate_succ_apply' _ n la
      obtain ⟨hI, -⟩ := h.allocs hends n
      obtain ⟨-, -, hcase⟩ := hI.alloc hends
      intro x hx hne
      rw [hsucc, mmInitPhysAllocLinear_returned, List.mem_cons] at hx
      cases hx with
      | inl hnew =>
          subst hnew
          exact (hcase.resolve_left hne).2.1
      | inr hold => exact ih x hold hne

/-- The calls of the booting stage have other root entries than the page structs. -/
theorem bootPaths_struct (h : image.Placed) (hv : v.2.toNat < 2 ^ 46) :
    [indexOf PGD_OFFSET (structVa v)] ∉ bootPaths image := by
  intro hmem
  obtain ⟨c, hc, hpath⟩ := List.mem_flatMap.mp hmem
  obtain ⟨k, -, -, hk⟩ := mem_innerPaths.mp hpath
  obtain rfl : 1 = k := by
    have hlen := congrArg List.length hk
    rwa [upperPath_length] at hlen
  have hsame : upperPath (structVa v) 1 = upperPath c.va 1 := hk
  rw [← sameFrom_iff (structVa v) c.va 1 (by decide), sameFrom_iff_nat] at hsame
  have hidx := frameIdx_lt hv
  have hsize := h.size_lt
  have hbase : KERNEL_BASE_ADDR.toNat = 18446744071578845184 := rfl
  have hdirect : KERNEL_DIRECT_MAPPING_AREA.toNat = 18446612682070032384 := rfl
  have harray : KERNEL_PAGE_ARRAY.toNat = 18446603336221196288 := rfl
  have hstruct : (64 : Word).toNat = 64 := rfl
  rw [structVa, pageVa, BitVec.toNat_add, BitVec.toNat_mul, harray, hstruct] at hsame
  obtain ⟨-, ⟨hva, hpa⟩ | ⟨hva, hpa⟩⟩ := bootCalls_place h hc
  · have hpa := BitVec.lt_def.mp hpa
    have hend := h.size_toNat
    have hlt := image.kernelEnd.isLt
    rw [hva, BitVec.toNat_add, hbase] at hsame
    omega
  · have hpa : c.pa.toNat < 0xa00000 := BitVec.lt_def.mp hpa
    rw [hva, BitVec.toNat_add, hdirect] at hsame
    omega

/-- So a lookup in the page table of the booting stage ends at the root. -/
theorem getPaDerefs_struct (h : image.Placed) (hv : v.2.toNat < 2 ^ 46)
    (hroot₀ : T₀ [] = some kernPgtable)
    (hgrown : Grown T₀ (bootPaths image) T₀ (SumiOS.entries KERNEL_DIRECT_MAPPING_AREA mem₀ T₀)) :
    getPaDerefs KERNEL_DIRECT_MAPPING_AREA mem₀ kernPgtable (structVa v) = [kernPgtable] := by
  obtain ⟨htop, -⟩ := pageVa_pgd_ne_zero (frameIdx_lt hv)
  have hempty : view KERNEL_DIRECT_MAPPING_AREA mem₀ kernPgtable (indexOf PGD_OFFSET (structVa v)) = 0 := by
    by_contra hne
    rw [← entries_some hroot₀] at hne
    exact bootPaths_struct h hv ((hgrown.inner _ htop _ List.mem_cons_self).mp hne)
  rw [getPaDerefs_eq, innerIndices, walkDerefs, if_pos hempty]

/-- All pages of the allocator lie in frames that the first loop visits, because they lie in
available entries. -/
theorem beforeFree_returned_reached
    (haddrs : ∀ e ∈ entries, e.Available → PageAligned e.addr) (hstop : ∀ e ∈ entries, e.stop ≤ 2 ^ 46)
    (hfirst : PageAligned first) (hin : ∃ e ∈ entries, e.Available ∧ e.Holds first.toNat)
    (hvisits : allVisits entries = some visits)
    (hbefore : beforeFree first kernPgtable entries visits mem₀ b = some st)
    (hok : 0 ∉ st.la.returned) : ∀ x ∈ st.la.returned, Reached (visits.map fun v => v.2) x := by
  have hends := endsBelow_of_bounded hstop
  obtain ⟨la, n, hscan, hla⟩ := beforeFree_allocs hbefore
  obtain ⟨hI, -⟩ := (scanned_of_bounded hstop hscan).inEntry hends hin
  obtain ⟨-, hlog⟩ := linearInv_scanned haddrs hstop hfirst hin hscan
  intro x hx
  have hne : x ≠ 0 := fun h0 => hok (h0 ▸ hx)
  rw [hla] at hx
  obtain ⟨e, he, havail, hpage⟩ := hI.returned_inside hends hlog n x hx hne
  exact reached_of_holdsPage hstop hvisits he (haddrs e he havail) hpage

/-- On a page table that maps no page struct, only the first loop matters. -/
theorem tablesReached_iff_climbs {used : List (List (BitVec 9))}
    (haddrs : ∀ e ∈ entries, e.Available → PageAligned e.addr) (hstop : ∀ e ∈ entries, e.stop ≤ 2 ^ 46)
    (hfirst : PageAligned first) (hpos : first ≠ 0)
    (hin : ∃ e ∈ entries, e.Available ∧ e.Holds first.toNat)
    (hT₀ : Tables KERNEL_DIRECT_MAPPING_AREA (· ≠ 0) (fun q => q.toNat < first.toNat) [] mem₀ T₀)
    (hroot₀ : T₀ [] = some kernPgtable)
    (hgrown : Grown T₀ used T₀ (SumiOS.entries KERNEL_DIRECT_MAPPING_AREA mem₀ T₀))
    (hstructs : ∀ v ∈ visits,
      getPaDerefs KERNEL_DIRECT_MAPPING_AREA mem₀ kernPgtable (structVa v) = [kernPgtable])
    (hvisits : allVisits entries = some visits)
    (hbefore : beforeFree first kernPgtable entries visits mem₀ b = some st)
    (hok : 0 ∉ st.la.returned) :
    TablesReached first kernPgtable entries visits mem₀ b ↔
      Climbs mem₀ kernPgtable used [] (kernelSupply first entries) visits := by
  have hlt := visits_lt hstop hvisits
  obtain ⟨la, n, hscan, hla⟩ := beforeFree_allocs hbefore
  obtain ⟨hinv, hlog⟩ := linearInv_scanned haddrs hstop hfirst hin hscan
  obtain ⟨hsupply, hdraws⟩ := draws_scanned hstop hpos hin hscan
  have hempty : TreeMapping first kernPgtable (fun q => ∃ π, T₀ π = some q) (Grown T₀ used)
      (InitState.mk mem₀ la b).mem (InitState.mk mem₀ la b).la :=
    TreeMapping.start hT₀ hroot₀ hgrown hinv
  have hreturned := beforeFree_returned_reached haddrs hstop hfirst hin hvisits hbefore hok
  -- The first loop.
  have hdirects : 0 ∉ (visits.foldl (fun st v => mapDirect kernPgtable st v.2)
      ⟨mem₀, la, b⟩).la.returned → (DirectsReached kernPgtable [] ⟨mem₀, la, b⟩ visits ↔
        Climbs mem₀ kernPgtable used [] (kernelSupply first entries) visits) := by
    intro hok₁
    rw [← hsupply]
    refine directsReached_iff hT₀ hroot₀ visits hlt hempty hdraws (fun x hx => ?_) hok₁
    exact absurd (hlog ▸ hx) List.not_mem_nil
  obtain ⟨htree, -⟩ := TreeMapping.mapDirects_count hT₀.below visits hlt hempty
  rw [beforeFree, hscan, Option.map_some, Option.some.injEq] at hbefore
  dsimp only at hbefore
  generalize hst₁ : visits.foldl (fun st v => mapDirect kernPgtable st v.2) ⟨mem₀, la, b⟩ = st₁
    at hbefore htree hdirects
  have hlast : st.la = (visits.foldl (initFrame kernPgtable) st₁).la := by rw [← hbefore]
  rw [hlast] at hok hreturned
  -- The allocations of the second loop come after it, so none of the first one failed either.
  have hok₁ : 0 ∉ st₁.la.returned := by
    obtain ⟨j, hj⟩ := initFrames_allocs kernPgtable visits st₁
    rw [hj] at hok
    exact linearAllocs_ok j hok
  constructor
  · intro hreach
    obtain ⟨la', hscan', hfirstLoop, -⟩ := hreach
    obtain rfl : la = la' := Option.some.inj (hscan.symm.trans hscan')
    exact (hdirects hok₁).mp hfirstLoop
  · intro hclimbs
    -- The second loop reads the root only, as no page struct is mapped before.
    refine ⟨la, hscan, (hdirects hok₁).mpr hclimbs, ?_⟩
    rw [hst₁]
    refine framesReached hT₀ hroot₀ visits hlt (fun v hv x hx => ?_) htree hreturned hok
    rw [hstructs v hv, List.mem_singleton] at hx
    have hroot : Reached [] kernPgtable := hclimbs.root (List.ne_nil_of_mem hv)
    exact hx ▸ hroot.mono fun _ hpa => absurd hpa List.not_mem_nil

/-- The two loops of `mm_pages_allocator_init` reach all tables that they dereference exactly
when the pages come in time, for every image and every memory map with the cursor of the
booting stage in an available entry, when no allocation fails. -/
theorem tablesReached_iff {bootStart total root : Word} {m m' : Mem} {mm : BootMm} (h : image.Placed)
    (hinit : bootMmPgtableInit image m (BootMm.start total (bootMmInitStart bootStart image))
      = some (m', mm, root)) (hboot : 0 ∉ mm.returned)
    (haddrs : ∀ e ∈ entries, e.Available → PageAligned e.addr) (hstop : ∀ e ∈ entries, e.stop ≤ 2 ^ 46)
    (hin : ∃ e ∈ entries, e.Available ∧ e.Holds mm.bootMemAllocStart.toNat)
    (hvisits : allVisits entries = some visits)
    (hbefore : beforeFree mm.bootMemAllocStart root entries visits (directMem m') b = some st)
    (hok : 0 ∉ st.la.returned) :
    TablesReached mm.bootMemAllocStart root entries visits (directMem m') b ↔
      Climbs (directMem m') root (bootPaths image) [] (kernelSupply mm.bootMemAllocStart entries)
        visits := by
  have hpos := bootStage_cursor_ne_zero h hinit
  obtain ⟨-, haligned⟩ := bootStage_cursor h hinit hboot
  obtain ⟨T₀, hT₀, hroot₀, hgrown⟩ := bootMmPgtableInit_grown h (align_aligned _) hinit hboot hpos
  have hlt := visits_lt hstop hvisits
  exact tablesReached_iff_climbs haddrs hstop haligned hpos hin hT₀ hroot₀ hgrown
    (fun v hv => getPaDerefs_struct h (hlt v hv) hroot₀ hgrown) hvisits hbefore hok

end Run

/-! ### An image on a small machine -/

/-- All tables of this machine are below 10 MB, which the booting stage maps directly, so that they
are reached from the first round on. -/
theorem tablesReached_iff_lowImage :
    ∃ m' mm root visits,
      bootMmPgtableInit lowImage (fun _ => 0)
        (BootMm.start 0x800000 (bootMmInitStart 0x100000 lowImage)) = some (m', mm, root) ∧
      allVisits lowMap = some visits ∧
      TablesReached mm.bootMemAllocStart root lowMap visits (directMem m') cleared := by
  obtain ⟨m', mm, root, visits, st, hinit, hboot, hin, hsupply, hvisits, hbefore, hok⟩ := lowImage_run
  refine ⟨m', mm, root, visits, hinit, hvisits, (tablesReached_iff lowImage_placed hinit hboot
    (by decide) (by decide) ⟨⟨0x100000, 0x700000, 1⟩, by decide, rfl, hin⟩ hvisits hbefore
    hok).mpr (Climbs.of_low (fun v hv x hx => ?_) fun x hx => ?_)⟩
  · -- The tables of the booting stage are in front of its cursor.
    obtain ⟨T₀, hT₀, hroot₀, -⟩ := bootMmPgtableInit_grown lowImage_placed (align_aligned _) hinit
      hboot (bootStage_cursor_ne_zero lowImage_placed hinit)
    have hv : v.2.toNat < 2 ^ 46 := visits_lt (by decide) hvisits v hv
    obtain ⟨k, -, hk⟩ := (mem_getPaDerefs hT₀ hroot₀ (direct_pgd_ne_zero hv)).mp hx
    exact BitVec.lt_def.mpr ((hT₀.below x ⟨_, hk⟩).trans (hin.2.trans (by decide)))
  · exact BitVec.lt_def.mpr ((hsupply x hx).2.trans (by decide))

/-! ### An image that is too large -/

/-- An image that ends at 10 MB. -/
def largeImage : KernelImage :=
  ⟨KERNEL_BASE_ADDR + 0x100000, KERNEL_BASE_ADDR + 0xa00000, 0x100000⟩

/-- The memory map of a machine with 256 MB. -/
def largeMap : List MmapEntry :=
  [⟨0, 0x9fc00, 1⟩, ⟨0x9fc00, 0x400, 2⟩, ⟨0x100000, 0xff00000, 1⟩]

/-- The image that ends at 10 MB lies where the linker script may put one. -/
theorem largeImage_placed : largeImage.Placed := by decide

/-- The booting stage allocates from the page behind 10 MB on, where the direct mapping of that
stage has ended. -/
theorem largeImage_start : bootMmInitStart 0x100000 largeImage = 0xa01000 := by decide

/-- It makes 5120 calls: half of them for the image and half for the direct mapping area. -/
theorem largeImage_calls : (bootCalls largeImage).length = 5120 := by
  rw [bootCalls_length]
  decide

/-- The booting stage has enough memory. Its root is the first page that it may use. -/
theorem largeImage_boot :
    ∃ m' mm, bootMmPgtableInit largeImage (fun _ => 0)
        (BootMm.start 0x10000000 (bootMmInitStart 0x100000 largeImage)) = some (m', mm, 0xa01000) ∧
      0 ∉ mm.returned := by
  cases halloc : bootMmAlloc (BootMm.start 0x10000000 (bootMmInitStart 0x100000 largeImage)) PAGE_SIZE with
  | mk mm root =>
      obtain rfl : root = 0xa01000 := by
        have hroot := congrArg Prod.snd halloc
        rw [largeImage_start] at hroot
        exact hroot.symm.trans (by decide)
      have hinit := bootMmPgtableInit_eq largeImage_placed (fun _ => 0) halloc rfl
      have hboot := returned_of_image largeImage_placed (by rw [largeImage_start]; decide)
        (by rw [largeImage_start, largeImage_calls]; decide) hinit
      exact ⟨_, _, hinit, hboot⟩

/-- With this image and this memory map no allocation fails, although the booting stage begins to
allocate at the end of what it maps directly. -/
theorem largeImage_run :
    ∃ m' mm visits st,
      bootMmPgtableInit largeImage (fun _ => 0)
        (BootMm.start 0x10000000 (bootMmInitStart 0x100000 largeImage)) = some (m', mm, 0xa01000) ∧
      0 ∉ mm.returned ∧
      (∃ e ∈ largeMap, e.Available ∧ e.Holds mm.bootMemAllocStart.toNat) ∧
      allVisits largeMap = some visits ∧
      beforeFree mm.bootMemAllocStart 0xa01000 largeMap visits (directMem m') cleared = some st ∧
      0 ∉ st.la.returned := by
  obtain ⟨m', mm, hinit, hboot⟩ := largeImage_boot
  have hdemand : bootDemand largeImage ≤ _ := bootDemand_regions largeImage_placed
  have hsize : largeImage.size.toNat = 0xa00000 := by decide
  have hroom : largeImage.size.toNat + 4096 * (2 + bootDemand largeImage + 35 * 128) ≤
      (⟨0x100000, 0xff00000, 1⟩ : MmapEntry).stop := by
    rw [hsize] at hdemand ⊢
    generalize bootDemand largeImage = n at hdemand
    refine Nat.le_trans ?_ (show 0x10000000 ≤ _ by decide)
    omega
  obtain ⟨hin, -, visits, st, hvisits, hbefore, hok⟩ :=
    lastEntry_run [⟨0, 0x9fc00, 1⟩, ⟨0x9fc00, 0x400, 2⟩] ⟨0x100000, 0xff00000, 1⟩
      largeImage_placed hinit hboot (by decide) (by decide) (by decide) (by decide) rfl (by decide)
      (by decide) hroom cleared
  exact ⟨m', mm, visits, st, hinit, hboot, ⟨⟨0x100000, 0xff00000, 1⟩, by decide, rfl, hin⟩, hvisits,
    hbefore, hok⟩

/-- The first call of the first loop dereferences the root above 10 MB, and nothing is mapped
there. -/
theorem not_tablesReached_largeImage :
    ∃ m' mm visits st,
      bootMmPgtableInit largeImage (fun _ => 0)
        (BootMm.start 0x10000000 (bootMmInitStart 0x100000 largeImage)) = some (m', mm, 0xa01000) ∧
      0 ∉ mm.returned ∧
      (∃ e ∈ largeMap, e.Available ∧ e.Holds mm.bootMemAllocStart.toNat) ∧
      allVisits largeMap = some visits ∧
      beforeFree mm.bootMemAllocStart 0xa01000 largeMap visits (directMem m') cleared = some st ∧
      0 ∉ st.la.returned ∧
      ¬ TablesReached mm.bootMemAllocStart 0xa01000 largeMap visits (directMem m') cleared := by
  obtain ⟨m', mm, visits, st, hinit, hboot, hin, hvisits, hbefore, hok⟩ := largeImage_run
  refine ⟨m', mm, visits, st, hinit, hboot, hin, hvisits, hbefore, hok, fun hreach => ?_⟩
  obtain ⟨la, -, hdirects, -⟩ := hreach
  have hmem : (⟨0, 0x9fc00, 1⟩, 0) ∈ visits := by
    rw [allVisits_bytes (by decide), Option.some.injEq] at hvisits
    rw [← hvisits]
    refine List.mem_flatMap.mpr ⟨_, List.mem_cons_self, List.mem_map_of_mem ?_⟩
    rw [mem_byteVisits (by decide)]
    decide
  have hroot : Reached [] (0xa01000 : Word) := hdirects.root (List.ne_nil_of_mem hmem)
  cases hroot with
  | inl hlow => exact absurd (BitVec.lt_def.mp hlow) (by decide)
  | inr hdone =>
      obtain ⟨pa, hpa, -⟩ := hdone
      exact absurd hpa List.not_mem_nil

end SumiOS
