import SumiOS.Proofs.Init.Setup
import SumiOS.Proofs.PageTable.Lookup

/-!
# `SumiOS.Proofs.Init.Mapping`: the page table until the frames are freed

The loops of `mm_pages_allocator_init` map pages in the table of the booting stage,
with pages of the linear allocator. While no allocation fails, the tables stay a
tree (`KernelMapping`). It carries a property of the entries: a call keeps those that
its `Effect` keeps (`KernelMapping.map`).

Two properties are used. `Backed` says that pages are mapped, and gives
`KernelMapping.pageMapped`: every page struct that the loops visit is mapped when the
frames are freed. `Opened` says that the tables for an address are there, and bounds
the number of allocations (`beforeFree_few`). The run on `holeMap` is a case of that.
-/

set_option autoImplicit false

namespace SumiOS

open Lib

/-- A page table whose tables lie below `first`, in the memory of the kernel. Root entry 0
belongs to the old mapping of the booting stage and may refer to anything. -/
def KernelTables (mem : Mem) (kernPgtable first : Word) : Prop :=
  ∃ T, Tables KERNEL_DIRECT_MAPPING_AREA (· ≠ 0) (fun q => q.toNat < first.toNat) [] mem T ∧
    T [] = some kernPgtable

/-- A page table that grows by pages of the linear allocator, while no allocation has
failed: a tree with tables in `base` and in these pages. `Q` holds of its tables and of its
entries. -/
structure TreeMapping (first kernPgtable : Word) (base : Word → Prop)
    (Q : (List (BitVec 9) → Option Word) → (List (BitVec 9) → Word) → Prop) (mem : Mem)
    (la : LinearAlloc) : Prop where
  linear : LinearInv first la
  tree : 0 ∉ la.returned → ∃ T,
    Tables KERNEL_DIRECT_MAPPING_AREA (· ≠ 0) base la.returned mem T ∧
      T [] = some kernPgtable ∧ Q T (entries KERNEL_DIRECT_MAPPING_AREA mem T)

/-- The page table of the kernel, while no allocation has failed: a tree with tables below
`first` and in pages of the linear allocator. `P` holds of its entries. -/
structure KernelMapping (first kernPgtable : Word) (P : (List (BitVec 9) → Word) → Prop)
    (mem : Mem) (la : LinearAlloc) : Prop where
  linear : LinearInv first la
  tree : 0 ∉ la.returned → ∃ T,
    Tables KERNEL_DIRECT_MAPPING_AREA (· ≠ 0) (fun q => q.toNat < first.toNat) la.returned mem T ∧
      T [] = some kernPgtable ∧ P (entries KERNEL_DIRECT_MAPPING_AREA mem T)

/-- The pages of these addresses are mapped, and not to frame 0. -/
def Backed (vas : List Word) (A : List (BitVec 9) → Word) : Prop :=
  ∀ va ∈ vas, A (pathOf va) &&& PAGE_MASK ≠ 0

/-- There are tables for the address. -/
def Opened (va : Word) (A : List (BitVec 9) → Word) : Prop := ∀ π ∈ innerPaths va, A π ≠ 0

/-! ### What calls keep -/

section Effect

variable {va va' pa attr : Word} {vas : List Word} {A A' : List (BitVec 9) → Word}

/-- A call opens the tables of its address: afterwards none of the inner entries on its path is
empty. -/
theorem Effect.opens (h : Effect va pa attr A A') (hP : attr &&& PAGE_ATTR_P = PAGE_ATTR_P) :
    Opened va A' := by
  intro π hπ
  by_cases hz : A π = 0
  · obtain ⟨q, -, hq⟩ := h.link π hπ hz
    rw [hq]
    exact or_attr_ne_zero hP
  · have hne : π ≠ pathOf va := fun he => pathOf_not_inner (he ▸ hπ)
    rw [h.keep π hne fun hm => hz hm.2]
    exact hz

/-- Tables stay: what an earlier call has opened is open after every further one. -/
theorem Effect.opened (h : Effect va pa attr A A') (hA : Opened va' A) : Opened va' A' := by
  intro π hπ
  have hne : π ≠ pathOf va := fun he => pathOf_not_inner (he ▸ hπ)
  rw [h.keep π hne fun hm => hA π hπ hm.2]
  exact hA π hπ

/-- A call that maps a page to a frame other than 0 backs it, and keeps what is backed. -/
theorem Effect.backed (h : Effect va pa attr A A') (hpa : PageAligned pa) (hne : pa ≠ 0)
    (hattr : attr &&& PAGE_MASK = 0) (hA : Backed vas A) : Backed (va :: vas) A' := by
  have hleaf : A' (pathOf va) &&& PAGE_MASK ≠ 0 := by
    rw [h.leaf, hpa.or_and hattr]
    exact hne
  refine List.forall_mem_cons.mpr ⟨hleaf, fun va' hva' => ?_⟩
  by_cases he : pathOf va' = pathOf va
  · rw [he]
    exact hleaf
  · rw [h.keep _ he fun hm => pathOf_not_inner hm.1]
    exact hA va' hva'

end Effect

/-! ### The steps of the loops -/

section Steps

variable {first kernPgtable va pa attr : Word} {P P' : (List (BitVec 9) → Word) → Prop}
  {base : Word → Prop} {Q Q' : (List (BitVec 9) → Option Word) → (List (BitVec 9) → Word) → Prop}
  {mem : Mem} {la : LinearAlloc} {vas : List Word} {st : InitState}

/-- The table of the booting stage, before the first allocation. -/
theorem KernelTables.mapping (h : KernelTables mem kernPgtable first) (hla : LinearInv first la)
    (hlog : la.returned = [])
    (hP : ∀ base log T, Tables KERNEL_DIRECT_MAPPING_AREA (· ≠ 0) base log mem T →
      T [] = some kernPgtable → P (entries KERNEL_DIRECT_MAPPING_AREA mem T)) :
    KernelMapping first kernPgtable P mem la where
  linear := hla
  tree _ := by
    obtain ⟨T, hT, hroot⟩ := h
    rw [hlog]
    exact ⟨T, hT, hroot, hP _ _ T hT hroot⟩

/-- What is known of the mapped entries may be weakened without losing the rest of the
invariant. -/
theorem KernelMapping.mono (h : KernelMapping first kernPgtable P mem la) (hP : ∀ A, P A → P' A) :
    KernelMapping first kernPgtable P' mem la where
  linear := h.linear
  tree hok := by
    obtain ⟨T, hT, hroot, hA⟩ := h.tree hok
    exact ⟨T, hT, hroot, hP _ hA⟩

/-- It is a page table that grows, with tables below `first` to begin with. -/
theorem kernelMapping_iff : KernelMapping first kernPgtable P mem la ↔
    TreeMapping first kernPgtable (fun q => q.toNat < first.toNat) (fun _ A => P A) mem la :=
  ⟨fun h => ⟨h.linear, h.tree⟩, fun h => ⟨h.linear, h.tree⟩⟩

/-- An allocation of a page that is not a table. -/
theorem TreeMapping.alloc (h : TreeMapping first kernPgtable base Q mem la) :
    TreeMapping first kernPgtable base Q mem (mmInitPhysAllocLinear la PAGE_SIZE).1 where
  linear := h.linear.alloc
  tree hok := by
    rw [mmInitPhysAllocLinear_returned] at hok ⊢
    obtain ⟨T, hT, hroot, hA⟩ := h.tree fun hm => hok (List.mem_cons_of_mem _ hm)
    exact ⟨T, ⟨hT.laid, hT.aligned, fun π p hp => (hT.used π p hp).imp_right
      (List.mem_cons_of_mem _)⟩, hroot, hA⟩

/-- A mapping call of the initialization keeps the tree, and carries what is known of its
entries over as the effect of the call demands. Only while no allocation fails does that
knowledge count. -/
theorem TreeMapping.map (h : TreeMapping first kernPgtable base Q mem la)
    (hbase : ∀ q, base q → q.toNat < first.toNat) (htop : indexOf PGD_OFFSET va ≠ 0)
    (hattr : attr &&& PAGE_MASK = 0) (hP : attr &&& PAGE_ATTR_P = PAGE_ATTR_P)
    (hstep : 0 ∉ la.returned → ∀ T T' A A', Q T A → (∀ π p, T π = some p → T' π = some p) →
      Effect va pa attr A A' → Q' T' A') :
    TreeMapping first kernPgtable base Q' (mmInitPgtableMap mem la kernPgtable va pa attr).1
      (mmInitPgtableMap mem la kernPgtable va pa attr).2 := by
  obtain ⟨n, -, hn⟩ := mmInitPgtableMap_allocs mem la kernPgtable va pa attr
  have hlinear : LinearInv first (mmInitPgtableMap mem la kernPgtable va pa attr).2 := by
    rw [hn]
    exact h.linear.allocs n
  refine ⟨hlinear, fun hok => ?_⟩
  have hold : 0 ∉ la.returned := by
    rw [hn] at hok
    exact linearAllocs_ok n hok
  obtain ⟨T, hT, hroot, hA⟩ := h.tree hold
  have hfresh : Fresh base _ := (hlinear.cursor hok).risen.fresh hbase
  obtain ⟨T', hT', hsub, heffect⟩ := pgtableMap_spec mmInitPhysAllocLinear_returned hattr hP hT hroot
    htop rfl hfresh
  exact ⟨T', hT', hsub _ _ hroot, hstep hold _ _ _ _ hA hsub heffect⟩

/-- A mapping call of the kernel keeps the invariant, and carries the knowledge about the entries
from `P` to `P'` as long as no allocation has failed. -/
theorem KernelMapping.map (h : KernelMapping first kernPgtable P mem la)
    (htop : indexOf PGD_OFFSET va ≠ 0) (hattr : attr &&& PAGE_MASK = 0)
    (hP : attr &&& PAGE_ATTR_P = PAGE_ATTR_P)
    (hstep : 0 ∉ la.returned → ∀ A A', P A → Effect va pa attr A A' → P' A') :
    KernelMapping first kernPgtable P' (mmInitPgtableMap mem la kernPgtable va pa attr).1
      (mmInitPgtableMap mem la kernPgtable va pa attr).2 :=
  kernelMapping_iff.mpr <| (kernelMapping_iff.mp h).map (fun _ hq => hq) htop hattr hP
    fun hok _ _ A A' hA _ => hstep hok A A' hA

/-- A mapping call for an address whose tables are there allocates nothing. -/
theorem KernelMapping.map_used (h : KernelMapping first kernPgtable P mem la) (pa attr : Word)
    (hok : 0 ∉ la.returned) (htop : indexOf PGD_OFFSET va ≠ 0) (hopen : ∀ A, P A → Opened va A) :
    (mmInitPgtableMap mem la kernPgtable va pa attr).2 = la := by
  obtain ⟨T, hT, hroot, hA⟩ := h.tree hok
  exact pgtableMap_used hT hroot htop (hopen _ hA)

/-- The lookup finds exactly what is backed: it answers `-1` when an entry on the path is zero, and
otherwise the page in the leaf, which is zero for a leaf that backs nothing. -/
theorem lookup_eq_iff {base : Word → Prop} {log : List Word} {T : List (BitVec 9) → Option Word}
    (hT : Tables KERNEL_DIRECT_MAPPING_AREA (· ≠ 0) base log mem T)
    (hroot : T [] = some kernPgtable) (htop : indexOf PGD_OFFSET va ≠ 0)
    (hva : kernelVaIsPhysZero va = false) :
    mmInitPgtableGetPa mem kernPgtable va = -1 ↔
      entries KERNEL_DIRECT_MAPPING_AREA mem T (pathOf va) &&& PAGE_MASK = 0 := by
  rw [mmInitPgtableGetPa, pgtableGetPa_eq, ← pgtableWalk_getD hT hroot htop]
  cases pgtableWalk KERNEL_DIRECT_MAPPING_AREA mem kernPgtable va with
  | none => exact iff_of_true rfl BitVec.zero_and
  | some e =>
      simp only [lookupOf, hva, Bool.not_false, Bool.and_true, decide_eq_true_eq,
        Option.getD_some]
      by_cases he : e &&& PAGE_MASK = 0
      · rw [if_pos he]
        exact iff_of_true rfl he
      · rw [if_neg he]
        refine iff_of_false (fun hminus => ?_) he
        have haligned := pageAligned_and e
        rw [hminus] at haligned
        exact absurd haligned (by decide)

/-- The step of the loop that maps the direct mapping area. -/
theorem KernelMapping.mapDirect (h : KernelMapping first kernPgtable P st.mem st.la)
    (htop : indexOf PGD_OFFSET (physToKernelDirectMappingAddr pa) ≠ 0)
    (hstep : ∀ A A', P A → Effect (physToKernelDirectMappingAddr pa) pa (PAGE_ATTR_RW ||| PAGE_ATTR_P)
      A A' → P' A') :
    KernelMapping first kernPgtable P' (mapDirect kernPgtable st pa).mem
      (mapDirect kernPgtable st pa).la :=
  h.map htop (by decide) (by decide) fun _ => hstep

/-- The step of the loop over the page structs: the page of the struct is mapped already,
or it is mapped to a new frame. -/
theorem TreeMapping.backPage (h : TreeMapping first kernPgtable base Q st.mem st.la)
    (hbase : ∀ q, base q → q.toNat < first.toNat)
    (htop : indexOf PGD_OFFSET va ≠ 0) (hva : kernelVaIsPhysZero va = false)
    (hold : ∀ T A, Q T A → A (pathOf va) &&& PAGE_MASK ≠ 0 → Q' T A)
    (hnew : ∀ pa T T' A A', PageAligned pa → pa ≠ 0 → Q T A →
      (∀ π p, T π = some p → T' π = some p) →
      Effect va pa (PAGE_ATTR_P ||| PAGE_ATTR_RW) A A' → Q' T' A') :
    TreeMapping first kernPgtable base Q' (backPage kernPgtable st va).mem
      (backPage kernPgtable st va).la := by
  unfold SumiOS.backPage
  by_cases hlookup : mmInitPgtableGetPa st.mem kernPgtable va = -1
  · rw [if_pos hlookup]
    have halloc := h.alloc
    refine halloc.map hbase htop (by decide) (by decide) fun hok T T' A A' hA hsub heffect => ?_
    -- The page that was allocated for the structs.
    have hmem : (mmInitPhysAllocLinear st.la PAGE_SIZE).2 ∈
        (mmInitPhysAllocLinear st.la PAGE_SIZE).1.returned := by
      rw [mmInitPhysAllocLinear_returned]
      exact List.mem_cons_self
    have hne : (mmInitPhysAllocLinear st.la PAGE_SIZE).2 ≠ 0 := fun he => hok (he ▸ hmem)
    exact hnew _ _ _ _ _ ((halloc.linear.cursor hok).risen.aligned _ hmem) hne hA hsub heffect
  · rw [if_neg hlookup]
    refine ⟨h.linear, fun hok => ?_⟩
    obtain ⟨T, hT, hroot, hA⟩ := h.tree hok
    rw [lookup_eq_iff hT hroot htop hva] at hlookup
    exact ⟨T, hT, hroot, hold _ _ hA hlookup⟩

/-- Backing a page with memory keeps the invariant: either the page is mapped already, or a new one
is allocated and mapped there. -/
theorem KernelMapping.backPage (h : KernelMapping first kernPgtable P st.mem st.la)
    (htop : indexOf PGD_OFFSET va ≠ 0) (hva : kernelVaIsPhysZero va = false)
    (hold : ∀ A, P A → A (pathOf va) &&& PAGE_MASK ≠ 0 → P' A)
    (hnew : ∀ pa A A', PageAligned pa → pa ≠ 0 → P A →
      Effect va pa (PAGE_ATTR_P ||| PAGE_ATTR_RW) A A' → P' A') :
    KernelMapping first kernPgtable P' (backPage kernPgtable st va).mem
      (backPage kernPgtable st va).la :=
  kernelMapping_iff.mpr <| (kernelMapping_iff.mp h).backPage (fun _ hq => hq) htop hva
    (fun _ => hold) fun pa _ _ A A' hpa hne hA _ => hnew pa A A' hpa hne hA

/-- A property of the entries, for the page structs so far, that the loop over the page
structs keeps. -/
structure Tracks (P : List Word → (List (BitVec 9) → Word) → Prop) : Prop where
  old : ∀ va vas A, P vas A → A (pathOf va) &&& PAGE_MASK ≠ 0 → P (va :: vas) A
  new : ∀ va vas pa A A', PageAligned pa → pa ≠ 0 → P vas A →
    Effect va pa (PAGE_ATTR_P ||| PAGE_ATTR_RW) A A' → P (va :: vas) A'

/-- A page that is backed stays backed while others are mapped, so being backed is one of the
properties that the loop over the page structs keeps. -/
theorem backed_tracks : Tracks Backed where
  old va vas A hA hva := List.forall_mem_cons.mpr ⟨hva, hA⟩
  new va vas pa A A' hpa hne hA heffect := heffect.backed hpa hne (by decide) hA

end Steps

/-! ### The addresses of the loops -/

section Addresses

variable {pa idx : Word} {entries : List MmapEntry} {v : MmapEntry × Word}

/-- An address outside the first 512 GB does not use the first entry of the topmost table, the one
that the boot stage owns. -/
theorem indexOf_pgd_ne_zero {va : Word} (h : va.toNat / 2 ^ 39 % 512 ≠ 0) :
    indexOf PGD_OFFSET va ≠ 0 := by
  intro hzero
  have hnat := congrArg BitVec.toNat hzero
  rw [indexOf, BitVec.extractLsb'_toNat, Nat.shiftRight_eq_div_pow] at hnat
  exact h hnat

/-- The direct mapping area of the first `2 ^ 46` bytes has the root entries 273 to 400. -/
theorem direct_pgd_ne_zero (h : pa.toNat < 2 ^ 46) :
    indexOf PGD_OFFSET (physToKernelDirectMappingAddr pa) ≠ 0 := by
  have hbase : KERNEL_DIRECT_MAPPING_AREA.toNat = 0xffff888000000000 := rfl
  refine indexOf_pgd_ne_zero ?_
  rw [physToKernelDirectMappingAddr, BitVec.toNat_add, hbase]
  omega

/-- The page array of these frames has the root entries 256 and 257, and does not come
up to the direct mapping area. -/
theorem pageVa_pgd_ne_zero (h : idx.toNat < 2 ^ 34) :
    indexOf PGD_OFFSET (pageVa idx) ≠ 0 ∧ kernelVaIsPhysZero (pageVa idx) = false := by
  have hnat : (pageVa idx).toNat = 0xffff800000000000 + idx.toNat * 64 := by
    have hbase : KERNEL_PAGE_ARRAY.toNat = 0xffff800000000000 := rfl
    have hsize : (64 : Word).toNat = 64 := rfl
    rw [pageVa, BitVec.toNat_add, BitVec.toNat_mul, hbase, hsize]
    omega
  have hne : ∀ w : Word, w.toNat ≠ 0xffff800000000000 + idx.toNat * 64 → pageVa idx ≠ w := by
    intro w hw he
    rw [he] at hnat
    exact hw hnat
  have hdirect : KERNEL_DIRECT_MAPPING_AREA.toNat = 0xffff888000000000 := rfl
  have hkernel : KERNEL_BASE_ADDR.toNat = 0xffffffff81000000 := rfl
  refine ⟨indexOf_pgd_ne_zero (by omega), ?_⟩
  rw [kernelVaIsPhysZero, beq_false_of_ne (hne _ (by omega)), beq_false_of_ne (hne _ (by omega))]
  rfl

/-- Every address that the loops visit lies in an area of the map, and so below its bound. -/
theorem visitsOf_lt (hmap : MemoryMap (2 ^ 46) entries) (hv : v ∈ visitsOf entries) :
    v.2.toNat < 2 ^ 46 := by
  have hnat := visitsOf_aligned hmap hv
  obtain ⟨he, -, hframe⟩ := (mem_visitsOf hmap).mp ⟨v.2, hv, rfl, hnat⟩
  have hbound := hmap.bounded v.1 he
  have hlt := hframe.2
  omega

/-- Addresses below `2 ^ 46` have frame numbers below `2 ^ 34`, so that the page structs of all of
them fit into their window. -/
theorem frameIdx_lt (h : pa.toNat < 2 ^ 46) : (frameIdx pa).toNat < 2 ^ 34 := by
  have hsize : PAGE_SIZE.toNat = 4096 := rfl
  rw [frameIdx, BitVec.toNat_udiv, hsize]
  omega

end Addresses

/-! ### The loops -/

section Loops

variable {first bootMemAllocStart kernPgtable : Word} {entries : List MmapEntry}
  {vs : List (MmapEntry × Word)} {mem : Mem} {b : Buddy} {st : InitState} {vas : List Word}

/-- The address of the page struct of a visited frame. -/
abbrev structVa (v : MmapEntry × Word) : Word := pageVa (frameIdx v.2)

/-- The loop that maps the direct mapping area keeps the invariant, and what is known of the
entries as far as its calls keep it. -/
theorem KernelMapping.mapDirects {P : (List (BitVec 9) → Word) → Prop} (st : InitState)
    (hvs : ∀ v ∈ vs, v.2.toNat < 2 ^ 46)
    (hP : ∀ pa A A', pa.toNat < 2 ^ 46 → P A → Effect (physToKernelDirectMappingAddr pa) pa
      (PAGE_ATTR_RW ||| PAGE_ATTR_P) A A' → P A')
    (h : KernelMapping first kernPgtable P st.mem st.la) :
    let st' := vs.foldl (fun st v => SumiOS.mapDirect kernPgtable st v.2) st
    KernelMapping first kernPgtable P st'.mem st'.la := by
  induction vs generalizing st with
  | nil => exact h
  | cons v vs ih =>
      obtain ⟨hv, hvs⟩ := List.forall_mem_cons.mp hvs
      exact ih _ hvs (h.mapDirect (direct_pgd_ne_zero hv) fun A A' => hP v.2 A A' hv)

/-- The loop that allocates and initializes the page structs keeps the invariant, and extends what
is known by the structs that it has come to. -/
theorem KernelMapping.initFrames {P : List Word → (List (BitVec 9) → Word) → Prop}
    (hP : Tracks P) (st : InitState) (hvs : ∀ v ∈ vs, v.2.toNat < 2 ^ 46)
    (h : KernelMapping first kernPgtable (P vas) st.mem st.la) :
    let st' := vs.foldl (initFrame kernPgtable) st
    KernelMapping first kernPgtable (P ((vs.map structVa).reverse ++ vas)) st'.mem st'.la := by
  induction vs generalizing st vas with
  | nil => exact h
  | cons v vs ih =>
      obtain ⟨hv, hvs⟩ := List.forall_mem_cons.mp hvs
      obtain ⟨htop, hva⟩ := pageVa_pgd_ne_zero (frameIdx_lt hv)
      have hrest := ih (initFrame kernPgtable st v) hvs
        (h.backPage htop hva (hP.old _ vas) (hP.new _ vas))
      rw [List.map_cons, List.reverse_cons, List.append_assoc]
      exact hrest

/-- What holds of the entries for the page structs that the loops visit, when the frames
are freed. -/
theorem beforeFree_tracks {P : List Word → (List (BitVec 9) → Word) → Prop} (hP : Tracks P)
    (hdirect : ∀ pa A A', pa.toNat < 2 ^ 46 → P [] A → Effect (physToKernelDirectMappingAddr pa) pa
      (PAGE_ATTR_RW ||| PAGE_ATTR_P) A A' → P [] A')
    (hmap : MemoryMap (2 ^ 46) entries) (hstart : PageAligned bootMemAllocStart)
    (hin : ∃ e ∈ entries, e.Available ∧ e.Holds bootMemAllocStart.toNat)
    (htables : KernelTables mem kernPgtable bootMemAllocStart)
    (hfirst : ∀ base log T, Tables KERNEL_DIRECT_MAPPING_AREA (· ≠ 0) base log mem T →
      T [] = some kernPgtable → P [] (SumiOS.entries KERNEL_DIRECT_MAPPING_AREA mem T))
    (h : beforeFree bootMemAllocStart kernPgtable entries (visitsOf entries) mem b = some st) :
    KernelMapping bootMemAllocStart kernPgtable
      (P (((visitsOf entries).map structVa).reverse ++ [])) st.mem st.la := by
  rw [beforeFree, Option.map_eq_some_iff] at h
  obtain ⟨la, hscan, rfl⟩ := h
  obtain ⟨hinv, hlog⟩ :=
    linearInv_scanned (fun e he _ => hmap.addrs e he) hmap.bounded hstart hin hscan
  have hvs : ∀ v ∈ visitsOf entries, v.2.toNat < 2 ^ 46 := fun v hv => visitsOf_lt hmap hv
  have hbegin := htables.mapping hinv hlog hfirst
  exact KernelMapping.initFrames hP _ hvs (KernelMapping.mapDirects ⟨mem, la, b⟩ hvs hdirect hbegin)

/-- When the frames are freed, the page structs that the loops visit are backed. -/
theorem beforeFree_mapping (hmap : MemoryMap (2 ^ 46) entries)
    (hstart : PageAligned bootMemAllocStart)
    (hin : ∃ e ∈ entries, e.Available ∧ e.Holds bootMemAllocStart.toNat)
    (htables : KernelTables mem kernPgtable bootMemAllocStart)
    (h : beforeFree bootMemAllocStart kernPgtable entries (visitsOf entries) mem b = some st) :
    KernelMapping bootMemAllocStart kernPgtable
      (Backed (((visitsOf entries).map structVa).reverse ++ [])) st.mem st.la :=
  beforeFree_tracks backed_tracks (fun _ _ _ _ _ _ _ hva => absurd hva List.not_mem_nil) hmap hstart
    hin htables (fun _ _ _ _ _ _ hva => absurd hva List.not_mem_nil) h

/-- So `__free_pages` finds them mapped, as it asks for the page of a struct that was backed. -/
theorem KernelMapping.pageMapped {la : LinearAlloc} {start : Word}
    (h : KernelMapping first kernPgtable (Backed vas) mem la) (hok : 0 ∉ la.returned)
    (hlt : start.toNat < 2 ^ 46) (hva : pageVa (frameIdx start) ∈ vas) :
    pageMapped mem kernPgtable (pageOf start) = true := by
  obtain ⟨T, hT, hroot, hA⟩ := h.tree hok
  obtain ⟨htop, hzero⟩ := pageVa_pgd_ne_zero (frameIdx_lt hlt)
  have hidx : BitVec.ofInt 64 (pageOf start) = frameIdx start := by
    rw [pageOf, BitVec.ofInt_natCast, BitVec.ofNat_toNat, BitVec.setWidth_eq]
  rw [SumiOS.pageMapped, hidx, bne_iff_ne]
  intro hlookup
  exact hA _ hva ((lookup_eq_iff hT hroot htop hzero).mp hlookup)

/-- The first loop allocates nothing when there are tables for all its addresses, as is the case
for frames near each other after the first of them. -/
theorem KernelMapping.mapDirects_used {va : Word} (hvs : ∀ v ∈ vs, v.2.toNat < 2 ^ 46 ∧
      innerPaths (physToKernelDirectMappingAddr v.2) = innerPaths va)
    (h : KernelMapping first kernPgtable (Opened va) st.mem st.la) (hok : 0 ∉ st.la.returned) :
    (vs.foldl (fun st v => SumiOS.mapDirect kernPgtable st v.2) st).la = st.la := by
  induction vs generalizing st with
  | nil => rfl
  | cons v vs ih =>
      obtain ⟨⟨hv, hsame⟩, hvs⟩ := List.forall_mem_cons.mp hvs
      have hla : (SumiOS.mapDirect kernPgtable st v.2).la = st.la :=
        h.map_used v.2 _ hok (direct_pgd_ne_zero hv) fun A hA => by
          unfold Opened
          rw [hsame]
          exact hA
      have hnext := h.mapDirect (direct_pgd_ne_zero hv) fun A A' hA heffect => heffect.opened hA
      rw [List.foldl_cons, ih hvs hnext (hla ▸ hok), hla]

/-- The second loop allocates nothing when all its page structs are backed, as is the case when
they share a page that was mapped. -/
theorem KernelMapping.initFrames_used {va : Word} (st : InitState) (hvs : ∀ v ∈ vs, v.2.toNat < 2 ^ 46 ∧
      pathOf (structVa v) = pathOf va)
    (h : KernelMapping first kernPgtable (Backed [va]) st.mem st.la) (hok : 0 ∉ st.la.returned) :
    (vs.foldl (initFrame kernPgtable) st).la = st.la := by
  induction vs generalizing st with
  | nil => rfl
  | cons v vs ih =>
      obtain ⟨⟨hv, hsame⟩, hvs⟩ := List.forall_mem_cons.mp hvs
      have hback : SumiOS.backPage kernPgtable st (structVa v) = st := by
        obtain ⟨T, hT, hroot, hA⟩ := h.tree hok
        obtain ⟨htop, hzero⟩ := pageVa_pgd_ne_zero (frameIdx_lt hv)
        refine if_neg fun hlookup => hA va List.mem_cons_self ?_
        rw [← hsame]
        exact (lookup_eq_iff hT hroot htop hzero).mp hlookup
      have hst : initFrame kernPgtable st v =
          { st with buddy := initPage st.buddy (pageOf v.2) v.1.type } := by
        rw [initFrame, hback]
      rw [List.foldl_cons, hst]
      exact ih _ hvs h hok

/-- The first loop allocates at most three tables when all frames lie in one region of 2 MB. -/
theorem KernelMapping.mapDirects_few {v : MmapEntry × Word} (st : InitState)
    (h : KernelMapping first kernPgtable (fun _ => True) st.mem st.la)
    (hvs : ∀ w ∈ v :: vs, w.2.toNat < 2 ^ 46 ∧ innerPaths (physToKernelDirectMappingAddr w.2) =
      innerPaths (physToKernelDirectMappingAddr v.2))
    (hok : ∀ n ≤ 3, 0 ∉ (linearAllocs n st.la).returned) :
    ∃ n ≤ 3, ((v :: vs).foldl (fun st v => SumiOS.mapDirect kernPgtable st v.2) st).la
      = linearAllocs n st.la := by
  obtain ⟨⟨hv, -⟩, hvs⟩ := List.forall_mem_cons.mp hvs
  obtain ⟨n, hn, hfirst⟩ := mapDirect_allocs kernPgtable st v.2
  have hopened := h.mapDirect (direct_pgd_ne_zero hv) fun A A' _ heffect =>
    heffect.opens (by decide)
  have hrest := hopened.mapDirects_used hvs (by rw [hfirst]; exact hok n hn)
  exact ⟨n, hn, by rw [List.foldl_cons, hrest, hfirst]⟩

/-- The second loop allocates at most four pages when all page structs lie in one page. -/
theorem KernelMapping.initFrames_few {v : MmapEntry × Word}
    (h : KernelMapping first kernPgtable (fun _ => True) st.mem st.la)
    (hvs : ∀ w ∈ v :: vs, w.2.toNat < 2 ^ 46 ∧ pathOf (structVa w) = pathOf (structVa v))
    (hok : ∀ n ≤ 4, 0 ∉ (linearAllocs n st.la).returned) :
    ∃ n ≤ 4, ((v :: vs).foldl (initFrame kernPgtable) st).la = linearAllocs n st.la := by
  obtain ⟨⟨hv, -⟩, hvs⟩ := List.forall_mem_cons.mp hvs
  obtain ⟨n, hn, hfirst⟩ := initFrame_allocs kernPgtable st v
  obtain ⟨htop, hzero⟩ := pageVa_pgd_ne_zero (frameIdx_lt hv)
  have hnone : KernelMapping first kernPgtable (Backed []) st.mem st.la :=
    h.mono fun A _ va hva => absurd hva List.not_mem_nil
  have hbacked : KernelMapping first kernPgtable (Backed [structVa v])
      (initFrame kernPgtable st v).mem (initFrame kernPgtable st v).la :=
    hnone.backPage htop hzero (backed_tracks.old _ []) (backed_tracks.new _ [])
  have hrest := KernelMapping.initFrames_used _ hvs hbacked (by rw [hfirst]; exact hok n hn)
  exact ⟨n, hn, by rw [List.foldl_cons, hrest, hfirst]⟩

/-- When all frames lie in one region of 2 MB and their page structs in one page, at most
seven pages are allocated: three tables for each, and the page itself. -/
theorem beforeFree_few {v : MmapEntry × Word} {la : LinearAlloc}
    (haddrs : ∀ e ∈ entries, e.Available → PageAligned e.addr)
    (hbounded : ∀ e ∈ entries, e.stop ≤ 2 ^ 46) (hstart : PageAligned bootMemAllocStart)
    (hin : ∃ e ∈ entries, e.Available ∧ e.Holds bootMemAllocStart.toNat)
    (htables : KernelTables mem kernPgtable bootMemAllocStart)
    (hlt : ∀ w ∈ v :: vs, w.2.toNat < 2 ^ 46)
    (hregion : ∀ w ∈ v :: vs, innerPaths (physToKernelDirectMappingAddr w.2) =
      innerPaths (physToKernelDirectMappingAddr v.2))
    (hstructs : ∀ w ∈ v :: vs, pathOf (structVa w) = pathOf (structVa v))
    (hscan : entries.foldlM (scanEntry bootMemAllocStart) LinearAlloc.static = some la)
    (hok : ∀ n ≤ 7, 0 ∉ (linearAllocs n la).returned)
    (h : beforeFree bootMemAllocStart kernPgtable entries (v :: vs) mem b = some st) :
    ∃ n ≤ 7, st.la = linearAllocs n la := by
  obtain ⟨hinv, hlog⟩ := linearInv_scanned haddrs hbounded hstart hin hscan
  have hstart := htables.mapping hinv hlog (P := fun _ => True) fun _ _ _ _ _ => trivial
  rw [beforeFree, hscan, Option.map_some, Option.some.injEq] at h
  dsimp only at h
  -- At most three tables for the direct mapping, and for the structs three and a page.
  obtain ⟨n, hn, hfirst⟩ := KernelMapping.mapDirects_few ⟨mem, la, b⟩ hstart
    (fun w hw => ⟨hlt w hw, hregion w hw⟩) fun n hn => hok n (by omega)
  have hmapped := KernelMapping.mapDirects ⟨mem, la, b⟩ hlt (fun _ _ _ _ _ _ => trivial) hstart
  generalize (v :: vs).foldl (fun st v => mapDirect kernPgtable st v.2) ⟨mem, la, b⟩ = st₁
    at h hfirst hmapped
  have hadd : ∀ k, linearAllocs k st₁.la = linearAllocs (k + n) la := by
    intro k
    rw [hfirst]
    exact (Function.iterate_add_apply _ k n la).symm
  obtain ⟨k, hk, hsecond⟩ := hmapped.initFrames_few (fun w hw => ⟨hlt w hw, hstructs w hw⟩)
    fun k hk => by rw [hadd]; exact hok _ (by omega)
  rw [hadd] at hsecond
  exact ⟨k + n, by omega, by rw [← h]; exact hsecond⟩

end Loops

/-! ### Small memory maps -/

/-- In memory that is zero, a root is the only table. -/
theorem zeroRun : MapRun KERNEL_DIRECT_MAPPING_AREA (fun q => q.toNat < (0x800000 : Word).toNat)
    0x1000 [] [] (fun _ => 0) (fun π => if π = [] then some 0x1000 else none) := by
  have hzero : ∀ i, view KERNEL_DIRECT_MAPPING_AREA (fun _ => 0) 0x1000 i = 0 := by
    intro i
    show ofBytes (fun _ => 0) = 0
    rfl
  have hbase : (0x1000 : Word).toNat < (0x800000 : Word).toNat := by decide
  exact mapRun_nil (by decide) hzero (Or.inl hbase)

/-- A page table of that root, as the booting stage could leave it. -/
theorem zeroTables : KernelTables (fun _ => 0) 0x1000 0x800000 := by
  obtain ⟨hlaid, haligned, hused⟩ := zeroRun.tables
  exact ⟨_, ⟨hlaid.mono fun _ _ => trivial, haligned, hused⟩, zeroRun.rooted⟩

/-- A map of which all frames lie in one region of 2 MB, and all page structs in one page:
when seven pages fit into the first area, no allocation fails, and the area stays in use. -/
theorem mmPagesAllocatorInit_few {entries : List MmapEntry} {stop : Word}
    (hmap : MemoryMap (2 ^ 46) entries)
    (hareas : entries.countP (fun e => decide e.Available) ≤ PHYS_MM_SEGS_NUM_MAX)
    (hin : ∃ e ∈ entries, e.Available ∧ e.Holds (0x800000 : Word).toNat)
    (hscan : ∃ la, entries.foldlM (scanEntry 0x800000) LinearAlloc.static = some la ∧
      ∀ n ≤ 7, 0 ∉ (linearAllocs n la).returned ∧ (linearAllocs n la).mmAllocEnd = stop)
    (hvisits : ∃ v vs, visitsOf entries = v :: vs ∧ (∀ w ∈ v :: vs, w.2.toNat < 2 ^ 46) ∧
      (∀ w ∈ v :: vs, innerPaths (physToKernelDirectMappingAddr w.2) =
        innerPaths (physToKernelDirectMappingAddr v.2)) ∧
      ∀ w ∈ v :: vs, pathOf (structVa w) = pathOf (structVa v)) :
    ∃ st, mmPagesAllocatorInit 0x800000 0x1000 entries (fun _ => 0) cleared = some st ∧
      0 ∉ st.la.returned ∧ st.la.mmAllocEnd = stop := by
  have hsome : (mmPagesAllocatorInit 0x800000 0x1000 entries (fun _ => 0) cleared).isSome :=
    (mmPagesAllocatorInit_isSome hmap (by decide)).mpr hareas
  obtain ⟨st, hst⟩ := Option.isSome_iff_exists.mp hsome
  obtain ⟨st₀, hbefore, hla, -⟩ := mmPagesAllocatorInit_cases hmap (by decide) hst
  obtain ⟨la, hscan, hfew⟩ := hscan
  obtain ⟨v, vs, hvisits, hlt, hregion, hstructs⟩ := hvisits
  rw [hvisits] at hbefore
  obtain ⟨n, hn, hcount⟩ := beforeFree_few (fun e he _ => hmap.addrs e he) hmap.bounded (by decide)
    hin zeroTables hlt hregion hstructs hscan (fun n hn => (hfew n hn).1) hbefore
  refine ⟨st, hst, ?_⟩
  rw [hla, hcount]
  exact hfew n hn

/-- Eight frames, a single frame, and two frames behind a hole of one frame. -/
def holeMap : List MmapEntry :=
  [⟨0x800000, 0x8000, 1⟩, ⟨0x810000, 0x1000, 1⟩, ⟨0x812000, 0x2000, 1⟩]

/-- The map with a hole satisfies the side conditions on memory maps, so the theorems about the
initialisation apply to it. -/
theorem holeMap_memoryMap : MemoryMap (2 ^ 46) holeMap :=
  .of_stops (by decide) (by decide) (by decide) (by decide)

/-- The first free byte behind the image lies in an available area of the map with a hole. -/
theorem holeMap_start : ∃ e ∈ holeMap, e.Available ∧ e.Holds (0x800000 : Word).toNat :=
  ⟨⟨0x800000, 0x8000, 1⟩, List.mem_cons_self, rfl, by decide, by decide⟩

/-- The initialization needs at most seven of the eight frames at the start. -/
theorem holeMap_run :
    ∃ st, mmPagesAllocatorInit 0x800000 0x1000 holeMap (fun _ => 0) cleared = some st ∧
      0 ∉ st.la.returned ∧ st.la.mmAllocEnd = 0x808000 :=
  mmPagesAllocatorInit_few holeMap_memoryMap (by decide) holeMap_start ⟨_, rfl, by decide⟩
    ⟨_, _, rfl, by decide, by decide, by decide⟩

/-- Eight frames, reserved ones behind them, and four frames at the end: 64 together. -/
def fullMap : List MmapEntry :=
  [⟨0x800000, 0x8000, 1⟩, ⟨0x808000, 0x34000, 2⟩, ⟨0x83c000, 0x4000, 1⟩]

/-- The map whose 64 frames fill a page of the page array satisfies the side conditions on memory
maps. -/
theorem fullMap_memoryMap : MemoryMap (2 ^ 46) fullMap :=
  .of_stops (by decide) (by decide) (by decide) (by decide)

/-- The first free byte behind the image lies in an available area of that map. -/
theorem fullMap_start : ∃ e ∈ fullMap, e.Available ∧ e.Holds (0x800000 : Word).toNat :=
  ⟨⟨0x800000, 0x8000, 1⟩, List.mem_cons_self, rfl, by decide, by decide⟩

/-- On that map the initialisation ends without a failed allocation and with `mm_alloc_end` at the
end of the first area, which makes it a case of the theorems that assume so. -/
theorem fullMap_run :
    ∃ st, mmPagesAllocatorInit 0x800000 0x1000 fullMap (fun _ => 0) cleared = some st ∧
      0 ∉ st.la.returned ∧ st.la.mmAllocEnd = 0x808000 :=
  mmPagesAllocatorInit_few fullMap_memoryMap (by decide) fullMap_start ⟨_, rfl, by decide⟩
    ⟨_, _, rfl, by decide, by decide, by decide⟩

end SumiOS
