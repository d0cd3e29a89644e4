import SumiOS.Proofs.Boot.Demand
import SumiOS.Proofs.Init.Direct
import SumiOS.Proofs.Init.Supply
import SumiOS.Proofs.Init.Usable

/-!
# `SumiOS.Proofs.Init.Demand`: the pages that the initialization uses

The first loop of `mm_pages_allocator_init` needs a table for every inner path of the
direct mapping area that comes up for the first time. The second one needs such tables
for the page array, and a page for every page of the array. Which paths are in use at
the beginning is decided by the calls of the booting stage. So the number of pages is a
function of the kernel image and of the memory map (`kernelDemand`).

`Grown` is what the loops keep of the page table. `beforeFree_supply` says that the
results of the allocator are the first `kernelDemand` pages of its supply, also when the
supply is too short.
-/

set_option autoImplicit false

namespace SumiOS

open Lib

/-! ### Steps -/

/-- The paths that the first loop needs for a frame. -/
def directStep (v : MmapEntry × Word) : List (List (BitVec 9)) :=
  innerPaths (physToKernelDirectMappingAddr v.2)

/-- The paths that the second loop needs for a frame: its tables, and the page itself. -/
def structStep (v : MmapEntry × Word) : List (List (BitVec 9)) :=
  pathOf (structVa v) :: innerPaths (structVa v)

/-- The paths that the booting stage takes into use. -/
def bootPaths (image : KernelImage) : List (List (BitVec 9)) :=
  (bootCalls image).flatMap fun c => innerPaths c.va

/-- The pages that `mm_pages_allocator_init` needs for the frames it visits. -/
def kernelDemand (image : KernelImage) (visits : List (MmapEntry × Word)) : Nat :=
  demand (bootPaths image) (visits.map directStep ++ visits.map structStep)

/-- What the loops keep: the tables `T₀` of the booting stage stay, and the entries in use
are those of the paths in the list. -/
structure Grown (T₀ : List (BitVec 9) → Option Word) (used : List (List (BitVec 9)))
    (T : List (BitVec 9) → Option Word) (A : List (BitVec 9) → Word) : Prop where
  sub : ∀ π p, T₀ π = some p → T π = some p
  inner : InUse (· ≠ 0) used A
  leaf : ∀ v : MmapEntry × Word, v.2.toNat < 2 ^ 46 →
    (A (pathOf (structVa v)) &&& PAGE_MASK ≠ 0 ↔ pathOf (structVa v) ∈ used)
  closed : ∀ va, pathOf va ∈ used → ∀ π ∈ innerPaths va, π ∈ used

section Paths

variable {va va' pa attr : Word} {v : MmapEntry × Word} {used : List (List (BitVec 9))}
  {T₀ T T' : List (BitVec 9) → Option Word} {A A' : List (BitVec 9) → Word}

/-- Page structs are not in the direct mapping area. -/
theorem structVa_ne_direct (hv : v.2.toNat < 2 ^ 46) (hpa : pa.toNat < 2 ^ 46) :
    pathOf (structVa v) ≠ pathOf (physToKernelDirectMappingAddr pa) := by
  have hsame := sameFrom_iff (structVa v) (physToKernelDirectMappingAddr pa) 4 (le_refl 4)
  have hidx := frameIdx_lt hv
  have hbase : KERNEL_PAGE_ARRAY.toNat = 0xffff800000000000 := rfl
  have hdirect : KERNEL_DIRECT_MAPPING_AREA.toNat = 0xffff888000000000 := rfl
  have hsize : (64 : Word).toNat = 64 := rfl
  rw [pathOf_eq, pathOf_eq, Ne, ← hsame, sameFrom_iff_nat, structVa, pageVa, BitVec.toNat_add,
    BitVec.toNat_mul, physToKernelDirectMappingAddr_toNat hpa, hbase, hsize, hdirect]
  omega

/-- The call of the first loop for a frame brings the inner entries of its path into use; its leaf
is not among the entries that are counted. -/
theorem Grown.direct (h : Grown T₀ used T A) (hv : v.2.toNat < 2 ^ 46)
    (hsub : ∀ π p, T π = some p → T' π = some p) (hP : attr &&& PAGE_ATTR_P = PAGE_ATTR_P)
    (heffect : Effect (physToKernelDirectMappingAddr v.2) pa attr A A') :
    Grown T₀ (directStep v ++ used) T' A' where
  sub π p hp := hsub π p (h.sub π p hp)
  inner := h.inner.call hP heffect
  leaf w hw := by
    rw [heffect.keep _ (structVa_ne_direct hw hv) fun hm => pathOf_not_inner hm.1, h.leaf w hw,
      List.mem_append]
    exact (or_iff_right pathOf_not_inner).symm
  closed va hva π hπ := by
    have hold := (List.mem_append.mp hva).resolve_left pathOf_not_inner
    exact List.mem_append_right _ (h.closed va hold π hπ)

/-- A page struct whose page is there already: nothing is mapped for it, and its path adds nothing
to what is in use. -/
theorem Grown.old (h : Grown T₀ used T A) (hmem : pathOf (structVa v) ∈ used) :
    Grown T₀ (structStep v ++ used) T A := by
  have hiff : ∀ π, π ∈ structStep v ++ used ↔ π ∈ used := by
    intro π
    rw [List.mem_append]
    refine or_iff_right_of_imp fun hstep => ?_
    cases List.mem_cons.mp hstep with
    | inl hleaf => exact hleaf ▸ hmem
    | inr hinner => exact h.closed _ hmem π hinner
  refine ⟨h.sub, fun va htop π hπ => ?_, fun w hw => ?_, fun va hva π hπ => ?_⟩
  · rw [hiff]
    exact h.inner va htop π hπ
  · rw [hiff]
    exact h.leaf w hw
  · rw [hiff] at hva ⊢
    exact h.closed va hva π hπ

/-- A page struct whose page is mapped now: the entries on its path are in use after the call, its
leaf included, and the entries on no other path have come into use. -/
theorem Grown.new (h : Grown T₀ used T A) (hpa : PageAligned pa) (hne : pa ≠ 0)
    (hsub : ∀ π p, T π = some p → T' π = some p) (hattr : attr &&& PAGE_MASK = 0)
    (hP : attr &&& PAGE_ATTR_P = PAGE_ATTR_P) (heffect : Effect (structVa v) pa attr A A') :
    Grown T₀ (structStep v ++ used) T' A' := by
  have hmem : ∀ va, pathOf va ∈ structStep v ++ used ↔
      pathOf va = pathOf (structVa v) ∨ pathOf va ∈ used := by
    intro va
    rw [structStep, List.cons_append, List.mem_cons, List.mem_append]
    exact or_congr_right (or_iff_right pathOf_not_inner)
  refine ⟨fun π p hp => hsub π p (h.sub π p hp), fun va htop π hπ => ?_, fun w hw => ?_,
    fun va hva π hπ => ?_⟩
  · rw [h.inner.call hP heffect va htop π hπ, structStep, List.cons_append, List.mem_cons]
    refine (or_iff_right fun he => ?_).symm
    exact pathOf_not_inner (he ▸ hπ)
  · rw [hmem]
    by_cases he : pathOf (structVa w) = pathOf (structVa v)
    · rw [he, heffect.leaf, hpa.or_and hattr]
      exact iff_of_true hne (Or.inl rfl)
    · rw [heffect.keep _ he fun hm => pathOf_not_inner hm.1, h.leaf w hw]
      exact (or_iff_right he).symm
  · rw [structStep, List.cons_append, List.mem_cons, List.mem_append]
    cases (hmem va).mp hva with
    | inl he =>
        rw [innerPaths_of_pathOf he] at hπ
        exact Or.inr (Or.inl hπ)
    | inr hold => exact Or.inr (Or.inr (h.closed va hold π hπ))

end Paths

/-! ### Counting -/

section Count

variable {first kernPgtable va attr : Word} {base : Word → Prop}
  {Q : (List (BitVec 9) → Option Word) → (List (BitVec 9) → Word) → Prop} {mem : Mem}
  {la : LinearAlloc} {st : InitState} {v : MmapEntry × Word} {used : List (List (BitVec 9))}
  {T₀ : List (BitVec 9) → Option Word} {n : Nat}

/-- A mapping call allocates a page for each inner path that is not in use. -/
theorem TreeMapping.map_count (h : TreeMapping first kernPgtable base Q mem la) (pa : Word)
    (hbase : ∀ q, base q → q.toNat < first.toNat) (htop : indexOf PGD_OFFSET va ≠ 0)
    (hattr : attr &&& PAGE_MASK = 0) (hP : attr &&& PAGE_ATTR_P = PAGE_ATTR_P)
    (hused : ∀ T A, Q T A → InUse (· ≠ 0) used A) (hn : n = (unused used (innerPaths va)).length)
    (hok : 0 ∉ (mmInitPgtableMap mem la kernPgtable va pa attr).2.returned ∨
      0 ∉ (linearAllocs n la).returned) :
    (mmInitPgtableMap mem la kernPgtable va pa attr).2 = linearAllocs n la := by
  obtain ⟨k, -, hk⟩ := mmInitPgtableMap_allocs mem la kernPgtable va pa attr
  have hold : 0 ∉ la.returned := by
    rw [hk] at hok
    exact hok.elim (linearAllocs_ok k) (linearAllocs_ok n)
  obtain ⟨T, hT, hroot, hA⟩ := h.tree hold
  have hfresh : ∀ j, 0 ∉ (linearAllocs j la).returned → Fresh base (linearAllocs j la).returned :=
    fun j hj => ((h.linear.allocs j).cursor hj).risen.fresh hbase
  refine pgtableMap_count mmInitPhysAllocLinear_returned hattr hP hT hroot htop
    (hn.trans (congrArg List.length ((hused T _ hA).unused_eq htop).symm)) ?_
  show Fresh base (mmInitPgtableMap mem la kernPgtable va pa attr).2.returned ∨
    Fresh base (linearAllocs n la).returned
  rw [hk] at hok ⊢
  exact hok.imp (hfresh k) (hfresh n)

/-- The step of the first loop, with its count: it takes a page for each inner entry on the path
that was not in use. -/
theorem TreeMapping.mapDirect_count
    (h : TreeMapping first kernPgtable base (Grown T₀ used) st.mem st.la)
    (hbase : ∀ q, base q → q.toNat < first.toNat) (hv : v.2.toNat < 2 ^ 46)
    (hn : n = (unused used (directStep v)).length)
    (hok : 0 ∉ (mapDirect kernPgtable st v.2).la.returned ∨ 0 ∉ (linearAllocs n st.la).returned) :
    (mapDirect kernPgtable st v.2).la = linearAllocs n st.la :=
  h.map_count v.2 hbase (direct_pgd_ne_zero hv) (by decide) (by decide) (fun _ _ hQ => hQ.inner) hn hok

/-- A round of the first loop brings the entries on the path of its frame into use, and
no others. -/
theorem TreeMapping.mapDirect_grown
    (h : TreeMapping first kernPgtable base (Grown T₀ used) st.mem st.la)
    (hbase : ∀ q, base q → q.toNat < first.toNat) (hv : v.2.toNat < 2 ^ 46) :
    TreeMapping first kernPgtable base (Grown T₀ (directStep v ++ used))
      (mapDirect kernPgtable st v.2).mem (mapDirect kernPgtable st v.2).la :=
  h.map hbase (direct_pgd_ne_zero hv) (by decide) (by decide)
    fun _ _ _ _ _ hQ hsub heffect => hQ.direct hv hsub (by decide) heffect

/-- A frame whose page struct is not mapped gets a page for it. -/
theorem initFrame_mapped (h : mmInitPgtableGetPa st.mem kernPgtable (structVa v) = -1) :
    (initFrame kernPgtable st v).la =
      (mmInitPgtableMap st.mem (mmInitPhysAllocLinear st.la PAGE_SIZE).1 kernPgtable (structVa v)
        (mmInitPhysAllocLinear st.la PAGE_SIZE).2 (PAGE_ATTR_P ||| PAGE_ATTR_RW)).2 := by
  show (backPage kernPgtable st (structVa v)).la = _
  unfold backPage
  rw [if_pos h]

/-- The step of the second loop, with its count: it takes as many pages as there are entries on the
path of the struct that were not in use, the page that backs the struct among them. -/
theorem TreeMapping.initFrame_count
    (h : TreeMapping first kernPgtable base (Grown T₀ used) st.mem st.la)
    (hbase : ∀ q, base q → q.toNat < first.toNat) (hv : v.2.toNat < 2 ^ 46)
    (hn : n = (unused used (structStep v)).length)
    (hok : 0 ∉ (initFrame kernPgtable st v).la.returned ∨ 0 ∉ (linearAllocs n st.la).returned) :
    (initFrame kernPgtable st v).la = linearAllocs n st.la := by
  obtain ⟨htop, hva⟩ := pageVa_pgd_ne_zero (frameIdx_lt hv)
  obtain ⟨k, -, hk⟩ := initFrame_allocs kernPgtable st v
  have hold : 0 ∉ st.la.returned := by
    rw [hk] at hok
    exact hok.elim (linearAllocs_ok k) (linearAllocs_ok n)
  obtain ⟨T, hT, hroot, hQ⟩ := h.tree hold
  have hlookup : mmInitPgtableGetPa st.mem kernPgtable (structVa v) ≠ -1 ↔
      pathOf (structVa v) ∈ used := (not_congr (lookup_eq_iff hT hroot htop hva)).trans (hQ.leaf v hv)
  by_cases hmem : pathOf (structVa v) ∈ used
  · -- The page is mapped already, so its whole path is in use.
    have hnone : unused used (structStep v) = [] := by
      refine List.filter_eq_nil_iff.mpr fun π hπ => ?_
      have hin : π ∈ used := by
        cases List.mem_cons.mp hπ with
        | inl hleaf => exact hleaf ▸ hmem
        | inr hinner => exact hQ.closed _ hmem π hinner
      simpa using hin
    have hback : (initFrame kernPgtable st v).la = st.la := by
      show (SumiOS.backPage kernPgtable st (structVa v)).la = st.la
      unfold SumiOS.backPage
      rw [if_neg (hlookup.mpr hmem)]
    rw [hback, hn, hnone]
    rfl
  · -- A page for the structs, and then the tables.
    have hstep : unused used (structStep v) =
        pathOf (structVa v) :: unused used (innerPaths (structVa v)) :=
      List.filter_cons_of_pos (by simpa using hmem)
    have hempty : mmInitPgtableGetPa st.mem kernPgtable (structVa v) = -1 := by
      by_contra hne
      exact hmem (hlookup.mp hne)
    have hmap := initFrame_mapped hempty
    have hsucc : ∀ j, linearAllocs (j + 1) st.la =
        linearAllocs j (mmInitPhysAllocLinear st.la PAGE_SIZE).1 :=
      fun j => Function.iterate_succ_apply _ j _
    rw [hstep, List.length_cons] at hn
    rw [hn, hsucc, hmap] at hok ⊢
    exact h.alloc.map_count _ hbase htop (by decide) (by decide) (fun _ _ hQ => hQ.inner) rfl hok

/-- A round of the second loop brings into use the path of the page that holds its struct, that
page included. -/
theorem TreeMapping.initFrame_grown
    (h : TreeMapping first kernPgtable base (Grown T₀ used) st.mem st.la)
    (hbase : ∀ q, base q → q.toNat < first.toNat) (hv : v.2.toNat < 2 ^ 46) :
    TreeMapping first kernPgtable base (Grown T₀ (structStep v ++ used))
      (initFrame kernPgtable st v).mem (initFrame kernPgtable st v).la := by
  obtain ⟨htop, hva⟩ := pageVa_pgd_ne_zero (frameIdx_lt hv)
  exact h.backPage hbase htop hva (fun T A hQ hmapped => hQ.old ((hQ.leaf v hv).mp hmapped))
    fun pa T T' A A' hpa hne hQ hsub heffect => hQ.new hpa hne hsub (by decide) (by decide) heffect

end Count

/-! ### How many pages are enough -/

section Bound

variable {image : KernelImage} {v w : MmapEntry × Word} {visits : List (MmapEntry × Word)} {k : Nat}

/-- Frames in one region of 2 MB need the same tables. -/
theorem directStep_congr (hv : v.2.toNat < 2 ^ 46) (hw : w.2.toNat < 2 ^ 46)
    (h : v.2.toNat / 2 ^ 21 = w.2.toNat / 2 ^ 21) : directStep v = directStep w := by
  have hdirect : KERNEL_DIRECT_MAPPING_AREA.toNat = 18446612682070032384 := rfl
  have hsame : SameFrom 21 (physToKernelDirectMappingAddr v.2) (physToKernelDirectMappingAddr w.2) := by
    rw [sameFrom_iff_nat, physToKernelDirectMappingAddr_toNat hv, physToKernelDirectMappingAddr_toNat hw,
      hdirect]
    omega
  exact innerPaths_of_upper ((sameFrom_iff _ _ 3 (by decide)).mp hsame)

/-- Frames in one group of 64 need the same page of the page array. -/
theorem structStep_congr (hv : v.2.toNat < 2 ^ 46) (hw : w.2.toNat < 2 ^ 46)
    (h : v.2.toNat / 2 ^ 18 = w.2.toNat / 2 ^ 18) : structStep v = structStep w := by
  have hnat : ∀ {w : MmapEntry × Word}, w.2.toNat < 2 ^ 46 →
      (structVa w).toNat = 18446603336221196288 + w.2.toNat / 4096 * 64 := by
    intro w hw
    have hbase : KERNEL_PAGE_ARRAY.toNat = 18446603336221196288 := rfl
    have hpage : PAGE_SIZE.toNat = 4096 := rfl
    have hsize : (64 : Word).toNat = 64 := rfl
    rw [structVa, pageVa, BitVec.toNat_add, BitVec.toNat_mul, frameIdx, BitVec.toNat_udiv, hbase, hpage,
      hsize]
    omega
  have hsame : SameFrom 12 (structVa v) (structVa w) := by
    rw [sameFrom_iff_nat, hnat hv, hnat hw]
    omega
  have hpath : pathOf (structVa v) = pathOf (structVa w) :=
    (sameFrom_iff _ _ 4 (le_refl 4)).mp hsame
  rw [structStep, structStep, hpath, innerPaths_of_pathOf hpath]

/-- The frames at the first multiples of `size`. -/
def framesApart (size n : Nat) : List (MmapEntry × Word) :=
  (List.range n).map fun j => (⟨0, 0, 0⟩, BitVec.ofNat 64 (size * j))

/-- Any frame below the bound has the same path, down to tables that cover `size` bytes each, as
one of the frames that lie `size` apart. -/
theorem mem_framesApart {size n : Nat} (hpos : 0 < size) (hbound : size * n ≤ 2 ^ 46)
    (hv : v.2.toNat < size * n) :
    ∃ w ∈ framesApart size n, w.2.toNat < 2 ^ 46 ∧ v.2.toNat / size = w.2.toNat / size := by
  have hdiv : v.2.toNat / size < n := Nat.div_lt_of_lt_mul hv
  have hle : size * (v.2.toNat / size) ≤ v.2.toNat := Nat.mul_div_le _ _
  have hnat : (BitVec.ofNat 64 (size * (v.2.toNat / size))).toNat = size * (v.2.toNat / size) := by
    rw [BitVec.toNat_ofNat]
    omega
  refine ⟨(⟨0, 0, 0⟩, BitVec.ofNat 64 (size * (v.2.toNat / size))), ?_, ?_, ?_⟩
  · exact List.mem_map.mpr ⟨_, List.mem_range.mpr hdiv, rfl⟩
  · rw [hnat]
    omega
  · rw [hnat, Nat.mul_div_cancel_left _ hpos]

/-- The paths for one frame are different, as they have different lengths. -/
theorem directStep_nodup : (directStep v).Nodup := by
  simp [directStep, innerPaths]

/-- So are those for one page struct. -/
theorem structStep_nodup : (structStep v).Nodup := by
  simp [structStep, pathOf, innerPaths]

/-- The memory below an address needs at most 35 pages for each 2 MB: three tables, and eight
pages of the page array with three tables each. -/
theorem kernelDemand_le (hbound : k ≤ 2 ^ 25) (hvisits : ∀ v ∈ visits, v.2.toNat < 2 ^ 21 * k) :
    kernelDemand image visits ≤ 35 * k := by
  have hlt : ∀ v ∈ visits, v.2.toNat < 2 ^ 46 := by
    intro v hv
    have hlow := hvisits v hv
    omega
  have hdirect : ∀ used, demand used (visits.map directStep) ≤ 3 * (framesApart (2 ^ 21) k).length := by
    intro used
    refine demand_map_le (fun v hv => ⟨directStep_nodup, ?_⟩) fun w _ => Nat.le_refl 3
    obtain ⟨w, hw, hwlt, hsame⟩ := mem_framesApart (by decide) (by omega) (hvisits v hv)
    exact ⟨w, hw, directStep_congr (hlt v hv) hwlt hsame⟩
  have hstruct : ∀ used, demand used (visits.map structStep) ≤
      4 * (framesApart (2 ^ 18) (8 * k)).length := by
    intro used
    refine demand_map_le (fun v hv => ⟨structStep_nodup, ?_⟩) fun w _ => Nat.le_refl 4
    obtain ⟨w, hw, hwlt, hsame⟩ := mem_framesApart (by decide) (by omega)
      (show v.2.toNat < 2 ^ 18 * (8 * k) by have := hvisits v hv; omega)
    exact ⟨w, hw, structStep_congr (hlt v hv) hwlt hsame⟩
  have hsum := Nat.add_le_add (hdirect (bootPaths image))
    (hstruct ((visits.map directStep).reverse.flatten ++ bootPaths image))
  rw [kernelDemand, demand_append]
  unfold framesApart at hsum
  rw [List.length_map, List.length_range, List.length_map, List.length_range] at hsum
  omega

end Bound

/-! ### The loops -/

section Loops

variable {first kernPgtable : Word} {base : Word → Prop} {st : InitState}
  {used : List (List (BitVec 9))} {T₀ : List (BitVec 9) → Option Word}
  {step : MmapEntry × Word → List (List (BitVec 9))} {f : InitState → MmapEntry × Word → InitState}

/-- A loop whose steps allocate a page for each path that comes up for the first time. -/
theorem TreeMapping.foldl_count
    (hallocs : ∀ st v, ∃ k, (f st v).la = linearAllocs k st.la)
    (hcount : ∀ st used v n, TreeMapping first kernPgtable base (Grown T₀ used) st.mem st.la →
      v.2.toNat < 2 ^ 46 → n = (unused used (step v)).length →
      (0 ∉ (f st v).la.returned ∨ 0 ∉ (linearAllocs n st.la).returned) →
      (f st v).la = linearAllocs n st.la)
    (hgrown : ∀ st used v, TreeMapping first kernPgtable base (Grown T₀ used) st.mem st.la →
      v.2.toNat < 2 ^ 46 →
      TreeMapping first kernPgtable base (Grown T₀ (step v ++ used)) (f st v).mem (f st v).la)
    (visits : List (MmapEntry × Word)) (hvisits : ∀ v ∈ visits, v.2.toNat < 2 ^ 46)
    (h : TreeMapping first kernPgtable base (Grown T₀ used) st.mem st.la) :
    TreeMapping first kernPgtable base (Grown T₀ ((visits.map step).reverse.flatten ++ used))
        (visits.foldl f st).mem (visits.foldl f st).la ∧
      ∀ n, n = demand used (visits.map step) →
        (0 ∉ (visits.foldl f st).la.returned ∨ 0 ∉ (linearAllocs n st.la).returned) →
        (visits.foldl f st).la = linearAllocs n st.la := by
  induction visits generalizing st used with
  | nil =>
      refine ⟨h, fun n hn _ => ?_⟩
      subst hn
      rfl
  | cons v vs ih =>
      obtain ⟨hv, hvs⟩ := List.forall_mem_cons.mp hvisits
      obtain ⟨hrest, hcountRest⟩ := ih hvs (hgrown st used v h hv)
      constructor
      · rw [List.map_cons, List.reverse_cons, List.flatten_append, List.append_assoc]
        simpa using hrest
      · intro n hn hok
        rw [List.map_cons, demand, Nat.add_comm] at hn
        generalize hk : demand (step v ++ used) (vs.map step) = k at hn
        -- The pages of the first step, and those of the rest on top of them.
        obtain ⟨j, hj⟩ := foldl_allocs vs hallocs (f st v)
        have hadd : linearAllocs n st.la =
            linearAllocs k (linearAllocs (unused used (step v)).length st.la) := by
          rw [hn]
          exact Function.iterate_add_apply _ k _ st.la
        rw [List.foldl_cons, hadd] at hok ⊢
        have hfirst := hcount st used v _ h hv rfl (by
          rw [hj] at hok
          exact hok.imp (linearAllocs_ok j) (linearAllocs_ok k))
        rw [← hfirst] at hok ⊢
        exact hcountRest k hk.symm hok

/-- The first loop takes as many pages as its frames need beyond what is in use, by induction on
the frames. -/
theorem TreeMapping.mapDirects_count
    (hbase : ∀ q, base q → q.toNat < first.toNat) (visits : List (MmapEntry × Word))
    (hvisits : ∀ v ∈ visits, v.2.toNat < 2 ^ 46)
    (h : TreeMapping first kernPgtable base (Grown T₀ used) st.mem st.la) :
    let st' := visits.foldl (fun st v => mapDirect kernPgtable st v.2) st
    TreeMapping first kernPgtable base (Grown T₀ ((visits.map directStep).reverse.flatten ++ used))
        st'.mem st'.la ∧
      ∀ n, n = demand used (visits.map directStep) →
        (0 ∉ st'.la.returned ∨ 0 ∉ (linearAllocs n st.la).returned) →
        st'.la = linearAllocs n st.la :=
  TreeMapping.foldl_count
    (fun st v => (mapDirect_allocs kernPgtable st v.2).imp fun _ h => h.2)
    (fun _ _ _ _ h hv hn hok => h.mapDirect_count hbase hv hn hok)
    (fun _ _ _ h hv => h.mapDirect_grown hbase hv) visits hvisits h

/-- The second loop takes as many pages as its structs need beyond what is in use after the first
one, by induction on the frames. -/
theorem TreeMapping.initFrames_count
    (hbase : ∀ q, base q → q.toNat < first.toNat) (visits : List (MmapEntry × Word))
    (hvisits : ∀ v ∈ visits, v.2.toNat < 2 ^ 46)
    (h : TreeMapping first kernPgtable base (Grown T₀ used) st.mem st.la) :
    let st' := visits.foldl (initFrame kernPgtable) st
    TreeMapping first kernPgtable base (Grown T₀ ((visits.map structStep).reverse.flatten ++ used))
        st'.mem st'.la ∧
      ∀ n, n = demand used (visits.map structStep) →
        (0 ∉ st'.la.returned ∨ 0 ∉ (linearAllocs n st.la).returned) →
        st'.la = linearAllocs n st.la :=
  TreeMapping.foldl_count
    (fun st v => (initFrame_allocs kernPgtable st v).imp fun _ h => h.2)
    (fun _ _ _ _ h hv hn hok => h.initFrame_count hbase hv hn hok)
    (fun _ _ _ h hv => h.initFrame_grown hbase hv) visits hvisits h

/-- The tables of the booting stage are below the cursor. -/
theorem Tables.below {mem : Mem}
    (hT : Tables KERNEL_DIRECT_MAPPING_AREA (· ≠ 0) (fun q => q.toNat < first.toNat) [] mem T₀) :
    ∀ q, (∃ π, T₀ π = some q) → q.toNat < first.toNat := by
  intro q ⟨π, hp⟩
  exact (hT.used π q hp).resolve_right List.not_mem_nil

/-- The table of the booting stage, before the first allocation. -/
theorem TreeMapping.start {mem : Mem} {la : LinearAlloc}
    (hT : Tables KERNEL_DIRECT_MAPPING_AREA (· ≠ 0) (fun q => q.toNat < first.toNat) [] mem T₀)
    (hroot : T₀ [] = some kernPgtable)
    (hgrown : Grown T₀ used T₀ (entries KERNEL_DIRECT_MAPPING_AREA mem T₀))
    (hla : LinearInv first la) :
    TreeMapping first kernPgtable (fun q => ∃ π, T₀ π = some q) (Grown T₀ used) mem la where
  linear := hla
  tree _ := ⟨T₀, ⟨hT.laid, hT.aligned, fun π _ hp => Or.inl ⟨π, hp⟩⟩, hroot, hgrown⟩

end Loops

/-! ### The whole run -/

section Run

variable {first kernPgtable : Word} {entries : List MmapEntry} {visits : List (MmapEntry × Word)}
  {mem : Mem} {b : Buddy} {st : InitState} {la : LinearAlloc} {used : List (List (BitVec 9))}
  {T₀ : List (BitVec 9) → Option Word} {n : Nat}

/-- When nothing fails, the two loops allocate as many pages as are counted. The paths in use are
those of the booting stage at first, and each visit adds the ones that it needs. -/
theorem beforeFree_count (haddrs : ∀ e ∈ entries, e.Available → PageAligned e.addr)
    (hstop : ∀ e ∈ entries, e.stop ≤ 2 ^ 46) (hfirst : PageAligned first)
    (hin : ∃ e ∈ entries, e.Available ∧ e.Holds first.toNat)
    (hT : Tables KERNEL_DIRECT_MAPPING_AREA (· ≠ 0) (fun q => q.toNat < first.toNat) [] mem T₀)
    (hroot : T₀ [] = some kernPgtable)
    (hgrown : Grown T₀ used T₀ (SumiOS.entries KERNEL_DIRECT_MAPPING_AREA mem T₀))
    (hvisits : allVisits entries = some visits)
    (hscan : entries.foldlM (scanEntry first) LinearAlloc.static = some la)
    (hn : n = demand used (visits.map directStep ++ visits.map structStep))
    (h : beforeFree first kernPgtable entries visits mem b = some st)
    (hok : 0 ∉ st.la.returned ∨ 0 ∉ (linearAllocs n la).returned) : st.la = linearAllocs n la := by
  obtain ⟨hinv, -⟩ := linearInv_scanned haddrs hstop hfirst hin hscan
  have hlt := visits_lt hstop hvisits
  have hbase := hT.below
  rw [beforeFree, hscan, Option.map_some, Option.some.injEq] at h
  dsimp only at h
  have hempty : TreeMapping first kernPgtable (fun q => ∃ π, T₀ π = some q) (Grown T₀ used)
      (InitState.mk mem la b).mem (InitState.mk mem la b).la :=
    TreeMapping.start hT hroot hgrown hinv
  -- The first loop, and the tree that it leaves.
  obtain ⟨htree, hcount⟩ := TreeMapping.mapDirects_count hbase visits hlt hempty
  obtain ⟨j, hj⟩ := initFrames_allocs kernPgtable visits
    (visits.foldl (fun st v => mapDirect kernPgtable st v.2) ⟨mem, la, b⟩)
  generalize visits.foldl (fun st v => mapDirect kernPgtable st v.2) ⟨mem, la, b⟩ = st₁
    at h htree hcount hj
  -- The second loop goes on in that tree.
  obtain ⟨-, hcount'⟩ := htree.initFrames_count hbase visits hlt
  generalize hst₂ : visits.foldl (initFrame kernPgtable) st₁ = st₂ at h hcount' hj
  have hla : st.la = st₂.la := by rw [← h]
  rw [demand_append, Nat.add_comm] at hn
  generalize hn₁ : demand used (visits.map directStep) = n₁ at hn hcount
  generalize hn₂ : demand _ (visits.map structStep) = n₂ at hn hcount'
  have hadd : linearAllocs n la = linearAllocs n₂ (linearAllocs n₁ la) := by
    rw [hn]
    exact Function.iterate_add_apply _ n₂ n₁ la
  rw [hla, hadd] at hok ⊢
  have hfirstLoop : st₁.la = linearAllocs n₁ la := by
    refine hcount n₁ rfl ?_
    rw [hj] at hok
    exact hok.imp (linearAllocs_ok j) (linearAllocs_ok n₂)
  rw [← hfirstLoop] at hok ⊢
  exact hcount' n₂ rfl hok

/-- Without an entry to start in, every allocation fails: cursor and end are the values that the
scan starts with, and between them there is no room for a page. -/
theorem pagesOf_idle (hs : la.mmAllocStart = -1) (he : la.mmAllocEnd = 0) (hlog : la.returned = [])
    (n : Nat) : pagesOf (linearAllocs n la).returned = [] := by
  have hall : (linearAllocs n la).mmAllocStart = -1 ∧ (linearAllocs n la).mmAllocEnd = 0 ∧
      pagesOf (linearAllocs n la).returned = [] := by
    induction n with
    | zero =>
        refine ⟨hs, he, ?_⟩
        show pagesOf la.returned = []
        rw [hlog]
        rfl
    | succ n ih =>
        obtain ⟨hs, he, hnone⟩ := ih
        have hsucc : linearAllocs (n + 1) la =
            (mmInitPhysAllocLinear (linearAllocs n la) PAGE_SIZE).1 :=
          Function.iterate_succ_apply' _ n la
        rw [hsucc]
        generalize linearAllocs n la = la' at hs he hnone
        have hfail : allocLinear la' PAGE_SIZE = (la', 0) := by
          rw [allocLinear, if_neg (by decide)]
          dsimp only
          rw [hs, he, if_pos (by decide)]
        rw [mmInitPhysAllocLinear, hfail]
        refine ⟨hs, he, ?_⟩
        unfold pagesOf at hnone ⊢
        rw [List.filter_cons_of_neg (by simp)]
        exact hnone
  exact hall.2.2

/-- In an available entry, the allocator draws on the supply of the memory map. -/
theorem draws_scanned (hstop : ∀ e ∈ entries, e.stop ≤ 2 ^ 46) (hpos : first ≠ 0)
    (hin : ∃ e ∈ entries, e.Available ∧ e.Holds first.toNat)
    (hscan : entries.foldlM (scanEntry first) LinearAlloc.static = some la) :
    la.supply = kernelSupply first entries ∧
      ∀ k, Draws (fun la => mmInitPhysAllocLinear la PAGE_SIZE) LinearAlloc.supply (linearAllocs k la) := by
  have hends := endsBelow_of_bounded hstop
  have hdone := scanned_of_bounded hstop hscan
  obtain ⟨hI, hs⟩ := hdone.inEntry hends hin
  have hnat : 0 < la.mmAllocStart.toNat := by
    rw [hs]
    exact Nat.pos_of_ne_zero fun h0 => hpos (BitVec.eq_of_toNat_eq h0)
  exact ⟨supply_scanned ((startEntry_ne_none hends).mpr hin) hscan, hI.draws_allocs hends hnat⟩

/-- Any number of allocations takes a prefix of the supply, and the calls for which nothing is left
fail. -/
theorem linearAllocs_supply (hstop : ∀ e ∈ entries, e.stop ≤ 2 ^ 46) (hpos : first ≠ 0)
    (hscan : entries.foldlM (scanEntry first) LinearAlloc.static = some la) (n : Nat) :
    pagesOf (linearAllocs n la).returned = (kernelSupply first entries).take n := by
  have hdone := scanned_of_bounded hstop hscan
  by_cases hin : ∃ e ∈ entries, e.Available ∧ e.Holds first.toNat
  · obtain ⟨hsupply, hdraws⟩ := draws_scanned hstop hpos hin hscan
    obtain ⟨-, htaken, -⟩ := allocated_supply mmInitPhysAllocLinear_returned n fun k _ => hdraws k
    rw [hdone.returned, hsupply] at htaken
    exact htaken
  · obtain ⟨hs, he⟩ := hdone.idle fun e he havail hholds => hin ⟨e, he, havail, hholds⟩
    rw [pagesOf_idle hs he hdone.returned, kernelSupply_nil (endsBelow_of_bounded hstop) hin]
    exact List.take_nil.symm

/-- The pages of the two loops are the first ones of the supply, also when it is too short. -/
theorem beforeFree_supply (haddrs : ∀ e ∈ entries, e.Available → PageAligned e.addr)
    (hstop : ∀ e ∈ entries, e.stop ≤ 2 ^ 46) (hfirst : PageAligned first) (hpos : first ≠ 0)
    (hT : Tables KERNEL_DIRECT_MAPPING_AREA (· ≠ 0) (fun q => q.toNat < first.toNat) [] mem T₀)
    (hroot : T₀ [] = some kernPgtable)
    (hgrown : Grown T₀ used T₀ (SumiOS.entries KERNEL_DIRECT_MAPPING_AREA mem T₀))
    (hvisits : allVisits entries = some visits)
    (hn : n = demand used (visits.map directStep ++ visits.map structStep))
    (h : beforeFree first kernPgtable entries visits mem b = some st) :
    pagesOf st.la.returned = (kernelSupply first entries).take n ∧
      ((∃ e ∈ entries, e.Available ∧ e.Holds first.toNat) →
        (0 ∉ st.la.returned ↔ n ≤ (kernelSupply first entries).length)) := by
  obtain ⟨la, k, hscan, hk⟩ := beforeFree_allocs h
  have hdone := scanned_of_bounded hstop hscan
  by_cases hin : ∃ e ∈ entries, e.Available ∧ e.Holds first.toNat
  · obtain ⟨hsupply, hdraws⟩ := draws_scanned hstop hpos hin hscan
    have hrun := run_supply mmInitPhysAllocLinear_returned hdone.returned hk (fun j _ => hdraws j)
      (beforeFree_count haddrs hstop hfirst hin hT hroot hgrown hvisits hscan hn h)
    rw [hsupply] at hrun
    exact ⟨hrun.1, fun _ => hrun.2⟩
  · have hnil := kernelSupply_nil (endsBelow_of_bounded hstop) hin
    refine ⟨?_, fun hin' => absurd hin' hin⟩
    rw [hk, linearAllocs_supply hstop hpos hscan, hnil, List.take_nil, List.take_nil]

end Run

/-! ### The table of the booting stage -/

/-- The booting stage leaves a tree in which the paths of its calls are in use. -/
theorem bootMmPgtableInit_grown {image : KernelImage} {m m' : Mem} {mm' : BootMm}
    {total start root : Word} (h : image.Placed) (hstart : PageAligned start)
    (hinit : bootMmPgtableInit image m (BootMm.start total start) = some (m', mm', root))
    (hok : 0 ∉ mm'.returned) (hne : mm'.bootMemAllocStart ≠ 0) :
    ∃ T₀, Tables KERNEL_DIRECT_MAPPING_AREA (· ≠ 0)
        (fun q => q.toNat < mm'.bootMemAllocStart.toNat) [] (directMem m') T₀ ∧
      T₀ [] = some root ∧
      Grown T₀ (bootPaths image) T₀ (entries KERNEL_DIRECT_MAPPING_AREA (directMem m') T₀) := by
  obtain ⟨T, A, htree⟩ := bootMmPgtableInit_tree h hstart hinit hok
  obtain ⟨hT, hentries⟩ := htree.direct h hstart hinit hok hne
  have hnot : ∀ va, pathOf va ∉ bootPaths image := by
    intro va hmem
    obtain ⟨c, -, hc⟩ := List.mem_flatMap.mp hmem
    exact pathOf_not_inner hc
  refine ⟨T, hT, htree.rooted, fun _ _ hp => hp, fun va htop π hπ => ?_, fun v hv => ?_,
    fun va hva => absurd hva (hnot va)⟩
  · -- Root entry 0 is the one that the booting stage writes over in the end.
    have hne0 : π ≠ [0] := by
      rintro rfl
      obtain ⟨k, h0, h4, he⟩ := mem_innerPaths.mp hπ
      obtain rfl : 1 = k := by
        have hlen := congrArg List.length he
        rwa [upperPath_length] at hlen
      exact htop (List.cons.inj he).1.symm
    rw [hentries π hne0]
    have hinUse : InUse (· ≠ 0) (bootPaths image) A := htree.history.inUse bootCalls_tagged
    exact hinUse va htop π hπ
  · obtain ⟨hnear, hstruct⟩ := structVa_frameVa hv
    have hunmapped := bootMmPgtableInit_arrayUnmapped h hstart hinit hok (pageOf v.2) hnear
    rw [hstruct, ← pageMapped_eq_iff hT htree.rooted hnear, hunmapped]
    exact iff_of_false Bool.false_ne_true (hnot _)

/-! ### Machines whose last entry has the rest of the memory -/

section Last

variable {image : KernelImage} {bootStart total root first : Word} {m m' : Mem} {mm : BootMm}
  {low : List MmapEntry} {e : MmapEntry} {k : Nat}

/-- The linear allocator starts in the last entry, and nothing follows, so its supply is the rest
of that entry in whole pages. -/
theorem kernelSupply_last (havail : e.Available) (hstop : e.stop < 2 ^ 64)
    (hlow : ∀ a ∈ low, a.addr.toNat < e.stop) (hin : e.Holds first.toNat) :
    kernelSupply first (low ++ [e]) = areaPages first (e.stop - first.toNat - 1) := by
  have hend : (e.addr + e.len).toNat = e.stop := MmapEntry.stop_toNat hstop
  have hstart : startEntry first (low ++ [e]) = some e := by
    have hholds : first ≥ e.addr ∧ first < e.addr + e.len :=
      ⟨BitVec.le_def.mpr hin.1, BitVec.lt_def.mpr (hend ▸ hin.2)⟩
    rw [startEntry, List.reverse_append]
    exact List.find?_cons_of_pos (decide_eq_true ⟨havail, hholds⟩)
  rw [kernelSupply, hstart, ← hend]
  refine supplyFrom_only fun a ha => ?_
  obtain ⟨e', he', rfl⟩ := List.mem_map.mp ha
  have hmem := (List.mem_filter.mp he').1
  rw [BitVec.lt_def, hend]
  rcases List.mem_append.mp hmem with hmem | hmem
  · exact hlow e' hmem
  · obtain rfl := List.mem_singleton.mp hmem
    exact Nat.lt_of_le_of_lt hin.1 hin.2

/-- When the image ends in that entry, and the tables of both stages fit behind it, no
allocation fails. -/
theorem lastEntry_run (low : List MmapEntry) (e : MmapEntry) (h : image.Placed)
    (hinit : bootMmPgtableInit image m (BootMm.start total (bootMmInitStart bootStart image))
      = some (m', mm, root)) (hboot : 0 ∉ mm.returned)
    (haddrs : ∀ a ∈ low ++ [e], a.Available → PageAligned a.addr)
    (hstops : ∀ a ∈ low ++ [e], a.stop ≤ 2 ^ 21 * k) (hk : k ≤ 2 ^ 25)
    (hareas : (low ++ [e]).countP (fun a => decide a.Available) ≤ PHYS_MM_SEGS_NUM_MAX)
    (havail : e.Available) (hlow : ∀ a ∈ low, a.addr.toNat < e.stop)
    (hbase : e.addr.toNat ≤ image.size.toNat)
    (hroom : image.size.toNat + 4096 * (2 + bootDemand image + 35 * k) ≤ e.stop) (b : Buddy) :
    e.Holds mm.bootMemAllocStart.toNat ∧
      kernelSupply mm.bootMemAllocStart (low ++ [e])
        = areaPages mm.bootMemAllocStart (e.stop - mm.bootMemAllocStart.toNat - 1) ∧
      ∃ visits st, allVisits (low ++ [e]) = some visits ∧
        beforeFree mm.bootMemAllocStart root (low ++ [e]) visits (directMem m') b = some st ∧
        0 ∉ st.la.returned := by
  have hpos := bootStage_cursor_ne_zero h hinit
  obtain ⟨hcursor, haligned⟩ := bootStage_cursor h hinit hboot
  obtain ⟨T₀, hT₀, hroot₀, hgrown⟩ := bootMmPgtableInit_grown h (align_aligned _) hinit hboot hpos
  have hbound : ∀ a ∈ low ++ [e], a.stop ≤ 2 ^ 46 := by
    intro a ha
    have hle := hstops a ha
    omega
  have hlast : e.stop ≤ 2 ^ 46 := hbound e (List.mem_append_right _ List.mem_cons_self)
  have hnat : mm.bootMemAllocStart.toNat = image.size.toNat + 4096 * (1 + bootDemand image) := by
    rw [hcursor, pageAfter_toNat] <;> rw [bootMmInitStart_toNat h] <;> omega
  have hin : e.Holds mm.bootMemAllocStart.toNat := by
    refine ⟨by omega, ?_⟩
    have hstop : e.stop = e.addr.toNat + e.len.toNat := rfl
    omega
  have hsupply := kernelSupply_last havail (by omega) hlow hin
  obtain ⟨visits, hvisits⟩ : ∃ visits, allVisits (low ++ [e]) = some visits :=
    ⟨_, allVisits_bytes hbound⟩
  obtain ⟨st, hbefore⟩ : ∃ st, beforeFree mm.bootMemAllocStart root (low ++ [e]) visits
      (directMem m') b = some st := by
    have hsome := (foldlM_scanEntry_isSome mm.bootMemAllocStart (low ++ [e]) LinearAlloc.static
      (Nat.zero_le _)).mpr (by rwa [LinearAlloc.static, Nat.zero_add])
    obtain ⟨la, hscan⟩ := Option.isSome_iff_exists.mp hsome
    rw [beforeFree, hscan]
    exact ⟨_, rfl⟩
  refine ⟨hin, hsupply, visits, st, hvisits, hbefore, ?_⟩
  -- The number of pages that are needed is bounded by the size of the memory.
  obtain ⟨-, hiff⟩ := beforeFree_supply haddrs hbound haligned hpos hT₀ hroot₀ hgrown hvisits rfl
    hbefore
  have hdemand : kernelDemand image visits ≤ 35 * k :=
    kernelDemand_le hk (visits_below hbound hstops hvisits)
  rw [hiff ⟨e, List.mem_append_right _ List.mem_cons_self, havail, hin⟩, hsupply, areaPages,
    List.length_map, List.length_range]
  refine hdemand.trans ?_
  omega

end Last

/-! ### A small machine -/

/-- An image that ends at 2 MB. -/
def lowImage : KernelImage :=
  ⟨KERNEL_BASE_ADDR + 0x100000, KERNEL_BASE_ADDR + 0x200000, 0x100000⟩

/-- The memory map of a machine with 8 MB. -/
def lowMap : List MmapEntry :=
  [⟨0, 0x9fc00, 1⟩, ⟨0x9fc00, 0x400, 2⟩, ⟨0x100000, 0x700000, 1⟩]

/-- The image that ends at 2 MB lies where the linker script may put one. -/
theorem lowImage_placed : lowImage.Placed := by decide

/-- Its tables take at most 19 pages in the booting stage. -/
theorem lowImage_demand : bootDemand lowImage ≤ 19 := by
  have hsize : lowImage.size.toNat = 0x200000 := by decide
  refine (bootDemand_regions lowImage_placed).trans ?_
  rw [hsize]
  decide

/-- The booting stage has enough memory, and so has the kernel: with this image both stages come to
their ends without a failed allocation, because their demands are no larger than what there is. -/
theorem lowImage_run :
    ∃ m' mm root visits st,
      bootMmPgtableInit lowImage (fun _ => 0)
        (BootMm.start 0x800000 (bootMmInitStart 0x100000 lowImage)) = some (m', mm, root) ∧
      0 ∉ mm.returned ∧
      (⟨0x100000, 0x700000, 1⟩ : MmapEntry).Holds mm.bootMemAllocStart.toNat ∧
      (∀ p ∈ kernelSupply mm.bootMemAllocStart lowMap, 0x100000 ≤ p.toNat ∧ p.toNat < 0x800000) ∧
      allVisits lowMap = some visits ∧
      beforeFree mm.bootMemAllocStart root lowMap visits (directMem m') cleared = some st ∧
      0 ∉ st.la.returned := by
  obtain ⟨m', mm, root, hinit⟩ := bootMmPgtableInit_ends lowImage_placed (fun _ => 0) 0x800000
    (bootMmInitStart 0x100000 lowImage)
  have hdemand := lowImage_demand
  have hsize : lowImage.size.toNat = 0x200000 := by decide
  have hboot : 0 ∉ mm.returned := by
    have hnat : (bootMmInitStart 0x100000 lowImage).toNat = _ :=
      bootMmInitStart_toNat lowImage_placed
    have htotal : (0x800000 : Word).toNat = 0x800000 := rfl
    rw [(bootStage_supply lowImage_placed hinit).2, bootSupply, areaPages, List.length_map,
      List.length_range]
    omega
  -- Behind the image are its tables, the tables of the structs and their pages: all fit below 8 MB.
  have hroom : lowImage.size.toNat + 4096 * (2 + bootDemand lowImage + 35 * 4) ≤
      (⟨0x100000, 0x700000, 1⟩ : MmapEntry).stop := by
    rw [hsize]
    generalize bootDemand lowImage = n at hdemand
    refine Nat.le_trans ?_ (show 0x800000 ≤ _ by decide)
    omega
  obtain ⟨hin, hsupply, visits, st, hvisits, hbefore, hok⟩ :=
    lastEntry_run [⟨0, 0x9fc00, 1⟩, ⟨0x9fc00, 0x400, 2⟩] ⟨0x100000, 0x700000, 1⟩
      lowImage_placed hinit hboot (by decide) (by decide) (by decide) (by decide) rfl (by decide)
      (by decide) hroom cleared
  refine ⟨m', mm, root, visits, st, hinit, hboot, hin, fun p hp => ?_, hvisits, hbefore, hok⟩
  have hlow : 0x100000 ≤ mm.bootMemAllocStart.toNat := hin.1
  have hend : mm.bootMemAllocStart.toNat < 0x800000 := hin.2
  have hp : p ∈ areaPages mm.bootMemAllocStart (0x800000 - mm.bootMemAllocStart.toNat - 1) :=
    hsupply ▸ hp
  have hplace := mem_areaPages (by omega) hp
  omega

end SumiOS
