import SumiOS.Proofs.Init.Direct
import SumiOS.Proofs.PageTable.Derefs
import SumiOS.Proofs.PageTable.Exhausted

/-!
# `SumiOS.Proofs.Kernel.Loops`: what the loops of `mm_init` leave alone

The loops of `mm_pages_allocator_init` map pages of the direct mapping area and of the page
array. They write to the tables that were there, which are in `base`, and to pages of the
linear allocator, and to no other memory (`Extends.frame`). Other addresses are translated
as before: their paths are apart from those of the calls (`Effect.elsewhere`).
-/

set_option autoImplicit false

namespace SumiOS

open Lib

/-! ### The areas -/

/-- The root entries of the page array and of the direct mapping area. -/
def areaEntry (i : Word) : Bool := 256 ≤ i && i ≤ 400

section Areas

variable {va va' pa idx attr y : Word} {A A' : List (BitVec 9) → Word}

/-- The index of an address in the topmost table, as a number. -/
theorem pgdEntry_toNat (va : Word) : (pgdEntry va).toNat = va.toNat / 2 ^ 39 % 512 := by
  rw [pgdEntry_eq, BitVec.toNat_setWidth, indexOf, BitVec.extractLsb'_toNat,
    Nat.shiftRight_eq_div_pow, PGD_OFFSET]
  omega

/-- The entries of the page array and of the direct mapping area, as a range of indices. -/
theorem areaEntry_iff {i : Word} : areaEntry i = true ↔ 256 ≤ i.toNat ∧ i.toNat ≤ 400 := by
  simp [areaEntry, BitVec.le_def]

/-- The direct mapping area of the first `2 ^ 46` bytes. -/
theorem areaEntry_direct (hy : y.toNat < 2 ^ 46) :
    areaEntry (pgdEntry (physToKernelDirectMappingAddr y)) = true := by
  have hdirect : KERNEL_DIRECT_MAPPING_AREA.toNat = 18446612682070032384 := rfl
  rw [areaEntry_iff, pgdEntry_toNat, physToKernelDirectMappingAddr, BitVec.toNat_add, hdirect]
  omega

/-- The page structs of these frames are behind the root entries of the page array. -/
theorem areaEntry_pageVa (hidx : idx.toNat < 2 ^ 34) : areaEntry (pgdEntry (pageVa idx)) = true := by
  have harray : KERNEL_PAGE_ARRAY.toNat = 0xffff800000000000 := rfl
  have hsize : (64 : Word).toNat = 64 := rfl
  rw [areaEntry_iff, pgdEntry_toNat, pageVa, BitVec.toNat_add, BitVec.toNat_mul, harray, hsize]
  omega

/-- Addresses of one page have the same root entry. -/
theorem pgdEntry_of_pathOf (h : pathOf va = pathOf va') : pgdEntry va = pgdEntry va' := by
  have hindex : indexOf PGD_OFFSET va = indexOf PGD_OFFSET va' := by
    simp only [pathOf, List.cons.injEq] at h
    exact h.2.2.2.1
  rw [pgdEntry_eq, pgdEntry_eq, hindex]

/-- A call for an area leaves the leaves of other addresses alone. -/
theorem Effect.elsewhere (h : Effect va' pa attr A A') (harea : areaEntry (pgdEntry va') = true)
    (hva : areaEntry (pgdEntry va) = false) : A' (pathOf va) = A (pathOf va) := by
  refine h.keep _ (fun he => ?_) fun hm => pathOf_not_inner hm.1
  rw [pgdEntry_of_pathOf he, harea] at hva
  cases hva

end Areas

/-! ### Parts of the initialization -/

/-- A part of the initialization that maps pages: the tables stay a tree, and while no allocation
fails, memory changes only in the tables. `P` holds of the entries in the end. -/
structure Extends (first kernPgtable : Word) (base : Word → Prop)
    (P : (List (BitVec 9) → Word) → Prop) (st st' : InitState) : Prop where
  mapping : TreeMapping first kernPgtable base (fun _ A => P A) st'.mem st'.la
  log : st.la.returned <:+ st'.la.returned
  frame : 0 ∉ st'.la.returned → ∀ a, (∀ q, base q ∨ q ∈ st'.la.returned →
    OffPage KERNEL_DIRECT_MAPPING_AREA q a) → st'.mem a = st.mem a

section Extends

variable {first kernPgtable va pa attr : Word} {base : Word → Prop}
  {P P' : (List (BitVec 9) → Word) → Prop} {st st' st'' : InitState} {mem : Mem} {la : LinearAlloc}
  {v : MmapEntry × Word} {vs : List (MmapEntry × Word)}

/-- What is known of the entries may be weakened. -/
theorem TreeMapping.mono (h : TreeMapping first kernPgtable base (fun _ A => P A) mem la)
    (hP : ∀ A, P A → P' A) : TreeMapping first kernPgtable base (fun _ A => P' A) mem la where
  linear := h.linear
  tree := by
    intro hok
    obtain ⟨T, hT, hroot, hA⟩ := h.tree hok
    exact ⟨T, hT, hroot, hP _ hA⟩

/-- No round extends nothing, the base of the inductions over the loops. -/
theorem Extends.refl (h : TreeMapping first kernPgtable base (fun _ A => P A) st.mem st.la) :
    Extends first kernPgtable base P st st :=
  ⟨h, List.suffix_refl _, fun _ _ _ => rfl⟩

/-- Two parts of a loop one after the other extend the tree twice. -/
theorem Extends.trans (h : Extends first kernPgtable base P st st')
    (h' : Extends first kernPgtable base P' st' st'') : Extends first kernPgtable base P' st st'' where
  mapping := h'.mapping
  log := h.log.trans h'.log
  frame := by
    intro hok a ha
    rw [h'.frame hok a ha]
    refine h.frame (fun hz => hok (h'.log.subset hz)) a fun q hq => ha q ?_
    exact hq.imp_right fun hm => h'.log.subset hm

/-- A loop whose rounds extend the tables extends them as a whole, by induction on the rounds. -/
theorem Extends.foldl {f : InitState → MmapEntry × Word → InitState}
    (hstep : ∀ v ∈ vs, ∀ st, TreeMapping first kernPgtable base (fun _ A => P A) st.mem st.la →
      Extends first kernPgtable base P st (f st v))
    (h : TreeMapping first kernPgtable base (fun _ A => P A) st.mem st.la) :
    Extends first kernPgtable base P st (vs.foldl f st) := by
  induction vs generalizing st with
  | nil => exact Extends.refl h
  | cons v vs ih =>
      obtain ⟨hfirst, hrest⟩ := List.forall_mem_cons.mp hstep
      have hround := hfirst st h
      exact hround.trans (ih hrest hround.mapping)

/-- Memory outside of the tables stays as it was in every round, and so at every point between two
of them. -/
theorem Extends.foldl_prefix {f : InitState → MmapEntry × Word → InitState}
    {pre : List (MmapEntry × Word)} {a : Word}
    (hstep : ∀ v ∈ vs, ∀ st, TreeMapping first kernPgtable base (fun _ A => P A) st.mem st.la →
      Extends first kernPgtable base P st (f st v))
    (h : TreeMapping first kernPgtable base (fun _ A => P A) st.mem st.la) (hpre : pre <+: vs)
    (hok : 0 ∉ (vs.foldl f st).la.returned)
    (ha : ∀ q, base q ∨ q ∈ (vs.foldl f st).la.returned → OffPage KERNEL_DIRECT_MAPPING_AREA q a) :
    (pre.foldl f st).mem a = st.mem a := by
  obtain ⟨post, rfl⟩ := hpre
  obtain ⟨hfirst, hrest⟩ := List.forall_mem_append.mp hstep
  have hrounds := Extends.foldl hfirst h
  have hlog := (Extends.foldl hrest hrounds.mapping).log
  rw [← List.foldl_append] at hlog
  refine hrounds.frame (fun hz => hok (hlog.subset hz)) a fun q hq => ha q ?_
  exact hq.imp_right fun hm => hlog.subset hm

/-- A call writes to the tables on its walk and to pages that it allocates. -/
theorem TreeMapping.map_frame {Q : (List (BitVec 9) → Option Word) → (List (BitVec 9) → Word) → Prop}
    {a : Word} (h : TreeMapping first kernPgtable base Q mem la)
    (hbase : ∀ q, base q → q.toNat < first.toNat) (htop : indexOf PGD_OFFSET va ≠ 0)
    (hattr : attr &&& PAGE_MASK = 0) (hP : attr &&& PAGE_ATTR_P = PAGE_ATTR_P)
    (hok : 0 ∉ (mmInitPgtableMap mem la kernPgtable va pa attr).2.returned)
    (hoff : ∀ q, base q ∨ q ∈ (mmInitPgtableMap mem la kernPgtable va pa attr).2.returned →
      OffPage KERNEL_DIRECT_MAPPING_AREA q a) :
    (mmInitPgtableMap mem la kernPgtable va pa attr).1 a = mem a := by
  obtain ⟨n, -, hn⟩ := mmInitPgtableMap_allocs mem la kernPgtable va pa attr
  have hlinear : LinearInv first (mmInitPgtableMap mem la kernPgtable va pa attr).2 := by
    rw [hn]
    exact h.linear.allocs n
  have hold : 0 ∉ la.returned := by
    rw [hn] at hok
    exact linearAllocs_ok n hok
  -- Only the tables of the tree and the new pages are written, and `a` is in none of them.
  obtain ⟨T, hT, hroot, -⟩ := h.tree hold
  have hfresh : Fresh base (mmInitPgtableMap mem la kernPgtable va pa attr).2.returned :=
    (hlinear.cursor hok).risen.fresh hbase
  obtain ⟨r, hr⟩ : ∃ r, mmInitPgtableMap mem la kernPgtable va pa attr = r := ⟨_, rfl⟩
  rw [hr] at hfresh hoff ⊢
  have hone : mapCalls mmInitPgtableMap mem la kernPgtable [⟨va, pa, attr⟩] = r := by
    rw [mapCalls, List.foldl_cons, List.foldl_nil]
    exact hr
  rw [mmInitPgtableMap_eq] at hone
  have hkeep := mapCalls_frame (a := a) mmInitPhysAllocLinear_returned [⟨va, pa, attr⟩]
    (List.forall_mem_singleton.mpr ⟨⟨hattr, hP⟩, htop⟩) hT hroot (by rw [hone]; exact hfresh)
    (by rw [hone]; exact hoff)
  rwa [hone] at hkeep

/-- A round of the loop that maps the direct mapping area extends the tree, and writes nowhere but
in tables. -/
theorem extends_mapDirect (hbase : ∀ q, base q → q.toNat < first.toNat) (hpa : pa.toNat < 2 ^ 46)
    (hstep : ∀ A A', P A → Effect (physToKernelDirectMappingAddr pa) pa (PAGE_ATTR_RW ||| PAGE_ATTR_P)
      A A' → P A') (h : TreeMapping first kernPgtable base (fun _ A => P A) st.mem st.la) :
    Extends first kernPgtable base P st (mapDirect kernPgtable st pa) where
  mapping := h.map hbase (direct_pgd_ne_zero hpa) (by decide) (by decide)
    fun _ _ _ A A' hA _ => hstep A A' hA
  log := by
    obtain ⟨n, -, hn⟩ := mapDirect_allocs kernPgtable st pa
    rw [hn]
    exact linearAllocs_log n st.la
  frame := by
    intro hok a ha
    exact h.map_frame hbase (direct_pgd_ne_zero hpa) (by decide) (by decide) hok ha

/-- A round of the loop over the page structs extends the tree, whether the page of the struct is
new or was there already. -/
theorem extends_initFrame (hbase : ∀ q, base q → q.toNat < first.toNat) (hv : v.2.toNat < 2 ^ 46)
    (hstep : ∀ frame A A', P A → Effect (structVa v) frame (PAGE_ATTR_P ||| PAGE_ATTR_RW) A A' → P A')
    (h : TreeMapping first kernPgtable base (fun _ A => P A) st.mem st.la) :
    Extends first kernPgtable base P st (initFrame kernPgtable st v) := by
  obtain ⟨htop, hzero⟩ := pageVa_pgd_ne_zero (frameIdx_lt hv)
  refine ⟨?_, ?_, ?_⟩
  · exact h.backPage hbase htop hzero (fun _ _ hA _ => hA)
      fun frame _ _ A A' _ _ hA _ => hstep frame A A' hA
  · obtain ⟨n, -, hn⟩ := initFrame_allocs kernPgtable st v
    rw [hn]
    exact linearAllocs_log n st.la
  · show 0 ∉ (backPage kernPgtable st (structVa v)).la.returned → ∀ a,
      (∀ q, base q ∨ q ∈ (backPage kernPgtable st (structVa v)).la.returned → _) →
        (backPage kernPgtable st (structVa v)).mem a = _
    rw [backPage]
    split
    · exact fun hok a ha => h.alloc.map_frame hbase htop (by decide) (by decide) hok ha
    · exact fun _ _ _ => rfl

end Extends

end SumiOS
