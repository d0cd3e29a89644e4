import SumiOS.Proofs.Boot.Image
import SumiOS.Proofs.PageTable.Writable

/-!
# `SumiOS.Proofs.Boot.Permissions`: when permissions take effect

Runs of `boot_pgtable_map` on a zero root give the permission of a page to the
first calls above it as well (`SumiOS.Proofs.PageTable.Writable`). The permission
of a call takes effect when these calls agree (`PermissionsGranted`), and only
then. In the page table of the kernel image they do not: the read-only region
is mapped first and shares its root entry with the read-write region.
-/

set_option autoImplicit false

namespace SumiOS

open Lib

/-! ### Runs of `boot_pgtable_map` -/

/-- Every mapped page is effectively writable exactly when its last call has RW. -/
def PermissionsTakeEffect (m : Mem) (root : Word) (calls : List MapCall) : Prop :=
  ∀ va c, lastCall va calls = some c → (EffectivelyWritable 0 m root va ↔ HasRW c.attr)

/-- For every mapped page: when its last call has RW, so do the first calls on
its three inner entries. A call without RW must not have the bit in the address
instead; page-aligned addresses have not. -/
def PermissionsGranted (calls : List MapCall) : Prop :=
  ∀ va c, lastCall va calls = some c →
    (HasRW c.attr → UpperWritable calls va) ∧
      (HasRW c.pa → UpperWritable calls va → HasRW c.attr)

section Run

variable {m : Mem} {root total start : Word} {calls : List MapCall}

/-- Both attributes that the booting stage uses have the present bit and lie in the low twelve
bits. -/
theorem tagged_of_attr {c : MapCall}
    (h : c.attr = PAGE_ATTR_P ∨ c.attr = PAGE_ATTR_P ||| PAGE_ATTR_RW) : c.Tagged := by
  rcases h with h | h
  · exact ⟨by rw [h]; decide, by rw [h]; decide⟩
  · exact ⟨by rw [h]; decide, by rw [h]; decide⟩

/-- Runs of `boot_pgtable_map` whose allocations succeed build a tree. The pages that come from the
bumped cursor are fresh, since they rise. -/
theorem bootPgtableMap_mapRun {base : Word → Prop} {first : Word} {mm : BootMm}
    {T : List (BitVec 9) → Option Word} (hrun : MapRun 0 base root [] mm.returned m T)
    (hbump : Bumped first mm) (hbase : ∀ q, base q → q < first) (htagged : ∀ c ∈ calls, c.Tagged)
    (hok : 0 ∉ (mapCalls bootPgtableMap m mm root calls).2.returned) :
    ∃ T, MapRun 0 base root calls (mapCalls bootPgtableMap m mm root calls).2.returned
      (mapCalls bootPgtableMap m mm root calls).1 T := by
  obtain ⟨n, -, hn⟩ := bootPgtableMap_allocs m mm root calls
  have hfresh : Fresh base (mapCalls bootPgtableMap m mm root calls).2.returned := by
    refine Bumped.fresh ?_ hok hbase
    rw [hn]
    exact hbump.allocs n
  rw [bootPgtableMap_eq] at hfresh ⊢
  exact mapRun_of_fresh BootMm.returned bootMmAlloc_returned hrun htagged hfresh

/-- The permissions of a run take effect exactly when they are granted. -/
theorem MapRun.takeEffect_iff {base : Word → Prop} {log : List Word}
    {T : List (BitVec 9) → Option Word} (h : MapRun 0 base root calls log m T)
    (htagged : ∀ c ∈ calls, c.Tagged) :
    PermissionsTakeEffect m root calls ↔ PermissionsGranted calls := by
  refine forall_congr' fun va => forall_congr' fun c => forall_congr' fun hc => ?_
  rw [effectivelyWritable_iff h.tables h.rooted trivial h.history (fun _ _ => rfl) htagged hc]
  tauto

end Run

/-! ### The table of `boot_mm_pgtable_init` -/

/-- The read-write pages of the image are effectively writable, and the
read-only pages are not. -/
def ImagePermissions (image : KernelImage) (m : Mem) (root : Word) : Prop :=
  (∀ va, image.rosegEnd ≤ va → va < image.kernelEnd → EffectivelyWritable 0 m root va) ∧
    ∀ va, KERNEL_BASE_ADDR ≤ va → va < image.rosegEnd → ¬ EffectivelyWritable 0 m root va

/-- The tree that `boot_mm_pgtable_init` leaves: that of its calls, except for root
entry 0 and what is below it. -/
structure BootTree (image : KernelImage) (m : Mem) (log : List Word) (root : Word)
    (T : List (BitVec 9) → Option Word) (A : List (BitVec 9) → Word) : Prop where
  tables : Tables 0 (· ≠ 0) (fun _ => False) log m T
  rooted : T [] = some root
  entries : ∀ π, π ≠ [0] → SumiOS.entries 0 m T π = A π
  history : History (bootCalls image) A

section Image

variable {image : KernelImage} {m m' : Mem} {mm mm' : BootMm} {root total start va : Word}

/-- The allocator after `boot_mm_pgtable_init` is in a state that allocations lead to, so
everything that was handed out lies below its cursor. -/
theorem bootMmPgtableInit_bumped (h : image.Placed) (hstart : PageAligned start)
    (hinit : bootMmPgtableInit image m (BootMm.start total start) = some (m', mm', root)) :
    Bumped start mm' := by
  cases halloc : bootMmAlloc (BootMm.start total start) PAGE_SIZE with
  | mk mm₁ root₁ =>
      rw [bootMmPgtableInit_eq h m halloc rfl, Option.some.injEq, Prod.mk.injEq, Prod.mk.injEq] at hinit
      obtain ⟨-, rfl, -⟩ := hinit
      have hbump : Bumped start mm₁ := by
        have hb := (bumped_start total hstart).alloc
        rwa [halloc] at hb
      obtain ⟨n, -, hn⟩ := bootPgtableMap_allocs (m.memset root₁ 0 PAGE_SIZE.toNat) mm₁ root₁
        (bootCalls image)
      rw [hn]
      exact hbump.allocs n

/-- When the root was allocated, it is an empty table, and the run of mapping calls can start on it
with no call made. -/
theorem bootRoot_run (hstart : PageAligned start)
    (halloc : bootMmAlloc (BootMm.start total start) PAGE_SIZE = (mm, root)) (hok : 0 ∉ mm.returned) :
    Bumped start mm ∧ MapRun 0 (fun _ => False) root [] mm.returned
      (m.memset root 0 PAGE_SIZE.toNat) (fun π => if π = [] then some root else none) := by
  have hbump : Bumped start mm := by
    have hb := (bumped_start total hstart).alloc
    rwa [halloc] at hb
  have hlog : mm.returned = root :: (BootMm.start total start).returned := by
    have hr := bootMmAlloc_returned (BootMm.start total start)
    rwa [halloc] at hr
  have hmem : root ∈ mm.returned := by
    rw [hlog]
    exact List.mem_cons_self
  have hfresh : Fresh (fun _ => False) mm.returned := hbump.fresh hok fun _ hf => hf.elim
  have hzero : ∀ i, view 0 (m.memset root 0 PAGE_SIZE.toNat) root i = 0 := by
    intro i
    have hself : view 0 (m.memset (root + 0) 0 PAGE_SIZE.toNat) root i = 0 := view_memset_self
    rwa [show root + 0 = root from BitVec.add_zero root] at hself
  exact ⟨hbump, mapRun_nil (hfresh.aligned root hmem) hzero (Or.inr hmem)⟩

/-- When all allocations succeed, the table is a tree with the history of the
calls. -/
theorem bootMmPgtableInit_tree (h : image.Placed) (hstart : PageAligned start)
    (hinit : bootMmPgtableInit image m (BootMm.start total start) = some (m', mm', root))
    (hok : 0 ∉ mm'.returned) : ∃ T A, BootTree image m' mm'.returned root T A := by
  cases halloc : bootMmAlloc (BootMm.start total start) PAGE_SIZE with
  | mk mm₁ root₁ =>
      rw [bootMmPgtableInit_eq h m halloc rfl, Option.some.injEq, Prod.mk.injEq, Prod.mk.injEq] at hinit
      obtain ⟨rfl, rfl, rfl⟩ := hinit
      have hsuffix : mm₁.returned <:+ (mapCalls bootPgtableMap
          (m.memset root₁ 0 PAGE_SIZE.toNat) mm₁ root₁ (bootCalls image)).2.returned := by
        obtain ⟨n, -, hn⟩ := bootPgtableMap_allocs (m.memset root₁ 0 PAGE_SIZE.toNat) mm₁ root₁
          (bootCalls image)
        rw [hn]
        exact log_iterate bootMmAlloc_returned n mm₁
      obtain ⟨hbump, hroot⟩ := bootRoot_run (m := m) hstart halloc fun hz => hok (hsuffix.subset hz)
      obtain ⟨T, hrun⟩ := bootPgtableMap_mapRun hroot hbump (fun _ hf => hf.elim) bootCalls_tagged hok
      obtain ⟨hT₁, hent₁⟩ := hrun.tables.hide hrun.rooted 0 image.bootPageTablePud
      obtain ⟨hT₂, hent₂⟩ := hT₁.hide hrun.rooted 0 _
      exact ⟨T, _, ⟨⟨hT₂.laid.mono fun i hi => ⟨⟨trivial, hi⟩, hi⟩, hT₂.aligned, hT₂.used⟩,
        hrun.rooted, fun π hπ => (hent₂ π hπ).trans (hent₁ π hπ), hrun.history⟩⟩

/-- In the upper part of the address space, pages are told apart by their bits
12, …, 47. -/
theorem sameFrom_image {va va' : Word} (h : KERNEL_BASE_ADDR ≤ va) (h' : KERNEL_BASE_ADDR ≤ va') :
    SameFrom PTE_OFFSET va va' ↔ va.toNat / 4096 = va'.toNat / 4096 := by
  have hbase : KERNEL_BASE_ADDR.toNat = 18446744071578845184 := rfl
  have hlt := va.isLt
  have hlt' := va'.isLt
  rw [BitVec.le_def, hbase] at h h'
  rw [sameFrom_iff_nat, PTE_OFFSET]
  omega

/-- A call of a region is for a page of the region: the address that it maps lies between the ends
of the region, together with its whole page. -/
theorem region_page {x stop phys attr : Word} {c : MapCall} (hx : PageAligned x)
    (hstop : PageAligned stop) (hbase : KERNEL_BASE_ADDR ≤ x) (hle : x ≤ stop)
    (hc : c ∈ regionCalls attr (pagesTo x stop) x phys) (hva : KERNEL_BASE_ADDR ≤ va)
    (hsame : SameFrom PTE_OFFSET c.va va) : x ≤ va ∧ va < stop := by
  obtain ⟨i, hi, rfl⟩ := mem_regionCalls.mp hc
  have hsame : SameFrom PTE_OFFSET (pageAfter x i) va := hsame
  have hend := BitVec.lt_def.mp (pageAfter_lt hle hi)
  have hmod := hx.toNat_mod
  have hmods := hstop.toNat_mod
  have hbase' := BitVec.le_def.mp hbase
  have hlt := stop.isLt
  have hnat : (pageAfter x i).toNat = x.toNat + 4096 * i := by
    apply pageAfter_toNat
    unfold pagesTo at hi
    omega
  have hpage := (sameFrom_image (BitVec.le_def.mpr (by omega)) hva).mp hsame
  exact ⟨BitVec.le_def.mpr (by omega), BitVec.lt_def.mpr (by omega)⟩

/-- A call for a page of the image is one of the read-only or the read-write
region, whichever the page is in. -/
theorem bootCall_cases (h : image.Placed) {c : MapCall} (hc : c ∈ bootCalls image)
    (hva : KERNEL_BASE_ADDR ≤ va) (hsame : SameFrom PTE_OFFSET c.va va) :
    (va < image.rosegEnd ∧ PageAligned c.pa ∧ c.attr = PAGE_ATTR_P) ∨
      (image.rosegEnd ≤ va ∧ c.attr = PAGE_ATTR_P ||| PAGE_ATTR_RW) := by
  rcases List.mem_append.mp hc with hc | hc
  · rcases List.mem_append.mp hc with hc | hc
    · have hpage := region_page (by decide) h.rosegAligned (BitVec.le_refl _) h.base hc hva hsame
      obtain ⟨i, -, rfl⟩ := mem_regionCalls.mp hc
      exact Or.inl ⟨hpage.2, PageAligned.pageAfter (by decide) i, rfl⟩
    · have hpage := region_page h.rosegAligned h.kernelAligned h.base h.roseg hc hva hsame
      obtain ⟨i, -, rfl⟩ := mem_regionCalls.mp hc
      exact Or.inr ⟨hpage.1, rfl⟩
  · -- The direct mapping area is elsewhere.
    obtain ⟨i, hi, rfl⟩ := mem_regionCalls.mp hc
    have hsame : SameFrom PTE_OFFSET (pageAfter KERNEL_DIRECT_MAPPING_AREA i) va := hsame
    have hbase : KERNEL_BASE_ADDR.toNat = 18446744071578845184 := rfl
    have hdm : KERNEL_DIRECT_MAPPING_AREA.toNat = 18446612682070032384 := rfl
    have hnat : (pageAfter KERNEL_DIRECT_MAPPING_AREA i).toNat =
        KERNEL_DIRECT_MAPPING_AREA.toNat + 4096 * i := by
      apply pageAfter_toNat
      omega
    have hva := BitVec.le_def.mp hva
    have hlt := va.isLt
    rw [sameFrom_iff_nat, PTE_OFFSET, hnat] at hsame
    omega

/-- The pages of a region that were mapped are those it consists of: for each address in it there
is a call for the page of that address. -/
theorem mapped_region {x stop phys attr : Word} (hx : PageAligned x) (hstop : PageAligned stop)
    (hbase : KERNEL_BASE_ADDR ≤ x) (hva : x ≤ va) (hend : va < stop) :
    ∃ c ∈ regionCalls attr (pagesTo x stop) x phys, SameFrom PTE_OFFSET c.va va := by
  have hmod := hx.toNat_mod
  have hmods := hstop.toNat_mod
  have hle := BitVec.le_def.mp hbase
  have hva' := BitVec.le_def.mp hva
  have hend' := BitVec.lt_def.mp hend
  have hi : pagesTo x va < pagesTo x stop := by
    unfold pagesTo
    omega
  have hnat : (pageAfter x (pagesTo x va)).toNat = x.toNat + 4096 * pagesTo x va := by
    apply pageAfter_toNat
    unfold pagesTo
    omega
  refine ⟨_, mem_regionCalls.mpr ⟨_, hi, rfl⟩, ?_⟩
  show SameFrom PTE_OFFSET (pageAfter x (pagesTo x va)) va
  refine (sameFrom_image (BitVec.le_def.mpr (by omega)) (BitVec.le_trans hbase hva)).mpr ?_
  rw [hnat, pagesTo]
  omega

/-- Every page of the image is mapped, in the read-only or in the read-write region, and so some
call decides it. -/
theorem bootCalls_covers (h : image.Placed) (hva : KERNEL_BASE_ADDR ≤ va)
    (hend : va < image.kernelEnd) : ∃ c, lastCall va (bootCalls image) = some c := by
  have hmapped : ∃ c ∈ bootCalls image, SameFrom PTE_OFFSET c.va va := by
    by_cases hreg : va < image.rosegEnd
    · obtain ⟨c, hc, hsame⟩ :=
        mapped_region (by decide) h.rosegAligned (BitVec.le_refl _) hva hreg
      exact ⟨c, List.mem_append_left _ (List.mem_append_left _ hc), hsame⟩
    · obtain ⟨c, hc, hsame⟩ :=
        mapped_region h.rosegAligned h.kernelAligned h.base (BitVec.not_lt.mp hreg) hend
      exact ⟨c, List.mem_append_left _ (List.mem_append_right _ hc), hsame⟩
  obtain ⟨c, hc, hsame⟩ := hmapped
  have hsome : (lastCall va (bootCalls image)).isSome := by
    rw [lastCall, List.find?_isSome]
    exact ⟨c, List.mem_reverse.mpr hc, decide_eq_true hsame⟩
  exact Option.isSome_iff_exists.mp hsome

/-- The paths of a walk begin with the same root entry. -/
theorem walk_getLast {π : List (BitVec 9)} (hπ : π ∈ innerPaths va ++ [pathOf va]) :
    π.getLast? = some (indexOf PGD_OFFSET va) := by
  have hall : ∀ π ∈ innerPaths va ++ [pathOf va], π.getLast? = some (indexOf PGD_OFFSET va) := by
    simp [innerPaths, pathOf]
  exact hall π hπ

/-- The permission of a page of the image in the table: it is writable in effect when all four
entries on its path allow it, and those of the inner levels have the attributes of the first call
through them. -/
theorem BootTree.effectivelyWritable_iff {log : List Word} {T : List (BitVec 9) → Option Word}
    {A : List (BitVec 9) → Word} (h : BootTree image m log root T A) (hva : KERNEL_BASE_ADDR ≤ va)
    {c : MapCall} (hc : lastCall va (bootCalls image) = some c) :
    EffectivelyWritable 0 m root va ↔
      UpperWritable (bootCalls image) va ∧ (HasRW c.pa ∨ HasRW c.attr) := by
  -- The image is behind the last root entry, not the first one.
  have htop : indexOf PGD_OFFSET va ≠ 0 := by
    intro h0
    have hnat : va.toNat / 2 ^ 39 % 2 ^ 9 = 0 := by
      have hindex := congrArg BitVec.toNat h0
      rwa [indexOf, BitVec.extractLsb'_toNat, Nat.shiftRight_eq_div_pow] at hindex
    have hbase : KERNEL_BASE_ADDR.toNat = 18446744071578845184 := rfl
    have hle := BitVec.le_def.mp hva
    have hlt := va.isLt
    omega
  refine SumiOS.effectivelyWritable_iff h.tables h.rooted htop h.history (fun π hπ => h.entries π ?_)
    bootCalls_tagged hc
  rintro rfl
  have hlast := walk_getLast hπ
  exact htop (Option.some.inj hlast).symm

/-- When there is a read-only page, its call is the first one behind the last
root entry. -/
theorem firstCall_image (h : image.Placed) (hro : KERNEL_BASE_ADDR < image.rosegEnd)
    (hva : KERNEL_BASE_ADDR ≤ va) :
    firstCall PGD_OFFSET va (bootCalls image) = some ⟨KERNEL_BASE_ADDR, 0, PAGE_ATTR_P⟩ := by
  have hbase : KERNEL_BASE_ADDR.toNat = 18446744071578845184 := rfl
  have hle := BitVec.le_def.mp hva
  have hlt := va.isLt
  have hpos : pagesTo KERNEL_BASE_ADDR image.rosegEnd ≠ 0 := by
    have hmod := h.rosegAligned.toNat_mod
    have hro := BitVec.lt_def.mp hro
    unfold pagesTo
    omega
  have hsame : SameFrom PGD_OFFSET KERNEL_BASE_ADDR va := by
    rw [sameFrom_iff_nat, PGD_OFFSET]
    omega
  obtain ⟨n, hn⟩ := Nat.exists_eq_succ_of_ne_zero hpos
  rw [firstCall, bootCalls, roCalls, hn, regionCalls, List.cons_append, List.cons_append]
  exact List.find?_cons_of_pos (decide_eq_true hsame)

/-- Without read-only pages, all calls have RW, so that no inner entry is created without it. -/
theorem bootCalls_attr (hro : image.rosegEnd = KERNEL_BASE_ADDR) {c : MapCall}
    (hc : c ∈ bootCalls image) : c.attr = PAGE_ATTR_P ||| PAGE_ATTR_RW := by
  have hnone : roCalls image = [] := by
    rw [roCalls, hro, pagesTo, Nat.sub_self]
    rfl
  rw [bootCalls, hnone, List.nil_append] at hc
  rcases List.mem_append.mp hc with hc | hc
  · obtain ⟨i, -, rfl⟩ := mem_regionCalls.mp hc
    rfl
  · obtain ⟨i, -, rfl⟩ := mem_regionCalls.mp hc
    rfl

/-- The permissions of the image take effect exactly when one of its regions is
empty. -/
theorem BootTree.image_iff {log : List Word} {T : List (BitVec 9) → Option Word}
    {A : List (BitVec 9) → Word} (ht : BootTree image m log root T A) (h : image.Placed) :
    ImagePermissions image m root ↔
      image.rosegEnd = KERNEL_BASE_ADDR ∨ image.rosegEnd = image.kernelEnd := by
  have hne_lt : ∀ {a b : Word}, a ≤ b → a ≠ b → a < b := by
    intro a b hle hne
    bv_omega
  constructor
  · intro hperm
    by_contra hboth
    obtain ⟨hne, hne'⟩ := not_or.mp hboth
    have hro : KERNEL_BASE_ADDR < image.rosegEnd := hne_lt h.base (Ne.symm hne)
    have hrw : image.rosegEnd < image.kernelEnd := hne_lt h.roseg hne'
    obtain ⟨c, hc⟩ := bootCalls_covers h h.base hrw
    have hw := hperm.1 image.rosegEnd (BitVec.le_refl _) hrw
    have hupper := ((ht.effectivelyWritable_iff h.base hc).mp hw).1
    -- The first call of all shares the root entry, and it has no RW.
    have hfirst := firstCall_image h hro h.base
    have hbit := hupper PGD_OFFSET (by simp) _ hfirst
    exact absurd hbit (by decide)
  · intro hempty
    refine ⟨fun va hva hend => ?_, fun va hva hend => ?_⟩
    · have hbase := BitVec.le_trans h.base hva
      have hro : image.rosegEnd = KERNEL_BASE_ADDR := by
        refine hempty.resolve_right fun he => ?_
        rw [he] at hva
        exact BitVec.not_lt.mpr hva hend
      obtain ⟨c, hc⟩ := bootCalls_covers h hbase hend
      refine (ht.effectivelyWritable_iff hbase hc).mpr ⟨?_, Or.inr ?_⟩
      · intro lo _ c' hc'
        rw [bootCalls_attr hro (List.mem_of_find?_eq_some hc')]
        decide
      · rw [bootCalls_attr hro (lastCall_mem hc)]
        decide
    · have hend' : va < image.kernelEnd := by
        have hle := h.roseg
        bv_omega
      obtain ⟨c, hc⟩ := bootCalls_covers h hva hend'
      rw [ht.effectivelyWritable_iff hva hc]
      rcases bootCall_cases h (lastCall_mem hc) hva (lastCall_same hc) with
        ⟨-, hpa, hattr⟩ | ⟨hle, -⟩
      · rintro ⟨-, hrw | hrw⟩
        · exact hpa.not_hasRW hrw
        · rw [hattr] at hrw
          exact absurd hrw (by decide)
      · exact absurd hend (BitVec.not_lt.mpr hle)

end Image

/-- With enough memory, no allocation of `boot_mm_pgtable_init` fails: three pages for each call
and one for the root are more than it can take. -/
theorem returned_of_image {image : KernelImage} (h : image.Placed) {m m' : Mem} {mm : BootMm}
    {root total start : Word} (hpos : start ≠ 0)
    (henough : start.toNat + 4096 * (3 * (bootCalls image).length) + 4096 < total.toNat)
    (hinit : bootMmPgtableInit image m (BootMm.start total start) = some (m', mm, root)) :
    0 ∉ mm.returned := by
  cases halloc : bootMmAlloc (BootMm.start total start) PAGE_SIZE with
  | mk mm₁ root₁ =>
      rw [bootMmPgtableInit_eq h m halloc rfl, Option.some.injEq, Prod.mk.injEq, Prod.mk.injEq] at hinit
      obtain ⟨-, rfl, -⟩ := hinit
      obtain ⟨n, hn, he⟩ := bootPgtableMap_allocs (m.memset root₁ 0 PAGE_SIZE.toNat) mm₁ root₁
        (bootCalls image)
      -- The root is one more allocation, before the others.
      have hall : bootAllocs n mm₁ = bootAllocs (n + 1) (BootMm.start total start) := by
        have hfirst : (bootMmAlloc (BootMm.start total start) PAGE_SIZE).1 = mm₁ := by rw [halloc]
        rw [← hfirst]
        exact (Function.iterate_succ_apply _ n _).symm
      have hle := Nat.mul_le_mul_left 4096 hn
      have hroom : start.toNat + 4096 * (n + 1) < total.toNat :=
        calc start.toNat + 4096 * (n + 1)
            = start.toNat + 4096 * n + 4096 := by rw [Nat.mul_succ, ← Nat.add_assoc]
          _ ≤ start.toNat + 4096 * (3 * (bootCalls image).length) + 4096 :=
            Nat.add_le_add_right (Nat.add_le_add_left hle _) _
          _ < total.toNat := henough
      have hsome := returned_of_enough (b := BootMm.start total start) hpos List.not_mem_nil (n + 1)
        hroom
      rw [he, hall]
      exact hsome.1

/-! ### The permissions -/

/-- The permissions of a run on a zero root take effect exactly when they are
granted, and those of the kernel image exactly when one of its regions is
empty. -/
theorem permissions_iff (m : Mem) (total start : Word) (hstart : PageAligned start) :
    (∀ (root : Word) (calls : List MapCall), PageAligned root → root < start →
      (∀ i, view 0 m root i = 0) →
      (∀ c ∈ calls, c.attr = PAGE_ATTR_P ∨ c.attr = PAGE_ATTR_P ||| PAGE_ATTR_RW) →
      0 ∉ (mapCalls bootPgtableMap m (BootMm.start total start) root calls).2.returned →
      (PermissionsTakeEffect (mapCalls bootPgtableMap m (BootMm.start total start) root calls).1 root
        calls ↔ PermissionsGranted calls)) ∧
    ∀ image : KernelImage, image.Placed →
      ∃ m' mm root, bootMmPgtableInit image m (BootMm.start total start) = some (m', mm, root) ∧
        (0 ∉ mm.returned → (ImagePermissions image m' root ↔
          image.rosegEnd = KERNEL_BASE_ADDR ∨ image.rosegEnd = image.kernelEnd)) := by
  constructor
  · intro root calls hroot hbelow hzero hattr hok
    have htagged : ∀ c ∈ calls, c.Tagged := fun c hc => tagged_of_attr (hattr c hc)
    have hempty : MapRun 0 (· = root) root [] [] m _ := mapRun_nil hroot hzero (Or.inl rfl)
    obtain ⟨T, hrun⟩ := bootPgtableMap_mapRun hempty (bumped_start total hstart)
      (fun q hq => hq ▸ hbelow) htagged hok
    exact hrun.takeEffect_iff htagged
  · intro image h
    cases halloc : bootMmAlloc (BootMm.start total start) PAGE_SIZE with
    | mk mm root =>
        have hinit := bootMmPgtableInit_eq h m halloc rfl
        refine ⟨_, _, _, hinit, fun hok => ?_⟩
        obtain ⟨T, A, htree⟩ := bootMmPgtableInit_tree h hstart hinit hok
        exact htree.image_iff h

/-- Two pages, and an image of two pages: the second page is mapped read-only behind a writable
one, which is granted, and both regions of the image have a page, which takes no effect. -/
theorem permissions_iff_two :
    let calls : List MapCall := [⟨KERNEL_BASE_ADDR, 0, PAGE_ATTR_P ||| PAGE_ATTR_RW⟩,
      ⟨KERNEL_BASE_ADDR + 0x1000, 0x1000, PAGE_ATTR_P⟩]
    let image : KernelImage := ⟨KERNEL_BASE_ADDR + 0x1000, KERNEL_BASE_ADDR + 0x2000, 0x100000⟩
    (PermissionsTakeEffect (mapCalls bootPgtableMap (fun _ => 0)
        (BootMm.start 0x1000000 0x201000) 0x200000 calls).1 0x200000 calls ↔
      PermissionsGranted calls) ∧
    ∃ m' mm' root, bootMmPgtableInit image (fun _ => 0) (BootMm.start 0x40000000 0x200000)
        = some (m', mm', root) ∧ 0 ∉ mm'.returned ∧
      (ImagePermissions image m' root ↔
        image.rosegEnd = KERNEL_BASE_ADDR ∨ image.rosegEnd = image.kernelEnd) := by
  intro calls image
  have hattr : ∀ c ∈ calls, c.attr = PAGE_ATTR_P ∨ c.attr = PAGE_ATTR_P ||| PAGE_ATTR_RW := by
    intro c hc
    simp only [calls, List.mem_cons, List.not_mem_nil, or_false] at hc
    rcases hc with rfl | rfl
    · exact Or.inr rfl
    · exact Or.inl rfl
  -- Two calls need six tables at most, and there is memory for them.
  have hok := returned_of_calls (fun _ => 0) (BootMm.start 0x1000000 0x201000) 0x200000
    (by decide) (by decide) calls (by decide)
  have hrun := (permissions_iff (fun _ => 0) 0x1000000 0x201000 (by decide)).1 0x200000 calls
    (by decide) (by decide) (fun _ => show ofBytes (fun _ => 0) = 0 from rfl) hattr hok
  have hplaced : image.Placed := by decide
  obtain ⟨m', mm', root, hinit, hperm⟩ :=
    (permissions_iff (fun _ => 0) 0x40000000 0x200000 (by decide)).2 image hplaced
  have hok' : 0 ∉ mm'.returned := by
    refine returned_of_image hplaced (by decide) ?_ hinit
    rw [bootCalls_length]
    decide
  exact ⟨hrun, m', mm', root, hinit, hok', hperm hok'⟩

/-- A page that was mapped for reading and writing behind a read-only one is not
effectively writable. -/
theorem not_permissionsTakeEffect :
    let calls : List MapCall := [⟨KERNEL_BASE_ADDR, 0, PAGE_ATTR_P⟩,
      ⟨KERNEL_BASE_ADDR + 0x1000, 0x1000, PAGE_ATTR_P ||| PAGE_ATTR_RW⟩]
    let mm := BootMm.start 0x1000000 0x201000
    0 ∉ (mapCalls bootPgtableMap (fun _ => 0) mm 0x200000 calls).2.returned ∧
      ¬ PermissionsTakeEffect (mapCalls bootPgtableMap (fun _ => 0) mm 0x200000 calls).1 0x200000
        calls := by
  intro calls mm
  have hok := returned_of_calls (fun _ => 0) mm 0x200000 (by decide) (by decide) calls (by decide)
  have htagged : ∀ c ∈ calls, c.Tagged := by
    intro c hc
    simp only [calls, List.mem_cons, List.not_mem_nil, or_false] at hc
    rcases hc with rfl | rfl
    · exact tagged_of_attr (Or.inl rfl)
    · exact tagged_of_attr (Or.inr rfl)
  have hempty : MapRun 0 (· = 0x200000) 0x200000 [] mm.returned (fun _ => 0) _ :=
    mapRun_nil (by decide) (fun _ => show ofBytes (fun _ => 0) = 0 from rfl) (Or.inl rfl)
  have hbump : Bumped 0x201000 mm := bumped_start 0x1000000 (by decide)
  have hbelow : ∀ q : Word, q = 0x200000 → q < 0x201000 := by
    rintro q rfl
    decide
  obtain ⟨T, hrun⟩ := bootPgtableMap_mapRun hempty hbump hbelow htagged hok
  refine ⟨hok, fun htake => ?_⟩
  have hgranted := (hrun.takeEffect_iff htagged).mp htake (KERNEL_BASE_ADDR + 0x1000)
    ⟨KERNEL_BASE_ADDR + 0x1000, 0x1000, PAGE_ATTR_P ||| PAGE_ATTR_RW⟩ (by decide)
  exact absurd (hgranted.1 (by decide)) (by decide)

end SumiOS
