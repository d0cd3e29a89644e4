import SumiOS.Proofs.Boot.Permissions

/-!
# `SumiOS.Proofs.Boot.Translation`: where the boot page table leads

The three loops of `boot_mm_pgtable_init` hand two counters on, so each call maps
the page at a fixed distance from its frame: `KERNEL_BASE_ADDR` for the image,
and `KERNEL_DIRECT_MAPPING_AREA` for the first 10 MB (`bootCalls_place`). Pages of
the two parts differ in the bits that the walk looks at, and a page is in one
place of its part only, so the last call for a page is the call for its frame.

`bootMmPgtableInit_translates` says what the walk finds behind every root entry
but the first.
-/

set_option autoImplicit false

namespace SumiOS

open Lib

/-- The walk comes to a leaf with the frame `pa`. -/
def Translates (m : Mem) (root va pa : Word) : Prop :=
  ∃ e, pgtableWalk 0 m root va = some e ∧ e ≠ 0 ∧ e &&& PAGE_MASK = pa

/-- The walk meets a zero entry. -/
def Unmapped (m : Mem) (root va : Word) : Prop :=
  pgtableWalk 0 m root va = none ∨ pgtableWalk 0 m root va = some 0

/-- The bytes of the image. -/
def KernelImage.size (image : KernelImage) : Word := image.kernelEnd - KERNEL_BASE_ADDR

section

variable {image : KernelImage} {c : MapCall} {va x : Word}

/-- The size of the image, as a number: its end lies behind its base. -/
theorem KernelImage.Placed.size_toNat (h : image.Placed) :
    image.size.toNat = image.kernelEnd.toNat - KERNEL_BASE_ADDR.toNat :=
  BitVec.toNat_sub_of_le (BitVec.le_trans h.base h.roseg)

/-- The image lies in the last 2 GB of the address space, so its size is a small number. -/
theorem KernelImage.Placed.size_lt (h : image.Placed) : image.size.toNat < 2 ^ 31 := by
  have hbase : KERNEL_BASE_ADDR.toNat = 18446744071578845184 := rfl
  have hlt := image.kernelEnd.isLt
  rw [h.size_toNat]
  omega

/-! ### The calls -/

/-- The page `i` from address 0 on lies at `4096 * i`. -/
theorem pageAfter_zero_toNat {i : Nat} (h : 4096 * i < 2 ^ 64) : (pageAfter 0 i).toNat = 4096 * i := by
  rw [pageAfter_toNat (by simpa using h)]
  simp

/-- A page of a region is as far from its start as its frame from frame 0. -/
theorem pageAfter_eq_add (x : Word) (i : Nat) : pageAfter x i = x + pageAfter 0 i := by
  exact congrArg (x + ·) (BitVec.zero_add _).symm

/-- Every call maps a page of the image or of the direct mapping area to its frame. -/
theorem bootCalls_place (h : image.Placed) (hc : c ∈ bootCalls image) :
    PageAligned c.pa ∧ (c.va = KERNEL_BASE_ADDR + c.pa ∧ c.pa < image.size ∨
      c.va = KERNEL_DIRECT_MAPPING_AREA + c.pa ∧ c.pa < 0xa00000) := by
  have hsize := h.size_toNat
  have hsmall := h.size_lt
  have hbase := BitVec.le_def.mp h.base
  have hroseg := BitVec.le_def.mp h.roseg
  rcases List.mem_append.mp hc with hc | hc
  · rcases List.mem_append.mp hc with hc | hc
    · obtain ⟨i, hi, rfl⟩ := mem_regionCalls.mp hc
      refine ⟨PageAligned.pageAfter (by decide) i, Or.inl ⟨pageAfter_eq_add _ i, ?_⟩⟩
      unfold pagesTo at hi
      rw [BitVec.lt_def, pageAfter_zero_toNat (by omega)]
      omega
    · obtain ⟨i, hi, rfl⟩ := mem_regionCalls.mp hc
      -- The counters come from the first loop: the second one goes on where it stopped.
      generalize hn : pagesTo KERNEL_BASE_ADDR image.rosegEnd = n
      have hend : pageAfter KERNEL_BASE_ADDR n = image.rosegEnd := by
        rw [← hn]
        exact pageAfter_pagesTo (by decide) h.rosegAligned h.base
      have hphys : pageAfter (pageAfter 0 n) i = pageAfter 0 n + pageAfter 0 i :=
        pageAfter_eq_add _ i
      refine ⟨PageAligned.pageAfter (PageAligned.pageAfter (by decide) n) i, Or.inl ⟨?_, ?_⟩⟩
      · show pageAfter image.rosegEnd i = KERNEL_BASE_ADDR + pageAfter (pageAfter 0 n) i
        rw [hphys, ← BitVec.add_assoc, ← pageAfter_eq_add _ n, hend]
        exact pageAfter_eq_add _ i
      · show pageAfter (pageAfter 0 n) i < image.size
        unfold pagesTo at hi hn
        have hnat : (pageAfter 0 n).toNat = 4096 * n := pageAfter_zero_toNat (by omega)
        have hmod := h.rosegAligned.toNat_mod
        have hmodbase : KERNEL_BASE_ADDR.toNat % 4096 = 0 := rfl
        rw [BitVec.lt_def, pageAfter_toNat (by omega), hnat]
        omega
  · obtain ⟨i, hi, rfl⟩ := mem_regionCalls.mp hc
    refine ⟨PageAligned.pageAfter (by decide) i, Or.inr ⟨pageAfter_eq_add _ i, ?_⟩⟩
    have hlimit : (0xa00000 : Word).toNat = 10485760 := rfl
    rw [BitVec.lt_def, pageAfter_zero_toNat (by omega)]
    omega

/-- A page is in one place of its part. -/
theorem frame_of_sameFrom {base y : Word} (hbase : PageAligned base) (hy : PageAligned y)
    (hyl : y.toNat < 2 ^ 31) (hxl : x.toNat < 2 ^ 31)
    (hfit : base.toNat + x.toNat < 2 ^ 64) (hfit' : base.toNat + y.toNat < 2 ^ 64)
    (hsame : SameFrom PTE_OFFSET (base + y) (base + x)) : y = x &&& PAGE_MASK := by
  have hb := hbase.toNat_mod
  have hm := hy.toNat_mod
  rw [sameFrom_iff_nat, PTE_OFFSET, BitVec.toNat_add, BitVec.toNat_add, Nat.mod_eq_of_lt hfit,
    Nat.mod_eq_of_lt hfit'] at hsame
  apply BitVec.eq_of_toNat_eq
  rw [toNat_and_mask]
  omega

/-- The walk tells the image and the direct mapping area apart. -/
theorem not_sameFrom_parts {x y : Word} (hx : x.toNat < 2 ^ 31) (hy : y < 0xa00000)
    (hfit : KERNEL_BASE_ADDR.toNat + x.toNat < 2 ^ 64) :
    ¬ SameFrom PTE_OFFSET (KERNEL_BASE_ADDR + x) (KERNEL_DIRECT_MAPPING_AREA + y) := by
  have hbase : KERNEL_BASE_ADDR.toNat = 18446744071578845184 := rfl
  have hdm : KERNEL_DIRECT_MAPPING_AREA.toNat = 18446612682070032384 := rfl
  have hlimit : (0xa00000 : Word).toNat = 10485760 := rfl
  have hy := BitVec.lt_def.mp hy
  rw [sameFrom_iff_nat, PTE_OFFSET, BitVec.toNat_add, BitVec.toNat_add]
  omega

/-- The call for a page of the image is the one for its frame. -/
theorem call_image (h : image.Placed) (hx : x < image.size) (hc : c ∈ bootCalls image)
    (hsame : SameFrom PTE_OFFSET c.va (KERNEL_BASE_ADDR + x)) : c.pa = x &&& PAGE_MASK := by
  have hsize := h.size_toNat
  have hsmall := h.size_lt
  have hx := BitVec.lt_def.mp hx
  have hend := image.kernelEnd.isLt
  obtain ⟨haligned, ⟨hva, hpa⟩ | ⟨hva, hpa⟩⟩ := bootCalls_place h hc
  · have hpa := BitVec.lt_def.mp hpa
    rw [hva] at hsame
    exact frame_of_sameFrom (by decide) haligned (by omega) (by omega) (by omega) (by omega) hsame
  · rw [hva] at hsame
    exact absurd (Eq.symm hsame) (not_sameFrom_parts (by omega) hpa (by omega))

/-- The call for a page of the direct mapping area is the one for its frame. -/
theorem call_direct (h : image.Placed) (hx : x < 0xa00000) (hc : c ∈ bootCalls image)
    (hsame : SameFrom PTE_OFFSET c.va (KERNEL_DIRECT_MAPPING_AREA + x)) :
    c.pa = x &&& PAGE_MASK := by
  have hsize := h.size_toNat
  have hsmall := h.size_lt
  have hend := image.kernelEnd.isLt
  have hdm : KERNEL_DIRECT_MAPPING_AREA.toNat = 18446612682070032384 := rfl
  have hlimit : (0xa00000 : Word).toNat = 10485760 := rfl
  obtain ⟨haligned, ⟨hva, hpa⟩ | ⟨hva, hpa⟩⟩ := bootCalls_place h hc
  · have hpa := BitVec.lt_def.mp hpa
    rw [hva] at hsame
    exact absurd hsame (not_sameFrom_parts (by omega) hx (by omega))
  · have hpa := BitVec.lt_def.mp hpa
    have hx := BitVec.lt_def.mp hx
    rw [hva] at hsame
    exact frame_of_sameFrom (by decide) haligned (by omega) (by omega) (by omega) (by omega) hsame

/-- Every page of the first 10 MB is mapped in the direct mapping area, by a call whose frame is
the page itself. -/
theorem directCalls_covers (image : KernelImage) (hx : x < 0xa00000) :
    ∃ c, lastCall (KERNEL_DIRECT_MAPPING_AREA + x) (bootCalls image) = some c := by
  have hlimit : (0xa00000 : Word).toNat = 10485760 := rfl
  have hdm : KERNEL_DIRECT_MAPPING_AREA.toNat = 18446612682070032384 := rfl
  have hx := BitVec.lt_def.mp hx
  have hsame : SameFrom PTE_OFFSET (pageAfter KERNEL_DIRECT_MAPPING_AREA (x.toNat / 4096))
      (KERNEL_DIRECT_MAPPING_AREA + x) := by
    rw [sameFrom_iff_nat, PTE_OFFSET, BitVec.toNat_add, pageAfter_toNat (by omega)]
    omega
  have hmem : ⟨pageAfter KERNEL_DIRECT_MAPPING_AREA (x.toNat / 4096), pageAfter 0 (x.toNat / 4096),
      PAGE_ATTR_P ||| PAGE_ATTR_RW⟩ ∈ bootCalls image :=
    List.mem_append_right _ (mem_regionCalls.mpr ⟨x.toNat / 4096, by omega, rfl⟩)
  have hsome : (lastCall (KERNEL_DIRECT_MAPPING_AREA + x) (bootCalls image)).isSome := by
    rw [lastCall, List.find?_isSome]
    exact ⟨_, List.mem_reverse.mpr hmem, decide_eq_true hsame⟩
  exact Option.isSome_iff_exists.mp hsome

/-! ### The walk -/

variable {m : Mem} {log : List Word} {root : Word} {T : List (BitVec 9) → Option Word}
  {A : List (BitVec 9) → Word}

/-- Behind every root entry but the first, the walk finds the last call for the page. -/
theorem BootTree.walk_getD (ht : BootTree image m log root T A) (htop : indexOf PGD_OFFSET va ≠ 0) :
    (pgtableWalk 0 m root va).getD 0 =
      ((lastCall va (bootCalls image)).map fun c => c.pa ||| c.attr).getD 0 := by
  have hpath : pathOf va ≠ [0] := fun h => by simp [pathOf] at h
  rw [pgtableWalk_getD ht.tables ht.rooted htop, ht.entries _ hpath]
  exact ht.history.leaf va

/-- The last call for a page decides what its frame is, since the leaf has its address and the
attributes are masked off. -/
theorem BootTree.translates (ht : BootTree image m log root T A) (h : image.Placed)
    (htop : indexOf PGD_OFFSET va ≠ 0) (hc : lastCall va (bootCalls image) = some c) :
    Translates m root va c.pa := by
  have hmem := lastCall_mem hc
  have htag := bootCalls_tagged c hmem
  have hne : c.pa ||| c.attr ≠ 0 := or_attr_ne_zero htag.present
  have hwalk := ht.walk_getD htop
  rw [hc, Option.map_some, Option.getD_some] at hwalk
  cases hw : pgtableWalk 0 m root va with
  | none =>
      rw [hw, Option.getD_none] at hwalk
      exact absurd hwalk.symm hne
  | some e =>
      rw [hw, Option.getD_some] at hwalk
      subst hwalk
      exact ⟨_, hw, hne, (bootCalls_place h hmem).1.or_and htag.low⟩

/-- An address that no call is for is not mapped, unless it is behind root entry 0, whose tables
are those of `boot.S`. -/
theorem BootTree.unmapped (ht : BootTree image m log root T A) (htop : indexOf PGD_OFFSET va ≠ 0)
    (hc : lastCall va (bootCalls image) = none) : Unmapped m root va := by
  have hwalk := ht.walk_getD htop
  rw [hc, Option.map_none, Option.getD_none] at hwalk
  cases hw : pgtableWalk 0 m root va with
  | none => exact Or.inl hw
  | some e =>
      rw [hw, Option.getD_some] at hwalk
      exact Or.inr (by rw [hw, hwalk])

/-- Neither part is behind root entry 0, whose tables are taken over from `boot.S`. -/
theorem indexOf_pgd_ne {base : Word} (hbase : KERNEL_DIRECT_MAPPING_AREA.toNat ≤ base.toNat)
    (hfit : base.toNat + x.toNat < 2 ^ 64) : indexOf PGD_OFFSET (base + x) ≠ 0 := by
  intro h0
  have hdm : KERNEL_DIRECT_MAPPING_AREA.toNat = 18446612682070032384 := rfl
  have hindex := congrArg BitVec.toNat h0
  rw [indexOf, BitVec.extractLsb'_toNat, Nat.shiftRight_eq_div_pow, BitVec.toNat_add, PGD_OFFSET,
    Nat.mod_eq_of_lt hfit] at hindex
  have hindex : (base.toNat + x.toNat) / 2 ^ 39 % 2 ^ 9 = 0 := hindex
  omega

/-- Every byte of the image is mapped to where the image was loaded: the regions start at its base,
and frame 0 is mapped there. -/
theorem BootTree.image_translates (ht : BootTree image m log root T A) (h : image.Placed)
    (hx : x < image.size) : Translates m root (KERNEL_BASE_ADDR + x) (x &&& PAGE_MASK) := by
  have hsize := h.size_toNat
  have hx' := BitVec.lt_def.mp hx
  have hend := image.kernelEnd.isLt
  have hbase : KERNEL_BASE_ADDR.toNat = 18446744071578845184 := rfl
  have hnat : (KERNEL_BASE_ADDR + x).toNat = KERNEL_BASE_ADDR.toNat + x.toNat := by
    rw [BitVec.toNat_add]
    omega
  have hlow : KERNEL_BASE_ADDR ≤ KERNEL_BASE_ADDR + x := BitVec.le_def.mpr (by omega)
  obtain ⟨c, hc⟩ := bootCalls_covers h hlow (BitVec.lt_def.mpr (by omega))
  have hpa := call_image h hx (lastCall_mem hc) (lastCall_same hc)
  have htop : indexOf PGD_OFFSET (KERNEL_BASE_ADDR + x) ≠ 0 := indexOf_pgd_ne (by decide) (by omega)
  rw [← hpa]
  exact ht.translates h htop hc

/-- Every byte of the first 10 MB is mapped in the direct mapping area. -/
theorem BootTree.direct_translates (ht : BootTree image m log root T A) (h : image.Placed)
    (hx : x < 0xa00000) :
    Translates m root (KERNEL_DIRECT_MAPPING_AREA + x) (x &&& PAGE_MASK) := by
  have hdm : KERNEL_DIRECT_MAPPING_AREA.toNat = 18446612682070032384 := rfl
  have hlimit : (0xa00000 : Word).toNat = 10485760 := rfl
  have hx' := BitVec.lt_def.mp hx
  obtain ⟨c, hc⟩ := directCalls_covers image hx
  have hpa := call_direct h hx (lastCall_mem hc) (lastCall_same hc)
  have htop : indexOf PGD_OFFSET (KERNEL_DIRECT_MAPPING_AREA + x) ≠ 0 :=
    indexOf_pgd_ne (Nat.le_refl _) (by omega)
  rw [← hpa]
  exact ht.translates h htop hc

/-- A page of neither part was mapped by no call. -/
theorem lastCall_none (h : image.Placed)
    (himage : ∀ x < image.size, ¬ SameFrom PTE_OFFSET (KERNEL_BASE_ADDR + x) va)
    (hdirect : ∀ x < (0xa00000 : Word), ¬ SameFrom PTE_OFFSET (KERNEL_DIRECT_MAPPING_AREA + x) va) :
    lastCall va (bootCalls image) = none := by
  cases hc : lastCall va (bootCalls image) with
  | none => rfl
  | some c =>
      have hsame := lastCall_same hc
      obtain ⟨-, ⟨hva, hpa⟩ | ⟨hva, hpa⟩⟩ := bootCalls_place h (lastCall_mem hc)
      · exact absurd (hva ▸ hsame) (himage c.pa hpa)
      · exact absurd (hva ▸ hsame) (hdirect c.pa hpa)

end

/-- `boot_mm_pgtable_init` ends. When all its allocations succeed, the table translates
the image and the first 10 MB to their frames, and behind the other root entries
than the first it maps no further page. -/
theorem bootMmPgtableInit_translates (image : KernelImage) (h : image.Placed) (m : Mem)
    (total start : Word) (hstart : PageAligned start) :
    ∃ m' mm root, bootMmPgtableInit image m (BootMm.start total start) = some (m', mm, root) ∧
      (0 ∉ mm.returned →
        (∀ x < image.kernelEnd - KERNEL_BASE_ADDR,
          Translates m' root (KERNEL_BASE_ADDR + x) (x &&& PAGE_MASK)) ∧
        (∀ x < (0xa00000 : Word),
          Translates m' root (KERNEL_DIRECT_MAPPING_AREA + x) (x &&& PAGE_MASK)) ∧
        ∀ va, indexOf PGD_OFFSET va ≠ 0 →
          (∀ x < image.kernelEnd - KERNEL_BASE_ADDR,
            ¬ SameFrom PTE_OFFSET (KERNEL_BASE_ADDR + x) va) →
          (∀ x < (0xa00000 : Word),
            ¬ SameFrom PTE_OFFSET (KERNEL_DIRECT_MAPPING_AREA + x) va) →
          Unmapped m' root va) := by
  cases halloc : bootMmAlloc (BootMm.start total start) PAGE_SIZE with
  | mk mm root =>
      have hinit := bootMmPgtableInit_eq h m halloc rfl
      refine ⟨_, _, _, hinit, fun hok => ?_⟩
      obtain ⟨T, A, ht⟩ := bootMmPgtableInit_tree h hstart hinit hok
      exact ⟨fun x hx => ht.image_translates h hx, fun x hx => ht.direct_translates h hx,
        fun va htop himage hdirect => ht.unmapped htop (lastCall_none h himage hdirect)⟩

/-- An image of two pages and 1 GB of memory, where all allocations succeed: its second page is
mapped to the second frame. -/
theorem bootMmPgtableInit_translates_two :
    let image : KernelImage := ⟨KERNEL_BASE_ADDR + 0x1000, KERNEL_BASE_ADDR + 0x2000, 0x100000⟩
    ∃ m' mm root, bootMmPgtableInit image (fun _ => 0) (BootMm.start 0x40000000 0x200000)
        = some (m', mm, root) ∧ 0 ∉ mm.returned ∧
      Translates m' root (KERNEL_BASE_ADDR + 0x1234) 0x1000 := by
  intro image
  have hplaced : image.Placed := by decide
  obtain ⟨m', mm, root, hinit, htrans⟩ := bootMmPgtableInit_translates image hplaced (fun _ => 0)
    0x40000000 0x200000 (by decide)
  have hok : 0 ∉ mm.returned := by
    refine returned_of_image hplaced (by decide) ?_ hinit
    rw [bootCalls_length]
    decide
  exact ⟨m', mm, root, hinit, hok, (htrans hok).1 0x1234 (by decide)⟩

end SumiOS
