import SumiOS.Proofs.Boot.Alloc

/-!
# `SumiOS.Proofs.Boot.Image`: what `boot_mm_pgtable_init` maps

With the symbols as the linker script places them, the three loops end, and
together they are one run of `boot_pgtable_map` on the calls `bootCalls`
(`bootMmPgtableInit_eq`). So the table that they build is a tree with the history
of these calls, apart from root entry 0, which is overwritten in the end
(`BootTree`).
-/

set_option autoImplicit false

namespace SumiOS

open Lib

/-! ### Regions -/

/-- The calls for `n` pages in a row. -/
def regionCalls (attr : Word) : Nat → Word → Word → List MapCall
  | 0, _, _ => []
  | n + 1, virt, phys => ⟨virt, phys, attr⟩ :: regionCalls attr n (virt + PAGE_SIZE) (phys + PAGE_SIZE)

section Region

variable {attr : Word}

/-- The calls for a region pair the `i`-th virtual page with the `i`-th physical page. -/
theorem mem_regionCalls {c : MapCall} : ∀ {n : Nat} {virt phys : Word},
    c ∈ regionCalls attr n virt phys ↔
      ∃ i < n, c = ⟨pageAfter virt i, pageAfter phys i, attr⟩
  | 0, _, _ => by simp [regionCalls]
  | n + 1, virt, phys => by
      rw [regionCalls, List.mem_cons, mem_regionCalls]
      constructor
      · rintro (rfl | ⟨i, hi, rfl⟩)
        · exact ⟨0, Nat.succ_pos n, by simp⟩
        · exact ⟨i + 1, by omega, by rw [pageAfter_succ, pageAfter_succ]⟩
      · rintro ⟨i, hi, rfl⟩
        cases i with
        | zero => exact Or.inl (by simp)
        | succ i => exact Or.inr ⟨i, by omega, by rw [pageAfter_succ, pageAfter_succ]⟩

/-- There is one call for each page of the region. -/
@[simp]
theorem regionCalls_length (n : Nat) : ∀ virt phys, (regionCalls attr n virt phys).length = n := by
  induction n with
  | zero => exact fun _ _ => rfl
  | succ n ih =>
      intro virt phys
      rw [regionCalls, List.length_cons, ih]

/-- One round of a loop: while its condition holds, it maps a page and goes on with
the next one. -/
theorem mapWhile_more {pgtable attr : Word} {more : Word → Word → Bool} {fuel : Nat} {st : BootLoop}
    (h : more st.kernVirt st.kernPhys = true) :
    mapWhile pgtable attr more (fuel + 1) st =
      let r := bootPgtableMap st.mem st.mm pgtable st.kernVirt st.kernPhys attr
      mapWhile pgtable attr more fuel
        ⟨r.1, r.2, st.kernVirt + PAGE_SIZE, st.kernPhys + PAGE_SIZE⟩ := if_pos h

/-- The end of a loop: when its condition does not hold, the state is its result. -/
theorem mapWhile_done {pgtable attr : Word} {more : Word → Word → Bool} {fuel : Nat} {st : BootLoop}
    (h : more st.kernVirt st.kernPhys = false) :
    mapWhile pgtable attr more (fuel + 1) st = some st := if_neg (by simp [h])

/-- A loop whose condition holds for `n` rounds is a run of `n` calls. -/
theorem mapWhile_eq (pgtable attr : Word) {more : Word → Word → Bool} (n : Nat) :
    ∀ (fuel : Nat) (st : BootLoop), n < fuel →
      (∀ i < n, more (pageAfter st.kernVirt i) (pageAfter st.kernPhys i) = true) →
      more (pageAfter st.kernVirt n) (pageAfter st.kernPhys n) = false →
      mapWhile pgtable attr more fuel st =
        let r := mapCalls bootPgtableMap st.mem st.mm pgtable
          (regionCalls attr n st.kernVirt st.kernPhys)
        some ⟨r.1, r.2, pageAfter st.kernVirt n, pageAfter st.kernPhys n⟩ := by
  induction n with
  | zero =>
      intro fuel st hfuel _ hend
      obtain ⟨fuel, rfl⟩ := Nat.exists_eq_succ_of_ne_zero hfuel.ne'
      rw [pageAfter_zero, pageAfter_zero] at hend ⊢
      exact mapWhile_done hend
  | succ n ih =>
      intro fuel st hfuel hmore hend
      obtain ⟨fuel, rfl⟩ := Nat.exists_eq_succ_of_ne_zero (Nat.ne_zero_of_lt hfuel)
      have hfirst := hmore 0 (Nat.succ_pos n)
      rw [pageAfter_zero, pageAfter_zero] at hfirst
      rw [mapWhile_more hfirst, ih fuel _ (by omega), regionCalls, mapCalls_cons]
      · simp only [pageAfter_succ]
      · intro i hi
        simp only [pageAfter_succ]
        exact hmore (i + 1) (by omega)
      · simp only [pageAfter_succ]
        exact hend

/-- Two lists of calls one after the other, the second on what the first has left. -/
theorem mapCalls_concat {σ : Type} (map : Mem → σ → Word → Word → Word → Word → Mem × σ) (m : Mem)
    (s : σ) (pgtable : Word) (calls calls' : List MapCall) :
    mapCalls map m s pgtable (calls ++ calls') =
      mapCalls map (mapCalls map m s pgtable calls).1 (mapCalls map m s pgtable calls).2 pgtable
        calls' := by
  unfold mapCalls
  rw [List.foldl_append]

end Region

/-! ### The image -/

/-- Where the linker script puts the symbols. -/
structure KernelImage.Placed (image : KernelImage) : Prop where
  rosegAligned : PageAligned image.rosegEnd
  kernelAligned : PageAligned image.kernelEnd
  base : KERNEL_BASE_ADDR ≤ image.rosegEnd
  roseg : image.rosegEnd ≤ image.kernelEnd

instance (image : KernelImage) : Decidable image.Placed :=
  decidable_of_iff (PageAligned image.rosegEnd ∧ PageAligned image.kernelEnd ∧
      KERNEL_BASE_ADDR ≤ image.rosegEnd ∧ image.rosegEnd ≤ image.kernelEnd)
    ⟨fun ⟨h₁, h₂, h₃, h₄⟩ => ⟨h₁, h₂, h₃, h₄⟩, fun ⟨h₁, h₂, h₃, h₄⟩ => ⟨h₁, h₂, h₃, h₄⟩⟩

/-- The calls for the read-only region. -/
def roCalls (image : KernelImage) : List MapCall :=
  regionCalls PAGE_ATTR_P (pagesTo KERNEL_BASE_ADDR image.rosegEnd) KERNEL_BASE_ADDR 0

/-- The calls for the read-write region. -/
def rwCalls (image : KernelImage) : List MapCall :=
  regionCalls (PAGE_ATTR_P ||| PAGE_ATTR_RW) (pagesTo image.rosegEnd image.kernelEnd)
    image.rosegEnd (pageAfter 0 (pagesTo KERNEL_BASE_ADDR image.rosegEnd))

/-- The calls for the direct mapping area. -/
def directCalls : List MapCall :=
  regionCalls (PAGE_ATTR_P ||| PAGE_ATTR_RW) 2560 KERNEL_DIRECT_MAPPING_AREA 0

/-- All calls of `boot_mm_pgtable_init`. -/
def bootCalls (image : KernelImage) : List MapCall := roCalls image ++ rwCalls image ++ directCalls

section Image

variable {image : KernelImage}

/-- The number of pages between two addresses is below the bound of the loops, so the bound is
never what ends them. -/
theorem pagesTo_lt (a b : Word) : pagesTo a b < loopBound := by
  have hlt := b.isLt
  unfold pagesTo loopBound
  omega

/-- The number of pages that the booting stage maps: those of the image's two regions, and 10 MB of
the direct mapping area. -/
theorem bootCalls_length : (bootCalls image).length =
    pagesTo KERNEL_BASE_ADDR image.rosegEnd + pagesTo image.rosegEnd image.kernelEnd + 2560 := by
  simp [bootCalls, roCalls, rwCalls, directCalls, Nat.add_assoc]

/-- The calls have an attribute in the low 12 bits that contains P, which is what the lemmas about
mapping runs ask of a call. -/
theorem bootCalls_tagged : ∀ c ∈ bootCalls image, c.Tagged := by
  have hregion : ∀ {attr : Word} {n : Nat} {virt phys : Word}, attr &&& PAGE_MASK = 0 →
      attr &&& PAGE_ATTR_P = PAGE_ATTR_P → ∀ c ∈ regionCalls attr n virt phys, c.Tagged := by
    intro attr n virt phys hlow hpresent c hc
    obtain ⟨i, -, rfl⟩ := mem_regionCalls.mp hc
    exact ⟨hlow, hpresent⟩
  intro c hc
  rcases List.mem_append.mp hc with hc | hc
  · rcases List.mem_append.mp hc with hc | hc
    · exact hregion (by decide) (by decide) c hc
    · exact hregion (by decide) (by decide) c hc
  · exact hregion (by decide) (by decide) c hc

section Loops

variable (pgtable : Word) (mem : Mem) (mm : BootMm)

/-- The first loop makes the calls for the read-only region and ends where that region does. -/
theorem roLoop_eq (h : image.Placed) :
    mapWhile pgtable PAGE_ATTR_P (fun virt _ => virt < image.rosegEnd) loopBound
        ⟨mem, mm, KERNEL_BASE_ADDR, 0⟩ =
      let r := mapCalls bootPgtableMap mem mm pgtable (roCalls image)
      some ⟨r.1, r.2, image.rosegEnd, pageAfter 0 (pagesTo KERNEL_BASE_ADDR image.rosegEnd)⟩ := by
  have hend := pageAfter_pagesTo (by decide) h.rosegAligned h.base
  rw [mapWhile_eq _ _ (pagesTo KERNEL_BASE_ADDR image.rosegEnd) _ _ (pagesTo_lt _ _)]
  · simp only [roCalls, hend]
  · intro i hi
    exact decide_eq_true (pageAfter_lt h.base hi)
  · simp [hend]

/-- The second loop makes the calls for the rest of the image and ends with the image, on the
physical page that follows. -/
theorem rwLoop_eq (h : image.Placed) (phys : Word) :
    mapWhile pgtable (PAGE_ATTR_P ||| PAGE_ATTR_RW) (fun virt _ => virt < image.kernelEnd)
        loopBound ⟨mem, mm, image.rosegEnd, phys⟩ =
      let n := pagesTo image.rosegEnd image.kernelEnd
      let r := mapCalls bootPgtableMap mem mm pgtable
        (regionCalls (PAGE_ATTR_P ||| PAGE_ATTR_RW) n image.rosegEnd phys)
      some ⟨r.1, r.2, image.kernelEnd, pageAfter phys n⟩ := by
  have hend := pageAfter_pagesTo h.rosegAligned h.kernelAligned h.roseg
  rw [mapWhile_eq _ _ (pagesTo image.rosegEnd image.kernelEnd) _ _ (pagesTo_lt _ _)]
  · simp only [hend]
  · intro i hi
    exact decide_eq_true (pageAfter_lt h.roseg hi)
  · simp [hend]

/-- The third loop makes the calls for the first 10 MB of the direct mapping area. -/
theorem directLoop_eq :
    mapWhile pgtable (PAGE_ATTR_P ||| PAGE_ATTR_RW) (fun _ phys => phys < 0xa00000) loopBound
        ⟨mem, mm, KERNEL_DIRECT_MAPPING_AREA, 0⟩ =
      let r := mapCalls bootPgtableMap mem mm pgtable directCalls
      some ⟨r.1, r.2, pageAfter KERNEL_DIRECT_MAPPING_AREA 2560, pageAfter 0 2560⟩ := by
  have hnat : ∀ i ≤ 2560, (pageAfter 0 i).toNat = 4096 * i := by
    intro i hi
    rw [pageAfter_toNat (by simp; omega)]
    simp
  rw [mapWhile_eq _ _ 2560 _ _ (by unfold loopBound; omega)]
  · rfl
  · intro i hi
    refine decide_eq_true (BitVec.lt_def.mpr ?_)
    rw [hnat i (by omega)]
    show _ < 10485760
    omega
  · refine decide_eq_false fun hlt => ?_
    have hlt := BitVec.lt_def.mp hlt
    rw [hnat 2560 (by omega)] at hlt
    exact absurd hlt (by decide)

end Loops

/-- The loops one after the other: when the root is allocated and each loop ends, the function ends
with what the last one leaves. -/
theorem bootMmPgtableInit_of_loops {mem : Mem} {mm mm' : BootMm} {root : Word}
    {st₁ st₂ st₃ : BootLoop} (halloc : bootMmAlloc mm PAGE_SIZE = (mm', root))
    (h₁ : mapWhile root PAGE_ATTR_P (fun virt _ => virt < image.rosegEnd) loopBound
      ⟨mem.memset root 0 PAGE_SIZE.toNat, mm', KERNEL_BASE_ADDR, 0⟩ = some st₁)
    (h₂ : mapWhile root (PAGE_ATTR_P ||| PAGE_ATTR_RW) (fun virt _ => virt < image.kernelEnd)
      loopBound st₁ = some st₂)
    (h₃ : mapWhile root (PAGE_ATTR_P ||| PAGE_ATTR_RW) (fun _ phys => phys < 0xa00000) loopBound
      ⟨st₂.mem, st₂.mm, KERNEL_DIRECT_MAPPING_AREA, 0⟩ = some st₃) :
    bootMmPgtableInit image mem mm =
      let e := entryAddr 0 root 0
      let m := st₃.mem.write64 e image.bootPageTablePud
      some (m.write64 e (m.read64 e ||| (PAGE_ATTR_P ||| PAGE_ATTR_RW)), st₃.mm, root) := by
  simp only [bootMmPgtableInit, halloc, Option.bind_eq_bind, Option.bind_eq_some_iff]
  exact ⟨st₁, h₁, st₂, h₂, st₃, h₃, rfl⟩

/-- `boot_mm_pgtable_init` ends, and is a run of calls on a zero root. -/
theorem bootMmPgtableInit_eq (h : image.Placed) (mem : Mem) {mm mm' : BootMm} {root : Word}
    (halloc : bootMmAlloc mm PAGE_SIZE = (mm', root)) {r : Mem × BootMm}
    (hr : mapCalls bootPgtableMap (mem.memset root 0 PAGE_SIZE.toNat) mm' root (bootCalls image)
      = r) :
    bootMmPgtableInit image mem mm =
      let e := entryAddr 0 root 0
      let m := r.1.write64 e image.bootPageTablePud
      some (m.write64 e (m.read64 e ||| (PAGE_ATTR_P ||| PAGE_ATTR_RW)), r.2, root) := by
  rw [bootCalls, rwCalls, mapCalls_concat, mapCalls_concat] at hr
  rw [bootMmPgtableInit_of_loops halloc (roLoop_eq _ _ _ h) (rwLoop_eq _ _ _ h _)
    (directLoop_eq _ _ _), hr]

/-- The loops of `boot_mm_pgtable_init` end, whether or not the memory is enough. -/
theorem bootMmPgtableInit_ends (h : image.Placed) (m : Mem) (total start : Word) :
    ∃ m' mm root, bootMmPgtableInit image m (BootMm.start total start) = some (m', mm, root) := by
  cases halloc : bootMmAlloc (BootMm.start total start) PAGE_SIZE with
  | mk mm₁ root₁ => exact ⟨_, _, _, bootMmPgtableInit_eq h m halloc rfl⟩

end Image

end SumiOS
