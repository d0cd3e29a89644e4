import SumiOS.Proofs.Init.Demand

/-!
# `SumiOS.Proofs.Init.Multiboot`: what happens to the multiboot information

The boot loader puts its information somewhere outside the kernel image, and
`mm_pages_allocator_init` reads the memory map in it until the frames are freed. The two
allocators do not know where it is. The booting stage starts one page behind the image,
and the linear allocator goes on from there.

Which pages they hand out is known in advance: `bootPages` and `kernelPages`. So the
information is kept exactly when it lies outside them (`mbiKept_iff`). With an image of
2 MB, a block of more than a page right behind it is overwritten by the root table.
-/

set_option autoImplicit false

namespace SumiOS

open Lib

/-- The page has no address of the block of `size` bytes at `mbi`. -/
def Spares (mbi size : Nat) (p : Word) : Prop :=
  ∀ a, mbi ≤ a → a < mbi + size → ¬ (p.toNat ≤ a ∧ a < p.toNat + 4096)

/-- None of the results of an allocator meets the block. NULL is not a page. -/
def MbiKept (mbi size : Nat) (returned : List Word) : Prop :=
  ∀ p ∈ returned, p ≠ 0 → Spares mbi size p

/-- The pages that the booting stage gets. -/
def bootPages (image : KernelImage) (total start : Word) : List Word :=
  (bootSupply total start).take (bootDemand image)

/-- The pages that `mm_pages_allocator_init` gets, when the booting stage got as many as it
needs. -/
def kernelPages (image : KernelImage) (start : Word) (entries : List MmapEntry)
    (visits : List (MmapEntry × Word)) : List Word :=
  (kernelSupply (pageAfter start (bootDemand image)) entries).take (kernelDemand image visits)

section Kept

variable {mbi size : Nat} {log log' pages : List Word}

/-- The block is kept when it meets none of the pages. -/
theorem mbiKept_iff_pages (h : pagesOf log = pages) :
    MbiKept mbi size log ↔ ∀ p ∈ pages, Spares mbi size p := by
  subst h
  constructor
  · intro hkept p hp
    obtain ⟨hlog, hne⟩ := mem_pagesOf.mp hp
    exact hkept p hlog hne
  · intro hall p hp hne
    exact hall p (mem_pagesOf.mpr ⟨hp, hne⟩)

/-- The information survives two lists of pages when it survives each of them. -/
theorem mbiKept_append : MbiKept mbi size (log ++ log') ↔ MbiKept mbi size log ∧ MbiKept mbi size log' := by
  unfold MbiKept
  simp only [List.forall_mem_append]

end Kept

section Stages

variable {image : KernelImage} {bootStart total : Word} {m m' : Mem} {mm : BootMm} {root : Word}
  {entries : List MmapEntry} {visits : List (MmapEntry × Word)} {b : Buddy} {st : InitState}

/-- The pages that the booting stage takes are consecutive ones from its first free page on, as
many as its demand, or fewer when memory ends. -/
theorem bootStage_pages (h : image.Placed)
    (hinit : bootMmPgtableInit image m (BootMm.start total (bootMmInitStart bootStart image))
      = some (m', mm, root)) :
    pagesOf mm.returned = bootPages image total (bootMmInitStart bootStart image) :=
  (bootStage_supply h hinit).1

/-- The pages of `mm_pages_allocator_init`, when the booting stage got its pages: the first ones of
its own supply, as many as its demand beyond the tables that are there. -/
theorem kernelStage_pages (h : image.Placed)
    (hinit : bootMmPgtableInit image m (BootMm.start total (bootMmInitStart bootStart image))
      = some (m', mm, root))
    (haddrs : ∀ e ∈ entries, e.Available → PageAligned e.addr) (hstop : ∀ e ∈ entries, e.stop ≤ 2 ^ 46)
    (hvisits : allVisits entries = some visits)
    (hroom : bootDemand image ≤ (bootSupply total (bootMmInitStart bootStart image)).length)
    (hbefore : beforeFree mm.bootMemAllocStart root entries visits (directMem m') b = some st) :
    pagesOf st.la.returned = kernelPages image (bootMmInitStart bootStart image) entries visits := by
  have hok := (bootStage_supply h hinit).2.mpr hroom
  have hne := bootStage_cursor_ne_zero h hinit
  obtain ⟨hcursor, haligned⟩ := bootStage_cursor h hinit hok
  obtain ⟨T₀, hT, hroot, hgrown⟩ := bootMmPgtableInit_grown h (align_aligned _) hinit hok hne
  rw [(beforeFree_supply haddrs hstop haligned hne hT hroot hgrown hvisits rfl hbefore).1, hcursor]
  rfl

end Stages

/-- The booting stage keeps the multiboot information exactly when its pages spare it, for
every size of the image and of the memory. When the memory is enough for the tables of the
booting stage and the available entries start on pages, the two stages keep it until the
frames are freed exactly when the pages of both spare it. Otherwise it is enough that all
pages of the areas from the cursor on spare it too. -/
theorem mbiKept_iff (image : KernelImage) (h : image.Placed) (bootStart total : Word) (m : Mem)
    (entries : List MmapEntry) (hstop : ∀ e ∈ entries, e.stop ≤ 2 ^ 46) (mbi size : Nat) :
    ∃ m' mm root visits,
      bootMmPgtableInit image m (BootMm.start total (bootMmInitStart bootStart image))
        = some (m', mm, root) ∧
      allVisits entries = some visits ∧
      (MbiKept mbi size mm.returned ↔
        ∀ p ∈ bootPages image total (bootMmInitStart bootStart image), Spares mbi size p) ∧
      ∀ b st, beforeFree mm.bootMemAllocStart root entries visits (directMem m') b = some st →
        ((∀ e ∈ entries, e.Available → PageAligned e.addr) →
          bootDemand image ≤ (bootSupply total (bootMmInitStart bootStart image)).length →
          (MbiKept mbi size (mm.returned ++ st.la.returned) ↔
            ∀ p ∈ bootPages image total (bootMmInitStart bootStart image) ++
              kernelPages image (bootMmInitStart bootStart image) entries visits,
              Spares mbi size p)) ∧
        ((∀ p ∈ bootPages image total (bootMmInitStart bootStart image) ++
            kernelSupply mm.bootMemAllocStart entries, Spares mbi size p) →
          MbiKept mbi size (mm.returned ++ st.la.returned)) := by
  cases halloc : bootMmAlloc (BootMm.start total (bootMmInitStart bootStart image)) PAGE_SIZE with
  | mk mm root =>
      have hinit := bootMmPgtableInit_eq h m halloc rfl
      have hpages := bootStage_pages h hinit
      refine ⟨_, _, _, _, hinit, allVisits_bytes hstop, mbiKept_iff_pages hpages, ?_⟩
      intro b st hbefore
      rw [mbiKept_append, List.forall_mem_append, List.forall_mem_append, mbiKept_iff_pages hpages]
      constructor
      · intro haddrs hroom
        -- The pages of the kernel stage, when nothing fails.
        have hkernel := kernelStage_pages h hinit haddrs hstop (allVisits_bytes hstop) hroom hbefore
        rw [mbiKept_iff_pages hkernel]
      · intro ⟨hboot, hall⟩
        -- In any case they are some of those from the cursor on.
        obtain ⟨la, n, hscan, hla⟩ := beforeFree_allocs hbefore
        have hkernel := linearAllocs_supply hstop (bootStage_cursor_ne_zero h hinit) hscan n
        rw [hla, mbiKept_iff_pages hkernel]
        exact ⟨hboot, fun p hp => hall p (List.mem_of_mem_take hp)⟩

/-- On a machine with 8 MB, the information in the first megabyte is kept by both stages. -/
theorem mbiKept_iff_low :
    ∃ m' mm root visits st,
      bootMmPgtableInit lowImage (fun _ => 0)
        (BootMm.start 0x800000 (bootMmInitStart 0x100000 lowImage)) = some (m', mm, root) ∧
      allVisits lowMap = some visits ∧
      beforeFree mm.bootMemAllocStart root lowMap visits (directMem m') cleared = some st ∧
      0 ∉ mm.returned ∧ 0 ∉ st.la.returned ∧
      MbiKept 0x10000 0x400 mm.returned ∧ MbiKept 0x10000 0x400 (mm.returned ++ st.la.returned) := by
  obtain ⟨m', mm, root, visits, hinit, hvisits, hfirst, hboth⟩ := mbiKept_iff lowImage lowImage_placed
    0x100000 0x800000 (fun _ => 0) lowMap (by decide) 0x10000 0x400
  obtain ⟨m₁, mm₁, root₁, visits₁, st, hinit₁, hboot, hin, hsupply, hvisits₁, hbefore, hok⟩ :=
    lowImage_run
  obtain ⟨rfl, rfl, rfl⟩ : m' = m₁ ∧ mm = mm₁ ∧ root = root₁ := by
    simpa using hinit.symm.trans hinit₁
  obtain rfl := Option.some.inj (hvisits.symm.trans hvisits₁)
  have hspares : ∀ p : Word, 0x100000 ≤ p.toNat → Spares 0x10000 0x400 p := by
    intro p hp a hlow hhigh hin
    omega
  -- The pages of the booting stage are behind the image, the others behind these.
  have hpages : ∀ p ∈ bootPages lowImage 0x800000 (bootMmInitStart 0x100000 lowImage),
      Spares 0x10000 0x400 p := by
    intro p hp
    have hnat : (bootMmInitStart 0x100000 lowImage).toNat = _ :=
      bootMmInitStart_toNat lowImage_placed
    have hsize : lowImage.size.toNat = 0x200000 := by decide
    have htotal : (0x800000 : Word).toNat = 0x800000 := rfl
    have hplace := (mem_areaPages (by omega) (List.mem_of_mem_take hp)).1
    exact hspares p (by omega)
  have hkernel : ∀ p ∈ kernelPages lowImage (bootMmInitStart 0x100000 lowImage) lowMap visits,
      Spares 0x10000 0x400 p := by
    intro p hp
    rw [kernelPages, ← (bootStage_cursor lowImage_placed hinit hboot).1] at hp
    exact hspares p (hsupply p (List.mem_of_mem_take hp)).1
  refine ⟨m', mm, root, visits, st, hinit, hvisits, hbefore, hboot, hok, hfirst.mpr hpages, ?_⟩
  exact ((hboth cleared st hbefore).1 (by decide)
    ((bootStage_supply lowImage_placed hinit).2.mp hboot)).mpr
    (List.forall_mem_append.mpr ⟨hpages, hkernel⟩)

/-- A block of more than a page right behind the image of 2 MB: the root table is put into
its last bytes. -/
theorem not_mbiKept_behind :
    let image : KernelImage := ⟨KERNEL_BASE_ADDR + 0x100000, KERNEL_BASE_ADDR + 0x200000, 0x100000⟩
    (∀ a, 0x200000 ≤ a → a < 0x200000 + 0x1008 → ¬ (0x100000 ≤ a ∧ a < image.size.toNat)) ∧
    ∃ m' mm root,
      bootMmPgtableInit image (fun _ => 0) (BootMm.start 0x40000000 (bootMmInitStart 0x100000 image))
        = some (m', mm, root) ∧
      0 ∉ mm.returned ∧ ¬ MbiKept 0x200000 0x1008 mm.returned := by
  intro image
  have hplaced : image.Placed := by decide
  have hsize : image.size.toNat = 0x200000 := by decide
  have hstart : bootMmInitStart 0x100000 image = 0x201000 := by decide
  refine ⟨fun a hle _ hin => by omega, ?_⟩
  cases halloc : bootMmAlloc (BootMm.start 0x40000000 (bootMmInitStart 0x100000 image)) PAGE_SIZE with
  | mk mm root =>
      have hinit := bootMmPgtableInit_eq hplaced (fun _ => 0) halloc rfl
      have hok := returned_of_image hplaced (by rw [hstart]; decide)
        (by rw [hstart, bootCalls_length]; decide) hinit
      have hpages := bootStage_pages hplaced hinit
      refine ⟨_, _, _, hinit, hok, fun hkept => ?_⟩
      -- The first page of the booting stage is the root.
      have hroot : (0x201000 : Word) ∈ bootPages image 0x40000000 (bootMmInitStart 0x100000 image) := by
        have hsupply : bootSupply 0x40000000 0x201000 =
            0x201000 :: areaPages (0x201000 + PAGE_SIZE) (0x40000000 - 0x201000 - 1 - 4096) :=
          areaPages_cons (by decide)
        rw [bootPages, hstart, hsupply, bootDemand, Nat.add_comm, List.take_succ_cons]
        exact List.mem_cons_self
      have hspares := (mbiKept_iff_pages hpages).mp hkept 0x201000 hroot
      exact hspares 0x201000 (by decide) (by decide) ⟨by decide, by decide⟩

end SumiOS
