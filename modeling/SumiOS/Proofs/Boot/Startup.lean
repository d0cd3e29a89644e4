import SumiOS.Lib.Bitfield
import SumiOS.Proofs.Boot.Demand
import SumiOS.Proofs.Boot.Entry
import SumiOS.Proofs.PageTable.Derefs
import SumiOS.Startup

/-!
# `SumiOS.Proofs.Boot.Startup`: from one page table to the next

`boot_mm_pgtable_init` writes to the pages that it allocates and to no other memory
(`bootMmPgtableInit_frame`). So the tables of `boot.S` stay as they are, and as the new root
gets their entry in the end, the new page table translates the addresses behind it as the
old one did (`handover_walk`).

`bringUp_main` puts the stages together: from a boot loader that does its part, the code
comes to `main` with a page table for the image, and with the memory that CMOS reports there
is enough for it exactly when the pages that it counts fit. `bringUp_reachable` says when
all of them are behind addresses that are mapped while they are written.

The memory that `main` finds is the one of `bringUp` except for the bytes that the program
writes for itself (`OwnBytes`). No page table is there, so the results hold for every memory
that has the other bytes (`SameBytes`).
-/

set_option autoImplicit false

namespace SumiOS

open Lib Ports

/-- Two memories have the same bytes at some addresses. -/
def SameBytes (P : Word → Prop) (m m' : Mem) : Prop := ∀ x, P x → m x = m' x

/-! ### The memory that stays -/

section Frame

variable {image : KernelImage} {m m' : Mem} {mm : BootMm} {root total start a : Word}

/-- What is in front of a page is not on it. -/
theorem offPage_of_lt {q : Word} (hq : PageAligned q) (ha : a < q) : OffPage 0 q a := by
  have hmod := hq.toNat_mod
  have hlt := BitVec.lt_def.mp ha
  have hbound := q.isLt
  have hwindow : q + 0 = q := BitVec.add_zero q
  rw [OffPage, hwindow, BitVec.toNat_sub]
  omega

/-- The memory outside of the pages that were allocated stays as it was: every mapping call writes
to tables only, and these are the pages of the record. -/
theorem bootMmPgtableInit_offPages (h : image.Placed) (hstart : PageAligned start)
    (hinit : bootMmPgtableInit image m (BootMm.start total start) = some (m', mm, root))
    (hok : 0 ∉ mm.returned) (hoff : ∀ q ∈ mm.returned, OffPage 0 q a) : m' a = m a := by
  have hbump := bootMmPgtableInit_bumped h hstart hinit
  cases halloc : bootMmAlloc (BootMm.start total start) PAGE_SIZE with
  | mk mm₁ root₁ =>
      rw [bootMmPgtableInit_eq h m halloc rfl, Option.some.injEq, Prod.mk.injEq,
        Prod.mk.injEq] at hinit
      obtain ⟨rfl, rfl, rfl⟩ := hinit
      obtain ⟨n, -, hn⟩ := bootPgtableMap_allocs (m.memset root₁ 0 PAGE_SIZE.toNat) mm₁ root₁
        (bootCalls image)
      have hsuffix : mm₁.returned <:+ (mapCalls bootPgtableMap
          (m.memset root₁ 0 PAGE_SIZE.toNat) mm₁ root₁ (bootCalls image)).2.returned := by
        rw [hn]
        exact log_iterate bootMmAlloc_returned n mm₁
      obtain ⟨-, hrun⟩ := bootRoot_run (m := m) hstart halloc fun hz => hok (hsuffix.subset hz)
      have hroot : OffPage 0 root₁ a := by
        refine hoff root₁ (hsuffix.subset ?_)
        have hlog := bootMmAlloc_returned (BootMm.start total start)
        rw [halloc] at hlog
        rw [hlog]
        exact List.mem_cons_self
      -- First the root is cleared, then the calls write, and then the entry is set twice.
      have hclear : m.memset root₁ 0 PAGE_SIZE.toNat a = m a := by
        have hself := memset_offPage (m := m) hroot
        rwa [show root₁ + 0 = root₁ from BitVec.add_zero root₁] at hself
      have hfresh : Fresh (fun _ => False) (mapCalls bootPgtableMap
          (m.memset root₁ 0 PAGE_SIZE.toNat) mm₁ root₁ (bootCalls image)).2.returned :=
        hbump.fresh hok fun _ hf => hf.elim
      have hcalls : (mapCalls bootPgtableMap (m.memset root₁ 0 PAGE_SIZE.toNat) mm₁ root₁
          (bootCalls image)).1 a = m.memset root₁ 0 PAGE_SIZE.toNat a := by
        refine mapCalls_frame bootMmAlloc_returned (bootCalls image)
          (fun c hc => ⟨bootCalls_tagged c hc, trivial⟩) hrun.tables hrun.rooted hfresh ?_
        intro q hq
        cases hq with
        | inl hf => exact hf.elim
        | inr hq => exact hoff q hq
      have hentry : ∀ (m : Mem) (v : Word),
          m.write64 (entryAddr 0 root₁ ((0 : BitVec 9).setWidth 64)) v a = m a :=
        fun _ _ => write64_offPage hroot
      exact (hentry _ _).trans ((hentry _ _).trans (hcalls.trans hclear))

/-- The pages are behind the start, so memory in front of it stays as it was. -/
theorem bootMmPgtableInit_frame (h : image.Placed) (hstart : PageAligned start)
    (hinit : bootMmPgtableInit image m (BootMm.start total start) = some (m', mm, root))
    (hok : 0 ∉ mm.returned) (ha : a < start) : m' a = m a := by
  obtain ⟨limit, -, -, -, hrisen⟩ := (bootMmPgtableInit_bumped h hstart hinit).risen hok
  refine bootMmPgtableInit_offPages h hstart hinit hok fun q hq => ?_
  have hfirst := (hrisen.between q hq).1
  have hlt := BitVec.lt_def.mp ha
  exact offPage_of_lt (hrisen.aligned q hq) (BitVec.lt_def.mpr (by omega))

/-- The entry that is set in the end is the one for the tables of `boot.S`, below the first root
entry. -/
theorem bootMmPgtableInit_entry (h : image.Placed)
    (hinit : bootMmPgtableInit image m (BootMm.start total start) = some (m', mm, root)) :
    view 0 m' root 0 = image.bootPageTablePud ||| (PAGE_ATTR_P ||| PAGE_ATTR_RW) := by
  cases halloc : bootMmAlloc (BootMm.start total start) PAGE_SIZE with
  | mk mm₁ root₁ =>
      rw [bootMmPgtableInit_eq h m halloc rfl, Option.some.injEq, Prod.mk.injEq,
        Prod.mk.injEq] at hinit
      obtain ⟨rfl, -, rfl⟩ := hinit
      exact read64_write64_self.trans (congrArg (· ||| _) read64_write64_self)

/-- The root is one of the pages that were allocated, the first one. -/
theorem bootMmPgtableInit_root (h : image.Placed)
    (hinit : bootMmPgtableInit image m (BootMm.start total start) = some (m', mm, root))
    (hstart : PageAligned start) (hok : 0 ∉ mm.returned) : root ∈ mm.returned := by
  obtain ⟨T, A, htree⟩ := bootMmPgtableInit_tree h hstart hinit hok
  exact (htree.tables.used [] root htree.rooted).resolve_left id

end Frame

/-! ### The tables of `boot.S` -/

section Low

variable {s : BitVec 32} {m m' : Mem} {c : Nat} {root root' va : Word}

/-- An entry of a table of `boot.S` is in the pages of `.boot.data` behind its stack. -/
theorem view_congr_low (hs : BootDataPlaced s) (hlow : 2048 ≤ c) (hc : c + 1024 ≤ 15360)
    (hsame : ∀ a : Word, s.toNat + 8192 ≤ a.toNat → a.toNat < s.toNat + 61440 → m' a = m a)
    (i : BitVec 9) :
    view 0 m' (cellAddr (s.setWidth 64) c) i = view 0 m (cellAddr (s.setWidth 64) c) i := by
  have hbelow := hs.below
  have hi := i.isLt
  refine read64_congr fun k hk => hsame _ ?_ ?_
  · unfold entryAddr cellAddr
    bv_omega
  · unfold entryAddr cellAddr
    bv_omega

/-- The tables of `boot.S` are the same in every memory with the same bytes in these pages. -/
theorem LowTables.congr (h : LowTables s m) (hs : BootDataPlaced s)
    (hsame : ∀ a : Word, s.toNat + 8192 ≤ a.toNat → a.toNat < s.toNat + 61440 → m' a = m a) :
    LowTables s m' where
  pud i := (view_congr_low hs (by decide) (by decide) hsame i).trans (h.pud i)
  pmd i := (view_congr_low hs (by decide) (by decide) hsame i).trans (h.pmd i)
  pt t ht i := (view_congr_low hs (by omega) (by omega) hsame i).trans (h.pt t ht i)

/-- Behind the entry of `boot_page_table_pud`, the walk is the same in every root. -/
theorem LowTables.walk_eq (h : LowTables s m) (h' : LowTables s m') (hs : BootDataPlaced s)
    (hroot : SumiOS.view 0 m root 0 = tableEntry s 3072)
    (hroot' : SumiOS.view 0 m' root' 0 = tableEntry s 3072) (htop : va.toNat % 2 ^ 48 < 2 ^ 39) :
    pgtableWalk 0 m' root' va = pgtableWalk 0 m root va := by
  by_cases hva : va.toNat % 2 ^ 48 < 0x1400000
  · rw [h.walk_low hs hroot hva, h'.walk_low hs hroot' hva]
  · rw [h.walk_high hs hroot (Nat.le_of_not_lt hva) htop,
      h'.walk_high hs hroot' (Nat.le_of_not_lt hva) htop]

end Low

/-! ### The memory that CMOS reports -/

/-- A CMOS is on the bus: its second port answers with the byte that was selected at the
first one. -/
def HasCmos {δ : Type} (bus : Bus δ) (nvram : BitVec 8 → BitVec 8) : Prop :=
  ∀ d (r : BitVec 8), r.toNat < 128 → (bus.inb 0x71 (bus.outb 0x70 r d)).1 = nvram r

/-- Two bytes of CMOS, the low one first. -/
def cmosWord (nvram : BitVec 8 → BitVec 8) (r : BitVec 8) : Nat :=
  (nvram r).toNat + 256 * (nvram (r + 1)).toNat

/-- The memory that CMOS reports, in bytes. It has the memory above 16 MB in units of 64 KB,
the memory above 1 MB in KB, and the memory at 0 in KB. -/
def cmosTotal (nvram : BitVec 8 → BitVec 8) : Nat :=
  1024 * (if cmosWord nvram 0x34 ≠ 0 then 16 * 1024 + 64 * cmosWord nvram 0x34
    else if cmosWord nvram 0x17 ≠ 0 then 1024 + cmosWord nvram 0x17
    else cmosWord nvram 0x15)

section Cmos

variable {δ : Type} {bus : Bus δ} {nvram : BitVec 8 → BitVec 8} {r : BitVec 32} {m : Machine δ}

/-- Two bytes of CMOS make up a number below `2 ^ 16`. -/
theorem cmosWord_lt (r : BitVec 8) : cmosWord nvram r < 2 ^ 16 := by
  have hlow := (nvram r).isLt
  have hhigh := (nvram (r + 1)).isLt
  unfold cmosWord
  omega

/-- The bytes of a register and the next one, read through the two ports of a CMOS, make up the
word; the other devices do not see these ports. -/
theorem nvramRead_toNat (h : HasCmos bus nvram) (hr : r.toNat + 1 < 128) :
    (nvramRead bus r m).1.toNat = cmosWord nvram (r.setWidth 8) := by
  have hnext : (r + 1).setWidth 8 = r.setWidth 8 + 1 := by bv_omega
  have hlow : (r.setWidth 8).toNat < 128 := by
    rw [BitVec.toNat_setWidth]
    omega
  have hhigh : (r.setWidth 8 + 1).toNat < 128 := by bv_omega
  -- Port 0x71 belongs to no controller.
  have hread : nvramRead bus r m = ((nvram (r.setWidth 8)).setWidth 32 |||
      (nvram (r.setWidth 8 + 1)).setWidth 32 <<< 8, (nvramRead bus r m).2) := by
    refine Prod.ext ?_ rfl
    show BitVec.setWidth 32 (bus.inb 0x71 (bus.outb 0x70 (r.setWidth 8) _)).1 |||
        BitVec.setWidth 32 (bus.inb 0x71 (bus.outb 0x70 ((r + 1).setWidth 8) _)).1 <<< 8 = _
    rw [hnext, h _ _ hlow, h _ _ hhigh]
  rw [hread, toNat_twoBytes (by decide)]
  rfl

/-- An `int` that is not negative keeps its value in 64 bits. -/
theorem signExtend_toNat {x : BitVec 32} (hx : x.toNat < 2 ^ 31) :
    (x.signExtend 64).toNat = x.toNat := by
  have hmsb : x.msb = false := BitVec.msb_eq_false_iff_two_mul_lt.mpr (by omega)
  rw [BitVec.signExtend_eq_setWidth_of_msb_false hmsb, BitVec.toNat_setWidth]
  omega

/-- The memory that is detected is what CMOS reports: no sum or product overflows. -/
theorem bootMmDetect_toNat (h : HasCmos bus nvram) (m : Machine δ) :
    (bootMmDetect bus m).1.toNat = cmosTotal nvram := by
  have hwords : ∃ base ext ext16 : BitVec 32, base.toNat = cmosWord nvram 0x15 ∧
      ext.toNat = cmosWord nvram 0x17 ∧ ext16.toNat = cmosWord nvram 0x34 ∧
      (bootMmDetect bus m).1 = (if (ext16 * 64).signExtend 64 ≠ 0 then
          16 * 1024 + (ext16 * 64).signExtend 64
        else if ext.signExtend 64 ≠ 0 then 1 * 1024 + ext.signExtend 64
        else base.signExtend 64) * 1024 :=
    ⟨_, _, _, nvramRead_toNat h (by decide), nvramRead_toNat h (by decide),
      nvramRead_toNat h (by decide), rfl⟩
  obtain ⟨base, ext, ext16, hbase, hext, hext16, heq⟩ := hwords
  have hlt : ∀ r, cmosWord nvram r < 2 ^ 16 := cmosWord_lt
  have hlt₁ := hlt 0x15
  have hlt₂ := hlt 0x17
  have hlt₃ := hlt 0x34
  -- The words of the CMOS have 16 bits, so nothing wraps, and no sign bit is set.
  have hprod : (ext16 * 64).toNat = 64 * cmosWord nvram 0x34 := by
    rw [BitVec.toNat_mul, hext16]
    show cmosWord nvram 0x34 * 64 % 2 ^ 32 = _
    omega
  have hwide₁ : (base.signExtend 64).toNat = cmosWord nvram 0x15 :=
    (signExtend_toNat (by omega)).trans hbase
  have hwide₂ : (ext.signExtend 64).toNat = cmosWord nvram 0x17 :=
    (signExtend_toNat (by omega)).trans hext
  have hwide₃ : ((ext16 * 64).signExtend 64).toNat = 64 * cmosWord nvram 0x34 :=
    (signExtend_toNat (by omega)).trans hprod
  have hzero : ∀ x : Word, x ≠ 0 ↔ x.toNat ≠ 0 := fun x => not_congr BitVec.toNat_inj.symm
  rw [heq, cmosTotal, BitVec.toNat_mul]
  simp only [hzero, hwide₂, hwide₃]
  by_cases h₃ : cmosWord nvram 0x34 = 0
  · by_cases h₂ : cmosWord nvram 0x17 = 0
    · simp only [h₃, h₂, Nat.mul_zero, ne_eq, not_true_eq_false, if_false, hwide₁]
      show cmosWord nvram 0x15 * 1024 % 2 ^ 64 = _
      omega
    · simp only [h₃, h₂, Nat.mul_zero, ne_eq, not_true_eq_false, not_false_eq_true, if_false,
        if_true, BitVec.toNat_add, hwide₂]
      show (1024 + cmosWord nvram 0x17) % 2 ^ 64 * 1024 % 2 ^ 64 = _
      omega
  · have hne : 64 * cmosWord nvram 0x34 ≠ 0 := by omega
    simp only [h₃, hne, ne_eq, not_false_eq_true, if_true, BitVec.toNat_add, hwide₃]
    show (16384 + 64 * cmosWord nvram 0x34) % 2 ^ 64 * 1024 % 2 ^ 64 = _
    omega

end Cmos

/-! ### From the boot loader to `main` -/

/-- The image as the boot loader leaves it: the symbols are where the linker script puts them,
`.boot.data` is a part of the image, and its words for the tables are zero. -/
structure LoadedImage (bootStack : BitVec 32) (image : KernelImage) (m : Mem) : Prop where
  placed : image.Placed
  data : BootDataPlaced bootStack
  zero : ZeroTables bootStack m
  inside : bootStack.toNat + 61440 ≤ image.size.toNat
  pud : image.bootPageTablePud = (SumiOS.bootPageTablePud bootStack).setWidth 64

/-- The bytes that the program writes for itself from `startup64` on: its variables, its stack
and the video memory. They are in front of the end of the image, and not in the tables of
`boot.S`. -/
structure OwnBytes (bootStack : BitVec 32) (image : KernelImage) (own : Word → Prop) : Prop where
  below : ∀ x, own x → x < image.size
  tables : ∀ x, own x → x.toNat < bootStack.toNat + 8192 ∨ bootStack.toNat + 61440 ≤ x.toNat

section BringUp

variable {δ : Type} {bus : Bus δ} {nvram : BitVec 8 → BitVec 8} {bootStack eax ebx : BitVec 32}
  {image : KernelImage} {mem m m' : Mem} {bootStart rsp root total : Word} {dev : Machine δ}
  {e : Entered} {mm : BootMm} {own : Word → Prop}

/-- The first entry of the table of `boot.S`, and the tables behind it, after `start` on a loaded
image: they are what the booting stage walks through. -/
theorem LoadedImage.entered (h : LoadedImage bootStack image mem)
    (hstart : start bootStack mem eax ebx = some e) : e.edi = eax ∧ e.esi = ebx ∧
      SumiOS.view 0 e.mem (e.cr3.setWidth 64) 0 = tableEntry bootStack 3072 ∧
      LowTables bootStack e.mem := by
  obtain ⟨e', hstart', hedi, hesi, hcr3, hleft⟩ := start_left h.data mem eax ebx
  rw [hstart, Option.some.injEq] at hstart'
  subst hstart'
  have hplace : e.cr3.setWidth 64 = cellAddr (bootStack.setWidth 64) 2048 := by
    rw [hcr3]
    exact cellReg_setWidth h.data (by decide)
  rw [hplace]
  exact ⟨hedi, hesi, hleft.root h.data h.zero 0, hleft.lowTables h.data h.zero⟩

/-- `boot_mm_init` detects the memory, sets the allocator up behind the image and builds the
tables; the stack pointer moves to the kernel's addresses. -/
theorem bootMmInit_eq : bootMmInit bus bootStart image mem rsp dev =
    (bootMmPgtableInit image mem (BootMm.start (bootMmDetect bus dev).1
      (bootMmInitStart bootStart image))).map fun r =>
        ⟨r.1, r.2.1, r.2.2, rsp + KERNEL_BASE_ADDR, (bootMmDetect bus dev).2⟩ := rfl

/-- The stages, one after the other: `start` ends, `boot_mm_pgtable_init` ends on what it leaves,
and whether `main` is entered is up to its two checks, of the magic number and of the alignment of
the information. -/
theorem LoadedImage.bringUp_eq (h : LoadedImage bootStack image mem) (bus : Bus δ)
    (bootStart rsp : Word) (eax ebx : BitVec 32) (dev : Machine δ) :
    ∃ e m' mm root, start bootStack mem eax ebx = some e ∧
      bootMmPgtableInit image e.mem (BootMm.start (bootMmDetect bus dev).1
        (bootMmInitStart bootStart image)) = some (m', mm, root) ∧
      bringUp bus bootStack bootStart image mem eax ebx rsp dev = some (e,
        if eax ≠ MULTIBOOT2_BOOTLOADER_MAGIC then .returned
        else if ebx.setWidth 64 &&& 7 ≠ (0 : Word) then .returned
        else .main (ebx.setWidth 64)
          ⟨m', mm, root, rsp + KERNEL_BASE_ADDR, (bootMmDetect bus dev).2⟩) := by
  obtain ⟨e, hstart, -⟩ := start_left h.data mem eax ebx
  obtain ⟨hedi, hesi, -⟩ := h.entered hstart
  obtain ⟨m', mm, root, hinit⟩ := bootMmPgtableInit_ends h.placed e.mem (bootMmDetect bus dev).1
    (bootMmInitStart bootStart image)
  refine ⟨e, m', mm, root, hstart, hinit, ?_⟩
  have hmm : bootMmInit bus bootStart image e.mem rsp dev
      = some ⟨m', mm, root, rsp + KERNEL_BASE_ADDR, (bootMmDetect bus dev).2⟩ := by
    rw [bootMmInit_eq, hinit]
    rfl
  rw [bringUp, hstart, Option.bind_some, startup64, hedi, hesi, hmm]
  split
  · rfl
  · split <;> rfl

/-- The way to `main`: when it is entered, both stages came to their ends, the magic number was
right and the information aligned. -/
theorem LoadedImage.bringUp_inv (h : LoadedImage bootStack image mem) {mbi : Word}
    {k : BootState δ} (hrun : bringUp bus bootStack bootStart image mem eax ebx rsp dev
      = some (e, .main mbi k)) : start bootStack mem eax ebx = some e ∧
      bootMmPgtableInit image e.mem (BootMm.start (bootMmDetect bus dev).1
        (bootMmInitStart bootStart image)) = some (k.mem, k.mm, k.bootKernPgtable) ∧
      mbi = ebx.setWidth 64 ∧ k.rsp = rsp + KERNEL_BASE_ADDR := by
  obtain ⟨e', m', mm, root, hstart, hinit, hrun'⟩ :=
    h.bringUp_eq bus bootStart rsp eax ebx dev
  rw [hrun', Option.some.injEq, Prod.mk.injEq] at hrun
  obtain ⟨rfl, hmain⟩ := hrun
  split at hmain
  · cases hmain
  · split at hmain
    · cases hmain
    · cases hmain
      exact ⟨hstart, hinit, rfl, rfl⟩

/-- All pages are there exactly when the memory goes beyond them. -/
theorem enough_iff (h : image.Placed) (htotal : total.toNat = cmosTotal nvram)
    (hinit : bootMmPgtableInit image mem (BootMm.start total (bootMmInitStart bootStart image))
      = some (m', mm, root)) :
    0 ∉ mm.returned ↔ image.size.toNat + 4096 * (1 + bootDemand image) < cmosTotal nvram := by
  have hnat : (bootMmInitStart bootStart image).toNat = image.size.toNat + 4096 :=
    bootMmInitStart_toNat h
  have hpos : 0 < bootDemand image := Nat.lt_of_lt_of_le Nat.one_pos (Nat.le_add_right 1 _)
  rw [(bootStage_supply h hinit).2, bootSupply, areaPages, List.length_map, List.length_range,
    hnat, htotal]
  omega

/-- The image keeps its bytes, because every page that the booting stage writes to lies
behind it. -/
theorem image_stays (h : image.Placed)
    (hinit : bootMmPgtableInit image mem (BootMm.start total (bootMmInitStart bootStart image))
      = some (m', mm, root)) (hok : 0 ∉ mm.returned) {x : Word} (hx : x < image.size) :
    m' x = mem x := by
  have hnat : (bootMmInitStart bootStart image).toNat = image.size.toNat + 4096 :=
    bootMmInitStart_toNat h
  have hlt := BitVec.lt_def.mp hx
  have hfront : x < bootMmInitStart bootStart image := BitVec.lt_def.mpr (by omega)
  exact bootMmPgtableInit_frame h (align_aligned _) hinit hok hfront

/-- An image that lies where the linker script puts it needs fewer than `2 ^ 22` pages, so the
allocations do not wrap around. -/
theorem bootDemand_few (h : image.Placed) : bootDemand image < 2 ^ 22 := by
  have hle : bootDemand image ≤ 1 + 3 * (bootCalls image).length := bootDemand_le
  have hcalls := bootCalls_few h
  omega

/-- The pages of the booting stage follow each other behind the image, as many as its tables need,
with a page left free between the image and the first of them. -/
theorem mem_bootPages (h : image.Placed)
    (hinit : bootMmPgtableInit image mem (BootMm.start total (bootMmInitStart bootStart image))
      = some (m', mm, root)) (hok : 0 ∉ mm.returned) {p : Word} :
    p ∈ mm.returned ↔ ∃ i < bootDemand image, p.toNat = image.size.toNat + 4096 * (1 + i) := by
  have hnat : (bootMmInitStart bootStart image).toNat = image.size.toNat + 4096 :=
    bootMmInitStart_toNat h
  have hsmall := h.size_lt
  have hfew := bootDemand_few h
  obtain ⟨hpages, hroom⟩ := bootStage_supply h hinit
  have hroom := hroom.mp hok
  have hplace : ∀ i < bootDemand image,
      (pageAfter (bootMmInitStart bootStart image) i).toNat = image.size.toNat + 4096 * (1 + i) := by
    intro i hi
    rw [pageAfter_toNat (by omega), hnat]
    omega
  have hmem : p ∈ mm.returned ↔ p ∈ pagesOf mm.returned := by
    rw [mem_pagesOf]
    exact ⟨fun hp => ⟨hp, fun h0 => hok (h0 ▸ hp)⟩, fun hp => hp.1⟩
  rw [bootSupply, areaPages, List.length_map, List.length_range] at hroom
  rw [hmem, hpages, bootSupply, areaPages, ← List.map_take, List.take_range,
    Nat.min_eq_left hroom]
  simp only [List.mem_map, List.mem_range]
  constructor
  · rintro ⟨i, hi, rfl⟩
    exact ⟨i, hi, hplace i hi⟩
  · rintro ⟨i, hi, hp⟩
    exact ⟨i, hi, BitVec.eq_of_toNat_eq ((hplace i hi).trans hp.symm)⟩

/-- The tree of the new page table is there in every memory that differs from that of the booting
stage in the program's own bytes only: these are in front of its pages. -/
theorem bootTree_elsewhere (h : image.Placed)
    (hinit : bootMmPgtableInit image mem (BootMm.start total (bootMmInitStart bootStart image))
      = some (m', mm, root)) (hok : 0 ∉ mm.returned) (hown : OwnBytes bootStack image own)
    (hm : SameBytes (fun x => ¬ own x) m' m) : ∃ T A, BootTree image m mm.returned root T A := by
  obtain ⟨T, A, htree⟩ := bootMmPgtableInit_tree h (align_aligned _) hinit hok
  have hsame : ∀ π p, T π = some p → ∀ a, ¬ OffPage 0 p a → m a = m' a := by
    intro π p hp a ha
    refine (hm a fun hax => ?_).symm
    have hlog := (htree.tables.used π p hp).resolve_left id
    obtain ⟨i, hi, hnat⟩ := (mem_bootPages h hinit hok).mp hlog
    have hsmall := h.size_lt
    have hfew := bootDemand_few h
    have hlt := BitVec.lt_def.mp (hown.below a hax)
    unfold OffPage at ha
    bv_omega
  obtain ⟨htables, hentries⟩ := htree.tables.congr hsame
  exact ⟨T, A, htables, htree.rooted, fun π hπ => hentries ▸ htree.entries π hπ, htree.history⟩

/-- Behind the first root entry, the new page table is the old one. The program's own bytes are
in no table on the way. -/
theorem LoadedImage.handover_walk (h : LoadedImage bootStack image mem)
    (hstart : start bootStack mem eax ebx = some e)
    (hinit : bootMmPgtableInit image e.mem (BootMm.start total (bootMmInitStart bootStart image))
      = some (m', mm, root)) (hok : 0 ∉ mm.returned) (hown : OwnBytes bootStack image own)
    (hm : SameBytes (fun x => ¬ own x) m' m) {va : Word} (hva : va.toNat % 2 ^ 48 < 2 ^ 39) :
    pgtableWalk 0 m root va = pgtableWalk 0 e.mem (e.cr3.setWidth 64) va := by
  obtain ⟨-, -, hroot, hlow⟩ := h.entered hstart
  have hinside := h.inside
  have hsame : ∀ a : Word, bootStack.toNat + 8192 ≤ a.toNat → a.toNat < bootStack.toNat + 61440 →
      m a = e.mem a := by
    intro a hfirst hlast
    have hout : ¬ own a := fun hax => by
      have hor := hown.tables a hax
      omega
    rw [← hm a hout]
    exact image_stays h.placed hinit hok (BitVec.lt_def.mpr (by omega))
  have hroot' : SumiOS.view 0 m root 0 = tableEntry bootStack 3072 := by
    -- The root is the first page behind the image.
    have hpage : ∀ a, ¬ OffPage 0 root a → m a = m' a := by
      intro a ha
      refine (hm a fun hax => ?_).symm
      obtain ⟨i, hi, hnat⟩ := (mem_bootPages h.placed hinit hok).mp
        (bootMmPgtableInit_root h.placed hinit (align_aligned _) hok)
      have hsmall := h.placed.size_lt
      have hfew := bootDemand_few h.placed
      have hlt := BitVec.lt_def.mp (hown.below a hax)
      unfold OffPage at ha
      bv_omega
    have hpud : SumiOS.bootPageTablePud bootStack = cellReg bootStack 3072 := rfl
    rw [view_congr hpage, bootMmPgtableInit_entry h.placed hinit, h.pud, hpud,
      cellReg_setWidth h.data (by decide)]
    rfl
  exact hlow.walk_eq (hlow.congr h.data hsame) h.data hroot hroot' hva

/-- All bytes of some pages are mapped to their frames, behind `base`. -/
def PagesMapped (m : Mem) (root base : Word) (log : List Word) : Prop :=
  ∀ p ∈ log, ∀ a : Word, (a - p).toNat < 4096 → Translates m root (base + a) (a &&& PAGE_MASK)

/-- When just the frames in front of a limit are mapped, all pages of the booting stage are
mapped exactly when they end in front of it. -/
theorem pagesMapped_iff (h : image.Placed)
    (hinit : bootMmPgtableInit image mem (BootMm.start total (bootMmInitStart bootStart image))
      = some (m', mm, root)) (hok : 0 ∉ mm.returned) {m : Mem} {pgtable base : Word} {limit : Nat}
    (hmapped : ∀ a : Word, a.toNat < 2 ^ 39 →
      (Translates m pgtable (base + a) (a &&& PAGE_MASK) ↔ a.toNat < limit)) :
    PagesMapped m pgtable base mm.returned ↔
      image.size.toNat + 4096 * (1 + bootDemand image) ≤ limit := by
  have hsmall := h.size_lt
  have hpos : 0 < bootDemand image := Nat.lt_of_lt_of_le Nat.one_pos (Nat.le_add_right 1 _)
  have hfew := bootDemand_few h
  constructor
  · intro hall
    -- The last byte of the last page.
    have hlast : BitVec.ofNat 64 (image.size.toNat + 4096 * (1 + (bootDemand image - 1)))
        ∈ mm.returned := by
      refine (mem_bootPages h hinit hok).mpr ⟨bootDemand image - 1, by omega, ?_⟩
      rw [BitVec.toNat_ofNat, Nat.mod_eq_of_lt (by omega)]
    have hbyte : (BitVec.ofNat 64 (image.size.toNat + 4096 * (1 + bootDemand image) - 1)).toNat
        = image.size.toNat + 4096 * (1 + bootDemand image) - 1 := by
      rw [BitVec.toNat_ofNat, Nat.mod_eq_of_lt (by omega)]
    have htrans := hall _ hlast (BitVec.ofNat 64 (image.size.toNat + 4096 * (1 + bootDemand image) - 1))
      (by bv_omega)
    have hlt := (hmapped _ (by omega)).mp htrans
    omega
  · intro hle p hp a ha
    obtain ⟨i, hi, hnat⟩ := (mem_bootPages h hinit hok).mp hp
    have hin : a.toNat < image.size.toNat + 4096 * (1 + bootDemand image) := by
      have hplace : a.toNat < p.toNat + 4096 := by bv_omega
      omega
    exact (hmapped a (by omega)).mpr (by omega)

/-- The table of `boot.S` maps the frames below 20 MB to themselves, and no other frame below 512
GB, because the root has one entry and the table behind it has one. -/
theorem LoadedImage.identity_iff (h : LoadedImage bootStack image mem)
    (hstart : start bootStack mem eax ebx = some e) {a : Word} (ha : a.toNat < 2 ^ 39) :
    Translates e.mem (e.cr3.setWidth 64) (0 + a) (a &&& PAGE_MASK) ↔ a.toNat < 0x1400000 := by
  obtain ⟨-, -, hroot, hlow⟩ := h.entered hstart
  have hsmall : a.toNat % 2 ^ 48 = a.toNat := Nat.mod_eq_of_lt (by omega)
  have hbase : 0 + a = a := BitVec.zero_add a
  rw [hbase, Translates]
  constructor
  · rintro ⟨v, hwalk, -⟩
    by_contra hge
    rw [hlow.walk_high h.data hroot (by omega) (by omega)] at hwalk
    exact absurd hwalk (by simp)
  · intro hlt
    -- The frame and the two attributes.
    have hentry : (BitVec.ofNat 64 (a.toNat % 2 ^ 48 / 4096 * 4096 + 3)).toNat
        = a.toNat / 4096 * 4096 + 3 := by
      rw [hsmall, BitVec.toNat_ofNat, Nat.mod_eq_of_lt (by omega)]
    refine ⟨_, hlow.walk_low h.data hroot (by omega), fun hzero => ?_, BitVec.eq_of_toNat_eq ?_⟩
    · rw [hzero] at hentry
      exact absurd hentry (by simp)
    · rw [toNat_and_mask, toNat_and_mask, hentry]
      omega

/-- The direct mapping area has the frames below 10 MB, and no other ones: the calls for it end
there, and the image is mapped elsewhere. -/
theorem direct_iff (h : image.Placed)
    (hinit : bootMmPgtableInit image mem (BootMm.start total (bootMmInitStart bootStart image))
      = some (m', mm, root)) (hok : 0 ∉ mm.returned) {a : Word} (ha : a.toNat < 2 ^ 39) :
    Translates m' root (KERNEL_DIRECT_MAPPING_AREA + a) (a &&& PAGE_MASK) ↔ a.toNat < 0xa00000 := by
  obtain ⟨T, A, htree⟩ := bootMmPgtableInit_tree h (align_aligned _) hinit hok
  have hdm : KERNEL_DIRECT_MAPPING_AREA.toNat = 18446612682070032384 := rfl
  have hbase : KERNEL_BASE_ADDR.toNat = 18446744071578845184 := rfl
  have hlimit : (0xa00000 : Word).toNat = 0xa00000 := rfl
  have hsize := h.size_toNat
  have hsmall := h.size_lt
  have hend := image.kernelEnd.isLt
  constructor
  · intro htrans
    by_contra hge
    -- No call is for a page there.
    have hnone : lastCall (KERNEL_DIRECT_MAPPING_AREA + a) (bootCalls image) = none := by
      refine lastCall_none h (fun x hx hsame => ?_) fun x hx hsame => ?_
      · have hx := BitVec.lt_def.mp hx
        rw [sameFrom_iff_nat, PTE_OFFSET, BitVec.toNat_add, BitVec.toNat_add] at hsame
        omega
      · have hx := BitVec.lt_def.mp hx
        rw [sameFrom_iff_nat, PTE_OFFSET, BitVec.toNat_add, BitVec.toNat_add] at hsame
        omega
    have hunmapped := htree.unmapped (indexOf_pgd_ne (Nat.le_refl _) (by omega)) hnone
    obtain ⟨v, hwalk, hne, -⟩ := htrans
    cases hunmapped with
    | inl hstuck =>
        rw [hstuck] at hwalk
        exact absurd hwalk (by simp)
    | inr hzero =>
        rw [hzero, Option.some.injEq] at hwalk
        exact hne hwalk.symm
  · intro hlt
    exact htree.direct_translates h (BitVec.lt_def.mpr (by omega))

end BringUp

section

variable {δ : Type} (bus : Bus δ) (nvram : BitVec 8 → BitVec 8) (hcmos : HasCmos bus nvram)
  (bootStack : BitVec 32) (image : KernelImage) (mem : Mem)
  (h : LoadedImage bootStack image mem) (bootStart rsp : Word) (eax ebx : BitVec 32)
  (dev : Machine δ)

include hcmos h

/-- From a loaded image, the code returns when the magic number is not right or the
information is not aligned, and else comes to `main`. No allocation fails exactly when the
memory that CMOS reports goes beyond the image, one page, and the page table.

Then, whatever the program writes to its own bytes, the new page table is that of `boot.S`
behind its first entry, and has the image behind `KERNEL_BASE_ADDR` as well, and the other
bytes of the image are as `boot.S` left them. -/
theorem bringUp_main {own : Word → Prop} (hown : OwnBytes bootStack image own) :
    ∃ e s, bringUp bus bootStack bootStart image mem eax ebx rsp dev = some (e, s) ∧
      (s = .returned ↔ ¬ (eax = MULTIBOOT2_BOOTLOADER_MAGIC ∧ ebx.toNat % 8 = 0)) ∧
      ∀ mbi k, s = .main mbi k → mbi = ebx.setWidth 64 ∧ k.rsp = rsp + KERNEL_BASE_ADDR ∧
        (0 ∉ k.mm.returned ↔
          image.size.toNat + 4096 * (1 + bootDemand image) < cmosTotal nvram) ∧
        (0 ∉ k.mm.returned → ∀ m, SameBytes (fun x => ¬ own x) k.mem m →
          (∀ va, va.toNat % 2 ^ 48 < 2 ^ 39 → pgtableWalk 0 m k.bootKernPgtable va
            = pgtableWalk 0 e.mem (e.cr3.setWidth 64) va) ∧
          (∀ x < image.size,
            Translates m k.bootKernPgtable (KERNEL_BASE_ADDR + x) (x &&& PAGE_MASK)) ∧
          ∀ x < image.size, ¬ own x → m x = e.mem x) := by
  obtain ⟨e, m', mm, root, hstart, hinit, hrun⟩ :=
    h.bringUp_eq bus bootStart rsp eax ebx dev
  refine ⟨e, _, hrun, ?_, ?_⟩
  · -- `boot_main` gives up on a wrong magic number, and on an address that is not a multiple of 8.
    have haligned : ebx.setWidth 64 &&& 7 ≠ (0 : Word) ↔ ¬ ebx.toNat % 8 = 0 := by
      have hlow : (ebx.setWidth 64 &&& 7 : Word).toNat = ebx.toNat % 8 := by
        rw [BitVec.toNat_and, BitVec.toNat_setWidth, Nat.mod_eq_of_lt (by omega)]
        exact Nat.and_two_pow_sub_one_eq_mod _ 3
      rw [← hlow]
      exact not_congr BitVec.toNat_inj.symm
    by_cases hmagic : eax = MULTIBOOT2_BOOTLOADER_MAGIC
    · by_cases hlow : ebx.toNat % 8 = 0
      · rw [if_neg (not_not.mpr hmagic), if_neg (fun hne => haligned.mp hne hlow)]
        simp [hmagic, hlow]
      · rw [if_neg (not_not.mpr hmagic), if_pos (haligned.mpr hlow)]
        simp [hlow]
    · rw [if_pos hmagic]
      simp [hmagic]
  · intro mbi k hmain
    rw [hmain] at hrun
    obtain ⟨-, hinit, hmbi, hrsp⟩ := h.bringUp_inv hrun
    have htotal := bootMmDetect_toNat hcmos dev
    refine ⟨hmbi, hrsp, enough_iff h.placed htotal hinit, fun hok m hm => ?_⟩
    obtain ⟨T, A, htree⟩ := bootTree_elsewhere h.placed hinit hok hown hm
    refine ⟨fun va hva => h.handover_walk hstart hinit hok hown hm hva,
      fun x hx => htree.image_translates h.placed hx, fun x hx hout => ?_⟩
    -- A byte of the image that is not the program's own is as `start` left it.
    rw [← hm x hout]
    exact image_stays h.placed hinit hok hx

end

/-- A bus with nothing but a CMOS. -/
def cmosBus (nvram : BitVec 8 → BitVec 8) : Bus (BitVec 8) where
  inb port r := (if port = 0x71 then nvram r else 0, r)
  outb port value r := if port = 0x70 then value else r

/-- A CMOS that reports 64 MB. -/
def cmos64 : BitVec 8 → BitVec 8 := fun r => if r = 0x35 then 3 else 0

/-- An image of 2 MB with its `.boot.data` at 0x101000. -/
def image2 : KernelImage := ⟨KERNEL_BASE_ADDR + 0x120000, KERNEL_BASE_ADDR + 0x200000, 0x104000⟩

/-- The bus with nothing but a CMOS is one that has a CMOS. -/
theorem hasCmos_cmosBus (nvram : BitVec 8 → BitVec 8) : HasCmos (cmosBus nvram) nvram :=
  fun _ _ _ => rfl

/-- The program's own bytes of this image: the screen, the stack, and the variables behind the
tables. -/
def ownBytes2 (x : Word) : Prop :=
  OnScreen x ∨ 0x101000 ≤ x.toNat ∧ x.toNat < 0x103000 ∨ 0x110000 ≤ x.toNat ∧ x.toNat < 0x200000

instance : DecidablePred ownBytes2 := fun _ => inferInstanceAs (Decidable (_ ∨ _ ∧ _ ∨ _ ∧ _))

/-- The program's own bytes of the image of 2 MB lie in front of its end and off the tables of
`boot.S`. -/
theorem ownBytes2_own : OwnBytes 0x101000 image2 ownBytes2 where
  below := by
    intro x hx
    have hsize : image2.size.toNat = 0x200000 := by decide
    rw [BitVec.lt_def, hsize]
    rcases hx with hx | hx | hx
    · unfold OnScreen videoMem at hx
      bv_omega
    · omega
    · exact hx.2
  tables := by
    intro x hx
    show x.toNat < 0x101000 + 8192 ∨ 0x101000 + 61440 ≤ x.toNat
    rcases hx with hx | hx | hx
    · unfold OnScreen videoMem at hx
      bv_omega
    · exact Or.inl hx.2
    · exact Or.inr hx.1

/-- The image before it runs, in memory that is zero. -/
theorem loaded_image2 : LoadedImage 0x101000 image2 fun _ => 0 where
  placed := by decide
  data := ⟨by decide, by decide, by decide⟩
  zero _ _ _ := rfl
  inside := by decide
  pud := by decide

/-- Its tables take at most 19 pages: one root, and three tables for each 2 MB. -/
theorem image2_demand : bootDemand image2 ≤ 19 := by
  have hle : bootDemand image2 ≤ _ := bootDemand_regions loaded_image2.placed
  have hsize : image2.size.toNat = 0x200000 := by decide
  rwa [hsize] at hle

/-- There is room for its tables in the memory that the CMOS of this machine reports. -/
theorem image2_room : image2.size.toNat + 4096 * (1 + bootDemand image2) < cmosTotal cmos64 := by
  have hdemand := image2_demand
  have hsize : image2.size.toNat = 0x200000 := by decide
  have htotal : cmosTotal cmos64 = 0x4000000 := by decide
  omega

/-- A machine before it is used. -/
def newMachine : Machine (BitVec 8) := ⟨⟨fun _ => 0, ⟨0, fun _ => 0⟩, ⟨0, fun _ => 0⟩, []⟩, 0, [], 0⟩

/-- On a machine with 64 MB, the code comes to `main`. The stack of `boot_mm_init`, which is among
the program's own bytes, is mapped behind `KERNEL_BASE_ADDR`, and the first byte of the image is
as `boot.S` left it. -/
theorem bringUp_main_two :
    ∃ e k, bringUp (cmosBus cmos64) 0x101000 0x100000 image2 (fun _ => 0)
        MULTIBOOT2_BOOTLOADER_MAGIC 0x9500 0x102f00 newMachine = some (e, .main 0x9500 k) ∧
      0 ∉ k.mm.returned ∧ ∀ m, SameBytes (fun x => ¬ ownBytes2 x) k.mem m →
        Translates m k.bootKernPgtable (KERNEL_BASE_ADDR + 0x102f00) 0x102000 ∧
          m 0x100000 = e.mem 0x100000 := by
  obtain ⟨e, s, hrun, hreturned, hmain⟩ := bringUp_main (cmosBus cmos64) cmos64
    (hasCmos_cmosBus cmos64) 0x101000 image2 (fun _ => 0) loaded_image2 0x100000 0x102f00
    MULTIBOOT2_BOOTLOADER_MAGIC 0x9500 newMachine ownBytes2_own
  cases s with
  | returned => exact absurd ⟨rfl, rfl⟩ (hreturned.mp rfl)
  | main mbi k =>
      obtain ⟨hmbi, -, henough, hokay⟩ := hmain mbi k rfl
      have hok := henough.mpr image2_room
      have hmbi : mbi = 0x9500 := hmbi
      subst hmbi
      refine ⟨e, k, hrun, hok, fun m hm => ?_⟩
      obtain ⟨-, himage, hbytes⟩ := hokay hok m hm
      exact ⟨himage 0x102f00 (by decide), hbytes 0x100000 (by decide) (by decide)⟩

section

variable {δ : Type} (bus : Bus δ) (nvram : BitVec 8 → BitVec 8) (hcmos : HasCmos bus nvram)
  (bootStack : BitVec 32) (image : KernelImage) (mem : Mem)
  (h : LoadedImage bootStack image mem) (bootStart rsp : Word) (eax ebx : BitVec 32)
  (dev : Machine δ)

include hcmos h

/-- When nothing fails, the pages of the new table are behind addresses that the table of
`boot.S` maps, while they are written, exactly when they end below 20 MB; and they are in the
direct mapping area, where the kernel looks for them later, exactly when they end below
10 MB. -/
theorem bringUp_reachable {e : Entered} {mbi : Word} {k : BootState δ}
    (hrun : bringUp bus bootStack bootStart image mem eax ebx rsp dev = some (e, .main mbi k))
    (hroom : image.size.toNat + 4096 * (1 + bootDemand image) < cmosTotal nvram) :
    (PagesMapped e.mem (e.cr3.setWidth 64) 0 k.mm.returned ↔
      image.size.toNat + 4096 * (1 + bootDemand image) ≤ 0x1400000) ∧
    (PagesMapped k.mem k.bootKernPgtable KERNEL_DIRECT_MAPPING_AREA k.mm.returned ↔
      image.size.toNat + 4096 * (1 + bootDemand image) ≤ 0xa00000) := by
  obtain ⟨hstart, hinit, -⟩ := h.bringUp_inv hrun
  have hok := (enough_iff h.placed (bootMmDetect_toNat hcmos dev) hinit).mpr hroom
  exact ⟨pagesMapped_iff h.placed hinit hok fun a ha => h.identity_iff hstart ha,
    pagesMapped_iff h.placed hinit hok fun a ha => direct_iff h.placed hinit hok ha⟩

end

/-- The pages of `image2` end below 3 MB, so they are mapped while they are written, and they are
in the direct mapping area later. -/
theorem bringUp_reachable_two :
    ∃ e k, bringUp (cmosBus cmos64) 0x101000 0x100000 image2 (fun _ => 0)
        MULTIBOOT2_BOOTLOADER_MAGIC 0x9500 0x102f00 newMachine = some (e, .main 0x9500 k) ∧
      PagesMapped e.mem (e.cr3.setWidth 64) 0 k.mm.returned ∧
      PagesMapped k.mem k.bootKernPgtable KERNEL_DIRECT_MAPPING_AREA k.mm.returned := by
  obtain ⟨e, m', mm, root, -, -, hrun⟩ := loaded_image2.bringUp_eq (cmosBus cmos64) 0x100000
    0x102f00 MULTIBOOT2_BOOTLOADER_MAGIC 0x9500 newMachine
  rw [if_neg (not_not.mpr rfl), if_neg (not_not.mpr (by decide))] at hrun
  obtain ⟨hwritten, hdirect⟩ := bringUp_reachable (cmosBus cmos64) cmos64 (hasCmos_cmosBus cmos64)
    0x101000 image2 (fun _ => 0) loaded_image2 0x100000 0x102f00 MULTIBOOT2_BOOTLOADER_MAGIC 0x9500
    newMachine hrun image2_room
  have hdemand := image2_demand
  have hsize : image2.size.toNat = 0x200000 := by decide
  exact ⟨e, _, hrun, hwritten.mpr (by omega), hdirect.mpr (by omega)⟩

end SumiOS
