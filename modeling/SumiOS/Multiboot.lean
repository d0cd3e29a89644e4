import SumiOS.MmInit

/-!
# `SumiOS.Multiboot`: the multiboot information

The part of `mm_pages_allocator_init` that reads what the boot loader left in memory:
the walk over the tags, and the four loops over the entries of the memory map. The
structs are from `include/boot/multiboot2.h`.

The information is read from a memory `m` that stays as it is. What becomes of the
information while the tables are built is a question of where it lies, and not of how
it is read.
-/

set_option autoImplicit false

namespace SumiOS

open Lib

/-! ### `boot/multiboot2.h` -/

def MULTIBOOT_TAG_TYPE_END : BitVec 32 := 0
def MULTIBOOT_TAG_TYPE_MMAP : BitVec 32 := 6

/-- `struct multiboot_tag`. -/
structure MultibootTag where
  type : BitVec 32
  size : BitVec 32

def readTag (m : Mem) (tags : Word) : MultibootTag := ⟨m.read32 tags, m.read32 (tags + 4)⟩

/-- `struct multiboot_tag_mmap`, up to its entries. -/
structure MultibootTagMmap extends MultibootTag where
  entrySize : BitVec 32
  entryVersion : BitVec 32

def readTagMmap (m : Mem) (tags : Word) : MultibootTagMmap where
  toMultibootTag := readTag m tags
  entrySize := m.read32 (tags + 8)
  entryVersion := m.read32 (tags + 12)

/-- `*mmap_entry`. -/
def readMmapEntry (m : Mem) (mmapEntry : Word) : MmapEntry :=
  ⟨m.read64 mmapEntry, m.read64 (mmapEntry + 8), m.read32 (mmapEntry + 16)⟩

/-- `sizeof(struct multiboot_tag_mmap)`. -/
def TAG_MMAP_SIZE : Nat := 16

/-- `sizeof(struct multiboot_mmap_entry)`. -/
def MMAP_ENTRY_SIZE : Nat := 24

/-! ### The walk over the tags -/

/-- The variables of the walk. `reads` is not in the source: it lists the addresses of
the fields of tags that were read so far, the latest first. -/
structure TagWalk where
  tags : Word
  mmapInfo : Word
  reads : List Word

/-- `(tags->size + 7) & ~7`, in 32 bits. -/
def tagStride (m : Mem) (tags : Word) : BitVec 32 := ((readTag m tags).size + 7) &&& ~~~7

/-- The loop over the tags. `none` says that it does not end in so many rounds. -/
def tagLoop (m : Mem) : Nat → TagWalk → Option TagWalk
  | 0, _ => none
  | n + 1, w =>
      let w := { w with reads := w.tags :: w.reads }
      if (readTag m w.tags).type = MULTIBOOT_TAG_TYPE_END then some w
      else
        let w :=
          if (readTag m w.tags).type = MULTIBOOT_TAG_TYPE_MMAP then { w with mmapInfo := w.tags }
          else w
        if w.mmapInfo ≠ 0 then some w
        else
          let tags := w.tags + (tagStride m w.tags).setWidth 64
          tagLoop m n { w with tags := tags, reads := (w.tags + 4) :: w.reads }

/-- Before the walk: the tags are behind the two fields of the information block. -/
def TagWalk.start (mbi : Word) : TagWalk := ⟨mbi + 8, 0, []⟩

/-! ### The entries of the memory map -/

/-- The loop that analyzes the valid memory areas, with the addresses of the entries
that it visited. Its counter is an `int`: it is compared with the size as an unsigned
number and extended with its sign for the address. -/
def areaLoop (m : Mem) (mmapInfo bootMemAllocStart : Word) :
    Nat → BitVec 32 → LinearAlloc → Option (LinearAlloc × List Word)
  | 0, _, _ => none
  | n + 1, i, la =>
      if i < (readTag m mmapInfo).size then
        let mmapEntry := mmapInfo + i.signExtend 64
        match scanEntry bootMemAllocStart la (readMmapEntry m mmapEntry) with
        | none => none
        | some la =>
            (areaLoop m mmapInfo bootMemAllocStart n (i + BitVec.ofNat 32 MMAP_ENTRY_SIZE) la).map
              fun r => (r.1, mmapEntry :: r.2)
      else some (la, [])

/-- The other loops over the entries, with the addresses of the entries that they
visited. The counter is a `phys_addr_t`, and the loops differ in their bodies. -/
def entryLoop {σ : Type} (body : σ → MmapEntry → Option σ) (m : Mem) (mmapInfo : Word) :
    Nat → Word → σ → Option (σ × List Word)
  | 0, _, _ => none
  | n + 1, i, st =>
      if i < (readTag m mmapInfo).size.setWidth 64 then
        let mmapEntry := mmapInfo + i
        match body st (readMmapEntry m mmapEntry) with
        | none => none
        | some st =>
            (entryLoop body m mmapInfo n (i + BitVec.ofNat 64 MMAP_ENTRY_SIZE) st).map
              fun r => (r.1, mmapEntry :: r.2)
      else some (st, [])

/-- The body of the loop that maps the direct mapping area. -/
def mapEntry (kernPgtable : Word) (st : InitState) (e : MmapEntry) : Option InitState :=
  (frameVisits e).map fun frames => frames.foldl (mapDirect kernPgtable) st

/-- The body of the loop that allocates and initializes the page structs. -/
def initEntry (kernPgtable : Word) (st : InitState) (e : MmapEntry) : Option InitState :=
  (frameVisits e).map fun frames => frames.foldl (fun st start => initFrame kernPgtable st (e, start)) st

/-- The body of the loop that frees the frames. -/
def freeEntry (mem : Mem) (kernPgtable mmAllocEnd : Word) (b : Buddy) (e : MmapEntry) :
    Option Buddy :=
  (frameVisits e).map fun frames =>
    frames.foldl (fun b start => freeFrame mem kernPgtable mmAllocEnd b (e, start)) b

/-- `mm_pages_allocator_init`, from the loops over the entries of the memory map on. `none`
says that it leaves the bounds of an array or does not end in so many rounds. -/
def initFromTag (m : Mem) (mmapInfo bootMemAllocStart kernPgtable : Word) (fuel : Nat) (mem : Mem)
    (b : Buddy) : Option InitState := do
  let (la, _) ← areaLoop m mmapInfo bootMemAllocStart fuel (BitVec.ofNat 32 TAG_MMAP_SIZE)
    LinearAlloc.static
  let first := BitVec.ofNat 64 TAG_MMAP_SIZE
  let (st, _) ← entryLoop (mapEntry kernPgtable) m mmapInfo fuel first ⟨mem, la, b⟩
  let (st, _) ← entryLoop (initEntry kernPgtable) m mmapInfo fuel first st
  let st := { st with buddy := freelistInit st.buddy }
  let (buddy, _) ← entryLoop (freeEntry st.mem kernPgtable st.la.mmAllocEnd) m mmapInfo fuel first
    st.buddy
  -- Unmap the old physical part.
  let mem := st.mem.write64 (entryAddr KERNEL_DIRECT_MAPPING_AREA kernPgtable 0) 0
  return { st with mem := mem, buddy := buddy }

end SumiOS
