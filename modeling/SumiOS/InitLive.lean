import SumiOS.Kernel

/-!
# `SumiOS.InitLive`: `mm_init` in the memory that it writes to

`SumiOS.Multiboot` reads the information of the boot loader from a memory that stays as it is.
The code has one memory. Each round of a loop reads the size of the tag again, each round
over the frames of an entry reads the entry again, and in between the tables are written.
Here the loops read what is in physical memory at that moment: `mbi` is an address behind
root entry 0, which maps low memory to itself until the end.
-/

set_option autoImplicit false

namespace SumiOS

open Lib

/-- Physical memory, from what is seen in the direct mapping area. -/
def physMem (m : Mem) : Mem := fun x => m (physToKernelDirectMappingAddr x)

/-! ### The bodies of the loops

They get the addresses of the entry and of the frame. -/

/-- The loop that maps the direct mapping area. -/
def mapDirectLive (kernPgtable : Word) (st : InitState) (_mmapEntry pa : Word) : InitState :=
  mapDirect kernPgtable st pa

/-- The loop over the page structs. It reads `mmap_entry->type` when the struct has its space. -/
def initFrameLive (kernPgtable : Word) (st : InitState) (mmapEntry start : Word) : InitState :=
  let st := backPage kernPgtable st (pageVa (frameIdx start))
  { st with
    buddy := initPage st.buddy (pageOf start) (readMmapEntry (physMem st.mem) mmapEntry).type }

/-- The loop that frees the frames. -/
def freeFrameLive (kernPgtable : Word) (st : InitState) (mmapEntry start : Word) : InitState :=
  { st with
    buddy := freeFrame st.mem kernPgtable st.la.mmAllocEnd st.buddy
      (readMmapEntry (physMem st.mem) mmapEntry, start) }

/-! ### The loops -/

section

variable (body : InitState → Word → Word → InitState)

/-- The loop over the frames of an entry, from `pa` on. `none` says that it does not end in so
many rounds. -/
def frameLoopLive (mmapEntry : Word) : Nat → Word → InitState → Option InitState
  | 0, _, _ => none
  | n + 1, pa, st =>
      let e := readMmapEntry (physMem st.mem) mmapEntry
      if pa < e.addr + e.len then
        frameLoopLive mmapEntry n (pa + PAGE_SIZE) (body st mmapEntry pa)
      else some st

/-- The loop over the entries. -/
def entryLoopLive (mmapInfo : Word) : Nat → Word → InitState → Option InitState
  | 0, _, _ => none
  | n + 1, i, st =>
      if i < (readTag (physMem st.mem) mmapInfo).size.setWidth 64 then
        let mmapEntry := mmapInfo + i
        let pa := (readMmapEntry (physMem st.mem) mmapEntry).addr
        match frameLoopLive body mmapEntry (2 ^ 52 + 1) pa st with
        | none => none
        | some st => entryLoopLive mmapInfo n (i + BitVec.ofNat 64 MMAP_ENTRY_SIZE) st
      else some st

end

/-- `mm_pages_allocator_init`, from the loops over the entries of the memory map on. -/
def initFromTagLive (mmapInfo bootMemAllocStart kernPgtable : Word) (fuel : Nat) (mem : Mem)
    (b : Buddy) : Option InitState := do
  -- The area loop writes to the arrays of the linear allocator only.
  let (la, _) ← areaLoop (physMem mem) mmapInfo bootMemAllocStart fuel (BitVec.ofNat 32 TAG_MMAP_SIZE)
    LinearAlloc.static
  let first := BitVec.ofNat 64 TAG_MMAP_SIZE
  let st ← entryLoopLive (mapDirectLive kernPgtable) mmapInfo fuel first ⟨mem, la, b⟩
  let st ← entryLoopLive (initFrameLive kernPgtable) mmapInfo fuel first st
  let st := { st with buddy := freelistInit st.buddy }
  let st ← entryLoopLive (freeFrameLive kernPgtable) mmapInfo fuel first st
  -- Unmap the old physical part.
  return { st with mem := st.mem.write64 (entryAddr KERNEL_DIRECT_MAPPING_AREA kernPgtable 0) 0 }

/-- `mm_init`. The counters bound the rounds of the walk over the tags and of the loops over
the entries. -/
def mmInitLive (mbi bootMemAllocStart kernPgtable : Word) (tags rounds : Nat) (s : Kmem) :
    Option (LinearAlloc × Kmem) := do
  let w ← tagLoop (physMem s.mem) tags (TagWalk.start mbi)
  if w.mmapInfo = 0 then none
  else
    let st ← initFromTagLive w.mmapInfo bootMemAllocStart kernPgtable rounds s.mem s.buddy
    return (st.la, kmemCacheInit { s with buddy := st.buddy, mem := st.mem })

end SumiOS
