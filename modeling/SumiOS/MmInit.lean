import SumiOS.PageTable

/-!
# `SumiOS.MmInit`: the initialization of the memory management

`mm/mm_init.c`, from the memory map on: the linear allocator, the mapping of
single pages with it, and `mm_pages_allocator_init`, which builds the direct
mapping and the page array and hands the frames to the buddy system.

The search for the tag of the memory map and the loops over its entries are in
`SumiOS.Multiboot`. Here the entries of the map are an argument, in the order of the
tag.

`mem` is memory at the virtual addresses of the direct mapping area; the structs
of the page array are `pages` in the state of the buddy system.
-/

set_option autoImplicit false

namespace SumiOS

open Lib

/-! ### The linear allocator -/

def PHYS_MM_SEGS_NUM_MAX : Nat := 0x20

/-- `struct phys_mm_area`. -/
structure PhysMmArea where
  start : Word
  stop : Word

/-- The static variables of the linear allocator. `returned` is not in the
source: it lists the results so far, the latest first, and no code reads it. -/
structure LinearAlloc where
  mmAllocStart : Word
  mmAllocEnd : Word
  physMmAreaArr : Nat → PhysMmArea
  physMmAreaNum : Nat
  physMmAreaIdx : Nat
  returned : List Word

/-- The static variables before the first call. -/
def LinearAlloc.static : LinearAlloc where
  mmAllocStart := -1
  mmAllocEnd := 0
  physMmAreaArr := fun _ => ⟨0, 0⟩
  physMmAreaNum := 0
  physMmAreaIdx := 0
  returned := []

/-- The loop that moves to the next area: the first one, from the index on, that
starts at or behind the end of the current one. The counter is the number of
areas left. -/
def slideArea (la : LinearAlloc) : Nat → LinearAlloc
  | 0 => la
  | n + 1 =>
      let area := la.physMmAreaArr la.physMmAreaIdx
      if area.start ≥ la.mmAllocEnd then
        { la with mmAllocStart := area.start, mmAllocEnd := area.stop }
      else slideArea { la with physMmAreaIdx := la.physMmAreaIdx + 1 } n

/-- `mm_init_phys_alloc_linear`, without the record of its results. -/
def allocLinear (la : LinearAlloc) (sz : Word) : LinearAlloc × Word :=
  if sz = 0 then (la, 0)
  else
    let sz := align sz PAGE_SIZE
    if sz + la.mmAllocStart > la.mmAllocEnd then (la, 0)
    else
      let chunk := la.mmAllocStart
      let la := { la with mmAllocStart := la.mmAllocStart + sz }
      -- We have run out of the current area, slide to the next one.
      if la.mmAllocStart ≥ la.mmAllocEnd then
        let la := slideArea la (la.physMmAreaNum - la.physMmAreaIdx)
        if la.physMmAreaIdx = la.physMmAreaNum then (la, 0) else (la, chunk)
      else (la, chunk)

/-- `mm_init_phys_alloc_linear`. -/
def mmInitPhysAllocLinear (la : LinearAlloc) (sz : Word) : LinearAlloc × Word :=
  let (la, chunk) := allocLinear la sz
  ({ la with returned := chunk :: la.returned }, chunk)

/-! ### Mapping with the linear allocator -/

def mmInitPgtableGetPa (m : Mem) (pgtable va : Word) : Word :=
  pgtableGetPa KERNEL_DIRECT_MAPPING_AREA m pgtable va

def mmInitPgtableMap (m : Mem) (la : LinearAlloc) (pgtable va pa attr : Word) :
    Mem × LinearAlloc :=
  pgtableMap KERNEL_DIRECT_MAPPING_AREA (fun la => mmInitPhysAllocLinear la PAGE_SIZE) m la
    pgtable va pa attr

/-! ### `mm_pages_allocator_init` -/

def MULTIBOOT_MEMORY_AVAILABLE : BitVec 32 := 1

/-- `struct multiboot_mmap_entry`. -/
structure MmapEntry where
  addr : Word
  len : Word
  type : BitVec 32
deriving DecidableEq

/-- What `mm_pages_allocator_init` changes. -/
structure InitState where
  mem : Mem
  la : LinearAlloc
  buddy : Buddy

/-- The loop that analyzes the valid memory areas, for one entry. It does not
check the size of the array: `none` stands for a write behind it. -/
def scanEntry (bootMemAllocStart : Word) (la : LinearAlloc) (e : MmapEntry) :
    Option LinearAlloc :=
  if e.type = MULTIBOOT_MEMORY_AVAILABLE then
    if la.physMmAreaNum ≥ PHYS_MM_SEGS_NUM_MAX then none
    else
      let area : PhysMmArea := ⟨e.addr, e.addr + e.len⟩
      let la := { la with
        physMmAreaArr := Function.update la.physMmAreaArr la.physMmAreaNum area }
      let la :=
        if bootMemAllocStart ≥ area.start ∧ bootMemAllocStart < area.stop then
          { la with mmAllocStart := bootMemAllocStart, mmAllocEnd := area.stop }
        else la
      some { la with physMmAreaNum := la.physMmAreaNum + 1 }
  else some la

/-- The values of the counter of a frame loop, which goes from `pa` to below
`stop` in steps of a page and may wrap around. `none` says that the loop does
not end: there are `2 ^ 52` values a counter can take. -/
def framesFrom (stop : Word) : Nat → Word → Option (List Word)
  | 0, _ => none
  | n + 1, pa =>
      if pa < stop then (framesFrom stop n (pa + PAGE_SIZE)).map (pa :: ·) else some []

/-- The frames that each of the three frame loops visits in an entry. -/
def frameVisits (e : MmapEntry) : Option (List Word) :=
  framesFrom (e.addr + e.len) (2 ^ 52 + 1) e.addr

/-- The frames of all entries, with their entries. -/
def allVisits : List MmapEntry → Option (List (MmapEntry × Word))
  | [] => some []
  | e :: es =>
      match frameVisits e, allVisits es with
      | some frames, some rest => some (frames.map (e, ·) ++ rest)
      | _, _ => none

/-- `start / PAGE_SIZE`. -/
def frameIdx (start : Word) : Word := start / PAGE_SIZE

/-- The address of `pages[idx]`. A `struct page` has 64 bytes. -/
def pageVa (idx : Word) : Word := KERNEL_PAGE_ARRAY + idx * 64

/-- `&pages[start / PAGE_SIZE]` as an index into the page array. -/
def pageOf (start : Word) : Int := (frameIdx start).toNat

/-- The loop that maps the direct mapping area, for one frame. -/
def mapDirect (kernPgtable : Word) (st : InitState) (pa : Word) : InitState :=
  let r := mmInitPgtableMap st.mem st.la kernPgtable (physToKernelDirectMappingAddr pa) pa
    (PAGE_ATTR_RW ||| PAGE_ATTR_P)
  { st with mem := r.1, la := r.2 }

/-- Allocate space for the page structs around `pages[idx]`, unless there is some. -/
def backPage (kernPgtable : Word) (st : InitState) (p : Word) : InitState :=
  if mmInitPgtableGetPa st.mem kernPgtable p = -1 then
    let s := mmInitPhysAllocLinear st.la PAGE_SIZE
    let r := mmInitPgtableMap st.mem s.1 kernPgtable p s.2 (PAGE_ATTR_P ||| PAGE_ATTR_RW)
    { st with mem := r.1, la := r.2 }
  else st

/-- The initialization of one page struct. Structs are apart from `mem` here, and from each other.
In the source this is so as long as no allocation of the loop has returned NULL: from then on
the structs without a page of their own are all in frame 0, which may be a table as well. -/
def initPage (b : Buddy) (p : Int) (type : BitVec 32) : Buddy where
  links := listHeadInit b.links (.page p)
  pages := Function.update b.pages p
    { b.pages p with refCount := 0, type := type.setWidth 8, isFree := false }

/-- The loop that allocates and initializes the page structs, for one frame. -/
def initFrame (kernPgtable : Word) (st : InitState) (v : MmapEntry × Word) : InitState :=
  let st := backPage kernPgtable st (pageVa (frameIdx v.2))
  { st with buddy := initPage st.buddy (pageOf v.2) v.1.type }

/-- `mm_pgtable_get_va_pte(kern_pgtable, q) != -1`, for a page of the array. -/
def pageMapped (mem : Mem) (kernPgtable : Word) (q : Int) : Bool :=
  mmPgtableGetVaPte mem kernPgtable (pageVa (BitVec.ofInt 64 q)) != -1

/-- The loop that frees the frames of the available entries, for one frame. -/
def freeFrame (mem : Mem) (kernPgtable mmAllocEnd : Word) (b : Buddy) (v : MmapEntry × Word) :
    Buddy :=
  if v.2 ≥ mmAllocEnd ∧ v.1.type = MULTIBOOT_MEMORY_AVAILABLE then
    freePages (pageMapped mem kernPgtable) b (some (pageOf v.2)) 0
  else b

/-- `mm_pages_allocator_init`, up to the loop that frees the frames: the areas,
the direct mapping, the page structs and the empty free lists. -/
def beforeFree (bootMemAllocStart kernPgtable : Word) (entries : List MmapEntry)
    (visits : List (MmapEntry × Word)) (mem : Mem) (b : Buddy) : Option InitState :=
  (entries.foldlM (scanEntry bootMemAllocStart) LinearAlloc.static).map fun la =>
    let st := visits.foldl (fun st v => mapDirect kernPgtable st v.2) ⟨mem, la, b⟩
    let st := visits.foldl (initFrame kernPgtable) st
    { st with buddy := freelistInit st.buddy }

/-- `mm_pages_allocator_init` on the entries of the memory map. `none` says that
it leaves the bounds of an array or does not end. -/
def mmPagesAllocatorInit (bootMemAllocStart kernPgtable : Word) (entries : List MmapEntry)
    (mem : Mem) (b : Buddy) : Option InitState :=
  match allVisits entries with
  | none => none
  | some visits =>
      (beforeFree bootMemAllocStart kernPgtable entries visits mem b).map fun st =>
        let buddy := visits.foldl (freeFrame st.mem kernPgtable st.la.mmAllocEnd) st.buddy
        -- Unmap the old physical part.
        let mem := st.mem.write64 (entryAddr KERNEL_DIRECT_MAPPING_AREA kernPgtable 0) 0
        { st with mem := mem, buddy := buddy }

end SumiOS
