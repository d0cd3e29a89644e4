import SumiOS.PageAlloc
import SumiOS.Lib.ByteMem

/-!
# `SumiOS.Slub`: the allocator of kernel objects

`include/mm/slub.h` and `mm/slub.c`. Each of the ten caches takes a block from the
buddy system, cuts it into objects of one size and hands these out. The objects
that are not handed out form a list, and its links are stored in the objects
themselves. `mem` is memory at the virtual addresses of the direct mapping area.

The list heads of the caches are nodes of the pointer graph of the buddy system. The
locks are left out, since one caller runs at a time. `kfree` is empty, and a cache
is never NULL here.
-/

set_option autoImplicit false

namespace SumiOS

open Lib

/-! ### `mm/slub.h` -/

def KMALLOC_MAX_SHIFT : Nat := 1
def KMALLOC_MAX_CACHE_SIZE : Word := PAGE_SIZE <<< KMALLOC_MAX_SHIFT
def NR_KOBJECT_SIZE_TYPE : Nat := 10

/-- `struct kmem_cache`, without its lock and its list heads. -/
structure KmemCache where
  objSize : Word
  slub : Option Int
  freelist : Word

/-- What the functions of this file change. `slubs` is not in the source: it lists the
caches and their blocks so far, the latest first, and no code reads it. -/
structure Kmem where
  buddy : Buddy
  mem : Mem
  kmemCacheList : Nat → KmemCache
  slubs : List (Nat × Int)

/-- `&kc->full`. -/
abbrev full (i : Nat) : Node := .head (.full i)

/-- `&kc->partial`. -/
abbrev partialSlubs (i : Nat) : Node := .head (.partialSlubs i)

/-- `&kc->list`. -/
abbrev kmemList (i : Nat) : Node := .head (.list i)

/-! ### `mm/slub.c` -/

/-- `*kc = …`. -/
def setCache (s : Kmem) (i : Nat) (kc : KmemCache) : Kmem :=
  { s with kmemCacheList := Function.update s.kmemCacheList i kc }

/-- The loop of `slub_alloc` that trims pages into chunks, and the write behind it. The
counter bounds the rounds: `none` says that the loop does not end, or that `next_obj`
is written to before it is set. -/
def trimChunks (slubAddr objSize allocSize : Word) :
    Nat → Word → Option Word → Mem → Option Mem
  | 0, _, _, _ => none
  | n + 1, va, nextObj, m =>
      if va < allocSize then
        let nextObj := slubAddr + va
        let objPtr := nextObj - objSize
        trimChunks slubAddr objSize allocSize n (va + objSize) (some nextObj)
          (m.write64 objPtr nextObj)
      else nextObj.map fun nextObj => m.write64 nextObj 0

/-- `slub_alloc`. -/
def slubAlloc (s : Kmem) (i : Nat) : Option (Kmem × Option Int) :=
  let kc := s.kmemCacheList i
  let allocSize := PAGE_SIZE <<< (kc.objSize >>> PAGE_SHIFT)
  match allocPages s.buddy (kc.objSize >>> PAGE_SHIFT).toNat with
  | (b, none) => some ({ s with buddy := b }, none)
  | (b, some p) =>
      let slubAddr := physToKernelDirectMappingAddr (pageToPhys p)
      let pages := Function.update b.pages p { b.pages p with freelist := slubAddr }
      (trimChunks slubAddr kc.objSize allocSize allocSize.toNat kc.objSize none s.mem).map fun m =>
        ({ s with buddy := { b with pages := pages }, mem := m, slubs := (i, p) :: s.slubs }, some p)

/-- The loop of `kmem_cache_init`, for one cache. -/
def initCache (r : Kmem × Word) (i : Nat) : Kmem × Word :=
  let (s, origSz) := r
  let links := listHeadInit s.buddy.links (partialSlubs i)
  let links := listHeadInit links (full i)
  let links := listHeadInit links (kmemList i)
  (setCache { s with buddy := { s.buddy with links := links } } i ⟨origSz, none, 0⟩, origSz * 2)

/-- `kmem_cache_init`. No cache has taken a block. -/
def kmemCacheInit (s : Kmem) : Kmem :=
  ((List.range NR_KOBJECT_SIZE_TYPE).foldl initCache ({ s with slubs := [] }, 16)).1

/-- `slub_index`, `-1` being `none`. -/
def slubIndex (sz : Word) : Option Nat :=
  if sz ≤ 16 then some 0
  else if sz ≤ 32 then some 1
  else if sz ≤ 64 then some 2
  else if sz ≤ 128 then some 3
  else if sz ≤ 256 then some 4
  else if sz ≤ 512 then some 5
  else if sz ≤ 1024 then some 6
  else if sz ≤ 2048 then some 7
  else if sz ≤ 4096 then some 8
  else if sz ≤ 8192 then some 9
  else none

/-- `kmem_cache_alloc`. The counter bounds the rounds of `redo`; `none` says that they
do not end. -/
def kmemCacheAlloc (i : Nat) : Nat → Kmem → Option (Kmem × Word)
  | 0, _ => none
  | n + 1, s =>
      let kc := s.kmemCacheList i
      if kc.freelist ≠ 0 then
        -- We have objects on the kmem_cache now, just allocate one.
        let obj := kc.freelist
        some (setCache s i { kc with freelist := s.mem.read64 obj }, obj)
      else
        -- No object on freelist, put the slub page on the full list.
        let links :=
          match kc.slub with
          | some slub => listAddNext s.buddy.links (full i) (.page slub)
          | none => s.buddy.links
        let s := { s with buddy := { s.buddy with links := links } }
        if !listEmpty links (partialSlubs i) then
          let slub := listEntry (links.next (partialSlubs i))
          let s := setCache s i { kc with slub := some slub, freelist := (s.buddy.pages slub).freelist }
          kmemCacheAlloc i n { s with buddy := { s.buddy with links := listDel links (.page slub) } }
        else
          match slubAlloc (setCache s i { kc with slub := none }) i with
          | none => none
          | some (s, none) => some (s, 0)
          | some (s, some slub) =>
              kmemCacheAlloc i n (setCache s i
                { s.kmemCacheList i with slub := some slub, freelist := (s.buddy.pages slub).freelist })

/-- The rounds of `redo` that are enough, see `SlubInv.kmalloc`. -/
def redoBound : Nat := 3

/-- `kmalloc`. `__kmalloc_large` is not complete yet and returns NULL. `none` says that
`kmem_cache_alloc` does not end, or that the result is not set. -/
def kmalloc (s : Kmem) (sz : Word) : Option (Kmem × Word) :=
  if sz > KMALLOC_MAX_CACHE_SIZE then some (s, 0)
  else
    match slubIndex sz with
    | none => none
    | some i => kmemCacheAlloc i redoBound s

end SumiOS
