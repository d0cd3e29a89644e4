import SumiOS.List
import SumiOS.Types

/-!
# `SumiOS.PageAlloc`: the buddy system

`include/mm/page.h` and `mm/page_alloc.c`. The page array is a function from
the index of a frame to its `struct page`; a `struct page *` is such an index,
so that pointer arithmetic can leave the array on both sides, and NULL is
`none`. The list nodes of the pages and the list heads of the kernel form one
pointer graph.

`__free_pages` asks the page table whether the `struct page` of a neighbour is
mapped. That test, `mm_pgtable_get_va_pte(kern_pgtable, p) != -1`, is the
parameter `mapped`: no function of this file writes the page table. The
`freelist_lock` and the messages to the console are left out, since one caller
runs at a time and nothing reads the messages.
-/

set_option autoImplicit false

namespace SumiOS

open Lib

/-- The list heads of the kernel: `freelist[order]` of the buddy system, and
the three heads in each `struct kmem_cache`. -/
inductive Head
  | freelist (order : Nat)
  | full (cache : Nat)
  | partialSlubs (cache : Nat)
  | list (cache : Nat)
deriving DecidableEq

/-- A `struct list_head`: one of the heads, or the node inside a page. -/
inductive Node
  | head (h : Head)
  | page (p : Int)
deriving DecidableEq

/-- `struct page`, without its list node and the unused words. `freelist` is
the member of the union that `slub_alloc` writes. -/
structure Page where
  type : BitVec 8
  isFree : Bool
  isHead : Bool
  refCount : Int
  mapCount : Int
  freelist : Word

/-- The state of the buddy system: `pages` and the nodes of all lists. -/
structure Buddy where
  links : Links Node
  pages : Int → Page

/-- `page_to_phys`. -/
def pageToPhys (p : Int) : Word := BitVec.ofInt 64 p * PAGE_SIZE

def MAX_PAGE_ORDER : Nat := 11

/-- `&freelist[order]`. -/
abbrev freelist (order : Nat) : Node := .head (.freelist order)

/-- `list_entry(ptr, struct page, list)`. Only a node of a page is ever passed:
a head that follows itself is an empty list, which the caller has excluded. -/
def listEntry : Node → Int
  | .page p => p
  | .head _ => 0

/-- `freelist_init`. -/
def freelistInit (b : Buddy) : Buddy :=
  let init := fun l i => listHeadInit l (freelist i)
  { b with links := (List.range MAX_PAGE_ORDER).foldl init b.links }

def nextPageByOrder (p : Int) (order : Nat) : Option Int :=
  if order ≥ MAX_PAGE_ORDER then none else some (p + 2 ^ order)

def prevPageByOrder (p : Int) (order : Nat) : Option Int :=
  if order ≥ MAX_PAGE_ORDER then none else some (p - 2 ^ order)

/-- The search of `__alloc_page_direct`: the first nonempty list from `alloc`
on. The counter is the number of lists left. -/
def findOrder (l : Links Node) : Nat → Nat → Option Nat
  | 0, _ => none
  | n + 1, alloc =>
      if !listEmpty l (freelist alloc) then some alloc else findOrder l n (alloc + 1)

/-- The loop that puts half pages back to buddy, for `order + n - 1` down to
`order`. -/
def putBack (p : Int) (order : Nat) : Nat → Links Node → Links Node
  | 0, l => l
  | n + 1, l =>
      match nextPageByOrder p (order + n) with
      | some half => putBack p order n (listAddNext l (freelist (order + n)) (.page half))
      | none => l

/-- `__alloc_page_direct`: take the first block of the least order that has
one, and put the halves that are not needed back. -/
def allocPageDirect (l : Links Node) (order : Nat) : Links Node × Option Int :=
  match findOrder l (MAX_PAGE_ORDER - order) order with
  | none => (l, none)
  | some alloc =>
      let p := listEntry (l.next (freelist alloc))
      let l := listDel l (.page p)
      (putBack p order (alloc - order) l, some p)

/-- The loop of `__alloc_pages` over the pages of the block. -/
def takePages (p : Int) : Nat → (Int → Page) → (Int → Page)
  | 0, pages => pages
  | n + 1, pages =>
      let pages := takePages p n pages
      Function.update pages (p + n)
        { pages (p + n) with refCount := (pages (p + n)).refCount + 1, isFree := false }

/-- `__alloc_pages`: the caller holds the lock. -/
def allocPagesLocked (b : Buddy) (order : Nat) : Buddy × Option Int :=
  if order ≥ MAX_PAGE_ORDER then (b, none)
  else
    match allocPageDirect b.links order with
    | (links, some p) => (⟨links, takePages p (2 ^ order) b.pages⟩, some p)
    -- `__reclaim_memory` is empty.
    | (links, none) => (⟨links, b.pages⟩, none)

section Free

variable (mapped : Int → Bool)

/-- The test that a neighbour must pass: its `struct page` is mapped, and it
is the head of a free block. -/
def mergeable (b : Buddy) (q : Int) : Bool :=
  mapped q && (b.pages q).isFree && (b.pages q).isHead

/-- `q->is_head = v`. -/
def setHead (b : Buddy) (q : Int) (v : Bool) : Buddy :=
  { b with pages := Function.update b.pages q { b.pages q with isHead := v } }

/-- `q->is_free = v`. -/
def setFree (b : Buddy) (q : Int) (v : Bool) : Buddy :=
  { b with pages := Function.update b.pages q { b.pages q with isFree := v } }

/-- `list_del(&q->list)`. -/
def delPage (b : Buddy) (q : Int) : Buddy := { b with links := listDel b.links (.page q) }

/-- The merge with the block behind: its head becomes an inner page. -/
def mergeNext (b : Buddy) (next : Int) : Buddy := setHead (delPage b next) next false

/-- The merge with the block in front: `p` becomes an inner page of it. -/
def mergePrev (b : Buddy) (p prev : Int) : Buddy :=
  setFree (setHead (delPage b prev) p false) p true

/-- The loop of `__free_pages` that combines nearby pages. The counter is
`MAX_PAGE_ORDER - 1 - order`, the number of times it can still go round. -/
def combine : Nat → Buddy → Int → Nat → Buddy × Int × Nat
  | 0, b, p, order => (b, p, order)
  | n + 1, b, p, order =>
      match (nextPageByOrder p order).filter (mergeable mapped b) with
      | some next => combine n (mergeNext b next) p (order + 1)
      | none =>
          match (prevPageByOrder p order).filter (mergeable mapped b) with
          | some prev => combine n (mergePrev b p prev) prev (order + 1)
          | none => (b, p, order)

/-- The end of `__free_pages`: link the block in, and mark its head. -/
def putFree (b : Buddy) (p : Int) (order : Nat) : Buddy where
  links := listAddNext b.links (freelist order) (.page p)
  pages := Function.update b.pages p
    { b.pages p with refCount := -1, mapCount := -1, isFree := true, isHead := true }

/-- `__free_pages`: the caller holds the lock. -/
def freePagesLocked (b : Buddy) (p : Option Int) (order : Nat) : Buddy :=
  match p with
  | none => b
  | some p =>
      if order ≥ MAX_PAGE_ORDER then b
      else
        let (b, p, order) := combine mapped (MAX_PAGE_ORDER - 1 - order) b p order
        putFree b p order

def allocPages (b : Buddy) (order : Nat) : Buddy × Option Int := allocPagesLocked b order

def freePages (b : Buddy) (p : Option Int) (order : Nat) : Buddy := freePagesLocked mapped b p order

end Free

/-- The loop of `mm_phys_alloc` that expands the size to a page order. The
shift count is taken modulo 64, so the bound repeats after 64 rounds: `none`
says that the loop does not end. -/
def expandOrder (sz : Word) : Nat → Nat → Option Nat
  | 0, _ => none
  | n + 1, order =>
      if sz > PAGE_SIZE <<< (order % 64) then expandOrder sz n (order + 1) else some order

/-- `mm_phys_alloc`: the physical address of a block for `sz` bytes, and `-1`
when there is none. -/
def mmPhysAlloc (b : Buddy) (sz : Word) : Option (Buddy × Word) :=
  (expandOrder sz 64 0).map fun order =>
    match allocPages b order with
    | (b, none) => (b, -1)
    | (b, some p) => (b, pageToPhys p)

/-- `mm_alloc`: the address of the block in the direct mapping, NULL when there
is none. -/
def mmAlloc (b : Buddy) (sz : Word) : Option (Buddy × Word) :=
  (mmPhysAlloc b sz).map fun (b, physm) =>
    if physm = -1 then (b, 0) else (b, physToKernelDirectMappingAddr physm)

end SumiOS
