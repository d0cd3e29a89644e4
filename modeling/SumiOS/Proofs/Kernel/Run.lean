import SumiOS.Proofs.Kernel.Frames
import SumiOS.Proofs.Kernel.Loops
import SumiOS.Proofs.Kernel.Separation
import SumiOS.Proofs.PageTable.Exhausted

/-!
# `SumiOS.Proofs.Kernel.Run`: allocators and page table together

After `mm_init`, the buddy system has three users: the clients that take blocks, the caches of
`kmalloc`, and `mm_pgtable_map`, which takes a page for each table that it links. They all
write to the memory that they were given. `Kernel.step` is what one of them does, in any
order.

A table that was linked counts as a block that somebody holds (`Kernel.ghost`), so the pool
of `SumiOS.Proofs.Slub.Objects` has all users, and `Kernel.Inv` is about that pool and the tree
of tables. Each step keeps it (`Kernel.Inv.client`, `Kernel.Inv.map`), as long as no page
for a table is missing.
-/

set_option autoImplicit false

namespace SumiOS

open Lib

/-! ### Steps of the kernel -/

/-- A client does something, or a page is mapped in the page table of the kernel. -/
inductive KernelOp
  | client (op : ClientOp)
  | map (c : MapCall)

/-- The allocators, the pages that `mm_phys_alloc` returned for tables, the latest first, and
the calls of `mm_pgtable_map` so far, the latest last. -/
structure Kernel where
  heap : Heap
  tables : List Word
  maps : List MapCall

/-- The root entries of the areas that the kernel itself uses: the page array, the direct
mapping area and the image. -/
def ownEntry (i : Word) : Bool := areaEntry i || i == 511

/-- `mm_pgtable_map`, with a record of the pages that it is given. -/
def Kernel.mapPage (kernPgtable : Word) (k : Kernel) (c : MapCall) : Kernel :=
  let r := pgtableMap KERNEL_DIRECT_MAPPING_AREA (logged mmPhysAllocPage) k.heap.kmem.mem
    (k.heap.kmem.buddy, k.tables) kernPgtable c.va c.pa c.attr
  { heap := { k.heap with kmem := { k.heap.kmem with mem := r.1, buddy := r.2.1 } }
    tables := r.2.2
    maps := k.maps ++ [c] }

/-- A step. Clients write to what they hold, and pages are mapped outside of the areas of the
kernel: `mem` is memory at the addresses of the direct mapping area. -/
def Kernel.step (kernPgtable : Word) (k : Kernel) : KernelOp → Option Kernel
  | .client op => (k.heap.step op).map fun h => { k with heap := h }
  | .map c =>
      if c.Valid ∧ ownEntry (pgdEntry c.va) = false then some (k.mapPage kernPgtable c) else none

/-- The calls of `mm_pgtable_map` in a run. -/
def mapsOf (ops : List KernelOp) : List MapCall :=
  ops.filterMap fun
    | .client _ => none
    | .map c => some c

/-- The record of the pages changes nothing about the call: memory and buddy system are those of
`mm_pgtable_map`. -/
theorem Kernel.mapPage_same (kernPgtable : Word) (k : Kernel) (c : MapCall) :
    ((k.mapPage kernPgtable c).heap.kmem.mem, (k.mapPage kernPgtable c).heap.kmem.buddy)
      = mmPgtableMap k.heap.kmem.mem k.heap.kmem.buddy kernPgtable c.va c.pa c.attr := by
  have hlogged := pgtableMap_logged KERNEL_DIRECT_MAPPING_AREA mmPhysAllocPage k.heap.kmem.mem
    (k.heap.kmem.buddy, k.tables) kernPgtable c.va c.pa c.attr
  exact Prod.ext hlogged.1 hlogged.2

/-- The effect of mapping a page in terms of the logged mapper: memory, buddy system and record of
tables come from its result. -/
theorem Kernel.mapPage_eq {kernPgtable : Word} {k : Kernel} {c : MapCall} {r : Mem × Buddy × List Word}
    (hr : pgtableMap KERNEL_DIRECT_MAPPING_AREA (logged mmPhysAllocPage) k.heap.kmem.mem
      (k.heap.kmem.buddy, k.tables) kernPgtable c.va c.pa c.attr = r) :
    k.mapPage kernPgtable c = ⟨{ k.heap with kmem := { k.heap.kmem with mem := r.1, buddy := r.2.1 } },
      r.2.2, k.maps ++ [c]⟩ := by
  rw [Kernel.mapPage, hr]

/-! ### Tables as blocks -/

/-- The block of a table. -/
def tableBlock (q : Word) : Block := ⟨pageOf q, 0⟩

/-- A table, as a block that was handed out. -/
def tableAnswer (q : Word) : Answer := .block 0 (some (pageOf q))

/-- The clients, and `mm_pgtable_map` as one more of them. -/
def Kernel.ghost (k : Kernel) : Heap := ⟨k.heap.kmem, k.heap.answers ++ k.tables.map tableAnswer⟩

/-- The blocks that clients hold, the tables, and the blocks of the caches. -/
def Kernel.blocks (k : Kernel) : List Block :=
  heldBlocks k.heap.answers ++ k.tables.map tableBlock ++
    k.heap.kmem.slubs.map fun q => slubBlock q.1 q.2

section Blocks

variable {ram : Set Int} {base : Word → Prop} {s : Kmem} {as : List Answer} {tables : List Word}
  {P : Pool} {a : Answer} {r : Region} {q x : Word} {c : Block} {p : Int}

/-- The pages that were given to `mm_pgtable_map` count as blocks that one more client holds. -/
theorem heldBlocks_append (as : List Answer) (tables : List Word) :
    heldBlocks (as ++ tables.map tableAnswer) = heldBlocks as ++ tables.map tableBlock := by
  have htables : heldBlocks (tables.map tableAnswer) = tables.map tableBlock := by
    induction tables with
    | nil => rfl
    | cons q tables ih => exact congrArg (tableBlock q :: ·) ih
  rw [← htables]
  exact List.filterMap_append

/-- A table is the one frame of its block. -/
theorem mem_tableBlock : pageOf q ∈ (tableBlock q).frames := Block.start_mem (tableBlock q)

/-- What a client holds lies in blocks of the clients and of the caches. -/
theorem Heap.Simulates.held_frame (hs : Heap.Simulates ram ⟨s, as ++ tables.map tableAnswer⟩ P)
    (ha : a ∈ as) (hr : a.region s = some r) (hx : r.Holds x) :
    ∃ c ∈ P.out (heldBlocks as), frameOf x ∈ c.frames := by
  have hall : a ∈ as ++ tables.map tableAnswer := List.mem_append_left _ ha
  rcases hs.region_cases hr with ⟨c, hc, rfl⟩ | ⟨i, hi, y, hy, rfl⟩
  · have hmem : ∀ {as'}, a ∈ as' → c ∈ heldBlocks as' :=
      fun h => List.mem_filterMap.mpr ⟨a, h, hc⟩
    refine ⟨c, List.mem_append_left _ (hmem ha), frameOf_mem ?_ hx⟩
    exact hs.inv.physical c (Or.inl (List.mem_append_left _ (hmem hall)))
  · have hused : y ∈ heldObjects (as ++ tables.map tableAnswer) i :=
      List.mem_filterMap.mpr ⟨a, hall, hy⟩
    obtain ⟨p, hp, hyp⟩ := hs.inv.member i y (List.mem_append_right _ hused)
    have hphys := hs.inv.physical_slub hp
    exact ⟨slubBlock i p, Pool.mem_out_of_slubs hp,
      frameOf_mem hphys (chunk_subset_block hi hphys hyp hx)⟩

/-- Blocks of the clients and of the caches consist of frames of `ram`. -/
theorem Heap.Simulates.out_subset (hs : Heap.Simulates ram ⟨s, as ++ tables.map tableAnswer⟩ P)
    (hc : c ∈ P.out (heldBlocks as)) : c.frames ⊆ ram := by
  refine hs.inv.within c (Or.inl ?_)
  rw [heldBlocks_append]
  cases List.mem_append.mp hc with
  | inl h => exact List.mem_append_left _ (List.mem_append_left _ h)
  | inr h => exact List.mem_append_right _ h

/-- Every table that came from the page allocator lies in memory that the allocator was given. -/
theorem Heap.Simulates.table_mem (hs : Heap.Simulates ram ⟨s, as ++ tables.map tableAnswer⟩ P)
    (hq : q ∈ tables) : pageOf q ∈ ram := by
  refine hs.inv.within (tableBlock q) (Or.inl ?_) mem_tableBlock
  rw [heldBlocks_append]
  exact List.mem_append_left _ (List.mem_append_right _ (List.mem_map_of_mem hq))

/-- They are apart from the tables: no frame of a table, old or new, is in a block that a client or
a cache holds. -/
theorem Heap.Simulates.notMem_out (hs : Heap.Simulates ram ⟨s, as ++ tables.map tableAnswer⟩ P)
    (hbase : ∀ q, base q → pageOf q ∉ ram) (hq : base q ∨ q ∈ tables)
    (hc : c ∈ P.out (heldBlocks as)) : pageOf q ∉ c.frames := by
  intro hmem
  cases hq with
  | inl hq => exact hbase q hq (hs.out_subset hc hmem)
  | inr hq =>
      have hout := hs.inv.blockInv.tidy.outApart
      rw [heldBlocks_append, Pool.out, List.pairwise_append, List.pairwise_append] at hout
      obtain ⟨⟨-, -, hheld⟩, -, hslubs⟩ := hout
      have htable := List.mem_map_of_mem (f := tableBlock) hq
      have happart : (tableBlock q).Apart c := by
        cases List.mem_append.mp hc with
        | inl h => exact Block.apart_comm.mp (hheld c h _ htable)
        | inr h => exact hslubs _ (List.mem_append_right _ htable) c h
      rw [Block.apart_iff_disjoint] at happart
      exact Set.disjoint_left.mp happart mem_tableBlock hmem

/-- The pages of tables are all different, from each other and from the old tables, as the
allocator hands out no frame twice. -/
theorem Heap.Simulates.fresh (hs : Heap.Simulates ram ⟨s, as ++ tables.map tableAnswer⟩ P)
    (hbase : ∀ q, base q → pageOf q ∉ ram) (haligned : ∀ q ∈ tables, PageAligned q) :
    Fresh base tables where
  nodup := by
    have hout := hs.inv.blockInv.tidy.outApart
    rw [heldBlocks_append, Pool.out, List.pairwise_append, List.pairwise_append,
      List.pairwise_map] at hout
    obtain ⟨⟨-, htables, -⟩, -⟩ := hout
    refine htables.imp fun happart e => ?_
    subst e
    exact Block.not_apart_of_start_mem mem_tableBlock happart
  aligned := haligned
  new q hq hb := hbase q hb (hs.table_mem hq)

/-! ### Pages for tables -/

/-- The address of a frame is page-aligned, and its frame is the one that was asked for. -/
theorem pageToPhys_spec (h : 0 ≤ p) (h' : p < 2 ^ 52) :
    PageAligned (pageToPhys p) ∧ pageOf (pageToPhys p) = p := by
  have hsize : PAGE_SIZE.toNat = 4096 := rfl
  have hnat : (pageToPhys p).toNat = (4096 * p).toNat := by
    rw [pageToPhys, BitVec.toNat_mul, hsize, BitVec.toNat_ofInt]
    omega
  refine ⟨pageAligned_iff.mpr ?_, ?_⟩
  · rw [hnat]
    omega
  · rw [pageOf_eq, hnat]
    omega

/-- A call of `mm_phys_alloc` that does not fail gives the kernel one more block of one frame,
apart from everything that anybody else holds, and its address begins on a page. -/
theorem Heap.Owns.allocTable (ho : Heap.Owns ram ⟨s, as ++ tables.map tableAnswer⟩ P)
    (haligned : ∀ q ∈ tables, PageAligned q) {b : Buddy} {log : List Word} {q : Word}
    (hcall : logged mmPhysAllocPage (s.buddy, tables) = ((b, log), q)) (hok : q ≠ -1) :
    (∀ q ∈ log, PageAligned q) ∧
      Heap.Owns ram ⟨{ s with buddy := b }, as ++ log.map tableAnswer⟩ (P.take 0).1 := by
  have halloc : Heap.step ⟨s, as ++ tables.map tableAnswer⟩ (.allocPages 0) = some _ := rfl
  obtain ⟨P', hpool, hnext⟩ := ho.step halloc
  obtain ⟨rfl, -⟩ := Prod.mk.inj (Option.some.inj hpool)
  rw [logged, Prod.mk.injEq, Prod.mk.injEq] at hcall
  obtain ⟨⟨rfl, rfl⟩, rfl⟩ := hcall
  dsimp only at hnext hok ⊢
  rw [mmPhysAllocPage] at hok ⊢
  cases halloc : SumiOS.allocPages s.buddy 0 with
  | mk b p =>
      rw [halloc] at hnext hok
      cases p with
      | none => exact absurd rfl hok
      | some p =>
          dsimp only at hnext ⊢
          have hmem : (⟨p, 0⟩ : Block) ∈ heldBlocks (.block 0 (some p) ::
              (as ++ tables.map tableAnswer)) := List.mem_cons_self
          have hphys := hnext.inv.physical _ (Or.inl (List.mem_append_left _ hmem))
          have hfirst : 0 ≤ p := hphys.1
          have hlast : p + 2 ^ 0 ≤ (2 : Int) ^ 52 := hphys.2
          obtain ⟨halign, hpage⟩ := pageToPhys_spec hfirst (by omega)
          -- The new table is the first of the tables.
          have hperm : (.block 0 (some p) :: (as ++ tables.map tableAnswer)).Perm
              (as ++ (pageToPhys p :: tables).map tableAnswer) := by
            rw [List.map_cons, tableAnswer, hpage]
            exact List.perm_middle.symm
          refine ⟨List.forall_mem_cons.mpr ⟨halign, haligned⟩, hnext.toSimulates.perm hperm, ?_⟩
          exact hnext.covers.trans (Pool.frames_perm (hperm.filterMap _))

/-- So many calls, none of which fails, one after the other: the pages are recorded as blocks that
are held, and the pool is the one that has handed them out. -/
theorem Heap.Owns.allocTables (n : Nat) (ho : Heap.Owns ram ⟨s, as ++ tables.map tableAnswer⟩ P)
    (haligned : ∀ q ∈ tables, PageAligned q) {r : Buddy × List Word}
    (hcalls : (fun t => (logged mmPhysAllocPage t).1)^[n] (s.buddy, tables) = r)
    (hok : -1 ∉ r.2) :
    (∀ q ∈ r.2, PageAligned q) ∧ Heap.Owns ram ⟨{ s with buddy := r.1 }, as ++ r.2.map tableAnswer⟩
      ((fun P => (P.take 0).1)^[n] P) := by
  induction n generalizing r with
  | zero =>
      rw [Function.iterate_zero_apply] at hcalls
      subst hcalls
      exact ⟨haligned, ho⟩
  | succ n ih =>
      rw [Function.iterate_succ_apply'] at hcalls
      obtain ⟨r', hr'⟩ : ∃ r', (fun t => (logged mmPhysAllocPage t).1)^[n] (s.buddy, tables) = r' :=
        ⟨_, rfl⟩
      rw [hr'] at hcalls
      have hlog : r.2 = (logged mmPhysAllocPage r').2 :: r'.2 := by
        rw [← hcalls]
        rfl
      rw [hlog, List.mem_cons, not_or] at hok
      obtain ⟨haligned', ho'⟩ := ih hr' hok.2
      rw [Function.iterate_succ_apply']
      have hcall : logged mmPhysAllocPage (r'.1, r'.2) = ((r.1, r.2), (logged mmPhysAllocPage r').2) :=
        Prod.ext hcalls rfl
      exact ho'.allocTable haligned' hcall fun e => hok.1 e.symm

end Blocks

/-! ### The invariant -/

/-- All users of the buddy system are those of a pool, and the tables of the kernel are a tree
with old tables in `base`. Its leaves have the values of the last calls, or what they had at
the start (`walk`). -/
structure Kernel.Inv (ram : Set Int) (base : Word → Prop) (kernPgtable : Word) (walk : Word → Word)
    (k : Kernel) : Prop where
  heap : ∃ P, k.ghost.Owns ram P
  aligned : ∀ q ∈ k.tables, PageAligned q
  tree : ∃ T, Tables KERNEL_DIRECT_MAPPING_AREA (fun _ => True) base k.tables k.heap.kmem.mem T ∧
    T [] = some kernPgtable ∧ ∀ va, entries KERNEL_DIRECT_MAPPING_AREA k.heap.kmem.mem T (pathOf va) =
      ((lastCall va k.maps).map fun c => c.pa ||| c.attr).getD (walk va)

section Inv

variable {ram : Set Int} {base : Word → Prop} {kernPgtable : Word} {walk : Word → Word}
  {k k' : Kernel} {P : Pool} {m : Mem} {op : ClientOp} {h : Heap} {c : MapCall}
  {ops : List KernelOp}

/-- The tree is kept by writes to the blocks of the clients and of the caches. -/
theorem Kernel.Inv.keep (hI : k.Inv ram base kernPgtable walk) {h : Heap}
    (ho : Heap.Owns ram ⟨h.kmem, h.answers ++ k.tables.map tableAnswer⟩ P)
    (hbase : ∀ q, base q → pageOf q ∉ ram)
    (hsame : ∀ a, (∀ c ∈ P.out (heldBlocks h.answers), frameOf a ∉ c.frames) →
      h.kmem.mem a = k.heap.kmem.mem a) :
    Kernel.Inv ram base kernPgtable walk { k with heap := h } := by
  refine ⟨⟨P, ho⟩, hI.aligned, ?_⟩
  obtain ⟨T, hT, hroot, hleaf⟩ := hI.tree
  obtain ⟨hT', hentries⟩ := hT.congr fun π p hp a ha => hsame a fun c hc => by
    rw [offPage_iff (hT.aligned π p hp), not_not] at ha
    rw [ha]
    exact ho.notMem_out hbase (hT.used π p hp) hc
  refine ⟨T, hT', hroot, fun va => ?_⟩
  rw [hentries]
  exact hleaf va

/-- What a client does is the same with the tables counted in, as blocks that somebody
else holds. -/
theorem Kernel.ghost_step (hstep : k.heap.step op = some h) :
    k.ghost.step op = some ⟨h.kmem, h.answers ++ k.tables.map tableAnswer⟩ := by
  cases op with
  | kmalloc sz =>
      obtain ⟨t, ht, rfl⟩ := Option.map_eq_some_iff.mp hstep
      exact Option.map_eq_some_iff.mpr ⟨t, ht, rfl⟩
  | allocPages order =>
      obtain rfl := Option.some.inj hstep
      rfl
  | write a v =>
      rw [Heap.step] at hstep
      split at hstep
      · rename_i hheld
        obtain rfl := Option.some.inj hstep
        refine if_pos ?_
        rw [Heap.held, Kernel.ghost, List.filterMap_append, List.any_append, Bool.or_eq_true]
        exact Or.inl hheld
      · cases hstep

/-- A client writes to the blocks of the clients and of the caches only. -/
theorem Kernel.client_frame {P' : Pool} {a : Word} (ho : k.ghost.Owns ram P)
    (ho' : Heap.Owns ram ⟨h.kmem, h.answers ++ k.tables.map tableAnswer⟩ P')
    (hstep : k.heap.step op = some h) (ha : ∀ c ∈ P'.out (heldBlocks h.answers), frameOf a ∉ c.frames) :
    h.kmem.mem a = k.heap.kmem.mem a := by
  cases op with
  | kmalloc sz =>
      obtain ⟨⟨s', y⟩, hy, rfl⟩ := Option.map_eq_some_iff.mp hstep
      obtain ⟨new, hnew, hframe⟩ := (kmalloc_grows ho.inv hy).frame
      -- What is written lies in the blocks of the caches.
      refine hframe a fun q hq hheld => ?_
      have hslub : q ∈ P'.slubs := by
        rw [← ho'.inv.slubs]
        exact hnew ▸ List.mem_append_left _ hq
      exact ha _ (Pool.mem_out_of_slubs hslub) (frameOf_mem (ho'.inv.physical_slub hslub) hheld)
  | allocPages order =>
      obtain rfl := Option.some.inj hstep
      rfl
  | write b v =>
      rw [Heap.step] at hstep
      split at hstep
      · rename_i hheld
        obtain rfl := Option.some.inj hstep
        obtain ⟨r, hr, hb⟩ := List.any_eq_true.mp hheld
        obtain ⟨answer, hanswer, hregion⟩ := List.mem_filterMap.mp hr
        have hb := of_decide_eq_true hb
        obtain ⟨c, hc, hframe⟩ := ho'.held_frame hanswer hregion hb
        refine Function.update_of_ne (fun e => ?_) _ _
        rw [e] at ha
        exact ha c hc hframe
      · cases hstep

/-- A step of a client keeps the invariant. It writes to what is held or newly taken, so that the
tables and the leaves stay. -/
theorem Kernel.Inv.client (hI : k.Inv ram base kernPgtable walk)
    (hbase : ∀ q, base q → pageOf q ∉ ram) (hstep : k.heap.step op = some h) :
    Kernel.Inv ram base kernPgtable walk { k with heap := h } ∧
      ∀ a, frameOf a ∉ ram → h.kmem.mem a = k.heap.kmem.mem a := by
  obtain ⟨P, ho⟩ := hI.heap
  obtain ⟨P', hpool, ho'⟩ := ho.step (Kernel.ghost_step hstep)
  constructor
  · exact hI.keep ho' hbase fun a ha => Kernel.client_frame ho ho' hstep ha
  · intro a ha
    exact Kernel.client_frame ho ho' hstep fun c hc hm => ha (ho'.out_subset hc hm)

/-- A page is mapped, and no page for a table is missing. Only tables are written. -/
theorem Kernel.Inv.map (hI : k.Inv ram base kernPgtable walk)
    (hbase : ∀ q, base q → PageAligned q ∧ pageOf q ∉ ram) (hc : c.Valid)
    (hok : -1 ∉ (k.mapPage kernPgtable c).tables) :
    (k.mapPage kernPgtable c).Inv ram base kernPgtable walk ∧
      ∀ a, (∀ q, base q ∨ q ∈ (k.mapPage kernPgtable c).tables → frameOf a ≠ pageOf q) →
        (k.mapPage kernPgtable c).heap.kmem.mem a = k.heap.kmem.mem a := by
  obtain ⟨P, ho⟩ := hI.heap
  obtain ⟨T, hT, hroot, hleaf⟩ := hI.tree
  have hnot : ∀ q, base q → pageOf q ∉ ram := fun q hq => (hbase q hq).2
  obtain ⟨r, hr⟩ : ∃ r, pgtableMap KERNEL_DIRECT_MAPPING_AREA (logged mmPhysAllocPage)
      k.heap.kmem.mem (k.heap.kmem.buddy, k.tables) kernPgtable c.va c.pa c.attr = r := ⟨_, rfl⟩
  rw [Kernel.mapPage_eq hr] at hok ⊢
  -- The pages for tables come first.
  obtain ⟨n, -, hn⟩ := pgtableMap_allocs KERNEL_DIRECT_MAPPING_AREA (logged mmPhysAllocPage)
    k.heap.kmem.mem (k.heap.kmem.buddy, k.tables) kernPgtable c.va c.pa c.attr
  rw [hr] at hn
  obtain ⟨haligned, ho'⟩ := ho.allocTables n hI.aligned hn.symm hok
  have hfresh : Fresh base r.2.2 := ho'.fresh hnot haligned
  have hlog : ∀ t, ((logged mmPhysAllocPage t).1).2 = (logged mmPhysAllocPage t).2 :: t.2 :=
    fun _ => rfl
  have hone : mapCalls (pgtableMap KERNEL_DIRECT_MAPPING_AREA (logged mmPhysAllocPage))
      k.heap.kmem.mem (k.heap.kmem.buddy, k.tables) kernPgtable [c] = r := hr
  -- Then the tables are written.
  obtain ⟨T', hT', hroot', hleaf'⟩ := mapCalls_leaf Prod.snd hlog
    (List.forall_mem_singleton.mpr hc.toTagged) (List.forall_mem_singleton.mpr trivial) hT hroot
    (by rw [hone]; exact hfresh)
  rw [hone] at hT' hleaf'
  have hframe : ∀ a, (∀ q, base q ∨ q ∈ r.2.2 → frameOf a ≠ pageOf q) →
      r.1 a = k.heap.kmem.mem a := by
    intro a ha
    have hkeep := mapCalls_frame (a := a) hlog [c]
      (List.forall_mem_singleton.mpr ⟨hc.toTagged, trivial⟩) hT hroot (by rw [hone]; exact hfresh)
      (by
        rw [hone]
        intro q hq
        refine (offPage_iff ?_).mpr (ha q hq)
        cases hq with
        | inl hq => exact (hbase q hq).1
        | inr hq => exact haligned q hq)
    rwa [hone] at hkeep
  refine ⟨⟨⟨_, ?_, ho'.covers⟩, haligned, T', hT', hroot', fun va => ?_⟩, hframe⟩
  · refine ho'.withMem fun q hq a ha => hframe a fun t ht e => ?_
    have hout : _ ∈ Pool.out _ (heldBlocks k.heap.answers) := Pool.mem_out_of_slubs hq
    rw [e] at ha
    exact ho'.notMem_out hnot ht hout ha
  · rw [hleaf', lastCall_append]
    have hsingle : lastCall va ([] ++ [c]) = if SameFrom PTE_OFFSET c.va va then some c else none :=
      lastCall_append
    rw [List.nil_append] at hsingle
    rw [hsingle]
    by_cases hva : SameFrom PTE_OFFSET c.va va
    · rw [if_pos hva, if_pos hva]
      rfl
    · rw [if_neg hva, if_neg hva]
      exact hleaf va

/-- The record of the pages grows at its front, by the pages that a mapping call is given; a
client's step leaves it. -/
theorem Kernel.step_tables {op : KernelOp} (hstep : k.step kernPgtable op = some k') :
    k.tables <:+ k'.tables := by
  cases op with
  | client op =>
      obtain ⟨h, -, rfl⟩ := Option.map_eq_some_iff.mp hstep
      exact List.suffix_refl _
  | map c =>
      rw [Kernel.step] at hstep
      split at hstep
      · rw [Option.some.injEq] at hstep
        have hlog : ∀ t, ((logged mmPhysAllocPage t).1).2 = (logged mmPhysAllocPage t).2 :: t.2 :=
          fun _ => rfl
        have hgrow : ∀ (m : Mem) (t : Buddy × List Word) (pgtable va pa attr : Word), t.2 <:+
            (pgtableMap KERNEL_DIRECT_MAPPING_AREA (logged mmPhysAllocPage) m t pgtable va pa attr).2.2 :=
          fun _ _ _ _ _ _ => pgtableMap_log hlog
        rw [← hstep]
        exact hgrow k.heap.kmem.mem (k.heap.kmem.buddy, k.tables) kernPgtable c.va c.pa c.attr
      · cases hstep

/-- In a run the record of tables only grows. -/
theorem Kernel.run_tables (hrun : run (Kernel.step kernPgtable) k ops = some k') :
    k.tables <:+ k'.tables := by
  induction ops generalizing k with
  | nil =>
      obtain rfl : k = k' := Option.some.inj hrun
      exact List.suffix_refl _
  | cons op ops ih =>
      obtain ⟨k₁, hstep, hrest⟩ := run_cons.mp hrun
      exact (Kernel.step_tables hstep).trans (ih hrest)

/-- A step keeps the invariant, unless it is a mapping call that is not given a page
for a table. -/
theorem Kernel.Inv.step (hI : k.Inv ram base kernPgtable walk)
    (hbase : ∀ q, base q → PageAligned q ∧ pageOf q ∉ ram) {op : KernelOp}
    (hstep : k.step kernPgtable op = some k') (hok : -1 ∉ k'.tables) :
    k'.Inv ram base kernPgtable walk := by
  cases op with
  | client op =>
      obtain ⟨h, hheap, rfl⟩ := Option.map_eq_some_iff.mp hstep
      exact (hI.client (fun q hq => (hbase q hq).2) hheap).1
  | map c =>
      rw [Kernel.step] at hstep
      split at hstep
      · rename_i hc
        rw [Option.some.injEq] at hstep
        subst hstep
        exact (hI.map hbase hc.1 hok).1
      · cases hstep

/-- Memory that is neither available nor in an old table stays as it is. -/
theorem Kernel.Inv.step_frame (hI : k.Inv ram base kernPgtable walk)
    (hbase : ∀ q, base q → PageAligned q ∧ pageOf q ∉ ram) {op : KernelOp}
    (hstep : k.step kernPgtable op = some k') (hok : -1 ∉ k'.tables) {a : Word} (ha : frameOf a ∉ ram)
    (hapart : ∀ q, base q → frameOf a ≠ pageOf q) : k'.heap.kmem.mem a = k.heap.kmem.mem a := by
  cases op with
  | client op =>
      obtain ⟨h, hheap, rfl⟩ := Option.map_eq_some_iff.mp hstep
      exact (hI.client (fun q hq => (hbase q hq).2) hheap).2 a ha
  | map c =>
      rw [Kernel.step] at hstep
      split at hstep
      · rename_i hc
        rw [Option.some.injEq] at hstep
        subst hstep
        obtain ⟨hI', hframe⟩ := hI.map hbase hc.1 hok
        obtain ⟨P, ho⟩ := hI'.heap
        refine hframe a fun q hq => ?_
        cases hq with
        | inl hq => exact hapart q hq
        | inr hq =>
            intro e
            exact ha (e ▸ ho.toSimulates.table_mem hq)
      · cases hstep

/-- A run in which no page for a table is missing keeps the invariant, by induction on its steps;
what is missing shows in the record. -/
theorem Kernel.Inv.run (hI : k.Inv ram base kernPgtable walk)
    (hbase : ∀ q, base q → PageAligned q ∧ pageOf q ∉ ram)
    (hrun : run (Kernel.step kernPgtable) k ops = some k') (hok : -1 ∉ k'.tables) :
    k'.Inv ram base kernPgtable walk := by
  induction ops generalizing k with
  | nil =>
      rw [Lib.run, Option.some.injEq] at hrun
      rw [← hrun]
      exact hI
  | cons op ops ih =>
      obtain ⟨k₁, hstep, hrest⟩ := run_cons.mp hrun
      have hok₁ : -1 ∉ k₁.tables := fun h => hok ((Kernel.run_tables hrest).subset h)
      exact ih (hI.step hbase hstep hok₁) hrest

/-- A run changes no byte outside the memory of the allocator and the old tables, so that the image
and its data stay. -/
theorem Kernel.Inv.run_frame (hI : k.Inv ram base kernPgtable walk)
    (hbase : ∀ q, base q → PageAligned q ∧ pageOf q ∉ ram)
    (hrun : Lib.run (Kernel.step kernPgtable) k ops = some k') (hok : -1 ∉ k'.tables) {a : Word}
    (ha : frameOf a ∉ ram) (hapart : ∀ q, base q → frameOf a ≠ pageOf q) :
    k'.heap.kmem.mem a = k.heap.kmem.mem a := by
  induction ops generalizing k with
  | nil =>
      obtain rfl : k = k' := Option.some.inj hrun
      rfl
  | cons op ops ih =>
      obtain ⟨k₁, hstep, hrest⟩ := run_cons.mp hrun
      have hok₁ : -1 ∉ k₁.tables := fun h => hok ((Kernel.run_tables hrest).subset h)
      rw [ih (hI.step hbase hstep hok₁) hrest]
      exact hI.step_frame hbase hstep hok₁ ha hapart

/-- The calls of a run are recorded. Each maps a page outside of the areas of the kernel. -/
theorem Kernel.run_maps (hrun : Lib.run (Kernel.step kernPgtable) k ops = some k') :
    k'.maps = k.maps ++ mapsOf ops ∧ ∀ c ∈ mapsOf ops, ownEntry (pgdEntry c.va) = false := by
  induction ops generalizing k with
  | nil =>
      rw [Lib.run, Option.some.injEq] at hrun
      rw [hrun]
      exact ⟨(List.append_nil _).symm, fun c hc => absurd hc List.not_mem_nil⟩
  | cons op ops ih =>
      obtain ⟨k₁, hstep, hrest⟩ := run_cons.mp hrun
      obtain ⟨hmaps, hown⟩ := ih hrest
      cases op with
      | client op =>
          obtain ⟨h, -, rfl⟩ := Option.map_eq_some_iff.mp hstep
          exact ⟨hmaps, hown⟩
      | map c =>
          rw [Kernel.step] at hstep
          split at hstep
          · rename_i hc
            rw [Option.some.injEq] at hstep
            rw [← hstep] at hmaps
            exact ⟨hmaps.trans (List.append_assoc ..), List.forall_mem_cons.mpr ⟨hc.2, hown⟩⟩
          · cases hstep

/-! ### What the invariant says -/

/-- The tables are held like blocks, beside everything that the clients hold. -/
theorem Kernel.ghost_held (k : Kernel) :
    k.ghost.held = k.heap.held ++ k.tables.map fun q => blockRegion (tableBlock q) := by
  have htables : (k.tables.map tableAnswer).filterMap (Answer.region k.heap.kmem)
      = k.tables.map fun q => blockRegion (tableBlock q) := by
    rw [List.filterMap_map]
    induction k.tables with
    | nil => rfl
    | cons q tables ih => exact congrArg (blockRegion (tableBlock q) :: ·) ih
  rw [← htables]
  exact List.filterMap_append

/-- The frames of `ram` are those of the free blocks and of the blocks in use, which are all
apart. A free block that is large enough can be had. -/
theorem Kernel.tiled (ho : k.ghost.Owns ram P) :
    k.blocks.Pairwise Block.Apart ∧
      (∀ c d, FreeBlock k.heap.kmem.buddy c → FreeBlock k.heap.kmem.buddy d → c ≠ d → c.Apart d) ∧
      (∀ c ∈ k.blocks, ∀ d, FreeBlock k.heap.kmem.buddy d → c.Apart d) ∧
      (∀ x, x ∈ ram ↔ ∃ c, (c ∈ k.blocks ∨ FreeBlock k.heap.kmem.buddy c) ∧ x ∈ c.frames) ∧
      ∀ order, (allocPages k.heap.kmem.buddy order).2 = none ↔
        ∀ c, FreeBlock k.heap.kmem.buddy c → c.order < order := by
  have hblocks : k.blocks = P.out (heldBlocks k.ghost.answers) := by
    have hslubs : k.heap.kmem.slubs = P.slubs := ho.inv.slubs
    have hheld : heldBlocks k.ghost.answers = heldBlocks k.heap.answers ++ k.tables.map tableBlock :=
      heldBlocks_append k.heap.answers k.tables
    rw [Kernel.blocks, hslubs, Pool.out, hheld]
  have hfree : ∀ c, FreeBlock k.heap.kmem.buddy c ↔ Listed P.seq c :=
    fun c => freeBlock_iff hasFreelists_kernelHeads ho.inv.blockInv.rep
  obtain ⟨hout, hlists, hbetween⟩ := ho.inv.blockInv.tidy
  simp only [hblocks, hfree]
  refine ⟨hout, hlists, hbetween, fun x => ⟨fun hx => ho.covers hx, ?_⟩, fun order => ?_⟩
  · rintro ⟨c, hc, hx⟩
    exact ho.inv.within c hc hx
  · rw [← Pool.take_eq_none_iff, ← (ho.toSimulates.allocPages order).2]
    rfl

/-- So it is after every run: the blocks that anybody holds and the free blocks are apart, and lie
in the memory of the allocator. -/
theorem Kernel.Inv.tiled (hI : k.Inv ram base kernPgtable walk) :
    k.blocks.Pairwise Block.Apart ∧
      (∀ c d, FreeBlock k.heap.kmem.buddy c → FreeBlock k.heap.kmem.buddy d → c ≠ d → c.Apart d) ∧
      (∀ c ∈ k.blocks, ∀ d, FreeBlock k.heap.kmem.buddy d → c.Apart d) ∧
      (∀ x, x ∈ ram ↔ ∃ c, (c ∈ k.blocks ∨ FreeBlock k.heap.kmem.buddy c) ∧ x ∈ c.frames) ∧
      ∀ order, (allocPages k.heap.kmem.buddy order).2 = none ↔
        ∀ c, FreeBlock k.heap.kmem.buddy c → c.order < order := by
  obtain ⟨P, ho⟩ := hI.heap
  exact Kernel.tiled ho

/-- What clients hold lies in frames of `ram`, apart from all tables. -/
theorem Kernel.Inv.held (hI : k.Inv ram base kernPgtable walk) (hbase : ∀ q, base q → pageOf q ∉ ram)
    {r : Region} {x : Word} (hr : r ∈ k.heap.held) (hx : r.Holds x) :
    frameOf x ∈ ram ∧ ∀ q, base q ∨ q ∈ k.tables → frameOf x ≠ pageOf q := by
  obtain ⟨P, hs⟩ := hI.heap
  obtain ⟨a, ha, hregion⟩ := List.mem_filterMap.mp hr
  obtain ⟨c, hc, hframe⟩ := hs.held_frame ha hregion hx
  refine ⟨hs.out_subset hc hframe, fun q hq e => hs.notMem_out hbase hq hc ?_⟩
  rw [← e]
  exact hframe

/-- `kmalloc` returns in every state that the invariant holds of, with an object or with NULL. -/
theorem Kernel.Inv.kmalloc (hI : k.Inv ram base kernPgtable walk) (sz : Word) :
    ∃ r, SumiOS.kmalloc k.heap.kmem sz = some r := by
  obtain ⟨P, ho⟩ := hI.heap
  obtain ⟨-, s', x, -, hx, -⟩ := ho.toSimulates.kmalloc sz
  exact ⟨(s', x), hx⟩

/-- A walk dereferences tables of the tree, so pages from before the run or pages that the run has
taken for tables. -/
theorem Kernel.Inv.derefs (hI : k.Inv ram base kernPgtable walk) {va q : Word}
    (hq : q ∈ getPaDerefs KERNEL_DIRECT_MAPPING_AREA k.heap.kmem.mem kernPgtable va) :
    PageAligned q ∧ (base q ∨ q ∈ k.tables) := by
  obtain ⟨T, hT, hroot, -⟩ := hI.tree
  obtain ⟨i, -, hi⟩ := (mem_getPaDerefs hT hroot trivial).mp hq
  exact ⟨hT.aligned _ q hi, hT.used _ q hi⟩

/-- The leaves are those of the calls, in every memory with the same bytes in the tables. -/
theorem Kernel.Inv.leaf_of (hI : k.Inv ram base kernPgtable walk) {m : Mem}
    (hsame : ∀ q, base q ∨ q ∈ k.tables → ∀ a, frameOf a = pageOf q → m a = k.heap.kmem.mem a)
    (va : Word) : leafOf KERNEL_DIRECT_MAPPING_AREA m kernPgtable va =
      ((lastCall va k.maps).map fun c => c.pa ||| c.attr).getD (walk va) := by
  obtain ⟨T, hT, hroot, hleaf⟩ := hI.tree
  have hpages : ∀ π p, T π = some p → ∀ a, ¬ OffPage KERNEL_DIRECT_MAPPING_AREA p a →
      m a = k.heap.kmem.mem a := by
    intro π p hp a ha
    rw [offPage_iff (hT.aligned π p hp), not_not] at ha
    exact hsame p (hT.used π p hp) a ha
  obtain ⟨hT', hentries⟩ := hT.congr hpages
  rw [leafOf, pgtableWalk_getD hT' hroot trivial, hentries, hleaf]

/-- In the memory of the kernel, too, which is seen through the direct mapping area. -/
theorem Kernel.Inv.leaf (hI : k.Inv ram base kernPgtable walk) (va : Word) :
    leafOf KERNEL_DIRECT_MAPPING_AREA k.heap.kmem.mem kernPgtable va =
      ((lastCall va k.maps).map fun c => c.pa ||| c.attr).getD (walk va) :=
  hI.leaf_of (fun _ _ _ _ => rfl) va

end Inv

end SumiOS
