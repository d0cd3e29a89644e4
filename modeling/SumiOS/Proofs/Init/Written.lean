import SumiOS.Proofs.Buddy.Probes
import SumiOS.Proofs.Init.Mapping

/-!
# `SumiOS.Proofs.Init.Written`: the page structs that the init loop reads

Before the frames are freed, the page structs of the visited frames were written. The
merge test reads every page struct that is mapped, and the page array is mapped a page
at a time: 64 structs, of which possibly one was written (`pageMapped_iff`). So the free
loop can read what the memory held before.

`readsWritten_iff` says when it does not, while no allocation fails: exactly when the frames
that the counter of `SumiOS.Proofs.Buddy.Probes` looks at are visited, or share no page of
the array with a visited one. Then the free lists are the same for all contents of the page
array. A failed allocation maps page structs to frame 0, where they are not apart from each
other any more, and nothing is said about that.
-/

set_option autoImplicit false

namespace SumiOS

open Lib

/-! ### The reads of the free loop -/

/-- The reads of the loop that frees the frames, for one frame. -/
def freeFrameReads (mem : Mem) (kernPgtable mmAllocEnd : Word) (b : Buddy)
    (v : MmapEntry × Word) : List Int :=
  if v.2 ≥ mmAllocEnd ∧ v.1.type = MULTIBOOT_MEMORY_AVAILABLE then
    combineReads (pageMapped mem kernPgtable) (MAX_PAGE_ORDER - 1) b (pageOf v.2) 0
  else []

/-- The page structs whose `is_free` is read by `__free_pages`, as called from the loop
that frees the frames. -/
def initReads (mem : Mem) (kernPgtable mmAllocEnd : Word) :
    Buddy → List (MmapEntry × Word) → List Int
  | _, [] => []
  | b, v :: vs =>
      freeFrameReads mem kernPgtable mmAllocEnd b v ++
        initReads mem kernPgtable mmAllocEnd (freeFrame mem kernPgtable mmAllocEnd b v) vs

/-- The reads of the whole initialisation are those of freeing the frames of `freedFrames` in their
order. -/
theorem initReads_eq (mem : Mem) (kernPgtable mmAllocEnd : Word) (entries : List MmapEntry)
    (b : Buddy) :
    initReads mem kernPgtable mmAllocEnd b (visitsOf entries) =
      framesReads (pageMapped mem kernPgtable) b (freedFrames entries mmAllocEnd) := by
  unfold freedFrames
  induction visitsOf entries generalizing b with
  | nil => rfl
  | cons v vs ih =>
      rw [initReads, ih, List.filter_cons, freeFrameReads, freeFrame]
      by_cases h : v.2 ≥ mmAllocEnd ∧ v.1.type = MULTIBOOT_MEMORY_AVAILABLE
      · rw [if_pos h, if_pos h, if_pos (decide_eq_true h)]
        rfl
      · rw [if_neg h, if_neg h, if_neg (by simpa using h)]
        rfl

/-- The loop over the page structs wrote the struct of this frame. -/
def Written (entries : List MmapEntry) (q : Int) : Prop := ∃ v ∈ visitsOf entries, pageOf v.2 = q

/-- Unless an entry ends at `2 ^ 64`, these are the frames of the entries. -/
theorem written_iff {bound : Nat} {entries : List MmapEntry} (hmap : MemoryMap bound entries)
    (hbound : bound < 2 ^ 64) {q : Int} : Written entries q ↔ ∃ e ∈ entries, e.HasFrame q := by
  constructor
  · rintro ⟨v, hv, rfl⟩
    have hnat := visitsOf_aligned hmap hv
    obtain ⟨he, -, hframe⟩ := (mem_visitsOf hmap).mp ⟨v.2, hv, rfl, hnat⟩
    exact ⟨v.1, he, hframe⟩
  · rintro ⟨e, he, hframe⟩
    have hstop := (hmap.bounded e he).trans_lt hbound
    obtain ⟨w, hv, hw, -⟩ := (mem_visitsOf hmap).mpr ⟨he, hstop, hframe⟩
    exact ⟨_, hv, hw⟩

/-! ### The nodes that are written before -/

/-- The heads of the free lists, and the list nodes of the written page structs. -/
def writtenNodes (entries : List MmapEntry) : Set Node :=
  {n | n ∈ (List.range MAX_PAGE_ORDER).map freelist ∨
    n ∈ (visitsOf entries).map fun v => .page (pageOf v.2)}

section Before

variable {bootMemAllocStart kernPgtable : Word} {entries : List MmapEntry}
  {visits : List (MmapEntry × Word)} {mem : Mem} {b b' : Buddy} {st st' : InitState}

/-- The page structs among the written nodes are those that the loop over the page
structs wrote. -/
theorem page_mem_writtenNodes {q : Int} : .page q ∈ writtenNodes entries ↔ Written entries q := by
  simp [writtenNodes, Written]

/-- The heads of the free lists are among the written nodes, because they are initialised before
the loops. -/
theorem freelist_mem_writtenNodes {k : Nat} (hk : k < MAX_PAGE_ORDER) :
    freelist k ∈ writtenNodes entries :=
  Or.inl (List.mem_map_of_mem (List.mem_range.mpr hk))

/-- After `list_head_init` was called on the nodes of a list, they agree, whatever they held on
either side. By induction on the list. -/
theorem LinksAgree.inits {D : Set Node} {l l' : Links Node} (ns : List Node)
    (h : LinksAgree D l l') :
    LinksAgree {n | n ∈ ns ∨ n ∈ D} (ns.foldl SumiOS.listHeadInit l)
      (ns.foldl SumiOS.listHeadInit l') := by
  induction ns generalizing D l l' with
  | nil => simpa using h
  | cons n ns ih =>
      have hset : {m | m ∈ n :: ns ∨ m ∈ D} = {m | m ∈ ns ∨ m ∈ insert n D} := by
        ext m
        simp only [Set.mem_ofPred_eq, List.mem_cons, Set.mem_insert_iff]
        tauto
      rw [hset]
      exact ih h.listHeadInit

/-- Each page struct that is initialised becomes a list of its own, one `list_head_init` for every
visit. -/
theorem initPages_links (b : Buddy) (visits : List (MmapEntry × Word)) :
    (initPages b visits).links =
      (visits.map fun v => .page (pageOf v.2)).foldl listHeadInit b.links := by
  unfold initPages
  induction visits generalizing b with
  | nil => rfl
  | cons v vs ih => exact ih (initPage b (pageOf v.2) v.1.type)

/-- The page tables and the allocator do not depend on the page structs. -/
theorem foldl_sameTables {α : Type} {f : InitState → α → InitState}
    (hf : ∀ st st' x, st.mem = st'.mem → st.la = st'.la →
      (f st x).mem = (f st' x).mem ∧ (f st x).la = (f st' x).la)
    (xs : List α) (hmem : st.mem = st'.mem) (hla : st.la = st'.la) :
    (xs.foldl f st).mem = (xs.foldl f st').mem ∧ (xs.foldl f st).la = (xs.foldl f st').la := by
  induction xs generalizing st st' with
  | nil => exact ⟨hmem, hla⟩
  | cons x xs ih =>
      obtain ⟨hmem', hla'⟩ := hf st st' x hmem hla
      exact ih hmem' hla'

/-- What the first loop does to the memory and the linear allocator does not depend on the buddy
system. -/
theorem mapDirect_sameTables (v : MmapEntry × Word) (hmem : st.mem = st'.mem) (hla : st.la = st'.la) :
    (mapDirect kernPgtable st v.2).mem = (mapDirect kernPgtable st' v.2).mem ∧
      (mapDirect kernPgtable st v.2).la = (mapDirect kernPgtable st' v.2).la := by
  simp only [mapDirect, hmem, hla, and_self]

/-- Nor does what the second loop does to them, although it also writes page structs. -/
theorem initFrame_sameTables (v : MmapEntry × Word) (hmem : st.mem = st'.mem) (hla : st.la = st'.la) :
    (initFrame kernPgtable st v).mem = (initFrame kernPgtable st' v).mem ∧
      (initFrame kernPgtable st v).la = (initFrame kernPgtable st' v).la := by
  simp only [initFrame, backPage, hmem, hla]
  split
  · exact ⟨rfl, rfl⟩
  · exact ⟨hmem, hla⟩

/-- The nodes that the initialization writes agree, whatever was in them before: first the page
structs, then the heads of the free lists. -/
theorem linksAgree_written (l l' : Links Node) : LinksAgree (writtenNodes entries)
    (((List.range MAX_PAGE_ORDER).map freelist).foldl SumiOS.listHeadInit
      (((visitsOf entries).map fun v => .page (pageOf v.2)).foldl SumiOS.listHeadInit l))
    (((List.range MAX_PAGE_ORDER).map freelist).foldl SumiOS.listHeadInit
      (((visitsOf entries).map fun v => .page (pageOf v.2)).foldl SumiOS.listHeadInit l')) := by
  have hempty : LinksAgree (∅ : Set Node) l l' :=
    ⟨fun n hn => absurd hn (Set.notMem_empty n), fun n hn => absurd hn (Set.notMem_empty n),
      fun n hn => absurd hn (Set.notMem_empty n)⟩
  have hall := (hempty.inits ((visitsOf entries).map fun v => .page (pageOf v.2))).inits
    ((List.range MAX_PAGE_ORDER).map freelist)
  have hset : writtenNodes entries = {n | n ∈ (List.range MAX_PAGE_ORDER).map freelist ∨
      n ∈ {n | n ∈ (visitsOf entries).map (fun v => Node.page (pageOf v.2)) ∨ n ∈ (∅ : Set Node)}} := by
    ext n
    simp [writtenNodes]
  rw [hset]
  exact hall

/-- When the frames are freed, no written page struct reads as free, and what was
written does not depend on the page structs that were there before. -/
theorem beforeFree_agree
    (h : beforeFree bootMemAllocStart kernPgtable entries (visitsOf entries) mem b = some st)
    (h' : beforeFree bootMemAllocStart kernPgtable entries (visitsOf entries) mem b' = some st') :
    st.mem = st'.mem ∧ st.la = st'.la ∧ Agree (writtenNodes entries) st.buddy st'.buddy ∧
      ∀ q, Written entries q → (st.buddy.pages q).isFree = false := by
  rw [beforeFree, Option.map_eq_some_iff] at h h'
  obtain ⟨la, hscan, rfl⟩ := h
  obtain ⟨la', hscan', rfl⟩ := h'
  obtain rfl : la = la' := Option.some.inj (hscan.symm.trans hscan')
  -- Neither loop looks at the structs, so both runs write the same tables.
  obtain ⟨hmem, hla⟩ := foldl_sameTables (fun _ _ v => mapDirect_sameTables v) (visitsOf entries)
    (show (InitState.mk mem la b).mem = (InitState.mk mem la b').mem from rfl) rfl
  obtain ⟨hmem, hla⟩ := foldl_sameTables (fun _ _ v => initFrame_sameTables v) (visitsOf entries) hmem hla
  have hnotFree : ∀ c : Buddy, ∀ q, Written entries q →
      ((initPages c (visitsOf entries)).pages q).isFree = false := by
    rintro c q ⟨v, hv, hq⟩
    exact initPages_isFree fun hno => absurd hq (hno v hv)
  refine ⟨hmem, hla, ?_, ?_⟩
  · dsimp only
    rw [foldl_initFrame_buddy, foldl_initFrame_buddy, foldl_mapDirect_buddy, foldl_mapDirect_buddy]
    refine ⟨?_, fun q hq => ?_, fun q hq hf => ?_⟩
    · rw [freelistInit_links, freelistInit_links, initPages_links, initPages_links]
      exact linksAgree_written b.links b'.links
    · have hq := page_mem_writtenNodes.mp hq
      exact (hnotFree b q hq).trans (hnotFree b' q hq).symm
    · have hq := hnotFree b q (page_mem_writtenNodes.mp hq)
      exact absurd (hq.symm.trans hf) Bool.false_ne_true
  · dsimp only
    rw [foldl_initFrame_buddy, foldl_mapDirect_buddy]
    exact hnotFree b

/-- Every frame that is freed had its page struct written before, since the same visits lead to
both. -/
theorem written_of_freed {mmAllocEnd : Word} {x : Int} (hx : x ∈ freedFrames entries mmAllocEnd) :
    Written entries x := by
  obtain ⟨v, hv, rfl⟩ := List.mem_map.mp hx
  exact ⟨v, (List.mem_filter.mp hv).1, rfl⟩

/-- The free loop reads written page structs only, exactly when its frames are confined
to them. -/
theorem reads_iff_confined {bound : Nat} (hmap : MemoryMap bound entries)
    (h : beforeFree bootMemAllocStart kernPgtable entries (visitsOf entries) mem b = some st) :
    (∀ q ∈ initReads st.mem kernPgtable st.la.mmAllocEnd st.buddy (visitsOf entries),
        Written entries q) ↔
      Confined (pageMapped st.mem kernPgtable) (Written entries) []
        (freedFrames entries st.la.mmAllocEnd) := by
  obtain ⟨-, -, hagree, hfree⟩ := beforeFree_agree h h
  have hknown : Written entries = fun q => Node.page q ∈ writtenNodes entries :=
    funext fun q => propext page_mem_writtenNodes.symm
  rw [initReads_eq, hknown]
  exact framesReads_iff_confined (fun k hk => freelist_mem_writtenNodes hk) hagree.links
    (fun q hq => hfree q (page_mem_writtenNodes.mp hq))
    (fun x hx => page_mem_writtenNodes.mpr (written_of_freed hx)) (freedFrames_sorted hmap)

/-- Then the free lists do not depend on what the page array held: two runs that differ in it only
read the same and leave the same lists. -/
theorem freeLists_eq_of_reads
    (h : beforeFree bootMemAllocStart kernPgtable entries (visitsOf entries) mem b = some st)
    (h' : beforeFree bootMemAllocStart kernPgtable entries (visitsOf entries) mem b' = some st')
    (hreads : ∀ q ∈ initReads st.mem kernPgtable st.la.mmAllocEnd st.buddy (visitsOf entries),
      Written entries q) :
    Agree (writtenNodes entries)
      (freeFrames (pageMapped st.mem kernPgtable) st.buddy (freedFrames entries st.la.mmAllocEnd))
      (freeFrames (pageMapped st'.mem kernPgtable) st'.buddy
        (freedFrames entries st'.la.mmAllocEnd)) := by
  obtain ⟨hmem, hla, hagree, -⟩ := beforeFree_agree h h'
  rw [← hmem, ← hla]
  rw [initReads_eq] at hreads
  exact (hagree.frames _ (fun k hk => freelist_mem_writtenNodes hk)
    (fun x hx => page_mem_writtenNodes.mpr (written_of_freed hx))
    fun q hq => page_mem_writtenNodes.mpr (hreads q hq)).2

end Before

/-! ### The page structs that are mapped -/

/-- The address of the struct of any frame, in front of the array too. -/
abbrev frameVa (q : Int) : Word := pageVa (BitVec.ofInt 64 q)

/-- The frames whose page structs lie in the root entries 255 to 259: 2 TB of page array
and 512 GB in front of it. -/
def NearArray (q : Int) : Prop := -2 ^ 33 ≤ q ∧ q < 2 ^ 35

/-- Near the page array, only the pages of these addresses are mapped. -/
def BackedOnly (vas : List Word) (A : List (BitVec 9) → Word) : Prop :=
  ∀ q, NearArray q → A (pathOf (frameVa q)) &&& PAGE_MASK ≠ 0 →
    ∃ va ∈ vas, pathOf (frameVa q) = pathOf va

section Mapped

variable {first bootMemAllocStart kernPgtable va pa attr : Word} {entries : List MmapEntry}
  {vs : List (MmapEntry × Word)} {mem : Mem} {b : Buddy} {st : InitState} {vas : List Word}
  {A A' : List (BitVec 9) → Word} {q q' : Int}

/-- Near the page array the address of a page struct is its place in the array, without wrapping
around. -/
theorem frameVa_toNat (hq : NearArray q) : ((frameVa q).toNat : Int) = 0xffff800000000000 + 64 * q := by
  have hbase : KERNEL_PAGE_ARRAY.toNat = 0xffff800000000000 := rfl
  have hsize : (64 : Word).toNat = 64 := rfl
  obtain ⟨hlow, hhigh⟩ := hq
  rw [frameVa, pageVa, BitVec.toNat_add, BitVec.toNat_mul, hbase, hsize, BitVec.toNat_ofInt]
  omega

/-- 64 page structs share a page, so structs have the same path when their numbers have the same
quotient by 64. -/
theorem pathOf_frameVa_eq_iff (hq : NearArray q) (hq' : NearArray q') :
    pathOf (frameVa q) = pathOf (frameVa q') ↔ q / 64 = q' / 64 := by
  have hsame := sameFrom_iff (frameVa q) (frameVa q') 4 (le_refl 4)
  have hnat := frameVa_toNat hq
  have hnat' := frameVa_toNat hq'
  obtain ⟨hlow, hhigh⟩ := hq
  obtain ⟨hlow', hhigh'⟩ := hq'
  rw [pathOf_eq, pathOf_eq, ← hsame, sameFrom_iff_nat]
  omega

/-- The page structs of the frames that the loops visit are near the array. -/
theorem structVa_frameVa {v : MmapEntry × Word} (hv : v.2.toNat < 2 ^ 46) :
    NearArray (pageOf v.2) ∧ structVa v = frameVa (pageOf v.2) := by
  have hnat := pageOf_eq v.2
  refine ⟨⟨by omega, by omega⟩, ?_⟩
  rw [structVa, frameVa, pageOf, BitVec.ofInt_natCast, BitVec.ofNat_toNat, BitVec.setWidth_eq]

/-- A call for the direct mapping area maps nothing near the page array, because the two areas have
different entries in the topmost table. -/
theorem BackedOnly.direct (h : BackedOnly vas A) (hpa : pa.toNat < 2 ^ 46)
    (heffect : Effect (physToKernelDirectMappingAddr pa) pa attr A A') : BackedOnly vas A' := by
  intro q hq hmapped
  have hne : pathOf (frameVa q) ≠ pathOf (physToKernelDirectMappingAddr pa) := by
    have hsame := sameFrom_iff (frameVa q) (physToKernelDirectMappingAddr pa) 4 (le_refl 4)
    have hnat := frameVa_toNat hq
    have hbase : KERNEL_DIRECT_MAPPING_AREA.toNat = 0xffff888000000000 := rfl
    obtain ⟨hlow, hhigh⟩ := hq
    rw [pathOf_eq, pathOf_eq, Ne, ← hsame, sameFrom_iff_nat, physToKernelDirectMappingAddr,
      BitVec.toNat_add, hbase]
    omega
  rw [heffect.keep _ hne fun hm => pathOf_not_inner hm.1] at hmapped
  exact h q hq hmapped

/-- A call for one more page backs that page and no other one of the page array. -/
theorem BackedOnly.map (h : BackedOnly vas A) (heffect : Effect va pa attr A A') :
    BackedOnly (va :: vas) A' := by
  intro q hq hmapped
  by_cases he : pathOf (frameVa q) = pathOf va
  · exact ⟨va, List.mem_cons_self, he⟩
  · rw [heffect.keep _ he fun hm => pathOf_not_inner hm.1] at hmapped
    obtain ⟨va', hva', he'⟩ := h q hq hmapped
    exact ⟨va', List.mem_cons_of_mem va hva', he'⟩

/-- That the pages of the array are backed only for visited frames is kept by the loop over the
page structs. -/
theorem backedOnly_tracks : Tracks BackedOnly where
  old va vas A hA _ q hq hmapped := by
    obtain ⟨va', hva', he⟩ := hA q hq hmapped
    exact ⟨va', List.mem_cons_of_mem va hva', he⟩
  new va vas pa A A' _ _ hA heffect := hA.map heffect

/-- The walk finds the page struct of a frame mapped when its leaf has a frame. -/
theorem pageMapped_eq_iff {base : Word → Prop} {log : List Word}
    {T : List (BitVec 9) → Option Word}
    (hT : Tables KERNEL_DIRECT_MAPPING_AREA (· ≠ 0) base log mem T)
    (hroot : T [] = some kernPgtable) (hq : NearArray q) :
    pageMapped mem kernPgtable q = true ↔
      SumiOS.entries KERNEL_DIRECT_MAPPING_AREA mem T (pathOf (frameVa q)) &&& PAGE_MASK ≠ 0 := by
  have hnat := frameVa_toNat hq
  obtain ⟨hlow, hhigh⟩ := hq
  have htop : indexOf PGD_OFFSET (frameVa q) ≠ 0 := indexOf_pgd_ne_zero (by omega)
  have hzero : kernelVaIsPhysZero (frameVa q) = false := by
    have hdirect : KERNEL_DIRECT_MAPPING_AREA.toNat = 0xffff888000000000 := rfl
    have hkernel : KERNEL_BASE_ADDR.toNat = 0xffffffff81000000 := rfl
    have hne : ∀ w : Word, (w.toNat : Int) ≠ 0xffff800000000000 + 64 * q → frameVa q ≠ w := by
      intro w hw he
      rw [he] at hnat
      exact hw hnat
    rw [kernelVaIsPhysZero, beq_false_of_ne (hne _ (by omega)), beq_false_of_ne (hne _ (by omega))]
    rfl
  rw [SumiOS.pageMapped, bne_iff_ne, Ne, Ne, ← lookup_eq_iff hT hroot htop hzero]
  rfl

/-- The page table maps no page struct yet. -/
def ArrayUnmapped (mem : Mem) (kernPgtable : Word) : Prop :=
  ∀ q, NearArray q → pageMapped mem kernPgtable q = false

/-- When the frames are freed, exactly those page structs are mapped that share a page of
the array with a written one. -/
theorem pageMapped_iff (hmap : MemoryMap (2 ^ 46) entries) (hstart : PageAligned bootMemAllocStart)
    (hin : ∃ e ∈ entries, e.Available ∧ e.Holds bootMemAllocStart.toNat)
    (htables : KernelTables mem kernPgtable bootMemAllocStart)
    (hunmapped : ArrayUnmapped mem kernPgtable)
    (h : beforeFree bootMemAllocStart kernPgtable entries (visitsOf entries) mem b = some st)
    (hok : 0 ∉ st.la.returned) (hq : NearArray q) :
    pageMapped st.mem kernPgtable q = true ↔ ∃ q', Written entries q' ∧ q' / 64 = q / 64 := by
  have hnear : ∀ v ∈ visitsOf entries, NearArray (pageOf v.2) ∧ structVa v = frameVa (pageOf v.2) :=
    fun v hv => structVa_frameVa (visitsOf_lt hmap hv)
  constructor
  · intro hmapped
    -- The array was unmapped in the booting stage: what is mapped now was mapped by a visit.
    have honly := beforeFree_tracks backedOnly_tracks (fun pa A A' hpa hA heffect => hA.direct hpa heffect)
      hmap hstart hin htables (fun base log T hT hroot q hq hne => by
        rw [← pageMapped_eq_iff hT hroot hq, hunmapped q hq] at hne
        exact absurd hne Bool.false_ne_true) h
    obtain ⟨T, hT, hroot, hA⟩ := honly.tree hok
    obtain ⟨va, hva, he⟩ := hA q hq ((pageMapped_eq_iff hT hroot hq).mp hmapped)
    rw [List.append_nil, List.mem_reverse, List.mem_map] at hva
    obtain ⟨v, hv, rfl⟩ := hva
    obtain ⟨hv', hstruct⟩ := hnear v hv
    rw [hstruct, pathOf_frameVa_eq_iff hq hv'] at he
    exact ⟨_, ⟨v, hv, rfl⟩, he.symm⟩
  · rintro ⟨q', ⟨v, hv, rfl⟩, he⟩
    obtain ⟨hv', hstruct⟩ := hnear v hv
    obtain ⟨T, hT, hroot, hA⟩ := (beforeFree_mapping hmap hstart hin htables h).tree hok
    have hbacked := hA (structVa v) (by
      rw [List.append_nil, List.mem_reverse]
      exact List.mem_map_of_mem hv)
    rw [hstruct, (pathOf_frameVa_eq_iff hv' hq).mpr he] at hbacked
    exact (pageMapped_eq_iff hT hroot hq).mpr hbacked

end Mapped

/-! ### When only written page structs are read -/

/-- The page struct shares a page of the array with a written one. -/
def sharesPage (entries : List MmapEntry) (q : Int) : Bool :=
  (visitsOf entries).any fun v => pageOf v.2 / 64 == q / 64

/-- Every read of the free loop that starts in `st` is of a written page struct. -/
def ReadsWritten (kernPgtable : Word) (entries : List MmapEntry) (st : InitState) : Prop :=
  ∀ q ∈ initReads st.mem kernPgtable st.la.mmAllocEnd st.buddy (visitsOf entries),
    Written entries q

/-- The two states have the same sequence on every free list. -/
def SameFreeLists (b b' : Buddy) : Prop :=
  ∀ k < MAX_PAGE_ORDER, ∀ xs, IsRing b.links (freelist k) xs ↔ IsRing b'.links (freelist k) xs

instance (entries : List MmapEntry) : DecidablePred (Written entries) :=
  fun q => inferInstanceAs (Decidable (∃ v ∈ visitsOf entries, pageOf v.2 = q))

section Written

variable {bootMemAllocStart kernPgtable : Word} {entries : List MmapEntry} {mem : Mem}
  {b : Buddy} {st : InitState}

/-- While no allocation fails, what is mapped is decided by the memory map: a page struct is mapped
when it shares its page with the struct of a visited frame. -/
theorem readsWritten_iff_shares (hmap : MemoryMap (2 ^ 46) entries)
    (hstart : PageAligned bootMemAllocStart)
    (hin : ∃ e ∈ entries, e.Available ∧ e.Holds bootMemAllocStart.toNat)
    (htables : KernelTables mem kernPgtable bootMemAllocStart)
    (hunmapped : ArrayUnmapped mem kernPgtable)
    (h : beforeFree bootMemAllocStart kernPgtable entries (visitsOf entries) mem b = some st)
    (hok : 0 ∉ st.la.returned) :
    ReadsWritten kernPgtable entries st ↔
      Confined (sharesPage entries) (Written entries) [] (freedFrames entries st.la.mmAllocEnd) := by
  have hmapped : ∀ q, NearArray q → pageMapped st.mem kernPgtable q = sharesPage entries q := by
    intro q hq
    rw [Bool.eq_iff_iff, pageMapped_iff hmap hstart hin htables hunmapped h hok hq]
    simp [sharesPage, Written]
  refine (reads_iff_confined hmap h).trans (Confined.congr hmapped _ (fun q hq => ?_) ?_)
  · exact absurd hq List.not_mem_nil
  · intro x hx q hlow hhigh
    obtain ⟨v, hv, rfl⟩ := written_of_freed hx
    have hlt := visitsOf_lt hmap hv
    have hnat := visitsOf_aligned hmap hv
    exact ⟨by omega, by omega⟩

/-- While no allocation fails, the free loop reads page structs that were written only,
exactly when the frames that it frees are confined to them. That is a condition on the
memory map and on `mm_alloc_end`. The free lists then do not depend on what the page array
held. -/
theorem readsWritten_iff (hmap : MemoryMap (2 ^ 46) entries)
    (hstart : PageAligned bootMemAllocStart)
    (hin : ∃ e ∈ entries, e.Available ∧ e.Holds bootMemAllocStart.toNat)
    (htables : KernelTables mem kernPgtable bootMemAllocStart)
    (hunmapped : ArrayUnmapped mem kernPgtable)
    (h : mmPagesAllocatorInit bootMemAllocStart kernPgtable entries mem b = some st)
    (hok : 0 ∉ st.la.returned) :
    ∃ st₀, beforeFree bootMemAllocStart kernPgtable entries (visitsOf entries) mem b = some st₀ ∧
      (ReadsWritten kernPgtable entries st₀ ↔
        Confined (sharesPage entries) (Written entries) []
          (freedFrames entries st₀.la.mmAllocEnd)) ∧
      (ReadsWritten kernPgtable entries st₀ → ∀ b' st',
        mmPagesAllocatorInit bootMemAllocStart kernPgtable entries mem b' = some st' →
          SameFreeLists st.buddy st'.buddy) := by
  obtain ⟨st₀, hbefore, hla, hbuddy⟩ := mmPagesAllocatorInit_cases hmap (by decide) h
  refine ⟨st₀, hbefore, readsWritten_iff_shares hmap hstart hin htables hunmapped hbefore (hla ▸ hok),
    fun hreads b' st' h' => ?_⟩
  obtain ⟨st₀', hbefore', -, hbuddy'⟩ := mmPagesAllocatorInit_cases hmap (by decide) h'
  have hagree := (freeLists_eq_of_reads hbefore hbefore' hreads).links
  rw [← hbuddy, ← hbuddy'] at hagree
  intro k hk xs
  have hhead : freelist k ∈ writtenNodes entries := freelist_mem_writtenNodes hk
  exact ⟨hagree.isRing hhead, hagree.symm.isRing hhead⟩

end Written

/-- The empty root maps no page struct, so that the examples can start from it. -/
theorem zero_arrayUnmapped : ArrayUnmapped (fun _ => 0) 0x1000 := by
  intro q _
  have hread : ∀ a, Mem.read64 (fun _ => 0) a = 0 := by
    intro a
    show ofBytes (fun _ => 0) = 0
    rfl
  rw [pageMapped, mmPgtableGetVaPte, pgtableGetPa, if_pos (hread _)]
  rfl

/-- The entries of `fullMap` fill a page of the page array, so that nothing else is read in
it. -/
theorem readsWritten_iff_fullMap :
    ∃ st, mmPagesAllocatorInit 0x800000 0x1000 fullMap (fun _ => 0) cleared = some st ∧
      ∀ b' st', mmPagesAllocatorInit 0x800000 0x1000 fullMap (fun _ => 0) b' = some st' →
        SameFreeLists st.buddy st'.buddy := by
  obtain ⟨st, hst, hok, hend⟩ := fullMap_run
  obtain ⟨st₀, hbefore, hiff, hsame⟩ := readsWritten_iff fullMap_memoryMap (by decide) fullMap_start
    zeroTables zero_arrayUnmapped hst hok
  obtain ⟨st₁, hbefore', hla, -⟩ := mmPagesAllocatorInit_cases fullMap_memoryMap (by decide) hst
  obtain rfl : st₀ = st₁ := Option.some.inj (hbefore.symm.trans hbefore')
  refine ⟨st, hst, hsame (hiff.mpr ?_)⟩
  rw [← hla, hend]
  decide

/-- Freeing frame `0x810` reads the page struct of frame `0x811`, which is in no entry and was
never written, but shares its page with structs that were. -/
theorem not_always_readsWritten :
    ¬ ∀ (bootMemAllocStart kernPgtable : Word) (entries : List MmapEntry) (mem : Mem) (b : Buddy)
      (st : InitState), MemoryMap (2 ^ 46) entries → PageAligned bootMemAllocStart →
      (∃ e ∈ entries, e.Available ∧ e.Holds bootMemAllocStart.toNat) →
      KernelTables mem kernPgtable bootMemAllocStart → ArrayUnmapped mem kernPgtable →
      beforeFree bootMemAllocStart kernPgtable entries (visitsOf entries) mem b = some st →
      0 ∉ st.la.returned → ReadsWritten kernPgtable entries st := by
  intro hall
  obtain ⟨st, hst, hok, hend⟩ := holeMap_run
  obtain ⟨st₀, hbefore, hla, -⟩ := mmPagesAllocatorInit_cases holeMap_memoryMap (by decide) hst
  have hreads := hall 0x800000 0x1000 holeMap (fun _ => 0) cleared st₀ holeMap_memoryMap (by decide)
    holeMap_start zeroTables zero_arrayUnmapped hbefore (hla ▸ hok)
  rw [readsWritten_iff_shares holeMap_memoryMap (by decide) holeMap_start zeroTables
    zero_arrayUnmapped hbefore (hla ▸ hok), ← hla, hend] at hreads
  exact absurd hreads (by decide)

end SumiOS
