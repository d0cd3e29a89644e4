import SumiOS.Proofs.Slub.Spec
import SumiOS.Proofs.Buddy.Exact

/-!
# `SumiOS.Proofs.Slub.Invariant`: the allocator and the pool

`SlubInv` relates the state of the allocator to a pool: its blocks are in the buddy system,
each cache has the chain of its free objects in memory, and every object lies in a block of
its cache. What the operations do to it is one lemma for each way they go: an object is
handed out, a full cache retires its block, a cache goes on with a new block
(`SlubInv.refill`), and clients take and return blocks.
-/

set_option autoImplicit false

namespace SumiOS

open Lib

/-- The list heads of the buddy system, and of the first `n` caches. -/
def headsBelow (n : Nat) : Set Head :=
  { h | match h with
    | .freelist k => k < MAX_PAGE_ORDER
    | .full i => i < n
    | .partialSlubs i => i < n
    | .list i => i < n }

/-- The list heads of the kernel. -/
abbrev kernelHeads : Set Head := headsBelow NR_KOBJECT_SIZE_TYPE

/-- The kernel's list heads include one free list for each order, which is what the buddy lemmas
ask of a set of heads. -/
theorem hasFreelists_kernelHeads : HasFreelists kernelHeads := fun _ => Iff.rfl

/-- The cache `i` has the block `slub`, and the objects `chain` to hand out. -/
structure CacheRep (m : Mem) (i : Nat) (kc : KmemCache) (slub : Option Int) (chain : List Word) :
    Prop where
  objSize : kc.objSize = BitVec.ofNat 64 (cacheSize i)
  slub : kc.slub = slub
  chain : Chain m kc.freelist chain

/-- The allocator `s` is represented by the pool `P`. The clients hold the blocks `blocks`,
and the objects `used i` of each cache, and all blocks consist of the frames `ram`. -/
structure SlubInv (ram : Set Int) (s : Kmem) (P : Pool) (blocks : List Block)
    (used : Nat → List Word) : Prop where
  blockInv : BlockInv kernelHeads s.buddy.links P.seq (P.out blocks)
  within : ∀ c, c ∈ P.out blocks ∨ Listed P.seq c → c.frames ⊆ ram
  range : ram ⊆ Set.Ico 0 (2 ^ 52)
  cache : ∀ i < NR_KOBJECT_SIZE_TYPE,
    CacheRep s.mem i (s.kmemCacheList i) (P.slub i) (P.chain i)
  slubs : s.slubs = P.slubs
  idle : ∀ i, P.seq (.partialSlubs i) = [] ∧ P.seq (.list i) = []
  full : ∀ i, (P.slub i).toList ++ P.seq (.full i) = P.slubsOf i
  caches : ∀ q ∈ P.slubs, q.1 < NR_KOBJECT_SIZE_TYPE
  member : ∀ i, ∀ x ∈ P.chain i ++ used i, ∃ p, (i, p) ∈ P.slubs ∧ x ∈ chunks i p
  nodup : ∀ i, (P.chain i ++ used i).Nodup

section

variable {ram : Set Int} {s : Kmem} {P : Pool} {blocks : List Block} {used : Nat → List Word}
  {i k : Nat} {p q : Int} {x y : Word} {xs : List Word} {c : Block}

/-! ### What the invariant separates -/

/-- Every slub of the pool counts among the blocks that the page allocator has handed out. -/
theorem Pool.mem_out_of_slubs (h : (i, p) ∈ P.slubs) : slubBlock i p ∈ P.out blocks :=
  List.mem_append_right _ (List.mem_map_of_mem h)

/-- A block whose frames lie below `2 ^ 52` has addresses that fit in a word, so that its bytes can
be computed with. -/
theorem physical_of_frames (h : c.frames ⊆ Set.Ico 0 (2 ^ 52)) : Physical c := by
  have hpos := Block.two_pow_pos c.order
  have hfirst := h (Block.start_mem c)
  have hlast : c.start + 2 ^ c.order - 1 ∈ Set.Ico 0 (2 ^ 52) :=
    h (Block.mem_frames.mpr (by omega))
  exact ⟨hfirst.1, by have := hlast.2; omega⟩

/-- Under the invariant every block, whether handed out or on a free list, is made of frames with
real addresses. -/
theorem SlubInv.physical (hI : SlubInv ram s P blocks used) (c : Block)
    (hc : c ∈ P.out blocks ∨ Listed P.seq c) : Physical c :=
  physical_of_frames ((hI.within c hc).trans hI.range)

/-- In particular the blocks that serve as slubs are. -/
theorem SlubInv.physical_slub (hI : SlubInv ram s P blocks used) (h : (i, p) ∈ P.slubs) :
    Physical (slubBlock i p) := hI.physical _ (Or.inl (Pool.mem_out_of_slubs h))

/-- Two different slubs share no frame, of one cache or of two. -/
theorem SlubInv.slubs_pairwise (hI : SlubInv ram s P blocks used) :
    P.slubs.Pairwise fun a b => (slubBlock a.1 a.2).Apart (slubBlock b.1 b.2) :=
  List.pairwise_map.mp (List.pairwise_append.mp hI.blockInv.tidy.outApart).2.1

/-- Two blocks that the caches took are apart, for they are blocks that are out at the
same time. -/
theorem SlubInv.slubs_apart (hI : SlubInv ram s P blocks used) (h : (i, p) ∈ P.slubs)
    (h' : (k, q) ∈ P.slubs) (hne : (i, p) ≠ (k, q)) :
    (slubBlock i p).Apart (slubBlock k q) := by
  have hsymm : Std.Symm fun a b : Nat × Int =>
      (slubBlock a.1 a.2).Apart (slubBlock b.1 b.2) := ⟨fun _ _ => Or.symm⟩
  exact hI.slubs_pairwise.forall h h' hne

/-- No block is taken twice, so its first frame tells which cache it belongs to. -/
theorem SlubInv.slubs_start (hI : SlubInv ram s P blocks used) (h : (i, p) ∈ P.slubs)
    (h' : (k, p) ∈ P.slubs) : i = k := by
  by_contra hne
  have hapart := hI.slubs_apart h h' (fun e => hne (Prod.mk.inj e).1)
  exact Block.not_apart_of_start_mem (c := slubBlock k p) (Block.start_mem (slubBlock i p)) hapart

/-- No slub is recorded twice for a cache, since a block is not apart from itself. -/
theorem SlubInv.slubsOf_nodup (hI : SlubInv ram s P blocks used) (i : Nat) : (P.slubsOf i).Nodup := by
  have hnodup : P.slubs.Nodup := by
    refine hI.slubs_pairwise.imp fun {a b} hapart e => ?_
    subst e
    exact Block.not_apart_of_start_mem (Block.start_mem (slubBlock a.1 a.2)) hapart
  refine (hnodup.filter _).map_on fun a ha b hb e => ?_
  have ha' : a.1 = i := by simpa using (List.mem_filter.mp ha).2
  have hb' : b.1 = i := by simpa using (List.mem_filter.mp hb).2
  exact Prod.ext (ha'.trans hb'.symm) e

/-- Two objects share no byte, handed out or not, of one cache or of two: they are different chunks
of a slub, or lie in different slubs. -/
theorem SlubInv.disjoint (hI : SlubInv ram s P blocks used) (hx : x ∈ P.chain i ++ used i)
    (hy : y ∈ P.chain k ++ used k) (hne : (i, x) ≠ (k, y)) :
    (chunkRegion i x).Disjoint (chunkRegion k y) := by
  obtain ⟨p, hp, hxp⟩ := hI.member i x hx
  obtain ⟨q, hq, hyq⟩ := hI.member k y hy
  have hi := hI.caches _ hp
  have hk := hI.caches _ hq
  by_cases hpq : (i, p) = (k, q)
  · obtain ⟨rfl, rfl⟩ := Prod.mk.inj hpq
    exact chunks_disjoint hi (hI.physical_slub hp) hxp hyq fun e => hne (by rw [e])
  · exact chunks_disjoint_of_apart hi hk (hI.physical_slub hp) (hI.physical_slub hq)
      (hI.slubs_apart hp hq hpq) hxp hyq

/-- An object shares no byte with a block that a client holds. -/
theorem SlubInv.disjoint_block (hI : SlubInv ram s P blocks used) (hc : c ∈ blocks)
    (hx : x ∈ P.chain i ++ used i) : (blockRegion c).Disjoint (chunkRegion i x) := by
  obtain ⟨p, hp, hxp⟩ := hI.member i x hx
  have hout := List.pairwise_append.mp hI.blockInv.tidy.outApart
  have hapart := hout.2.2 c hc _ (List.mem_map_of_mem hp)
  intro z hz hz'
  exact disjoint_of_apart (hI.physical c (Or.inl (List.mem_append_left _ hc)))
    (hI.physical_slub hp) hapart z hz
    (chunk_subset_block (hI.caches _ hp) (hI.physical_slub hp) hxp hz')

/-! ### An object is handed out -/

/-- Reading back the cache that was just set. -/
theorem setCache_self (s : Kmem) (i : Nat) (kc : KmemCache) :
    (setCache s i kc).kmemCacheList i = kc := Function.update_self ..

/-- Setting one cache leaves the record of every other cache as it was. -/
theorem setCache_of_ne {kc : KmemCache} (h : k ≠ i) :
    (setCache s i kc).kmemCacheList k = s.kmemCacheList k := Function.update_of_ne h ..

/-- The objects that were handed out, with one more of the cache `i`. -/
def handOut (used : Nat → List Word) (i : Nat) (x : Word) : Nat → List Word :=
  Function.update used i (x :: used i)

/-- The object leaves the chain for the objects that were handed out. -/
theorem pop_perm (hchain : P.chain i = x :: xs) (k : Nat) :
    ((P.pop i xs).chain k ++ handOut used i x k).Perm (P.chain k ++ used k) := by
  by_cases e : k = i
  · subst e
    simp only [Pool.pop, handOut, Function.update_self, hchain]
    exact List.perm_middle
  · simp only [Pool.pop, handOut, Function.update_of_ne e]
    exact List.Perm.refl _

/-- Handing out the head of a cache's free list keeps the invariant: the object moves from the
chain to the objects in use, and nothing else changes. -/
theorem SlubInv.pop (hI : SlubInv ram s P blocks used) (hi : i < NR_KOBJECT_SIZE_TYPE)
    (hchain : P.chain i = x :: xs) :
    SlubInv ram (setCache s i { s.kmemCacheList i with freelist := s.mem.read64 x })
      (P.pop i xs) blocks (handOut used i x) where
  blockInv := hI.blockInv
  within := hI.within
  range := hI.range
  cache := by
    intro k hk
    by_cases e : k = i
    · have hc := (hI.cache i hi).chain
      rw [hchain] at hc
      rw [e, setCache_self]
      simp only [Pool.pop, Function.update_self]
      exact ⟨(hI.cache i hi).objSize, (hI.cache i hi).slub, hc.2.2⟩
    · rw [setCache_of_ne e]
      simp only [Pool.pop, Function.update_of_ne e]
      exact hI.cache k hk
  slubs := hI.slubs
  idle := hI.idle
  full := hI.full
  caches := hI.caches
  member k y hy := hI.member k y ((pop_perm hchain k).mem_iff.mp hy)
  nodup k := (pop_perm hchain k).nodup_iff.mpr (hI.nodup k)

/-! ### A block goes to the full list -/

/-- The state after the cache put its block on the full list. -/
def retireSlub (s : Kmem) (i : Nat) : Kmem :=
  let kc := s.kmemCacheList i
  let links :=
    match kc.slub with
    | some slub => listAddNext s.buddy.links (SumiOS.full i) (.page slub)
    | none => s.buddy.links
  setCache { s with buddy := { s.buddy with links := links } } i { kc with slub := none }

/-- Without a current slub there is nothing to retire, and the state stays. -/
theorem retireSlub_of_none (h : (s.kmemCacheList i).slub = none) : retireSlub s i = s := by
  have hkc : ({ s.kmemCacheList i with slub := none } : KmemCache) = s.kmemCacheList i := by
    rw [← h]
  rw [retireSlub]
  simp only [h, hkc]
  rw [setCache, Function.update_eq_self]

/-- With a current slub, retiring puts it on the cache's list of full slubs and forgets it as the
current one. -/
theorem retireSlub_of_some (h : (s.kmemCacheList i).slub = some p) :
    retireSlub s i = setCache
      { s with buddy :=
          { s.buddy with links := listAddNext s.buddy.links (SumiOS.full i) (.page p) } }
      i { s.kmemCacheList i with slub := none } := by
  rw [retireSlub]
  simp only [h]

/-- The lists that are not free lists hold blocks of the caches. -/
theorem SlubInv.mem_full (hI : SlubInv ram s P blocks used) (hq : q ∈ P.seq (.full k)) :
    (k, q) ∈ P.slubs := by
  rw [← Pool.mem_slubsOf, ← hI.full k]
  exact List.mem_append_right _ hq

/-- The block that a cache takes objects from is on no list, neither a free list nor one of the
caches, until it is retired. -/
theorem SlubInv.slub_unlisted (hI : SlubInv ram s P blocks used) (hslub : P.slub i = some p) :
    (i, p) ∈ P.slubs ∧ ∀ h ∈ kernelHeads, p ∉ P.seq h := by
  have hfull := hI.full i
  rw [hslub, Option.toList_some, List.singleton_append] at hfull
  have hmem : (i, p) ∈ P.slubs := by
    rw [← Pool.mem_slubsOf, ← hfull]
    exact List.mem_cons_self
  refine ⟨hmem, fun h hh hp => ?_⟩
  cases h with
  | freelist k =>
      have hapart := hI.blockInv.tidy.between _ (Pool.mem_out_of_slubs hmem) ⟨p, k⟩ ⟨hh, hp⟩
      exact Block.not_apart_of_start_mem (c := ⟨p, k⟩) (Block.start_mem (slubBlock i p)) hapart
  | full k =>
      obtain rfl := hI.slubs_start hmem (hI.mem_full hp)
      have hnodup := hI.slubsOf_nodup i
      rw [← hfull] at hnodup
      exact (List.nodup_cons.mp hnodup).1 hp
  | partialSlubs k => simp [(hI.idle k).1] at hp
  | list k => simp [(hI.idle k).2] at hp

/-- Whether a block is listed depends on the free lists alone, so a change of the slub lists does
not matter to it. -/
theorem listed_congr {seq seq' : Head → List Int}
    (h : ∀ k, seq' (.freelist k) = seq (.freelist k)) : Listed seq' c ↔ Listed seq c := by
  rw [Listed, Listed, h]

/-- `Tidy` is about the free lists, so that it holds for any sequences with the same ones. -/
theorem Tidy.congr {seq seq' : Head → List Int} {out : List Block} (ht : Tidy seq out)
    (h : ∀ k, seq' (.freelist k) = seq (.freelist k)) : Tidy seq' out where
  outApart := ht.outApart
  freeApart c d hc hd := ht.freeApart c d ((listed_congr h).mp hc) ((listed_congr h).mp hd)
  between c hc d hd := ht.between c hc d ((listed_congr h).mp hd)

/-- Retiring the current slub keeps the invariant: the slub changes the list that records it, and
no object changes hands. -/
theorem SlubInv.retire (hI : SlubInv ram s P blocks used) (hi : i < NR_KOBJECT_SIZE_TYPE) :
    SlubInv ram (retireSlub s i) (P.retire i) blocks used := by
  have hkc := hI.cache i hi
  cases hslub : P.slub i with
  | none =>
      rw [Pool.retire_of_none hslub, retireSlub_of_none (hkc.slub.trans hslub)]
      exact hI
  | some p =>
      obtain ⟨hmem, hunlisted⟩ := hI.slub_unlisted hslub
      rw [Pool.retire_of_some hslub, retireSlub_of_some (hkc.slub.trans hslub)]
      have hother : ∀ h ≠ Head.full i,
          Function.update P.seq (.full i) (p :: P.seq (.full i)) h = P.seq h :=
        fun h hne => Function.update_of_ne hne _ _
      have hfree : ∀ k, Function.update P.seq (.full i) (p :: P.seq (.full i)) (.freelist k)
          = P.seq (.freelist k) := fun k => hother _ (by simp)
      refine ⟨⟨hI.blockInv.rep.add hi hunlisted, hI.blockInv.tidy.congr hfree, ?_⟩,
        fun c hc => hI.within c (hc.imp id (listed_congr hfree).mp), hI.range, ?_, hI.slubs,
        fun k => ⟨(hother _ (by simp)).trans (hI.idle k).1, (hother _ (by simp)).trans (hI.idle k).2⟩,
        ?_, hI.caches, hI.member, hI.nodup⟩
      · -- The lists that are not free lists gain a block of the cache.
        intro h hh hne q hq
        by_cases e : h = .full i
        · subst e
          simp only [Function.update_self, List.mem_cons] at hq
          cases hq with
          | inl hq => exact ⟨_, Pool.mem_out_of_slubs hmem, hq.symm⟩
          | inr hq => exact hI.blockInv.held (.full i) hi (by simp) q hq
        · simp only [hother h e] at hq
          exact hI.blockInv.held h hh hne q hq
      · -- Only the cache in question has its block taken away.
        intro k hk
        by_cases e : k = i
        · rw [e, setCache_self]
          simp only [Function.update_self]
          exact ⟨hkc.objSize, rfl, hkc.chain⟩
        · rw [setCache_of_ne e]
          simp only [Function.update_of_ne e]
          exact hI.cache k hk
      · intro k
        have hfull := hI.full k
        by_cases e : k = i
        · subst e
          rw [hslub] at hfull
          simp only [Function.update_self]
          exact hfull
        · have e' : Head.full k ≠ .full i := by simpa using e
          simp only [Function.update_of_ne e, Function.update_of_ne e']
          exact hfull

/-! ### A block is taken -/

/-- The invariant of the buddy system does not depend on the order in which the handed-out blocks
are named. -/
theorem BlockInv.perm {H : Set Head} {l : Links Node} {seq : Head → List Int}
    {out out' : List Block} (hB : BlockInv H l seq out) (h : out.Perm out') :
    BlockInv H l seq out' where
  rep := hB.rep
  tidy :=
    { outApart := hB.tidy.outApart.perm h fun h => Block.apart_comm.mp h
      freeApart := hB.tidy.freeApart
      between := fun c hc => hB.tidy.between c (h.mem_iff.mpr hc) }
  held := by
    intro a ha hne q hq
    obtain ⟨c, hc, hcq⟩ := hB.held a ha hne q hq
    exact ⟨c, h.mem_iff.mp hc, hcq⟩

/-- The block that is taken and the rest of the block that is split are in the block that
was free. -/
theorem SlubInv.within_split (hI : SlubInv ram s P blocks used) {j : Nat} {ps : List Int}
    (hkj : k ≤ j) (hj : j < MAX_PAGE_ORDER) (hps : P.seq (.freelist j) = p :: ps)
    (hc : c = ⟨p, k⟩ ∨ c ∈ P.out blocks ∨ Listed (splitSeq P.seq p k j) c) : c.frames ⊆ ram := by
  have hpj : Listed P.seq ⟨p, j⟩ := ⟨hj, by rw [hps]; exact List.mem_cons_self⟩
  have hbig : (Block.mk p j).frames ⊆ ram := hI.within _ (Or.inr hpj)
  rcases hc with rfl | hc | hc
  · exact fun x hx => hbig ((Block.mem_frames_split hkj).mpr (Or.inl hx))
  · exact hI.within c (Or.inl hc)
  · rcases (listed_splitSeq hasFreelists_kernelHeads hI.blockInv.rep hj hps).mp hc with
      ⟨hc, -⟩ | ⟨m, hkm, hm, rfl⟩
    · exact hI.within c (Or.inr hc)
    · exact fun x hx => hbig ((Block.mem_frames_split hkj).mpr (Or.inr ⟨m, hkm, hm, hx⟩))

/-- The objects of a block that is apart from all others are new. -/
theorem SlubInv.disjoint_new (hI : SlubInv ram s P blocks used) (hi : i < NR_KOBJECT_SIZE_TYPE)
    (hp : Physical (slubBlock i p))
    (hnew : ∀ c ∈ P.out blocks, (slubBlock i p).Apart c) (hx : x ∈ chunks i p)
    (hy : y ∈ P.chain k ++ used k) : (chunkRegion i x).Disjoint (chunkRegion k y) := by
  obtain ⟨q, hq, hyq⟩ := hI.member k y hy
  exact chunks_disjoint_of_apart hi (hI.caches _ hq) hp (hI.physical_slub hq)
    (hnew _ (Pool.mem_out_of_slubs hq)) hx hyq

/-- An object holds its own first byte, so that two objects without a common byte have different
addresses. -/
theorem chunkRegion_holds (hi : i < NR_KOBJECT_SIZE_TYPE) (x : Word) :
    (chunkRegion i x).Holds x := by
  have hmin := (perSlub_spec i hi).2.2.1
  show (x - x).toNat < cacheSize i
  rw [BitVec.sub_self]
  show 0 < _
  omega

/-- After a refill the cache owns the new slub besides the ones it had. -/
theorem Pool.slubsOf_refill_self : (P.refill i p).slubsOf i = p :: P.slubsOf i := by
  simp [Pool.refill, Pool.slubsOf]

/-- A refill of one cache leaves the slubs of every other cache alone. -/
theorem Pool.slubsOf_refill_of_ne (h : k ≠ i) : (P.refill i p).slubsOf k = P.slubsOf k := by
  simp [Pool.refill, Pool.slubsOf, h.symm]

/-- The objects of the new block are those of the cache, and the other caches keep theirs. -/
theorem SlubInv.refill_cache (hI : SlubInv ram s P blocks used) (b : Buddy) (seq : Head → List Int)
    (hi : i < NR_KOBJECT_SIZE_TYPE) (hp : Physical (slubBlock i p))
    (hnew : ∀ c ∈ P.out blocks, (slubBlock i p).Apart c) (hk : k < NR_KOBJECT_SIZE_TYPE) :
    let s' := setCache (grown s i b p) i
      { s.kmemCacheList i with slub := some p, freelist := slubAddr p }
    let P' := (P.relist seq).refill i p
    CacheRep s'.mem k (s'.kmemCacheList k) (P'.slub k) (P'.chain k) := by
  intro s' P'
  by_cases e : k = i
  · subst e
    have hlinks := chain_thread (m := s.mem) (chunks_sep hi hp)
    rw [chunks_headD hi] at hlinks
    simp only [s', P', setCache_self, Pool.refill, Function.update_self]
    exact ⟨(hI.cache k hk).objSize, rfl, hlinks⟩
  · -- The links of the new objects keep the chains of the other caches.
    have hkeep : ∀ y ∈ P.chain k, (thread s.mem (chunks i p)).read64 y = s.mem.read64 y :=
      fun y hy => read64_thread fun x hx => sepBytes_of_disjoint hi hk
        (hI.disjoint_new hi hp hnew hx (List.mem_append_left _ hy))
    have hkc := hI.cache k hk
    simp only [s', P', setCache_of_ne e, Pool.refill, Function.update_of_ne e]
    exact ⟨hkc.objSize, hkc.slub, hkc.chain.congr hkeep⟩

/-- After a refill every object, free or in use, still lies in a slub that its own cache owns. -/
theorem SlubInv.refill_member (hI : SlubInv ram s P blocks used) (seq : Head → List Int)
    (hx : x ∈ ((P.relist seq).refill i p).chain k ++ used k) :
    ∃ q, (k, q) ∈ ((P.relist seq).refill i p).slubs ∧ x ∈ chunks k q := by
  have hold : x ∈ P.chain k ++ used k →
      ∃ q, (k, q) ∈ ((P.relist seq).refill i p).slubs ∧ x ∈ chunks k q := fun hx => by
    obtain ⟨q, hq, hxq⟩ := hI.member k x hx
    exact ⟨q, List.mem_cons_of_mem _ hq, hxq⟩
  by_cases e : k = i
  · subst e
    simp only [Pool.refill, Function.update_self] at hx
    cases List.mem_append.mp hx with
    | inl h => exact ⟨p, List.mem_cons_self, List.takeWhile_subset _ h⟩
    | inr h => exact hold (List.mem_append_right _ h)
  · simp only [Pool.refill, Function.update_of_ne e] at hx
    exact hold hx

/-- After a refill no object occurs twice: the new slub is apart from all blocks that were out
before, so its objects are new. -/
theorem SlubInv.refill_nodup (hI : SlubInv ram s P blocks used) (seq : Head → List Int)
    (hi : i < NR_KOBJECT_SIZE_TYPE) (hchain : P.chain i = []) (hp : Physical (slubBlock i p))
    (hnew : ∀ c ∈ P.out blocks, (slubBlock i p).Apart c) (k : Nat) :
    (((P.relist seq).refill i p).chain k ++ used k).Nodup := by
  by_cases e : k = i
  · subst e
    have hold := hI.nodup k
    rw [hchain, List.nil_append] at hold
    simp only [Pool.refill, Function.update_self]
    refine List.nodup_append.mpr ⟨(chunks_nodup hi hp).sublist (List.takeWhile_sublist _), hold,
      fun x hx y hy e => ?_⟩
    -- A new object that was handed out before would share its bytes with itself.
    subst e
    exact hI.disjoint_new hi hp hnew (List.takeWhile_subset _ hx) (List.mem_append_right _ hy) x
      (chunkRegion_holds hi x) (chunkRegion_holds hi x)
  · simp only [Pool.refill, Function.update_of_ne e]
    exact hI.nodup k

/-- A cache that has nothing left goes on with a new block: the block moves from the free lists to
the slubs, its objects become the chain, and no object of it was in use before. -/
theorem SlubInv.refill (hI : SlubInv ram s P blocks used) (pages : Int → Page)
    (hi : i < NR_KOBJECT_SIZE_TYPE) (hchain : P.chain i = []) (hslub : P.slub i = none) {j : Nat}
    {ps : List Int} {links : Links Node} (hkj : cacheOrder i ≤ j) (hj : j < MAX_PAGE_ORDER)
    (hps : P.seq (.freelist j) = p :: ps)
    (hB : BlockInv kernelHeads links (splitSeq P.seq p (cacheOrder i) j)
      (slubBlock i p :: P.out blocks)) :
    SlubInv ram
      (setCache (grown s i ⟨links, pages⟩ p) i
        { s.kmemCacheList i with slub := some p, freelist := slubAddr p })
      ((P.relist (splitSeq P.seq p (cacheOrder i) j)).refill i p) blocks used := by
  have hwithin : ∀ c, c = slubBlock i p ∨ c ∈ P.out blocks ∨
      Listed (splitSeq P.seq p (cacheOrder i) j) c → c.frames ⊆ ram :=
    fun c => hI.within_split hkj hj hps
  have hp := physical_of_frames ((hwithin _ (Or.inl rfl)).trans hI.range)
  -- The new block was on a free list, so it is apart from what is in use.
  have hnew : ∀ c ∈ P.out blocks, (slubBlock i p).Apart c :=
    (List.pairwise_cons.mp hB.tidy.outApart).1
  have hout : (slubBlock i p :: P.out blocks).Perm
      (((P.relist (splitSeq P.seq p (cacheOrder i) j)).refill i p).out blocks) :=
    List.perm_middle.symm
  refine ⟨hB.perm hout, ?_, hI.range, fun k hk => hI.refill_cache _ _ hi hp hnew hk,
    congrArg _ hI.slubs, hI.idle, ?_, ?_, fun k x hx => hI.refill_member _ hx,
    hI.refill_nodup _ hi hchain hp hnew⟩
  · intro c hc
    rw [← hout.mem_iff, List.mem_cons, or_assoc] at hc
    exact hwithin c hc
  · intro k
    have hfull := hI.full k
    by_cases e : k = i
    · subst e
      -- The cache had no block, so the new one is the first of its list.
      rw [hslub] at hfull
      rw [Pool.slubsOf_refill_self]
      simp only [Pool.refill, Function.update_self]
      exact congrArg (p :: ·) hfull
    · rw [Pool.slubsOf_refill_of_ne e]
      simp only [Pool.refill, Function.update_of_ne e]
      exact hfull
  · intro q hq
    cases List.mem_cons.mp hq with
    | inl h => exact h ▸ hi
    | inr h => exact hI.caches q h

/-- A client takes a block, on the allocators and on the pool alike, and the block is apart from
everything that was out before. -/
theorem SlubInv.allocPages (hI : SlubInv ram s P blocks used) (k : Nat) :
    (allocPages s.buddy k = (s.buddy, none) ∧ P.take k = (P, none)) ∨
    ∃ b P' p, allocPages s.buddy k = (b, some p) ∧ P.take k = (P', some p) ∧
      SlubInv ram { s with buddy := b } P' (⟨p, k⟩ :: blocks) used := by
  rcases hI.blockInv.alloc hasFreelists_kernelHeads k with
    ⟨heq, hempty⟩ | ⟨j, p, ps, links, hkj, hj, hps, hempty, heq, hB⟩
  · exact Or.inl ⟨heq, Pool.take_of_empty hempty⟩
  · refine Or.inr ⟨_, _, p, heq, Pool.take_of_first hkj hj hps hempty, hB, fun c hc => ?_, hI.range,
      hI.cache, hI.slubs, hI.idle, hI.full, hI.caches, hI.member, hI.nodup⟩
    have hc' : c = ⟨p, k⟩ ∨ c ∈ P.out blocks ∨ Listed (splitSeq P.seq p k j) c := by
      rw [← or_assoc, ← List.mem_cons]
      exact hc
    exact hI.within_split hkj hj hps hc'

/-! ### A client writes -/

/-- A byte that is written outside an object keeps its link. -/
theorem read64_update_of_not_holds {m : Mem} {v : BitVec 8} (hi : i < NR_KOBJECT_SIZE_TYPE)
    (h : ¬ (chunkRegion i x).Holds y) :
    Mem.read64 (Function.update m y v) x = m.read64 x := by
  have hmin := (perSlub_spec i hi).2.2.1
  refine read64_congr fun j hj => Function.update_of_ne (fun e => h ?_) _ _
  show (y - x).toNat < cacheSize i
  have hj' : (y - x).toNat = j := by
    rw [← e]
    bv_omega
  omega

/-- A write to a byte that a client holds keeps the chains, because the links lie in objects that
nobody holds, and those share no byte with what is held. -/
theorem SlubInv.write (hI : SlubInv ram s P blocks used) {a : Word} (v : BitVec 8)
    (ha : (∃ c ∈ blocks, (blockRegion c).Holds a) ∨
      ∃ k, ∃ y ∈ used k, (chunkRegion k y).Holds a) :
    SlubInv ram { s with mem := Function.update s.mem a v } P blocks used where
  blockInv := hI.blockInv
  within := hI.within
  range := hI.range
  cache := by
    intro i hi
    have hkc := hI.cache i hi
    refine ⟨hkc.objSize, hkc.slub, hkc.chain.congr fun x hx =>
      read64_update_of_not_holds hi fun hxa => ?_⟩
    have hx' : x ∈ P.chain i ++ used i := List.mem_append_left _ hx
    rcases ha with ⟨c, hc, hca⟩ | ⟨k, y, hy, hya⟩
    · exact hI.disjoint_block hc hx' a hca hxa
    · have hne : (k, y) ≠ (i, x) := by
        intro e
        obtain ⟨rfl, rfl⟩ := Prod.mk.inj e
        exact (List.nodup_append.mp (hI.nodup k)).2.2 y hx y hy rfl
      exact hI.disjoint (List.mem_append_right _ hy) hx' hne a hya hxa
  slubs := hI.slubs
  idle := hI.idle
  full := hI.full
  caches := hI.caches
  member := hI.member
  nodup := hI.nodup

end

/-! ### `kmem_cache_init` -/

section Init

variable {H H' : Set Head} {l : Links Node} {seq : Head → List Int} {h : Head}

/-- A representation of many lists is one of any part of them. -/
theorem Rep.mono (hr : Rep H l seq) (hsub : H' ⊆ H) : Rep H' l seq :=
  Rings.mono hr (Set.image_mono hsub)

/-- `list_head_init` of a head that was none before adds an empty list, since the sequence of that
head was empty already. -/
theorem Rep.listHeadInit (hr : Rep H l seq) (hempty : seq h = []) :
    Rep (insert h H) (listHeadInit l (.head h)) seq := by
  have hnone : ∀ n ∈ Node.head '' H, Node.head h ∉ nodeSeq seq n := by
    rintro n ⟨h', -, rfl⟩
    simp [nodeSeq]
  have hnew := Rings.insert_head hr hnone (isRing_listHeadInit l _) fun _ ha => listHeadInit_keeps l ha
  rw [← Set.image_insert_eq] at hnew
  -- The sequence of the new head was empty already.
  refine hnew.congr fun n _ => ?_
  by_cases e : n = .head h
  · rw [e, Function.update_self]
    simp [nodeSeq, hempty]
  · rw [Function.update_of_ne e]

end Init

/-- The state after the loop of `kmem_cache_init` set the first `n` caches up. -/
structure InitInv (pages : Nat → List Int) (n : Nat) (r : Kmem × Word) : Prop where
  rep : Rep (headsBelow n) r.1.buddy.links (seqOf pages)
  origSz : r.2 = BitVec.ofNat 64 (cacheSize n)
  caches : ∀ i < n, r.1.kmemCacheList i = ⟨BitVec.ofNat 64 (cacheSize i), none, 0⟩
  slubs : r.1.slubs = []

section Start

variable {s : Kmem} {pages : Nat → List Int}

/-- Every round makes the three heads of one cache, and gives it its size. -/
theorem InitInv.step {n : Nat} {r : Kmem × Word} (hI : InitInv pages n r) :
    InitInv pages (n + 1) (initCache r n) where
  rep := by
    have hpart := hI.rep.listHeadInit (h := .partialSlubs n) rfl
    have hfull := hpart.listHeadInit (h := .full n) rfl
    have hlist := hfull.listHeadInit (h := .list n) rfl
    -- The heads of the caches up to this one are those before and the three new ones.
    refine hlist.mono fun h hh => ?_
    cases h with
    | freelist k => exact Or.inr (Or.inr (Or.inr hh))
    | full k =>
        cases Nat.lt_succ_iff_lt_or_eq.mp hh with
        | inl hk => exact Or.inr (Or.inr (Or.inr hk))
        | inr hk => exact Or.inr (Or.inl (by rw [hk]))
    | partialSlubs k =>
        cases Nat.lt_succ_iff_lt_or_eq.mp hh with
        | inl hk => exact Or.inr (Or.inr (Or.inr hk))
        | inr hk => exact Or.inr (Or.inr (Or.inl (by rw [hk])))
    | list k =>
        cases Nat.lt_succ_iff_lt_or_eq.mp hh with
        | inl hk => exact Or.inr (Or.inr (Or.inr hk))
        | inr hk => exact Or.inl (by rw [hk])
  origSz := by
    have hdouble : cacheSize (n + 1) = cacheSize n * 2 := by
      rw [cacheSize, cacheSize, Nat.pow_succ, Nat.mul_assoc]
    show r.2 * 2 = _
    rw [hI.origSz, hdouble, BitVec.ofNat_mul]
    rfl
  caches := by
    intro i hi
    by_cases e : i = n
    · subst e
      refine (setCache_self _ i _).trans ?_
      rw [hI.origSz]
    · exact (setCache_of_ne e).trans (hI.caches i (by omega))
  slubs := hI.slubs

/-- `kmem_cache_init` on a sound buddy state ends with every cache empty and all its list heads
initialised, the state from which all slub runs start. -/
theorem kmemCacheInit_spec (hS : Sound s.buddy pages) :
    ∃ r, InitInv pages NR_KOBJECT_SIZE_TYPE r ∧ kmemCacheInit s = r.1 := by
  have hstart : InitInv pages 0 ({ s with slubs := [] }, 16) :=
    { rep := hS.rep.mono fun h hh => by
        cases h with
        | freelist k => exact ⟨k, hh, rfl⟩
        | full k => exact absurd hh (Nat.not_lt_zero k)
        | partialSlubs k => exact absurd hh (Nat.not_lt_zero k)
        | list k => exact absurd hh (Nat.not_lt_zero k)
      origSz := rfl
      caches := fun i hi => absurd hi (Nat.not_lt_zero i)
      slubs := rfl }
  have hrounds : ∀ n, InitInv pages n
      ((List.range n).foldl initCache ({ s with slubs := [] }, 16)) := by
    intro n
    induction n with
    | zero => exact hstart
    | succ n ih =>
        rw [List.range_succ, List.foldl_append]
        exact ih.step
  exact ⟨_, hrounds _, rfl⟩

/-- The pool at the start: the caches have nothing. -/
def Pool.start (pages : Nat → List Int) : Pool := ⟨seqOf pages, fun _ => none, fun _ => [], []⟩

/-- `kmem_cache_init` on a sound buddy system establishes the invariant, with no slub and no object
in use and the free lists as they were. -/
theorem slubInv_init (hS : Sound s.buddy pages) (hphys : ∀ c ∈ blocksOf pages, Physical c) :
    SlubInv (framesOf pages) (kmemCacheInit s) (Pool.start pages) [] (fun _ => []) := by
  obtain ⟨r, hr, heq⟩ := kmemCacheInit_spec hS
  rw [heq]
  exact
    { blockInv :=
        { rep := hr.rep
          tidy := hS.blocks.tidy
          held := by
            intro h hh hne q hq
            -- Nothing is held yet: the lists that are not free lists are all empty.
            cases h with
            | freelist k => exact absurd rfl (hne k)
            | full k => exact absurd hq List.not_mem_nil
            | partialSlubs k => exact absurd hq List.not_mem_nil
            | list k => exact absurd hq List.not_mem_nil }
      within := by
        intro c hc
        cases hc with
        | inl hc => exact absurd hc List.not_mem_nil
        | inr hc => exact fun x hx => ⟨c, hc, hx⟩
      range := by
        intro x hx
        obtain ⟨c, hc, hmem⟩ := hx
        obtain ⟨hlow, hhigh⟩ := hphys c hc
        exact ⟨hlow.trans hmem.1, hmem.2.trans_le hhigh⟩
      cache := by
        intro i hi
        rw [hr.caches i hi]
        exact ⟨rfl, rfl, rfl⟩
      slubs := hr.slubs
      idle := fun i => ⟨rfl, rfl⟩
      full := fun i => rfl
      caches := fun q hq => absurd hq List.not_mem_nil
      member := fun i x hx => absurd hx List.not_mem_nil
      nodup := fun i => List.nodup_nil }

end Start

end SumiOS
