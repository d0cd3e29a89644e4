import Mathlib.Data.List.TakeWhile
import SumiOS.Proofs.Slub.Objects

/-!
# `SumiOS.Proofs.Slub.Exhausted`: how far the blocks of a cache go

A cache takes a new block only when the chain is empty, so it has used all blocks but the
last one up. `Counted` says this in numbers, for the blocks that the cache took, the objects
that it handed out and the chain: `Heap.Counts.step` is the step, and `Heap.Counts.run` a
run of the clients.

`SlubInv.call` says everything a call of `kmem_cache_alloc` can do. It fails only when the
chain is empty and the buddy system has no block that is large enough. `UsesSlubsUp` is what this
comes to for a state of the allocators, and `kmalloc_exhausts` says that it holds all along a
run, when no frame of a free block is at NULL.
-/

set_option autoImplicit false

namespace SumiOS

open Lib

section

variable {ram : Set Int} {s : Kmem} {P : Pool} {blocks : List Block} {used : Nat → List Word}
  {i : Nat} {p : Int} {x : Word}

/-! ### A call -/

/-- A block without the frame at NULL has no object at NULL. -/
theorem chunk_ne_zero (hi : i < NR_KOBJECT_SIZE_TYPE) (hp : Physical (slubBlock i p))
    (hnull : ∀ q ∈ (slubBlock i p).frames, slubAddr q ≠ 0) (hx : x ∈ chunks i p) : x ≠ 0 := by
  rintro rfl
  have hheld := chunk_subset_block hi hp hx (chunkRegion_holds hi 0)
  rw [holds_slubBlock hp] at hheld
  have hphys : physOf 0 = 4096 * 0x778000000 := by decide
  rw [hphys] at hheld
  exact hnull 0x778000000 (Block.mem_mk.mpr (by omega)) (by decide)

/-- In a block no object of which is at address zero, all objects are fresh: the chain of a new
slub is the whole list of its chunks. -/
theorem freshObjects_eq (hi : i < NR_KOBJECT_SIZE_TYPE) (hp : Physical (slubBlock i p))
    (hnull : ∀ q ∈ (slubBlock i p).frames, slubAddr q ≠ 0) : freshObjects i p = chunks i p :=
  List.takeWhile_eq_self_iff.mpr fun _ hx => decide_eq_true (chunk_ne_zero hi hp hnull hx)

/-- Everything a call of `kmem_cache_alloc` can do, when no frame is at NULL: it hands out the
first object of the chain, or that of a new block, or it fails because no block is large enough. -/
theorem SlubInv.call (hI : SlubInv ram s P blocks used) (hi : i < NR_KOBJECT_SIZE_TYPE)
    (hnull : ∀ q ∈ ram, slubAddr q ≠ 0) :
    (∃ x xs s', P.chain i = x :: xs ∧ x ≠ 0 ∧ SumiOS.kmemCacheAlloc i redoBound s = some (s', x) ∧
      SlubInv ram s' (P.pop i xs) blocks (handOut used i x)) ∨
    (P.chain i = [] ∧ P.Exhausted i ∧
      SumiOS.kmemCacheAlloc i redoBound s = some (retireSlub s i, 0)) ∨
    ∃ seq p x xs s', P.chain i = [] ∧ ¬ P.Exhausted i ∧ chunks i p = x :: xs ∧ x ≠ 0 ∧
      SumiOS.kmemCacheAlloc i redoBound s = some (s', x) ∧
      SlubInv ram s' ((((P.retire i).relist seq).refill i p).pop i xs) blocks (handOut used i x) := by
  rcases hI.round hi 2 with h | ⟨hc, hex, -, heq⟩ | ⟨seq, s₁, p, hc, hex, -, heq, hI₁⟩
  · exact Or.inl h
  · exact Or.inr (Or.inl ⟨hc, hex, heq⟩)
  · have hmem : (i, p) ∈ (((P.retire i).relist seq).refill i p).slubs := List.mem_cons_self
    have hfresh := freshObjects_eq hi (hI₁.physical_slub hmem) fun q hq =>
      hnull q (hI₁.within _ (Or.inl (Pool.mem_out_of_slubs hmem)) hq)
    have hchain := Pool.refill_chain ((P.retire i).relist seq) i p
    -- The new block has an object, so the next round hands one out.
    rw [hfresh] at hchain
    rcases hI₁.round hi 1 with ⟨x, xs, s', hc₁, hx, heq₁, hI'⟩ | ⟨hc₁, -⟩ | ⟨seq', s', p', hc₁, -⟩
    · exact Or.inr (Or.inr
        ⟨seq, p, x, xs, s', hc, hex, hchain.symm.trans hc₁, hx, heq.trans heq₁, hI'⟩)
    · exact absurd (hchain.symm.trans hc₁) (chunks_ne_nil hi)
    · exact absurd (hchain.symm.trans hc₁) (chunks_ne_nil hi)

/-! ### Counting -/

/-- A cache with `m` objects in a block took the blocks `taken`, handed `n` objects out and
has the objects `chain`. `failed` says that a call found nothing. -/
structure Counted (m n : Nat) (taken : List Int) (slub : Option Int) (chain : List Word)
    (failed : Prop) : Prop where
  filled : taken.length * m = n + chain.length
  rest : chain.length < m
  current : slub = none → chain = [] ∧ (taken = [] ∨ failed)

variable {m n : Nat} {taken : List Int} {slub : Option Int} {chain xs : List Word}
  {failed failed' : Prop}

/-- The count says about failure only that one may have happened, so a later failure does not
disturb it. -/
theorem Counted.mono (h : Counted m n taken slub chain failed) (hfailed : failed → failed') :
    Counted m n taken slub chain failed' :=
  ⟨h.filled, h.rest, fun hs => ⟨(h.current hs).1, (h.current hs).2.imp id hfailed⟩⟩

/-- An object of the chain is handed out: one more is in use and one fewer is left. -/
theorem Counted.pop (h : Counted m n taken slub (x :: xs) failed) :
    Counted m (n + 1) taken slub xs failed where
  filled := by
    have hfilled := h.filled
    rw [List.length_cons] at hfilled
    omega
  rest := Nat.lt_of_succ_lt h.rest
  current hs := absurd (h.current hs).1 (List.cons_ne_nil _ _)

/-- The chain is empty, and the first object of a new block is handed out. -/
theorem Counted.refill (h : Counted m n taken slub [] failed) (hlen : (x :: xs).length = m) :
    Counted m (n + 1) (p :: taken) (some p) xs failed where
  filled := by
    have hfilled := h.filled
    rw [List.length_cons] at hlen
    rw [List.length_cons, Nat.succ_mul, hfilled, ← hlen, List.length_nil]
    omega
  rest := by
    rw [← hlen]
    exact Nat.lt_succ_self _
  current hs := by simp at hs

/-- A call finds nothing. -/
theorem Counted.fail (h : Counted m n taken slub [] failed) (hfailed : failed') :
    Counted m n taken none [] failed' := ⟨h.filled, h.rest, fun _ => ⟨rfl, Or.inr hfailed⟩⟩

/-- The number of blocks is the number of objects over `m`, rounded up. -/
theorem Counted.length_taken (h : Counted m n taken slub chain failed) :
    taken.length = (n + (m - 1)) / m := by
  have hfilled := h.filled
  have hrest := h.rest
  refine (Nat.div_eq_of_lt_le ?_ ?_).symm
  · omega
  · rw [Nat.succ_mul]
    omega

/-- What is left on the chain is what the last block still has: the objects of all taken blocks
less those handed out. -/
theorem Counted.length_chain (h : Counted m n taken slub chain failed) :
    chain.length = (n + (m - 1)) / m * m - n := by
  rw [← h.length_taken, h.filled]
  omega

/-- A call for the cache found nothing. -/
def HasFailed (answers : List Answer) (i : Nat) : Prop :=
  ∃ sz, slubIndex sz = some i ∧ .object sz 0 ∈ answers

/-- The allocators are represented by the pool, and its blocks are counted. -/
structure Heap.Counts (ram : Set Int) (h : Heap) (P : Pool) : Prop where
  simulates : h.Simulates ram P
  counted : ∀ i < NR_KOBJECT_SIZE_TYPE, Counted (perSlub i) (heldObjects h.answers i).length
    (P.slubsOf i) (P.slub i) (P.chain i) (HasFailed h.answers i)

variable {h h' : Heap} {op : ClientOp} {ops : List ClientOp} {sz : Word}

/-- Once a call for the cache has failed, it has failed for good, whatever answers follow. -/
theorem HasFailed.cons {a : Answer} {as : List Answer} (hf : HasFailed as i) :
    HasFailed (a :: as) i := by
  obtain ⟨sz, hi, hmem⟩ := hf
  exact ⟨sz, hi, List.mem_cons_of_mem _ hmem⟩

/-- For a size that a cache serves, `kmalloc` is `kmem_cache_alloc` on the first cache whose
objects are large enough. -/
theorem kmalloc_eq (hsz : sz ≤ KMALLOC_MAX_CACHE_SIZE) (hi : slubIndex sz = some i) (s : Kmem) :
    kmalloc s sz = SumiOS.kmemCacheAlloc i redoBound s := by
  rw [kmalloc, if_neg (BitVec.not_lt.mpr hsz), hi]

/-- Beyond the largest cache `kmalloc` answers NULL and leaves both allocators untouched. -/
theorem kmalloc_large (hsz : ¬ sz ≤ KMALLOC_MAX_CACHE_SIZE) (s : Kmem) :
    kmalloc s sz = some (s, 0) := if_pos (BitVec.not_le.mp hsz)

/-- The sizes of all objects that were handed out are sizes that a cache serves, also after one
more call. -/
theorem Heap.Simulates.small_kmalloc (hs : h.Simulates ram P) {s' : Kmem}
    (hx : SumiOS.kmalloc h.kmem sz = some (s', x)) :
    ∀ sz' obj, .object sz' obj ∈ Answer.object sz x :: h.answers → obj ≠ 0 →
      sz' ≤ KMALLOC_MAX_CACHE_SIZE := by
  obtain ⟨P', s₁, x₁, -, hx₁, hs₁⟩ := hs.kmalloc sz
  rw [hx, Option.some.injEq, Prod.mk.injEq] at hx₁
  obtain ⟨rfl, rfl⟩ := hx₁
  exact hs₁.small

/-- Handing out an object of one cache leaves the objects in use of every other cache alone. -/
theorem handOutUnlessNull_of_ne {k : Nat} (h : k ≠ i) (x : Word) :
    handOutUnlessNull used i x k = used k := by
  rw [handOutUnlessNull]
  split
  · rfl
  · exact Function.update_of_ne h ..

/-- An answer other than NULL joins the objects of its cache that are in use. -/
theorem handOutUnlessNull_self (hx : x ≠ 0) : handOutUnlessNull used i x i = x :: used i := by
  rw [handOutUnlessNull, if_neg hx]
  exact Function.update_self ..

/-- Retiring a slub of one cache leaves the current slub of every other cache in place. -/
theorem Pool.retire_slub_of_ne (P : Pool) {k : Nat} (hk : k ≠ i) : (P.retire i).slub k = P.slub k := by
  cases h : P.slub i with
  | none => rw [Pool.retire_of_none h]
  | some p =>
      rw [Pool.retire_of_some h]
      exact Function.update_of_ne hk ..

/-- The slubs of a cache depend on the pool's list of slubs and on nothing else in it. -/
theorem Pool.slubsOf_congr {Q : Pool} (h : Q.slubs = P.slubs) (k : Nat) :
    Q.slubsOf k = P.slubsOf k := by
  rw [Pool.slubsOf, Pool.slubsOf, h]

/-- A call for the cache `i` keeps the count when it keeps the count of `i` and leaves the
other caches alone. -/
theorem Heap.Counts.update (hc : h.Counts ram P) (P' : Pool) (hindex : slubIndex sz = some i)
    {s' : Kmem}
    (hI : SlubInv ram s' P' (heldBlocks h.answers)
      (handOutUnlessNull (heldObjects h.answers) i x))
    (hself : Counted (perSlub i) (handOutUnlessNull (heldObjects h.answers) i x i).length
      (P'.slubsOf i) (P'.slub i) (P'.chain i) (HasFailed (.object sz x :: h.answers) i))
    (hother : ∀ k ≠ i,
      P'.slubsOf k = P.slubsOf k ∧ P'.slub k = P.slub k ∧ P'.chain k = P.chain k)
    (hx : SumiOS.kmalloc h.kmem sz = some (s', x)) :
    Heap.Counts ram ⟨s', .object sz x :: h.answers⟩ P' := by
  refine ⟨⟨?_, hc.simulates.small_kmalloc hx⟩, fun k hk => ?_⟩
  · rw [heldObjects_cons hindex]
    exact hI
  · rw [heldObjects_cons hindex]
    by_cases e : k = i
    · subst e
      exact hself
    · obtain ⟨h1, h2, h3⟩ := hother k e
      rw [handOutUnlessNull_of_ne e, h1, h2, h3]
      exact (hc.counted k hk).mono HasFailed.cons

/-- An object of the chain is handed out: there is one more in use and one fewer left, and no block
is taken. -/
theorem Heap.Counts.popped (hc : h.Counts ram P) (hi : i < NR_KOBJECT_SIZE_TYPE)
    (hindex : slubIndex sz = some i) (hchain : P.chain i = x :: xs) (hne : x ≠ 0) {s' : Kmem}
    (hI : SlubInv ram s' (P.pop i xs) (heldBlocks h.answers) (handOut (heldObjects h.answers) i x))
    (hx : SumiOS.kmalloc h.kmem sz = some (s', x)) :
    Heap.Counts ram ⟨s', .object sz x :: h.answers⟩ (P.pop i xs) := by
  have hcount := hc.counted i hi
  rw [hchain] at hcount
  refine hc.update _ hindex ?_ ?_ (fun k e => ⟨rfl, rfl, Function.update_of_ne e ..⟩) hx
  · rw [handOutUnlessNull, if_neg hne]
    exact hI
  · have hself : (P.pop i xs).chain i = xs := Function.update_self ..
    rw [handOutUnlessNull_self hne, hself]
    exact hcount.pop.mono HasFailed.cons

/-- No object, and no block to go on with. -/
theorem Heap.Counts.refused (hc : h.Counts ram P) (hi : i < NR_KOBJECT_SIZE_TYPE)
    (hindex : slubIndex sz = some i) (hchain : P.chain i = [])
    (hx : SumiOS.kmalloc h.kmem sz = some (retireSlub h.kmem i, 0)) :
    Heap.Counts ram ⟨retireSlub h.kmem i, .object sz 0 :: h.answers⟩ (P.retire i) := by
  have hcount := hc.counted i hi
  rw [hchain] at hcount
  have hslubs := Pool.slubsOf_congr (Pool.retire_slubs P i)
  refine hc.update _ hindex (hc.simulates.inv.retire hi) ?_ (fun k e =>
    ⟨hslubs k, Pool.retire_slub_of_ne P e, by rw [Pool.retire_chain]⟩) hx
  rw [hslubs, Pool.retire_slub, Pool.retire_chain, hchain]
  exact hcount.fail ⟨sz, hindex, List.mem_cons_self⟩

/-- The first object of a new block is handed out: the block before it was used up, so that the
count of blocks and objects stays exact. -/
theorem Heap.Counts.refilled (hc : h.Counts ram P) (hi : i < NR_KOBJECT_SIZE_TYPE)
    (hindex : slubIndex sz = some i) (hchain : P.chain i = []) (seq : Head → List Int)
    (hchunks : chunks i p = x :: xs) (hne : x ≠ 0) {s' : Kmem}
    (hI : SlubInv ram s' ((((P.retire i).relist seq).refill i p).pop i xs) (heldBlocks h.answers)
      (handOut (heldObjects h.answers) i x))
    (hx : SumiOS.kmalloc h.kmem sz = some (s', x)) :
    Heap.Counts ram ⟨s', .object sz x :: h.answers⟩
      ((((P.retire i).relist seq).refill i p).pop i xs) := by
  have hcount := hc.counted i hi
  rw [hchain] at hcount
  have hlen : (x :: xs).length = perSlub i := by rw [← hchunks, length_chunks]
  have hslubs : ∀ k, ((P.retire i).relist seq).slubsOf k = P.slubsOf k :=
    Pool.slubsOf_congr (Pool.retire_slubs P i)
  refine hc.update ((((P.retire i).relist seq).refill i p).pop i xs) hindex ?_ ?_
    (fun k e => ⟨?_, ?_, ?_⟩) hx
  · rw [handOutUnlessNull, if_neg hne]
    exact hI
  · -- The new block is the one that the cache takes objects from, and counts as taken.
    have hself : ((((P.retire i).relist seq).refill i p).pop i xs).chain i = xs :=
      Function.update_self ..
    have hslub : ((((P.retire i).relist seq).refill i p).pop i xs).slub i = some p :=
      Function.update_self ..
    have htaken : ((((P.retire i).relist seq).refill i p).pop i xs).slubsOf i
        = p :: P.slubsOf i := Pool.slubsOf_refill_self.trans (congrArg _ (hslubs i))
    rw [handOutUnlessNull_self hne, hself, hslub, htaken]
    exact (hcount.refill hlen).mono HasFailed.cons
  · exact (Pool.slubsOf_refill_of_ne e).trans (hslubs k)
  · exact (Function.update_of_ne e ..).trans (Pool.retire_slub_of_ne P e)
  · -- The chains of the other caches are as before.
    have hpop : ((((P.retire i).relist seq).refill i p).pop i xs).chain k
        = (((P.retire i).relist seq).refill i p).chain k := Function.update_of_ne e ..
    have hrefill : (((P.retire i).relist seq).refill i p).chain k = (P.retire i).chain k :=
      Function.update_of_ne e ..
    rw [hpop, hrefill, Pool.retire_chain]

/-- A call of `kmalloc` keeps the count, in each of the ways that it can end; a failed call is
remembered among the answers. -/
theorem Heap.Counts.kmalloc (hc : h.Counts ram P) (hnull : ∀ q ∈ ram, slubAddr q ≠ 0) {s' : Kmem}
    (hx : SumiOS.kmalloc h.kmem sz = some (s', x)) :
    ∃ P', Heap.Counts ram ⟨s', .object sz x :: h.answers⟩ P' := by
  have hI := hc.simulates.inv
  by_cases hsz : sz ≤ KMALLOC_MAX_CACHE_SIZE
  · obtain ⟨i, hi, hindex, -⟩ := slubIndex_spec hsz
    have hcall := hx
    rw [kmalloc_eq hsz hindex] at hcall
    rcases hI.call hi hnull with ⟨y, xs, s₁, hchain, hy, heq, hI'⟩ | ⟨hchain, hex, heq⟩ |
      ⟨seq, p, y, xs, s₁, hchain, hex, hchunks, hy, heq, hI'⟩
    · rw [heq, Option.some.injEq, Prod.mk.injEq] at hcall
      obtain ⟨rfl, rfl⟩ := hcall
      exact ⟨_, hc.popped hi hindex hchain hy hI' hx⟩
    · rw [heq, Option.some.injEq, Prod.mk.injEq] at hcall
      obtain ⟨rfl, rfl⟩ := hcall
      exact ⟨_, hc.refused hi hindex hchain hx⟩
    · rw [heq, Option.some.injEq, Prod.mk.injEq] at hcall
      obtain ⟨rfl, rfl⟩ := hcall
      exact ⟨_, hc.refilled hi hindex hchain seq hchunks hy hI' hx⟩
  · -- A size above all caches changes nothing.
    rw [kmalloc_large hsz, Option.some.injEq, Prod.mk.injEq] at hx
    obtain ⟨rfl, rfl⟩ := hx
    refine ⟨P, ⟨?_, hc.simulates.small_kmalloc (kmalloc_large hsz _)⟩, fun k hk => ?_⟩
    · rw [heldObjects_null]
      exact hI
    · rw [heldObjects_null]
      exact (hc.counted k hk).mono HasFailed.cons

/-- Answers of the page allocator do not count among the objects that a client holds. -/
theorem heldObjects_block (order : Nat) (r : Option Int) (as : List Answer) :
    heldObjects (.block order r :: as) = heldObjects as := by
  funext k
  exact List.filterMap_cons_none rfl

/-- `alloc_pages` changes the lists of the pool and nothing else. -/
theorem Pool.take_relist (P : Pool) (k : Nat) : ∃ seq, (P.take k).1 = P.relist seq := by
  rw [Pool.take]
  split
  · exact ⟨P.seq, rfl⟩
  · split
    · exact ⟨P.seq, rfl⟩
    · exact ⟨_, rfl⟩

/-- A step of a client keeps the count. Writes and `alloc_pages` do not touch the caches, so only
the calls of `kmalloc` have something to show. -/
theorem Heap.Counts.step (hc : h.Counts ram P) (hnull : ∀ q ∈ ram, slubAddr q ≠ 0)
    (hstep : h.step op = some h') : ∃ P', h'.Counts ram P' := by
  cases op with
  | kmalloc sz =>
      rw [Heap.step] at hstep
      obtain ⟨r, hr, rfl⟩ := Option.map_eq_some_iff.mp hstep
      exact hc.kmalloc hnull hr
  | allocPages order =>
      obtain ⟨P', hpool, hs'⟩ := hc.simulates.step hstep
      rw [Pool.step, Option.some.injEq, Prod.mk.injEq] at hpool
      obtain ⟨rfl, hanswers⟩ := hpool
      obtain ⟨seq, hseq⟩ := Pool.take_relist P order
      refine ⟨_, hs', fun k hk => ?_⟩
      rw [← hanswers, heldObjects_block, hseq]
      exact (hc.counted k hk).mono HasFailed.cons
  | write a v =>
      obtain ⟨P', hpool, hs'⟩ := hc.simulates.step hstep
      rw [Pool.step, Option.some.injEq, Prod.mk.injEq] at hpool
      obtain ⟨rfl, hanswers⟩ := hpool
      refine ⟨P, hs', fun k hk => ?_⟩
      rw [← hanswers]
      exact hc.counted k hk

/-- A run of the clients keeps the count, by induction on its steps. -/
theorem Heap.Counts.run (hc : h.Counts ram P) (hnull : ∀ q ∈ ram, slubAddr q ≠ 0)
    (hrun : Lib.run Heap.step h ops = some h') : ∃ P', h'.Counts ram P' := by
  induction ops generalizing h P with
  | nil =>
      rw [Lib.run, Option.some.injEq] at hrun
      exact hrun ▸ ⟨P, hc⟩
  | cons op ops ih =>
      obtain ⟨h₁, hstep, hrest⟩ := run_cons.mp hrun
      obtain ⟨P₁, hc₁⟩ := hc.step hnull hstep
      exact ih hc₁ hrest

end

/-! ### The result -/

/-- The objects in a block of the cache, `(PAGE_SIZE << (obj_size >> 12)) / obj_size`. -/
def perBlock (kc : KmemCache) : Nat :=
  (PAGE_SIZE <<< (kc.objSize >>> PAGE_SHIFT)).toNat / kc.objSize.toNat

/-- The blocks that the cache took. -/
def takenBy (s : Kmem) (i : Nat) : List Int := (s.slubs.filter (·.1 = i)).map (·.2)

/-- The cache handed `n` objects out: it took as many blocks as `n` objects need, all but
the last one are on its full list, and its chain holds what is left of the last one. -/
structure Filled (s : Kmem) (i n : Nat) : Prop where
  taken : (takenBy s i).length
    = (n + (perBlock (s.kmemCacheList i) - 1)) / perBlock (s.kmemCacheList i)
  once : (takenBy s i).Nodup
  full : ∃ ps : List Int, IsRing s.buddy.links (SumiOS.full i) (ps.map .page) ∧ ps.Nodup ∧
    (∀ p ∈ ps, p ∈ takenBy s i) ∧
    ps.length = (n + (perBlock (s.kmemCacheList i) - 1)) / perBlock (s.kmemCacheList i) - 1
  chain : ∃ xs, Chain s.mem (s.kmemCacheList i).freelist xs ∧
    xs.length = (n + (perBlock (s.kmemCacheList i) - 1)) / perBlock (s.kmemCacheList i)
      * perBlock (s.kmemCacheList i) - n

/-- The chain of the cache is empty, and no free list has a block that is large enough. -/
def OutOfObjects (s : Kmem) (i : Nat) : Prop :=
  (s.kmemCacheList i).freelist = 0 ∧
    ∀ k, ((s.kmemCacheList i).objSize >>> PAGE_SHIFT).toNat ≤ k → k < MAX_PAGE_ORDER →
      listEmpty s.buddy.links (freelist k) = true

/-- What a failed call for the cache `i` leaves: its block without objects is on its full
list, and nothing else has changed. -/
structure FailKeeps (s s' : Kmem) (i : Nat) : Prop where
  pages : s'.buddy.pages = s.buddy.pages
  mem : s'.mem = s.mem
  slubs : s'.slubs = s.slubs
  own : s'.kmemCacheList i = { s.kmemCacheList i with slub := none }
  others : ∀ k, k ≠ i → s'.kmemCacheList k = s.kmemCacheList k
  lists : ∃ seq, Rep kernelHeads s.buddy.links seq ∧
    Rep kernelHeads s'.buddy.links
      (Function.update seq (.full i) ((s.kmemCacheList i).slub.toList ++ seq (.full i)))

/-- The buddy system `b` with the free lists `pages` can stand in for the one of `s`: it is
sound, the lists of the caches are as they were, and the free blocks are apart from the
blocks of the caches. -/
structure Serves (s : Kmem) (b : Buddy) (pages : Nat → List Int) : Prop where
  sound : Sound b pages
  physical : ∀ c ∈ blocksOf pages, Physical c
  notNull : ∀ q ∈ framesOf pages, slubAddr q ≠ 0
  lists : ∀ i < NR_KOBJECT_SIZE_TYPE, ∀ n ∈ [full i, partialSlubs i, kmemList i], ∀ ps,
    IsRing s.buddy.links n ps → IsRing b.links n ps
  apart : ∀ q ∈ s.slubs, ∀ c ∈ blocksOf pages,
    (Block.mk q.2 ((s.kmemCacheList q.1).objSize >>> PAGE_SHIFT).toNat).Apart c

/-- A cache that has not failed took exactly the blocks that its objects need, and holds the rest.
A call returns NULL exactly when the chain is empty and no free list has a block that is large
enough. It then changes nothing but the full list of its cache, and a later call succeeds once
the buddy system has such a block again. -/
structure UsesSlubsUp (h : Heap) : Prop where
  filled : ∀ i < NR_KOBJECT_SIZE_TYPE, ¬ HasFailed h.answers i →
    Filled h.kmem i (heldObjects h.answers i).length
  call : ∀ sz ≤ KMALLOC_MAX_CACHE_SIZE, ∃ i s' obj, slubIndex sz = some i ∧
    kmalloc h.kmem sz = some (s', obj) ∧ (obj = 0 ↔ OutOfObjects h.kmem i) ∧
    (obj = 0 → FailKeeps h.kmem s' i ∧
      ∀ b pages', Serves s' b pages' →
        (∃ k, ((s'.kmemCacheList i).objSize >>> PAGE_SHIFT).toNat ≤ k ∧ k < MAX_PAGE_ORDER ∧
          pages' k ≠ []) →
        ∃ s'' obj', kmalloc { s' with buddy := b } sz = some (s'', obj') ∧ obj' ≠ 0)

section

variable {ram : Set Int} {s : Kmem} {P : Pool} {blocks : List Block} {used : Nat → List Word}
  {h : Heap} {i : Nat} {sz : Word} {pages : Nat → List Int} {b : Buddy}

/-- The quotient that the source computes for a block is the number of objects the abstract pool
cuts it into. -/
theorem CacheRep.perBlock {m : Mem} {kc : KmemCache} {slub : Option Int} {chain : List Word}
    (hkc : CacheRep m i kc slub chain) (hi : i < NR_KOBJECT_SIZE_TYPE) :
    SumiOS.perBlock kc = perSlub i := by
  obtain ⟨hbytes, -, htotal⟩ := objSize_spec i hi
  rw [SumiOS.perBlock, hkc.objSize, htotal, hbytes]
  rfl

/-- While no call for the cache has failed, its blocks are filled one after the other: only the
last one may have objects left. -/
theorem Heap.Counts.filled (hc : h.Counts ram P) (hi : i < NR_KOBJECT_SIZE_TYPE)
    (hok : ¬ HasFailed h.answers i) : Filled h.kmem i (heldObjects h.answers i).length := by
  have hI := hc.simulates.inv
  have hcount := hc.counted i hi
  have hkc := hI.cache i hi
  have htaken : takenBy h.kmem i = P.slubsOf i := by rw [takenBy, hI.slubs]; rfl
  have hfull := hI.full i
  refine ⟨?_, ?_, ⟨P.seq (.full i), hI.blockInv.rep.ring hi, hI.blockInv.rep.nodup hi, ?_, ?_⟩,
    P.chain i, hkc.chain, ?_⟩
  · rw [htaken, hkc.perBlock hi]
    exact hcount.length_taken
  · rw [htaken]
    exact hI.slubsOf_nodup i
  · intro p hp
    rw [htaken, ← hfull]
    exact List.mem_append_right _ hp
  · rw [hkc.perBlock hi, ← hcount.length_taken, ← hfull]
    cases hslub : P.slub i with
    | none =>
        have hnone := (hcount.current hslub).2.resolve_right hok
        rw [hslub, hnone] at hfull
        simp [List.append_eq_nil_iff.mp hfull]
    | some p => simp
  · rw [hkc.perBlock hi]
    exact hcount.length_chain

/-- The pool with other free lists. -/
def Pool.withFree (P : Pool) (pages : Nat → List Int) : Pool :=
  P.relist fun
    | .freelist k => pages k
    | h => P.seq h

/-- The free blocks of the other buddy system are apart from the blocks of the caches. -/
theorem SlubInv.serves_apart (hI : SlubInv ram s P blocks used) (hS : Serves s b pages) {p : Int}
    (hp : (i, p) ∈ P.slubs) {c : Block} (hc : c ∈ blocksOf pages) : (slubBlock i p).Apart c := by
  have hi := hI.caches _ hp
  have hapart := hS.apart (i, p) (hI.slubs ▸ hp) c hc
  rwa [(hI.cache i hi).objSize, (objSize_spec i hi).2.1] at hapart

/-- A buddy system that can stand in for the present one represents the pool whose free lists were
exchanged for its own. -/
theorem SlubInv.serves_rep (hI : SlubInv ram s P blocks used) (hS : Serves s b pages) :
    Rep kernelHeads b.links (P.withFree pages).seq where
  ring := by
    intro n hn
    obtain ⟨h, hh, rfl⟩ := hn
    have hring := hI.blockInv.rep.ring hh
    cases h with
    | freelist k => exact hS.sound.lists k hh
    | full k => exact hS.lists k hh (SumiOS.full k) (by simp) _ hring
    | partialSlubs k => exact hS.lists k hh (partialSlubs k) (by simp) _ hring
    | list k => exact hS.lists k hh (kmemList k) (by simp) _ hring
  nodup := by
    intro n hn
    obtain ⟨h, hh, rfl⟩ := hn
    have hnodup := hI.blockInv.rep.nodup hh
    cases h with
    | freelist k => exact (hS.sound.nodup k hh).map page_injective
    | full k => exact hnodup.map page_injective
    | partialSlubs k => exact hnodup.map page_injective
    | list k => exact hnodup.map page_injective
  sep := by
    intro n hn n' hn' x hx hx'
    obtain ⟨h, hh, rfl⟩ := hn
    obtain ⟨h', hh', rfl⟩ := hn'
    obtain ⟨q, hq, rfl⟩ := List.mem_map.mp hx
    have hq' : q ∈ (P.withFree pages).seq h' := (List.mem_map_of_injective page_injective).mp hx'
    -- A page of a free list starts a free block, and one of a full list a block of a cache.
    have hmixed : ∀ {k j : Nat}, q ∈ P.seq (.full j) → Head.freelist k ∈ kernelHeads →
        q ∉ pages k := by
      intro k j hfull hk hfree
      have hapart := hI.serves_apart hS (hI.mem_full hfull) (c := ⟨q, k⟩) ⟨hk, hfree⟩
      exact Block.not_apart_of_start_mem (c := ⟨q, k⟩) (Block.start_mem (slubBlock j q)) hapart
    cases h with
    | freelist k =>
        cases h' with
        | freelist k' =>
            have hk : (⟨q, k⟩ : Block) ∈ blocksOf pages := ⟨hh, hq⟩
            have hk' : (⟨q, k'⟩ : Block) ∈ blocksOf pages := ⟨hh', hq'⟩
            rw [hS.sound.order_unique hk hk']
        | full k' => exact absurd hq (hmixed hq' hh)
        | partialSlubs k' => exact absurd ((hI.idle k').1 ▸ hq') List.not_mem_nil
        | list k' => exact absurd ((hI.idle k').2 ▸ hq') List.not_mem_nil
    | full k =>
        cases h' with
        | freelist k' => exact absurd hq' (hmixed hq hh')
        | full k' => rw [hI.blockInv.rep.sep hh hh' hq hq']
        | partialSlubs k' => exact absurd ((hI.idle k').1 ▸ hq') List.not_mem_nil
        | list k' => exact absurd ((hI.idle k').2 ▸ hq') List.not_mem_nil
    | partialSlubs k => exact absurd ((hI.idle k).1 ▸ hq) List.not_mem_nil
    | list k => exact absurd ((hI.idle k).2 ▸ hq) List.not_mem_nil
  noHead := by
    intro n hn n' hn' hm
    obtain ⟨h, -, rfl⟩ := hn
    obtain ⟨h', -, rfl⟩ := hn'
    simp [nodeSeq] at hm

/-- Another buddy system serves the caches: the invariant holds of the state in which it stands in
for the present one, so that calls that come later may find blocks again. -/
theorem SlubInv.serves (hI : SlubInv ram s P blocks used) (hS : Serves s b pages) :
    SlubInv (ram ∪ framesOf pages) { s with buddy := b } (P.withFree pages) [] used where
  blockInv :=
    { rep := hI.serves_rep hS
      tidy :=
        { outApart := List.pairwise_map.mpr hI.slubs_pairwise
          freeApart := fun c d hc hd hne => hS.sound.apart hc hd hne
          between := by
            intro c hc d hd
            obtain ⟨q, hq, rfl⟩ := List.mem_map.mp hc
            exact hI.serves_apart hS hq hd }
      held := by
        intro h hh hne q hq
        -- The lists of full blocks stay, and the other lists of the caches are empty.
        cases h with
        | freelist k => exact absurd rfl (hne k)
        | full k => exact ⟨slubBlock k q, List.mem_map_of_mem (hI.mem_full hq), rfl⟩
        | partialSlubs k => exact absurd ((hI.idle k).1 ▸ hq) List.not_mem_nil
        | list k => exact absurd ((hI.idle k).2 ▸ hq) List.not_mem_nil }
  within := by
    intro c hc x hx
    cases hc with
    | inl hc => exact Or.inl (hI.within c (Or.inl (List.mem_append_right _ hc)) hx)
    | inr hc => exact Or.inr ⟨c, hc, hx⟩
  range := by
    intro x hx
    cases hx with
    | inl hx => exact hI.range hx
    | inr hx =>
        obtain ⟨c, hc, hmem⟩ := hx
        obtain ⟨hlow, hhigh⟩ := hS.physical c hc
        exact ⟨hlow.trans hmem.1, hmem.2.trans_le hhigh⟩
  cache := hI.cache
  slubs := hI.slubs
  idle := hI.idle
  full := hI.full
  caches := hI.caches
  member := hI.member
  nodup := hI.nodup

/-- What a failed round leaves: the slub that was used up is on the full list of its cache, and
everything else is as before. -/
theorem SlubInv.failKeeps (hI : SlubInv ram s P blocks used) (hi : i < NR_KOBJECT_SIZE_TYPE) :
    FailKeeps s (retireSlub s i) i where
  pages := rfl
  mem := rfl
  slubs := rfl
  own := setCache_self ..
  others := fun _ hk => setCache_of_ne hk
  lists := by
    refine ⟨P.seq, hI.blockInv.rep, ?_⟩
    have hrep := (hI.retire hi).blockInv.rep
    rw [(hI.cache i hi).slub]
    cases hslub : P.slub i with
    | none =>
        rw [Pool.retire_of_none hslub] at hrep
        simpa using hrep
    | some p =>
        rw [Pool.retire_of_some hslub] at hrep
        exact hrep

/-- The cache is out of objects when the pool has none in its chain and no block for it. -/
theorem SlubInv.outOfObjects_pool (hI : SlubInv ram s P blocks used)
    (hi : i < NR_KOBJECT_SIZE_TYPE) : OutOfObjects s i ↔ P.chain i = [] ∧ P.Exhausted i := by
  have hkc := hI.cache i hi
  have hlists : (∀ k, ((s.kmemCacheList i).objSize >>> PAGE_SHIFT).toNat ≤ k → k < MAX_PAGE_ORDER →
      listEmpty s.buddy.links (freelist k) = true) ↔ P.Exhausted i := by
    rw [hkc.objSize, (objSize_spec i hi).2.1]
    refine forall_congr' fun k => forall_congr' fun _ => forall_congr' fun hk => ?_
    exact hI.blockInv.rep.listEmpty_iff (h := .freelist k) hk
  rw [OutOfObjects, hkc.chain.eq_zero_iff, hlists]

/-- A call returns NULL exactly when the cache is out of objects. -/
theorem SlubInv.kmalloc_null_iff (hI : SlubInv ram s P blocks used)
    (hi : i < NR_KOBJECT_SIZE_TYPE) (hnull : ∀ q ∈ ram, slubAddr q ≠ 0) :
    ∃ s' x, SumiOS.kmemCacheAlloc i redoBound s = some (s', x) ∧ (x = 0 ↔ OutOfObjects s i) ∧
      (x = 0 → s' = retireSlub s i) := by
  rw [hI.outOfObjects_pool hi]
  rcases hI.call hi hnull with ⟨x, xs, s', hc, hx, heq, -⟩ | ⟨hc, hex, heq⟩ |
    ⟨seq, p, x, xs, s', hc, hex, -, hx, heq, -⟩
  · exact ⟨s', x, heq, iff_of_false hx (by simp [hc]), fun h => absurd h hx⟩
  · exact ⟨_, 0, heq, iff_of_true rfl ⟨hc, hex⟩, fun _ => rfl⟩
  · exact ⟨s', x, heq, iff_of_false hx fun h => hex h.2, fun h => absurd h hx⟩

end

/-- What `kmalloc` does on a sound buddy system in which no frame of a free block is at NULL. In
every run of the clients from `kmem_cache_init` on, the caches use their blocks up. -/
theorem kmalloc_exhausts (s : Kmem) (pages : Nat → List Int) (hS : Sound s.buddy pages)
    (hphys : ∀ c ∈ blocksOf pages, Physical c) (hnull : ∀ q ∈ framesOf pages, slubAddr q ≠ 0)
    (ops : List ClientOp) (h : Heap) (hrun : run Heap.step ⟨kmemCacheInit s, []⟩ ops = some h) :
    UsesSlubsUp h := by
  have hstart : Heap.Counts (framesOf pages) ⟨kmemCacheInit s, []⟩ (Pool.start pages) := by
    refine ⟨⟨slubInv_init hS hphys, fun _ _ hmem => absurd hmem List.not_mem_nil⟩, fun i hi =>
      ⟨?_, ?_, fun _ => ⟨rfl, Or.inl rfl⟩⟩⟩
    · simp [Pool.start, Pool.slubsOf, heldObjects]
    · have htwo := (perSlub_spec i hi).1
      show 0 < perSlub i
      omega
  obtain ⟨P, hc⟩ := hstart.run hnull hrun
  refine ⟨fun i hi hok => hc.filled hi hok, fun sz hsz => ?_⟩
  obtain ⟨i, hi, hindex, -⟩ := slubIndex_spec hsz
  have hI := hc.simulates.inv
  obtain ⟨s', x, heq, hiff, hs'⟩ := hI.kmalloc_null_iff hi hnull
  refine ⟨i, s', x, hindex, (kmalloc_eq hsz hindex _).trans heq, hiff, fun hx => ?_⟩
  obtain rfl := hs' hx
  refine ⟨hI.failKeeps hi, fun b pages' hserves hblock => ?_⟩
  have hI' := (hI.retire hi).serves hserves
  have hnull' : ∀ q ∈ framesOf pages ∪ framesOf pages', slubAddr q ≠ 0 := by
    intro q hq
    cases hq with
    | inl hq => exact hnull q hq
    | inr hq => exact hserves.notNull q hq
  obtain ⟨s'', x', heq', hiff', -⟩ := hI'.kmalloc_null_iff hi hnull'
  refine ⟨s'', x', (kmalloc_eq hsz hindex _).trans heq', fun hx' => ?_⟩
  -- The list that has a block is not empty.
  obtain ⟨k, hk, hmax, hne⟩ := hblock
  have hempty := (hiff'.mp hx').2 k hk hmax
  exact hne ((hI'.blockInv.rep.listEmpty_iff (h := .freelist k) hmax).mp hempty)

end SumiOS
