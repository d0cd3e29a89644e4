import SumiOS.Proofs.Slub.Invariant

/-!
# `SumiOS.Proofs.Slub.Kmalloc`: a call of `kmalloc`

`SlubInv.round` is one round of `redo`: it hands out the first object, it fails, or it goes
round again with a new block. `SlubInv.kmemCacheAlloc` is the call, by induction on the
rounds: the allocator does what the pool does.

A new block gives an object at once, except for a block at NULL, whose first object ends
its chain. There is at most one such block, so three rounds are enough
(`SlubInv.kmemCacheAlloc_ne_none`).
-/

set_option autoImplicit false

namespace SumiOS

open Lib

section

variable {ram : Set Int} {s : Kmem} {P : Pool} {blocks : List Block} {used : Nat → List Word}
  {i n : Nat} {p : Int} {x sz : Word} {xs : List Word}

/-! ### One round -/

/-- With an object on its chain, a cache hands out the first one and follows the pointer in it. -/
theorem kmemCacheAlloc_pop (n : Nat) (hfree : (s.kmemCacheList i).freelist ≠ 0) :
    kmemCacheAlloc i (n + 1) s =
      some (setCache s i { s.kmemCacheList i with
        freelist := s.mem.read64 (s.kmemCacheList i).freelist }, (s.kmemCacheList i).freelist) := by
  rw [kmemCacheAlloc]
  exact if_pos hfree

/-- With no object, and no slub on its partial list, a cache retires its slub, takes a new one and
tries again. -/
theorem kmemCacheAlloc_empty (n : Nat) (hfree : (s.kmemCacheList i).freelist = 0)
    (hpart : listEmpty (retireSlub s i).buddy.links (partialSlubs i) = true) :
    kmemCacheAlloc i (n + 1) s =
      match slubAlloc (retireSlub s i) i with
      | none => none
      | some (s, none) => some (s, 0)
      | some (s, some slub) =>
          kmemCacheAlloc i n (setCache s i
            { s.kmemCacheList i with slub := some slub, freelist := (s.buddy.pages slub).freelist }) := by
  have hnot : ¬ ((!listEmpty (retireSlub s i).buddy.links (partialSlubs i)) = true) := by
    simp [hpart]
  rw [kmemCacheAlloc]
  dsimp only
  rw [if_neg (not_not.mpr hfree)]
  exact if_neg hnot

/-- Retiring a slub leaves the chains as they are. -/
theorem Pool.retire_chain (P : Pool) (i : Nat) : (P.retire i).chain = P.chain := by
  cases h : P.slub i with
  | none => rw [Pool.retire_of_none h]
  | some p => rw [Pool.retire_of_some h]

/-- It leaves the record of all slubs as it is. -/
theorem Pool.retire_slubs (P : Pool) (i : Nat) : (P.retire i).slubs = P.slubs := by
  cases h : P.slub i with
  | none => rw [Pool.retire_of_none h]
  | some p => rw [Pool.retire_of_some h]

/-- Afterwards the cache has no current slub, and the next round has to take one. -/
theorem Pool.retire_slub (P : Pool) (i : Nat) : (P.retire i).slub i = none := by
  cases h : P.slub i with
  | none => rw [Pool.retire_of_none h, h]
  | some p =>
      rw [Pool.retire_of_some h]
      exact Function.update_self ..

/-- The free lists of the buddy system are not touched, since a retired slub goes to a list of its
cache. -/
theorem Pool.retire_freelist (P : Pool) (i k : Nat) :
    (P.retire i).seq (.freelist k) = P.seq (.freelist k) := by
  cases h : P.slub i with
  | none => rw [Pool.retire_of_none h]
  | some p =>
      have hne : Head.freelist k ≠ .full i := by simp
      rw [Pool.retire_of_some h]
      exact Function.update_of_ne hne (p :: P.seq (.full i)) P.seq

/-- After a refill the chain of the cache consists of the fresh objects of the new slub. -/
theorem Pool.refill_chain (P : Pool) (i : Nat) (p : Int) :
    (P.refill i p).chain i = freshObjects i p := Function.update_self ..

/-- No free block is large enough for the cache. -/
def Pool.Exhausted (P : Pool) (i : Nat) : Prop :=
  ∀ j, cacheOrder i ≤ j → j < MAX_PAGE_ORDER → P.seq (.freelist j) = []

/-- Everything a round of `redo` can do: hand out the first object of the chain, take a new block
for the next round, or give up because there is none. -/
theorem SlubInv.round (hI : SlubInv ram s P blocks used) (hi : i < NR_KOBJECT_SIZE_TYPE) (n : Nat) :
    (∃ x xs s', P.chain i = x :: xs ∧ x ≠ 0 ∧ kmemCacheAlloc i (n + 1) s = some (s', x) ∧
      SlubInv ram s' (P.pop i xs) blocks (handOut used i x)) ∨
    (P.chain i = [] ∧ P.Exhausted i ∧ (P.retire i).take (cacheOrder i) = (P.retire i, none) ∧
      kmemCacheAlloc i (n + 1) s = some (retireSlub s i, 0)) ∨
    ∃ seq s' p, P.chain i = [] ∧ ¬ P.Exhausted i ∧
      (P.retire i).take (cacheOrder i) = ((P.retire i).relist seq, some p) ∧
      kmemCacheAlloc i (n + 1) s = kmemCacheAlloc i n s' ∧
      SlubInv ram s' (((P.retire i).relist seq).refill i p) blocks used := by
  have hchain := (hI.cache i hi).chain
  cases hc : P.chain i with
  | cons x xs =>
      rw [hc] at hchain
      have hx : (s.kmemCacheList i).freelist = x := hchain.1
      have hpop := kmemCacheAlloc_pop (s := s) (i := i) n (by rw [hx]; exact hchain.2.1)
      -- The chain has an object, and the round hands it out.
      rw [hx] at hpop
      exact Or.inl ⟨x, xs, _, rfl, hchain.2.1, hpop, hI.pop hi hc⟩
  | nil =>
      rw [hc] at hchain
      -- The block is retired, and as no other block is partial, a new one is asked for.
      have hI' := hI.retire hi
      have hpart : listEmpty (retireSlub s i).buddy.links (partialSlubs i) = true :=
        (hI'.blockInv.rep.listEmpty_iff hi).mpr (hI'.idle i).1
      have hround := kmemCacheAlloc_empty n hchain hpart
      have hsize := (hI'.cache i hi).objSize
      rcases hI'.blockInv.alloc hasFreelists_kernelHeads (cacheOrder i) with
        ⟨heq, hempty⟩ | ⟨j, p, ps, links, hkj, hj, hps, hempty, heq, hB⟩
      · refine Or.inr (Or.inl ⟨rfl, fun j h1 h2 => ?_, Pool.take_of_empty hempty, ?_⟩)
        · rw [← Pool.retire_freelist P i]
          exact hempty j h1 h2
        · rw [hround, slubAlloc_none hi hsize heq]
      · have hrefill := hI'.refill (takePages p (2 ^ cacheOrder i) (retireSlub s i).buddy.pages) hi
          ((congrFun (Pool.retire_chain P i) i).trans hc) (Pool.retire_slub P i) hkj hj hps hB
        refine Or.inr (Or.inr ⟨_, _, p, rfl, fun h => ?_, Pool.take_of_first hkj hj hps hempty, ?_,
          hrefill⟩)
        · have hnil := h j hkj hj
          rw [← Pool.retire_freelist P i, hps] at hnil
          exact absurd hnil (List.cons_ne_nil _ _)
        · rw [hround, slubAlloc_some hi hsize heq]
          simp only [grown, Function.update_self]

/-! ### The call -/

/-- The objects that were handed out, after a result that may be NULL. -/
def handOutUnlessNull (used : Nat → List Word) (i : Nat) (x : Word) : Nat → List Word :=
  if x = 0 then used else handOut used i x

/-- `kmem_cache_alloc` does what the pool does, with the same answer and with the invariant
afterwards. The induction is on the rounds, which both sides count alike. -/
theorem SlubInv.kmemCacheAlloc (hi : i < NR_KOBJECT_SIZE_TYPE) (n : Nat)
    (hI : SlubInv ram s P blocks used) :
    (Pool.alloc i n P = none ∧ kmemCacheAlloc i n s = none) ∨
    ∃ P' s' x, Pool.alloc i n P = some (P', x) ∧ SumiOS.kmemCacheAlloc i n s = some (s', x) ∧
      SlubInv ram s' P' blocks (handOutUnlessNull used i x) := by
  induction n generalizing s P with
  | zero => exact Or.inl ⟨rfl, rfl⟩
  | succ n ih =>
      rcases hI.round hi n with ⟨x, xs, s', hc, hx, heq, hI'⟩ | ⟨hc, -, htake, heq⟩ |
        ⟨seq, s', p, hc, -, htake, heq, hI'⟩
      · refine Or.inr ⟨P.pop i xs, s', x, by simp only [Pool.alloc, hc], heq, ?_⟩
        rw [handOutUnlessNull, if_neg hx]
        exact hI'
      · refine Or.inr ⟨P.retire i, retireSlub s i, 0, by simp only [Pool.alloc, hc, htake], heq, ?_⟩
        exact hI.retire hi
      · have halloc : Pool.alloc i (n + 1) P =
            Pool.alloc i n (((P.retire i).relist seq).refill i p) := by
          simp only [Pool.alloc, hc, htake]
        rw [halloc, heq]
        exact ih hI'

/-- A block that is not at NULL has objects, its first one at least, so that the round after a
refill hands one out. -/
theorem freshObjects_ne_nil (hi : i < NR_KOBJECT_SIZE_TYPE) (hp : slubAddr p ≠ 0) :
    freshObjects i p ≠ [] := by
  have hhead := chunks_headD (p := p) hi
  rw [freshObjects]
  cases hc : chunks i p with
  | nil => exact absurd hc (chunks_ne_nil hi)
  | cons x xs =>
      rw [hc, List.headD_cons] at hhead
      have hx : x ≠ 0 := hhead ▸ hp
      have htake : (x :: xs).takeWhile (· ≠ 0) = x :: xs.takeWhile (· ≠ 0) :=
        List.takeWhile_cons_of_pos (decide_eq_true hx)
      rw [htake]
      exact List.cons_ne_nil _ _

/-- A cache that has an object needs one round. -/
theorem SlubInv.one_round (hI : SlubInv ram s P blocks used) (hi : i < NR_KOBJECT_SIZE_TYPE)
    (hc : P.chain i ≠ []) (n : Nat) : SumiOS.kmemCacheAlloc i (n + 1) s ≠ none := by
  rcases hI.round hi n with ⟨x, xs, s', -, -, heq, -⟩ | ⟨hnil, -⟩ | ⟨seq, s', p, hnil, -⟩
  · simp [heq]
  · exact absurd hnil hc
  · exact absurd hnil hc

/-- When a cache has taken the block at NULL, a cache needs two rounds. -/
theorem SlubInv.two_rounds (hI : SlubInv ram s P blocks used) (hi : i < NR_KOBJECT_SIZE_TYPE)
    (hnull : ∃ q ∈ P.slubs, slubAddr q.2 = 0) (n : Nat) :
    SumiOS.kmemCacheAlloc i (n + 2) s ≠ none := by
  rcases hI.round hi (n + 1) with ⟨x, xs, s', -, -, heq, -⟩ | ⟨-, -, -, heq⟩ |
    ⟨seq, s', p, -, -, -, heq, hI'⟩
  · simp [heq]
  · simp [heq]
  · rw [heq]
    refine hI'.one_round hi ?_ n
    rw [Pool.refill_chain]
    refine freshObjects_ne_nil hi fun hp => ?_
    -- The new block is apart from the one at NULL.
    obtain ⟨q, hq, hq0⟩ := hnull
    have hpairs := hI'.slubs_pairwise
    have hcons : (((P.retire i).relist seq).refill i p).slubs = (i, p) :: P.slubs :=
      congrArg _ (Pool.retire_slubs P i)
    rw [hcons, List.pairwise_cons] at hpairs
    have hmem : ∀ r ∈ (i, p) :: P.slubs, r.1 < NR_KOBJECT_SIZE_TYPE ∧ Physical (slubBlock r.1 r.2) :=
      fun r hr => ⟨hI'.caches r (hcons ▸ hr), hI'.physical_slub (hcons ▸ hr)⟩
    have hplace : ∀ r ∈ (i, p) :: P.slubs, slubAddr r.2 = 0 → 4096 * r.2 = physOf 0 := by
      intro r hr h0
      have hpos := Block.two_pow_pos (cacheOrder r.1)
      obtain ⟨hlow, hhigh⟩ := physical_slubBlock.mp (hmem r hr).2
      rw [← physOf_slubAddr hlow (by omega), h0]
    have h1 := hplace _ List.mem_cons_self hp
    have h2 := hplace q (List.mem_cons_of_mem _ hq) hq0
    have hstart : q.2 = p := by
      have h1' : 4096 * p = physOf 0 := h1
      omega
    refine Block.not_apart_of_start_mem (c := slubBlock q.1 q.2) ?_ (hpairs.1 q hq)
    show q.2 ∈ _
    rw [hstart]
    exact Block.start_mem (slubBlock i p)

/-- The rounds of `redo` end: a round hands out an object, gives up, or takes a block, and then the
next one hands out its first object. Only the block at NULL, which there is once, costs a round
more. -/
theorem SlubInv.kmemCacheAlloc_ne_none (hI : SlubInv ram s P blocks used)
    (hi : i < NR_KOBJECT_SIZE_TYPE) : SumiOS.kmemCacheAlloc i redoBound s ≠ none := by
  rcases hI.round hi 2 with ⟨x, xs, s', -, -, heq, -⟩ | ⟨-, -, -, heq⟩ |
    ⟨seq, s', p, -, -, -, heq, hI'⟩
  · simp [redoBound, heq]
  · simp [redoBound, heq]
  · rw [redoBound, heq]
    by_cases hp : slubAddr p = 0
    · exact hI'.two_rounds hi ⟨(i, p), List.mem_cons_self, hp⟩ 0
    · refine hI'.one_round hi ?_ 1
      rw [Pool.refill_chain]
      exact freshObjects_ne_nil hi hp

/-- A size that is not too large has a cache, whose objects are large enough. -/
theorem slubIndex_spec (h : sz ≤ KMALLOC_MAX_CACHE_SIZE) :
    ∃ i < NR_KOBJECT_SIZE_TYPE, slubIndex sz = some i ∧ sz.toNat ≤ cacheSize i := by
  have hmax : sz ≤ 8192 := h
  unfold slubIndex
  split_ifs with h0 h1 h2 h3 h4 h5 h6 h7 h8
  · exact ⟨0, by decide, rfl, BitVec.le_def.mp h0⟩
  · exact ⟨1, by decide, rfl, BitVec.le_def.mp h1⟩
  · exact ⟨2, by decide, rfl, BitVec.le_def.mp h2⟩
  · exact ⟨3, by decide, rfl, BitVec.le_def.mp h3⟩
  · exact ⟨4, by decide, rfl, BitVec.le_def.mp h4⟩
  · exact ⟨5, by decide, rfl, BitVec.le_def.mp h5⟩
  · exact ⟨6, by decide, rfl, BitVec.le_def.mp h6⟩
  · exact ⟨7, by decide, rfl, BitVec.le_def.mp h7⟩
  · exact ⟨8, by decide, rfl, BitVec.le_def.mp h8⟩
  · exact ⟨9, by decide, rfl, BitVec.le_def.mp hmax⟩

end

end SumiOS
