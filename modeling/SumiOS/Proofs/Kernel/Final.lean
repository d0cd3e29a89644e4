import SumiOS.Proofs.Kernel.Run
import SumiOS.Proofs.Slub.Exhausted

/-!
# `SumiOS.Proofs.Kernel.Final`: NULL is final

Nothing is given back here, so free blocks only get smaller. When a cache has no object and no
free block is large enough for it (`Pool.OutOf`), this stays so, whoever allocates
(`Pool.OutOf.step`). So once `kmalloc` returned NULL for a cache, it does so for good
(`Kernel.Inv.run_outOf`).
-/

set_option autoImplicit false

namespace SumiOS

open Lib

/-- The cache has no object, and no free block is large enough for it. -/
structure Pool.OutOf (P : Pool) (i : Nat) : Prop where
  empty : P.chain i = []
  exhausted : P.Exhausted i

section Final

variable {ram : Set Int} {base : Word → Prop} {kernPgtable : Word} {walk : Word → Word}
  {k k' : Kernel} {P P' : Pool} {s : Kmem} {blocks : List Block} {used : Nat → List Word}
  {i j n : Nat} {y sz : Word} {r r' : Pool × List Answer} {op : KernelOp} {ops : List KernelOp}

/-! ### The pool -/

/-- `alloc_pages` splits blocks that are too small anyway, so it makes no block that the cache
could take. -/
theorem Pool.OutOf.take (h : P.OutOf i) (order : Nat) : (P.take order).1.OutOf i := by
  rcases P.take_cases order with ⟨hnone, -⟩ | ⟨j, p, ps, -, hj, hps, hsome⟩
  · rw [hnone]
    exact h
  · rw [hsome]
    refine ⟨h.empty, fun m hm hmax => ?_⟩
    have hempty := h.exhausted m hm hmax
    have hjm : j < m := by
      by_contra hle
      have hnil := h.exhausted j (hm.trans (Nat.not_lt.mp hle)) hj
      rw [hnil] at hps
      cases hps
    have hne : Head.freelist m ≠ .freelist j := fun e => absurd (Head.freelist.inj e) hjm.ne'
    show splitSeq P.seq p order j (.freelist m) = []
    rw [splitSeq, putBackSeq, if_neg fun hhalf => absurd hhalf.2 (Nat.not_lt.mpr hjm.le),
      Function.update_of_ne hne, hempty]

/-- A cache that is out of objects is still so after another one, or itself, has retired a slub. -/
theorem Pool.OutOf.retire (h : P.OutOf i) (j : Nat) : (P.retire j).OutOf i where
  empty := by rw [Pool.retire_chain, h.empty]
  exhausted m hm hmax := by rw [Pool.retire_freelist, h.exhausted m hm hmax]

/-- A call for such a cache returns NULL. -/
theorem Pool.OutOf.take_none (h : P.OutOf i) : P.take (cacheOrder i) = (P, none) :=
  Pool.take_of_empty h.exhausted

/-- `kmem_cache_alloc`, round by round, for this cache or another one: neither makes objects or
free blocks, so a cache that is out of objects stays so. The induction is on the rounds. -/
theorem Pool.OutOf.alloc (h : P.OutOf i) (halloc : Pool.alloc j n P = some (P', y)) :
    P'.OutOf i := by
  induction n generalizing P with
  | zero => cases halloc
  | succ n ih =>
      rw [Pool.alloc] at halloc
      split at halloc
      · rename_i x xs hchain
        obtain ⟨rfl, -⟩ := Prod.mk.inj (Option.some.inj halloc)
        have hne : i ≠ j := fun e => by
          rw [← e, h.empty] at hchain
          cases hchain
        exact ⟨(Function.update_of_ne hne _ _).trans h.empty, h.exhausted⟩
      · have hretired := h.retire j
        split at halloc
        · rename_i htake
          obtain ⟨rfl, -⟩ := Prod.mk.inj (Option.some.inj halloc)
          rw [Pool.take_none htake]
          exact hretired
        · rename_i P₁ p htake
          have hnext := hretired.take (cacheOrder j)
          rw [htake] at hnext
          -- It is another cache that gets a block.
          have hne : i ≠ j := fun e => by
            rw [← e, (h.retire i).take_none] at htake
            cases htake
          have hrefill : (P₁.refill j p).OutOf i :=
            ⟨(Function.update_of_ne hne _ _).trans hnext.empty, hnext.exhausted⟩
          exact ih hrefill halloc

/-- A step of a client, whichever it is, leaves a cache out of objects that was so before. -/
theorem Pool.OutOf.step {op : ClientOp} (h : r.1.OutOf i) (hstep : Pool.step r op = some r') :
    r'.1.OutOf i := by
  cases op with
  | kmalloc sz =>
      obtain ⟨t, ht, rfl⟩ := Option.map_eq_some_iff.mp hstep
      rw [Pool.kmalloc] at ht
      split at ht
      · obtain rfl := Option.some.inj ht
        exact h
      · split at ht
        · cases ht
        · exact h.alloc ht
  | allocPages order =>
      obtain rfl := Option.some.inj hstep
      exact h.take order
  | write a v =>
      obtain rfl := Option.some.inj hstep
      exact h

/-! ### The clients -/

/-- What the pool says about the state: a cache is out of objects on both sides alike. -/
theorem SlubInv.outOfObjects_iff (hI : SlubInv ram s P blocks used) (hi : i < NR_KOBJECT_SIZE_TYPE) :
    OutOfObjects s i ↔ P.OutOf i := by
  rw [hI.outOfObjects_pool hi]
  exact ⟨fun h => ⟨h.1, h.2⟩, fun h => ⟨h.empty, h.exhausted⟩⟩

/-- A step of a client keeps a cache out of objects. -/
theorem Heap.Simulates.step_outOf {h h' : Heap} {op : ClientOp} (hs : h.Simulates ram P)
    (hstep : h.step op = some h') (hi : i < NR_KOBJECT_SIZE_TYPE) (hout : OutOfObjects h.kmem i) :
    OutOfObjects h'.kmem i := by
  obtain ⟨P', hpool, hs'⟩ := hs.step hstep
  have hnext := ((hs.inv.outOfObjects_iff hi).mp hout).step (r := (P, h.answers)) hpool
  exact (hs'.inv.outOfObjects_iff hi).mpr hnext

/-- `kmalloc` returns NULL exactly when the cache is out of objects, provided that no frame is at
NULL. -/
theorem Heap.Simulates.kmalloc_null_iff {h : Heap} (hs : h.Simulates ram P)
    (hnull : ∀ q ∈ ram, slubAddr q ≠ 0) (hsz : sz ≤ KMALLOC_MAX_CACHE_SIZE)
    (hindex : slubIndex sz = some i) :
    (∃ s', SumiOS.kmalloc h.kmem sz = some (s', 0)) ↔ OutOfObjects h.kmem i := by
  obtain ⟨s', x, heq, hiff, -⟩ := hs.inv.kmalloc_null_iff (slubIndex_lt hindex) hnull
  rw [kmalloc_eq hsz hindex, heq]
  constructor
  · intro hfail
    obtain ⟨s'', hfail⟩ := hfail
    obtain ⟨-, rfl⟩ := Prod.mk.inj (Option.some.inj hfail)
    exact hiff.mp rfl
  · intro hout
    exact ⟨s', by rw [hiff.mpr hout]⟩

/-! ### The kernel -/

/-- A step of anybody leaves a cache out of objects that was so before: allocations and mapping
calls only take blocks away, and nothing is ever given back to the caches. -/
theorem Kernel.Inv.step_outOf (hI : k.Inv ram base kernPgtable walk)
    (hstep : k.step kernPgtable op = some k') (hok : -1 ∉ k'.tables) (hi : i < NR_KOBJECT_SIZE_TYPE)
    (hout : OutOfObjects k.heap.kmem i) : OutOfObjects k'.heap.kmem i := by
  obtain ⟨P, ho⟩ := hI.heap
  cases op with
  | client op =>
      obtain ⟨h, hheap, rfl⟩ := Option.map_eq_some_iff.mp hstep
      have hnext := ho.toSimulates.step_outOf (Kernel.ghost_step hheap) hi hout
      exact hnext
  | map c =>
      -- The pages for tables come from the free lists, and no cache gains an object from them.
      rw [Kernel.step] at hstep
      split at hstep
      · obtain ⟨t, ht⟩ : ∃ t, pgtableMap KERNEL_DIRECT_MAPPING_AREA (logged mmPhysAllocPage)
            k.heap.kmem.mem (k.heap.kmem.buddy, k.tables) kernPgtable c.va c.pa c.attr = t := ⟨_, rfl⟩
        obtain ⟨n, -, hn⟩ := pgtableMap_allocs KERNEL_DIRECT_MAPPING_AREA (logged mmPhysAllocPage)
          k.heap.kmem.mem (k.heap.kmem.buddy, k.tables) kernPgtable c.va c.pa c.attr
        rw [ht] at hn
        rw [Option.some.injEq, Kernel.mapPage_eq ht] at hstep
        subst hstep
        obtain ⟨-, ho'⟩ := ho.allocTables n hI.aligned hn.symm hok
        have htaken : ((fun P => (P.take 0).1)^[n] P).OutOf i := by
          clear hn ho'
          induction n with
          | zero => exact (ho.inv.outOfObjects_iff hi).mp hout
          | succ n ih =>
              rw [Function.iterate_succ_apply']
              exact ih.take 0
        exact (ho'.inv.outOfObjects_iff hi).mpr htaken
      · cases hstep

/-- A run leaves a cache out of objects, by induction on its steps: once `kmalloc` has returned
NULL for a size, it does so for ever. -/
theorem Kernel.Inv.run_outOf (hI : k.Inv ram base kernPgtable walk)
    (hbase : ∀ q, base q → PageAligned q ∧ pageOf q ∉ ram)
    (hrun : Lib.run (Kernel.step kernPgtable) k ops = some k') (hok : -1 ∉ k'.tables)
    (hi : i < NR_KOBJECT_SIZE_TYPE) (hout : OutOfObjects k.heap.kmem i) :
    OutOfObjects k'.heap.kmem i := by
  induction ops generalizing k with
  | nil =>
      rw [Lib.run, Option.some.injEq] at hrun
      rw [← hrun]
      exact hout
  | cons op ops ih =>
      obtain ⟨k₁, hstep, hrest⟩ := run_cons.mp hrun
      have hok₁ : -1 ∉ k₁.tables := fun h => hok ((Kernel.run_tables hrest).subset h)
      exact ih (hI.step hbase hstep hok₁) hrest (hI.step_outOf hstep hok₁ hi hout)

end Final

end SumiOS
