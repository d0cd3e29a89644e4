import SumiOS.Proofs.Slub.Kmalloc
import SumiOS.Lib.Run

/-!
# `SumiOS.Proofs.Slub.Objects`: what `kmalloc` and `alloc_pages` hand out

The clients of both allocators call them in any order, and write to the bytes that they
hold (`Heap.step`). `Heap.Simulates` says that the allocator is represented by a pool, for
which the writes do nothing.

`kmalloc_disjoint` is the result for every run from `kmem_cache_init` on a sound buddy
system: all objects and blocks that were handed out share no byte, each object lies in a
block that its cache took, every call returns, and no write of a client changes what a
later call returns. The last part compares the run with the run of the calls alone, and
with any other run of the same calls.
-/

set_option autoImplicit false

namespace SumiOS

open Lib

/-! ### Clients -/

/-- What a client does: it calls one of the allocators, or it writes a byte. -/
inductive ClientOp
  | kmalloc (sz : Word)
  | allocPages (order : Nat)
  | write (a : Word) (v : BitVec 8)

/-- A call and what it returned. -/
inductive Answer
  | object (sz obj : Word)
  | block (order : Nat) (p : Option Int)
deriving DecidableEq

/-- The bytes that a call handed out: an object as large as the objects of its cache, or a
block. -/
def Answer.region (s : Kmem) : Answer → Option Region
  | .object sz obj =>
      if obj = 0 then none
      else (slubIndex sz).map fun i => ⟨obj, (s.kmemCacheList i).objSize.toNat⟩
  | .block order p => p.map fun p => blockRegion ⟨p, order⟩

/-- The allocators, and the calls so far, the latest first. -/
structure Heap where
  kmem : Kmem
  answers : List Answer

/-- What the clients hold. -/
def Heap.held (h : Heap) : List Region := h.answers.filterMap (Answer.region h.kmem)

/-- A step of a client. It writes only to bytes that were handed out. -/
def Heap.step (h : Heap) : ClientOp → Option Heap
  | .kmalloc sz => (kmalloc h.kmem sz).map fun r => ⟨r.1, .object sz r.2 :: h.answers⟩
  | .allocPages order =>
      let r := allocPages h.kmem.buddy order
      some ⟨{ h.kmem with buddy := r.1 }, .block order r.2 :: h.answers⟩
  | .write a v =>
      if h.held.any (·.Holds a) then
        some { h with kmem := { h.kmem with mem := Function.update h.kmem.mem a v } }
      else none

/-- The calls among the steps of a client. -/
def calls (ops : List ClientOp) : List ClientOp :=
  ops.filter fun
    | .write _ _ => false
    | _ => true

/-- The block that a call handed out. -/
def Answer.blockOf : Answer → Option Block
  | .object _ _ => none
  | .block order p => p.map fun p => ⟨p, order⟩

/-- The object of the cache `i` that a call handed out. -/
def Answer.objectOf (i : Nat) : Answer → Option Word
  | .object sz obj => if obj ≠ 0 ∧ slubIndex sz = some i then some obj else none
  | .block _ _ => none

/-- The blocks that were handed out. -/
def heldBlocks (answers : List Answer) : List Block := answers.filterMap Answer.blockOf

/-- The objects of a cache that were handed out. -/
def heldObjects (answers : List Answer) (i : Nat) : List Word :=
  answers.filterMap (Answer.objectOf i)

/-! ### The clients of the pool -/

/-- `kmalloc` on the pool. -/
def Pool.kmalloc (P : Pool) (sz : Word) : Option (Pool × Word) :=
  if sz > KMALLOC_MAX_CACHE_SIZE then some (P, 0)
  else
    match slubIndex sz with
    | none => none
    | some i => Pool.alloc i redoBound P

/-- A step of a client on the pool. A write does nothing. -/
def Pool.step (r : Pool × List Answer) : ClientOp → Option (Pool × List Answer)
  | .kmalloc sz => (r.1.kmalloc sz).map fun t => (t.1, .object sz t.2 :: r.2)
  | .allocPages order =>
      let t := r.1.take order
      some (t.1, .block order t.2 :: r.2)
  | .write _ _ => some r

/-- Writes do not matter to the pool, so a run with them left out leads to the same pool and the
same answers. -/
theorem Pool.run_calls (r : Pool × List Answer) (ops : List ClientOp) :
    run Pool.step r (calls ops) = run Pool.step r ops := by
  induction ops generalizing r with
  | nil => rfl
  | cons op ops ih =>
      cases op with
      | kmalloc sz =>
          show (Pool.step r (.kmalloc sz)).bind (fun r => run Pool.step r (calls ops)) = _
          simp only [ih, run]
      | allocPages order =>
          show (Pool.step r (.allocPages order)).bind (fun r => run Pool.step r (calls ops)) = _
          simp only [ih, run]
      | write a v => exact ih r

/-- The allocators are represented by the pool, and only sizes that are not too large got an
object. -/
structure Heap.Simulates (ram : Set Int) (h : Heap) (P : Pool) : Prop where
  inv : SlubInv ram h.kmem P (heldBlocks h.answers) (heldObjects h.answers)
  small : ∀ sz obj, .object sz obj ∈ h.answers → obj ≠ 0 → sz ≤ KMALLOC_MAX_CACHE_SIZE

section

variable {ram : Set Int} {h h' : Heap} {P : Pool} {s : Kmem} {as : List Answer} {sz x : Word} {i : Nat}
  {op : ClientOp} {ops : List ClientOp}

/-! ### One step -/

/-- NULL adds nothing to the objects that a client holds. -/
theorem heldObjects_null (sz : Word) : heldObjects (.object sz 0 :: as) = heldObjects as := by
  funext k
  have hnone : Answer.objectOf k (.object sz 0) = none := by simp [Answer.objectOf]
  exact List.filterMap_cons_none hnone

/-- One more call of `kmalloc` adds its answer to the objects of its cache, unless the answer is
NULL. -/
theorem heldObjects_cons (hi : slubIndex sz = some i) (x : Word) :
    heldObjects (.object sz x :: as) = handOutUnlessNull (heldObjects as) i x := by
  rw [handOutUnlessNull]
  by_cases hx : x = 0
  · rw [if_pos hx, hx]
    exact heldObjects_null sz
  · rw [if_neg hx]
    funext k
    by_cases e : k = i
    · subst e
      have hsome : Answer.objectOf k (.object sz x) = some x := if_pos ⟨hx, hi⟩
      rw [handOut, Function.update_self]
      exact List.filterMap_cons_some hsome
    · have hnone : Answer.objectOf k (.object sz x) = none :=
        if_neg fun h => e (Option.some.inj (h.2.symm.trans hi))
      rw [handOut, Function.update_of_ne e]
      exact List.filterMap_cons_none hnone

/-- A call of `kmalloc` returns, and does what the pool does: the same answer, and states that
correspond again. -/
theorem Heap.Simulates.kmalloc (hs : h.Simulates ram P) (sz : Word) :
    ∃ P' s' x, P.kmalloc sz = some (P', x) ∧ SumiOS.kmalloc h.kmem sz = some (s', x) ∧
      Heap.Simulates ram ⟨s', .object sz x :: h.answers⟩ P' := by
  rw [Pool.kmalloc, SumiOS.kmalloc]
  by_cases hsz : sz > KMALLOC_MAX_CACHE_SIZE
  · rw [if_pos hsz, if_pos hsz]
    refine ⟨P, h.kmem, 0, rfl, rfl, ?_, ?_⟩
    · rw [heldObjects_null]
      exact hs.inv
    · intro sz' obj hmem hobj
      cases hmem with
      | head => exact absurd rfl hobj
      | tail _ hmem => exact hs.small sz' obj hmem hobj
  · obtain ⟨i, hi, hindex, -⟩ := slubIndex_spec (BitVec.not_lt.mp hsz)
    rw [if_neg hsz, if_neg hsz, hindex]
    rcases hs.inv.kmemCacheAlloc hi redoBound with ⟨-, hnone⟩ | ⟨P', s', x, hP, hx, hI⟩
    · exact absurd hnone (hs.inv.kmemCacheAlloc_ne_none hi)
    · refine ⟨P', s', x, hP, hx, ?_, ?_⟩
      · rw [heldObjects_cons hindex]
        exact hI
      · intro sz' obj hmem hobj
        cases hmem with
        | head => exact BitVec.not_lt.mp hsz
        | tail _ hmem => exact hs.small sz' obj hmem hobj

/-- A call of `alloc_pages` does what the pool does, with the same answer, and the blocks that are
held are one more. -/
theorem Heap.Simulates.allocPages (hs : h.Simulates ram P) (order : Nat) :
    Heap.Simulates ram
      ⟨{ h.kmem with buddy := (allocPages h.kmem.buddy order).1 },
        .block order (allocPages h.kmem.buddy order).2 :: h.answers⟩ (P.take order).1 ∧
      (SumiOS.allocPages h.kmem.buddy order).2 = (P.take order).2 := by
  have hsmall : ∀ (p : Option Int) sz obj, .object sz obj ∈ Answer.block order p :: h.answers →
      obj ≠ 0 → sz ≤ KMALLOC_MAX_CACHE_SIZE := by
    intro p sz obj hmem hobj
    cases hmem with
    | tail _ hmem => exact hs.small sz obj hmem hobj
  rcases hs.inv.allocPages order with ⟨heq, htake⟩ | ⟨b, P', p, heq, htake, hI⟩
  · rw [heq, htake]
    exact ⟨⟨hs.inv, hsmall none⟩, rfl⟩
  · rw [heq, htake]
    exact ⟨⟨hI, hsmall (some p)⟩, rfl⟩

/-- A size that is served is served by one of the ten caches. -/
theorem slubIndex_lt (h : slubIndex sz = some i) : i < NR_KOBJECT_SIZE_TYPE := by
  unfold slubIndex at h
  split_ifs at h
  all_goals
    cases h
    decide

/-- The object size in the record of a cache is that of the abstract pool. -/
theorem CacheRep.bytes {m : Mem} {kc : KmemCache} {slub : Option Int} {chain : List Word}
    (h : CacheRep m i kc slub chain) (hi : i < NR_KOBJECT_SIZE_TYPE) :
    kc.objSize.toNat = cacheSize i := by
  rw [h.objSize]
  exact (objSize_spec i hi).1

/-- What a call handed out is a block or an object, and its bytes are those of the block or of the
object. -/
theorem Heap.Simulates.region_cases (hs : h.Simulates ram P) {a : Answer} {r : Region}
    (hr : a.region h.kmem = some r) :
    (∃ c, a.blockOf = some c ∧ r = blockRegion c) ∨
    ∃ i < NR_KOBJECT_SIZE_TYPE, ∃ x, a.objectOf i = some x ∧ r = chunkRegion i x := by
  cases a with
  | object sz obj =>
      rw [Answer.region] at hr
      by_cases hobj : obj = 0
      · simp [hobj] at hr
      · rw [if_neg hobj] at hr
        obtain ⟨i, hi, rfl⟩ := Option.map_eq_some_iff.mp hr
        have hlt := slubIndex_lt hi
        refine Or.inr ⟨i, hlt, obj, if_pos ⟨hobj, hi⟩, ?_⟩
        rw [(hs.inv.cache i hlt).bytes hlt]
        rfl
  | block order p =>
      obtain ⟨q, rfl, rfl⟩ := Option.map_eq_some_iff.mp hr
      exact Or.inl ⟨_, rfl, rfl⟩

/-- A step of a client, on the allocators and on the pool: whatever the step is, both sides give
the same answers and correspond afterwards. -/
theorem Heap.Simulates.step (hs : h.Simulates ram P) (hstep : h.step op = some h') :
    ∃ P', Pool.step (P, h.answers) op = some (P', h'.answers) ∧ h'.Simulates ram P' := by
  cases op with
  | kmalloc sz =>
      obtain ⟨P', s', x, hP, hx, hs'⟩ := hs.kmalloc sz
      rw [Heap.step, hx, Option.map_some, Option.some.injEq] at hstep
      subst hstep
      exact ⟨P', by rw [Pool.step, hP]; rfl, hs'⟩
  | allocPages order =>
      obtain ⟨hs', hp⟩ := hs.allocPages order
      rw [Heap.step, Option.some.injEq] at hstep
      subst hstep
      exact ⟨(P.take order).1, by rw [Pool.step, hp], hs'⟩
  | write a v =>
      rw [Heap.step] at hstep
      by_cases hheld : h.held.any (·.Holds a) = true
      · rw [if_pos hheld, Option.some.injEq] at hstep
        subst hstep
        refine ⟨P, rfl, ⟨hs.inv.write v ?_, hs.small⟩⟩
        obtain ⟨r, hr, hra⟩ := List.any_eq_true.mp hheld
        obtain ⟨answer, hanswer, hregion⟩ := List.mem_filterMap.mp hr
        have hra := of_decide_eq_true hra
        rcases hs.region_cases hregion with ⟨c, hc, rfl⟩ | ⟨i, -, x, hx, rfl⟩
        · exact Or.inl ⟨c, List.mem_filterMap.mpr ⟨answer, hanswer, hc⟩, hra⟩
        · exact Or.inr ⟨i, x, List.mem_filterMap.mpr ⟨answer, hanswer, hx⟩, hra⟩
      · rw [if_neg hheld] at hstep
        exact absurd hstep (by simp)

/-! ### Runs -/

/-- A run of the clients, on the allocators and on the pool, by induction on its steps: the answers
are the same all the way. -/
theorem Heap.Simulates.run (hs : h.Simulates ram P) (hrun : run Heap.step h ops = some h') :
    ∃ P', run Pool.step (P, h.answers) ops = some (P', h'.answers) ∧ h'.Simulates ram P' := by
  induction ops generalizing h P with
  | nil =>
      rw [Lib.run, Option.some.injEq] at hrun
      subst hrun
      exact ⟨P, rfl, hs⟩
  | cons op ops ih =>
      obtain ⟨h₁, hstep, hrest⟩ := run_cons.mp hrun
      obtain ⟨P₁, hpool, hs₁⟩ := hs.step hstep
      obtain ⟨P', hpools, hs'⟩ := ih hs₁ hrest
      exact ⟨P', run_cons.mpr ⟨_, hpool, hpools⟩, hs'⟩

/-- Calls alone never get stuck: `kmalloc` and `alloc_pages` return in every state, and only a
write may be refused. -/
theorem Heap.Simulates.calls_run (hs : h.Simulates ram P) (ops : List ClientOp) :
    ∃ h', Lib.run Heap.step h (calls ops) = some h' := by
  induction ops generalizing h P with
  | nil => exact ⟨h, rfl⟩
  | cons op ops ih =>
      cases op with
      | kmalloc sz =>
          obtain ⟨P', s', x, -, hx, hs'⟩ := hs.kmalloc sz
          obtain ⟨h', hrun⟩ := ih hs'
          have hstep : h.step (.kmalloc sz) = some ⟨s', .object sz x :: h.answers⟩ := by
            rw [Heap.step, hx]
            rfl
          exact ⟨h', run_cons.mpr ⟨_, hstep, hrun⟩⟩
      | allocPages order =>
          obtain ⟨h', hrun⟩ := ih (hs.allocPages order).1
          exact ⟨h', run_cons.mpr ⟨_, rfl, hrun⟩⟩
      | write a v => exact ih hs

/-- Two runs of the same calls from states that the same pool represents get the same
answers. -/
theorem Heap.Simulates.same_answers {h₁ h₂ h₁' h₂' : Heap} {ops₁ ops₂ : List ClientOp}
    (hs₁ : h₁.Simulates ram P) (hs₂ : h₂.Simulates ram P) (hanswers : h₁.answers = h₂.answers)
    (hcalls : calls ops₁ = calls ops₂) (hrun₁ : Lib.run Heap.step h₁ ops₁ = some h₁')
    (hrun₂ : Lib.run Heap.step h₂ ops₂ = some h₂') : h₁'.answers = h₂'.answers := by
  obtain ⟨P₁, hpool₁, -⟩ := hs₁.run hrun₁
  obtain ⟨P₂, hpool₂, -⟩ := hs₂.run hrun₂
  rw [← Pool.run_calls, hcalls, hanswers, Pool.run_calls, hpool₂, Option.some.injEq] at hpool₁
  exact (Prod.mk.inj hpool₁).2.symm

/-! ### What was handed out -/

/-- Disjointness of regions can be read from either side. -/
theorem Region.Disjoint.symm {r r' : Region} (h : r.Disjoint r') : r'.Disjoint r :=
  fun x hx hx' => h x hx' hx

/-- What the clients hold shares no byte: blocks with blocks, objects with objects, and blocks with
objects, which lie in blocks of the caches. -/
theorem Heap.Simulates.disjoint (hs : h.Simulates ram P) : h.held.Pairwise Region.Disjoint := by
  have hblocks : (heldBlocks h.answers).Pairwise Block.Apart :=
    (List.pairwise_append.mp hs.inv.blockInv.tidy.outApart).1
  have hobjects : ∀ i, (heldObjects h.answers i).Pairwise (· ≠ ·) := fun i =>
    (List.nodup_append.mp (hs.inv.nodup i)).2.1
  simp only [heldBlocks, heldObjects, List.pairwise_filterMap] at hblocks hobjects
  rw [Heap.held, List.pairwise_filterMap, List.pairwise_iff_getElem]
  intro m n hm hn hmn r hr r' hr'
  -- The two answers, each a block or an object.
  have hblock : ∀ {k : Nat} (hk : k < h.answers.length) {c : Block},
      h.answers[k].blockOf = some c → c ∈ heldBlocks h.answers ∧ Physical c := by
    intro k hk c hc
    have hmem : c ∈ heldBlocks h.answers :=
      List.mem_filterMap.mpr ⟨_, List.getElem_mem hk, hc⟩
    exact ⟨hmem, hs.inv.physical c (Or.inl (List.mem_append_left _ hmem))⟩
  have hobject : ∀ {k i : Nat} (hk : k < h.answers.length) {x : Word},
      h.answers[k].objectOf i = some x → x ∈ P.chain i ++ heldObjects h.answers i := by
    intro k i hk x hx
    exact List.mem_append_right _ (List.mem_filterMap.mpr ⟨_, List.getElem_mem hk, hx⟩)
  rcases hs.region_cases hr with ⟨c, hc, rfl⟩ | ⟨i, hi, x, hx, rfl⟩
  · rcases hs.region_cases hr' with ⟨d, hd, rfl⟩ | ⟨k, hk, y, hy, rfl⟩
    · have hapart := List.pairwise_iff_getElem.mp hblocks m n hm hn hmn c hc d hd
      exact disjoint_of_apart (hblock hm hc).2 (hblock hn hd).2 hapart
    · exact hs.inv.disjoint_block (hblock hm hc).1 (hobject hn hy)
  · rcases hs.region_cases hr' with ⟨d, hd, rfl⟩ | ⟨k, hk, y, hy, rfl⟩
    · exact (hs.inv.disjoint_block (hblock hn hd).1 (hobject hm hx)).symm
    · refine hs.inv.disjoint (hobject hm hx) (hobject hn hy) fun e => ?_
      obtain ⟨rfl, rfl⟩ := Prod.mk.inj e
      exact List.pairwise_iff_getElem.mp (hobjects i) m n hm hn hmn x hx x hy rfl

/-- An object is large enough, and lies in a block that its cache took. -/
theorem Heap.Simulates.inside (hs : h.Simulates ram P) (hmem : .object sz x ∈ h.answers) (hx : x ≠ 0)
    (hi : slubIndex sz = some i) :
    ∃ p, (i, p) ∈ h.kmem.slubs ∧ ∀ y,
      (⟨x, (h.kmem.kmemCacheList i).objSize.toNat⟩ : Region).Holds y →
        (blockRegion ⟨p, ((h.kmem.kmemCacheList i).objSize >>> PAGE_SHIFT).toNat⟩).Holds y := by
  have hlt := slubIndex_lt hi
  have hheld : x ∈ heldObjects h.answers i :=
    List.mem_filterMap.mpr ⟨_, hmem, if_pos ⟨hx, hi⟩⟩
  obtain ⟨p, hp, hxp⟩ := hs.inv.member i x (List.mem_append_right _ hheld)
  refine ⟨p, hs.inv.slubs ▸ hp, fun y hy => ?_⟩
  rw [(hs.inv.cache i hlt).bytes hlt] at hy
  rw [(hs.inv.cache i hlt).objSize, (objSize_spec i hlt).2.1]
  exact chunk_subset_block hlt (hs.inv.physical_slub hp) hxp hy

end

/-- In every run of the clients from `kmem_cache_init` on a sound buddy system: all objects
and blocks that were handed out share no byte; each object has the size of its cache, which
is at least the size that was asked for, and lies in one block that the cache took; `kmalloc`
returns; and the writes change no answer, neither against the calls alone nor against
another run of the same calls. -/
theorem kmalloc_disjoint (s : Kmem) (pages : Nat → List Int) (hS : Sound s.buddy pages)
    (hphys : ∀ c ∈ blocksOf pages, Physical c) (ops : List ClientOp) (h : Heap)
    (hrun : run Heap.step ⟨kmemCacheInit s, []⟩ ops = some h) :
    h.held.Pairwise Region.Disjoint ∧
      (∀ sz obj, .object sz obj ∈ h.answers → obj ≠ 0 → ∃ i, slubIndex sz = some i ∧
        sz.toNat ≤ (h.kmem.kmemCacheList i).objSize.toNat ∧
        ∃ p, (i, p) ∈ h.kmem.slubs ∧ ∀ x,
          (⟨obj, (h.kmem.kmemCacheList i).objSize.toNat⟩ : Region).Holds x →
            (blockRegion ⟨p, ((h.kmem.kmemCacheList i).objSize >>> PAGE_SHIFT).toNat⟩).Holds x) ∧
      (∀ sz, kmalloc h.kmem sz ≠ none) ∧
      (∃ h', run Heap.step ⟨kmemCacheInit s, []⟩ (calls ops) = some h' ∧ h'.answers = h.answers) ∧
      ∀ ops' h', calls ops' = calls ops →
        run Heap.step ⟨kmemCacheInit s, []⟩ ops' = some h' → h'.answers = h.answers := by
  have hstart : Heap.Simulates (framesOf pages) ⟨kmemCacheInit s, []⟩ (Pool.start pages) :=
    ⟨slubInv_init hS hphys, fun _ _ hmem => absurd hmem List.not_mem_nil⟩
  obtain ⟨P, -, hs⟩ := hstart.run hrun
  refine ⟨hs.disjoint, fun sz obj hmem hobj => ?_, fun sz hnone => ?_, ?_, fun ops' h' hcalls hrun' =>
    hstart.same_answers hstart rfl hcalls hrun' hrun⟩
  · obtain ⟨i, hi, hindex, hle⟩ := slubIndex_spec (hs.small sz obj hmem hobj)
    -- The object has the size of its cache, which is at least what was asked for.
    refine ⟨i, hindex, ?_, hs.inside hmem hobj hindex⟩
    rw [(hs.inv.cache i hi).bytes hi]
    exact hle
  · obtain ⟨P', s', x, -, hx, -⟩ := hs.kmalloc sz
    rw [hnone] at hx
    exact absurd hx (by simp)
  · obtain ⟨h', hrun'⟩ := hstart.calls_run ops
    have hcalls : calls (calls ops) = calls ops := by simp [calls]
    exact ⟨h', hrun', hstart.same_answers hstart rfl hcalls hrun' hrun⟩

/-- Three calls of `kmalloc` and one of `alloc_pages` on four frames. The first object is
written to before the others are taken, and the last call finds nothing. -/
theorem kmalloc_disjoint_four :
    ∃ h, run Heap.step ⟨kmemCacheInit ⟨putFree cleared 8 2, fun _ => 0, fun _ => ⟨0, none, 0⟩, []⟩, []⟩
        [.kmalloc 3000, .write 0xffff888000008000 7, .kmalloc 3000, .allocPages 1, .kmalloc 3000]
        = some h ∧
      h.answers = [.object 3000 0, .block 1 (some 10), .object 3000 0xffff888000009000,
        .object 3000 0xffff888000008000] ∧
      h.held.Pairwise Region.Disjoint := by
  have hsome : (run Heap.step
      ⟨kmemCacheInit ⟨putFree cleared 8 2, fun _ => 0, fun _ => ⟨0, none, 0⟩, []⟩, []⟩
      [.kmalloc 3000, .write 0xffff888000008000 7, .kmalloc 3000, .allocPages 1,
        .kmalloc 3000]).map (·.answers) = some [.object 3000 0, .block 1 (some 10),
          .object 3000 0xffff888000009000, .object 3000 0xffff888000008000] := by
    decide +kernel
  obtain ⟨h, hrun, hanswers⟩ := Option.map_eq_some_iff.mp hsome
  refine ⟨h, hrun, hanswers, (kmalloc_disjoint _ _ sound_four (fun c hc => ?_) _ h hrun).1⟩
  -- The block of the four frames.
  obtain ⟨p, i⟩ := c
  by_cases hi : i = 2 <;> simp_all [blocksOf, Physical]

end SumiOS
