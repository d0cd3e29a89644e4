import Mathlib.Data.Int.Interval
import SumiOS.Proofs.Kernel.Frames
import SumiOS.Proofs.Slub.Exhausted

/-!
# `SumiOS.Proofs.Slub.AtNull`: the frame at NULL

The frame at the physical address `0x778000000000` has the address NULL in the direct mapping
area. A cache that takes it believes that it has no objects: the first object of the block ends
its chain. So `kmalloc` returns NULL although there was a block, and keeps the block
(`not_usesSlubsUp_null`).

`usesSlubsUp_iff` says that nothing else goes wrong: in all runs of `kmalloc` the caches use their
blocks up exactly when no free block has that frame. For the other direction, objects of 2048
bytes are asked for until there is none left. When the caches have used their blocks up so far,
the objects fill all free frames, and one of them would be NULL (`not_outOfObjects`). Before
that no call fails, and memory is finite.
-/

set_option autoImplicit false

namespace SumiOS

open Lib

section AtNull

variable {ram : Set Int} {s : Kmem} {P : Pool} {blocks : List Block} {used : Nat → List Word}
  {h : Heap} {xs : List Word} {q : Int} {i : Nat}

/-- There is one frame whose address in the direct mapping area is NULL. -/
theorem slubAddr_eq_zero_iff (hlow : 0 ≤ q) (hhigh : q < 2 ^ 52) :
    slubAddr q = 0 ↔ q = 0x778000000 := by
  constructor
  · intro h
    have hplace := physOf_slubAddr hlow hhigh
    have hzero : physOf 0 = 4096 * 0x778000000 := by decide
    rw [h, hzero] at hplace
    omega
  · rintro rfl
    decide

/-! ### Objects of 2048 bytes -/

/-- A client that has got `xs` for its calls of `kmalloc(2048)`. -/
def halfPages (xs : List Word) : List Answer := xs.map (Answer.object 2048)

/-- A client that asked for half pages holds objects and no blocks. -/
theorem heldBlocks_halfPages : heldBlocks (halfPages xs) = [] := by
  rw [heldBlocks, halfPages, List.filterMap_map, List.filterMap_eq_nil_iff]
  exact fun _ _ => rfl

/-- The objects are those of the cache 7, whose blocks are frames of two objects. -/
theorem heldObjects_halfPages (hxs : 0 ∉ xs) : heldObjects (halfPages xs) 7 = xs := by
  induction xs with
  | nil => rfl
  | cons x xs ih =>
      obtain ⟨hx, hrest⟩ := not_or.mp (List.mem_cons.not.mp hxs)
      have hcons : heldObjects (.object 2048 x :: halfPages xs) 7
          = handOutUnlessNull (heldObjects (halfPages xs)) 7 x 7 :=
        congrFun (heldObjects_cons rfl x) 7
      rw [handOutUnlessNull_self fun e => hx e.symm, ih hrest] at hcons
      exact hcons

/-- It holds objects of the one cache for that size, and none of the others. -/
theorem heldObjects_halfPages_other (hi : i ≠ 7) : heldObjects (halfPages xs) i = [] := by
  rw [heldObjects, halfPages, List.filterMap_map, List.filterMap_eq_nil_iff]
  exact fun x _ => if_neg fun h => hi (Option.some.inj h.2).symm

/-- None of its calls has failed while every answer is an address other than NULL. -/
theorem not_hasFailed_halfPages (hxs : 0 ∉ xs) (i : Nat) : ¬ HasFailed (halfPages xs) i := by
  intro h
  obtain ⟨sz, -, hmem⟩ := h
  obtain ⟨x, hx, heq⟩ := List.mem_map.mp hmem
  exact hxs ((Answer.object.inj heq).2 ▸ hx)

/-- The caches have used their blocks up: the cache 7 took a frame for two objects, and the other
caches took nothing. -/
theorem Heap.Owns.slubsOf_halfPages (ho : h.Owns ram P) (hanswers : h.answers = halfPages xs)
    (hxs : 0 ∉ xs) (huses : UsesSlubsUp h) :
    (P.slubsOf 7).length = (xs.length + 1) / 2 ∧
      (∃ ys, Chain h.kmem.mem (h.kmem.kmemCacheList 7).freelist ys ∧
        ys.length = (xs.length + 1) / 2 * 2 - xs.length) ∧
      ∀ q ∈ P.slubs, q.1 = 7 := by
  have hfilled : ∀ i < NR_KOBJECT_SIZE_TYPE, Filled h.kmem i (heldObjects h.answers i).length :=
    fun i hi => huses.filled i hi (hanswers ▸ not_hasFailed_halfPages hxs i)
  have htaken : ∀ i, takenBy h.kmem i = P.slubsOf i := fun i => by
    rw [takenBy, ho.inv.slubs]
    rfl
  have hper : ∀ i < NR_KOBJECT_SIZE_TYPE, perBlock (h.kmem.kmemCacheList i) = perSlub i :=
    fun i hi => (ho.inv.cache i hi).perBlock hi
  have hseven := hfilled 7 (by decide)
  rw [hanswers, heldObjects_halfPages hxs] at hseven
  refine ⟨?_, ?_, fun q hq => ?_⟩
  · have hlen := hseven.taken
    rw [htaken, hper 7 (by decide)] at hlen
    exact hlen
  · obtain ⟨ys, hys, hlen⟩ := hseven.chain
    rw [hper 7 (by decide)] at hlen
    exact ⟨ys, hys, hlen⟩
  · -- A block of another size would hold an object, and none was asked for.
    by_contra hne
    have hi := ho.inv.caches q hq
    have hother := (hfilled q.1 hi).taken
    rw [hanswers, heldObjects_halfPages_other hne, htaken, hper _ hi] at hother
    have htwo := (perSlub_spec q.1 hi).1
    have hzero : (P.slubsOf q.1).length = 0 := by
      rw [hother]
      exact Nat.div_eq_of_lt (by rw [List.length_nil]; omega)
    have hmem : q.2 ∈ P.slubsOf q.1 := Pool.mem_slubsOf.mpr hq
    rw [List.length_eq_zero_iff.mp hzero] at hmem
    exact absurd hmem List.not_mem_nil

/-- While the frame at NULL is among the frames, the objects of 2048 bytes do not run out. They
would be all objects of all frames, and one of these is NULL. -/
theorem Heap.Owns.not_outOfObjects (ho : h.Owns ram P) (hanswers : h.answers = halfPages xs)
    (hxs : 0 ∉ xs) (huses : UsesSlubsUp h) (hq : q ∈ ram) (hnull : slubAddr q = 0) :
    ¬ OutOfObjects h.kmem 7 := by
  intro hout
  obtain ⟨-, hexhausted⟩ := (ho.inv.outOfObjects_pool (by decide)).mp hout
  obtain ⟨htaken, ⟨ys, hys, hrest⟩, honly⟩ := ho.slubsOf_halfPages hanswers hxs huses
  have hobjects : heldObjects h.answers 7 = xs := hanswers ▸ heldObjects_halfPages hxs
  -- No block is free, so the frame is one that the cache took.
  have hslub : q ∈ P.slubsOf 7 := by
    obtain ⟨c, hc, hmem⟩ := ho.covers hq
    rcases hc with hc | ⟨horder, hlisted⟩
    · rw [hanswers, heldBlocks_halfPages, Pool.out, List.nil_append] at hc
      obtain ⟨⟨i, p⟩, hp, rfl⟩ := List.mem_map.mp hc
      obtain rfl : i = 7 := honly _ hp
      have horder : cacheOrder 7 = 0 := by decide
      rw [slubBlock, horder, frames_page] at hmem
      exact Pool.mem_slubsOf.mpr (hmem ▸ hp)
    · rw [hexhausted c.order (Nat.zero_le _) horder] at hlisted
      exact absurd hlisted List.not_mem_nil
  -- NULL and the objects that were handed out are different objects of the blocks.
  have hmem : ∀ x ∈ 0 :: xs, x ∈ (P.slubsOf 7).flatMap (chunks 7) := by
    intro x hx
    cases List.mem_cons.mp hx with
    | inl hx =>
        refine List.mem_flatMap.mpr ⟨q, hslub, ?_⟩
        rw [hx, ← hnull]
        exact List.mem_cons_self
    | inr hx =>
        obtain ⟨p, hp, hchunk⟩ := ho.inv.member 7 x (by
          rw [hobjects]
          exact List.mem_append_right _ hx)
        exact List.mem_flatMap.mpr ⟨p, Pool.mem_slubsOf.mpr hp, hchunk⟩
  have hnodup : (0 :: xs).Nodup := by
    have hused := (List.nodup_append.mp (ho.inv.nodup 7)).2.1
    rw [hobjects] at hused
    exact List.nodup_cons.mpr ⟨hxs, hused⟩
  have hle := hnodup.length_le_of_subset hmem
  have htwo : ∀ p ∈ P.slubsOf 7, (chunks 7 p).length = 2 := fun p _ => length_chunks 7 p
  rw [List.length_cons, List.length_flatMap, List.map_congr_left htwo, List.map_const',
    List.sum_replicate, htaken] at hle
  rw [hys.eq_zero_iff.mp hout.1, List.length_nil] at hrest
  rw [Nat.nsmul_eq_mul] at hle
  omega

/-- A cache has at most as many blocks as there are frames. -/
theorem SlubInv.slubsOf_bounded (hI : SlubInv ram s P blocks used) (i : Nat) :
    (P.slubsOf i).length ≤ 2 ^ 52 := by
  have hsub : (P.slubsOf i).toFinset ⊆ Finset.Ico (0 : Int) (2 ^ 52) := by
    intro p hp
    have hphys := hI.physical_slub (Pool.mem_slubsOf.mp (List.mem_toFinset.mp hp))
    have hpos := Block.two_pow_pos (cacheOrder i)
    obtain ⟨hlow, hhigh⟩ := physical_slubBlock.mp hphys
    exact Finset.mem_Ico.mpr ⟨hlow, by omega⟩
  have hcard := Finset.card_le_card hsub
  rw [List.toFinset_card_of_nodup (hI.slubsOf_nodup i), Int.card_Ico] at hcard
  omega

/-- As long as the caches use their blocks up, every call of `kmalloc(2048)` gets an object. -/
theorem Heap.Owns.halfPages_run (ho : h.Owns ram P) (hanswers : h.answers = [])
    (hall : ∀ (szs : List Word) h', run Heap.step h (szs.map .kmalloc) = some h' → UsesSlubsUp h') (hq : q ∈ ram)
    (hnull : slubAddr q = 0) (n : Nat) :
    ∃ xs h' P', run Heap.step h ((List.replicate n 2048).map .kmalloc) = some h' ∧
      h'.Owns ram P' ∧ h'.answers = halfPages xs ∧ 0 ∉ xs ∧ xs.length = n := by
  induction n with
  | zero => exact ⟨[], h, P, rfl, ho, hanswers, List.not_mem_nil, rfl⟩
  | succ n ih =>
      obtain ⟨xs, h', P', hrun, ho', hxs, hne, hlen⟩ := ih
      have huses := hall _ h' hrun
      obtain ⟨i, s', x, hindex, hx, hiff, -⟩ := huses.call 2048 (by decide)
      obtain rfl : 7 = i := Option.some.inj hindex
      have hx0 : x ≠ 0 := fun e => ho'.not_outOfObjects hxs hne huses hq hnull (hiff.mp e)
      have hstep : h'.step (.kmalloc 2048) = some ⟨s', .object 2048 x :: h'.answers⟩ := by
        rw [Heap.step, hx]
        rfl
      obtain ⟨P'', -, ho''⟩ := ho'.step hstep
      refine ⟨x :: xs, _, P'', ?_, ho'', ?_, ?_, ?_⟩
      · rw [List.replicate_succ', List.map_append, run_append, hrun]
        exact run_cons.mpr ⟨_, hstep, rfl⟩
      · rw [hxs]
        rfl
      · exact not_or.mpr ⟨fun e => hx0 e.symm, hne⟩ ∘ List.mem_cons.mp
      · rw [List.length_cons, hlen]

end AtNull

/-- In all runs of `kmalloc` from `kmem_cache_init` on a sound buddy system the caches use their
blocks up, if and only if no free block has the frame whose address is NULL. -/
theorem usesSlubsUp_iff (s : Kmem) (pages : Nat → List Int) (hS : Sound s.buddy pages)
    (hphys : ∀ c ∈ blocksOf pages, Physical c) :
    (∀ (szs : List Word) h, run Heap.step ⟨kmemCacheInit s, []⟩ (szs.map .kmalloc) = some h → UsesSlubsUp h) ↔
      0x778000000 ∉ framesOf pages := by
  constructor
  · intro hall hq
    have ho : Heap.Owns (framesOf pages) ⟨kmemCacheInit s, []⟩ (Pool.start pages) :=
      ⟨⟨slubInv_init hS hphys, fun _ _ hmem => absurd hmem List.not_mem_nil⟩,
        fun x hx => hx.imp fun c hc => ⟨Or.inr hc.1, hc.2⟩⟩
    -- More objects than fit into all frames.
    obtain ⟨xs, h, P, hrun, ho', hanswers, hxs, hlen⟩ :=
      ho.halfPages_run rfl hall hq (by decide) (2 ^ 53 + 1)
    obtain ⟨htaken, -, -⟩ := ho'.slubsOf_halfPages hanswers hxs (hall _ h hrun)
    have hfew := ho'.inv.slubsOf_bounded 7
    omega
  · intro hout szs h hrun
    refine kmalloc_exhausts s pages hS hphys (fun q hq hnull => hout ?_) _ h hrun
    obtain ⟨c, hc, hmem⟩ := hq
    obtain ⟨hlow, hhigh⟩ := hphys c hc
    rw [← (slubAddr_eq_zero_iff (hlow.trans hmem.1) (hmem.2.trans_le hhigh)).mp hnull]
    exact ⟨c, hc, hmem⟩

/-! ### Runs -/

/-- A machine with one free block of `2 ^ k` frames from `p` on. -/
def oneBlock (p : Int) (k : Nat) : Kmem :=
  ⟨putFree cleared p k, fun _ => 0, fun _ => ⟨0, none, 0⟩, []⟩

/-- The free frame is the one at NULL. `kmalloc` takes it, and returns NULL. -/
theorem not_usesSlubsUp_null :
    Sound (oneBlock 0x778000000 0).buddy (fun i => if i = 0 then [0x778000000] else []) ∧
      (∃ s', kmalloc (kmemCacheInit (oneBlock 0x778000000 0)) 2048 = some (s', 0) ∧
        takenBy s' 7 = [0x778000000]) ∧
      ¬ ∀ (szs : List Word) h, run Heap.step ⟨kmemCacheInit (oneBlock 0x778000000 0), []⟩
        (szs.map .kmalloc) = some h → UsesSlubsUp h := by
  refine ⟨Sound.of_one (by decide), ?_, fun hall => ?_⟩
  · have hnull : (kmalloc (kmemCacheInit (oneBlock 0x778000000 0)) 2048).map
        (fun r => (takenBy r.1 7, r.2)) = some ([0x778000000], 0) := by
      decide +kernel
    obtain ⟨r, hr, heq⟩ := Option.map_eq_some_iff.mp hnull
    obtain ⟨htaken, hobj⟩ := Prod.mk.inj heq
    exact ⟨r.1, by rw [hr, ← hobj], htaken⟩
  · have hnull : (kmalloc (kmemCacheInit (oneBlock 0x778000000 0)) 2048).map (·.2) = some 0 := by
      decide +kernel
    have hout : ¬ OutOfObjects (kmemCacheInit (oneBlock 0x778000000 0)) 7 := by
      intro hout
      have hempty := hout.2 0 (by decide +kernel) (by decide)
      revert hempty
      decide +kernel
    obtain ⟨i, s', x, hindex, hx, hiff, -⟩ := (hall [] _ rfl).call 2048 (by decide)
    obtain rfl : 7 = i := Option.some.inj hindex
    rw [hx] at hnull
    exact hout (hiff.mp (Option.some.inj hnull))

/-- A block joins an empty free list and is its only node then. The other rings stay, because
neither the head nor the page is on them. -/
theorem ring_putFree {b : Buddy} {p : Int} {k : Nat} {n : Node} {ns : List Node}
    (hempty : IsRing b.links (freelist k) []) (hpage : b.links.prev (.page p) = .page p)
    (hn : n ≠ freelist k) (hn' : n ≠ .page p) (hr : IsRing b.links n ns) :
    IsRing (putFree b p k).links n ns := by
  obtain ⟨hnext, hprev⟩ := isRing_nil.mp hempty
  have hspliced : Spliced b.links (putFree b p k).links (freelist k) (.page p) (freelist k) := by
    have h := b.links.insertAfter_spliced (x := freelist k) (y := .page p) (by simp) (by simp [hnext])
    rwa [hnext] at h
  have hout : ∀ a ∈ n :: ns, a ≠ freelist k ∧ a ≠ .page p := by
    intro a ha
    cases List.mem_cons.mp ha with
    | inl ha => exact ha ▸ ⟨hn, hn'⟩
    | inr ha =>
        exact ⟨fun e => hr.not_mem_of_prev_self hprev hn (e ▸ ha),
          fun e => hr.not_mem_of_prev_self hpage hn' (e ▸ ha)⟩
  exact hr.frame fun a ha => ⟨hspliced.next_other a (hout a ha).1 (hout a ha).2,
    hspliced.prev_other a (hout a ha).2 (hout a ha).1⟩

/-- The four objects of 4096 bytes, and the call that finds no other one. -/
theorem oneBlock_run :
    ∃ h s', run Heap.step ⟨kmemCacheInit (oneBlock 8 2), []⟩
        (([3000, 3000, 4096, 4096] : List Word).map .kmalloc) = some h ∧
      kmalloc h.kmem 3000 = some (s', 0) ∧
      h.answers = [.object 4096 0xffff88800000b000, .object 4096 0xffff88800000a000,
        .object 3000 0xffff888000009000, .object 3000 0xffff888000008000] ∧
      s'.slubs = [(8, 10), (8, 8)] ∧ ((s'.kmemCacheList 8).objSize >>> PAGE_SHIFT).toNat = 1 ∧
      IsRing s'.buddy.links (freelist 1) [] ∧ s'.buddy.links.prev (.page 16) = .page 16 ∧
      HasLists (putFree s'.buddy 16 1) fun i => if i = 1 then [16] else [] := by
  have hall : ((run Heap.step ⟨kmemCacheInit (oneBlock 8 2), []⟩
      (([3000, 3000, 4096, 4096] : List Word).map .kmalloc)).bind fun h : Heap =>
        (kmalloc h.kmem 3000).map fun r : Kmem × Word => decide (r.2 = 0 ∧
          h.answers = [.object 4096 0xffff88800000b000, .object 4096 0xffff88800000a000,
            .object 3000 0xffff888000009000, .object 3000 0xffff888000008000] ∧
          r.1.slubs = [(8, 10), (8, 8)] ∧ ((r.1.kmemCacheList 8).objSize >>> PAGE_SHIFT).toNat = 1 ∧
          IsRing r.1.buddy.links (freelist 1) [] ∧ r.1.buddy.links.prev (.page 16) = .page 16 ∧
          HasLists (putFree r.1.buddy 16 1) fun i => if i = 1 then [16] else [])) = some true := by
    decide +kernel
  obtain ⟨h, hrun, hall⟩ := Option.bind_eq_some_iff.mp hall
  obtain ⟨r, hr, hall⟩ := Option.map_eq_some_iff.mp hall
  obtain ⟨hnull, hfacts⟩ := of_decide_eq_true hall
  exact ⟨h, r.1, hrun, by rw [hr, ← hnull], hfacts⟩

/-- Four frames, and calls until they are used up. The fifth object of 4096 bytes is missing.
When another block of two frames is there, the next call succeeds. -/
theorem usesSlubsUp_iff_four :
    ∃ h s', run Heap.step ⟨kmemCacheInit (oneBlock 8 2), []⟩
        (([3000, 3000, 4096, 4096] : List Word).map .kmalloc) = some h ∧
      Filled h.kmem 8 4 ∧ kmalloc h.kmem 3000 = some (s', 0) ∧ FailKeeps h.kmem s' 8 ∧
      ∃ s'' obj, kmalloc { s' with buddy := putFree s'.buddy 16 1 } 3000 = some (s'', obj) ∧
        obj ≠ 0 := by
  obtain ⟨h, s', hrun, hfail, hanswers, hslubs, hsize, hempty, hpage, hlists⟩ := oneBlock_run
  have hframe : ∀ {p : Int} {k : Nat} {q : Int},
      q ∈ (framesOf fun i => if i = k then [p] else []) → p ≤ q ∧ q < p + 2 ^ k := by
    intro p k q hq
    obtain ⟨c, hc, hmem⟩ := hq
    rw [blocksOf_one p k hc] at hmem
    exact Block.mem_mk.mp hmem
  have hout : 0x778000000 ∉ framesOf fun i => if i = 2 then [8] else [] :=
    fun hq => absurd (hframe hq).2 (by decide)
  have huses := (usesSlubsUp_iff (oneBlock 8 2) _ sound_four
    (fun c hc => by rw [blocksOf_one 8 2 hc]; exact ⟨by decide, by decide⟩)).mpr hout _ h hrun
  have hok : ¬ HasFailed h.answers 8 := by
    rw [hanswers]
    rintro ⟨sz, -, hmem⟩
    simp at hmem
  have hlen : (heldObjects h.answers 8).length = 4 := by
    rw [hanswers]
    decide
  obtain ⟨i, t, obj, hindex, ht, -, hlater⟩ := huses.call 3000 (by decide)
  obtain rfl : 8 = i := Option.some.inj hindex
  rw [hfail, Option.some.injEq, Prod.mk.injEq] at ht
  obtain ⟨rfl, rfl⟩ := ht
  obtain ⟨hkeeps, hserves⟩ := hlater rfl
  refine ⟨h, s', hrun, hlen ▸ huses.filled 8 (by decide) hok, hfail, hkeeps, ?_⟩
  -- After the free of a block of order 1 the next call is served from it.
  refine hserves _ (fun i => if i = 1 then [16] else []) ?_ ⟨1, ?_, by decide, by simp⟩
  · exact
      { sound := Sound.of_one hlists
        physical := fun c hc => by rw [blocksOf_one 16 1 hc]; exact ⟨by decide, by decide⟩
        notNull := by
          intro q hq hnull
          obtain ⟨hlow, hhigh⟩ := hframe hq
          have hhigh : q < 18 := hhigh
          have hzero := (slubAddr_eq_zero_iff (by omega) (by omega)).mp hnull
          omega
        lists := by
          intro i _ n hn ns hring
          refine ring_putFree hempty hpage ?_ ?_ hring
          · rintro rfl
            simp at hn
          · rintro rfl
            simp at hn
        apart := by
          intro q hq c hc
          rw [blocksOf_one 16 1 hc]
          rw [hslubs] at hq
          simp only [List.mem_cons, List.not_mem_nil, or_false] at hq
          obtain rfl | rfl := hq <;> rw [hsize] <;> exact Or.inl (by decide) }
  · rw [hsize]

end SumiOS
