import SumiOS.Proofs.Init.Frames
import SumiOS.Proofs.PageTable.Derefs
import SumiOS.Proofs.Slub.Chunks
import SumiOS.Proofs.Slub.Objects

/-!
# `SumiOS.Proofs.Kernel.Separation`: frames of tables and frames of objects

Tables, blocks and objects are all accessed in the direct mapping area, where `frameOf`
gives the frame of an address. So whether a write to one of them touches another is a
question about frames: `offPage_iff` is for the pages of tables, and `frameOf_mem` for the
bytes of blocks.

`Heap.Simulates.withMem` says what the caches need of memory: the objects that they have not
handed out (a tree needs its tables, by `Tables.congr`). `Grows` is what `kmalloc` does to
memory: it writes to the blocks that its cache takes.
-/

set_option autoImplicit false

namespace SumiOS

open Lib

/-! ### Frames -/

/-- The frame behind an address of the direct mapping area. -/
def frameOf (x : Word) : Int := pageOf (x - KERNEL_DIRECT_MAPPING_AREA)

section Frames

variable {x p q : Word} {c : Block} {m m' : Mem} {i : BitVec 9}

/-- The frame of a direct mapping address, by its distance from the start of the area. -/
theorem frameOf_eq (x : Word) : frameOf x = physOf x / 4096 := by
  rw [frameOf, pageOf_eq, physOf, Int.natCast_ediv]
  rfl

/-- A byte of a block lies in one of its frames. -/
theorem frameOf_mem (hc : Physical c) (hx : (blockRegion c).Holds x) : frameOf x ∈ c.frames := by
  rw [holds_blockRegion hc] at hx
  rw [frameOf_eq, Block.mem_frames]
  omega

/-- An address is off the page of a table exactly when it lies in another frame. -/
theorem offPage_iff (hq : PageAligned q) :
    OffPage KERNEL_DIRECT_MAPPING_AREA q x ↔ frameOf x ≠ pageOf q := by
  have hmod := hq.toNat_mod
  have hsub : x - (q + KERNEL_DIRECT_MAPPING_AREA) = x - KERNEL_DIRECT_MAPPING_AREA - q := by
    bv_omega
  rw [OffPage, hsub, frameOf, pageOf_eq, pageOf_eq]
  generalize x - KERNEL_DIRECT_MAPPING_AREA = y
  have hy := y.isLt
  have hlt := q.isLt
  rw [BitVec.toNat_sub]
  omega

variable {base : Word → Prop} {top : BitVec 9 → Prop} {log : List Word}
  {T : List (BitVec 9) → Option Word}

/-- A root entry that is empty counts again, with the tables dropped that used to be behind it. -/
theorem Tables.pruned {root : Word}
    (hT : Tables KERNEL_DIRECT_MAPPING_AREA (fun j => top j ∧ j ≠ i) base log m T)
    (hroot : T [] = some root) (hempty : view KERNEL_DIRECT_MAPPING_AREA m root i = 0) :
    Tables KERNEL_DIRECT_MAPPING_AREA top base log m (Lib.pruned T i) ∧
      Lib.pruned T i [] = some root := by
  have hchild : tableChild (view KERNEL_DIRECT_MAPPING_AREA m root i) = none := by
    rw [hempty]
    rfl
  refine ⟨⟨hT.laid.pruned hroot hchild, fun π p hp => ?_, fun π p hp => ?_⟩, hroot⟩
  · exact hT.aligned π p (pruned_some hp).2
  · exact hT.used π p (pruned_some hp).2

end Frames

/-! ### The caches and memory -/

section Caches

variable {ram : Set Int} {s s' s'' : Kmem} {P : Pool} {blocks blocks' : List Block}
  {used used' : Nat → List Word} {i n : Nat} {x : Word} {p : Int} {h : Heap} {as as' : List Answer}

/-- The invariant is about which blocks and objects are held, not in which order. -/
theorem SlubInv.perm (hI : SlubInv ram s P blocks used) (hblocks : blocks.Perm blocks')
    (hused : ∀ i, (used i).Perm (used' i)) : SlubInv ram s P blocks' used' where
  blockInv := hI.blockInv.perm (hblocks.append_right _)
  within := by
    intro c hc
    exact hI.within c (hc.imp (hblocks.append_right _).mem_iff.mpr id)
  range := hI.range
  cache := hI.cache
  slubs := hI.slubs
  idle := hI.idle
  full := hI.full
  caches := hI.caches
  member := by
    intro i x hx
    exact hI.member i x (((hused i).append_left _).mem_iff.mpr hx)
  nodup := by
    intro i
    exact ((hused i).append_left _).nodup_iff.mp (hI.nodup i)

/-- Of memory it is about the links of the objects that are not held. -/
theorem SlubInv.withMem (hI : SlubInv ram s P blocks used) {m : Mem}
    (hlinks : ∀ i, ∀ x ∈ P.chain i, m.read64 x = s.mem.read64 x) :
    SlubInv ram { s with mem := m } P blocks used where
  blockInv := hI.blockInv
  within := hI.within
  range := hI.range
  cache := by
    intro i hi
    have hkc := hI.cache i hi
    exact ⟨hkc.objSize, hkc.slub, hkc.chain.congr (hlinks i)⟩
  slubs := hI.slubs
  idle := hI.idle
  full := hI.full
  caches := hI.caches
  member := hI.member
  nodup := hI.nodup

/-- The same for the clients: the order in which the answers are named does not matter to what is
held. -/
theorem Heap.Simulates.perm (hs : Heap.Simulates ram ⟨s, as⟩ P) (hperm : as.Perm as') :
    Heap.Simulates ram ⟨s, as'⟩ P where
  inv := hs.inv.perm (hperm.filterMap _) fun _ => hperm.filterMap _
  small := by
    intro sz obj hmem
    exact hs.small sz obj (hperm.mem_iff.mpr hmem)

/-- A link is read from the block that its object was cut from. -/
theorem SlubInv.link_mem (hI : SlubInv ram s P blocks used) (hx : x ∈ P.chain i) :
    ∃ q ∈ P.slubs, ∀ j < 8, frameOf (x + BitVec.ofNat 64 j) ∈ (slubBlock q.1 q.2).frames := by
  obtain ⟨p, hp, hxp⟩ := hI.member i x (List.mem_append_left _ hx)
  have hi := hI.caches _ hp
  have hphys := hI.physical_slub hp
  refine ⟨(i, p), hp, fun j hj => frameOf_mem hphys (chunk_subset_block hi hphys hxp ?_)⟩
  have hmin := (perSlub_spec i hi).2.2.1
  show (x + BitVec.ofNat 64 j - x).toNat < cacheSize i
  have hoffset : (x + BitVec.ofNat 64 j - x).toNat = j := by bv_omega
  omega

/-- Memory that agrees on the frames of the blocks of the caches will do. -/
theorem Heap.Simulates.withMem (hs : Heap.Simulates ram ⟨s, as⟩ P) {m : Mem}
    (hsame : ∀ q ∈ P.slubs, ∀ a, frameOf a ∈ (slubBlock q.1 q.2).frames → m a = s.mem a) :
    Heap.Simulates ram ⟨{ s with mem := m }, as⟩ P where
  inv := by
    refine hs.inv.withMem fun i x hx => read64_congr fun j hj => ?_
    obtain ⟨q, hq, hframes⟩ := hs.inv.link_mem hx
    exact hsame q hq _ (hframes j hj)
  small := hs.small

/-! ### What `kmalloc` writes -/

/-- The caches took the blocks `new`, and nothing was written outside of them. -/
structure Grows (s s' : Kmem) : Prop where
  sizes : ∀ i, (s'.kmemCacheList i).objSize = (s.kmemCacheList i).objSize
  frame : ∃ new, s'.slubs = new ++ s.slubs ∧
    ∀ a, (∀ q ∈ new, ¬ (blockRegion (slubBlock q.1 q.2)).Holds a) → s'.mem a = s.mem a

/-- Two steps one after the other take the blocks that each of them takes, and write nothing
outside of these. -/
theorem Grows.trans (h : Grows s s') (h' : Grows s' s'') : Grows s s'' where
  sizes i := (h'.sizes i).trans (h.sizes i)
  frame := by
    obtain ⟨new, hnew, hframe⟩ := h.frame
    obtain ⟨new', hnew', hframe'⟩ := h'.frame
    refine ⟨new' ++ new, by rw [hnew', hnew, List.append_assoc], fun a ha => ?_⟩
    rw [List.forall_mem_append] at ha
    exact (hframe' a ha.1).trans (hframe a ha.2)

/-- Nothing was taken or written: a step that changes only the records of the caches and the buddy
system. -/
theorem grows_same (hsizes : ∀ i, (s'.kmemCacheList i).objSize = (s.kmemCacheList i).objSize)
    (hslubs : s'.slubs = s.slubs) (hmem : s'.mem = s.mem) : Grows s s' :=
  ⟨hsizes, [], hslubs, fun _ _ => by rw [hmem]⟩

/-- A cache changes, and its objects keep their size. The pages and their links may change,
too. -/
theorem grows_cache {kc : KmemCache}
    (hlist : s'.kmemCacheList = Function.update s.kmemCacheList i kc) (hmem : s'.mem = s.mem)
    (hslubs : s'.slubs = s.slubs) (hsize : kc.objSize = (s.kmemCacheList i).objSize) :
    Grows s s' := by
  refine grows_same (fun k => ?_) hslubs hmem
  rw [hlist]
  by_cases e : k = i
  · rw [e, Function.update_self, hsize]
  · rw [Function.update_of_ne e]

/-- Setting the record of a cache takes no block and writes nothing, as long as the size of its
objects stays. -/
theorem grows_setCache {kc : KmemCache} (hsize : kc.objSize = (s.kmemCacheList i).objSize) :
    Grows s (setCache s i kc) := grows_cache rfl rfl rfl hsize

/-- The pages and their links change. -/
theorem grows_buddy (s : Kmem) (b : Buddy) : Grows s { s with buddy := b } :=
  grows_same (fun _ => rfl) rfl rfl

/-- A new block is cut into objects, and what is written are the links, each of which lies in its
object and so in the block. -/
theorem grows_grown (s : Kmem) (b : Buddy) (hi : i < NR_KOBJECT_SIZE_TYPE) :
    Grows s (grown s i b p) where
  sizes _ := rfl
  frame := by
    refine ⟨[(i, p)], rfl, fun a ha => ?_⟩
    obtain ⟨-, hfill, hmin, hmax, horder⟩ := perSlub_spec i hi
    refine thread_apply fun x hx hlt => ha (i, p) List.mem_cons_self ?_
    -- The link lies in its object, and the object in the block.
    have hbytes := (objSize_spec i hi).1
    have hpow : 2 ^ cacheOrder i ≤ 2 ^ 2 := Nat.pow_le_pow_right (by decide) horder
    show (⟨slubAddr p, 4096 * 2 ^ cacheOrder i⟩ : Region).Holds a
    rw [← hfill, ← hbytes]
    refine object_subset hx (by rw [hbytes, hfill]; omega) ?_
    show (a - x).toNat < (BitVec.ofNat 64 (cacheSize i)).toNat
    omega

/-- `slub_alloc` takes one block for its cache and writes in that block only, or fails and writes
nothing. -/
theorem slubAlloc_grows (hi : i < NR_KOBJECT_SIZE_TYPE) {r : Option Int}
    (hsize : (s.kmemCacheList i).objSize = BitVec.ofNat 64 (cacheSize i))
    (h : slubAlloc s i = some (s', r)) : Grows s s' := by
  cases halloc : allocPages s.buddy (cacheOrder i) with
  | mk b r' =>
      cases r' with
      | none =>
          rw [slubAlloc] at h
          simp only [hsize, (objSize_spec i hi).2.1, halloc, Option.some.injEq, Prod.mk.injEq] at h
          rw [← h.1]
          exact grows_buddy s b
      | some p =>
          rw [slubAlloc_some hi hsize halloc, Option.some.injEq, Prod.mk.injEq] at h
          rw [← h.1]
          exact grows_grown s b hi

/-- `kmem_cache_alloc`, round by round: nothing is written outside of the blocks that the caches
take. A round that finds an object writes nothing at all. -/
theorem kmemCacheAlloc_grows (hi : i < NR_KOBJECT_SIZE_TYPE)
    (hsize : (s.kmemCacheList i).objSize = BitVec.ofNat 64 (cacheSize i))
    (h : kmemCacheAlloc i n s = some (s', x)) : Grows s s' := by
  induction n generalizing s with
  | zero => cases h
  | succ n ih =>
      rw [kmemCacheAlloc] at h
      dsimp only at h
      split at h
      · -- The first object of the chain.
        rw [Option.some.injEq, Prod.mk.injEq] at h
        rw [← h.1]
        exact grows_setCache rfl
      · -- The next round starts from a state that grew.
        have hround : ∀ {t : Kmem}, Grows s t → kmemCacheAlloc i n t = some (s', x) → Grows s s' :=
          fun ht hrest => ht.trans (ih ((ht.sizes i).trans hsize) hrest)
        -- No block is partial, so a new one is asked for.
        have hnew : ∀ {t t' : Kmem} {p : Option Int}, Grows s t →
            slubAlloc (setCache t i { t.kmemCacheList i with slub := none }) i = some (t', p) →
            Grows s t' := by
          intro t t' p ht hslub
          have ht' : Grows s (setCache t i { t.kmemCacheList i with slub := none }) :=
            ht.trans (grows_setCache rfl)
          exact ht'.trans (slubAlloc_grows hi ((ht'.sizes i).trans hsize) hslub)
        split at h
        all_goals
          split at h
          · refine hround ?_ h
            exact grows_cache rfl rfl rfl rfl
          · split at h
            · cases h
            · rename_i hslub
              rw [Option.some.injEq, Prod.mk.injEq] at h
              rw [← h.1]
              exact hnew (grows_buddy s _) hslub
            · rename_i hslub
              exact hround ((hnew (grows_buddy s _) hslub).trans (grows_setCache (by rfl))) h

/-- `kmalloc` writes nothing outside of the blocks that the caches take, and for a size beyond all
caches nothing at all. -/
theorem kmalloc_grows {sz : Word} (hI : SlubInv ram s P blocks used)
    (h : kmalloc s sz = some (s', x)) : Grows s s' := by
  rw [kmalloc] at h
  split at h
  · rw [Option.some.injEq, Prod.mk.injEq] at h
    rw [← h.1]
    exact grows_same (fun _ => rfl) rfl rfl
  · cases hi : slubIndex sz with
    | none =>
        rw [hi] at h
        cases h
    | some i =>
        rw [hi] at h
        have hlt := slubIndex_lt hi
        exact kmemCacheAlloc_grows hlt (hI.cache i hlt).objSize h

end Caches

end SumiOS
