import SumiOS.Slub
import SumiOS.Lib.Chain
import SumiOS.Proofs.Buddy.Run

/-!
# `SumiOS.Proofs.Slub.Pool`: the object allocator without pointers

`Pool` is the abstract model of the allocator: the free and the full lists are lists of
pages, and the objects that a cache can hand out next are a list of addresses. It has no
memory, so nothing that is written to an object can change what it does. `Pool.alloc` is
`kmem_cache_alloc` on it and `Pool.take` is `alloc_pages`.

The first part is the geometry. A cache `i` cuts a block of order `cacheOrder i` into
`perSlub i` objects of `cacheSize i` bytes (`chunks`). Blocks are compared by their
frames and objects by their bytes, `physOf` being the distance of an address from the
start of the direct mapping area:

* `holds_blockRegion` gives the bytes of a block, and `disjoint_of_apart` says that blocks
  that are apart share none;
* `chunk_subset_block` says that an object lies in the block it was cut from, and
  `chunks_disjoint` that two objects of a block share no byte.
-/

set_option autoImplicit false

namespace SumiOS

open Lib

/-! ### Bytes and frames -/

/-- `size` bytes from `start` on. -/
structure Region where
  start : Word
  size : Nat

/-- The byte at `x` is in the region. -/
def Region.Holds (r : Region) (x : Word) : Prop := (x - r.start).toNat < r.size

instance (r : Region) (x : Word) : Decidable (r.Holds x) :=
  inferInstanceAs (Decidable (_ < _))

/-- The regions share no byte. -/
def Region.Disjoint (r r' : Region) : Prop := ∀ x, r.Holds x → ¬ r'.Holds x

/-- The address of the first byte of a page. -/
def slubAddr (p : Int) : Word := physToKernelDirectMappingAddr (pageToPhys p)

/-- The bytes of a block. -/
def blockRegion (c : Block) : Region := ⟨slubAddr c.start, 4096 * 2 ^ c.order⟩

/-- The frames of the block have physical addresses of 64 bits. -/
def Physical (c : Block) : Prop := 0 ≤ c.start ∧ c.start + 2 ^ c.order ≤ 2 ^ 52

/-- The distance of an address from the start of the direct mapping area. -/
def physOf (x : Word) : Int := (x - KERNEL_DIRECT_MAPPING_AREA).toNat

section Bytes

variable {a x y : Word} {n : Nat} {p : Int} {c d : Block}

/-- A run of bytes that does not reach the end of the address space. -/
theorem holds_iff (h : physOf a + n ≤ 2 ^ 64) :
    (⟨a, n⟩ : Region).Holds x ↔ physOf a ≤ physOf x ∧ physOf x < physOf a + n := by
  have hdm : KERNEL_DIRECT_MAPPING_AREA.toNat = 18446612682070032384 := rfl
  unfold physOf at *
  rw [Region.Holds]
  have hx := x.isLt
  have ha := a.isLt
  simp only [BitVec.toNat_sub] at *
  omega

/-- The first byte of a page lies 4096 times its frame number behind the start of the direct
mapping area. -/
theorem physOf_slubAddr (h : 0 ≤ p) (h' : p < 2 ^ 52) : physOf (slubAddr p) = 4096 * p := by
  have hphys : slubAddr p - KERNEL_DIRECT_MAPPING_AREA = pageToPhys p := BitVec.add_sub_cancel _ _
  have hsize : PAGE_SIZE.toNat = 4096 := rfl
  rw [physOf, hphys, pageToPhys, BitVec.toNat_mul, hsize, BitVec.toNat_ofInt]
  omega

/-- The bytes of a block are those between its ends, by their distance from the start of the direct
mapping area. -/
theorem holds_blockRegion (hc : Physical c) :
    (blockRegion c).Holds x ↔
      4096 * c.start ≤ physOf x ∧ physOf x < 4096 * (c.start + 2 ^ c.order) := by
  obtain ⟨hpos, htop⟩ := hc
  have hfirst := Block.two_pow_pos c.order
  have haddr := physOf_slubAddr hpos (by omega)
  have hcast : ((4096 * 2 ^ c.order : Nat) : Int) = 4096 * 2 ^ c.order := by simp
  rw [blockRegion, holds_iff (by omega), haddr, hcast]
  omega

/-- Regions that share no byte lie apart, the form in which the frame rules of memory
ask for it. -/
theorem Region.Disjoint.sepBytes {m : Nat} (h : (⟨x, n⟩ : Region).Disjoint ⟨y, m⟩) (hn : 0 < n)
    (hm : 0 < m) : SepBytes x n y m := by
  have hx : (⟨x, n⟩ : Region).Holds x := by simpa [Region.Holds]
  have hy : (⟨y, m⟩ : Region).Holds y := by simpa [Region.Holds]
  exact ⟨Nat.le_of_not_lt fun h' => h y h' hy, Nat.le_of_not_lt fun h' => h x hx h'⟩

/-- Blocks that are apart share no byte, as their frames have addresses that do not wrap around. -/
theorem disjoint_of_apart (hc : Physical c) (hd : Physical d) (h : c.Apart d) :
    (blockRegion c).Disjoint (blockRegion d) := by
  intro x hx hx'
  rw [holds_blockRegion hc] at hx
  rw [holds_blockRegion hd] at hx'
  cases h with
  | inl h => omega
  | inr h => omega

end Bytes

/-! ### Objects -/

/-- `obj_size`, in bytes. -/
def cacheSize (i : Nat) : Nat := 16 * 2 ^ i

/-- The order of the blocks of a cache, `obj_size >> PAGE_SHIFT`. -/
def cacheOrder (i : Nat) : Nat := cacheSize i / 4096

/-- The number of objects in a block of a cache, `(PAGE_SIZE << (obj_size >> 12)) / obj_size`. -/
def perSlub (i : Nat) : Nat := 4096 * 2 ^ cacheOrder i / cacheSize i

/-- The block at `p` of a cache. -/
abbrev slubBlock (i : Nat) (p : Int) : Block := ⟨p, cacheOrder i⟩

/-- The objects that a cache cuts the block at `p` into. -/
def chunks (i : Nat) (p : Int) : List Word :=
  strided (BitVec.ofNat 64 (cacheSize i)) (perSlub i) (slubAddr p)

/-- The bytes of an object. -/
def chunkRegion (i : Nat) (x : Word) : Region := ⟨x, cacheSize i⟩

/-- The ten caches: a block holds at least two objects, and they fill it. -/
theorem perSlub_spec : ∀ i < NR_KOBJECT_SIZE_TYPE,
    2 ≤ perSlub i ∧ perSlub i * cacheSize i = 4096 * 2 ^ cacheOrder i ∧
      16 ≤ cacheSize i ∧ cacheSize i ≤ 8192 ∧ cacheOrder i ≤ 2 := by
  decide

section Objects

variable {i : Nat} {p q : Int} {x y z : Word}

/-- A slub has physical addresses of 64 bits when its frames lie in the first `2 ^ 52`. -/
theorem physical_slubBlock :
    Physical (slubBlock i p) ↔ 0 ≤ p ∧ p + 2 ^ cacheOrder i ≤ 2 ^ 52 := Iff.rfl

/-- The bytes of a block of a cache, by its first frame and the order of the cache. -/
theorem holds_slubBlock (hp : Physical (slubBlock i p)) :
    (blockRegion (slubBlock i p)).Holds x ↔
      4096 * p ≤ physOf x ∧ physOf x < 4096 * (p + 2 ^ cacheOrder i) := holds_blockRegion hp

/-- The place of object `j` in its block: so many sizes behind its first byte. -/
theorem physOf_object (hi : i < NR_KOBJECT_SIZE_TYPE) (hp : Physical (slubBlock i p)) {j : Nat}
    (hj : j < perSlub i) :
    physOf (slubAddr p + BitVec.ofNat 64 j * BitVec.ofNat 64 (cacheSize i))
        = 4096 * p + (j * cacheSize i : Nat) ∧
      (j * cacheSize i + cacheSize i : Nat) ≤ 4096 * (2 : Int) ^ cacheOrder i := by
  obtain ⟨-, hfill, hmin, -, -⟩ := perSlub_spec i hi
  obtain ⟨hpos, htop⟩ := physical_slubBlock.mp hp
  have hfirst := Block.two_pow_pos (cacheOrder i)
  have haddr := physOf_slubAddr (p := p) hpos (by omega)
  have hcast : ((4096 * 2 ^ cacheOrder i : Nat) : Int) = 4096 * 2 ^ cacheOrder i := by simp
  have hroom : j * cacheSize i + cacheSize i ≤ 4096 * 2 ^ cacheOrder i := by
    rw [← hfill, ← Nat.succ_mul]
    exact Nat.mul_le_mul_right _ hj
  have htop' : 4096 * p + (j * cacheSize i : Nat) < 2 ^ 64 := by omega
  refine ⟨?_, by omega⟩
  have hoffset : (BitVec.ofNat 64 j * BitVec.ofNat 64 (cacheSize i)).toNat = j * cacheSize i := by
    rw [← BitVec.ofNat_mul, BitVec.toNat_ofNat, Nat.mod_eq_of_lt (by omega)]
  unfold physOf at *
  rw [BitVec.sub_eq_add_neg, BitVec.add_assoc, BitVec.add_comm (BitVec.ofNat 64 j * _),
    ← BitVec.add_assoc, ← BitVec.sub_eq_add_neg, BitVec.toNat_add, hoffset]
  omega

/-- The place of an object in its block, when it is known to be one of them. -/
theorem physOf_chunk (hi : i < NR_KOBJECT_SIZE_TYPE) (hp : Physical (slubBlock i p))
    (hx : x ∈ chunks i p) :
    ∃ j < perSlub i, x = slubAddr p + BitVec.ofNat 64 j * BitVec.ofNat 64 (cacheSize i) ∧
      physOf x = 4096 * p + (j * cacheSize i : Nat) ∧
      (j * cacheSize i + cacheSize i : Nat) ≤ 4096 * (2 : Int) ^ cacheOrder i := by
  obtain ⟨j, hj, rfl⟩ := mem_strided.mp hx
  exact ⟨j, hj, rfl, physOf_object hi hp hj⟩

/-- An object lies in the block it was cut from. -/
theorem chunk_subset_block (hi : i < NR_KOBJECT_SIZE_TYPE) (hp : Physical (slubBlock i p))
    (hx : x ∈ chunks i p) (hz : (chunkRegion i x).Holds z) :
    (blockRegion (slubBlock i p)).Holds z := by
  obtain ⟨j, -, -, haddr, hroom⟩ := physOf_chunk hi hp hx
  have htop := (physical_slubBlock.mp hp).2
  rw [chunkRegion, holds_iff (by omega), haddr] at hz
  rw [holds_slubBlock hp]
  omega

/-- Two objects of a block share no byte, because they are at least a size apart and the block does
not wrap around. -/
theorem chunks_disjoint (hi : i < NR_KOBJECT_SIZE_TYPE) (hp : Physical (slubBlock i p))
    (hx : x ∈ chunks i p) (hy : y ∈ chunks i p) (hne : x ≠ y) :
    (chunkRegion i x).Disjoint (chunkRegion i y) := by
  obtain ⟨j, -, hxj, haddr, hroom⟩ := physOf_chunk hi hp hx
  obtain ⟨k, -, hyk, haddr', hroom'⟩ := physOf_chunk hi hp hy
  have htop := (physical_slubBlock.mp hp).2
  have hjk : j ≠ k := by
    rintro rfl
    exact hne (hxj.trans hyk.symm)
  intro z hz hz'
  rw [chunkRegion, holds_iff (by omega), haddr] at hz
  rw [chunkRegion, holds_iff (by omega), haddr'] at hz'
  -- One of the two objects ends before the other starts.
  cases Nat.lt_or_gt_of_ne hjk with
  | inl h =>
      have hle := Nat.mul_le_mul_right (cacheSize i) (Nat.succ_le_of_lt h)
      rw [Nat.succ_mul] at hle
      omega
  | inr h =>
      have hle := Nat.mul_le_mul_right (cacheSize i) (Nat.succ_le_of_lt h)
      rw [Nat.succ_mul] at hle
      omega

/-- Objects of blocks that are apart share no byte. -/
theorem chunks_disjoint_of_apart {k : Nat} (hi : i < NR_KOBJECT_SIZE_TYPE)
    (hk : k < NR_KOBJECT_SIZE_TYPE) (hp : Physical (slubBlock i p))
    (hq : Physical (slubBlock k q)) (hapart : (slubBlock i p).Apart (slubBlock k q))
    (hx : x ∈ chunks i p) (hy : y ∈ chunks k q) :
    (chunkRegion i x).Disjoint (chunkRegion k y) := fun _ hz hz' =>
  disjoint_of_apart hp hq hapart _ (chunk_subset_block hi hp hx hz)
    (chunk_subset_block hk hq hy hz')

/-- Regions of objects that share no byte have different links. -/
theorem sepBytes_of_disjoint {k : Nat} (hi : i < NR_KOBJECT_SIZE_TYPE)
    (hk : k < NR_KOBJECT_SIZE_TYPE) (h : (chunkRegion i x).Disjoint (chunkRegion k y)) :
    SepBytes x 8 y 8 := by
  have hi := (perSlub_spec i hi).2.2.1
  have hk := (perSlub_spec k hk).2.2.1
  have hsep := h.sepBytes (show 0 < cacheSize i by omega) (show 0 < cacheSize k by omega)
  exact ⟨Nat.le_trans (by omega) hsep.1, Nat.le_trans (by omega) hsep.2⟩

/-- The objects of a block are different, so a chain through all of them has no repetition. -/
theorem chunks_nodup (hi : i < NR_KOBJECT_SIZE_TYPE) (hp : Physical (slubBlock i p)) :
    (chunks i p).Nodup := by
  rw [chunks, strided_eq_map]
  refine List.nodup_range.map_on fun j hj k hk e => ?_
  have hplace := (physOf_object hi hp (List.mem_range.mp hj)).1
  rw [e, (physOf_object hi hp (List.mem_range.mp hk)).1] at hplace
  have hmin := (perSlub_spec i hi).2.2.1
  exact (Nat.eq_of_mul_eq_mul_right (show 0 < cacheSize i by omega) (by omega)).symm

/-- The links of the objects of a block lie apart. -/
theorem chunks_sep (hi : i < NR_KOBJECT_SIZE_TYPE) (hp : Physical (slubBlock i p)) :
    (chunks i p).Pairwise fun x y => SepBytes y 8 x 8 :=
  (chunks_nodup hi hp).pairwise_of_forall_ne fun _ hx _ hy hne =>
    sepBytes_of_disjoint hi hi (chunks_disjoint hi hp hy hx hne.symm)

/-- A block is cut into as many objects as its cache has in one. -/
theorem length_chunks (i : Nat) (p : Int) : (chunks i p).length = perSlub i := length_strided

/-- Every block has at least one object, so a refill always has something to hand out. -/
theorem chunks_ne_nil (hi : i < NR_KOBJECT_SIZE_TYPE) : chunks i p ≠ [] := by
  have htwo := (perSlub_spec i hi).1
  intro h
  have hlen := length_chunks i p
  rw [h, List.length_nil] at hlen
  omega

/-- The first object is at the start of the block. -/
theorem chunks_headD (hi : i < NR_KOBJECT_SIZE_TYPE) : (chunks i p).headD 0 = slubAddr p := by
  have htwo := (perSlub_spec i hi).1
  rw [chunks]
  cases h : perSlub i with
  | zero => omega
  | succ n => rfl

end Objects

/-! ### The abstract allocator -/

/-- The objects of a new block that can be handed out: the chain through the block ends at
an object at NULL. -/
def freshObjects (i : Nat) (p : Int) : List Word := (chunks i p).takeWhile (· ≠ 0)

/-- The abstract allocator: the pages on each list, the block that each cache takes objects
from, the objects that it can hand out, and all blocks that the caches took, the latest
first. -/
structure Pool where
  seq : Head → List Int
  slub : Nat → Option Int
  chain : Nat → List Word
  slubs : List (Nat × Int)

namespace Pool

/-- The least order from `k` on that has a free block. -/
def firstFit (P : Pool) (k : Nat) : Option Nat :=
  (List.range MAX_PAGE_ORDER).find? fun j => k ≤ j && !(P.seq (.freelist j)).isEmpty

/-- Other pages are on the lists. -/
def relist (P : Pool) (seq : Head → List Int) : Pool := { P with seq := seq }

/-- `alloc_pages`. -/
def take (P : Pool) (k : Nat) : Pool × Option Int :=
  match P.firstFit k with
  | none => (P, none)
  | some j =>
      match P.seq (.freelist j) with
      | [] => (P, none)
      | p :: _ => (P.relist (splitSeq P.seq p k j), some p)

/-- The block that has no object left goes to the full list. -/
def retire (P : Pool) (i : Nat) : Pool :=
  match P.slub i with
  | none => P
  | some p =>
      { P with seq := Function.update P.seq (.full i) (p :: P.seq (.full i)),
               slub := Function.update P.slub i none }

/-- The cache goes on with the block at `p`. -/
def refill (P : Pool) (i : Nat) (p : Int) : Pool :=
  { P with slub := Function.update P.slub i (some p),
           chain := Function.update P.chain i (freshObjects i p),
           slubs := (i, p) :: P.slubs }

/-- The first object is handed out. -/
def pop (P : Pool) (i : Nat) (xs : List Word) : Pool :=
  { P with chain := Function.update P.chain i xs }

/-- `kmem_cache_alloc`, with the same counter. -/
def alloc (i : Nat) : Nat → Pool → Option (Pool × Word)
  | 0, _ => none
  | n + 1, P =>
      match P.chain i with
      | x :: xs => some (P.pop i xs, x)
      | [] =>
          match (P.retire i).take (cacheOrder i) with
          | (P, none) => some (P, 0)
          | (P, some p) => alloc i n (P.refill i p)

/-- The blocks that a cache took, the latest first. -/
def slubsOf (P : Pool) (i : Nat) : List Int := (P.slubs.filter (·.1 = i)).map (·.2)

/-- The blocks that the clients and the caches hold. -/
def out (P : Pool) (blocks : List Block) : List Block :=
  blocks ++ P.slubs.map fun q => slubBlock q.1 q.2

section

variable {P : Pool} {k j i : Nat} {p : Int} {ps : List Int}

/-- No order from `k` on has a free block. -/
theorem take_of_empty (h : ∀ j, k ≤ j → j < MAX_PAGE_ORDER → P.seq (.freelist j) = []) :
    P.take k = (P, none) := by
  have hnone : P.firstFit k = none := by
    rw [firstFit, List.find?_range_eq_none]
    intro j hj
    by_cases hkj : k ≤ j
    · simp [h j hkj hj]
    · simp [hkj]
  rw [take, hnone]

/-- The least order from `k` on that has a free block is `j`. -/
theorem take_of_first (hkj : k ≤ j) (hj : j < MAX_PAGE_ORDER) (hps : P.seq (.freelist j) = p :: ps)
    (hempty : ∀ m, k ≤ m → m < j → P.seq (.freelist m) = []) :
    P.take k = (P.relist (splitSeq P.seq p k j), some p) := by
  have hsome : P.firstFit k = some j := by
    rw [firstFit, List.find?_range_eq_some]
    refine ⟨by simp [hkj, hps], List.mem_range.mpr hj, fun m hm => ?_⟩
    by_cases hkm : k ≤ m
    · simp [hempty m hkm hm]
    · simp [hkm]
  rw [take, hsome]
  simp only [hps]

/-- Without a current slub, retiring changes nothing. -/
theorem retire_of_none (h : P.slub i = none) : P.retire i = P := by
  rw [retire, h]

/-- The current slub of a cache goes to the front of its full list. -/
theorem retire_of_some (h : P.slub i = some p) :
    P.retire i = { P with seq := Function.update P.seq (.full i) (p :: P.seq (.full i)),
                          slub := Function.update P.slub i none } := by
  rw [retire, h]

/-- The slubs of a cache are those that the pool records under its number. -/
theorem mem_slubsOf : p ∈ P.slubsOf i ↔ (i, p) ∈ P.slubs := by
  simp [slubsOf]

end

end Pool

end SumiOS
