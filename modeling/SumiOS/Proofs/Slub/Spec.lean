import SumiOS.Proofs.Slub.Pool

/-!
# `SumiOS.Proofs.Slub.Spec`: the slub allocator refines the pool

`SlubInv s P blocks used` connects the allocator `s` to the pool `P`: the pointers of all
list heads represent the lists of `P`, the chain of each cache runs through the objects
that `P` has for it, and everything that was handed out (`blocks` to the callers of
`alloc_pages`, `used i` to those of `kmalloc`) lies apart from what was not.

There is one lemma for each thing that can happen: `SlubInv.pop` (an object is handed
out), `SlubInv.retire` (a block without objects goes to the full list), `SlubInv.refill`
(a new block is cut into objects), `SlubInv.allocPages`, `SlubInv.write` (a client writes
to a byte that it holds) and `slubInv_init`. `SlubInv.round` is one round of
`kmem_cache_alloc`, and `SlubInv.kmalloc` is the call.
-/

set_option autoImplicit false

namespace SumiOS

open Lib

/-! ### `slub_alloc` -/

/-- The numbers that `slub_alloc` computes from `obj_size` are those of the abstract pool, for each
of the ten caches. -/
theorem objSize_spec : ∀ i < NR_KOBJECT_SIZE_TYPE,
    (BitVec.ofNat 64 (cacheSize i)).toNat = cacheSize i ∧
      (BitVec.ofNat 64 (cacheSize i) >>> PAGE_SHIFT).toNat = cacheOrder i ∧
      (PAGE_SIZE <<< (BitVec.ofNat 64 (cacheSize i) >>> PAGE_SHIFT)).toNat
        = 4096 * 2 ^ cacheOrder i := by
  decide

/-- The loop that trims pages writes the links of all objects. `r` is the number of rounds
that are left. -/
theorem trimChunks_eq (addr size total : Word) (hsize : 0 < size.toNat) (r fuel : Nat) (va : Word)
    (nextObj : Option Word) (m : Mem)
    (hva : va.toNat + r * size.toNat = total.toNat) (hfuel : r < fuel)
    (hnext : r = 0 → nextObj = some (addr + va - size)) :
    trimChunks addr size total fuel va nextObj m
      = some (thread m (strided size (r + 1) (addr + va - size))) := by
  induction r generalizing fuel va nextObj m with
  | zero =>
      cases fuel with
      | zero => omega
      | succ fuel =>
          have hstop : ¬ va < total := by
            rw [BitVec.lt_def]
            omega
          rw [trimChunks, if_neg hstop, hnext rfl]
          rfl
  | succ r ih =>
      cases fuel with
      | zero => omega
      | succ fuel =>
          rw [Nat.succ_mul] at hva
          have hgo : va < total := by
            rw [BitVec.lt_def]
            omega
          have hva' : (va + size).toNat + r * size.toNat = total.toNat := by
            rw [BitVec.toNat_add]
            omega
          have hback : addr + (va + size) - size = addr + va := by
            rw [← BitVec.add_assoc, BitVec.add_sub_cancel]
          -- The link of the object behind the cursor is written, and the object at the cursor is next.
          have hlink := ih fuel (va + size) (some (addr + va))
            (m.write64 (addr + va - size) (addr + va)) hva' (by omega) (fun _ => by rw [hback])
          rw [hback] at hlink
          rw [trimChunks, if_pos hgo, strided, BitVec.sub_add_cancel]
          exact hlink

section SlubAlloc

variable {s : Kmem} {i : Nat} {b : Buddy} {p : Int}

/-- `slub_alloc`, when `n` objects fill the block that it gets. -/
theorem slubAlloc_eq {n : Nat} {size : Word} (hsize : (s.kmemCacheList i).objSize = size)
    (htwo : 2 ≤ n) (hmin : 0 < size.toNat)
    (hfill : n * size.toNat = (PAGE_SIZE <<< (size >>> PAGE_SHIFT)).toNat)
    (halloc : allocPages s.buddy (size >>> PAGE_SHIFT).toNat = (b, some p)) :
    slubAlloc s i = some ({ s with
      buddy := { b with pages := Function.update b.pages p { b.pages p with freelist := slubAddr p } }
      mem := thread s.mem (strided size n (slubAddr p))
      slubs := (i, p) :: s.slubs }, some p) := by
  -- The loop writes the link of all objects but the last one.
  have hrounds : size.toNat + (n - 1) * size.toNat = (PAGE_SIZE <<< (size >>> PAGE_SHIFT)).toNat := by
    rw [← hfill, Nat.sub_mul, Nat.one_mul, Nat.add_sub_cancel' (Nat.le_mul_of_pos_left _ (by omega))]
  have hfew : n - 1 < (PAGE_SIZE <<< (size >>> PAGE_SHIFT)).toNat := by
    have hle : n * 1 ≤ n * size.toNat := Nat.mul_le_mul_left _ hmin
    omega
  have htrim := trimChunks_eq (slubAddr p) size (PAGE_SIZE <<< (size >>> PAGE_SHIFT)) hmin (n - 1)
    _ size none s.mem hrounds hfew (by omega)
  rw [Nat.sub_add_cancel (by omega), BitVec.add_sub_cancel] at htrim
  rw [slubAlloc]
  simp only [hsize, halloc]
  rw [← slubAddr, htrim]
  rfl

/-- The state after `slub_alloc` took the block `p` and the buddy system became `b`. -/
def grown (s : Kmem) (i : Nat) (b : Buddy) (p : Int) : Kmem :=
  { s with
    buddy := { b with pages := Function.update b.pages p { b.pages p with freelist := slubAddr p } }
    mem := thread s.mem (chunks i p)
    slubs := (i, p) :: s.slubs }

/-- When no block is large enough, `slub_alloc` fails and changes nothing. -/
theorem slubAlloc_none (hi : i < NR_KOBJECT_SIZE_TYPE)
    (hsize : (s.kmemCacheList i).objSize = BitVec.ofNat 64 (cacheSize i))
    (halloc : allocPages s.buddy (cacheOrder i) = (s.buddy, none)) :
    slubAlloc s i = some (s, none) := by
  rw [slubAlloc]
  simp only [hsize, (objSize_spec i hi).2.1, halloc]

/-- Otherwise the block becomes a slub of the cache, with its objects chained up as `grown`
describes. -/
theorem slubAlloc_some (hi : i < NR_KOBJECT_SIZE_TYPE)
    (hsize : (s.kmemCacheList i).objSize = BitVec.ofNat 64 (cacheSize i))
    (halloc : allocPages s.buddy (cacheOrder i) = (b, some p)) :
    slubAlloc s i = some (grown s i b p, some p) := by
  obtain ⟨hbytes, horder, htotal⟩ := objSize_spec i hi
  obtain ⟨htwo, hfill, hmin, -, -⟩ := perSlub_spec i hi
  exact slubAlloc_eq hsize htwo (by omega) (by rw [hbytes, htotal, hfill]) (by rw [horder, halloc])

end SlubAlloc

end SumiOS
