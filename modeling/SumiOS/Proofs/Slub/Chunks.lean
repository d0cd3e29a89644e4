import SumiOS.Proofs.Slub.Spec
import Mathlib.Data.List.GetD
import Mathlib.Data.List.TakeWhile

/-!
# `SumiOS.Proofs.Slub.Chunks`: the chain that `slub_alloc` threads

`SumiOS.Proofs.Slub.Pool` has the objects of the ten caches. Here `obj_size` is
any power of two from 16 on whose block size fits in a word, and the block is any
that `alloc_pages` returns, also one that reaches around the end of the address
space. `slubAlloc_threads` is the result.

* `objects_fill`: the objects fill the block, and there are two of them at least.
  An object of a page or more gets a block of `2 ^ (obj_size / 4096)` pages, which
  is more than one object.
* `holds_blockRegion_frames`: the bytes from `slub_addr` on are those of the frames
  of the block.
* `CutInto` says what is in memory afterwards. Its `visits` and `ends` follow the
  links a given number of times, and its `chain` until NULL. Only an object at
  address 0 could end the chain too early.
-/

set_option autoImplicit false

namespace SumiOS

open Lib

/-- `slub_alloc` cut the block at `p` into `n` objects of `size` bytes. -/
structure CutInto (s s' : Kmem) (p : Int) (order : Nat) (size : Word) (n : Nat) : Prop where
  freelist : (s'.buddy.pages p).freelist = slubAddr p
  fill : n * size.toNat = 4096 * 2 ^ order
  visits : ∀ j < n, s'.mem.read64^[j] (slubAddr p) = slubAddr p + BitVec.ofNat 64 j * size
  ends : s'.mem.read64^[n] (slubAddr p) = 0
  chain : 0 ∉ strided size n (slubAddr p) → Chain s'.mem (slubAddr p) (strided size n (slubAddr p))
  writes : s'.mem = thread s.mem (strided size n (slubAddr p))
  inside : ∀ x ∈ strided size n (slubAddr p), ∀ z, (⟨x, size.toNat⟩ : Region).Holds z →
    (blockRegion ⟨p, order⟩).Holds z
  frame : ∀ z, ¬ (blockRegion ⟨p, order⟩).Holds z → s'.mem z = s.mem z
  frames : ∀ z, (blockRegion ⟨p, order⟩).Holds z ↔
    ∃ f : Nat, f < 2 ^ order ∧ (⟨slubAddr (p + f), 4096⟩ : Region).Holds z

/-! ### The block -/

section Block

variable {p : Int} {order k : Nat} {a x : Word}

/-- The address of a frame of a block is so many pages behind that of the block. -/
theorem slubAddr_add (p : Int) (f : Nat) :
    slubAddr (p + f) = slubAddr p + BitVec.ofNat 64 (4096 * f) := by
  have hframe : BitVec.ofInt 64 (p + f) * PAGE_SIZE
      = BitVec.ofInt 64 p * PAGE_SIZE + BitVec.ofNat 64 (4096 * f) := by
    rw [BitVec.ofInt_add, BitVec.add_mul, BitVec.ofInt_natCast, Nat.mul_comm, BitVec.ofNat_mul]
    rfl
  show pageToPhys (p + f) + _ = pageToPhys p + _ + _
  rw [pageToPhys, hframe, BitVec.add_assoc, BitVec.add_comm (BitVec.ofNat 64 _), ← BitVec.add_assoc]
  rfl

/-- The distance of a byte from a later start. -/
theorem toNat_sub_add (hk : k ≤ (x - a).toNat) :
    (x - (a + BitVec.ofNat 64 k)).toNat = (x - a).toNat - k := by
  bv_omega

/-- A byte of a part of a region is in the region. -/
theorem Region.holds_part {n m : Nat} (hz : (⟨a + BitVec.ofNat 64 k, n⟩ : Region).Holds x)
    (hfit : k + n ≤ m) (hm : m ≤ 2 ^ 64) : (⟨a, m⟩ : Region).Holds x := by
  unfold Region.Holds at *
  bv_omega

/-- The bytes of a block are those of its frames, one page after the other in the direct mapping
area. -/
theorem holds_blockRegion_frames (hfit : 4096 * 2 ^ order < 2 ^ 64) :
    (blockRegion ⟨p, order⟩).Holds x ↔
      ∃ f : Nat, f < 2 ^ order ∧ (⟨slubAddr (p + f), 4096⟩ : Region).Holds x := by
  constructor
  · intro hx
    have hx' : (x - slubAddr p).toNat < 4096 * 2 ^ order := hx
    refine ⟨(x - slubAddr p).toNat / 4096, Nat.div_lt_of_lt_mul hx', ?_⟩
    show (x - slubAddr _).toNat < 4096
    rw [slubAddr_add, toNat_sub_add (Nat.mul_div_le _ _)]
    omega
  · rintro ⟨f, hf, hx⟩
    rw [slubAddr_add] at hx
    have hlast : 4096 * f + 4096 ≤ 4096 * 2 ^ order := by
      rw [← Nat.mul_succ]
      exact Nat.mul_le_mul_left _ hf
    exact Region.holds_part hx hlast (Nat.le_of_lt hfit)

end Block

/-! ### The objects -/

section Objects

variable {e : Nat} {size : Word}

/-- The size of a block is a multiple of the size of the objects, at least by two. -/
theorem objects_fill (e : Nat) :
    2 ≤ 4096 * 2 ^ (2 ^ e / 4096) / 2 ^ e ∧
      4096 * 2 ^ (2 ^ e / 4096) / 2 ^ e * 2 ^ e = 4096 * 2 ^ (2 ^ e / 4096) := by
  have hroom : e + 1 ≤ 12 + 2 ^ e / 4096 := by
    by_cases he : e < 12
    · exact Nat.le_trans (Nat.succ_le_of_lt he) (Nat.le_add_right _ _)
    · -- From a page on, the order of the block grows faster than that of the object.
      have hpage : 2 ^ e / 2 ^ 12 = 2 ^ (e - 12) := Nat.pow_div (Nat.le_of_not_lt he) (by decide)
      have hlt : e - 12 < 2 ^ (e - 12) := Nat.lt_two_pow_self
      omega
  have htotal : 4096 * 2 ^ (2 ^ e / 4096) = 2 ^ (12 + 2 ^ e / 4096) := (Nat.pow_add 2 12 _).symm
  rw [htotal, Nat.pow_div (by omega) (by decide), ← Nat.pow_add, Nat.sub_add_cancel (by omega)]
  exact ⟨Nat.pow_le_pow_right (show 0 < 2 by decide) (show 1 ≤ _ by omega), rfl⟩

/-- The numbers that `slub_alloc` computes from a power of two. -/
theorem objSize_pow (hsize : size.toNat = 2 ^ e) (hfit : 4096 * 2 ^ (2 ^ e / 4096) < 2 ^ 64) :
    (size >>> PAGE_SHIFT).toNat = 2 ^ e / 4096 ∧
      (PAGE_SIZE <<< (size >>> PAGE_SHIFT)).toNat = 4096 * 2 ^ (2 ^ e / 4096) := by
  have horder : (size >>> PAGE_SHIFT).toNat = 2 ^ e / 4096 := by
    rw [BitVec.toNat_ushiftRight, hsize, Nat.shiftRight_eq_div_pow]
    rfl
  have hpage : PAGE_SIZE.toNat = 4096 := rfl
  refine ⟨horder, ?_⟩
  rw [BitVec.shiftLeft_eq', horder, BitVec.toNat_shiftLeft, hpage, Nat.shiftLeft_eq,
    Nat.mod_eq_of_lt hfit]

/-- An object lies in the bytes that the objects fill. -/
theorem object_subset {a x z : Word} {n : Nat} (hx : x ∈ strided size n a)
    (hfit : n * size.toNat < 2 ^ 64) (hz : (⟨x, size.toNat⟩ : Region).Holds z) :
    (⟨a, n * size.toNat⟩ : Region).Holds z := by
  obtain ⟨j, hj, rfl⟩ := mem_strided.mp hx
  have hroom : (j + 1) * size.toNat ≤ n * size.toNat := Nat.mul_le_mul_right _ hj
  rw [Nat.succ_mul] at hroom
  have hplace : BitVec.ofNat 64 j * size = BitVec.ofNat 64 (j * size.toNat) := by
    rw [BitVec.ofNat_mul, BitVec.ofNat_toNat, BitVec.setWidth_eq]
  rw [hplace] at hz
  exact Region.holds_part hz hroom (Nat.le_of_lt hfit)

/-- The objects of a block after their links were written: each one points to the next, the last
one to NULL, and together they fill the block without overlapping. -/
theorem cutInto_of_thread {s s' : Kmem} {p : Int} {order n : Nat} (hn : 0 < n)
    (hmin : 8 ≤ size.toNat) (hfill : n * size.toNat = 4096 * 2 ^ order)
    (hfit : 4096 * 2 ^ order < 2 ^ 64) (hmem : s'.mem = thread s.mem (strided size n (slubAddr p)))
    (hpage : (s'.buddy.pages p).freelist = slubAddr p) : CutInto s s' p order size n := by
  have hsep : (strided size n (slubAddr p)).Pairwise fun x y => SepBytes y 8 x 8 :=
    strided_sep (by omega) hmin
  have hlinks : Threaded s'.mem (strided size n (slubAddr p)) := hmem ▸ threaded_thread hsep
  have hlen : (strided size n (slubAddr p)).length = n := length_strided
  have hfirst : (strided size n (slubAddr p)).headD 0 = slubAddr p := by
    cases n with
    | zero => omega
    | succ n => rfl
  have hinside : ∀ x ∈ strided size n (slubAddr p), ∀ z, (⟨x, size.toNat⟩ : Region).Holds z →
      (blockRegion ⟨p, order⟩).Holds z := by
    intro x hx z hz
    rw [blockRegion, ← hfill]
    exact object_subset hx (by omega) hz
  constructor
  case freelist => exact hpage
  case fill => exact hfill
  -- The first `n` steps lead along the objects, and the one after them to NULL.
  case visits =>
    intro j hj
    have hstep := hlinks.iterate (j := j) (by omega)
    rw [hfirst, List.getD_eq_getElem _ _ (by omega)] at hstep
    simpa only [strided_eq_map, List.getElem_map, List.getElem_range] using hstep
  case ends =>
    have hstep := hlinks.iterate (j := n) (by omega)
    rwa [hfirst, List.getD_eq_default _ _ (by omega)] at hstep
  case chain =>
    intro hnull
    have hchain := hlinks.chain
    -- Only an object at NULL would end the chain early.
    have hall : (strided size n (slubAddr p)).takeWhile (· ≠ 0) = strided size n (slubAddr p) :=
      List.takeWhile_eq_self_iff.mpr fun x hx => decide_eq_true fun h => hnull (h ▸ hx)
    rwa [hfirst, hall] at hchain
  case writes => exact hmem
  case inside => exact hinside
  case frame =>
    intro z hz
    -- The links are written to the first 8 bytes of the objects only.
    rw [hmem]
    refine thread_apply fun x hx hlt => hz (hinside x hx z ?_)
    exact Nat.lt_of_lt_of_le hlt hmin
  case frames => exact fun z => holds_blockRegion_frames hfit

end Objects

/-- `slub_alloc` threads a complete chain through the block that `alloc_pages` returns,
for every power of two from 16 on as `obj_size`, every block and every content of
memory. In particular the loop ends, and `next_obj` is set when it does. -/
theorem slubAlloc_threads (s : Kmem) (i : Nat) {e : Nat} (he : 4 ≤ e)
    (hsize : (s.kmemCacheList i).objSize.toNat = 2 ^ e)
    (hfit : 4096 * 2 ^ (2 ^ e / 4096) < 2 ^ 64) :
    (∀ b, allocPages s.buddy (2 ^ e / 4096) = (b, none) →
      slubAlloc s i = some ({ s with buddy := b }, none)) ∧
    ∀ b p, allocPages s.buddy (2 ^ e / 4096) = (b, some p) →
      ∃ s', slubAlloc s i = some (s', some p) ∧
        CutInto s s' p (2 ^ e / 4096) (s.kmemCacheList i).objSize
          (4096 * 2 ^ (2 ^ e / 4096) / 2 ^ e) := by
  obtain ⟨horder, htotal⟩ := objSize_pow hsize hfit
  obtain ⟨htwo, hfill⟩ := objects_fill e
  have hmin : 2 ^ 4 ≤ 2 ^ e := Nat.pow_le_pow_right (by decide) he
  constructor
  · intro b halloc
    rw [slubAlloc]
    simp only [horder, halloc]
  · intro b p halloc
    refine ⟨_, slubAlloc_eq rfl htwo (by omega) (by rw [hsize, htotal, hfill])
      (by rw [horder, halloc]), ?_⟩
    refine cutInto_of_thread (by omega) (by omega) (by rw [hsize, hfill]) hfit rfl ?_
    show (Function.update b.pages p _ p).freelist = slubAddr p
    rw [Function.update_self]

/-- Objects of a page, from four free frames: the block has two frames, the first object points to
the second, and that one to NULL, although memory was filled with sevens before. -/
theorem slubAlloc_threads_page :
    ∃ s', slubAlloc (kmemCacheInit ⟨putFree cleared 8 2, fun _ => 7, fun _ => ⟨0, none, 0⟩, []⟩) 8
        = some (s', some 8) ∧
      s'.mem.read64 0xffff888000008000 = 0xffff888000009000 ∧
      s'.mem.read64 0xffff888000009000 = 0 := by
  obtain ⟨s', hs', hcut⟩ := (slubAlloc_threads
    (kmemCacheInit ⟨putFree cleared 8 2, fun _ => 7, fun _ => ⟨0, none, 0⟩, []⟩) 8
    (e := 12) (by decide) (by decide) (by decide)).2 _ 8 rfl
  have hfirst := hcut.visits 1 (by decide)
  have hlast := hcut.ends
  rw [show 4096 * 2 ^ (2 ^ 12 / 4096) / 2 ^ 12 = 1 + 1 from rfl, Function.iterate_succ_apply',
    hfirst] at hlast
  exact ⟨s', hs', hfirst, hlast⟩

end SumiOS
