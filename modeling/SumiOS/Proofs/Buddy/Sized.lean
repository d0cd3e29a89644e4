import SumiOS.Proofs.Buddy.Exact
import Mathlib.Data.Nat.Log
import Mathlib.Order.Bounds.Basic

/-!
# `SumiOS.Proofs.Buddy.Sized`: allocation by size

`mm_phys_alloc` looks for the order by shifting `PAGE_SIZE`. Up to order 51 the
shifted size is `2 ^ (12 + order)`, from there to order 63 all bits are shifted
out and it is 0, and then the shift count starts again. So the loop stops at the
least order that is large enough when there is one up to 51, which is
`sz ≤ 2 ^ 63`, and never otherwise (`expandOrder_eq`, `expandOrder_none`).

A physical address is a multiple of the page size, so it is never the `-1` that
stands for a failure. The direct mapping adds a constant modulo `2 ^ 64`, and
takes one frame to the address 0. `mm_alloc` returns it like any other address,
and its caller reads a failure. `sizeExact_iff` puts the two together.
-/

set_option autoImplicit false

namespace SumiOS

open Lib

/-! ### The loop over the orders -/

section Expand

variable {sz : Word} {o order n : Nat}

/-- The size of the blocks of an order, as long as the shift loses no bit. -/
theorem toNat_pageSize_shiftLeft (h : o ≤ 51) : (PAGE_SIZE <<< o).toNat = 2 ^ (12 + o) := by
  have hsize : PAGE_SIZE.toNat = 2 ^ 12 := by decide
  rw [BitVec.toNat_shiftLeft, hsize, Nat.shiftLeft_eq, ← Nat.pow_add]
  exact Nat.mod_eq_of_lt (Nat.pow_lt_pow_right (by decide) (by omega))

/-- From there on the shift loses the only bit. -/
theorem toNat_pageSize_shiftLeft_eq_zero (h : 51 < o) : (PAGE_SIZE <<< o).toNat = 0 := by
  have hsize : PAGE_SIZE.toNat = 2 ^ 12 := by decide
  rw [BitVec.toNat_shiftLeft, hsize, Nat.shiftLeft_eq, ← Nat.pow_add]
  exact Nat.mod_eq_zero_of_dvd (Nat.pow_dvd_pow 2 (by omega))

/-- No shift gives a size above `2 ^ 63`. -/
theorem toNat_pageSize_shiftLeft_le (o : Nat) : (PAGE_SIZE <<< o).toNat ≤ 2 ^ 63 := by
  cases Nat.lt_or_ge 51 o with
  | inl h =>
      rw [toNat_pageSize_shiftLeft_eq_zero h]
      exact Nat.zero_le _
  | inr h =>
      rw [toNat_pageSize_shiftLeft h]
      exact Nat.pow_le_pow_right (by decide) (by omega)

/-- The least order whose blocks hold `sz` bytes. -/
def leastOrder (sz : Word) : Nat := Nat.clog 2 sz.toNat - 12

/-- The order that is computed for a size is at most `o` when blocks of order `o` are
large enough. -/
theorem leastOrder_le_iff : leastOrder sz ≤ o ↔ sz.toNat ≤ 2 ^ (12 + o) := by
  rw [← Nat.clog_le_iff_le_pow (by decide), leastOrder]
  omega

/-- In other words, it is the least order with blocks that are large enough. -/
theorem isLeast_leastOrder (sz : Word) : IsLeast { o | sz.toNat ≤ 2 ^ (12 + o) } (leastOrder sz) :=
  ⟨leastOrder_le_iff.mp (le_refl _), fun _ ho => leastOrder_le_iff.mpr ho⟩

/-- For sizes up to `2 ^ 63` the order is at most 51, so that the shift in the loop does not
overflow. -/
theorem leastOrder_le_of_le (h : sz.toNat ≤ 2 ^ 63) : leastOrder sz ≤ 51 := leastOrder_le_iff.mpr h

/-- The loop stops at the least order. The induction is on the rounds that are
left, which are enough for the orders up to it. -/
theorem expandOrder_eq (h : sz.toNat ≤ 2 ^ 63) : ∀ {n o : Nat}, o ≤ leastOrder sz →
    leastOrder sz < o + n → expandOrder sz n o = some (leastOrder sz)
  | 0, o, ho, hn => by omega
  | n + 1, o, ho, hn => by
      have hle : o ≤ 51 := ho.trans (leastOrder_le_of_le h)
      have hmod : o % 64 = o := Nat.mod_eq_of_lt (by omega)
      have hgt : sz > PAGE_SIZE <<< (o % 64) ↔ o < leastOrder sz := by
        rw [gt_iff_lt, BitVec.lt_def, hmod, toNat_pageSize_shiftLeft hle, ← not_le, ← not_le,
          leastOrder_le_iff]
      rw [expandOrder]
      split
      · next hlt => exact expandOrder_eq h (hgt.mp hlt) (by omega)
      · next hlt =>
          have : o = leastOrder sz := le_antisymm ho (not_lt.mp fun h => hlt (hgt.mpr h))
          rw [this]

/-- Above `2 ^ 63` the loop does not stop. -/
theorem expandOrder_none (h : 2 ^ 63 < sz.toNat) : ∀ n o, expandOrder sz n o = none
  | 0, _ => rfl
  | n + 1, o => by
      have hgt : sz > PAGE_SIZE <<< (o % 64) := by
        rw [gt_iff_lt, BitVec.lt_def]
        exact (toNat_pageSize_shiftLeft_le _).trans_lt h
      rw [expandOrder, if_pos hgt]
      exact expandOrder_none h n (o + 1)

end Expand

/-! ### The addresses -/

section Address

variable {sz : Word} {p : Int} {order : Nat}

/-- A physical address of a frame is not the sentinel: its low bits are 0. -/
theorem pageToPhys_ne_neg_one (p : Int) : pageToPhys p ≠ -1 := by
  intro h
  have hmul : (BitVec.ofInt 64 p).toNat * 4096 % 2 ^ 64 = 2 ^ 64 - 1 := by
    have := congrArg BitVec.toNat h
    rwa [pageToPhys, BitVec.toNat_mul] at this
  omega

/-- The bytes of the block are the direct mapping of its frames, one after the other, so that a
pointer into the block stays inside it. -/
theorem physToKernelDirectMappingAddr_add (p : Int) (i : Nat) :
    physToKernelDirectMappingAddr (pageToPhys p) + BitVec.ofNat 64 i
      = physToKernelDirectMappingAddr
          (pageToPhys (p + (i / 4096 : Nat)) + BitVec.ofNat 64 (i % 4096)) := by
  have hsize : PAGE_SIZE = BitVec.ofNat 64 4096 := rfl
  have hoffset : BitVec.ofNat 64 i
      = BitVec.ofNat 64 (i / 4096) * PAGE_SIZE + BitVec.ofNat 64 (i % 4096) := by
    rw [hsize, ← BitVec.ofNat_mul, ← BitVec.ofNat_add, Nat.div_add_mod']
  have hpage : pageToPhys (p + (i / 4096 : Nat))
      = pageToPhys p + BitVec.ofNat 64 (i / 4096) * PAGE_SIZE := by
    rw [pageToPhys, pageToPhys, BitVec.ofInt_add, BitVec.ofInt_natCast, BitVec.add_mul]
  simp only [physToKernelDirectMappingAddr]
  rw [hpage, hoffset, BitVec.add_assoc, BitVec.add_assoc, BitVec.add_assoc,
    BitVec.add_comm KERNEL_DIRECT_MAPPING_AREA, BitVec.add_assoc]

/-- The address in the direct mapping is NULL for one physical address. -/
theorem physToKernelDirectMappingAddr_eq_zero_iff (pa : Word) :
    physToKernelDirectMappingAddr pa = 0 ↔ pa = -KERNEL_DIRECT_MAPPING_AREA := by
  rw [physToKernelDirectMappingAddr]
  constructor <;> intro h <;> bv_omega

/-- The page that holds a byte of the request is in the block. -/
theorem page_mem_frames (h : sz.toNat ≤ 2 ^ (12 + order)) {i : Nat} (hi : i < sz.toNat) :
    p + (i / 4096 : Nat) ∈ (Block.mk p order).frames := by
  have hlt : i / 4096 < 2 ^ order := by
    rw [Nat.div_lt_iff_lt_mul (by decide), Nat.mul_comm]
    rw [Nat.pow_add] at h
    exact hi.trans_le h
  have hcast : ((i / 4096 : Nat) : Int) < 2 ^ order := by exact_mod_cast hlt
  rw [Block.mem_mk]
  omega

end Address

/-! ### The two functions -/

/-- The page is the first of the first nonempty list from `order` on. -/
def ServesOrder (pages : Nat → List Int) (order : Nat) (p : Int) : Prop :=
  ∃ j ps, order ≤ j ∧ j < MAX_PAGE_ORDER ∧ pages j = p :: ps ∧
    ∀ i, order ≤ i → i < j → pages i = []

/-- What allocation by size should do, on a state whose free lists hold `pages`:
it asks for the least order, `mm_alloc` returns NULL exactly when no free block
is large enough, and otherwise the direct mapping of frames of the one block
that was taken from the lists. -/
def SizeExact (b : Buddy) (pages : Nat → List Int) (sz : Word) : Prop :=
  ∃ order, IsLeast { o | sz.toNat ≤ 2 ^ (12 + o) } order ∧
    mmPhysAlloc b sz = some ((allocPages b order).1, ((allocPages b order).2.map pageToPhys).getD (-1)) ∧
    ∃ va, mmAlloc b sz = some ((allocPages b order).1, va) ∧
      (va = 0 ↔ order ≥ MAX_PAGE_ORDER ∨ ∀ c ∈ blocksOf pages, c.order < order) ∧
      (va ≠ 0 → ∃ p j, order ≤ j ∧ ⟨p, j⟩ ∈ blocksOf pages ∧ (allocPages b order).2 = some p ∧
        ∀ i < sz.toNat, p + (i / 4096 : Nat) ∈ (Block.mk p order).frames ∧
          va + BitVec.ofNat 64 i = physToKernelDirectMappingAddr
            (pageToPhys (p + (i / 4096 : Nat)) + BitVec.ofNat 64 (i % 4096)))

section

variable {b : Buddy} {pages : Nat → List Int} {sz : Word} {order : Nat} {p : Int}

/-- What a call of `alloc_pages` gives: nothing when no free block is large
enough, and the page that serves the order otherwise. -/
theorem Sound.alloc_cases (hS : Sound b pages) (order : Nat) :
    ((allocPages b order).2 = none ∧ (∀ p, ¬ ServesOrder pages order p) ∧
        (order ≥ MAX_PAGE_ORDER ∨ ∀ c ∈ blocksOf pages, c.order < order)) ∨
      ∃ p, (allocPages b order).2 = some p ∧ (∀ q, ServesOrder pages order q → q = p) ∧
        ServesOrder pages order p ∧
        ¬ (order ≥ MAX_PAGE_ORDER ∨ ∀ c ∈ blocksOf pages, c.order < order) := by
  rcases hS.blocks.alloc hasFreelists_buddyHeads order with
    ⟨heq, hnone⟩ | ⟨j, p, ps, links, hkj, hj, hps, hempty, heq, -⟩
  · refine Or.inl ⟨by rw [heq], fun p hp => ?_, Or.inr fun c hc => ?_⟩
    · obtain ⟨j, ps, hkj, hj, hps, -⟩ := hp
      have hnil : pages j = [] := hnone j hkj hj
      simp [hps] at hnil
    · by_contra hle
      have hnil : pages c.order = [] := hnone c.order (Nat.not_lt.mp hle) hc.1
      have hmem := hc.2
      simp [hnil] at hmem
  · have hps : pages j = p :: ps := hps
    refine Or.inr ⟨p, by rw [heq], fun q hq => ?_, ⟨j, ps, hkj, hj, hps, hempty⟩, ?_⟩
    · -- Both are the first page of the first nonempty list.
      obtain ⟨i, qs, hki, hi, hqs, hempty'⟩ := hq
      obtain rfl : i = j := first_unique hki hkj (by simp [hqs]) (by simp [hps]) hempty' hempty
      exact (List.cons.inj (hqs.symm.trans hps)).1
    · rintro (h | h)
      · exact absurd (hkj.trans_lt hj) (Nat.not_lt.mpr h)
      · have hmem : (⟨p, j⟩ : Block) ∈ blocksOf pages := ⟨hj, by show p ∈ pages j; simp [hps]⟩
        exact absurd (h _ hmem) (Nat.not_lt.mpr hkj)

/-- `mm_alloc` on a size up to `2 ^ 63` is `alloc_pages` of the least order that is large enough,
with the address of its page or the value for failure. -/
theorem mmAlloc_eq (h : sz.toNat ≤ 2 ^ 63) :
    mmPhysAlloc b sz = some ((allocPages b (leastOrder sz)).1,
        ((allocPages b (leastOrder sz)).2.map pageToPhys).getD (-1)) ∧
      mmAlloc b sz = some ((allocPages b (leastOrder sz)).1,
        ((allocPages b (leastOrder sz)).2.map fun p =>
          physToKernelDirectMappingAddr (pageToPhys p)).getD 0) := by
  have hexpand : expandOrder sz 64 0 = some (leastOrder sz) :=
    expandOrder_eq h (Nat.zero_le _) (by have := leastOrder_le_of_le h; omega)
  have hphys : mmPhysAlloc b sz = some ((allocPages b (leastOrder sz)).1,
      ((allocPages b (leastOrder sz)).2.map pageToPhys).getD (-1)) := by
    rw [mmPhysAlloc, hexpand, Option.map_some]
    rcases allocPages b (leastOrder sz) with ⟨b', _ | p⟩ <;> rfl
  refine ⟨hphys, ?_⟩
  rw [mmAlloc, hphys, Option.map_some]
  rcases allocPages b (leastOrder sz) with ⟨b', _ | p⟩
  · rfl
  · exact congrArg some (if_neg (pageToPhys_ne_neg_one p))

/-- A block that is not at the address 0 of the direct mapping is told from a failure, so that up
to `2 ^ 63` bytes everything is as it should be. -/
theorem sizeExact_of_le (hS : Sound b pages) (h : sz.toNat ≤ 2 ^ 63)
    (hne : ∀ p, ServesOrder pages (leastOrder sz) p → pageToPhys p ≠ -KERNEL_DIRECT_MAPPING_AREA) :
    SizeExact b pages sz := by
  obtain ⟨hphys, halloc⟩ := mmAlloc_eq (b := b) h
  refine ⟨leastOrder sz, isLeast_leastOrder sz, hphys, _, halloc, ?_⟩
  rcases hS.alloc_cases (leastOrder sz) with ⟨hres, -, hnone⟩ | ⟨p, hres, -, hserves, hsome⟩
  · rw [hres]
    exact ⟨iff_of_true rfl hnone, fun h0 => absurd rfl h0⟩
  · rw [hres]
    have hva : physToKernelDirectMappingAddr (pageToPhys p) ≠ 0 := fun h0 =>
      hne p hserves ((physToKernelDirectMappingAddr_eq_zero_iff _).mp h0)
    refine ⟨iff_of_false hva hsome, fun _ => ?_⟩
    obtain ⟨j, ps, hj, hjmax, hps, -⟩ := hserves
    exact ⟨p, j, hj, ⟨hjmax, by show p ∈ pages j; simp [hps]⟩, rfl, fun i hi =>
      ⟨page_mem_frames (leastOrder_le_iff.mp (le_refl _)) hi,
        physToKernelDirectMappingAddr_add p i⟩⟩

end

/-- Allocation by size is right exactly up to `2 ^ 63` bytes, and when the block that is taken is
not the one whose direct mapping is the address 0: beyond, the loop over the orders does not end,
and that block cannot be told from a failure. -/
theorem sizeExact_iff (b : Buddy) (pages : Nat → List Int) (hS : Sound b pages) (sz : Word) :
    SizeExact b pages sz ↔ sz.toNat ≤ 2 ^ 63 ∧
      ∀ p, ServesOrder pages (leastOrder sz) p → pageToPhys p ≠ -KERNEL_DIRECT_MAPPING_AREA := by
  refine ⟨?_, fun h => sizeExact_of_le hS h.1 h.2⟩
  rintro ⟨order, hleast, hphys, va, halloc, hzero, -⟩
  have hle : sz.toNat ≤ 2 ^ 63 := by
    by_contra hgt
    rw [mmPhysAlloc, expandOrder_none (Nat.lt_of_not_le hgt)] at hphys
    simp at hphys
  obtain rfl := IsLeast.unique hleast (isLeast_leastOrder sz)
  refine ⟨hle, fun p hserves hwrap => ?_⟩
  rcases hS.alloc_cases (leastOrder sz) with ⟨-, hnone, -⟩ | ⟨q, hres, huniq, -, hsome⟩
  · exact hnone p hserves
  · -- The block that serves the order is the one that is returned, as NULL.
    obtain rfl := huniq p hserves
    rw [(mmAlloc_eq hle).2, hres, Option.some.injEq, Prod.mk.injEq] at halloc
    refine hsome (hzero.mp ?_)
    rw [← halloc.2]
    exact (physToKernelDirectMappingAddr_eq_zero_iff _).mpr hwrap

/-- One free block of four frames, and a request for a page and one byte: two frames are taken,
which is the least order that is large enough. -/
theorem sizeExact_four :
    SizeExact (putFree cleared 8 2) (fun i => if i = 2 then [8] else []) 4097 := by
  refine (sizeExact_iff _ _ sound_four 4097).mpr ⟨by decide, fun p hp => ?_⟩
  obtain ⟨j, ps, -, -, hps, -⟩ := hp
  by_cases hj : j = 2
  · obtain rfl : 8 = p := by simpa [hj] using congrArg List.head? hps
    decide
  · simp [hj] at hps

/-- A request for more than `2 ^ 63` bytes never comes back from the loop, because the size of a
block is shifted out of the word before it gets there. -/
theorem not_sizeExact_huge :
    ¬ SizeExact (putFree cleared 8 2) (fun i => if i = 2 then [8] else [])
      0x8000000000000001 := by
  rintro ⟨order, -, hphys, -⟩
  rw [mmPhysAlloc, expandOrder_none (by decide)] at hphys
  simp at hphys

end SumiOS
