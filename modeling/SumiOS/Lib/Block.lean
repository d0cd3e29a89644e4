import Mathlib.Algebra.Order.Ring.Int
import Mathlib.Data.Int.ConditionallyCompleteOrder
import Mathlib.Data.Set.Basic
import Mathlib.Order.CompletePartialOrder
import Mathlib.Order.ConditionallyCompleteLattice.Basic
import Mathlib.Order.Interval.Set.Basic
import Mathlib.Tactic.Common

/-!
# `SumiOS.Lib.Block`: blocks of `2 ^ order` frames

A block is an interval of `2 ^ order` integers. `Apart` is the arithmetic form
of disjointness that the proofs use. `frames_succ` splits a block into its two
halves, and `frames_split` a block into its first `2 ^ k` frames and one
half of each order from `k` up.
-/

set_option autoImplicit false

namespace Lib

/-- The frames `start, …, start + 2 ^ order - 1`. -/
structure Block where
  start : Int
  order : Nat
deriving DecidableEq

namespace Block

/-- The frames of a block. -/
def frames (b : Block) : Set Int := Set.Ico b.start (b.start + 2 ^ b.order)

/-- One block ends before the other starts. -/
def Apart (b c : Block) : Prop :=
  b.start + 2 ^ b.order ≤ c.start ∨ c.start + 2 ^ c.order ≤ b.start

/-- A block of any order has at least one frame. -/
theorem two_pow_pos (k : Nat) : (0 : Int) < 2 ^ k := Int.pow_pos (by decide)

/-- A block of the next order has twice as many frames. -/
theorem two_pow_succ (k : Nat) : (2 : Int) ^ (k + 1) = 2 * 2 ^ k := by
  rw [Int.pow_succ, Int.mul_comm]

/-- A larger order means at least as many frames. -/
theorem two_pow_le {j k : Nat} (h : j ≤ k) : (2 : Int) ^ j ≤ 2 ^ k :=
  pow_le_pow_right₀ (by decide) h

/-- The number of frames is strictly monotone in the order, and reflects it. -/
theorem two_pow_lt_iff {j k : Nat} : (2 : Int) ^ j < 2 ^ k ↔ j < k :=
  pow_lt_pow_iff_right₀ (by decide)

/-- The number of frames is monotone in the order, and reflects it. -/
theorem two_pow_le_iff {j k : Nat} : (2 : Int) ^ j ≤ 2 ^ k ↔ j ≤ k :=
  pow_le_pow_iff_right₀ (by decide)

/-- The number of frames determines the order. -/
theorem two_pow_inj {j k : Nat} (h : (2 : Int) ^ j = 2 ^ k) : j = k :=
  Nat.le_antisymm (two_pow_le_iff.mp h.le) (two_pow_le_iff.mp h.ge)

/-- A frame is in a block when it lies between the start and the end, the form in which `omega`
reasons about blocks. -/
theorem mem_frames {b : Block} {x : Int} :
    x ∈ b.frames ↔ b.start ≤ x ∧ x < b.start + 2 ^ b.order := Iff.rfl

/-- The same for a block that is written out by its start and its order. -/
theorem mem_mk {p x : Int} {k : Nat} :
    x ∈ (Block.mk p k).frames ↔ p ≤ x ∧ x < p + 2 ^ k := Iff.rfl

/-- A block contains its first frame, so no block is empty. -/
theorem start_mem (b : Block) : b.start ∈ b.frames := by
  have := two_pow_pos b.order
  rw [mem_frames]
  omega

/-- Being apart is symmetric, although each way of it puts one of the two blocks first. -/
theorem apart_comm {b c : Block} : b.Apart c ↔ c.Apart b := Or.comm

instance : Std.Symm Apart := ⟨fun _ _ => Or.symm⟩

/-- Two blocks are apart exactly when they share no frame. Being apart is the form for arithmetic,
having no common frame the one that the results are stated in. -/
theorem apart_iff_disjoint {b c : Block} : b.Apart c ↔ Disjoint b.frames c.frames := by
  have hb := two_pow_pos b.order
  have hc := two_pow_pos c.order
  rw [Set.disjoint_left]
  constructor
  · intro h x hx hx'
    rw [mem_frames] at hx hx'
    rcases h with h | h <;> omega
  · intro h
    by_contra hn
    unfold Apart at hn
    -- The larger of the two starts is a common frame.
    rcases Int.le_total b.start c.start with hle | hle
    · exact h (a := c.start) (mem_frames.mpr (by omega)) c.start_mem
    · exact h (a := b.start) b.start_mem (mem_frames.mpr (by omega))

/-- A block that starts inside another one is not apart from it. -/
theorem not_apart_of_start_mem {b c : Block} (h : c.start ∈ b.frames) : ¬ b.Apart c := by
  rw [apart_iff_disjoint, Set.disjoint_left]
  exact fun hd => hd h c.start_mem

/-- Blocks inside a block keep what that block was apart from. -/
theorem Apart.mono {c d e : Block} (h : c.Apart d) (hs : d.start ≤ e.start)
    (he : e.start + 2 ^ e.order ≤ d.start + 2 ^ d.order) : c.Apart e := by
  unfold Apart at h ⊢
  omega

/-- The two halves of a block: its frames are those of the first half and of the second one behind
it. -/
theorem frames_succ (p : Int) (k : Nat) :
    (Block.mk p (k + 1)).frames = (Block.mk p k).frames ∪ (Block.mk (p + 2 ^ k) k).frames := by
  ext x
  have := two_pow_pos k
  simp only [Set.mem_union, mem_frames, two_pow_succ]
  omega

/-- A block of order `j` is its first `2 ^ k` frames and the halves that were
put back on the way down from `j` to `k`. -/
theorem mem_frames_split {p x : Int} {k j : Nat} (hkj : k ≤ j) :
    x ∈ (Block.mk p j).frames ↔
      x ∈ (Block.mk p k).frames ∨ ∃ i, k ≤ i ∧ i < j ∧ x ∈ (Block.mk (p + 2 ^ i) i).frames := by
  induction j, hkj using Nat.le_induction with
  | base => exact (or_iff_left (by rintro ⟨i, h1, h2, -⟩; omega)).symm
  | succ j hkj ih =>
      rw [frames_succ, Set.mem_union, ih]
      constructor
      · rintro ((h | ⟨i, h1, h2, h3⟩) | h)
        · exact Or.inl h
        · exact Or.inr ⟨i, h1, by omega, h3⟩
        · exact Or.inr ⟨j, hkj, by omega, h⟩
      · rintro (h | ⟨i, h1, h2, h3⟩)
        · exact Or.inl (Or.inl h)
        · rcases Nat.lt_succ_iff_lt_or_eq.mp h2 with h2 | rfl
          · exact Or.inl (Or.inr ⟨i, h1, h2, h3⟩)
          · exact Or.inr h3

/-- The first frames of a block lie in it. -/
theorem first_le {p : Int} {k j : Nat} (h : k ≤ j) : p + 2 ^ k ≤ p + 2 ^ j := by
  have := two_pow_le h
  omega

/-- A half that is put back lies in the block that is split. -/
theorem half_le {p : Int} {i j : Nat} (h : i < j) : p + 2 ^ i + 2 ^ i ≤ p + 2 ^ j := by
  have := two_pow_le (Nat.succ_le_of_lt h)
  rw [Nat.succ_eq_add_one, two_pow_succ] at this
  omega

end Block

end Lib
