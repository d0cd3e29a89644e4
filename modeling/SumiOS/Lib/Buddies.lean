import SumiOS.Lib.Block
import Mathlib.Tactic.Push

/-!
# `SumiOS.Lib.Buddies`: blocks in a binary tree

Relative to a first frame `s`, the block of order `o + 1` at `p` has two halves
of order `o`, which are each other's buddies. `Coalesced` says of a set of
aligned, pairwise apart blocks that cover the frames from `s` on that it holds no
two buddies. Then the blocks are as large as they can be: where an aligned block
of order `m` fits, the blocks of the set have order `m` or more
(`Coalesced.exists_order_ge`).
-/

set_option autoImplicit false

namespace Lib

/-- The start of the other half, for the block of order `o` at `p`. -/
def buddyOf (s p : Int) (o : Nat) : Int :=
  if (2 : Int) ^ (o + 1) ∣ p - s then p + 2 ^ o else p - 2 ^ o

section

variable {s p x a : Int} {o m : Nat}

/-- An aligned block is the first or the second half of the next order. -/
theorem two_pow_dvd_cases (h : (2 : Int) ^ o ∣ x) :
    (2 : Int) ^ (o + 1) ∣ x ∨ (2 : Int) ^ (o + 1) ∣ x - 2 ^ o := by
  obtain ⟨q, rfl⟩ := h
  rw [Block.two_pow_succ, Int.mul_comm 2]
  rcases Int.emod_two_eq q with hq | hq
  · exact Or.inl (Int.mul_dvd_mul_left _ (Int.dvd_of_emod_eq_zero hq))
  · refine Or.inr ⟨(q - 1) / 2, ?_⟩
    have hdiv : q - 1 = 2 * ((q - 1) / 2) := by omega
    calc (2 : Int) ^ o * q - 2 ^ o = 2 ^ o * (q - 1) := by rw [Int.mul_sub, Int.mul_one]
      _ = 2 ^ o * (2 * ((q - 1) / 2)) := by rw [← hdiv]
      _ = 2 ^ o * 2 * ((q - 1) / 2) := by rw [Int.mul_assoc]

/-- The second half of an aligned block is not a first half, since it starts at an odd multiple of
its size. -/
theorem not_two_pow_dvd_add (h : (2 : Int) ^ (o + 1) ∣ x) : ¬ (2 : Int) ^ (o + 1) ∣ x + 2 ^ o := by
  intro h'
  have hpos := Block.two_pow_pos o
  have hle := Int.le_of_dvd hpos ((Int.dvd_add_right h).mp h')
  rw [Block.two_pow_succ] at hle
  omega

/-- The buddy of the first half of a block is the half behind it. -/
theorem buddyOf_first (h : (2 : Int) ^ (o + 1) ∣ p - s) : buddyOf s p o = p + 2 ^ o := if_pos h

/-- The buddy of the second half is the half in front of it. -/
theorem buddyOf_second (h : ¬ (2 : Int) ^ (o + 1) ∣ p - s) : buddyOf s p o = p - 2 ^ o :=
  if_neg h

/-- No block is its own buddy. -/
theorem buddyOf_ne : buddyOf s p o ≠ p := by
  have hpos := Block.two_pow_pos o
  unfold buddyOf
  split <;> omega

/-- The buddy of the second half is the first. -/
theorem buddyOf_add (h : (2 : Int) ^ (o + 1) ∣ p - s) : buddyOf s (p + 2 ^ o) o = p := by
  have hnot := not_two_pow_dvd_add h
  rw [show p - s + 2 ^ o = p + 2 ^ o - s from by omega] at hnot
  rw [buddyOf_second hnot]
  omega

/-- The first half that an aligned second half belongs to. -/
theorem dvd_of_second (h : (2 : Int) ^ o ∣ p - s) (hn : ¬ (2 : Int) ^ (o + 1) ∣ p - s) :
    (2 : Int) ^ (o + 1) ∣ p - 2 ^ o - s := by
  have := (two_pow_dvd_cases h).resolve_left hn
  rwa [show p - s - 2 ^ o = p - 2 ^ o - s from by omega] at this

/-- The buddy of the buddy is the block itself. -/
theorem buddyOf_buddyOf (h : (2 : Int) ^ o ∣ p - s) : buddyOf s (buddyOf s p o) o = p := by
  by_cases hp : (2 : Int) ^ (o + 1) ∣ p - s
  · rw [buddyOf_first hp, buddyOf_add hp]
  · rw [buddyOf_second hp, buddyOf_first (dvd_of_second h hp)]
    omega

/-- An aligned block that contains an aligned frame of its own order starts
there. -/
theorem start_eq_of_dvd {c : Block} (hc : (2 : Int) ^ c.order ∣ c.start - s)
    (ha : (2 : Int) ^ c.order ∣ a - s) (hmem : a ∈ c.frames) : c.start = a := by
  rw [Block.mem_frames] at hmem
  have hdvd : (2 : Int) ^ c.order ∣ a - c.start := by
    have := Int.dvd_sub ha hc
    rwa [show a - s - (c.start - s) = a - c.start from by omega] at this
  have hzero := Int.eq_zero_of_dvd_of_nonneg_of_lt (by omega) (by omega) hdvd
  omega

/-- A larger aligned block that contains the second half of a block contains the first half too, so
that a merge with a buddy never leaves such a block half taken. -/
theorem mem_of_mem_second {c : Block} (hc : (2 : Int) ^ c.order ∣ c.start - s) (hm : m < c.order)
    (ha : (2 : Int) ^ (m + 1) ∣ a - s) (hmem : a + 2 ^ m ∈ c.frames) : a ∈ c.frames := by
  have hpos := Block.two_pow_pos m
  rw [Block.mem_frames] at hmem ⊢
  refine ⟨?_, by omega⟩
  by_contra hlt
  have hdvd : (2 : Int) ^ (m + 1) ∣ c.start - a := by
    have := Int.dvd_sub ((pow_dvd_pow (2 : Int) hm).trans hc) ha
    rwa [show c.start - s - (a - s) = c.start - a from by omega] at this
  have hle := Int.le_of_dvd (by omega) hdvd
  rw [Block.two_pow_succ] at hle
  omega

end

/-- Aligned blocks that cover the frames from `s` to `e`, without two buddies of
an order below `cap`. -/
structure Coalesced (cap : Nat) (s e : Int) (B : Set Block) : Prop where
  aligned : ∀ c ∈ B, (2 : Int) ^ c.order ∣ c.start - s
  apart : ∀ c ∈ B, ∀ d ∈ B, c ≠ d → c.Apart d
  covers : ∀ y, s ≤ y → y < e → ∃ c ∈ B, y ∈ c.frames
  alone : ∀ c ∈ B, c.order < cap → ⟨buddyOf s c.start c.order, c.order⟩ ∉ B

/-- Where an aligned block of order `m` fits, there is a block of order `m` or
more. -/
theorem Coalesced.exists_order_ge {cap : Nat} {s e : Int} {B : Set Block}
    (h : Coalesced cap s e B) :
    ∀ {m : Nat}, m ≤ cap → ∀ {a : Int}, s ≤ a → a + 2 ^ m ≤ e → (2 : Int) ^ m ∣ a - s →
      ∃ c ∈ B, a ∈ c.frames ∧ m ≤ c.order := by
  intro m
  induction m with
  | zero =>
      intro _ a hs he _
      obtain ⟨c, hc, hac⟩ := h.covers a hs (by omega)
      exact ⟨c, hc, hac, Nat.zero_le _⟩
  | succ m ih =>
      intro hm a hs he ha
      have hpos := Block.two_pow_pos m
      rw [Block.two_pow_succ] at he
      have ham : (2 : Int) ^ m ∣ a - s := (pow_dvd_pow (2 : Int) (Nat.le_succ m)).trans ha
      obtain ⟨c, hc, hac, hcm⟩ := ih (by omega) hs (by omega) ham
      refine ⟨c, hc, hac, ?_⟩
      by_contra hlt
      obtain rfl : c.order = m := by omega
      have hstart := start_eq_of_dvd (h.aligned c hc) ham hac
      -- The block that covers the second half has the same order, so it is the
      -- buddy.
      obtain ⟨d, hd, had, hdm⟩ := ih (a := a + 2 ^ c.order) (by omega) (by omega) (by omega) (by
        have := Int.dvd_add ham (Int.dvd_refl ((2 : Int) ^ c.order))
        rwa [show a - s + 2 ^ c.order = a + 2 ^ c.order - s from by omega] at this)
      have hdorder : d.order = c.order := by
        by_contra hne
        have hmem := mem_of_mem_second (h.aligned d hd) (by omega) ha had
        have hcd : d ≠ c := fun e => hne (by rw [e])
        exact Block.not_apart_of_start_mem (hstart ▸ hmem) (h.apart d hd c hc hcd)
      have hdstart : d.start = a + 2 ^ c.order := by
        refine start_eq_of_dvd (h.aligned d hd) ?_ had
        have := Int.dvd_add ham (Int.dvd_refl ((2 : Int) ^ c.order))
        rw [hdorder]
        rwa [show a - s + 2 ^ c.order = a + 2 ^ c.order - s from by omega] at this
      refine h.alone c hc (by omega) ?_
      rw [hstart, buddyOf_first ha, ← hdstart, ← hdorder]
      exact hd

end Lib
