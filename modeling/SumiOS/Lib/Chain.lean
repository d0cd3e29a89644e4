import SumiOS.Lib.ByteMem
import Mathlib.Logic.Function.Iterate

/-!
# `SumiOS.Lib.Chain`: lists threaded through memory

A list of objects can be stored in the objects themselves: the first word of each
object is the address of the next one, and NULL ends the list. Such a list costs no
memory, and it is only as safe as the objects it runs through.

`Chain m a xs` says that the chain from `a` holds the objects `xs`. `thread m xs` is
the memory after the links of `xs` were written, one object after the other, and
`chain_thread` says that they form a chain. The two frame lemmas are `Chain.congr`
(memory that agrees on the links of a chain has the same chain) and `thread_apply`
(writing the links changes nothing but the first word of each object).

`strided size n a` are `n` objects of `size` bytes from `a` on. An object at address 0
cannot be told from the end of a chain, so the chain of a list ends in front of it
(`takeWhile`).
-/

set_option autoImplicit false

namespace Lib

/-- The chain from `a` holds the objects `xs`. -/
def Chain (m : Mem) : BitVec 64 → List (BitVec 64) → Prop
  | a, [] => a = 0
  | a, x :: xs => a = x ∧ x ≠ 0 ∧ Chain m (m.read64 x) xs

/-- Each object has the address of the next one, and the last one has NULL. -/
def Threaded (m : Mem) : List (BitVec 64) → Prop
  | [] => True
  | x :: xs => m.read64 x = xs.headD 0 ∧ Threaded m xs

/-- The memory after the links of the objects `xs` were written. -/
def thread (m : Mem) : List (BitVec 64) → Mem
  | [] => m
  | x :: xs => thread (m.write64 x (xs.headD 0)) xs

/-- `n` objects of `size` bytes from `a` on. -/
def strided (size : BitVec 64) : Nat → BitVec 64 → List (BitVec 64)
  | 0, _ => []
  | n + 1, a => a :: strided size n (a + size)

section

variable {m m' : Mem} {a b x size : BitVec 64} {xs : List (BitVec 64)} {n : Nat}

/-! ### Chains -/

/-- A chain is empty exactly when it starts with NULL. -/
theorem Chain.eq_zero_iff (h : Chain m a xs) : a = 0 ↔ xs = [] := by
  cases xs with
  | nil => exact iff_of_true h rfl
  | cons x xs => exact iff_of_false (h.1 ▸ h.2.1) (by simp)

/-- A chain reads the first word of each of its objects and nothing else. -/
theorem Chain.congr (h : Chain m a xs) (hread : ∀ x ∈ xs, m'.read64 x = m.read64 x) :
    Chain m' a xs := by
  induction xs generalizing a with
  | nil => exact h
  | cons x xs ih =>
      refine ⟨h.1, h.2.1, ?_⟩
      rw [hread x List.mem_cons_self]
      exact ih h.2.2 fun y hy => hread y (List.mem_cons_of_mem x hy)

/-- Threaded objects are a chain, up to an object at NULL: a reader of the chain takes the link to
such an object for its end. -/
theorem Threaded.chain (h : Threaded m xs) :
    Chain m (xs.headD 0) (xs.takeWhile (· ≠ 0)) := by
  induction xs with
  | nil => rfl
  | cons x xs ih =>
      by_cases hx : x = 0
      · simp [hx, Chain]
      · have htake : (x :: xs).takeWhile (· ≠ 0) = x :: xs.takeWhile (· ≠ 0) :=
          List.takeWhile_cons_of_pos (decide_eq_true hx)
        rw [htake]
        refine ⟨rfl, hx, ?_⟩
        rw [h.1]
        exact ih h.2

/-- Following the links of threaded objects visits them in their order, and then
NULL. -/
theorem Threaded.iterate (h : Threaded m xs) {j : Nat} (hj : j ≤ xs.length) :
    m.read64^[j] (xs.headD 0) = xs.getD j 0 := by
  induction xs generalizing j with
  | nil =>
      rw [List.length_nil, Nat.le_zero] at hj
      rw [hj]
      rfl
  | cons x xs ih =>
      cases j with
      | zero => rfl
      | succ j =>
          show m.read64^[j] (m.read64 x) = xs.getD j 0
          rw [h.1]
          exact ih h.2 (Nat.le_of_succ_le_succ hj)

/-! ### Writing the links -/

/-- The links change the first word of each object and nothing else. -/
theorem thread_apply (hb : ∀ y ∈ xs, ¬ (b - y).toNat < 8) : thread m xs b = m b := by
  induction xs generalizing m with
  | nil => rfl
  | cons y xs ih =>
      rw [thread, ih fun z hz => hb z (List.mem_cons_of_mem y hz)]
      exact if_neg (hb y List.mem_cons_self)

/-- The links keep the words that lie apart from the objects. -/
theorem read64_thread (hx : ∀ y ∈ xs, SepBytes y 8 x 8) :
    (thread m xs).read64 x = m.read64 x := by
  induction xs generalizing m with
  | nil => rfl
  | cons y xs ih =>
      rw [thread, ih fun z hz => hx z (List.mem_cons_of_mem y hz)]
      exact read64_write64_of_sep (hx y List.mem_cons_self)

/-- Objects that lie apart are threaded once their links are written. -/
theorem threaded_thread (hsep : xs.Pairwise fun x y => SepBytes y 8 x 8) :
    Threaded (thread m xs) xs := by
  induction xs generalizing m with
  | nil => trivial
  | cons x xs ih =>
      rw [List.pairwise_cons] at hsep
      -- The links behind `x` are written later, and keep the link of `x`.
      refine ⟨?_, ih hsep.2⟩
      rw [thread, read64_thread hsep.1]
      exact read64_write64_self

/-- The chain after the links of its objects were written. -/
theorem chain_thread (hsep : xs.Pairwise fun x y => SepBytes y 8 x 8) :
    Chain (thread m xs) (xs.headD 0) (xs.takeWhile (· ≠ 0)) := (threaded_thread hsep).chain

/-! ### Objects one behind the other -/

/-- The next object is one stride further, which shifts the index of every object behind
it by one. -/
theorem stride_succ (a size : BitVec 64) (j : Nat) :
    a + size + BitVec.ofNat 64 j * size = a + BitVec.ofNat 64 (j + 1) * size := by
  rw [BitVec.ofNat_add, BitVec.add_mul, BitVec.add_assoc, BitVec.add_comm size]
  simp

/-- The addresses of a chain of equal objects, given by their index in it. -/
theorem strided_eq_map (size : BitVec 64) (n : Nat) (a : BitVec 64) :
    strided size n a = (List.range n).map fun j => a + BitVec.ofNat 64 j * size := by
  induction n generalizing a with
  | zero => rfl
  | succ n ih =>
      rw [strided, ih, List.range_succ_eq_map, List.map_cons, List.map_map]
      simp [Function.comp_def, ← stride_succ]

/-- An address is in the chain when it is a multiple of the size behind the start. -/
theorem mem_strided : x ∈ strided size n a ↔ ∃ j < n, x = a + BitVec.ofNat 64 j * size := by
  simp [strided_eq_map, eq_comm]

/-- The distance of two objects is a multiple of the stride, by the difference of their indices. -/
theorem strided_sub (a size : BitVec 64) {j k : Nat} (hjk : j ≤ k) :
    a + BitVec.ofNat 64 k * size - (a + BitVec.ofNat 64 j * size)
      = BitVec.ofNat 64 (k - j) * size := by
  have hsplit : BitVec.ofNat 64 k * size
      = BitVec.ofNat 64 j * size + BitVec.ofNat 64 (k - j) * size := by
    rw [← BitVec.add_mul, ← BitVec.ofNat_add, Nat.add_sub_cancel' hjk]
  rw [BitVec.sub_eq_iff_eq_add, hsplit, ← BitVec.add_assoc]
  exact BitVec.add_comm _ _

/-- The distance of an object from the start, as a number, while the chain does not wrap around. -/
theorem toNat_ofNat_mul {size : BitVec 64} {j : Nat} (h : j * size.toNat < 2 ^ 64) :
    (BitVec.ofNat 64 j * size).toNat = j * size.toNat := by
  rw [BitVec.toNat_mul, BitVec.toNat_ofNat, Nat.mod_mul_mod, Nat.mod_eq_of_lt h]

/-- Objects that have room in the address space share no byte of their links, since each one is a
size apart from the next and the last one does not come round to the first. -/
theorem strided_sep (hfit : n * size.toNat ≤ 2 ^ 64) (hsize : 8 ≤ size.toNat) :
    (strided size n a).Pairwise fun x y => SepBytes y 8 x 8 := by
  rw [strided_eq_map, List.pairwise_map]
  refine List.pairwise_lt_range.imp_of_mem fun {j k} hj hk hjk => ?_
  -- The objects are at least one size apart, on both sides.
  have hroom : (k - j + 1) * size.toNat ≤ 2 ^ 64 :=
    Nat.le_trans (Nat.mul_le_mul_right _ (by have := List.mem_range.mp hk; omega)) hfit
  have hone : 1 * size.toNat ≤ (k - j) * size.toNat := Nat.mul_le_mul_right _ (by omega)
  rw [Nat.succ_mul] at hroom
  have hdist := strided_sub a size (Nat.le_of_lt hjk)
  have hval : (BitVec.ofNat 64 (k - j) * size).toNat = (k - j) * size.toNat :=
    toNat_ofNat_mul (by omega)
  rw [← hdist] at hval
  generalize a + BitVec.ofNat 64 j * size = x at hval ⊢
  generalize a + BitVec.ofNat 64 k * size = y at hval ⊢
  constructor <;> bv_omega

/-- A chain has as many objects as were asked for. -/
@[simp]
theorem length_strided : (strided size n a).length = n := by
  simp [strided_eq_map]

end

end Lib
