import Mathlib.Algebra.Group.Nat.Defs
import Mathlib.Logic.Function.Basic
import Mathlib.Tactic.Common

/-!
# `SumiOS.Lib.ByteMem`: byte-addressed memory with 64-bit words

Memory is a function from 64-bit addresses to bytes, and words are stored with
the low byte first. Addresses wrap around at `2 ^ 64`, as pointers do.

`SepBytes a n b k` says that the `n` bytes at `a` and the `k` bytes at `b` do not
meet. The lemmas about `read64` say what it returns after a word or a run of
bytes was written: the word that was written, or what was there before. `read64_unaligned`
says what it returns at an address between two aligned words.
-/

set_option autoImplicit false

namespace Lib

/-- Byte-addressed memory. -/
abbrev Mem := BitVec 64 → BitVec 8

/-- Byte `k` of a word, counted from the low end. -/
def byteOf (v : BitVec 64) (k : Nat) : BitVec 8 := v.extractLsb' (8 * k) 8

/-- The word with the bytes `f 0`, …, `f 7`. -/
def ofBytes (f : Nat → BitVec 8) : BitVec 64 :=
  f 7 ++ f 6 ++ f 5 ++ f 4 ++ f 3 ++ f 2 ++ f 1 ++ f 0

/-- `*(uint64_t *) a`. -/
def Mem.read64 (m : Mem) (a : BitVec 64) : BitVec 64 := ofBytes fun k => m (a + BitVec.ofNat 64 k)

/-- `*(uint32_t *) a`. -/
def Mem.read32 (m : Mem) (a : BitVec 64) : BitVec 32 := m (a + 3) ++ m (a + 2) ++ m (a + 1) ++ m a

/-- `*(uint64_t *) a = v`. -/
def Mem.write64 (m : Mem) (a v : BitVec 64) : Mem := fun x =>
  if (x - a).toNat < 8 then byteOf v (x - a).toNat else m x

/-- The loop that sets `n` bytes from `dst` on. -/
def Mem.memset (m : Mem) (dst : BitVec 64) (val : BitVec 8) : Nat → Mem
  | 0 => m
  | n + 1 => Function.update (m.memset dst val n) (dst + BitVec.ofNat 64 n) val

/-- The `n` bytes at `a` and the `k` bytes at `b` are disjoint. -/
def SepBytes (a : BitVec 64) (n : Nat) (b : BitVec 64) (k : Nat) : Prop :=
  n ≤ (b - a).toNat ∧ k ≤ (a - b).toNat

section

variable {m m' : Mem} {a b x v : BitVec 64} {n k j : Nat}

/-- That two ranges share no byte can be read from either side. -/
theorem SepBytes.symm (h : SepBytes a n b k) : SepBytes b k a n := ⟨h.2, h.1⟩

/-- A byte of the second run is at a distance of `n` or more from `a`. -/
theorem SepBytes.le_sub (h : SepBytes a n b k) (hn : 0 < n) (hj : j < k) :
    n ≤ (b + BitVec.ofNat 64 j - a).toNat := by
  obtain ⟨h1, h2⟩ := h
  bv_omega

/-- Parts of disjoint runs of bytes are disjoint, in whichever place of the runs they lie. -/
theorem SepBytes.mono {a' b' : BitVec 64} {n' k' : Nat} (h : SepBytes a n b k)
    (hn : 0 < n') (hk : 0 < k')
    (ha : (a' - a).toNat + n' ≤ n) (hb : (b' - b).toNat + k' ≤ k) : SepBytes a' n' b' k' := by
  obtain ⟨h1, h2⟩ := h
  constructor <;> bv_omega

/-- The bytes of a word put together again give the word, which is what reading back a written word
comes down to. -/
theorem ofBytes_byteOf (v : BitVec 64) : ofBytes (byteOf v) = v := by
  apply BitVec.eq_of_getLsbD_eq
  intro i hi
  simp only [ofBytes, byteOf, BitVec.getLsbD_append, BitVec.getLsbD_extractLsb']
  repeat' split
  all_goals
    rw [decide_eq_true (by omega), Bool.true_and]
    exact congrArg v.getLsbD (by omega)

/-- Byte `j` of the word that was written is found `j` bytes behind its address, also when it wraps
around. -/
theorem write64_apply (hj : j < 8) : m.write64 a v (a + BitVec.ofNat 64 j) = byteOf v j := by
  have hsub : (a + BitVec.ofNat 64 j - a).toNat = j := by bv_omega
  rw [Mem.write64, hsub, if_pos hj]

/-- A word is determined by its eight bytes. -/
theorem ofBytes_congr {f g : Nat → BitVec 8} (h : ∀ k < 8, f k = g k) :
    ofBytes f = ofBytes g := by
  simp only [ofBytes, h 7 (by decide), h 6 (by decide), h 5 (by decide), h 4 (by decide),
    h 3 (by decide), h 2 (by decide), h 1 (by decide), h 0 (by decide)]

/-- A word depends on its eight bytes. -/
theorem read64_congr (h : ∀ j < 8, m (a + BitVec.ofNat 64 j) = m' (a + BitVec.ofNat 64 j)) :
    m.read64 a = m'.read64 a := ofBytes_congr h

/-- A 32-bit read is the same in two memories that agree on its four bytes. -/
theorem read32_congr (h : ∀ j < 4, m (a + BitVec.ofNat 64 j) = m' (a + BitVec.ofNat 64 j)) :
    m.read32 a = m'.read32 a := by
  have h₀ : m a = m' a := by simpa using h 0 (by decide)
  have h₁ : m (a + 1) = m' (a + 1) := h 1 (by decide)
  have h₂ : m (a + 2) = m' (a + 2) := h 2 (by decide)
  have h₃ : m (a + 3) = m' (a + 3) := h 3 (by decide)
  rw [Mem.read32, Mem.read32, h₀, h₁, h₂, h₃]

/-- A word is read back as it was written. -/
theorem read64_write64_self : (m.write64 a v).read64 a = v := by
  have h : (m.write64 a v).read64 a = ofBytes (byteOf v) :=
    ofBytes_congr fun j hj => write64_apply hj
  rw [h, ofBytes_byteOf]

/-- A write outside a run of bytes keeps it. -/
theorem write64_of_sep (h : SepBytes a 8 b k) (hj : j < k) :
    m.write64 a v (b + BitVec.ofNat 64 j) = m (b + BitVec.ofNat 64 j) := by
  have hle := h.le_sub (by decide) hj
  exact if_neg (by omega)

/-- A write changes no word whose bytes are apart from the written ones. -/
theorem read64_write64_of_sep (h : SepBytes a 8 b 8) : (m.write64 a v).read64 b = m.read64 b :=
  read64_congr fun _ hj => write64_of_sep h hj

/-- What the loop leaves: `val` in the run, and everything else as it was. -/
theorem memset_apply {val : BitVec 8} (hn : n ≤ 2 ^ 64) :
    m.memset a val n x = if (x - a).toNat < n then val else m x := by
  induction n with
  | zero => rfl
  | succ n ih =>
      rw [Mem.memset]
      by_cases h : x = a + BitVec.ofNat 64 n
      · have hx : (x - a).toNat = n := by
          subst h
          bv_omega
        rw [h, Function.update_self, ← h, hx, if_pos (Nat.lt_succ_self n)]
      · have hx : (x - a).toNat ≠ n := fun e => h (by bv_omega)
        rw [Function.update_of_ne h, ih (by omega)]
        exact if_congr (by omega) rfl rfl

/-- A word of equal bytes. -/
theorem read64_fill {c : BitVec 8} (h : ∀ j < 8, m (a + BitVec.ofNat 64 j) = c) :
    m.read64 a = ofBytes fun _ => c := ofBytes_congr h

/-- Eight zero bytes make up the word zero. -/
theorem ofBytes_zero : (ofBytes fun _ => 0) = 0 := rfl

/-- A word in a run that was cleared reads as zero, wherever in the run it begins. -/
theorem read64_memset_zero (hn : n ≤ 2 ^ 64) (hb : (b - a).toNat + 8 ≤ n) :
    (m.memset a 0 n).read64 b = 0 := by
  have hzero : ∀ j < 8, m.memset a 0 n (b + BitVec.ofNat 64 j) = 0 := by
    intro j hj
    rw [memset_apply hn, if_pos]
    bv_omega
  rw [read64_fill hzero, ofBytes_zero]

/-- Clearing a run keeps the words outside it, the frame rule of `memset` for words. -/
theorem read64_memset_of_sep {val : BitVec 8} (hn : n ≤ 2 ^ 64) (hpos : 0 < n)
    (h : SepBytes a n b 8) : (m.memset a val n).read64 b = m.read64 b := by
  refine read64_congr fun j hj => ?_
  have hle := h.le_sub hpos hj
  rw [memset_apply hn, if_neg (by omega)]

/-- Bit `i` of a word is in byte `i / 8`. -/
theorem getLsbD_ofBytes (f : Nat → BitVec 8) {i : Nat} (hi : i < 64) :
    (ofBytes f).getLsbD i = (f (i / 8)).getLsbD (i % 8) := by
  simp only [ofBytes, BitVec.getLsbD_append]
  repeat' split
  all_goals exact congrArg₂ (fun k j => (f k).getLsbD j) (by omega) (by omega)

/-- A word that is not aligned is put together from the two aligned words that it meets. -/
theorem read64_unaligned {s : Nat} (hs : s < 8) : m.read64 (a + BitVec.ofNat 64 s) =
    m.read64 a >>> (8 * s) ||| m.read64 (a + 8) <<< (64 - 8 * s) := by
  have hbyte : ∀ j k, m (a + BitVec.ofNat 64 j + BitVec.ofNat 64 k)
      = m (a + BitVec.ofNat 64 (j + k)) := by
    intro j k
    rw [BitVec.add_assoc, ← BitVec.ofNat_add]
  apply BitVec.eq_of_getLsbD_eq
  intro i hi
  rw [BitVec.getLsbD_or, BitVec.getLsbD_ushiftRight, BitVec.getLsbD_shiftLeft, Mem.read64,
    getLsbD_ofBytes _ hi, hbyte]
  by_cases hlow : 8 * s + i < 64
  · -- The bit is in the first of the two words.
    have hplace : (8 * s + i) / 8 = s + i / 8 ∧ (8 * s + i) % 8 = i % 8 := by omega
    rw [decide_eq_true (show i < 64 - 8 * s by omega), Mem.read64, getLsbD_ofBytes _ hlow,
      hplace.1, hplace.2]
    simp
  · have hplace : 8 + (i - (64 - 8 * s)) / 8 = s + i / 8 ∧ (i - (64 - 8 * s)) % 8 = i % 8 := by
      omega
    have hfirst : (m.read64 a).getLsbD (8 * s + i) = false := BitVec.getLsbD_of_ge _ _ (by omega)
    have hsecond : (m.read64 (a + 8)).getLsbD (i - (64 - 8 * s))
        = (m (a + BitVec.ofNat 64 (s + i / 8))).getLsbD (i % 8) := by
      rw [Mem.read64, getLsbD_ofBytes _ (by omega), ← hplace.1, ← hplace.2, ← hbyte]
      rfl
    rw [hfirst, hsecond, decide_eq_true hi, decide_eq_false (show ¬ i < 64 - 8 * s by omega)]
    simp

/-- The same as a number: the high bytes of the one word are the low part, and the low bytes of the
next word the high part of what is read. -/
theorem read64_unaligned_toNat {s : Nat} (hs : s < 8) :
    (m.read64 (a + BitVec.ofNat 64 s)).toNat = (m.read64 a).toNat / 2 ^ (8 * s)
      + (m.read64 (a + 8)).toNat % 2 ^ (8 * s) * 2 ^ (64 - 8 * s) := by
  have hpow : 2 ^ 64 = 2 ^ (8 * s) * 2 ^ (64 - 8 * s) := by
    rw [← Nat.pow_add]
    congr 1
    omega
  have hlow : (m.read64 a).toNat / 2 ^ (8 * s) < 2 ^ (64 - 8 * s) := by
    rw [Nat.div_lt_iff_lt_mul (Nat.two_pow_pos _), Nat.mul_comm, ← hpow]
    exact (m.read64 a).isLt
  rw [read64_unaligned hs, BitVec.toNat_or, BitVec.toNat_ushiftRight, BitVec.toNat_shiftLeft,
    Nat.shiftRight_eq_div_pow, Nat.shiftLeft_eq, hpow, Nat.mul_mod_mul_right, Nat.add_comm,
    Nat.mul_comm (_ % _), Nat.two_pow_add_eq_or_of_lt hlow]
  exact Nat.or_comm _ _

end

end Lib
