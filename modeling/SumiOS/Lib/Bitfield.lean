import Mathlib.Algebra.Group.Nat.Defs
import Mathlib.Tactic.Common

/-!
# `SumiOS.Lib.Bitfield`: numbers packed from fields

A packed structure is a number. Its fields come one after the other from the low bits on,
and each takes as many bits as it is wide. `pack` builds the number from widths and values,
and `slice` reads the bits of a field.

`slice_head` and `slice_tail` are the rules for reading a field of a packed number, the
first one or a later one; what is read is the value as far as its width goes. `toNat_twoBytes`
is for the word that two bytes make.
-/

set_option autoImplicit false

namespace Lib

/-- The number with the fields of these widths and values, the lowest first. -/
def pack : List (Nat × Nat) → Nat
  | [] => 0
  | (w, v) :: fs => v % 2 ^ w + 2 ^ w * pack fs

/-- The bits of a number from `off` on. -/
def slice (off w n : Nat) : Nat := n / 2 ^ off % 2 ^ w

/-- The bits that the fields take. -/
def fieldsWidth : List (Nat × Nat) → Nat
  | [] => 0
  | (w, _) :: fs => w + fieldsWidth fs

section

variable {w v w₀ v₀ off : Nat} {fs : List (Nat × Nat)}

/-- A packed number has no more bits than its fields. -/
theorem pack_lt (fs : List (Nat × Nat)) : pack fs < 2 ^ fieldsWidth fs := by
  induction fs with
  | nil => exact Nat.one_pos
  | cons f fs ih =>
      have hlow := Nat.mod_lt f.2 (Nat.two_pow_pos f.1)
      have hhigh := Nat.mul_le_mul_left (2 ^ f.1) (Nat.succ_le_of_lt ih)
      rw [Nat.mul_succ] at hhigh
      show f.2 % 2 ^ f.1 + 2 ^ f.1 * pack fs < 2 ^ (f.1 + fieldsWidth fs)
      rw [Nat.pow_add]
      omega

/-- The first field. -/
theorem slice_head : slice 0 w (pack ((w, v) :: fs)) = v % 2 ^ w := by
  simp [slice, pack, Nat.add_mod]

/-- A later field: the fields before it only move it. -/
theorem slice_tail (h : w₀ ≤ off) :
    slice off w (pack ((w₀, v₀) :: fs)) = slice (off - w₀) w (pack fs) := by
  have hlow := Nat.mod_lt v₀ (Nat.two_pow_pos w₀)
  have hpow : 2 ^ off = 2 ^ w₀ * 2 ^ (off - w₀) := by
    rw [← Nat.pow_add, Nat.add_sub_cancel' h]
  have hrest : (v₀ % 2 ^ w₀ + 2 ^ w₀ * pack fs) / 2 ^ w₀ = pack fs := by
    rw [Nat.add_mul_div_left _ _ (Nat.two_pow_pos w₀), Nat.div_eq_of_lt hlow, Nat.zero_add]
  rw [slice, slice, pack, hpow, ← Nat.div_div_eq_div_mul, hrest]

end

/-- Two bytes that are put together in a wider word, the low one first. -/
theorem toNat_twoBytes {w : Nat} (hw : 16 ≤ w) (low high : BitVec 8) :
    (low.setWidth w ||| high.setWidth w <<< 8).toNat = low.toNat + 256 * high.toNat := by
  have hlow := low.isLt
  have hhigh := high.isLt
  have hpow : 2 ^ 16 ≤ 2 ^ w := Nat.pow_le_pow_right (by decide) hw
  rw [BitVec.toNat_or, BitVec.toNat_shiftLeft, BitVec.toNat_setWidth, BitVec.toNat_setWidth,
    Nat.mod_eq_of_lt (show high.toNat < 2 ^ w by omega),
    Nat.mod_eq_of_lt (show low.toNat < 2 ^ w by omega), Nat.shiftLeft_eq,
    Nat.mod_eq_of_lt (show high.toNat * 2 ^ 8 < 2 ^ w by omega), Nat.mul_comm, Nat.or_comm,
    ← Nat.two_pow_add_eq_or_of_lt hlow, Nat.add_comm]

end Lib
