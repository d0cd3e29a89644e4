import Mathlib.Data.Nat.Digits.Defs
import Mathlib.Data.Nat.Digits.Lemmas

/-!
# `SumiOS.Lib.Numeral`: canonical numerals

A numeral is a list of digits, the most significant first. It is canonical when it has a
digit, its digits are less than the base and it has no leading zero (`Canonical`), and
`value` is the number that it reads as.

`numeral b n` is the one canonical numeral of `n` (`eq_numeral_iff`). `numeral_of_lt` and
`numeral_of_le` are its recursion from the least significant digit, as a division loop
writes it.
-/

set_option autoImplicit false

namespace Lib

/-- The number that the digits read as. -/
def value (b : Nat) (ds : List Nat) : Nat := Nat.ofDigits b ds.reverse

/-- A numeral as it is written by hand. -/
structure Canonical (b : Nat) (ds : List Nat) : Prop where
  ne_nil : ds ≠ []
  digit_lt : ∀ d ∈ ds, d < b
  leading : ds.head? = some 0 → ds = [0]

/-- The canonical numeral of a number. -/
def numeral (b n : Nat) : List Nat := if n = 0 then [0] else (Nat.digits b n).reverse

variable {b n : Nat}

/-- A number below the base has one digit, itself; so zero has the digit zero and not an empty
numeral. -/
theorem numeral_of_lt (h : n < b) : numeral b n = [n] := by
  rw [numeral]
  split
  · next h0 => rw [h0]
  · next h0 => rw [Nat.digits_of_lt b n h0 h, List.reverse_singleton]

/-- A number from the base on has the digits of its quotient and behind them its remainder, which
is how the loops find them, the last one first. -/
theorem numeral_of_le (hb : 1 < b) (h : b ≤ n) :
    numeral b n = numeral b (n / b) ++ [n % b] := by
  have hn : n ≠ 0 := by omega
  have hq : n / b ≠ 0 := (Nat.div_pos h (by omega)).ne'
  rw [numeral, if_neg hn, numeral, if_neg hq, Nat.digits_def' hb (by omega), List.reverse_cons]

/-- The numeral that repeated division produces has digits below the base and no leading zero. -/
theorem numeral_canonical (hb : 1 < b) (n : Nat) : Canonical b (numeral b n) := by
  rw [numeral]
  split
  · exact ⟨by simp, by simp; omega, fun _ => rfl⟩
  · next hn =>
      have hne : Nat.digits b n ≠ [] := Nat.digits_ne_nil_iff_ne_zero.mpr hn
      refine ⟨by simpa using hne, fun d hd => ?_, fun hhead => ?_⟩
      · exact Nat.digits_lt_base hb (List.mem_reverse.mp hd)
      · -- The first digit is the last one that the division gives, and not zero.
        rw [List.head?_reverse, List.getLast?_eq_some_getLast hne, Option.some.injEq] at hhead
        exact absurd hhead (Nat.getLast_digit_ne_zero b hn)

/-- Reading the numeral gives the number back, whatever the number is: the round trip of the loops
that print. -/
theorem value_numeral (b n : Nat) : value b (numeral b n) = n := by
  rw [numeral, value]
  split
  · next hn => simp [hn]
  · rw [List.reverse_reverse, Nat.ofDigits_digits]

/-- A number below `b ^ k` has at most `k` digits, which bounds the buffer that they are written
to. -/
theorem length_numeral_le (hb : 1 < b) {k : Nat} (hk : 0 < k) (h : n < b ^ k) :
    (numeral b n).length ≤ k := by
  rw [numeral]
  split
  · exact hk
  · rw [List.length_reverse]
    exact (Nat.digits_length_le_iff hb n).mpr h

/-- The numeral of a number is its only canonical one: digits below the base without a leading
zero, whose value is the number. -/
theorem eq_numeral_iff (hb : 1 < b) {ds : List Nat} :
    ds = numeral b n ↔ Canonical b ds ∧ value b ds = n := by
  constructor
  · rintro rfl
    exact ⟨numeral_canonical hb n, value_numeral b n⟩
  · rintro ⟨hds, rfl⟩
    by_cases hzero : ds = [0]
    · simp [hzero, numeral, value]
    · have hlast : ∀ hne : ds.reverse ≠ [], ds.reverse.getLast hne ≠ 0 := by
        intro hne h0
        rw [List.getLast_reverse] at h0
        exact hzero (hds.leading (by rw [List.head?_eq_some_head hds.ne_nil, h0]))
      have hdigits := Nat.digits_ofDigits b hb ds.reverse
        (fun d hd => hds.digit_lt d (List.mem_reverse.mp hd)) hlast
      have hne : Nat.ofDigits b ds.reverse ≠ 0 := by
        intro h0
        rw [h0, Nat.digits_zero] at hdigits
        exact hds.ne_nil (List.reverse_eq_nil_iff.mp hdigits.symm)
      rw [numeral, value, if_neg hne, hdigits, List.reverse_reverse]

end Lib
