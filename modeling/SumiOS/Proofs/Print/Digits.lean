import SumiOS.Lib.Numeral
import SumiOS.Lib.Sink
import SumiOS.Print

/-!
# `SumiOS.Proofs.Print.Digits`: what the print functions emit

`printstr_emits` is about `kprintstr`, on any string that is not too long for an `int`.
`digitLoop_eq` is about the loop that divides: it writes the canonical numeral of the
number that it counts down (`Peels`), and stays in the buffer when the number has few
enough digits.

`kprintnum` counts down the absolute value. For the least number the negation has no
effect, and the remainders are negative: the digits are subtracted from `'0'` there
(`printnum_emits_min`).
-/

set_option autoImplicit false

namespace SumiOS

open Lib

/-! ### Strings -/

/-- From `str[i]` on there are the characters `cs`, and a NUL behind them. -/
def NulTerminated (str : CStr) : Nat → List (BitVec 8) → Prop
  | i, [] => str i = some 0
  | i, c :: cs => c ≠ 0 ∧ str i = some c ∧ NulTerminated str (i + 1) cs

/-- An array that ends with a NUL, from the end of `pre` on. -/
theorem nulTerminated_append (pre : List (BitVec 8)) {cs : List (BitVec 8)} (h : 0 ∉ cs) :
    NulTerminated (arrayAt (pre ++ cs ++ [0])) pre.length cs := by
  induction cs generalizing pre with
  | nil => simp [NulTerminated, arrayAt]
  | cons c cs ih =>
      rw [List.mem_cons, not_or] at h
      have hrest := ih (pre ++ [c]) h.2
      rw [List.length_append, List.append_assoc pre] at hrest
      exact ⟨Ne.symm h.1, by simp [arrayAt], hrest⟩

/-- An array that ends with a NUL. -/
theorem nulTerminated_arrayAt {cs : List (BitVec 8)} (h : 0 ∉ cs) :
    NulTerminated (arrayAt (cs ++ [0])) 0 cs := nulTerminated_append [] h

/-- The values of an `int` that are not negative. -/
theorem toInt_index {i : Nat} (h : i < 2 ^ 31) : (BitVec.ofNat 32 i).toInt = i := by
  rw [BitVec.toInt_ofNat', Int.bmod_def]
  omega

/-- The loop of `kprintstr` from `str[i]` on puts the characters up to the NUL, one a round. Its
counter is an `int`, which bounds the length of a string that it can print. -/
theorem printstrLoop_eq {str : CStr} {κ : Type} (put : κ → BitVec 8 → κ) {cs : List (BitVec 8)}
    {i rounds : Nat} {k : κ} (h : NulTerminated str i cs) (hint : i + cs.length < 2 ^ 31)
    (hrounds : cs.length < rounds) :
    printstrLoop put str rounds (BitVec.ofNat 32 i) k = .ok (cs.foldl put k) := by
  induction cs generalizing i k rounds with
  | nil =>
      cases rounds with
      | zero => exact absurd hrounds (Nat.not_lt_zero _)
      | succ rounds =>
          rw [printstrLoop, toInt_index (Nat.lt_of_le_of_lt (Nat.le_add_right i _) hint),
            show str i = some 0 from h]
          rfl
  | cons c cs ih =>
      cases rounds with
      | zero => exact absurd hrounds (Nat.not_lt_zero _)
      | succ rounds =>
          obtain ⟨hc, hread, hrest⟩ := h
          rw [List.length_cons] at hint hrounds
          rw [printstrLoop, toInt_index (by omega), hread]
          show (if c = 0 then _ else printstrLoop put str rounds (BitVec.ofNat 32 i + 1) (put k c)) = _
          have hsucc : BitVec.ofNat 32 i + 1 = BitVec.ofNat 32 (i + 1) := (BitVec.ofNat_add i 1).symm
          rw [if_neg hc, hsucc]
          exact ih hrest (by omega) (by omega)

/-- `kprintstr` puts the characters of a string in their order, as long as its counter can count
them. -/
theorem printstr_emits {str : CStr} {cs : List (BitVec 8)} (h : NulTerminated str 0 cs)
    (hint : cs.length < 2 ^ 31) : Emits (fun _ put => printstr put str) cs := by
  intro κ put k
  exact printstrLoop_eq put h (by rwa [Nat.zero_add]) (Nat.lt_trans hint (by decide))

/-! ### The division loops -/

/-- One round of a division loop on the numbers of `P`. `f n` is the number that `n` counts
down, in base `b`, and `g` the character of a digit. -/
structure Peels (digit : Word → BitVec 8) (next : Word → Word) (P : Word → Prop) (f : Word → Nat)
    (b : Nat) (g : Nat → BitVec 8) : Prop where
  base : 1 < b
  digit_eq : ∀ n, P n → digit n = g (f n % b)
  stays : ∀ n, P n → P (next n)
  next_eq : ∀ n, P n → f (next n) = f n / b
  zero_iff : ∀ n, P n → (n = 0 ↔ f n = 0)

/-- The loop writes the numeral of the number in front of the string, and has room for it. -/
theorem digitLoop_eq {digit : Word → BitVec 8} {next : Word → Word} {P : Word → Prop}
    {f : Word → Nat} {b : Nat} {g : Nat → BitVec 8} (hp : Peels digit next P f b g) {idx : Nat}
    {n : Word} {nStr : List (BitVec 8)} (hn : P n) (hidx : 0 < idx) (hroom : f n < b ^ idx) :
    digitLoop digit next idx nStr n = .ok ((numeral b (f n)).map g ++ nStr) := by
  induction idx generalizing n nStr with
  | zero => exact absurd hidx (Nat.lt_irrefl 0)
  | succ idx ih =>
      have hnext := hp.next_eq n hn
      have hdigit : digit n = g (f n % b) := hp.digit_eq n hn
      rw [digitLoop]
      by_cases hlast : f n < b
      · -- The last digit.
        have hzero : next n = 0 := by
          rw [hp.zero_iff _ (hp.stays n hn), hnext, Nat.div_eq_of_lt hlast]
        rw [if_pos hzero, numeral_of_lt hlast, hdigit, Nat.mod_eq_of_lt hlast]
        rfl
      · -- More digits are in front, and there is room for them.
        have hmore : 0 < f n / b := Nat.div_pos (Nat.le_of_not_lt hlast) (by have := hp.base; omega)
        have hnonzero : next n ≠ 0 := by
          rw [ne_eq, hp.zero_iff _ (hp.stays n hn), hnext]
          omega
        have hroom' : f (next n) < b ^ idx := by
          rw [hnext]
          exact Nat.div_lt_of_lt_mul (by rwa [← Nat.pow_succ'])
        have hidx' : 0 < idx := by
          cases idx with
          | zero => exact absurd hroom (by simpa using hlast)
          | succ idx => exact Nat.succ_pos idx
        rw [if_neg hnonzero, ih (hp.stays n hn) hidx' hroom', hnext,
          numeral_of_le hp.base (Nat.le_of_not_lt hlast), hdigit]
        simp

/-- The character of a digit. -/
def digitChr (d : Nat) : BitVec 8 := chr (Nat.digitChar d)

/-- The character of a decimal digit is the digit added to `'0'`, as the source computes it. -/
theorem digitChr_decimal {d : Nat} (h : d < 10) : digitChr d = BitVec.ofInt 8 (48 + d) := by
  interval_cases d <;> rfl

/-- The number that `kprintnum` counts down. -/
def magnitude (n : Word) : Nat := n.toInt.natAbs

/-- The loop of `kprintnum` ends when the number it counts down is zero. -/
theorem magnitude_eq_zero (n : Word) : n = 0 ↔ magnitude n = 0 := by
  rw [magnitude, Int.natAbs_eq_zero, ← BitVec.toInt_zero (w := 64), BitVec.toInt_inj]
  rfl

/-- The signed division of the source is division that rounds towards zero. -/
theorem toInt_sdiv_ten (n : Word) : (n.sdiv 10).toInt = n.toInt.tdiv 10 :=
  BitVec.toInt_sdiv_of_ne_or_ne n 10 (Or.inr (by decide))

/-- So one round divides the magnitude by ten, for negative numbers as for others, and for the
least one as well. -/
theorem magnitude_sdiv (n : Word) : magnitude (n.sdiv 10) = magnitude n / 10 := by
  rw [magnitude, toInt_sdiv_ten, Int.natAbs_tdiv]
  rfl

/-- The low byte of a word is that of the number it holds. -/
theorem setWidth_ofInt (z : Int) : (BitVec.ofInt 64 z).setWidth 8 = BitVec.ofInt 8 z := by
  apply BitVec.eq_of_toNat_eq
  rw [BitVec.toNat_setWidth, BitVec.toNat_ofInt, BitVec.toNat_ofInt]
  omega

/-- The remainder has the sign of the number, so a negative number leads to characters in front of
`'0'`. -/
theorem numDigit_eq (n : Word) : numDigit n = BitVec.ofInt 8 (48 + n.toInt.tmod 10) := by
  have hrem : n.srem 10 = BitVec.ofInt 64 (n.toInt.tmod 10) := by
    rw [← BitVec.ofInt_toInt (x := n.srem 10), BitVec.toInt_srem]
    rfl
  rw [numDigit, hrem, Int.add_comm, BitVec.ofInt_add, ← setWidth_ofInt, ← setWidth_ofInt,
    ← BitVec.setWidth_add _ _ (by decide)]
  rfl

/-- The remainder of a number that is not negative is the last digit of its magnitude. -/
theorem tmod_ten_of_nonneg {x : Int} (h : 0 ≤ x) : x.tmod 10 = (x.natAbs % 10 : Nat) := by
  rw [Int.tmod_eq_emod_of_nonneg h]
  omega

/-- The remainder of a number that is not positive is the last digit of its magnitude, negated. -/
theorem tmod_ten_of_nonpos {x : Int} (h : x ≤ 0) : x.tmod 10 = -(x.natAbs % 10 : Nat) := by
  have hneg := tmod_ten_of_nonneg (x := -x) (by omega)
  rw [Int.neg_tmod, Int.natAbs_neg] at hneg
  omega

/-- The digits of a number that is not negative. -/
theorem numDigit_peels :
    Peels numDigit (·.sdiv 10) (fun n => 0 ≤ n.toInt) magnitude 10 digitChr where
  base := by decide
  digit_eq n hn := by
    rw [numDigit_eq, tmod_ten_of_nonneg hn, digitChr_decimal (Nat.mod_lt _ (by decide)), magnitude]
  stays n hn := by
    rw [toInt_sdiv_ten]
    exact Int.tdiv_nonneg hn (by decide)
  next_eq n _ := magnitude_sdiv n
  zero_iff n _ := magnitude_eq_zero n

/-- The digits of a negative number: the remainders are negative as well. -/
theorem numDigit_peels_neg :
    Peels numDigit (·.sdiv 10) (fun n => n.toInt ≤ 0) magnitude 10
      (fun d => BitVec.ofInt 8 (48 - d)) where
  base := by decide
  digit_eq n hn := by rw [numDigit_eq, tmod_ten_of_nonpos hn, magnitude, Int.sub_eq_add_neg]
  stays n hn := by
    have hneg : 0 ≤ (-n.toInt).tdiv 10 := Int.tdiv_nonneg (by omega) (by decide)
    rw [Int.neg_tdiv, ← toInt_sdiv_ten] at hneg
    omega
  next_eq n _ := magnitude_sdiv n
  zero_iff n _ := magnitude_eq_zero n

/-- The digits that `kprinthex` writes are those of the numeral in base 16: a round takes off the
last one and divides by 16. -/
theorem hexDigit_peels :
    Peels hexDigit (· / 16) (fun _ => True) BitVec.toNat 16 digitChr where
  base := by decide
  digit_eq n _ := by
    have hcurr : n % 16 = BitVec.ofNat 64 (n.toNat % 16) := by
      apply BitVec.eq_of_toNat_eq
      rw [BitVec.toNat_umod, BitVec.toNat_ofNat]
      show n.toNat % 16 = _
      omega
    have hlt : n.toNat % 16 < 16 := Nat.mod_lt _ (by decide)
    rw [hexDigit, hcurr]
    generalize n.toNat % 16 = r at hlt ⊢
    interval_cases r <;> rfl
  stays _ _ := trivial
  next_eq n _ := BitVec.toNat_udiv
  zero_iff n _ := BitVec.toNat_eq

/-! ### Numbers -/

/-- The numeral of a number with at most 29 digits fits in front of the NUL. -/
theorem digitLoop_emits {digit : Word → BitVec 8} {next : Word → Word} {P : Word → Prop}
    {f : Word → Nat} {b : Nat} {g : Nat → BitVec 8} (hp : Peels digit next P f b g) {n : Word}
    (hn : P n) (hroom : f n < b ^ 29) (hg : ∀ d < b, g d ≠ 0) :
    Emits (fun _ put k => do
      let nStr ← digitLoop digit next (N_STR_SIZE - 1) [0] n
      printstr put (arrayAt nStr) k) ((numeral b (f n)).map g) := by
  have hcanonical := numeral_canonical hp.base (f n)
  have hnonul : 0 ∉ (numeral b (f n)).map g := by
    intro hmem
    obtain ⟨d, hd, h0⟩ := List.mem_map.mp hmem
    exact hg d (hcanonical.digit_lt d hd) h0
  have hlen := length_numeral_le hp.base (show 0 < 29 by decide) hroom
  intro κ put k
  have hloop : digitLoop digit next (N_STR_SIZE - 1) [0] n = .ok ((numeral b (f n)).map g ++ [0]) :=
    digitLoop_eq hp hn (by decide) hroom
  show (digitLoop digit next (N_STR_SIZE - 1) [0] n >>= _) = _
  rw [hloop]
  exact printstr_emits (nulTerminated_arrayAt hnonul) (by rw [List.length_map]; omega) κ put k

/-- A digit is not the NUL at the end of the string. -/
theorem digitChr_ne_zero {d : Nat} (h : d < 16) : digitChr d ≠ 0 := by
  interval_cases d <;> decide

/-- `kprinthex` and `boot_printhex` put the numeral in base 16, for every word. -/
theorem printhex_emits (n : Word) :
    Emits (fun _ put => printhex put n) ((numeral 16 n.toNat).map digitChr) :=
  digitLoop_emits hexDigit_peels trivial (Nat.lt_trans n.isLt (by decide)) fun _ => digitChr_ne_zero

/-- The absolute value of a 64-bit number has at most 19 digits. -/
theorem magnitude_lt (n : Word) : magnitude n < 10 ^ 29 := by
  have hlow := BitVec.le_toInt n
  have hhigh := BitVec.toInt_lt (x := n)
  rw [magnitude]
  omega

/-- `kprintnum` of a number that is not negative puts its decimal numeral and no sign. -/
theorem printnum_emits_nonneg {n : Word} (h : 0 ≤ n.toInt) :
    Emits (fun _ put => printnum put n) ((numeral 10 (magnitude n)).map digitChr) := by
  have hsign : n.slt 0 = false := by
    rw [BitVec.slt_eq_decide, decide_eq_false_iff_not]
    exact not_lt.mpr h
  intro κ put k
  simp only [printnum, hsign, Bool.false_eq_true, if_false]
  exact digitLoop_emits numDigit_peels h (magnitude_lt n) (fun d hd => digitChr_ne_zero (by omega))
    κ put k

/-- `kprintnum` of a negative number puts the sign and goes on with the negation. -/
theorem printnum_neg {n : Word} (h : n.toInt < 0) {κ : Type} (put : κ → BitVec 8 → κ) (k : κ) :
    printnum put n k = (do
      let nStr ← digitLoop numDigit (·.sdiv 10) (N_STR_SIZE - 1) [0] (-n)
      printstr put (arrayAt nStr) (put k (chr '-'))) := by
  have hsign : n.slt 0 = true := by
    rw [BitVec.slt_eq_decide, decide_eq_true_iff]
    exact h
  simp only [printnum, hsign, if_true]

/-- `kprintnum` of a negative number that has a negation. -/
theorem printnum_emits_neg {n : Word} (h : n.toInt < 0) (hmin : n ≠ BitVec.intMin 64) :
    Emits (fun _ put => printnum put n) (chr '-' :: (numeral 10 (magnitude n)).map digitChr) := by
  have hneg : (-n).toInt = -n.toInt := BitVec.toInt_neg_of_ne_intMin hmin
  have hmag : magnitude (-n) = magnitude n := by
    rw [magnitude, hneg, Int.natAbs_neg]
    rfl
  have hdigits := digitLoop_emits numDigit_peels (n := -n) (by omega) (magnitude_lt _)
    fun d hd => digitChr_ne_zero (by omega)
  rw [hmag] at hdigits
  intro κ put k
  exact (printnum_neg h put k).trans (((emits_put (chr '-')).bind hdigits) κ put k)

/-- `kprintnum` of the least number. The negation is the number itself, and each digit is
subtracted from `'0'`. -/
theorem printnum_emits_min :
    Emits (fun _ put => printnum put (BitVec.intMin 64))
      (chr '-' :: (numeral 10 (2 ^ 63)).map fun d : Nat => BitVec.ofInt 8 (48 - d)) := by
  have hmag : magnitude (-BitVec.intMin 64) = 2 ^ 63 := by decide
  have hdigits := digitLoop_emits numDigit_peels_neg (n := -BitVec.intMin 64) (by decide)
    (magnitude_lt _) fun d hd => by interval_cases d <;> decide
  rw [hmag] at hdigits
  intro κ put k
  exact (printnum_neg (by decide) put k).trans (((emits_put (chr '-')).bind hdigits) κ put k)

/-- `kprintnum` always returns: its digits stay in the buffer. -/
theorem printnum_returns (n : Word) : ∃ cs, Emits (fun _ put => printnum put n) cs := by
  by_cases h : 0 ≤ n.toInt
  · exact ⟨_, printnum_emits_nonneg h⟩
  · by_cases hmin : n = BitVec.intMin 64
    · exact ⟨_, hmin ▸ printnum_emits_min⟩
    · exact ⟨_, printnum_emits_neg (by omega) hmin⟩

end SumiOS
