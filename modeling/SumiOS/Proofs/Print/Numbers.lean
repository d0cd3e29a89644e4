import SumiOS.Proofs.Print.Format

/-!
# `SumiOS.Proofs.Print.Numbers`: printed numbers read back

`IsDecimal` and `IsHexadecimal` say what the numeral of a number is, without saying how it
is found. `PrintsBack n u` collects what is asked of the functions that print numbers: that
they put this numeral, `n` being the signed and `u` the unsigned argument.

One signed routine prints both. It is wrong for the least number, whose negation is
negative, and for the unsigned numbers that are negative as signed ones
(`printsBack_iff`).
-/

set_option autoImplicit false

namespace SumiOS

open Lib

/-- The canonical decimal numeral of `n`: a sign for the negative numbers, and the digits
without leading zeros. -/
def IsDecimal (n : Int) (cs : List (BitVec 8)) : Prop :=
  ∃ ds, Canonical 10 ds ∧ value 10 ds = n.natAbs ∧
    cs = (if n < 0 then [chr '-'] else []) ++ ds.map digitChr

/-- The canonical hexadecimal numeral of `n`, in lower case. -/
def IsHexadecimal (n : Nat) (cs : List (BitVec 8)) : Prop :=
  ∃ ds, Canonical 16 ds ∧ value 16 ds = n ∧ cs = ds.map digitChr

/-- `kprintf` puts the characters `cs` for the one directive `d` with the argument `v`. -/
def Formatted (d : Conv) (v : BitVec d.width) (cs : List (BitVec 8)) : Prop :=
  ∀ (m : Mem) (format : CStr) (args : Nat → Word) (rounds : Nat),
    NulTerminated format 0 (chr '%' :: d.chars) → (args 0).setWidth d.width = v → 3 < rounds →
    Emits (fun _ put k => (printf put m format args rounds k).map Printf.out) cs

/-- The functions that print numbers put the numerals of the signed number in `n` and of the
unsigned number in `u`, and do not leave `n_str`. -/
structure PrintsBack (n u : Word) : Prop where
  printnum : ∃ cs, IsDecimal n.toInt cs ∧ Emits (fun _ put => printnum put n) cs
  kprintnum : ∃ cs, IsDecimal n.toInt cs ∧ ∀ c, kprintnum n c = .ok (cs.foldl kputchar c)
  bootPrintnum : ∃ cs, IsDecimal n.toInt cs ∧ ∀ c, bootPrintnum n c = .ok (cs.foldl bootPutchar c)
  ld : ∃ cs, IsDecimal n.toInt cs ∧ Formatted .long n cs
  lu : ∃ cs, IsDecimal u.toNat cs ∧ Formatted .ulong u cs
  lx : ∃ cs, IsHexadecimal u.toNat cs ∧ Formatted .longHex u cs
  kprinthex : ∃ cs, IsHexadecimal u.toNat cs ∧ Emits (fun _ put => printhex put u) cs ∧
    ∀ c, kprinthex u c = .ok (cs.foldl kputchar c)
  inBuffer : ∀ (κ : Type) (put : κ → BitVec 8 → κ) (k : κ),
    SumiOS.printnum put n k ≠ .error .outside ∧ printhex put u k ≠ .error .outside

/-! ### Numerals -/

/-- The decimal numeral of a number. -/
def decimal (n : Int) : List (BitVec 8) :=
  (if n < 0 then [chr '-'] else []) ++ (numeral 10 n.natAbs).map digitChr

/-- The decimal numeral of a number is unique, so the independent description of it determines the
characters. -/
theorem isDecimal_iff {n : Int} {cs : List (BitVec 8)} : IsDecimal n cs ↔ cs = decimal n := by
  constructor
  · rintro ⟨ds, hds, hvalue, rfl⟩
    rw [decimal, (eq_numeral_iff (by decide)).mpr ⟨hds, hvalue⟩]
  · rintro rfl
    have hnumeral := (eq_numeral_iff (b := 10) (n := n.natAbs) (by decide)).mp rfl
    exact ⟨_, hnumeral.1, hnumeral.2, rfl⟩

/-- The same for the hexadecimal numeral, whose digits are the lower-case ones. -/
theorem isHexadecimal_iff {n : Nat} {cs : List (BitVec 8)} :
    IsHexadecimal n cs ↔ cs = (numeral 16 n).map digitChr := by
  constructor
  · rintro ⟨ds, hds, hvalue, rfl⟩
    rw [(eq_numeral_iff (by decide)).mpr ⟨hds, hvalue⟩]
  · rintro rfl
    have hnumeral := (eq_numeral_iff (b := 16) (n := n) (by decide)).mp rfl
    exact ⟨_, hnumeral.1, hnumeral.2, rfl⟩

/-! ### `kprintf` with one directive -/

/-- A directive has at most two characters behind the `%`, so two rounds of the loop read it. -/
theorem Conv.chars_length (d : Conv) : d.chars.length ≤ 2 := by
  cases d <;> decide

/-- Every argument fits into the 64-bit slot that it is passed in. -/
theorem Conv.width_le (d : Conv) : d.width ≤ 64 := by
  cases d <;> decide

/-- No directive contains a NUL, so the format ends behind its last part. -/
theorem Conv.chars_noNul (d : Conv) : 0 ∉ chr '%' :: d.chars := by
  cases d <;> decide

/-- A format that is one directive makes `kprintf` do what the directive does with the first
argument, and return. -/
theorem printf_directive {d : Conv} (hd : d ≠ .char) (m : Mem) {format : CStr} (args : Nat → Word)
    {rounds : Nat} {κ : Type} (put : κ → BitVec 8 → κ) (k : κ)
    (hformat : NulTerminated format 0 (chr '%' :: d.chars)) (hrounds : 3 < rounds) :
    (printf put m format args rounds k).map Printf.out
      = d.render put m ((args 0).setWidth d.width) k := by
  have hlen : (chr '%' :: d.chars).length ≤ 3 := Nat.succ_le_succ d.chars_length
  have hrun := printf_eq put m args hformat (Nat.lt_of_le_of_lt hlen hrounds) k
  have hparse : parse (chr '%' :: d.chars) = [.conv d] := by
    have hconv := parse_conv d []
    rwa [List.append_nil] at hconv
  have hperform : perform put m args [.conv d] 0 k
      = (d.render put m ((args 0).setWidth d.width) k >>= fun k => .ok (1, k)) := by
    rw [perform, Conv.perform, if_neg hd]
    rfl
  rw [hparse, hperform] at hrun
  -- The output is a part of what is seen of the run.
  have hout : ∀ r : Except Fault (Printf κ),
      r.map Printf.out = (r.map Printf.seen).map fun t => t.2.2 :=
    fun r => (map_map r Printf.seen fun t => t.2.2).symm
  rw [hout, hrun, map_map]
  cases d.render put m ((args 0).setWidth d.width) k with
  | error e => rfl
  | ok k' => rfl

/-- One directive puts what it renders, so that what `kprintf` prints for it is a matter of the
rendering alone. -/
theorem formatted_iff {d : Conv} (hd : d ≠ .char) {v : BitVec d.width} {cs : List (BitVec 8)} :
    Formatted d v cs ↔ ∀ m, Emits (fun _ put => d.render put m v) cs := by
  constructor
  · intro h m κ put k
    have hslot : (v.setWidth 64).setWidth d.width = v := by
      rw [BitVec.setWidth_setWidth_of_le _ d.width_le, BitVec.setWidth_eq]
    have hformat := nulTerminated_arrayAt d.chars_noNul
    have hrun := printf_directive hd m (fun _ => v.setWidth 64) put k hformat
      (show 3 < 4 by decide)
    rw [hslot] at hrun
    exact hrun.symm.trans (h m _ (fun _ => v.setWidth 64) 4 hformat hslot (by decide) κ put k)
  · rintro h m format args rounds hformat rfl hrounds κ put k
    show (printf put m format args rounds k).map Printf.out = _
    rw [printf_directive hd m args put k hformat hrounds]
    exact h m κ put k

/-! ### The numbers that read back -/

/-- `kprintnum` of a number that is not the least one. -/
theorem printnum_emits {n : Word} (h : n ≠ BitVec.intMin 64) :
    Emits (fun _ put => printnum put n) (decimal n.toInt) := by
  by_cases hneg : n.toInt < 0
  · rw [decimal, if_pos hneg]
    exact printnum_emits_neg hneg h
  · rw [decimal, if_neg hneg]
    exact printnum_emits_nonneg (Int.not_lt.mp hneg)

/-- The characters for the least number are no numeral: its last digit is an 8. -/
theorem not_printnum_min {cs : List (BitVec 8)} (hcs : IsDecimal (BitVec.intMin 64).toInt cs) :
    ¬ Emits (fun _ put => printnum put (BitVec.intMin 64)) cs := by
  intro h
  have hmin : (BitVec.intMin 64).toInt = -2 ^ 63 := by decide
  have hdigits := printnum_emits_min.unique h
  rw [isDecimal_iff.mp hcs, decimal, hmin, if_pos (by decide), List.singleton_append,
    List.cons.injEq] at hdigits
  have hlast : 8 ∈ numeral 10 (2 ^ 63) := by
    rw [numeral_of_le (by decide) (by decide)]
    exact List.mem_append_right _ (by decide)
  have hchar := List.map_inj_left.mp hdigits.2 8 hlast
  revert hchar
  decide

/-- `kprintnum` of a word that is negative as a signed number starts with a sign. -/
theorem printnum_sign {n : Word} (h : n.toInt < 0) :
    ∃ cs, Emits (fun _ put => printnum put n) (chr '-' :: cs) := by
  by_cases hmin : n = BitVec.intMin 64
  · exact ⟨_, hmin ▸ printnum_emits_min⟩
  · exact ⟨_, printnum_emits_neg h hmin⟩

/-- The numeral of an unsigned number does not start with a sign. -/
theorem decimal_ne_sign (u : Nat) (cs : List (BitVec 8)) : decimal u ≠ chr '-' :: cs := by
  intro h
  rw [decimal, if_neg (by omega), List.nil_append, List.map_eq_cons_iff] at h
  obtain ⟨d, ds, hds, hd, -⟩ := h
  have hlt := (numeral_canonical (b := 10) (by decide) (u : Int).natAbs).digit_lt d
    (by rw [hds]; exact List.mem_cons_self)
  revert hd
  interval_cases d <;> decide

/-- The numbers that read back: all but the least one, and the unsigned ones that are not negative
as signed ones, since both are printed by one loop over a signed number. -/
theorem printsBack_iff (n u : Word) :
    PrintsBack n u ↔ n ≠ BitVec.intMin 64 ∧ u.toNat < 2 ^ 63 := by
  constructor
  · intro h
    constructor
    · rintro rfl
      obtain ⟨cs, hcs, hemits⟩ := h.printnum
      exact not_printnum_min hcs hemits
    · by_contra hu
      obtain ⟨cs, hcs, hemits⟩ := h.lu
      -- The word is negative as a signed number, so the output starts with a sign.
      have hneg : u.toInt < 0 := by
        rw [BitVec.toInt_eq_toNat_cond]
        have := u.isLt
        split <;> omega
      obtain ⟨ds, hds⟩ := printnum_sign hneg
      have hrender := (formatted_iff (by decide)).mp hemits (fun _ => 0)
      exact decimal_ne_sign u.toNat ds ((isDecimal_iff.mp hcs).symm.trans (hrender.unique hds))
  · rintro ⟨hn, hu⟩
    have hnum := printnum_emits hn
    have hunsigned : Emits (fun _ put => printnum put u) (decimal u.toNat) := by
      -- The signed and the unsigned number are the same.
      have hpos : u.toInt = u.toNat := by
        rw [BitVec.toInt_eq_toNat_cond]
        omega
      have hdecimal := printnum_emits (n := u) (by
        rintro rfl
        revert hu
        decide)
      rwa [hpos] at hdecimal
    have hhex := printhex_emits u
    have hdecimal := isDecimal_iff.mpr (rfl : decimal n.toInt = decimal n.toInt)
    have hhexadecimal := isHexadecimal_iff.mpr (rfl : (numeral 16 u.toNat).map digitChr = _)
    constructor
    case printnum => exact ⟨_, hdecimal, hnum⟩
    case kprintnum => exact ⟨_, hdecimal, hnum Console kputchar⟩
    case bootPrintnum => exact ⟨_, hdecimal, hnum Console bootPutchar⟩
    case ld => exact ⟨_, hdecimal, (formatted_iff (by decide)).mpr fun _ => hnum⟩
    case lu =>
      exact ⟨_, isDecimal_iff.mpr rfl, (formatted_iff (by decide)).mpr fun _ => hunsigned⟩
    case lx => exact ⟨_, hhexadecimal, (formatted_iff (by decide)).mpr fun _ => hhex⟩
    case kprinthex => exact ⟨_, hhexadecimal, hhex, hhex Console kputchar⟩
    case inBuffer => exact fun _ put k => ⟨hnum.ne_error put k _, hhex.ne_error put k _⟩

/-- `INT64_MIN` is printed as `-'..--).0-*(+,))+(0(`: negating it gives the number itself, and the
remainders of the loop are negative digits. -/
theorem not_printsBack_min : ¬ PrintsBack (BitVec.intMin 64) 0 := by
  intro h
  obtain ⟨cs, hcs, hemits⟩ := h.printnum
  exact not_printnum_min hcs hemits

end SumiOS
