import Mathlib.Data.List.GetD
import Mathlib.Tactic.IntervalCases
import SumiOS.Entry

/-!
# `SumiOS.Proofs.Boot.Screen`: what `boot.S` leaves on the screen

The video memory is 2000 cells of 16 bits from `0xb8000` on. `.cls` writes each of them once,
since its counter takes the values `0`, `2`, up to `3998`, and the stores behind it write to
the first eight. So the screen is known in full, whatever was on it before, and no other
memory is changed (`screen_filled`).
-/

set_option autoImplicit false

namespace SumiOS

open Lib

/-- Where the screen is. -/
def videoMem : Word := 0xb8000

/-- The bytes of the screen: 25 lines of 80 cells, with two bytes each. -/
def OnScreen (x : Word) : Prop := (x - videoMem).toNat < 4000

instance (x : Word) : Decidable (OnScreen x) := inferInstanceAs (Decidable (_ < _))

/-- The cells of the screen hold the words `f`, and the other bytes are those of `m`. -/
structure ScreenFilled (m m' : Mem) (f : Nat → BitVec 16) : Prop where
  cells : ∀ i < 2000, halfCell m' videoMem i = f i
  other : ∀ x, ¬ OnScreen x → m' x = m x

/-- The words that `boot.S` leaves: eight letters on green, and blanks. -/
def screenCells (i : Nat) : BitVec 16 :=
  [0x2F61, 0x2F72, 0x2F74, 0x2F74, 0x2F6e, 0x2F62, 0x2F61, 0x2F33].getD i 0x0f20

section

variable {m m' : Mem} {f : Nat → BitVec 16} {a ecx : BitVec 32} {v : BitVec 16} {i k n fuel : Nat}

/-- A 16-bit store to a cell of the screen changes that cell and nothing else. -/
theorem ScreenFilled.storew (h : ScreenFilled m m' f) (hi : i < 2000)
    (ha : a.setWidth 64 = halfAddr videoMem i) :
    ScreenFilled m (storew m' a v) (Function.update f i v) where
  cells := by
    intro j hj
    rw [SumiOS.storew, ha, halfCell_write16 (by omega) (by omega), h.cells j hj]
    by_cases hji : j = i
    · simp [hji]
    · simp [hji]
  other := by
    intro x hx
    rw [SumiOS.storew, ha, write16_apply_of_le, h.other x hx]
    unfold OnScreen at hx
    unfold halfAddr
    bv_omega

/-- The words after the rounds of `.cls` from the cell `k` on. -/
def clearedFrom (f : Nat → BitVec 16) (k : Nat) : Nat → BitVec 16 := fun j =>
  if k ≤ j then 0x0f20 else f j

/-- The first of these rounds, and the others: after the store to one cell the rest begins a cell
further. -/
theorem clearedFrom_succ : clearedFrom (Function.update f k 0x0f20) (k + 1) = clearedFrom f k := by
  funext j
  by_cases hj : j = k
  · have hout : ¬ k + 1 ≤ k := by omega
    rw [hj, clearedFrom, clearedFrom, if_neg hout, if_pos (Nat.le_refl k), Function.update_self]
  · rw [clearedFrom, clearedFrom, Function.update_of_ne hj]
    exact if_congr (by omega) rfl rfl

/-- The rest of `.cls`, when `n` cells are left: the loop ends and has put a blank into each of
them. The induction is on the cells, and the register counts bytes. -/
theorem ScreenFilled.clsLoop (h : ScreenFilled m m' f) (hk : k + n = 2000) (hn : 0 < n)
    (hfuel : n ≤ fuel) :
    ∃ m'', clsLoop fuel m' (BitVec.ofNat 32 (2 * k)) = some m'' ∧
      ScreenFilled m m'' (clearedFrom f k) := by
  induction n generalizing k m' f fuel with
  | zero => omega
  | succ n ih =>
      obtain ⟨fuel, rfl⟩ := Nat.exists_eq_succ_of_ne_zero (show fuel ≠ 0 by omega)
      have hplace : (0xb8000 + BitVec.ofNat 32 (2 * k)).setWidth 64 = halfAddr videoMem k := by
        unfold halfAddr videoMem
        bv_omega
      have hstored := h.storew (v := 0x0f20) (show k < 2000 by omega) hplace
      have hcount : BitVec.ofNat 32 (2 * k) + 2 = BitVec.ofNat 32 (2 * (k + 1)) := by bv_omega
      rw [SumiOS.clsLoop, hcount]
      by_cases hlast : n = 0
      · have hend : BitVec.ofNat 32 (2 * (k + 1)) = 80 * 25 * 2 := by
          rw [show k + 1 = 2000 by omega]
          rfl
        rw [if_neg (not_not_intro hend)]
        refine ⟨_, rfl, fun j hj => (hstored.cells j hj).trans ?_, hstored.other⟩
        rw [← clearedFrom_succ]
        exact (if_neg (by omega)).symm
      · have hmore : BitVec.ofNat 32 (2 * (k + 1)) ≠ 80 * 25 * 2 := by bv_omega
        rw [if_pos hmore, ← clearedFrom_succ]
        exact ih hstored (by omega) (by omega) (by omega)

/-- The stores behind the loop go to the first eight cells, one letter after the other, and leave
the blanks behind them. -/
theorem ScreenFilled.printLetters (h : ScreenFilled m m' f) (hblank : ∀ i < 2000, f i = 0x0f20) :
    ScreenFilled m (printLetters m') screenCells := by
  have h₁ := h.storew (a := 0xb8000) (i := 0) (v := 0x2F61) (by decide) (by decide)
  have h₂ := h₁.storew (a := 0xb8002) (i := 1) (v := 0x2F72) (by decide) (by decide)
  have h₃ := h₂.storew (a := 0xb8004) (i := 2) (v := 0x2F74) (by decide) (by decide)
  have h₄ := h₃.storew (a := 0xb8006) (i := 3) (v := 0x2F74) (by decide) (by decide)
  have h₅ := h₄.storew (a := 0xb8008) (i := 4) (v := 0x2F6e) (by decide) (by decide)
  have h₆ := h₅.storew (a := 0xb800a) (i := 5) (v := 0x2F62) (by decide) (by decide)
  have h₇ := h₆.storew (a := 0xb800c) (i := 6) (v := 0x2F61) (by decide) (by decide)
  have h₈ := h₇.storew (a := 0xb800e) (i := 7) (v := 0x2F33) (by decide) (by decide)
  refine ⟨fun i hi => ?_, h₈.other⟩
  refine (h₈.cells i hi).trans ?_
  by_cases hlow : i < 8
  · interval_cases i
    all_goals rfl
  · -- Behind the letters, the screen is blank.
    rw [screenCells, List.getD_eq_default _ _ (Nat.le_of_not_lt hlow)]
    simp only [Function.update_of_ne (show i ≠ 7 by omega), Function.update_of_ne (show i ≠ 6 by omega),
      Function.update_of_ne (show i ≠ 5 by omega), Function.update_of_ne (show i ≠ 4 by omega),
      Function.update_of_ne (show i ≠ 3 by omega), Function.update_of_ne (show i ≠ 2 by omega),
      Function.update_of_ne (show i ≠ 1 by omega), Function.update_of_ne (show i ≠ 0 by omega)]
    exact hblank i hi

end

/-- The screen after the loop and the stores, whatever was there before. -/
theorem screen_filled (m : Mem) : ∃ m', clsLoop registerBound m 0 = some m' ∧
    ScreenFilled m (printLetters m') screenCells := by
  have hbefore : ScreenFilled m m fun i => halfCell m videoMem i := ⟨fun _ _ => rfl, fun _ _ => rfl⟩
  obtain ⟨m', hloop, hfilled⟩ := hbefore.clsLoop (k := 0) (n := 2000) rfl (by decide)
    (show 2000 ≤ registerBound by unfold registerBound; omega)
  exact ⟨m', hloop, hfilled.printLetters fun i _ => if_pos (Nat.zero_le i)⟩

end SumiOS
