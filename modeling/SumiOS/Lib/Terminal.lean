import Mathlib.Logic.Function.Basic
import Mathlib.Tactic.Common

/-!
# `SumiOS.Lib.Terminal`: an unbounded terminal and its screen

A `Grid` is a terminal without a last row: cells, and the place of the cursor. A
`Screen` has `h` rows of `w` cells each in one array, and the cursor is an index into it.
When the cursor leaves the last row, the screen rolls: its rows move up by one, and the
last one becomes blank.

`Shows` says that a screen is the window of a grid that ends with the row of the
cursor, or with row `h - 1` as long as the cursor is above it. Every action keeps it
(`Shows.act`), and so does every sequence of actions (`Shows.acts`).
-/

set_option autoImplicit false

namespace Lib

universe u
variable {α : Type u}

/-- What a character does to a terminal. -/
inductive Action (α : Type u)
  | put (a : α)
  | newline
  | carriageReturn
  | back

/-! ### The terminal -/

/-- The cells of an unbounded terminal by row and column, and the cursor. -/
structure Grid (α : Type u) where
  cells : Nat → Nat → α
  row : Nat
  col : Nat

/-- Nothing but blank cells. -/
def Grid.init (blank : α) : Grid α := ⟨fun _ _ => blank, 0, 0⟩

/-- Write a cell at the cursor. -/
def Grid.write (g : Grid α) (a : α) : Nat → Nat → α :=
  Function.update g.cells g.row (Function.update (g.cells g.row) g.col a)

/-- One action on a terminal with `w` columns. -/
def Grid.act (w : Nat) (g : Grid α) : Action α → Grid α
  | .put a =>
      if g.col + 1 = w then ⟨g.write a, g.row + 1, 0⟩ else ⟨g.write a, g.row, g.col + 1⟩
  | .newline => ⟨g.cells, g.row + 1, 0⟩
  | .carriageReturn => ⟨g.cells, g.row, 0⟩
  | .back => ⟨g.cells, g.row, g.col - 1⟩

/-! ### The screen -/

/-- The cells of a screen, row after row, and the index of the cursor. -/
structure Screen (α : Type u) where
  cells : Nat → α
  loc : Nat

/-- The cells after the rows moved up by one. -/
def roll (w h : Nat) (blank : α) (cells : Nat → α) (i : Nat) : α :=
  if i < (h - 1) * w then cells (i + w) else if i < h * w then blank else cells i

/-- Roll the screen when the cursor is behind the last row. -/
def Screen.settle (w h : Nat) (blank : α) (s : Screen α) : Screen α :=
  if s.loc ≥ h * w then ⟨roll w h blank s.cells, (h - 1) * w⟩ else s

/-- One action on a screen with `h` rows of `w` cells. -/
def Screen.act (w h : Nat) (blank : α) (s : Screen α) : Action α → Screen α
  | .put a => settle w h blank ⟨Function.update s.cells s.loc a, s.loc + 1⟩
  | .newline => settle w h blank ⟨s.cells, s.loc + w - (s.loc + w) % w⟩
  | .carriageReturn => settle w h blank ⟨s.cells, s.loc - s.loc % w⟩
  | .back => settle w h blank ⟨s.cells, if s.loc % w ≠ 0 then s.loc - 1 else s.loc⟩

/-! ### The screen is a window of the terminal -/

section

variable {w h row r c r' c' : Nat} {blank : α} {cells : Nat → α} {grid : Nat → Nat → α}
  {g : Grid α} {s : Screen α}

/-- The column of a cell is recovered from its index in the array. -/
theorem index_mod (hc : c < w) : (r * w + c) % w = c := by
  rw [Nat.add_comm, Nat.add_mul_mod_self_right, Nat.mod_eq_of_lt hc]

/-- So is its row, by the quotient instead of the remainder. -/
theorem index_div (hc : c < w) : (r * w + c) / w = r := by
  rw [Nat.add_comm, Nat.add_mul_div_right _ _ (Nat.zero_lt_of_lt hc), Nat.div_eq_of_lt hc,
    Nat.zero_add]

/-- An index has one row and one column, so two cells with the same index are the same cell. -/
theorem index_inj (hc : c < w) (hc' : c' < w) :
    r * w + c = r' * w + c' ↔ r = r' ∧ c = c' := by
  constructor
  · intro e
    have hdiv := congrArg (· / w) e
    have hmod := congrArg (· % w) e
    simp only [index_div hc, index_div hc', index_mod hc, index_mod hc'] at hdiv hmod
    exact ⟨hdiv, hmod⟩
  · rintro ⟨rfl, rfl⟩
    rfl

/-- A cell of the screen has an index in the array. -/
theorem index_lt (hr : r < h) (hc : c < w) : r * w + c < h * w := by
  have hle := Nat.mul_le_mul_right w (Nat.succ_le_of_lt hr)
  rw [Nat.succ_mul] at hle
  omega

/-- The first row of the window when the cursor is in the row. -/
def topRow (h row : Nat) : Nat := row - (h - 1)

/-- The array has the rows of the window, and there is nothing below the cursor. -/
structure Window (w h : Nat) (blank : α) (grid : Nat → Nat → α) (row : Nat)
    (cells : Nat → α) : Prop where
  shown : ∀ r < h, ∀ c < w, cells (r * w + c) = grid (topRow h row + r) c
  below : ∀ r > row, ∀ c, grid r c = blank

/-- The rows above the last one of the window are not new. -/
theorem Window.next (hw : Window w h blank grid row cells) (hrow : row + 1 < h) :
    Window w h blank grid (row + 1) cells where
  shown r hr c hc := by
    have htop : topRow h (row + 1) = topRow h row := by
      unfold topRow
      omega
    rw [htop]
    exact hw.shown r hr c hc
  below r hr c := hw.below r (by omega) c

/-- The window moves down by a row, and that row is blank: each cell of the screen gets the one
below it, which is the cell of the grid that it has to show now. -/
theorem Window.roll (hw : Window w h blank grid row cells) (hh : 0 < h) (hrow : h ≤ row + 1) :
    Window w h blank grid (row + 1) (roll w h blank cells) where
  shown r hr c hc := by
    have htop : topRow h (row + 1) = topRow h row + 1 := by
      unfold topRow
      omega
    rw [htop, Lib.roll]
    by_cases hlast : r < h - 1
    · have hnext : r * w + c + w = (r + 1) * w + c := by
        rw [Nat.succ_mul]
        omega
      rw [if_pos (index_lt hlast hc), hnext, hw.shown (r + 1) (by omega) c hc]
      congr 1
      omega
    · obtain rfl : r = h - 1 := by omega
      rw [if_neg (by omega), if_pos (index_lt hr hc)]
      refine (hw.below _ ?_ c).symm
      unfold topRow
      omega
  below r hr c := hw.below r (by omega) c

/-- A cell is written in the grid and in the array, at the index that the row of the cursor has
inside the window, and all other cells are shown as before. -/
theorem Window.write (hw : Window w h blank g.cells g.row cells) (hcol : g.col < w) (hh : 0 < h) (a : α) :
    Window w h blank (g.write a) g.row
      (Function.update cells ((g.row - topRow h g.row) * w + g.col) a) where
  shown r hr c hc := by
    have hrow : g.row - topRow h g.row = r ↔ topRow h g.row + r = g.row := by
      unfold topRow
      omega
    by_cases hcell : g.row - topRow h g.row = r ∧ g.col = c
    · obtain ⟨hr', rfl⟩ := hcell
      rw [hr', Function.update_self, Grid.write, hrow.mp hr', Function.update_self,
        Function.update_self]
    · have hindex : r * w + c ≠ (g.row - topRow h g.row) * w + g.col := by
        intro e
        obtain ⟨hr', hc'⟩ := (index_inj hc hcol).mp e
        exact hcell ⟨hr'.symm, hc'.symm⟩
      rw [Function.update_of_ne hindex, hw.shown r hr c hc, Grid.write]
      by_cases hr' : topRow h g.row + r = g.row
      · have hc' : c ≠ g.col := fun e => hcell ⟨hrow.mpr hr', e.symm⟩
        rw [hr', Function.update_self, Function.update_of_ne hc']
      · rw [Function.update_of_ne hr']
  below r hr c := by
    rw [Grid.write, Function.update_of_ne (by omega)]
    exact hw.below r hr c

/-- The screen shows the window of the terminal, and the cursor in it. -/
structure Shows (w h : Nat) (blank : α) (g : Grid α) (s : Screen α) : Prop where
  col : g.col < w
  loc : s.loc = (g.row - topRow h g.row) * w + g.col
  window : Window w h blank g.cells g.row s.cells

/-- The row of the cursor lies in the window that the screen shows. -/
theorem row_lt (hh : 0 < h) : row - topRow h row < h := by
  unfold topRow
  omega

/-- The cursor is on the screen: its row is one that the window shows, and its column one of the
`w`. -/
theorem Shows.loc_lt (hs : Shows w h blank g s) (hh : 0 < h) : s.loc < h * w := by
  rw [hs.loc]
  exact index_lt (row_lt hh) hs.col

/-- The column of the cursor is the same on the screen and in the grid. -/
theorem Shows.loc_mod (hs : Shows w h blank g s) : s.loc % w = g.col := by
  rw [hs.loc]
  exact index_mod hs.col

/-- A cursor that stays in its row does not move the window, so nothing is settled. -/
theorem Shows.sameRow (hh : 0 < h) (hwin : Window w h blank grid row cells) (hc : c < w) :
    Shows w h blank ⟨grid, row, c⟩
      (Screen.settle w h blank ⟨cells, (row - topRow h row) * w + c⟩) := by
  have hlt : (row - topRow h row) * w + c < h * w := index_lt (row_lt hh) hc
  rw [Screen.settle, if_neg (Nat.not_le.mpr hlt)]
  exact ⟨hc, rfl, hwin⟩

/-- A cursor that goes to the next row: if that row is behind the screen, settling rolls the
window, and otherwise the window stays where it is. -/
theorem Shows.nextRow (hh : 0 < h) (hw : 0 < w) (hwin : Window w h blank grid row cells) :
    Shows w h blank ⟨grid, row + 1, 0⟩
      (Screen.settle w h blank ⟨cells, (row - topRow h row) * w + w⟩) := by
  rw [← Nat.succ_mul]
  by_cases hrow : row + 1 < h
  · have hsucc : (row - topRow h row).succ = row + 1 - topRow h (row + 1) := by
      unfold topRow
      omega
    rw [hsucc]
    exact Shows.sameRow hh (hwin.next hrow) hw
  · -- The cursor was in the last row of the window.
    have hlast : (row - topRow h row).succ = h := by
      unfold topRow
      omega
    have hnew : row + 1 - topRow h (row + 1) = h - 1 := by
      unfold topRow
      omega
    rw [hlast, Screen.settle, if_pos (Nat.le_refl _)]
    refine ⟨hw, ?_, hwin.roll hh (by omega)⟩
    show (h - 1) * w = (row + 1 - topRow h (row + 1)) * w + 0
    rw [hnew, Nat.add_zero]

/-- Every action keeps the window. The cases are those of the action; the ones that can leave the
last row come down to `Shows.nextRow`. -/
theorem Shows.act (hs : Shows w h blank g s) (hh : 0 < h) (a : Action α) :
    Shows w h blank (g.act w a) (s.act w h blank a) := by
  have hcol := hs.col
  have hw : 0 < w := by omega
  have hmod := hs.loc_mod
  have hloc := hs.loc
  cases a with
  | put a =>
      have hwrite := hs.window.write hcol hh a
      rw [← hloc] at hwrite
      rw [Screen.act, Grid.act]
      -- A character in the last column goes on in the next line.
      by_cases hlast : g.col + 1 = w
      · rw [if_pos hlast, show s.loc + 1 = (g.row - topRow h g.row) * w + w from by omega]
        exact Shows.nextRow hh hw hwrite
      · rw [if_neg hlast, show s.loc + 1 = (g.row - topRow h g.row) * w + (g.col + 1) from by omega]
        exact Shows.sameRow hh hwrite (by omega)
  | newline =>
      -- The place of the cursor in the row below, less its column.
      have hnext : s.loc + w - (s.loc + w) % w = (g.row - topRow h g.row) * w + w := by
        rw [Nat.add_mod_right, hmod]
        omega
      rw [Screen.act, Grid.act, hnext]
      exact Shows.nextRow hh hw hs.window
  | carriageReturn =>
      have hfirst : s.loc - s.loc % w = (g.row - topRow h g.row) * w + 0 := by
        rw [hmod]
        omega
      rw [Screen.act, Grid.act, hfirst]
      exact Shows.sameRow hh hs.window hw
  | back =>
      have hback : (if s.loc % w ≠ 0 then s.loc - 1 else s.loc)
          = (g.row - topRow h g.row) * w + (g.col - 1) := by
        rw [hmod]
        split <;> omega
      rw [Screen.act, Grid.act, hback]
      exact Shows.sameRow hh hs.window (by omega)

/-- So does every sequence of actions, by induction on it. -/
theorem Shows.acts (hs : Shows w h blank g s) (hh : 0 < h) (as : List (Action α)) :
    Shows w h blank (as.foldl (Grid.act w) g) (as.foldl (Screen.act w h blank) s) := by
  induction as generalizing g s with
  | nil => exact hs
  | cons a as ih => exact ih (hs.act hh a)

/-- A blank screen shows the terminal at its start. -/
theorem shows_init (hw : 0 < w) (hblank : ∀ i < h * w, cells i = blank) :
    Shows w h blank (Grid.init blank) ⟨cells, 0⟩ where
  col := hw
  loc := by
    show 0 = (0 - topRow h 0) * w + 0
    simp [topRow]
  window := ⟨fun _ hr _ hc => hblank _ (index_lt hr hc), fun _ _ _ => rfl⟩

/-- The cells of the screen by index: each shows the cell of the grid that lies as far behind the
top row. -/
theorem Shows.cell (hs : Shows w h blank g s) {i : Nat} (hi : i < h * w) :
    s.cells i = g.cells (topRow h g.row + i / w) (i % w) := by
  have hw : 0 < w := by
    have hcol := hs.col
    omega
  have hrow : i / w < h := (Nat.div_lt_iff_lt_mul hw).mpr hi
  rw [← hs.window.shown (i / w) hrow (i % w) (Nat.mod_lt _ hw), Nat.div_add_mod']

end

end Lib
