import SumiOS.Lib.ByteMem

/-!
# `SumiOS.Lib.Cells`: memory as an array of 32-bit words

`cell m base i` is the word of four bytes at `base + 4 * i`. A write of a word changes one
cell (`cell_write32`), and a word of eight bytes is two cells (`read64_cells`). Below, the
indices are smaller than `2 ^ 30`, so that different cells do not meet.

Words of 16 bits have their cells, too: `halfCell m base i` is the one at `base + 2 * i`.
-/

set_option autoImplicit false

namespace Lib

/-- `*(uint32_t *) a = v`. -/
def Mem.write32 (m : Mem) (a : BitVec 64) (v : BitVec 32) : Mem := fun x =>
  if (x - a).toNat < 4 then v.extractLsb' (8 * (x - a).toNat) 8 else m x

/-- `*(uint16_t *) a`. -/
def Mem.read16 (m : Mem) (a : BitVec 64) : BitVec 16 := m (a + 1) ++ m a

/-- `*(uint16_t *) a = v`. -/
def Mem.write16 (m : Mem) (a : BitVec 64) (v : BitVec 16) : Mem := fun x =>
  if (x - a).toNat < 2 then v.extractLsb' (8 * (x - a).toNat) 8 else m x

/-- The address of a cell of 16 bits. -/
def halfAddr (base : BitVec 64) (i : Nat) : BitVec 64 := base + BitVec.ofNat 64 (2 * i)

/-- The word in a cell of 16 bits. -/
def halfCell (m : Mem) (base : BitVec 64) (i : Nat) : BitVec 16 := m.read16 (halfAddr base i)

/-- The address of a cell. -/
def cellAddr (base : BitVec 64) (i : Nat) : BitVec 64 := base + BitVec.ofNat 64 (4 * i)

/-- The word in a cell. -/
def cell (m : Mem) (base : BitVec 64) (i : Nat) : BitVec 32 := m.read32 (cellAddr base i)

section

variable {m : Mem} {base a : BitVec 64} {v : BitVec 32} {i j : Nat}

/-- A word of four bytes, by its bytes: the addresses are written with offsets as numbers, as the
other lemmas have them. -/
theorem read32_eq (m : Mem) (a : BitVec 64) :
    m.read32 a = m (a + BitVec.ofNat 64 3) ++ m (a + BitVec.ofNat 64 2)
      ++ m (a + BitVec.ofNat 64 1) ++ m (a + BitVec.ofNat 64 0) := by
  rw [BitVec.add_zero]
  rfl

/-- The bytes of a word put together again give the word, the high byte in front. -/
theorem append_extractLsb' (v : BitVec 32) :
    v.extractLsb' (8 * 3) 8 ++ v.extractLsb' (8 * 2) 8 ++ v.extractLsb' (8 * 1) 8
      ++ v.extractLsb' (8 * 0) 8 = v := by
  apply BitVec.eq_of_getLsbD_eq
  intro i hi
  simp only [BitVec.getLsbD_append, BitVec.getLsbD_extractLsb']
  repeat' split
  all_goals
    rw [decide_eq_true (by omega), Bool.true_and]
    exact congrArg v.getLsbD (by omega)

/-- The word that was written is read back, since the four bytes are all its own. -/
theorem read32_write32_self : (m.write32 a v).read32 a = v := by
  have hbyte : ∀ k < 4, m.write32 a v (a + BitVec.ofNat 64 k) = v.extractLsb' (8 * k) 8 := by
    intro k hk
    have hsub : (a + BitVec.ofNat 64 k - a).toNat = k := by bv_omega
    rw [Mem.write32, hsub, if_pos hk]
  rw [read32_eq, hbyte 3 (by decide), hbyte 2 (by decide), hbyte 1 (by decide),
    hbyte 0 (by decide), append_extractLsb']

/-- A write of a word changes its cell and no other one, as cells do not overlap while their
indices stay below `2 ^ 30`. -/
theorem cell_write32 (hi : i < 2 ^ 30) (hj : j < 2 ^ 30) :
    cell (m.write32 (cellAddr base j) v) base i = if i = j then v else cell m base i := by
  by_cases h : i = j
  · rw [if_pos h, cell, h]
    exact read32_write32_self
  · have hbyte : ∀ k < 4, m.write32 (cellAddr base j) v (cellAddr base i + BitVec.ofNat 64 k)
        = m (cellAddr base i + BitVec.ofNat 64 k) := by
      intro k hk
      refine if_neg ?_
      unfold cellAddr
      bv_omega
    rw [if_neg h, cell, cell, read32_eq, read32_eq, hbyte 3 (by decide), hbyte 2 (by decide),
      hbyte 1 (by decide), hbyte 0 (by decide)]

/-- A write of a word changes its four bytes. -/
theorem write32_apply_of_le {x : BitVec 64} (h : 4 ≤ (x - a).toNat) : m.write32 a v x = m x :=
  if_neg (Nat.not_lt.mpr h)

/-- A word of eight bytes is two words of four, the low one first, which is how 64-bit entries are
made of 32-bit stores. -/
theorem read64_eq_append (m : Mem) (a : BitVec 64) :
    m.read64 a = m.read32 (a + 4) ++ m.read32 a := by
  have hupper : ∀ k, a + 4 + BitVec.ofNat 64 k = a + BitVec.ofNat 64 (4 + k) := by
    intro k
    rw [BitVec.ofNat_add, ← BitVec.add_assoc]
    rfl
  rw [read32_eq, read32_eq, hupper, hupper, hupper, hupper]
  simp only [Mem.read64, ofBytes]
  apply BitVec.eq_of_getLsbD_eq
  intro i hi
  simp only [BitVec.getLsbD_append]
  repeat' split
  all_goals first
    | omega
    | exact congrArg _ (by omega)

/-- A word of eight bytes whose upper half is zero. -/
theorem read64_cells (hhigh : cell m base (i + 1) = 0) :
    m.read64 (cellAddr base i) = (cell m base i).setWidth 64 := by
  have hnext : cellAddr base i + 4 = cellAddr base (i + 1) := by
    unfold cellAddr
    bv_omega
  have hzero : m.read32 (cellAddr base i + 4) = 0 := by
    rw [hnext]
    exact hhigh
  rw [read64_eq_append, hzero, BitVec.setWidth_eq_append (by decide)]
  rfl

end

section

variable {m m' : Mem} {base a x : BitVec 64} {v : BitVec 16} {i j : Nat}

/-- The word of 16 bits that was written. Its two bytes are put together again. -/
theorem read16_write16_self : (m.write16 a v).read16 a = v := by
  have hlow : m.write16 a v a = v.extractLsb' 0 8 := by
    rw [Mem.write16, BitVec.sub_self]
    rfl
  have hhigh : m.write16 a v (a + 1) = v.extractLsb' 8 8 := by
    have hsub : a + 1 - a = 1 := by bv_omega
    rw [Mem.write16, hsub]
    rfl
  rw [Mem.read16, hlow, hhigh]
  apply BitVec.eq_of_getLsbD_eq
  intro k hk
  simp only [BitVec.getLsbD_append, BitVec.getLsbD_extractLsb']
  split
  all_goals
    rw [decide_eq_true (by omega), Bool.true_and]
    exact congrArg v.getLsbD (by omega)

/-- A word of 16 bits depends on its two bytes. -/
theorem read16_congr (hlow : m a = m' a) (hhigh : m (a + 1) = m' (a + 1)) :
    m.read16 a = m'.read16 a := by
  rw [Mem.read16, Mem.read16, hlow, hhigh]

/-- A write of a word of 16 bits changes its two bytes, and no others. -/
theorem write16_apply_of_le (h : 2 ≤ (x - a).toNat) : m.write16 a v x = m x :=
  if_neg (Nat.not_lt.mpr h)

/-- A write of a word of 16 bits changes its cell, and no other one. -/
theorem halfCell_write16 (hi : i < 2 ^ 30) (hj : j < 2 ^ 30) :
    halfCell (m.write16 (halfAddr base j) v) base i = if i = j then v else halfCell m base i := by
  by_cases h : i = j
  · rw [if_pos h, halfCell, h]
    exact read16_write16_self
  · rw [if_neg h, halfCell, halfCell]
    unfold halfAddr
    exact read16_congr (write16_apply_of_le (by bv_omega)) (write16_apply_of_le (by bv_omega))

end

end Lib
