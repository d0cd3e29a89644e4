import SumiOS.Lib.ByteMem

/-!
# `SumiOS.Lib.ByteRun`: runs of bytes as numbers

`readNum` reads a run of bytes as a number with the low byte first, and `writeNum` writes
one. A number is read back as far as its bytes go (`readNum_eq`), and depends on nothing but
the bytes of its run (`readNum_congr`).
-/

set_option autoImplicit false

namespace Lib

/-- The number in the `n` bytes at `a`. -/
def Mem.readNum (m : Mem) (a : BitVec 64) : Nat → Nat
  | 0 => 0
  | n + 1 => (m a).toNat + 256 * m.readNum (a + 1) n

/-- Write a number to the `n` bytes at `a`. -/
def Mem.writeNum (m : Mem) (a : BitVec 64) (n v : Nat) : Mem := fun x =>
  if (x - a).toNat < n then BitVec.ofNat 8 (v / 256 ^ (x - a).toNat) else m x

section

variable {m m' : Mem} {a b : BitVec 64} {n k v : Nat}

/-- The next offset, as a word. -/
theorem ofNat_succ (k : Nat) : BitVec.ofNat 64 (k + 1) = BitVec.ofNat 64 k + 1 :=
  BitVec.ofNat_add k 1

/-- The number depends on its bytes, not on where in memory they are. By induction on how many
there are. -/
theorem readNum_congr
    (h : ∀ k < n, m (a + BitVec.ofNat 64 k) = m' (b + BitVec.ofNat 64 k)) :
    m.readNum a n = m'.readNum b n := by
  induction n generalizing a b with
  | zero => rfl
  | succ n ih =>
      have hfirst : m a = m' b := by simpa using h 0 (Nat.succ_pos n)
      have hrest : m.readNum (a + 1) n = m'.readNum (b + 1) n := by
        refine ih fun k hk => ?_
        have hnext := h (k + 1) (Nat.succ_lt_succ hk)
        rw [ofNat_succ, BitVec.add_comm (BitVec.ofNat 64 k), ← BitVec.add_assoc,
          ← BitVec.add_assoc] at hnext
        exact hnext
      rw [Mem.readNum, Mem.readNum, hfirst, hrest]

/-- Byte `k` of the number that was written is its `k`-th digit in base 256, counted from the low
end. -/
theorem writeNum_apply (hk : k < n) (hn : n ≤ 2 ^ 64) :
    m.writeNum a n v (a + BitVec.ofNat 64 k) = BitVec.ofNat 8 (v / 256 ^ k) := by
  have hsub : (a + BitVec.ofNat 64 k - a).toNat = k := by bv_omega
  rw [Mem.writeNum, hsub, if_pos hk]

/-- A number whose bytes are in memory, the low one first, is read back up to the length that is
read. -/
theorem readNum_eq (h : ∀ k < n, m (a + BitVec.ofNat 64 k) = BitVec.ofNat 8 (v / 256 ^ k)) :
    m.readNum a n = v % 256 ^ n := by
  induction n generalizing a v with
  | zero => simp [Mem.readNum, Nat.mod_one]
  | succ n ih =>
      have hfirst : m a = BitVec.ofNat 8 v := by simpa using h 0 (Nat.succ_pos n)
      have hrest : m.readNum (a + 1) n = v / 256 % 256 ^ n := by
        refine ih fun k hk => ?_
        have hnext := h (k + 1) (Nat.succ_lt_succ hk)
        rw [ofNat_succ, BitVec.add_comm (BitVec.ofNat 64 k), ← BitVec.add_assoc, Nat.pow_succ',
          ← Nat.div_div_eq_div_mul] at hnext
        exact hnext
      have hsplit : v % 256 ^ (n + 1) = v % 256 + 256 * (v / 256 % 256 ^ n) := by
        rw [Nat.pow_succ', Nat.mod_mul]
      rw [Mem.readNum, hfirst, hrest, BitVec.toNat_ofNat, hsplit]

end

end Lib
