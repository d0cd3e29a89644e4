import SumiOS.String
import SumiOS.Lib.ByteRun

/-!
# `SumiOS.Proofs.Interrupt.Memcpy`: what `memcpy` leaves

`memcpy` copies upwards, byte by byte. `memcpy_apply` says what it leaves for every two
runs, also for runs that meet: when the target starts `d` bytes behind the source, it
repeats the first `d` bytes of the source. So `memcpy` moves a run exactly when the target
does not start inside the source (`memcpy_moves_iff`).
-/

set_option autoImplicit false

namespace SumiOS

open Lib

variable {m : Mem} {dst src x : Word} {n : Nat}

/-- The last byte is copied after the others, and so from memory in which they have been copied. -/
theorem memcpyLoop_succ : memcpyLoop (n + 1) dst src m
    = Function.update (memcpyLoop n dst src m) (dst + BitVec.ofNat 64 n)
        (memcpyLoop n dst src m (src + BitVec.ofNat 64 n)) := by
  induction n generalizing m dst src with
  | zero => simp [memcpyLoop]
  | succ n ih =>
      have hnext : ∀ p : Word, p + 1 + BitVec.ofNat 64 n = p + BitVec.ofNat 64 (n + 1) := by
        intro p
        rw [ofNat_succ, BitVec.add_comm (BitVec.ofNat 64 n), BitVec.add_assoc]
      rw [memcpyLoop, ih, hnext, hnext]
      rfl

/-- What each byte is after `n` rounds: a byte of the destination comes from the source, through
earlier copies where the two overlap, and all others are as before. -/
theorem memcpyLoop_apply (hn : n ≤ 2 ^ 64) : memcpyLoop n dst src m x
    = if (x - dst).toNat < n then
        m (src + BitVec.ofNat 64 ((x - dst).toNat % (dst - src).toNat))
      else m x := by
  induction n generalizing x with
  | zero => rfl
  | succ n ih =>
      rw [memcpyLoop_succ]
      by_cases hx : x = dst + BitVec.ofNat 64 n
      · -- The byte that is copied is one of the source, or one that was copied before.
        have hlast : (x - dst).toNat = n := by bv_omega
        rw [hx, Function.update_self, ← hx, hlast, if_pos (Nat.lt_succ_self n), ih (by omega)]
        generalize hd : (dst - src).toNat = d
        by_cases hmet : 0 < d ∧ d ≤ n
        · have hback : (src + BitVec.ofNat 64 n - dst).toNat = n - d := by bv_omega
          rw [hback, if_pos (by omega), Nat.mod_eq_sub_mod hmet.2]
        · have hmod : n % d = n := by
            cases Nat.eq_zero_or_pos d with
            | inl h0 => rw [h0, Nat.mod_zero]
            | inr hpos => exact Nat.mod_eq_of_lt (by omega)
          have hout : ¬ (src + BitVec.ofNat 64 n - dst).toNat < n := by bv_omega
          rw [if_neg hout, hmod]
      · have hne : (x - dst).toNat ≠ n := fun e => hx (by bv_omega)
        rw [Function.update_of_ne hx, ih (by omega)]
        exact if_congr (by omega) rfl rfl

/-- What `memcpy` leaves, whether the runs meet or not. -/
theorem memcpy_apply (m : Mem) (dst src sz x : Word) : memcpy m dst src sz x
    = if (x - dst).toNat < sz.toNat then
        m (src + BitVec.ofNat 64 ((x - dst).toNat % (dst - src).toNat))
      else m x :=
  memcpyLoop_apply (Nat.le_of_lt sz.isLt)

/-- Runs that do not meet: every byte of the target is the byte of the source from
before the call. -/
theorem memcpy_apart {sz k : Nat} (h : SepBytes dst sz src sz) (hk : k < sz) (hsz : sz < 2 ^ 64) :
    memcpy m dst src (BitVec.ofNat 64 sz) (dst + BitVec.ofNat 64 k)
      = m (src + BitVec.ofNat 64 k) := by
  have hplace : (dst + BitVec.ofNat 64 k - dst).toNat = k := by bv_omega
  have hlength : (BitVec.ofNat 64 sz).toNat = sz := Nat.mod_eq_of_lt hsz
  have hfar : k < (dst - src).toNat := Nat.lt_of_lt_of_le hk h.2
  rw [memcpy_apply, hplace, hlength, if_pos hk, Nat.mod_eq_of_lt hfar]

/-- What is not in the target stays, whether the two runs overlap or not. -/
theorem memcpy_outside {sz : Nat} (h : sz ≤ (x - dst).toNat) (hsz : sz < 2 ^ 64) :
    memcpy m dst src (BitVec.ofNat 64 sz) x = m x := by
  have hlength : (BitVec.ofNat 64 sz).toNat = sz := Nat.mod_eq_of_lt hsz
  rw [memcpy_apply, hlength, if_neg (Nat.not_lt.mpr h)]

/-- `memcpy` moves the run, whatever is in memory, exactly when the target does not start
inside the source. -/
theorem memcpy_moves_iff (dst src sz : Word) :
    (∀ (m : Mem) (k : Nat), k < sz.toNat →
        memcpy m dst src sz (dst + BitVec.ofNat 64 k) = m (src + BitVec.ofNat 64 k)) ↔
      ¬ (0 < (dst - src).toNat ∧ (dst - src).toNat < sz.toNat) := by
  have hsz := sz.isLt
  have hplace : ∀ k < sz.toNat, (dst + BitVec.ofNat 64 k - dst).toNat = k := by
    intro k hk
    bv_omega
  constructor
  · rintro hmoves ⟨hpos, hinside⟩
    -- Where the target starts, the first byte of the source is copied once more.
    have hmove := hmoves (fun x => if x = src then 1 else 0) _ hinside
    rw [memcpy_apply, hplace _ hinside, if_pos hinside, Nat.mod_self] at hmove
    have hsame : src + BitVec.ofNat 64 0 = src := by bv_omega
    have hne : src + BitVec.ofNat 64 (dst - src).toNat ≠ src := by bv_omega
    rw [if_pos hsame, if_neg hne] at hmove
    exact absurd hmove (by decide)
  · intro hd m k hk
    have hmod : k % (dst - src).toNat = k := by
      cases Nat.eq_zero_or_pos (dst - src).toNat with
      | inl h0 => rw [h0, Nat.mod_zero]
      | inr hpos => exact Nat.mod_eq_of_lt (by omega)
    rw [memcpy_apply, hplace k hk, if_pos hk, hmod]

end SumiOS
