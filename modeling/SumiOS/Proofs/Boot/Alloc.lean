import SumiOS.Boot
import SumiOS.Proofs.PageTable.Lookup

/-!
# `SumiOS.Proofs.Boot.Alloc`: the allocator of the booting stage

`boot_mm_alloc` moves one cursor. `Bumped` is what holds after any number of page
allocations: when none of them failed, the results are different pages in front
of the cursor, so that they are fresh. `returned_of_enough` says when no
allocation fails.
-/

set_option autoImplicit false

namespace SumiOS

open Lib

/-- The state after `n` allocations of a page. -/
abbrev bootAllocs (n : Nat) (b : BootMm) : BootMm := (fun b => (bootMmAlloc b PAGE_SIZE).1)^[n] b

section Page

variable {b : BootMm}

/-- The mapper of `mm_boot.c` is the common mapper too, with its tables at their physical addresses
and its pages from the booting stage's allocator. -/
theorem bootPgtableMap_eq :
    bootPgtableMap = pgtableMap 0 (fun b => bootMmAlloc b PAGE_SIZE) := rfl

/-- `boot_mm_alloc(PAGE_SIZE)` when there is no memory left returns NULL, which is recorded, and
leaves the cursor. -/
theorem bootMmAlloc_fail (h : PAGE_SIZE + b.bootMemAllocStart ≥ b.bootMemTotal) :
    bootMmAlloc b PAGE_SIZE = ({ b with returned := 0 :: b.returned }, 0) := by
  have halign : align PAGE_SIZE PAGE_SIZE = PAGE_SIZE := by decide
  have halloc : allocBoot b PAGE_SIZE = (b, 0) := by
    rw [allocBoot, if_neg (by decide), halign]
    exact if_pos h
  rw [bootMmAlloc, halloc]

/-- `boot_mm_alloc(PAGE_SIZE)` when there is memory left returns the page at the cursor, which
moves behind it. -/
theorem bootMmAlloc_ok (h : ¬ PAGE_SIZE + b.bootMemAllocStart ≥ b.bootMemTotal) :
    bootMmAlloc b PAGE_SIZE = (⟨b.bootMemTotal, b.bootMemAllocStart + PAGE_SIZE,
      b.bootMemAllocStart :: b.returned⟩, b.bootMemAllocStart) := by
  have halign : align PAGE_SIZE PAGE_SIZE = PAGE_SIZE := by decide
  have halloc : allocBoot b PAGE_SIZE =
      ({ b with bootMemAllocStart := b.bootMemAllocStart + PAGE_SIZE }, b.bootMemAllocStart) := by
    rw [allocBoot, if_neg (by decide), halign]
    exact if_neg h
  rw [bootMmAlloc, halloc]

/-- Each call puts its result at the head of the record. -/
theorem bootMmAlloc_returned (b : BootMm) :
    (bootMmAlloc b PAGE_SIZE).1.returned = (bootMmAlloc b PAGE_SIZE).2 :: b.returned := by
  by_cases h : PAGE_SIZE + b.bootMemAllocStart ≥ b.bootMemTotal
  · rw [bootMmAlloc_fail h]
  · rw [bootMmAlloc_ok h]

end Page

/-- What holds after page allocations that began at `first`. The cursor of 64
bits shows `limit`, which is `2 ^ 64` when it has run through all addresses. -/
structure Bumped (first : Word) (b : BootMm) : Prop where
  cursor : PageAligned b.bootMemAllocStart
  risen : 0 ∉ b.returned → ∃ limit ≤ 2 ^ 64, b.bootMemAllocStart = BitVec.ofNat 64 limit ∧
    first.toNat ≤ limit ∧ Risen first.toNat limit b.returned

section Bumped

variable {first : Word} {b : BootMm} {base : Word → Prop}

/-- The allocator before its first call: it has returned nothing, and its cursor is on a page. -/
theorem bumped_start (total : Word) (h : PageAligned first) :
    Bumped first (BootMm.start total first) where
  cursor := h
  risen _ := ⟨first.toNat, by omega, by simp [BootMm.start], Nat.le_refl _, risen_nil _ _⟩

/-- One more allocation: either it fails and is recorded as such, or the cursor moves up by a page
and the page in front of it is recorded. -/
theorem Bumped.alloc (h : Bumped first b) : Bumped first (bootMmAlloc b PAGE_SIZE).1 := by
  by_cases hfail : PAGE_SIZE + b.bootMemAllocStart ≥ b.bootMemTotal
  · rw [bootMmAlloc_fail hfail]
    exact ⟨h.cursor, fun hz => absurd List.mem_cons_self hz⟩
  · rw [bootMmAlloc_ok hfail]
    have hsize : PAGE_SIZE.toNat = 4096 := rfl
    have hmod := h.cursor.toNat_mod
    refine ⟨pageAligned_iff.mpr ?_, fun hz => ?_⟩
    · show (b.bootMemAllocStart + PAGE_SIZE).toNat % 4096 = 0
      rw [BitVec.toNat_add, hsize]
      omega
    · -- The result is the limit, which has not come to `2 ^ 64`.
      obtain ⟨hne, hold⟩ := not_or.mp fun hor => hz (List.mem_cons.mpr hor)
      obtain ⟨limit, hle, hcursor, hfirst, hrisen⟩ := h.risen hold
      have hlt : limit < 2 ^ 64 := by
        refine Nat.lt_of_le_of_ne hle fun he => hne ?_
        rw [hcursor, he]
        rfl
      have hnat : b.bootMemAllocStart.toNat = limit := by
        rw [hcursor, BitVec.toNat_ofNat, Nat.mod_eq_of_lt hlt]
      refine ⟨limit + 4096, by omega, ?_, by omega, ?_⟩
      · show b.bootMemAllocStart + PAGE_SIZE = _
        rw [hcursor, BitVec.ofNat_add]
        rfl
      · exact hrisen.push h.cursor (by omega) (by omega) (by omega)

/-- Any number of pages keeps the record and the cursor in step. -/
theorem Bumped.allocs (h : Bumped first b) (n : Nat) : Bumped first (bootAllocs n b) := by
  induction n with
  | zero => exact h
  | succ n ih =>
      rw [bootAllocs, Function.iterate_succ_apply']
      exact ih.alloc

/-- Allocations that did not fail are fresh: aligned, different from each other, and not in front
of the start. -/
theorem Bumped.fresh (h : Bumped first b) (hok : 0 ∉ b.returned)
    (hbase : ∀ q, base q → q < first) : Fresh base b.returned := by
  obtain ⟨limit, -, -, -, hrisen⟩ := h.risen hok
  exact hrisen.fresh fun q hq => BitVec.lt_def.mp (hbase q hq)

end Bumped

/-- What a run of `boot_pgtable_map` allocates are at most three pages for each of its calls. -/
theorem bootPgtableMap_allocs (m : Mem) (mm : BootMm) (root : Word) (calls : List MapCall) :
    ∃ n ≤ 3 * calls.length,
      (mapCalls bootPgtableMap m mm root calls).2 = bootAllocs n mm := by
  rw [bootPgtableMap_eq]
  exact mapCalls_allocs 0 (fun b => bootMmAlloc b PAGE_SIZE) root calls m mm

/-- With enough memory behind the cursor for `n` pages, none of `n` allocations fails. The
induction follows the cursor, which moves up by a page each time. -/
theorem returned_of_enough {b : BootMm} (hpos : b.bootMemAllocStart ≠ 0) (hok : 0 ∉ b.returned) :
    ∀ n : Nat, b.bootMemAllocStart.toNat + 4096 * n < b.bootMemTotal.toNat →
      0 ∉ (bootAllocs n b).returned ∧ (bootAllocs n b).bootMemTotal = b.bootMemTotal ∧
        (bootAllocs n b).bootMemAllocStart.toNat = b.bootMemAllocStart.toNat + 4096 * n
  | 0, _ => ⟨hok, rfl, rfl⟩
  | n + 1, hn => by
      obtain ⟨hnone, htotal, hcursor⟩ := returned_of_enough hpos hok n (by omega)
      have hlt := b.bootMemTotal.isLt
      have hsize : PAGE_SIZE.toNat = 4096 := rfl
      have hnat : 0 < b.bootMemAllocStart.toNat := by
        refine Nat.pos_of_ne_zero fun h => hpos (BitVec.eq_of_toNat_eq h)
      have hroom : ¬ PAGE_SIZE + (bootAllocs n b).bootMemAllocStart ≥
          (bootAllocs n b).bootMemTotal := by
        rw [htotal, ge_iff_le, BitVec.le_def, BitVec.toNat_add, hcursor, hsize]
        omega
      rw [bootAllocs, Function.iterate_succ_apply', bootMmAlloc_ok hroom]
      refine ⟨fun hz => ?_, htotal, ?_⟩
      · rcases List.mem_cons.mp hz with h0 | hz
        · rw [← h0] at hcursor
          exact absurd hcursor (by simp; omega)
        · exact hnone hz
      · show ((bootAllocs n b).bootMemAllocStart + PAGE_SIZE).toNat = _
        rw [BitVec.toNat_add, hcursor, hsize]
        omega

/-- With enough memory, no allocation of a run fails. -/
theorem returned_of_calls (m : Mem) (mm : BootMm) (root : Word)
    (hpos : mm.bootMemAllocStart ≠ 0) (hnone : 0 ∉ mm.returned) (calls : List MapCall)
    (h : mm.bootMemAllocStart.toNat + 4096 * (3 * calls.length) < mm.bootMemTotal.toNat) :
    0 ∉ (mapCalls bootPgtableMap m mm root calls).2.returned := by
  obtain ⟨n, hn, he⟩ := bootPgtableMap_allocs m mm root calls
  rw [he]
  exact (returned_of_enough hpos hnone n (by omega)).1

end SumiOS
