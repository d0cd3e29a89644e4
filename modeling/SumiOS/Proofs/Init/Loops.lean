import SumiOS.Proofs.Init.Direct

/-!
# `SumiOS.Proofs.Init.Loops`: the frame loops at the top of the address space

The bound and the counter of a frame loop are 64-bit words, and the loop compares
them after they wrapped. For an entry that ends at `2 ^ 64` the bound is 0, and the
loop visits nothing. For an entry that ends in the last page, every value of the
counter is below the bound, and the loop goes on forever (`framesFrom_stuck`).
Anywhere else it visits an address in every page of the entry.

`frameLoop` is such a loop with its body. `frameLoop_eq` relates it to `framesFrom`,
which lists the values of the counter: the three loops differ in their bodies only.
-/

set_option autoImplicit false

namespace SumiOS

open Lib

universe u
variable {σ : Type u}

/-! ### A loop with its body -/

/-- A frame loop: the state after it, and the addresses that it visited. -/
def frameLoop (body : σ → Word → σ) (stop : Word) : Nat → Word → σ → Option (σ × List Word)
  | 0, _, _ => none
  | n + 1, pa, st =>
      if pa < stop then
        (frameLoop body stop n (pa + PAGE_SIZE) (body st pa)).map fun r => (r.1, pa :: r.2)
      else some (st, [])

/-- The loop over an entry ends, and visits an address in every page of it. -/
def VisitsAll (body : σ → Word → σ) (e : MmapEntry) (st : σ) : Prop :=
  ∃ fuel, frameLoop body (e.addr + e.len) fuel e.addr st
    = some ((byteVisits e).foldl body st, byteVisits e)

/-- The body runs for the values of the counter, one after the other. -/
theorem frameLoop_eq (body : σ → Word → σ) (stop : Word) : ∀ (n : Nat) (pa : Word) (st : σ),
    frameLoop body stop n pa st
      = (framesFrom stop n pa).map fun frames => (frames.foldl body st, frames)
  | 0, _, _ => rfl
  | n + 1, pa, st => by
      rw [frameLoop, framesFrom]
      split
      · rw [frameLoop_eq body stop n, Option.map_map, Option.map_map]
        rfl
      · rfl

/-- What a loop visits does not depend on its body. -/
theorem visitsAll_iff {body : σ → Word → σ} {e : MmapEntry} {st : σ} :
    VisitsAll body e st ↔ ∃ fuel, framesFrom (e.addr + e.len) fuel e.addr = some (byteVisits e) := by
  refine exists_congr fun fuel => ?_
  rw [frameLoop_eq, Option.map_eq_some_iff]
  constructor
  · rintro ⟨frames, h, heq⟩
    rw [h, (Prod.mk.inj heq).2]
  · exact fun h => ⟨_, h, rfl⟩

/-! ### The values of the counter -/

section Counter

variable {stop pa : Word} {e : MmapEntry} {frames : List Word}

/-- A loop all of whose values are below the bound does not end. -/
theorem framesFrom_stuck (fuel : Nat) : ∀ {pa : Word}, (∀ i, pageAfter pa i < stop) →
    framesFrom stop fuel pa = none := by
  induction fuel with
  | zero => exact fun _ => rfl
  | succ fuel ih =>
      intro pa h
      have hfirst := h 0
      rw [pageAfter_zero] at hfirst
      rw [framesFrom, if_pos hfirst, ih fun i => by rw [pageAfter_succ]; exact h (i + 1)]
      rfl

/-- A loop that ends has gone on as long as the counter was below the bound. -/
theorem framesFrom_some {fuel : Nat} : ∀ {pa : Word} {frames : List Word},
    framesFrom stop fuel pa = some frames →
    ∃ n, frames = (List.range n).map (pageAfter pa) ∧ (∀ i < n, pageAfter pa i < stop) ∧
      ¬ pageAfter pa n < stop := by
  induction fuel with
  | zero => exact fun h => absurd h (by simp [framesFrom])
  | succ fuel ih =>
      intro pa frames h
      rw [framesFrom] at h
      split at h
      · rename_i hfirst
        obtain ⟨rest, hrest, rfl⟩ := Option.map_eq_some_iff.mp h
        obtain ⟨n, rfl, hmore, hend⟩ := ih hrest
        refine ⟨n + 1, ?_, fun i hi => ?_, by rwa [pageAfter_succ] at hend⟩
        · rw [List.range_succ_eq_map, List.map_cons, List.map_map, pageAfter_zero]
          exact congrArg (pa :: ·) (List.map_congr_left fun i _ => pageAfter_succ i)
        · cases i with
          | zero => rwa [pageAfter_zero]
          | succ i =>
              have := hmore i (by omega)
              rwa [pageAfter_succ] at this
      · rename_i hend
        obtain rfl := Option.some.inj h
        exact ⟨0, rfl, fun i hi => absurd hi (Nat.not_lt_zero i), by rwa [pageAfter_zero]⟩

/-- The counter keeps its place inside the page, since a page is a multiple of the page size
further. -/
theorem pageAfter_mod (pa : Word) (i : Nat) : (pageAfter pa i).toNat % 4096 = pa.toNat % 4096 := by
  unfold pageAfter
  rw [BitVec.toNat_add, BitVec.toNat_ofNat]
  omega

/-- The end of an entry as a word: it is 0 at the top of the address space. -/
theorem stop_word (hstop : e.stop ≤ 2 ^ 64) :
    (e.addr + e.len).toNat = if e.stop < 2 ^ 64 then e.stop else 0 := by
  split
  · rename_i h
    exact MmapEntry.stop_toNat h
  · unfold MmapEntry.stop at *
    rw [BitVec.toNat_add]
    omega

/-- A loop that ends has visited an address in every page of the entry, or the entry
ends at the top of the address space and the loop has visited nothing. -/
theorem frameVisits_cases (hstop : e.stop ≤ 2 ^ 64) {fuel : Nat}
    (h : framesFrom (e.addr + e.len) fuel e.addr = some frames) :
    (e.stop < 2 ^ 64 ∧ frames = byteVisits e) ∨ (e.stop = 2 ^ 64 ∧ frames = []) := by
  obtain ⟨n, rfl, hmore, hend⟩ := framesFrom_some h
  have hword := stop_word hstop
  simp only [BitVec.lt_def, hword] at hmore hend
  by_cases htop : e.stop < 2 ^ 64
  · refine Or.inl ⟨htop, ?_⟩
    simp only [htop, if_true] at hmore hend
    suffices hn : n = (e.len.toNat + 4095) / 4096 by rw [hn]; rfl
    unfold MmapEntry.stop at hmore hend htop
    rcases Nat.lt_trichotomy n ((e.len.toNat + 4095) / 4096) with hlt | heq | hgt
    · -- The next address is still in the entry.
      rw [pageAfter_toNat (by omega)] at hend
      omega
    · exact heq
    · -- The counter went over the top of the address space, so it is below the bound forever.
      exfalso
      have hlast := hmore _ hgt
      have hmod := pageAfter_mod e.addr n
      have hlt := (pageAfter e.addr n).isLt
      by_cases hwrap : e.addr.toNat + 4096 * ((e.len.toNat + 4095) / 4096) < 2 ^ 64
      · rw [pageAfter_toNat hwrap] at hlast
        omega
      · omega
  · -- The entry ends where the address space does: its end wraps to 0, and the loop is not entered.
    refine Or.inr ⟨le_antisymm hstop (not_lt.mp htop), ?_⟩
    cases n with
    | zero => rfl
    | succ n =>
        have hfirst := hmore 0 (Nat.succ_pos n)
        rw [if_neg htop] at hfirst
        exact absurd hfirst (Nat.not_lt_zero _)

/-- The loop over an aligned entry that ends inside the last page does not end: all values
of the counter are page-aligned, and so below the bound. -/
theorem framesFrom_none_of_top (haddr : PageAligned e.addr) (htop : e.stop < 2 ^ 64)
    (hlast : 2 ^ 64 < e.stop + 4096) (fuel : Nat) :
    framesFrom (e.addr + e.len) fuel e.addr = none := by
  refine framesFrom_stuck fuel fun i => ?_
  have hmod := haddr.toNat_mod
  have hpage := pageAfter_mod e.addr i
  have hlt := (pageAfter e.addr i).isLt
  rw [BitVec.lt_def, MmapEntry.stop_toNat htop]
  omega

/-- The loop over an aligned entry visits an address in every page of it exactly when
the entry is empty or ends before the last page of the address space. -/
theorem framesFrom_byteVisits_iff (haddr : PageAligned e.addr) (hstop : e.stop ≤ 2 ^ 64) :
    (∃ fuel, framesFrom (e.addr + e.len) fuel e.addr = some (byteVisits e)) ↔
      e.len = 0 ∨ e.stop + 4096 ≤ 2 ^ 64 := by
  have hmod := haddr.toNat_mod
  have hword := stop_word hstop
  constructor
  · rintro ⟨fuel, h⟩
    by_contra hnot
    rw [not_or] at hnot
    have hlen : e.len.toNat ≠ 0 := fun h0 => hnot.1 (BitVec.eq_of_toNat_eq h0)
    -- An entry that reaches the last page makes the loop endless, or skips all of it.
    rcases frameVisits_cases hstop h with ⟨htop, -⟩ | ⟨-, hnil⟩
    · rw [framesFrom_none_of_top haddr htop (by omega)] at h
      exact absurd h (by simp)
    · have := congrArg List.length hnil
      simp only [byteVisits, List.length_map, List.length_range, List.length_nil] at this
      omega
  · intro h
    have hlt : e.stop < 2 ^ 64 := by
      rcases h with h | h
      · have hzero : e.len.toNat = 0 := by rw [h]; rfl
        have := e.addr.isLt
        unfold MmapEntry.stop
        omega
      · omega
    -- The condition of the loop holds for the visits, and fails behind the last one.
    refine ⟨_, framesFrom_eq _ _ _ (Nat.lt_succ_self _) (fun i hi => ?_) ?_⟩
    · rw [BitVec.lt_def, hword, if_pos hlt]
      unfold MmapEntry.stop at hlt ⊢
      rw [pageAfter_toNat (by omega)]
      omega
    · rw [BitVec.lt_def, hword, if_pos hlt]
      unfold MmapEntry.stop at hlt h ⊢
      rcases h with h | h
      · have hzero : e.len.toNat = 0 := by rw [h]; rfl
        rw [pageAfter_toNat (by omega)]
        omega
      · rw [pageAfter_toNat (by omega)]
        omega

end Counter

/-- Each of the three frame loops ends after it visited an address in every page of
an entry exactly when the entry is empty or ends before the last page of the
address space. -/
theorem frameLoops_iff (e : MmapEntry) (haddr : PageAligned e.addr) (hstop : e.stop ≤ 2 ^ 64)
    (kernPgtable mmAllocEnd : Word) (mem : Mem) (st : InitState) (b : Buddy) :
    (VisitsAll (mapDirect kernPgtable) e st ↔ e.len = 0 ∨ e.stop + 4096 ≤ 2 ^ 64) ∧
      (VisitsAll (fun st pa => initFrame kernPgtable st (e, pa)) e st ↔
        e.len = 0 ∨ e.stop + 4096 ≤ 2 ^ 64) ∧
      (VisitsAll (fun b pa => freeFrame mem kernPgtable mmAllocEnd b (e, pa)) e b ↔
        e.len = 0 ∨ e.stop + 4096 ≤ 2 ^ 64) := by
  simp only [visitsAll_iff, framesFrom_byteVisits_iff haddr hstop, and_self]

/-- An entry of one page that ends a page below the top of the address space is visited as a whole:
it is the last one for which the bound is not reached by wrapping around. -/
theorem frameLoops_iff_last :
    VisitsAll (mapDirect 0x1000) ⟨0xffffffffffffe000, 0x1000, 1⟩
      ⟨fun _ => 0, LinearAlloc.static, cleared⟩ :=
  (frameLoops_iff ⟨0xffffffffffffe000, 0x1000, 1⟩ rfl (by decide) 0x1000 0 (fun _ => 0)
    ⟨fun _ => 0, LinearAlloc.static, cleared⟩ cleared).1.mpr (Or.inr (by decide))

/-- The last page of the address space is not visited, because the end of its entry is 0 and no
address is below it. -/
theorem not_visitsAll_top :
    ¬ VisitsAll (mapDirect 0x1000) ⟨0xfffffffffffff000, 0x1000, 1⟩
      ⟨fun _ => 0, LinearAlloc.static, cleared⟩ := by
  rw [visitsAll_iff]
  rintro ⟨fuel, h⟩
  rcases frameVisits_cases (by decide) h with ⟨htop, -⟩ | ⟨-, hnil⟩
  · exact absurd htop (by decide)
  · exact absurd (congrArg List.length hnil) (by decide)

end SumiOS
