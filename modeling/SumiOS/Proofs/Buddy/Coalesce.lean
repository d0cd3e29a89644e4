import SumiOS.Proofs.Buddy.Lossless
import SumiOS.Lib.Buddies

/-!
# `SumiOS.Proofs.Buddy.Coalesce`: what a run gives back

When every block has been freed again, the free blocks should be as large as in
the beginning. That needs every free to merge its block with its buddy, counted
from the first frame of the run, as long as the buddy is a free block of the
same order, and to merge with nothing else. `Coalesces` says so of a call. It is
a condition on the flags: a half that was split off is on a list, but it is not
merged, since its `is_head` is not set.

Under that condition the blocks stay aligned, inside the run, and free of pairs
of buddies (`Trimmed`), so `Coalesced.exists_order_ge` bounds the orders of the
final blocks from below.
-/

set_option autoImplicit false

namespace SumiOS

open Lib

/-- The neighbour that the loop of `__free_pages` takes for the block at `p`. -/
def neighbour (mapped : Int → Bool) (b : Buddy) (p : Int) (order : Nat) : Option Int :=
  if mergeable mapped b (p + 2 ^ order) then some (p + 2 ^ order)
  else if mergeable mapped b (p - 2 ^ order) then some (p - 2 ^ order)
  else none

/-- From the block at `p` on, the loop takes the buddy when that is a free block
of the same order, and nothing else. The counter is the number of orders left. -/
def CoalescesFrom (mapped : Int → Bool) (start : Int) (b : Buddy) : Nat → Int → Nat → Prop
  | 0, _, _ => True
  | n + 1, p, order =>
      match neighbour mapped b p order with
      | none => ¬ FreeBlock b ⟨buddyOf start p order, order⟩
      | some q =>
          q = buddyOf start p order ∧ FreeBlock b ⟨q, order⟩ ∧
            CoalescesFrom mapped start b n (min p q) (order + 1)

/-- A freed block is merged with its buddies, as far as they are free. -/
def Coalesces (mapped : Int → Bool) (start : Int) (s : Sys) : Call → Prop
  | .alloc _ => True
  | .free p order => CoalescesFrom mapped start s.buddy (MAX_PAGE_ORDER - 1 - order) p order

section

variable {mapped : Int → Bool} {start : Int} {n : Nat} {b : Buddy} {seq : Head → List Int}
  {out : List Block} {p : Int} {o m : Nat}

/-- The neighbour behind is taken whenever it can be merged. -/
theorem neighbour_next (h : mergeable mapped b (p + 2 ^ o) = true) :
    neighbour mapped b p o = some (p + 2 ^ o) := if_pos h

/-- The neighbour in front is taken when it can be merged and the one behind cannot. -/
theorem neighbour_prev (hn : mergeable mapped b (p + 2 ^ o) = false)
    (h : mergeable mapped b (p - 2 ^ o) = true) :
    neighbour mapped b p o = some (p - 2 ^ o) := by
  simp [neighbour, hn, h]

/-- When neither can be merged, the loop stops, and the block at hand is the one that is put on a
list. -/
theorem neighbour_none (hn : mergeable mapped b (p + 2 ^ o) = false)
    (h : mergeable mapped b (p - 2 ^ o) = false) : neighbour mapped b p o = none := by
  simp [neighbour, hn, h]

/-- A round with the block behind: the block at hand is a first half. -/
theorem CoalescesFrom.next (h : mergeable mapped b (p + 2 ^ o) = true)
    (hC : CoalescesFrom mapped start b (m + 1) p o) :
    (2 : Int) ^ (o + 1) ∣ p - start ∧ FreeBlock b ⟨p + 2 ^ o, o⟩ ∧
      CoalescesFrom mapped start b m p (o + 1) := by
  have hpos := Block.two_pow_pos o
  rw [CoalescesFrom, neighbour_next h] at hC
  obtain ⟨hq, hfree, hrest⟩ := hC
  rw [min_eq_left (by omega)] at hrest
  refine ⟨?_, hfree, hrest⟩
  by_contra hnot
  rw [buddyOf_second hnot] at hq
  omega

/-- A round with the block in front: the block at hand is a second half. -/
theorem CoalescesFrom.prev (hn : mergeable mapped b (p + 2 ^ o) = false)
    (h : mergeable mapped b (p - 2 ^ o) = true)
    (hC : CoalescesFrom mapped start b (m + 1) p o) :
    ¬ (2 : Int) ^ (o + 1) ∣ p - start ∧ FreeBlock b ⟨p - 2 ^ o, o⟩ ∧
      CoalescesFrom mapped start b m (p - 2 ^ o) (o + 1) := by
  have hpos := Block.two_pow_pos o
  rw [CoalescesFrom, neighbour_prev hn h] at hC
  obtain ⟨hq, hfree, hrest⟩ := hC
  rw [min_eq_right (by omega)] at hrest
  refine ⟨fun hdvd => ?_, hfree, hrest⟩
  rw [buddyOf_first hdvd] at hq
  omega

/-- What the loop takes are free blocks of the right order, one after the other, so that such a run
never cuts a block or takes a part of one. -/
theorem CoalescesFrom.takes : ∀ {m : Nat} {p : Int} {o : Nat},
    CoalescesFrom mapped start b m p o → ∀ t ∈ takes mapped b m p o, FreeBlock b t
  | 0, _, _, _, t, ht => absurd ht List.not_mem_nil
  | m + 1, p, o, hC, t, ht => by
      by_cases hn : mergeable mapped b (p + 2 ^ o) = true
      · obtain ⟨-, hfree, hrest⟩ := hC.next hn
        rw [takes_next hn] at ht
        rcases List.mem_cons.mp ht with rfl | ht
        · exact hfree
        · exact hrest.takes t ht
      · rw [Bool.not_eq_true] at hn
        by_cases hp : mergeable mapped b (p - 2 ^ o) = true
        · obtain ⟨-, hfree, hrest⟩ := hC.prev hn hp
          rw [takes_prev hn hp] at ht
          rcases List.mem_cons.mp ht with rfl | ht
          · exact hfree
          · exact hrest.takes t ht
        · rw [Bool.not_eq_true] at hp
          simp [SumiOS.takes, hn, hp] at ht

/-- A call that coalesces swallows nothing, since what it takes are whole free blocks, apart from
all others. -/
theorem BuddyInv.swallowsNothing {k : Nat} (hI : BuddyInv buddyHeads b seq out)
    (hC : Coalesces mapped start ⟨b, out⟩ (.free p k)) :
    SwallowsNothing mapped ⟨b, out⟩ (.free p k) := by
  have hH := hasFreelists_buddyHeads
  refine (swallowsNothing_iff hH hI.rep).mpr fun t ht c hc => ?_
  have hfree := (freeBlock_iff hH hI.rep).mp (hC.takes t ht)
  rcases hc with hc | ⟨hc, hne⟩
  · exact hI.tidy.between c (List.mem_of_mem_erase hc) t hfree
  · exact hI.tidy.freeApart c t hc hfree fun e => hne (by rw [e])

/-- A call that coalesces keeps blocks whole, since what it takes are free blocks of just the order
that it claims. -/
theorem BuddyInv.keepsWhole {k : Nat} (hI : BuddyInv buddyHeads b seq out)
    (hC : Coalesces mapped start ⟨b, out⟩ (.free p k)) :
    KeepsWhole mapped start n ⟨b, out⟩ (.free p k) := by
  have hH := hasFreelists_buddyHeads
  refine (keepsWhole_iff hH hI.rep).mpr fun t ht r hr y hy _ _ => ?_
  have hfree := (freeBlock_iff hH hI.rep).mp (hC.takes t ht)
  rwa [← hI.tidy.eq_of_start hr hfree rfl]

/-! ### Blocks without buddies -/

/-- The block is aligned relative to the run, and inside it. -/
def Fits (start : Int) (n : Nat) (c : Block) : Prop :=
  (2 : Int) ^ c.order ∣ c.start - start ∧ start ≤ c.start ∧ c.start + 2 ^ c.order ≤ start + n

/-- All blocks fit, and no two free blocks are buddies. -/
structure Trimmed (start : Int) (n : Nat) (s : Sys) : Prop where
  outstanding : ∀ c ∈ s.outstanding, Fits start n c
  free : ∀ c, FreeBlock s.buddy c → Fits start n c
  alone : ∀ c, FreeBlock s.buddy c → c.order < topOrder →
    ¬ FreeBlock s.buddy ⟨buddyOf start c.start c.order, c.order⟩

/-- The tiles of a run fit, and are not buddies, so that the init loop leaves a state from which
runs that coalesce can start. -/
theorem Tiled.trimmed (hT : Tiled b seq start n) : Trimmed start n ⟨b, []⟩ := by
  have hfree := fun c => freeBlock_iff (c := c) hasFreelists_buddyHeads hT.inv.rep
  refine ⟨fun c hc => absurd hc List.not_mem_nil, fun c hc => ?_, fun c hc ho hb => ?_⟩
  · have hc' := (hfree c).mp hc
    have hpos := Block.two_pow_pos c.order
    have hfirst := (hT.covered c.start).mp ⟨c, hc', c.start_mem⟩
    have hlast := (hT.covered (c.start + 2 ^ c.order - 1)).mp ⟨c, hc', by
      rw [Block.mem_frames]
      omega⟩
    exact ⟨(hT.aligned c hc').2, hfirst.1, by omega⟩
  · -- Both would be first halves.
    have h1 := (hT.aligned c ((hfree c).mp hc)).1 ho
    have h2 := (hT.aligned _ ((hfree _).mp hb)).1 ho
    simp only [buddyOf_first h1] at h2
    refine not_two_pow_dvd_add h1 ?_
    rwa [show c.start - start + 2 ^ c.order = c.start + 2 ^ c.order - start from by omega]

/-- The parts of a block that fits fit. -/
theorem Fits.first {k j : Nat} (h : Fits start n ⟨p, j⟩) (hkj : k ≤ j) : Fits start n ⟨p, k⟩ :=
  ⟨(pow_dvd_pow (2 : Int) hkj).trans h.1, h.2.1, (Block.first_le hkj).trans h.2.2⟩

/-- The upper half that a split leaves over fits into the run when the block does. -/
theorem Fits.half {i j : Nat} (h : Fits start n ⟨p, j⟩) (hij : i < j) :
    Fits start n ⟨p + 2 ^ i, i⟩ := by
  have hpos := Block.two_pow_pos i
  refine ⟨?_, ?_, (Block.half_le hij).trans h.2.2⟩
  · have hdvd : (2 : Int) ^ i ∣ p - start := (pow_dvd_pow (2 : Int) hij.le).trans h.1
    have := Int.dvd_add hdvd (Int.dvd_refl ((2 : Int) ^ i))
    rwa [show p - start + 2 ^ i = p + 2 ^ i - start from by omega] at this
  · have := h.2.1
    show start ≤ p + 2 ^ i
    simp only at this
    omega

/-- A split leaves no buddies: the buddy of each half starts with the block that
is handed out. -/
theorem Trimmed.alloc {s s' : Sys} {k : Nat} (hT : Trimmed start n s)
    (hI : BuddyInv buddyHeads s.buddy seq s.outstanding)
    (hs : step mapped s (.alloc k) = some s') : Trimmed start n s' := by
  have hH := hasFreelists_buddyHeads
  rcases hI.step_alloc hH hs with ⟨rfl, -⟩ | ⟨j, p, ps, hkj, hj, hps, hout, -, hI'⟩
  · exact hT
  · have hfree := fun c => freeBlock_iff (c := c) hH hI.rep
    have hfree' := fun c => freeBlock_iff (c := c) hH hI'.rep
    have hlist := fun c => listed_splitSeq (k := k) (c := c) hH hI.rep hj hps
    have hpj : Fits start n ⟨p, j⟩ :=
      hT.free _ ((hfree _).mpr ⟨hj, hps ▸ List.mem_cons_self⟩)
    -- No free block starts with the block that is handed out.
    have hnot : ∀ i, ¬ FreeBlock s'.buddy ⟨p, i⟩ := by
      intro i hi
      have hap := hI'.tidy.between ⟨p, k⟩ (hout ▸ List.mem_cons_self) _ ((hfree' _).mp hi)
      exact Block.not_apart_of_start_mem (c := ⟨p, i⟩) (Block.start_mem ⟨p, k⟩) hap
    have hbuddy : ∀ i, i < j → buddyOf start (p + 2 ^ i) i = p := fun i hi =>
      buddyOf_add ((pow_dvd_pow (2 : Int) hi).trans hpj.1)
    refine ⟨fun c hc => ?_, fun c hc => ?_, fun c hc ho hb => ?_⟩
    · rw [hout] at hc
      rcases List.mem_cons.mp hc with rfl | hc
      · exact hpj.first hkj
      · exact hT.outstanding c hc
    · rcases (hlist c).mp ((hfree' c).mp hc) with ⟨hc, -⟩ | ⟨i, -, h2, rfl⟩
      · exact hT.free c ((hfree c).mpr hc)
      · exact hpj.half h2
    · rcases (hlist c).mp ((hfree' c).mp hc) with ⟨hc', -⟩ | ⟨i, -, h2, rfl⟩
      · rcases (hlist _).mp ((hfree' _).mp hb) with ⟨hb', -⟩ | ⟨i, -, h2, he⟩
        · exact hT.alone c ((hfree c).mpr hc') ho ((hfree _).mpr hb')
        · obtain ⟨hstart, horder⟩ := Block.mk.inj he
          have hback := buddyOf_buddyOf (hT.free c ((hfree c).mpr hc')).1
          rw [hstart, horder, hbuddy i h2] at hback
          have hcp : c = ⟨p, c.order⟩ := by rw [hback]
          rw [hcp] at hc
          exact hnot _ hc
      · rw [hbuddy i h2] at hb
        exact hnot i hb

/-- What holds of the block at hand while the loop coalesces. -/
structure Coalescing (mapped : Int → Bool) (start : Int) (n : Nat) (b₀ : Buddy) (p : Int)
    (o : Nat) : Prop where
  fits : Fits start n ⟨p, o⟩
  ahead : CoalescesFrom mapped start b₀ (MAX_PAGE_ORDER - 1 - o) p o

/-- A free that coalesces leaves no buddies. The old free blocks that are left had none among
themselves, and the block that the call ends with has none because the loop would have taken it. -/
theorem Trimmed.freed {k : Nat} (hT : Trimmed start n ⟨b, out⟩)
    (hI : BuddyInv buddyHeads b seq out) (hmem : ⟨p, k⟩ ∈ out)
    (hC : Coalesces mapped start ⟨b, out⟩ (.free p k)) :
    Trimmed start n ⟨freePages mapped b (some p) k, out.erase ⟨p, k⟩⟩ := by
  have hH := hasFreelists_buddyHeads
  have hfree := fun c => freeBlock_iff (c := c) hH hI.rep
  have hsucc : ∀ o, o < MAX_PAGE_ORDER - 1 →
      MAX_PAGE_ORDER - 1 - o = MAX_PAGE_ORDER - 1 - (o + 1) + 1 := fun o ho => by omega
  obtain ⟨b', seq', p', o', heq, hM, hR, -, ho, hexit⟩ :=
    free_induct mapped (R := fun _ _ p' o' => Coalescing mapped start n b p' o') hH
      (hI.small _ hmem) (hI.merging hH hmem buddyHeads_other) ⟨hT.outstanding _ hmem, hC⟩
      (fun b' seq' p' o' r ho hM hn hq hR => by
        have hahead := hR.ahead
        rw [hsucc o' ho] at hahead
        obtain ⟨hdvd, hq', hrest⟩ := hahead.next hn
        have hlast : p' + 2 ^ o' + 2 ^ o' ≤ start + n := (hT.free _ hq').2.2
        refine ⟨⟨hdvd, hR.fits.2.1, ?_⟩, hrest⟩
        show p' + 2 ^ (o' + 1) ≤ start + n
        rw [Block.two_pow_succ]
        omega)
      (fun b' seq' p' o' r ho hM hn hp hq hR => by
        have hahead := hR.ahead
        rw [hsucc o' ho] at hahead
        obtain ⟨hdvd, hq', hrest⟩ := hahead.prev hn hp
        have hlast : p' + 2 ^ o' ≤ start + n := hR.fits.2.2
        refine ⟨⟨dvd_of_second hR.fits.1 hdvd, (hT.free _ hq').2.1, ?_⟩, hrest⟩
        show p' - 2 ^ o' + 2 ^ (o' + 1) ≤ start + n
        rw [Block.two_pow_succ]
        omega)
  obtain ⟨hrep, -⟩ := hM.putFree hH ho
  have hput : ∀ c, Listed (putSeq seq' p' o') c ↔ c = ⟨p', o'⟩ ∨ Listed seq' c :=
    fun c => listed_putSeq ho
  have hfree' := fun c => freeBlock_iff (c := c) hH hrep
  -- The block that the call ends with has no free buddy.
  have hlone : o' < topOrder → ¬ Listed seq' ⟨buddyOf start p' o', o'⟩ := by
    intro hlt hl
    obtain ⟨h1, h2⟩ := hexit hlt
    have hahead := hR.ahead
    rw [hsucc o' hlt, CoalescesFrom, neighbour_none h1 h2] at hahead
    exact hahead ((hfree _).mpr (hM.sub _ hl))
  have hold : ∀ c, Listed seq' c → Fits start n c := fun c hc =>
    hT.free c ((hfree c).mpr (hM.sub c hc))
  rw [heq]
  refine ⟨fun c hc => hT.outstanding c (List.mem_of_mem_erase hc), fun c hc => ?_,
    fun c hc hlt hb => ?_⟩
  · rcases (hput c).mp ((hfree' c).mp hc) with rfl | hc
    · exact hR.fits
    · exact hold c hc
  · rcases (hput c).mp ((hfree' c).mp hc) with rfl | hc
    · rcases (hput _).mp ((hfree' _).mp hb) with he | hb
      · exact buddyOf_ne (Block.mk.inj he).1
      · exact hlone hlt hb
    · rcases (hput _).mp ((hfree' _).mp hb) with he | hb
      · obtain ⟨hstart, horder⟩ := Block.mk.inj he
        have hback := buddyOf_buddyOf (hold c hc).1
        rw [hstart, horder] at hback
        refine hlone (horder ▸ hlt) ?_
        rw [hback, ← horder]
        exact hc
      · exact hT.alone c ((hfree c).mpr (hM.sub c hc)) hlt ((hfree _).mpr (hM.sub _ hb))

/-- An allocation succeeds exactly when a list from its order on has a block. -/
theorem BuddyInv.alloc_isSome_iff {H : Set Head} (hI : BuddyInv H b seq out)
    (hH : HasFreelists H) {k : Nat} :
    (allocPages b k).2.isSome ↔ ∃ c, Listed seq c ∧ k ≤ c.order := by
  rcases hI.alloc hH k with ⟨heq, hempty⟩ | ⟨j, p, ps, links, hkj, hj, hps, -, heq, -⟩
  · rw [heq]
    refine iff_of_false (by simp) ?_
    rintro ⟨c, ⟨hc, hmem⟩, hkc⟩
    rw [hempty c.order hkc hc] at hmem
    exact absurd hmem List.not_mem_nil
  · rw [heq]
    exact iff_of_true rfl ⟨⟨p, j⟩, ⟨hj, hps ▸ List.mem_cons_self⟩, hkj⟩

/-- Without outstanding blocks, the free blocks coalesce to the largest orders
that fit. -/
theorem Trimmed.coalesced (hT : Trimmed start n ⟨b, []⟩) (hI : BuddyInv buddyHeads b seq [])
    (hL : Lossless start n ⟨b, []⟩) : Coalesced topOrder start (start + n) { c | Listed seq c } where
  aligned c hc := (hT.free c ((freeBlock_iff hasFreelists_buddyHeads hI.rep).mpr hc)).1
  apart c hc d hd hne := hI.tidy.freeApart c d hc hd hne
  covers y h1 h2 := by
    obtain ⟨c, hc, hy⟩ := (ownedFrame_iff hasFreelists_buddyHeads hI.rep).mp (hL y h1 h2)
    exact ⟨c, hc.resolve_left List.not_mem_nil, hy⟩
  alone c hc ho hb :=
    have hfree := fun c => freeBlock_iff (c := c) hasFreelists_buddyHeads hI.rep
    hT.alone c ((hfree c).mpr hc) ho ((hfree _).mpr hb)

/-- The invariant of the runs that coalesce. -/
structure CoalesceInv (start : Int) (n : Nat) (s : Sys) : Prop where
  kept : Kept buddyHeads s
  lossless : Lossless start n s
  trimmed : Trimmed start n s

/-- One call that coalesces keeps the invariant, by the rule for its kind: an allocation splits
into halves that fit, and a free merges buddies again. -/
theorem CoalesceInv.call {s s' : Sys} {a : Call} (hI : CoalesceInv start n s)
    (hC : Coalesces mapped start s a) (hs : step mapped s a = some s') :
    CoalesceInv start n s' := by
  obtain ⟨b, out⟩ := s
  obtain ⟨⟨seq, hB⟩, hL, hT⟩ := hI
  cases a with
  | alloc order =>
      have hK : Kept buddyHeads ⟨b, out⟩ := ⟨seq, hB⟩
      exact ⟨hK.call (a := .alloc order) trivial hs,
        fun y h1 h2 => hB.alloc_lossless hasFreelists_buddyHeads hs (hL y h1 h2),
        hT.alloc hB hs⟩
  | free p order =>
      obtain ⟨hmem, rfl⟩ := step_free_iff.mp hs
      exact ⟨hB.free hmem (hB.swallowsNothing hC),
        hB.free_lossless hmem hL (hB.keepsWhole hC), hT.freed hB hmem hC⟩

end

/-- In a run from one contiguous run of frames whose calls all coalesce, freeing
everything restores the capacity: an order that could be allocated in the
beginning can be allocated in the end. -/
theorem capacity_of_coalesces (mapped : Int → Bool) (b : Buddy) (start : Int) (n : Nat)
    (hU : Untouched mapped b (frameRange start n)) (calls : List Call) (s : Sys)
    (hrun : run (step mapped) ⟨freeRange mapped b start n, []⟩ calls = some s)
    (hfreed : s.outstanding = [])
    (hcoal : Guarded (step mapped) (Coalesces mapped start) ⟨freeRange mapped b start n, []⟩ calls)
    (k : Nat) (hk : (allocPages (freeRange mapped b start n) k).2.isSome) :
    (allocPages s.buddy k).2.isSome := by
  obtain ⟨seq, hT⟩ := freeRange_spec hU
  have hH := hasFreelists_buddyHeads
  have hfirst : CoalesceInv start n ⟨freeRange mapped b start n, []⟩ := by
    refine ⟨⟨seq, hT.inv⟩, fun y h1 h2 => ?_, hT.trimmed⟩
    obtain ⟨c, hc, hyc⟩ := (hT.covered y).mpr ⟨h1, h2⟩
    exact (ownedFrame_iff hH hT.inv.rep).mpr ⟨c, Or.inr hc, hyc⟩
  obtain ⟨⟨seq', hI⟩, hL, hTr⟩ := invariant_of_guarded (I := CoalesceInv start n)
    (fun s a s' hI hC hs => hI.call hC hs) hfirst hcoal hrun
  obtain ⟨b', out⟩ := s
  obtain rfl : out = [] := hfreed
  -- In the beginning some tile has order `k` or more, so `2 ^ k` frames fit.
  obtain ⟨c, hc, hkc⟩ := (hT.inv.alloc_isSome_iff hH).mp hk
  have hfit := hT.trimmed.free c ((freeBlock_iff hH hT.inv.rep).mpr hc)
  have hpow := Block.two_pow_le hkc
  have hcap : k ≤ topOrder := by
    have := hc.1
    have : topOrder = MAX_PAGE_ORDER - 1 := rfl
    omega
  obtain ⟨d, hd, -, hkd⟩ := (hTr.coalesced hI hL).exists_order_ge hcap (le_refl start)
    (by have := hfit.2; omega) (by simp)
  exact (hI.alloc_isSome_iff hH).mpr ⟨d, hd, hkd⟩

/-- Two frames are handed out one by one and come back in the same order: the pair can be
allocated again. -/
theorem capacity_of_coalesces_two :
    (allocPages ((run (step fun _ => true) ⟨freeRange (fun _ => true) cleared 0 2, []⟩
      [.alloc 0, .alloc 0, .free 0 0, .free 1 0]).get (by decide)).buddy 1).2.isSome := by
  have htwo : (run (step fun _ => true) ⟨freeRange (fun _ => true) cleared 0 2, []⟩
      [.alloc 0, .alloc 0]).map (fun s => (neighbour (fun _ => true) s.buddy 0 0,
        decide (HasLists s.buddy fun _ => []))) = some (none, true) := by decide
  have hthree : (run (step fun _ => true) ⟨freeRange (fun _ => true) cleared 0 2, []⟩
      [.alloc 0, .alloc 0, .free 0 0]).map (fun s => (neighbour (fun _ => true) s.buddy 1 0,
        neighbour (fun _ => true) s.buddy 0 1,
        decide (HasLists s.buddy fun k => if k = 0 then [0] else []))) = some (some 0, none, true) := by
    decide
  refine capacity_of_coalesces (fun _ => true) cleared 0 2 (cleared_untouched _)
    [.alloc 0, .alloc 0, .free 0 0, .free 1 0] _ (Option.some_get _).symm (by decide)
    ⟨trivial, fun s₁ h₁ => ⟨trivial, fun s₂ h₂ => ⟨?_, fun s₃ h₃ =>
      ⟨?_, fun _ _ => trivial⟩⟩⟩⟩ 1 (by decide)
  · rw [run_cons.mpr ⟨s₁, h₁, run_cons.mpr ⟨s₂, h₂, rfl⟩⟩, Option.map_some, Option.some.injEq,
      Prod.mk.injEq, decide_eq_true_iff] at htwo
    simp only [Coalesces, MAX_PAGE_ORDER, CoalescesFrom, htwo.1]
    rw [htwo.2.freeBlock_iff]
    exact fun h => absurd h.2 List.not_mem_nil
  · rw [run_cons.mpr ⟨s₁, h₁, run_cons.mpr ⟨s₂, h₂, run_cons.mpr ⟨s₃, h₃, rfl⟩⟩⟩, Option.map_some,
      Option.some.injEq, Prod.mk.injEq, Prod.mk.injEq, decide_eq_true_iff] at hthree
    obtain ⟨hzero, hnone, hlists⟩ := hthree
    -- The buddy is taken at order 0; at order 1 there is none.
    have hmin : min (1 : Int) 0 = 0 := by decide
    simp only [Coalesces, MAX_PAGE_ORDER, CoalescesFrom, hzero, hmin, hnone, hlists.freeBlock_iff]
    exact ⟨by decide, ⟨by decide, by simp⟩, fun h => by simp at h⟩

/-- Two frames: one is handed out and comes back, and the pair is not available
any more. -/
theorem not_capacity_restored :
    (allocPages (freeRange (fun _ => true) cleared 0 2) 1).2.isSome ∧
      ∃ s, run (step fun _ => true) ⟨freeRange (fun _ => true) cleared 0 2, []⟩
          [.alloc 0, .free 0 0] = some s ∧
        s.outstanding = [] ∧ (allocPages s.buddy 1).2 = none := by
  have hrun : (run (step fun _ => true) ⟨freeRange (fun _ => true) cleared 0 2, []⟩
      [.alloc 0, .free 0 0]).map (fun s => (s.outstanding, (allocPages s.buddy 1).2))
      = some ([], none) := by decide
  obtain ⟨s, hs, heq⟩ := Option.map_eq_some_iff.mp hrun
  obtain ⟨hout, hnone⟩ := Prod.mk.inj heq
  exact ⟨by decide, s, hs, hout, hnone⟩

end SumiOS
