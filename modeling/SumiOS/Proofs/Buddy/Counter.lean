import SumiOS.Proofs.Buddy.Ascending
import SumiOS.Lib.Counter

/-!
# `SumiOS.Proofs.Buddy.Counter`: the blocks that the init loop leaves

Freeing frames in ascending order adds them to a binary counter: as long as
every merge takes the block directly in front, of the same order, the free
blocks are the stack of `carry` (`Counts`). `__free_pages` compares neither the
order nor the end of the block in front. So a merge that `carry` would not do
is possible, and it swallows a frame that was never freed
(`Ascended.free_counts`). Whether that happens is decided by the list of frames
alone: `Separated`.

* `freeFrames_iff_separated`: the free blocks consist of freed frames exactly
  when the list is separated.
* `freeRange_spec`: one contiguous run is separated, and gives the state that
  the runs of clients start from.
* `freeRange_binary`: the blocks of that state are the binary digits of the
  length of the run.
-/

set_option autoImplicit false

namespace SumiOS

open Lib

/-- The largest order of a block. -/
def topOrder : Nat := MAX_PAGE_ORDER - 1

/-- The free blocks are the blocks of the stack. -/
def Counts (seq : Head → List Int) (ds : List Block) : Prop := ∀ c, Listed seq c ↔ c ∈ ds

section

variable {mapped : Int → Bool} {H : Set Head} {b : Buddy} {seq : Head → List Int}
  {ds : List Block} {lo e x y : Int}

/-- While the frames are freed, the frames in free blocks are those that the stack of the counter
covers. -/
theorem Counts.covered_iff (h : Counts seq ds) : Covered seq y ↔ Covers ds y := by
  simp only [Covered, Covers, h _]

/-- The loop of `__free_pages` against the counter: the block at hand and the
blocks still on the lists are a stage of `carry`, or a block was taken that
`carry` leaves, and then a frame is claimed that the counter does not cover. -/
inductive Stage (ds : List Block) (x : Int) (seq : Head → List Int) (p : Int) (o : Nat) : Prop
  | agree (rest : List Block) (hcount : Counts seq rest) (hst : Stack topOrder rest p)
      (heq : carry topOrder ⟨p, o⟩ rest = carry topOrder ⟨x, 0⟩ ds)
  | swallowed (y : Int) (hy : y ∈ (Block.mk p o).frames)
      (hun : ¬ Covers (carry topOrder ⟨x, 0⟩ ds) y)
      (hfit : ¬ TopFits topOrder (carry topOrder ⟨x, 0⟩ ds))

/-- One merge with the block in front, as a carry of the counter: the block at hand and the tile in
front of it have become one. The frames that the merge claims beyond that tile are those that no
tile holds. -/
theorem Stage.prev {p : Int} {o r : Nat} (hH : HasFreelists H) (hr : Rep H b.links seq)
    (ho : o < topOrder) (hq : Listed seq ⟨p - 2 ^ o, r⟩) (hs : Stage ds x seq p o) :
    Stage ds x (dropSeq seq (p - 2 ^ o) r) (p - 2 ^ o) (o + 1) := by
  cases hs with
  | swallowed y hy hun hfit => exact .swallowed y (frames_subset_prev hy) hun hfit
  | agree rest hcount hst heq =>
      have hmem : Block.mk (p - 2 ^ o) r ∈ rest := (hcount _).mp hq
      by_cases htop : ∃ d ∈ rest.head?, d.order = o ∧ d.start + 2 ^ d.order = p
      · -- The block in front is the one that `carry` takes.
        obtain ⟨d, hd, hdo, hdp⟩ := htop
        cases rest with
        | nil => simp at hd
        | cons d' ds' =>
            obtain rfl : d' = d := Option.mem_some.mp hd
            have hstart : d'.start = p - 2 ^ o := by
              rw [← hdo]
              omega
            have hdr : d' = ⟨p - 2 ^ o, r⟩ := hst.eq_of_start List.mem_cons_self hmem hstart
            refine .agree ds' (fun c => ?_) (hstart ▸ hst.tail) ?_
            · rw [listed_dropSeq hH hr, hcount c, ← hdr, List.mem_cons]
              have hnot : d' ∉ ds' := fun h => by
                have h1 := hst.tail.end_le d' h
                have h2 := Block.two_pow_pos d'.order
                omega
              constructor
              · rintro ⟨rfl | h, hne⟩
                · exact absurd rfl hne
                · exact h
              · exact fun h => ⟨Or.inr h, fun e => hnot (e ▸ h)⟩
            · rw [← heq, carry_merge (c := ⟨p, o⟩) ho hdo hdp, hstart]
      · -- It is not, so there is a hole behind it.
        have hnot : ∀ d ∈ rest.head?, ¬ (d.order = o ∧ d.start + 2 ^ d.order = p) :=
          fun d hd h => htop ⟨d, hd, h⟩
        have hstop : carry topOrder ⟨p, o⟩ rest = ⟨p, o⟩ :: rest := by
          cases rest with
          | nil => rfl
          | cons d ds' => exact carry_stop fun h => hnot d rfl h.2
        obtain ⟨y, hy1, hy2, hun⟩ := hst.exists_gap ho hmem rfl hnot
        -- A frame of the hole is claimed by the merge, and no tile holds it.
        have hfront : y ∈ (Block.mk (p - 2 ^ o) o).frames := by
          rw [Block.mem_mk]
          simp only at hy1
          omega
        refine .swallowed y (claim_subset_prev hfront) ?_ ?_
        · rw [← heq, covers_carry]
          rintro (h | h)
          · rw [Block.mem_mk] at h
            omega
          · exact hun h
        · rw [← heq, hstop]
          exact fun hfit => hfit ho _ hmem rfl

/-- Freeing the next frame. The lists follow the counter exactly when the top
fits afterwards. -/
theorem Ascended.free_counts (hA : Ascended H b seq lo e) (hH : HasFreelists H) (hlo : lo ≤ e)
    (hex : e ≤ x) (hcount : Counts seq ds) (hst : Stack topOrder ds e)
    (hmapped : ∀ y, Covers ds y → mapped y = true) :
    ∃ seq', Ascended H (freePages mapped b (some x) 0) seq' lo (x + 1) ∧
      (∀ y, y = x ∨ Covered seq y → Covered seq' y) ∧
      ((TopFits topOrder (carry topOrder ⟨x, 0⟩ ds) ∧
          Counts seq' (carry topOrder ⟨x, 0⟩ ds)) ∨
        (¬ TopFits topOrder (carry topOrder ⟨x, 0⟩ ds) ∧
          ∃ y, Covered seq' y ∧ ¬ Covers (carry topOrder ⟨x, 0⟩ ds) y)) := by
  have hst' : Stack topOrder ds x :=
    ⟨hst.chain, hst.order_le, fun d hd => (hst.top d hd).trans hex⟩
  obtain ⟨b', seq', p, o, heq, hM, hG, hS, ho, hexit⟩ :=
    hA.free_induct mapped hH hex (R := Stage ds x) (.agree ds hcount hst' rfl)
      (fun b' seq' p o r ho hM _ _ hq hS => hS.prev hH hM.rep ho hq)
  obtain ⟨hA', hcov⟩ := hA.put hH hlo hex hM hG ho
  refine ⟨putSeq seq' p o, heq ▸ hA', hcov, ?_⟩
  have hput : ∀ c, Listed (putSeq seq' p o) c ↔ c = ⟨p, o⟩ ∨ Listed seq' c :=
    fun c => listed_putSeq ho
  cases hS with
  | swallowed y hy hun hfit => exact Or.inr ⟨hfit, y, ⟨_, (hput _).mpr (Or.inl rfl), hy⟩, hun⟩
  | agree rest hcount' hst'' heq' =>
      -- The loop was left: no block starts at the distance of the order.
      have hnone : o < topOrder → ∀ d ∈ rest, d.start ≠ p - 2 ^ o := by
        intro hlt d hd hstart
        have hd' := (hcount' d).mpr hd
        have hlinked := (hA.flagged d.start).mpr ⟨d.order, hM.sub d hd'⟩
        have hmap : mapped d.start = true :=
          hmapped _ ⟨d, (hcount d).mp (hM.sub d hd'), d.start_mem⟩
        have hm := mergeable_iff.mpr ⟨hmap, hlinked⟩
        rw [hstart, hexit hlt] at hm
        exact Bool.false_ne_true hm
      have hstop : carry topOrder ⟨p, o⟩ rest = ⟨p, o⟩ :: rest := by
        cases rest with
        | nil => rfl
        | cons d ds' =>
            refine carry_stop fun h => hnone h.1 d List.mem_cons_self ?_
            have h1 : d.order = o := h.2.1
            have h2 : d.start + 2 ^ d.order = p := h.2.2
            rw [h1] at h2
            omega
      refine Or.inl ⟨?_, fun c => ?_⟩
      · rw [← heq', hstop]
        exact fun hlt d hd => hnone hlt d hd
      · rw [← heq', hstop, hput, hcount' c, List.mem_cons]

/-- Freeing the frames of an ascending list: the lists follow the counter when
the list is separated, and have swallowed a frame otherwise. -/
theorem Ascended.free_frames_counts (hH : HasFreelists H) :
    ∀ (xs : List Int) {b : Buddy} {seq : Head → List Int} {ds : List Block} {e : Int},
      Ascended H b seq lo e → lo ≤ e → Counts seq ds → Stack topOrder ds e →
      (∀ y, y ∈ xs ∨ Covers ds y → mapped y = true) →
      (∀ x ∈ xs, e ≤ x) → xs.Pairwise (· < ·) →
      ∃ seq' e', Ascended H (freeFrames mapped b xs) seq' lo e' ∧
        ((Separated topOrder ds xs ∧ Counts seq' (tilesFrom topOrder ds xs) ∧
            Stack topOrder (tilesFrom topOrder ds xs) e') ∨
          (¬ Separated topOrder ds xs ∧ ∃ y, Covered seq' y ∧ y ∉ xs ∧ ¬ Covers ds y))
  | [], b, seq, ds, e, hA, _, hcount, hst, _, _, _ =>
      ⟨seq, e, hA, Or.inl ⟨trivial, hcount, hst⟩⟩
  | x :: xs, b, seq, ds, e, hA, hlo, hcount, hst, hmapped, hxs, hsort => by
      obtain ⟨hx, hsort⟩ := List.pairwise_cons.mp hsort
      have hex := hxs x List.mem_cons_self
      obtain ⟨seq₁, hA₁, -, hcase⟩ := hA.free_counts hH hlo hex hcount hst
        fun y hy => hmapped y (Or.inr hy)
      have hcarry : ∀ y, Covers (carry topOrder ⟨x, 0⟩ ds) y ↔ y = x ∨ Covers ds y := by
        intro y
        rw [covers_carry, Block.mem_mk, pow_zero]
        exact or_congr_left (by omega)
      rcases hcase with ⟨hfit, hcount₁⟩ | ⟨hfit, y, hy, hun⟩
      · -- The frame fits, and the counter goes on with the rest.
        obtain ⟨seq₂, e₂, hA₂, hcase₂⟩ := Ascended.free_frames_counts hH xs hA₁ (by omega) hcount₁
          (hst.push hex) (fun y hy => hmapped y (by
            rw [hcarry] at hy
            rw [List.mem_cons]
            tauto)) (fun y hy => hx y hy) hsort
        refine ⟨seq₂, e₂, hA₂, hcase₂.imp (fun h => ⟨⟨hfit, h.1⟩, h.2⟩) fun h => ?_⟩
        obtain ⟨hsep, y, hy, hyx, hun⟩ := h
        rw [hcarry, not_or] at hun
        exact ⟨fun h => hsep h.2, y, hy, by simp [hyx, hun.1], hun.2⟩
      · -- A frame was swallowed here, and stays so.
        obtain ⟨seq₂, e₂, hA₂, hkeep, -⟩ := Ascended.free_frames mapped hH xs hA₁ (by omega)
          (fun y hy => hx y hy) hsort
        refine ⟨seq₂, e₂, hA₂, Or.inr ⟨fun h => hfit h.1, y, hkeep y hy, ?_, ?_⟩⟩
        · -- The swallowed frame is in a block, and all blocks end by `x`.
          have hle : y < x + 1 := by
            obtain ⟨c, hc, hyc⟩ := hy
            have := hA₁.upper c hc
            rw [Block.mem_frames] at hyc
            omega
          rw [List.mem_cons, not_or]
          refine ⟨fun h => hun ((hcarry y).mpr (Or.inl h)), fun h => ?_⟩
          have := hx y h
          omega
        · exact fun h => hun ((hcarry y).mpr (Or.inr h))

/-- An ascending list of frames has a lower bound, from which the stack can be started. -/
theorem exists_le_of_sorted {xs : List Int} (hsort : xs.Pairwise (· < ·)) :
    ∃ lo, ∀ x ∈ xs, lo ≤ x := by
  cases xs with
  | nil => exact ⟨0, fun x hx => absurd hx List.not_mem_nil⟩
  | cons x xs =>
      refine ⟨x, fun y hy => ?_⟩
      rcases List.mem_cons.mp hy with rfl | hy
      · exact le_refl y
      · exact ((List.pairwise_cons.mp hsort).1 y hy).le

/-- The free blocks contain freed frames only, and are then pairwise apart,
exactly when the list of the frames is separated. -/
theorem freeFrames_iff_separated {xs : List Int} (hU : Untouched mapped b xs)
    (hsort : xs.Pairwise (· < ·)) :
    (∀ c, FreeBlock (freeFrames mapped b xs) c → ∀ y ∈ c.frames, y ∈ xs) ∧
      (∀ c d, FreeBlock (freeFrames mapped b xs) c → FreeBlock (freeFrames mapped b xs) d →
        c ≠ d → c.Apart d) ↔ Separated topOrder [] xs := by
  obtain ⟨lo, hlo⟩ := exists_le_of_sorted hsort
  have hnil : ∀ y, ¬ Covers [] y := fun y ⟨d, hd, _⟩ => absurd hd List.not_mem_nil
  have hcount : Counts (fun _ => []) [] := fun c =>
    ⟨fun h => absurd h.2 List.not_mem_nil, fun h => absurd h List.not_mem_nil⟩
  obtain ⟨seq, e, hA, hcase⟩ := (hU.ascended lo).free_frames_counts hasFreelists_buddyHeads xs
    (le_refl lo) hcount (stack_nil topOrder lo)
    (fun y hy => hU.mapped y (hy.resolve_right (hnil y))) hlo hsort
  have hfree := fun c => freeBlock_iff (c := c) hasFreelists_buddyHeads hA.rep
  rcases hcase with ⟨hsep, hcount', hst⟩ | ⟨hsep, y, ⟨c, hc, hyc⟩, hy, -⟩
  · refine iff_of_true ⟨fun c hc y hy => ?_, fun c d hc hd hne => ?_⟩ hsep
    · have hcov : Covers (tilesFrom topOrder [] xs) y :=
        ⟨c, (hcount' c).mp ((hfree c).mp hc), hy⟩
      exact ((covers_tilesFrom xs []).mp hcov).resolve_right (hnil y)
    · exact hst.apart.forall ((hcount' c).mp ((hfree c).mp hc))
        ((hcount' d).mp ((hfree d).mp hd)) hne
  · exact iff_of_false (fun h => hy (h.1 c ((hfree c).mpr hc) y hyc)) hsep

/-- The frames of a run lie from its start up to its end. -/
theorem mem_frameRange {start : Int} {n : Nat} :
    y ∈ frameRange start n ↔ start ≤ y ∧ y < start + n := by
  simp only [frameRange, List.mem_map, List.mem_range]
  constructor
  · rintro ⟨i, hi, rfl⟩
    omega
  · exact fun h => ⟨(y - start).toNat, by omega, by omega⟩

/-- They are listed in ascending order, as the init loop frees them. -/
theorem frameRange_sorted (start : Int) (n : Nat) : (frameRange start n).Pairwise (· < ·) := by
  refine List.pairwise_map.mpr (List.pairwise_lt_range.imp fun h => ?_)
  omega

/-- The state that the runs of clients start from: one contiguous run of frames
was freed. Its blocks are the tiles of the run. -/
structure Tiled (b : Buddy) (seq : Head → List Int) (start : Int) (n : Nat) : Prop where
  inv : BuddyInv buddyHeads b seq []
  linked : ∀ c, Listed seq c → Flagged b c.start
  covered : ∀ y, Covered seq y ↔ start ≤ y ∧ y < start + n
  aligned : ∀ c, Listed seq c → Aligned topOrder start c
  other : ∀ h, (∀ k, h ≠ .freelist k) → seq h = []

/-- Freeing one contiguous run of frames follows the counter to its end: the free lists have the
blocks of the stack, and every frame of the run is covered. -/
theorem freeRange_counts {start : Int} {n : Nat}
    (hU : Untouched mapped b (frameRange start n)) :
    ∃ seq e, Ascended buddyHeads (freeRange mapped b start n) seq start e ∧
      Counts seq (tiles topOrder (frameRange start n)) ∧
      Stack topOrder (tiles topOrder (frameRange start n)) e ∧
      Contig start (start + n) (tiles topOrder (frameRange start n)) ∧
      ∀ d ∈ tiles topOrder (frameRange start n), Aligned topOrder start d := by
  have hcount : Counts (fun _ => []) [] := fun c =>
    ⟨fun h => absurd h.2 List.not_mem_nil, fun h => absurd h List.not_mem_nil⟩
  have hcontig : Contig start start [] := rfl
  obtain ⟨hsep, hfill, hal⟩ := contig_run n hcontig (stack_nil topOrder start)
    fun d hd => absurd hd List.not_mem_nil
  obtain ⟨seq, e, hA, hcase⟩ :=
    (hU.ascended start).free_frames_counts hasFreelists_buddyHeads (frameRange start n)
      (le_refl start) hcount (stack_nil topOrder start)
      (fun y hy => hU.mapped y (hy.resolve_right fun ⟨d, hd, _⟩ => absurd hd List.not_mem_nil))
      (fun x hx => (mem_frameRange.mp hx).1) (frameRange_sorted start n)
  obtain ⟨-, hcount', hst⟩ := hcase.resolve_right fun h => h.1 hsep
  exact ⟨seq, e, hA, hcount', hst, hfill, hal⟩

/-- Freeing one contiguous run of frames leaves its tiles, which is the state that all runs of the
clients start from. -/
theorem freeRange_spec {start : Int} {n : Nat}
    (hU : Untouched mapped b (frameRange start n)) :
    ∃ seq, Tiled (freeRange mapped b start n) seq start n := by
  obtain ⟨seq, e, hA, hcount, hst, hfill, hal⟩ := freeRange_counts hU
  refine ⟨seq, ⟨hA.rep, ⟨.nil, fun c d hc hd hne => ?_, fun c hc => absurd hc List.not_mem_nil⟩,
    fun q hq => (hA.flagged q).mp hq, fun h hh hne q hq => ?_,
    fun c hc => absurd hc List.not_mem_nil⟩, fun c hc => (hA.flagged _).mpr ⟨_, hc⟩,
    fun y => ?_, fun c hc => hal c ((hcount c).mp hc), hA.other⟩
  · exact hst.apart.forall ((hcount c).mp hc) ((hcount d).mp hd) hne
  · rw [hA.other h hne] at hq
    exact absurd hq List.not_mem_nil
  · rw [hcount.covered_iff]
    exact hfill.covers_iff

end

/-! ### The digits of the length -/

/-- The blocks of `n` frames from `start` on, from left to right: as many of the
largest order as fit, then one for each set bit of the rest, highest first. -/
def rangeTiles (start : Int) (n : Nat) : List Block := layFrom start (digits topOrder n)

/-- Freeing a contiguous run in ascending order counts in binary: the free lists
hold the blocks of the digits of its length, each the blocks of its own order,
and no other page is marked as the head of a free block. -/
theorem freeRange_binary (mapped : Int → Bool) (b : Buddy) (start : Int) (n : Nat)
    (hU : Untouched mapped b (frameRange start n)) :
    (∀ y, Covers (rangeTiles start n) y ↔ y ∈ frameRange start n) ∧
      (∀ k < MAX_PAGE_ORDER, ∃ ps : List Int, ps.Nodup ∧
        IsRing (freeRange mapped b start n).links (freelist k) (ps.map .page) ∧
        ∀ p, p ∈ ps ↔ ⟨p, k⟩ ∈ rangeTiles start n) ∧
      ∀ q, Flagged (freeRange mapped b start n) q ↔ ∃ k, ⟨q, k⟩ ∈ rangeTiles start n := by
  obtain ⟨seq, e, hA, hcount, hst, hfill, -⟩ := freeRange_counts hU
  have htiles : (tiles topOrder (frameRange start n)).reverse = rangeTiles start n :=
    hfill.eq_layFrom_digits (hfill.stack hst)
  have hmem : ∀ c, c ∈ rangeTiles start n ↔ Listed seq c := fun c => by
    rw [← htiles, List.mem_reverse, hcount c]
  refine ⟨fun y => ?_, fun k hk => ?_, fun q => ?_⟩
  · rw [← htiles, mem_frameRange, ← hfill.covers_iff]
    simp [Covers]
  · have hkH : Head.freelist k ∈ buddyHeads := ⟨k, hk, rfl⟩
    refine ⟨seq (.freelist k), hA.rep.nodup hkH, hA.rep.ring hkH, fun p => ?_⟩
    rw [hmem]
    exact (and_iff_right hk).symm
  · rw [hA.flagged]
    exact exists_congr fun k => (hmem ⟨q, k⟩).symm

/-- Five frames from frame 3 on: the free lists hold the blocks that the binary digits of five ask
for, four frames and one, and no other page is marked. -/
theorem freeRange_binary_five :
    (∀ y, Covers (rangeTiles 3 5) y ↔ y ∈ frameRange 3 5) ∧
      (∀ k < MAX_PAGE_ORDER, ∃ ps : List Int, ps.Nodup ∧
        IsRing (freeRange (fun _ => true) cleared 3 5).links (freelist k) (ps.map .page) ∧
        ∀ p, p ∈ ps ↔ ⟨p, k⟩ ∈ rangeTiles 3 5) ∧
      ∀ q, Flagged (freeRange (fun _ => true) cleared 3 5) q ↔ ∃ k, ⟨q, k⟩ ∈ rangeTiles 3 5 :=
  freeRange_binary _ cleared 3 5 (cleared_untouched _)

/-- Five frames are a block of four and one of one. -/
example : rangeTiles 3 5 = [⟨3, 2⟩, ⟨7, 0⟩] := by decide +kernel

end SumiOS
