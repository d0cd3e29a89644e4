import SumiOS.Proofs.Buddy.Free

/-!
# `SumiOS.Proofs.Buddy.Ascending`: freeing frames in ascending order

The init loop frees single frames in ascending order into empty lists. Nothing
behind the frame at hand is free yet, so every merge is with a block in front,
and the block at hand always ends with that frame (`Ascended.free`). It follows
without any condition on the frames that the lists are well formed, that a page
is linked exactly when both its head flags are set, that no block starts below
the first frame or ends behind the last one, and that no freed frame is lost.

Whether the blocks hold freed frames only is another matter: `combine` takes a
block in front of a hole as well, if its distance is right. That is settled in
`SumiOS.Proofs.Buddy.Counter`.
-/

set_option autoImplicit false

namespace SumiOS

open Lib

/-- Every frame of `lo, lo + 1, …` that was freed so far is below `e`. -/
structure Ascended (H : Set Head) (b : Buddy) (seq : Head → List Int) (lo e : Int) : Prop where
  rep : Rep H b.links seq
  flagged : ∀ q, Flagged b q ↔ ∃ k, Listed seq ⟨q, k⟩
  unfreed : ∀ x, e ≤ x → (b.pages x).isFree = false
  lower : ∀ c, Listed seq c → lo ≤ c.start
  upper : ∀ c, Listed seq c → c.start + 2 ^ c.order ≤ e
  other : ∀ h, (∀ k, h ≠ .freelist k) → seq h = []

/-- The frame is in a free block. -/
def Covered (seq : Head → List Int) (x : Int) : Prop := ∃ c, Listed seq c ∧ x ∈ c.frames

section

variable {mapped : Int → Bool} {H : Set Head} {b : Buddy} {seq : Head → List Int}
  {lo e x : Int}

/-- The loop of `__free_pages` on the way: the block at hand ends with `x`, all
other blocks keep their flags, and what was covered is covered or at hand. -/
structure Growing (seq₀ : Head → List Int) (x : Int) (b : Buddy) (seq : Head → List Int)
    (p : Int) (o : Nat) : Prop where
  ends : p + 2 ^ o = x + 1
  linked : ∀ c, Listed seq c → Flagged b c.start
  cover : ∀ y, Covered seq₀ y → Covered seq y ∨ y ∈ (Block.mk p o).frames

/-- A block in front of the block at hand is not larger than it. -/
theorem Growing.order_le {seq₀ : Head → List Int} {p : Int} {o r : Nat}
    (hg : Growing seq₀ x b seq p o) (hle : p - 2 ^ o + 2 ^ r ≤ x) : r ≤ o := by
  have hlt : (2 : Int) ^ r < 2 ^ (o + 1) := by
    have := hg.ends
    rw [Block.two_pow_succ]
    omega
  exact Nat.lt_succ_iff.mp (Block.two_pow_lt_iff.mp hlt)

/-- A merge with the block in front keeps the picture: the block at hand still ends with the frame
that is freed, and now starts with that block. -/
theorem Growing.prev {seq₀ : Head → List Int} {p : Int} {o r : Nat} (hH : HasFreelists H)
    (hr : Rep H b.links seq) (hp : ∀ h ∈ H, p ∉ seq h) (hg : Growing seq₀ x b seq p o)
    (hro : r ≤ o) :
    Growing seq₀ x (mergePrev b p (p - 2 ^ o)) (dropSeq seq (p - 2 ^ o) r)
      (p - 2 ^ o) (o + 1) := by
  have hdrop := fun c => listed_dropSeq (q := p - 2 ^ o) (r := r) (c := c) hH hr
  refine ⟨by have := hg.ends; rw [Block.two_pow_succ]; omega, flagged_mergePrev hH hr hp hg.linked,
    fun y hy => ?_⟩
  · rcases hg.cover y hy with ⟨c, hc, hyc⟩ | hyp
    · by_cases hcq : c = ⟨p - 2 ^ o, r⟩
      · -- The block that is taken is one of the frames that are claimed.
        refine Or.inr (claim_subset_prev ?_)
        have := Block.two_pow_le hro
        rw [hcq, Block.mem_mk] at hyc
        rw [Block.mem_mk]
        omega
      · exact Or.inl ⟨c, (hdrop c).mpr ⟨hc, hcq⟩, hyc⟩
    · exact Or.inr (frames_subset_prev hyp)

/-- The rule for freeing the next frame, when nothing behind it is free: only
merges with the block in front happen, and a property `R` of the loop has to be
kept by these. The block that the call ends with is `⟨p, o⟩`. -/
theorem Ascended.free_induct (mapped : Int → Bool) (hA : Ascended H b seq lo e)
    (hH : HasFreelists H) (hex : e ≤ x) {R : (Head → List Int) → Int → Nat → Prop}
    (hR : R seq x 0)
    (hprev : ∀ b' seq' p o r, o < MAX_PAGE_ORDER - 1 → Merging H b seq x b' seq' p o →
      Growing seq x b' seq' p o → mergeable mapped b (p - 2 ^ o) = true →
      Listed seq' ⟨p - 2 ^ o, r⟩ → R seq' p o →
      R (dropSeq seq' (p - 2 ^ o) r) (p - 2 ^ o) (o + 1)) :
    ∃ b' seq' p o, freePages mapped b (some x) 0 = putFree b' p o ∧
      Merging H b seq x b' seq' p o ∧ Growing seq x b' seq' p o ∧ R seq' p o ∧
      o < MAX_PAGE_ORDER ∧ (o < MAX_PAGE_ORDER - 1 → mergeable mapped b (p - 2 ^ o) = false) := by
  -- `x` is not on a list: the blocks end below it.
  have hunlisted : ∀ h ∈ H, x ∉ seq h := by
    intro h hh hm
    by_cases hfl : ∃ k, h = .freelist k
    · obtain ⟨k, rfl⟩ := hfl
      have hup : x + 2 ^ k ≤ e := hA.upper ⟨x, k⟩ ⟨(hH k).mp hh, hm⟩
      have := Block.two_pow_pos k
      omega
    · rw [hA.other h fun k hk => hfl ⟨k, hk⟩] at hm
      exact absurd hm List.not_mem_nil
  have hM : Merging H b seq x b seq x 0 :=
    Merging.start hA.rep (fun q _ hq => (hA.flagged q).mp hq) hunlisted
  have hG : Growing seq x b seq x 0 :=
    ⟨by simp, fun c hc => (hA.flagged c.start).mpr ⟨c.order, hc⟩, fun y hy => Or.inl hy⟩
  obtain ⟨b', seq', p, o, heq, hM', ⟨hG', hR'⟩, -, ho, hexit⟩ :=
    SumiOS.free_induct mapped
      (R := fun b' seq' p o => Growing seq x b' seq' p o ∧ R seq' p o) hH
      (by decide) hM ⟨hG, hR⟩
      (fun b' seq' p o r _ _ hn _ hg => by
        -- The page behind the block at hand was not freed yet.
        have hfree := ((mergeable_iff.mp hn).2).1
        rw [hg.1.ends, hA.unfreed (x + 1) (by omega)] at hfree
        exact absurd hfree Bool.false_ne_true)
      (fun b' seq' p o r ho hM' _ hp hq ⟨hg, hr⟩ => by
        have hup : p - 2 ^ o + 2 ^ r ≤ e := hA.upper _ (hM'.sub _ hq)
        exact ⟨hg.prev hH hM'.rep hM'.unlisted (hg.order_le (by omega)),
          hprev b' seq' p o r ho hM' hg hp hq hr⟩)
  exact ⟨b', seq', p, o, heq, hM', hG', hR', ho, fun h => (hexit h).2⟩

/-- The insertion after the loop gives the picture for the next frame: the block that the
loop has come to is listed and flagged like the others, and no frame behind the one that was
freed is free. -/
theorem Ascended.put {b' : Buddy} {seq' : Head → List Int} {p : Int} {o : Nat}
    (hA : Ascended H b seq lo e) (hH : HasFreelists H) (hlo : lo ≤ e) (hex : e ≤ x)
    (hM : Merging H b seq x b' seq' p o) (hG : Growing seq x b' seq' p o)
    (ho : o < MAX_PAGE_ORDER) :
    Ascended H (putFree b' p o) (putSeq seq' p o) lo (x + 1) ∧
      ∀ y, y = x ∨ Covered seq y → Covered (putSeq seq' p o) y := by
  obtain ⟨hrep, hfl⟩ := hM.putFree hH ho
  have hput : ∀ c, Listed (putSeq seq' p o) c ↔ c = ⟨p, o⟩ ∨ Listed seq' c :=
    fun c => listed_putSeq ho
  have hpos := Block.two_pow_pos o
  have hends := hG.ends
  have hcover : ∀ y, Covered seq' y ∨ y ∈ (Block.mk p o).frames →
      Covered (putSeq seq' p o) y := by
    rintro y (⟨c, hc, hy⟩ | hy)
    · exact ⟨c, (hput c).mpr (Or.inr hc), hy⟩
    · exact ⟨⟨p, o⟩, (hput _).mpr (Or.inl rfl), hy⟩
  refine ⟨⟨hrep, fun q => ⟨hfl q, ?_⟩, fun y hy => ?_, fun c hc => ?_,
    fun c hc => ?_, fun h hne => ?_⟩, fun y hy => hcover y ?_⟩
  · rintro ⟨k, hk⟩
    exact flagged_putFree hH hM.unlisted ho hG.linked _ hk
  · -- A frame from `x + 1` on is not in the new block, and was not freed before.
    have hout : y ∉ (Block.mk p o).frames := fun h => by
      -- The frame that was freed lies in the new block.
      rw [Block.mem_mk] at h
      omega
    have hne : y ≠ p := fun h => hout (h ▸ Block.start_mem ⟨p, o⟩)
    rw [pages_putFree, if_neg hne, (hM.flags y hout).1]
    exact hA.unfreed y (by omega)
  · -- The new block starts with `x`, or where a block started before.
    rcases (hput c).mp hc with rfl | h
    · rcases hM.origin with rfl | ⟨r, hr, -⟩
      · show lo ≤ p
        omega
      · exact hA.lower ⟨p, r⟩ hr
    · exact hA.lower c (hM.sub c h)
  · rcases (hput c).mp hc with rfl | h
    · show p + 2 ^ o ≤ x + 1
      omega
    · have := hA.upper c (hM.sub c h)
      omega
  · exact (Function.update_of_ne (hne o) _ _).trans ((hM.other h hne).trans (hA.other h hne))
  · rcases hy with rfl | hy
    · refine Or.inr ?_
      rw [Block.mem_mk]
      omega
    · exact hG.cover y hy

/-- The state after the next frame was freed: the picture holds up to and including that frame,
with sequences that the merges have led to. -/
theorem Ascended.free (mapped : Int → Bool) (hA : Ascended H b seq lo e) (hH : HasFreelists H)
    (hlo : lo ≤ e) (hex : e ≤ x) :
    ∃ seq', Ascended H (freePages mapped b (some x) 0) seq' lo (x + 1) ∧
      ∀ y, y = x ∨ Covered seq y → Covered seq' y := by
  obtain ⟨b', seq', p, o, heq, hM, hG, -, ho, -⟩ :=
    hA.free_induct mapped hH hex (R := fun _ _ _ => True) trivial
      (fun _ _ _ _ _ _ _ _ _ _ _ => trivial)
  obtain ⟨hA', hcov⟩ := hA.put hH hlo hex hM hG ho
  exact ⟨putSeq seq' p o, heq ▸ hA', hcov⟩

/-- The state before the first frame is freed: no frame is free, no list has a block, and so the
picture holds with nothing in it, wherever the run starts. -/
theorem Untouched.ascended {xs : List Int} (hU : Untouched mapped b xs) (lo : Int) :
    Ascended buddyHeads b (fun _ => []) lo lo where
  rep := by
    refine ⟨?_, ?_, ?_, ?_⟩
    · rintro _ ⟨_, ⟨k, hk, rfl⟩, rfl⟩
      exact hU.empty k hk
    · rintro _ ⟨h, -, rfl⟩
      exact List.nodup_nil
    · rintro _ ⟨h, -, rfl⟩ _ _ x hx
      exact absurd hx List.not_mem_nil
    · rintro _ ⟨h, -, rfl⟩ _ _ hx
      exact List.not_mem_nil hx
  flagged q := by
    constructor
    · rintro ⟨hf, -⟩
      rw [hU.notFree q] at hf
      exact absurd hf Bool.false_ne_true
    · rintro ⟨k, -, hk⟩
      exact absurd hk List.not_mem_nil
  unfreed x _ := hU.notFree x
  lower c hc := absurd hc.2 List.not_mem_nil
  upper c hc := absurd hc.2 List.not_mem_nil
  other _ _ := rfl

/-- Freeing any ascending list of frames: the lists are well formed, linked is
the same as flagged, no freed frame is lost, and no block reaches beyond the
last one. -/
theorem Ascended.free_frames (mapped : Int → Bool) (hH : HasFreelists H) :
    ∀ (xs : List Int) {b : Buddy} {seq : Head → List Int} {e : Int},
      Ascended H b seq lo e → lo ≤ e → (∀ x ∈ xs, e ≤ x) → xs.Pairwise (· < ·) →
      ∃ seq' e', Ascended H (freeFrames mapped b xs) seq' lo e' ∧
        (∀ y, Covered seq y → Covered seq' y) ∧ (∀ x ∈ xs, Covered seq' x) ∧
        ∀ y, e ≤ y → (∀ x ∈ xs, x < y) → e' ≤ y
  | [], b, seq, e, hA, _, _, _ =>
      ⟨seq, e, hA, fun _ h => h, fun _ h => absurd h List.not_mem_nil, fun _ h _ => h⟩
  | x :: xs, b, seq, e, hA, hlo, hxs, hsort => by
      obtain ⟨hx, hsort⟩ := List.pairwise_cons.mp hsort
      have hex := hxs x List.mem_cons_self
      obtain ⟨seq₁, hA₁, hkeep⟩ := hA.free mapped hH hlo hex
      obtain ⟨seq₂, e₂, hA₂, hkeep₂, hcov₂, hupper₂⟩ :=
        Ascended.free_frames mapped hH xs hA₁ (by omega) (fun y hy => hx y hy) hsort
      refine ⟨seq₂, e₂, hA₂, fun y hy => hkeep₂ y (hkeep y (Or.inr hy)), fun y hy => ?_,
        fun y _ hy => ?_⟩
      · rcases List.mem_cons.mp hy with rfl | hy
        · exact hkeep₂ y (hkeep y (Or.inl rfl))
        · exact hcov₂ y hy
      · have hxy := hy x List.mem_cons_self
        exact hupper₂ y (by omega) fun z hz => hy z (List.mem_cons_of_mem x hz)

end

end SumiOS
