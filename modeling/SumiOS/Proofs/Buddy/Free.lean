import SumiOS.Proofs.Buddy.Run

/-!
# `SumiOS.Proofs.Buddy.Free`: the loop of `__free_pages`

`Merging` is what every merge keeps, whatever the neighbour: the lists stay
well formed, since a page with both head flags is on a list, and the block at
hand starts at the freed block or at a block it was merged with. It says
nothing about the frames that a merge claims. What a run of merges does to
those is the choice `R` of the rule `free_induct`: an `R` that both merges keep
holds when the loop is left.

The tests of the loop read pages outside the block at hand only, and those have
the flags they had before the call. So the rule states them about the state
before the call, and `takes_next` and `takes_prev` unfold `takes` there.
-/

set_option autoImplicit false

namespace SumiOS

open Lib

/-- The loop of `__free_pages(p₀, _)`, called in the state `b₀` with the
sequences `seq₀`, has come to the block `⟨p, o⟩` in the state `b`. -/
structure Merging (H : Set Head) (b₀ : Buddy) (seq₀ : Head → List Int) (p₀ : Int)
    (b : Buddy) (seq : Head → List Int) (p : Int) (o : Nat) : Prop where
  rep : Rep H b.links seq
  flagged : ∀ q, q ≠ p → Flagged b q → ∃ k, Listed seq ⟨q, k⟩
  unlisted : ∀ h ∈ H, p ∉ seq h
  flags : ∀ x, x ∉ (Block.mk p o).frames →
    (b.pages x).isFree = (b₀.pages x).isFree ∧ (b.pages x).isHead = (b₀.pages x).isHead
  sub : ∀ c, Listed seq c → Listed seq₀ c
  gone : ∀ c, Listed seq₀ c → Listed seq c ∨ c.start ∈ (Block.mk p o).frames
  origin : p = p₀ ∨ ∃ r, Listed seq₀ ⟨p, r⟩ ∧ ¬ Listed seq ⟨p, r⟩
  other : ∀ h, (∀ k, h ≠ .freelist k) → seq h = seq₀ h

section Frames

variable {p x : Int} {o : Nat}

/-- The block at hand after a merge with the block behind. -/
theorem frames_subset_next (h : x ∈ (Block.mk p o).frames) : x ∈ (Block.mk p (o + 1)).frames := by
  rw [Block.frames_succ]
  exact Or.inl h

/-- The block at hand after a merge with the block in front. -/
theorem frames_subset_prev (h : x ∈ (Block.mk p o).frames) :
    x ∈ (Block.mk (p - 2 ^ o) (o + 1)).frames := by
  rw [Block.frames_succ, Int.sub_add_cancel]
  exact Or.inr h

/-- The frames that a merge with the block behind claims. -/
theorem claim_subset_next (h : x ∈ (Block.mk (p + 2 ^ o) o).frames) :
    x ∈ (Block.mk p (o + 1)).frames := by
  rw [Block.frames_succ]
  exact Or.inr h

/-- The frames that a merge with the block in front claims. -/
theorem claim_subset_prev (h : x ∈ (Block.mk (p - 2 ^ o) o).frames) :
    x ∈ (Block.mk (p - 2 ^ o) (o + 1)).frames := by
  rw [Block.frames_succ]
  exact Or.inl h

/-- The frame behind a block does not belong to it. -/
theorem next_not_mem : p + 2 ^ o ∉ (Block.mk p o).frames := fun h => by
  rw [Block.mem_mk] at h
  omega

/-- Nor does the frame one block size in front of it. -/
theorem prev_not_mem : p - 2 ^ o ∉ (Block.mk p o).frames := fun h => by
  have := Block.two_pow_pos o
  rw [Block.mem_mk] at h
  omega

end Frames

section Loop

variable {mapped : Int → Bool} {H : Set Head} {b₀ b : Buddy} {seq₀ seq : Head → List Int}
  {p₀ p q : Int} {o r : Nat}

/-- Outside the block at hand the merge test has its value from before. -/
theorem Merging.mergeable_eq (hM : Merging H b₀ seq₀ p₀ b seq p o)
    (hq : q ∉ (Block.mk p o).frames) : mergeable mapped b q = mergeable mapped b₀ q := by
  unfold mergeable
  rw [(hM.flags q hq).1, (hM.flags q hq).2]

/-- A page that was unlinked is on no list of `H` any more. -/
theorem unlisted_dropSeq (hH : HasFreelists H) (hr : Rep H b.links seq)
    (hq : Listed seq ⟨q, r⟩) : ∀ h ∈ H, q ∉ dropSeq seq q r h := by
  intro h hh hm
  have hrH : Head.freelist r ∈ H := (hH r).mpr hq.1
  by_cases e : h = .freelist r
  · subst e
    rw [dropSeq, Function.update_self, (hr.nodup hrH).mem_erase_iff] at hm
    exact hm.1 rfl
  · rw [dropSeq, Function.update_of_ne e] at hm
    exact e (hr.sep hh hrH hm hq.2)

/-- Dropping a block from its list adds no frame to any list. -/
theorem mem_of_mem_dropSeq {h : Head} {x : Int} (hm : x ∈ dropSeq seq q r h) : x ∈ seq h := by
  unfold dropSeq at hm
  by_cases e : h = .freelist r
  · subst e
    rw [Function.update_self] at hm
    exact List.mem_of_mem_erase hm
  · rwa [Function.update_of_ne e] at hm

/-! The listed blocks keep both head flags. -/

/-- After the merge with the neighbour behind, the blocks that are still listed keep their flags,
for the merge only clears those of the neighbour. -/
theorem flagged_mergeNext (hH : HasFreelists H) (hr : Rep H b.links seq) (hq : Listed seq ⟨q, r⟩)
    (hlinked : ∀ c, Listed seq c → Flagged b c.start) :
    ∀ c, Listed (dropSeq seq q r) c → Flagged (mergeNext b q) c.start := by
  intro c hc
  obtain ⟨hc, hne⟩ := (listed_dropSeq hH hr).mp hc
  have hstart : c.start ≠ q := fun e => hne (Listed.eq_of_start hH hr hc hq e)
  unfold Flagged
  rw [pages_mergeNext, if_neg hstart]
  exact hlinked c hc

/-- After the merge with the neighbour in front, the blocks that are still listed keep their flags,
for the merge only changes those of the block at hand, which is on no list. -/
theorem flagged_mergePrev (hH : HasFreelists H) (hr : Rep H b.links seq) (hp : ∀ h ∈ H, p ∉ seq h)
    (hlinked : ∀ c, Listed seq c → Flagged b c.start) :
    ∀ c, Listed (dropSeq seq q r) c → Flagged (mergePrev b p q) c.start := by
  intro c hc
  obtain ⟨hc, -⟩ := (listed_dropSeq hH hr).mp hc
  have hstart : c.start ≠ p := fun e => hp _ ((hH c.order).mpr hc.1) (e ▸ hc.2)
  unfold Flagged
  rw [pages_mergePrev, if_neg hstart]
  exact hlinked c hc

/-- After the block was put on its free list, every listed block is flagged, the new one by the
call itself. -/
theorem flagged_putFree (hH : HasFreelists H) (hp : ∀ h ∈ H, p ∉ seq h) (ho : o < MAX_PAGE_ORDER)
    (hlinked : ∀ c, Listed seq c → Flagged b c.start) :
    ∀ c, Listed (putSeq seq p o) c → Flagged (putFree b p o) c.start := by
  intro c hc
  unfold Flagged
  rw [pages_putFree]
  cases (listed_putSeq ho).mp hc with
  | inl h => simp [h]
  | inr h =>
      have hne : c.start ≠ p := fun e => hp _ ((hH c.order).mpr h.1) (e ▸ h.2)
      rw [if_neg hne]
      exact hlinked c h

/-- One round of the loop, with the block behind: that block leaves its list, the block at hand
grows over it, and the flags of all blocks that are still listed are as they were. -/
theorem Merging.next (hM : Merging H b₀ seq₀ p₀ b seq p o) (hH : HasFreelists H)
    (hq : Listed seq ⟨p + 2 ^ o, r⟩) :
    Merging H b₀ seq₀ p₀ (mergeNext b (p + 2 ^ o)) (dropSeq seq (p + 2 ^ o) r) p (o + 1) := by
  have hdrop := fun c => listed_dropSeq (q := p + 2 ^ o) (r := r) (c := c) hH hM.rep
  refine ⟨hM.rep.mergeNext ((hH r).mpr hq.1) hq.2, fun x hxp hx => ?_,
    fun h hh hm => hM.unlisted h hh (mem_of_mem_dropSeq hm), fun x hx => ?_,
    fun c hc => hM.sub c ((hdrop c).mp hc).1, fun c hc => ?_, ?_, fun h hne => ?_⟩
  · -- A page with both flags is not the one whose flag was cleared.
    unfold Flagged at hx
    rw [pages_mergeNext] at hx
    by_cases e : x = p + 2 ^ o
    · simp [e] at hx
    · rw [if_neg e] at hx
      obtain ⟨k, hk⟩ := hM.flagged x hxp hx
      exact ⟨k, (hdrop _).mpr ⟨hk, fun h => e (Block.mk.inj h).1⟩⟩
  · have hne : x ≠ p + 2 ^ o := fun e => hx (claim_subset_next (e ▸ Block.start_mem ⟨_, o⟩))
    rw [pages_mergeNext, if_neg hne]
    exact hM.flags x fun h => hx (frames_subset_next h)
  · by_cases e : c = ⟨p + 2 ^ o, r⟩
    · exact Or.inr (claim_subset_next (e ▸ Block.start_mem ⟨_, o⟩))
    · exact (hM.gone c hc).imp (fun h => (hdrop c).mpr ⟨h, e⟩) frames_subset_next
  · exact hM.origin.imp_right fun ⟨k, h1, h2⟩ => ⟨k, h1, fun h => h2 ((hdrop _).mp h).1⟩
  · exact (Function.update_of_ne (hne r) _ _).trans (hM.other h hne)

/-- One round of the loop, with the block in front: that block leaves its list and becomes the
block at hand, and the flags of all blocks that are still listed are as they were. -/
theorem Merging.prev (hM : Merging H b₀ seq₀ p₀ b seq p o) (hH : HasFreelists H)
    (hq : Listed seq ⟨p - 2 ^ o, r⟩) :
    Merging H b₀ seq₀ p₀ (mergePrev b p (p - 2 ^ o)) (dropSeq seq (p - 2 ^ o) r)
      (p - 2 ^ o) (o + 1) := by
  have hdrop := fun c => listed_dropSeq (q := p - 2 ^ o) (r := r) (c := c) hH hM.rep
  refine ⟨hM.rep.mergePrev ((hH r).mpr hq.1) hq.2, fun x hxq hx => ?_,
    unlisted_dropSeq hH hM.rep hq, fun x hx => ?_,
    fun c hc => hM.sub c ((hdrop c).mp hc).1, fun c hc => ?_, ?_, fun h hne => ?_⟩
  · unfold Flagged at hx
    rw [pages_mergePrev] at hx
    by_cases e : x = p
    · simp [e] at hx
    · rw [if_neg e] at hx
      obtain ⟨k, hk⟩ := hM.flagged x e hx
      exact ⟨k, (hdrop _).mpr ⟨hk, fun h => hxq (Block.mk.inj h).1⟩⟩
  · have hne : x ≠ p := fun e => hx (frames_subset_prev (e ▸ Block.start_mem ⟨p, o⟩))
    rw [pages_mergePrev, if_neg hne]
    exact hM.flags x fun h => hx (frames_subset_prev h)
  · by_cases e : c = ⟨p - 2 ^ o, r⟩
    · exact Or.inr (claim_subset_prev (e ▸ Block.start_mem ⟨_, o⟩))
    · exact (hM.gone c hc).imp (fun h => (hdrop c).mpr ⟨h, e⟩) frames_subset_prev
  · exact Or.inr ⟨r, hM.sub _ hq, fun h => ((hdrop _).mp h).2 rfl⟩
  · exact (Function.update_of_ne (hne r) _ _).trans (hM.other h hne)

/-- The state before the first round: the block at hand is the freed one, on no list, and every
other flagged page heads a listed block. -/
theorem Merging.start (hr : Rep H b.links seq)
    (hfl : ∀ q, q ≠ p → Flagged b q → ∃ k, Listed seq ⟨q, k⟩)
    (hp : ∀ h ∈ H, p ∉ seq h) : Merging H b seq p b seq p o where
  rep := hr
  flagged := hfl
  unlisted := hp
  flags _ _ := ⟨rfl, rfl⟩
  sub _ hc := hc
  gone _ hc := Or.inl hc
  origin := Or.inl rfl
  other _ _ := rfl

/-- The rule for a call of `free_pages`: what holds at the start and is kept by a merge with either
neighbour holds when the loop ends, together with the fact that no neighbour passes the test any
more. -/
theorem free_induct (mapped : Int → Bool) (hH : HasFreelists H) {k : Nat} (hk : k < MAX_PAGE_ORDER)
    (hM : Merging H b₀ seq₀ p₀ b₀ seq₀ p₀ k)
    {R : Buddy → (Head → List Int) → Int → Nat → Prop} (hR : R b₀ seq₀ p₀ k)
    (hnext : ∀ b seq p o r, o < MAX_PAGE_ORDER - 1 → Merging H b₀ seq₀ p₀ b seq p o →
      mergeable mapped b₀ (p + 2 ^ o) = true → Listed seq ⟨p + 2 ^ o, r⟩ →
      R b seq p o → R (mergeNext b (p + 2 ^ o)) (dropSeq seq (p + 2 ^ o) r) p (o + 1))
    (hprev : ∀ b seq p o r, o < MAX_PAGE_ORDER - 1 → Merging H b₀ seq₀ p₀ b seq p o →
      mergeable mapped b₀ (p + 2 ^ o) = false → mergeable mapped b₀ (p - 2 ^ o) = true →
      Listed seq ⟨p - 2 ^ o, r⟩ → R b seq p o →
      R (mergePrev b p (p - 2 ^ o)) (dropSeq seq (p - 2 ^ o) r) (p - 2 ^ o) (o + 1)) :
    ∃ b seq p o, freePages mapped b₀ (some p₀) k = putFree b p o ∧
      Merging H b₀ seq₀ p₀ b seq p o ∧ R b seq p o ∧ k ≤ o ∧ o < MAX_PAGE_ORDER ∧
      (o < MAX_PAGE_ORDER - 1 →
        mergeable mapped b₀ (p + 2 ^ o) = false ∧ mergeable mapped b₀ (p - 2 ^ o) = false) := by
  -- A neighbour that passes the test is on a list, so the merge unlinks it.
  have hlisted : ∀ {b seq p o q}, Merging H b₀ seq₀ p₀ b seq p o → q ≠ p →
      mergeable mapped b q = true → ∃ r, Listed seq ⟨q, r⟩ := fun hM hne hq =>
    hM.flagged _ hne (mergeable_iff.mp hq).2
  obtain ⟨b, p, o, hc, ⟨seq, hM', hR'⟩, hko, ho, hexit⟩ :=
    combine_induct mapped
      (I := fun b p o => ∃ seq, Merging H b₀ seq₀ p₀ b seq p o ∧ R b seq p o)
      (fun b p o ho ⟨seq, hM, hR⟩ hn => by
        have hne : p + 2 ^ o ≠ p := by have := Block.two_pow_pos o; omega
        obtain ⟨r, hr⟩ := hlisted hM hne hn
        rw [hM.mergeable_eq next_not_mem] at hn
        exact ⟨_, hM.next hH hr, hnext b seq p o r ho hM hn hr hR⟩)
      (fun b p o ho ⟨seq, hM, hR⟩ hn hp => by
        have hne : p - 2 ^ o ≠ p := by have := Block.two_pow_pos o; omega
        obtain ⟨r, hr⟩ := hlisted hM hne hp
        rw [hM.mergeable_eq next_not_mem] at hn
        rw [hM.mergeable_eq prev_not_mem] at hp
        exact ⟨_, hM.prev hH hr, hprev b seq p o r ho hM hn hp hr hR⟩)
      (MAX_PAGE_ORDER - 1 - k) b₀ p₀ k
      (by have : MAX_PAGE_ORDER = 11 := rfl; omega) ⟨seq₀, hM, hR⟩
  refine ⟨b, seq, p, o, freePages_eq hk hc, hM', hR', hko, ho, fun h => ?_⟩
  rw [← hM'.mergeable_eq next_not_mem, ← hM'.mergeable_eq prev_not_mem]
  exact hexit h

/-- The insertion that ends the call makes the block at hand a listed and flagged one, like the
others. -/
theorem Merging.putFree (hM : Merging H b₀ seq₀ p₀ b seq p o) (hH : HasFreelists H)
    (ho : o < MAX_PAGE_ORDER) :
    Rep H (putFree b p o).links (putSeq seq p o) ∧
      ∀ q, Flagged (putFree b p o) q → ∃ k, Listed (putSeq seq p o) ⟨q, k⟩ := by
  refine ⟨hM.rep.putFree ((hH o).mpr ho) hM.unlisted, fun q hq => ?_⟩
  by_cases e : q = p
  · exact ⟨o, (listed_putSeq ho).mpr (Or.inl (by rw [e]))⟩
  · unfold Flagged at hq
    rw [pages_putFree, if_neg e] at hq
    obtain ⟨k, hk⟩ := hM.flagged q e hq
    exact ⟨k, (listed_putSeq ho).mpr (Or.inr hk)⟩

/-! ### The frames that are claimed -/

/-- When the neighbour behind can be merged, it is taken, and the loop goes on with the block that
starts where it did. -/
theorem takes_next {n : Nat} (h : mergeable mapped b (p + 2 ^ o) = true) :
    takes mapped b (n + 1) p o = ⟨p + 2 ^ o, o⟩ :: takes mapped b n p (o + 1) := if_pos h

/-- When only the neighbour in front can be merged, it is taken, and the loop goes on from its
start. -/
theorem takes_prev {n : Nat} (hn : mergeable mapped b (p + 2 ^ o) = false)
    (hp : mergeable mapped b (p - 2 ^ o) = true) :
    takes mapped b (n + 1) p o
      = ⟨p - 2 ^ o, o⟩ :: takes mapped b n (p - 2 ^ o) (o + 1) := by
  simp [takes, hn, hp]

/-- When neither neighbour can be merged, or the largest order is reached, nothing
more is taken. -/
theorem takes_stop (h : o < MAX_PAGE_ORDER - 1 →
      mergeable mapped b (p + 2 ^ o) = false ∧ mergeable mapped b (p - 2 ^ o) = false) :
    takes mapped b (MAX_PAGE_ORDER - 1 - o) p o = [] := by
  cases hn : MAX_PAGE_ORDER - 1 - o with
  | zero => rfl
  | succ n =>
      obtain ⟨h1, h2⟩ := h (by omega)
      simp [takes, h1, h2]

/-- Two free blocks that start together are one, since they have their first frame in common. -/
theorem Tidy.eq_of_start {out : List Block} {c d : Block} (ht : Tidy seq out) (hc : Listed seq c)
    (hd : Listed seq d) (h : c.start = d.start) : c = d := by
  by_contra hne
  exact Block.not_apart_of_start_mem (h ▸ c.start_mem) (ht.freeApart c d hc hd hne)

/-- The outstanding and the free blocks stay apart from each other: the loop
only takes blocks off the lists. -/
theorem Merging.tidy (hM : Merging H b₀ seq₀ p₀ b seq p o) {out : List Block}
    (ht : Tidy seq₀ out) : Tidy seq out where
  outApart := ht.outApart
  freeApart c d hc hd hne := ht.freeApart c d (hM.sub c hc) (hM.sub d hd) hne
  between c hc d hd := ht.between c hc d (hM.sub d hd)

/-- No other block contains the first frame of the block at hand: that frame
was the start of the freed block or of a block it was merged with. -/
theorem Merging.start_not_mem (hM : Merging H b₀ seq₀ p₀ b seq p o) {out : List Block}
    {k : Nat} (ht : Tidy seq₀ (⟨p₀, k⟩ :: out)) {c : Block}
    (hc : c ∈ out ∨ Listed seq c) : p ∉ c.frames := by
  intro hp
  have hapart : ∃ r, c.Apart ⟨p, r⟩ := by
    rcases hM.origin with rfl | ⟨r, hr, hnot⟩
    · refine ⟨k, ?_⟩
      rcases hc with hc | hc
      · exact Block.apart_comm.mp ((List.pairwise_cons.mp ht.outApart).1 c hc)
      · exact Block.apart_comm.mp (ht.between _ List.mem_cons_self c (hM.sub c hc))
    · refine ⟨r, ?_⟩
      rcases hc with hc | hc
      · exact ht.between c (List.mem_cons_of_mem _ hc) _ hr
      · exact ht.freeApart c _ (hM.sub c hc) hr fun e => hnot (e ▸ hc)
  obtain ⟨r, hr⟩ := hapart
  exact Block.not_apart_of_start_mem hp hr

end Loop

/-! ### A call on an outstanding block -/

section Call

variable {H : Set Head} {b : Buddy} {seq : Head → List Int} {out : List Block} {p : Int} {k : Nat}

/-- The freed block and the blocks that stay outstanding. -/
theorem BuddyInv.tidy_erase (hI : BuddyInv H b seq out) (hmem : ⟨p, k⟩ ∈ out) :
    Tidy seq (⟨p, k⟩ :: out.erase ⟨p, k⟩) := by
  have hperm : out.Perm (⟨p, k⟩ :: out.erase ⟨p, k⟩) := List.perm_cons_erase hmem
  exact ⟨hI.tidy.outApart.perm hperm fun h => Block.apart_comm.mp h, hI.tidy.freeApart,
    fun c hc => hI.tidy.between c (hperm.mem_iff.mpr hc)⟩

/-- The loop starts with the freed block, which is on none of the lists. -/
theorem BuddyInv.merging (hI : BuddyInv H b seq out) (hH : HasFreelists H)
    (hmem : ⟨p, k⟩ ∈ out) (hother : ∀ h ∈ H, (∀ k, h ≠ .freelist k) → p ∉ seq h) :
    Merging H b seq p b seq p k := by
  refine Merging.start hI.rep (fun q _ hq => hI.flagged q hq) fun h hh hp => ?_
  by_cases hfl : ∃ j, h = .freelist j
  · obtain ⟨j, rfl⟩ := hfl
    have hap := hI.tidy.between _ hmem ⟨p, j⟩ ⟨(hH j).mp hh, hp⟩
    exact Block.not_apart_of_start_mem (c := ⟨p, j⟩) (Block.start_mem ⟨p, k⟩) hap
  · exact hother h hh (fun j hj => hfl ⟨j, hj⟩) hp

end Call

end SumiOS
