import SumiOS.Proofs.Slub.Objects

/-!
# `SumiOS.Proofs.Kernel.Frames`: no frame gets lost

The frames of a pool are those of its free blocks, of the blocks that clients hold and of the
blocks of the caches (`Pool.frames`). A block that is split is what is handed out and the halves
that are put back (`Pool.frames_take`), and a cache keeps the blocks that it takes
(`Pool.frames_alloc`). So no step loses a frame (`Pool.frames_step`). That no frame is there
twice is a part of `BlockInv`.
-/

set_option autoImplicit false

namespace SumiOS

open Lib

/-- The frames of the blocks that are free or in use. -/
def Pool.frames (P : Pool) (blocks : List Block) : Set Int :=
  { x | ∃ c, (c ∈ P.out blocks ∨ Listed P.seq c) ∧ x ∈ c.frames }

section Frames

variable {P P' : Pool} {blocks blocks' : List Block} {seq : Head → List Int} {ps : List Int}
  {c : Block} {i j k n : Nat} {p x : Int} {y sz : Word} {r r' : Pool × List Answer}

/-- A block of order 0 is one frame, its start. -/
theorem frames_page (p : Int) : x ∈ (Block.mk p 0).frames ↔ x = p := by
  rw [Block.mem_frames, pow_zero]
  show p ≤ x ∧ x < p + 1 ↔ x = p
  omega

/-- A frame of a free block is in the block that is handed out, or in one that is free after
the split. -/
theorem frames_splitSeq (hkj : k ≤ j) (hj : j < MAX_PAGE_ORDER) (hps : seq (.freelist j) = p :: ps)
    (hc : Listed seq c) (hx : x ∈ c.frames) :
    x ∈ (Block.mk p k).frames ∨ ∃ d, Listed (splitSeq seq p k j) d ∧ x ∈ d.frames := by
  by_cases e : c = ⟨p, j⟩
  · rw [e] at hx
    cases (Block.mem_frames_split hkj).mp hx with
    | inl hfirst => exact Or.inl hfirst
    | inr hhalf =>
        obtain ⟨m, hkm, hmj, hx⟩ := hhalf
        refine Or.inr ⟨⟨p + 2 ^ m, m⟩, ⟨hmj.trans hj, ?_⟩, hx⟩
        show p + 2 ^ m ∈ splitSeq seq p k j (.freelist m)
        rw [splitSeq, putBackSeq, if_pos ⟨hkm, hmj⟩]
        exact List.mem_cons_self
  · refine Or.inr ⟨c, ⟨hc.1, ?_⟩, hx⟩
    -- The block stays on its list.
    have hstay : c.start ∈ Function.update seq (.freelist j) (seq (.freelist j)).tail
        (.freelist c.order) := by
      by_cases ho : c.order = j
      · rw [ho, Function.update_self, hps]
        have hmem := hc.2
        rw [ho, hps, List.mem_cons] at hmem
        refine hmem.resolve_left fun hp => e ?_
        rw [← hp, ← ho]
      · rw [Function.update_of_ne fun h => ho (Head.freelist.inj h)]
        exact hc.2
    rw [splitSeq, putBackSeq]
    split
    · exact List.mem_cons_of_mem _ hstay
    · exact hstay

/-- What `alloc_pages` does on the pool: nothing when no free block is large enough, and a split
otherwise. -/
theorem Pool.take_cases (P : Pool) (k : Nat) :
    (P.take k = (P, none) ∧ ∀ c, Listed P.seq c → c.order < k) ∨
      ∃ j p ps, k ≤ j ∧ j < MAX_PAGE_ORDER ∧ P.seq (.freelist j) = p :: ps ∧
        P.take k = (P.relist (splitSeq P.seq p k j), some p) := by
  rw [Pool.take]
  cases hfit : P.firstFit k with
  | none =>
      refine Or.inl ⟨rfl, fun c hc => ?_⟩
      have hempty := List.find?_eq_none.mp hfit c.order (List.mem_range.mpr hc.1)
      by_contra hle
      rw [decide_eq_true (Nat.not_lt.mp hle), Bool.true_and, Bool.not_eq_true', Bool.not_eq_false,
        List.isEmpty_iff] at hempty
      have hmem := hc.2
      rw [hempty] at hmem
      exact absurd hmem List.not_mem_nil
  | some j =>
      have hj := List.mem_range.mp (List.mem_of_find?_eq_some hfit)
      have hfound := List.find?_some hfit
      rw [Bool.and_eq_true, decide_eq_true_eq] at hfound
      cases hps : P.seq (.freelist j) with
      | nil =>
          rw [hps] at hfound
          exact absurd hfound.2 (by decide)
      | cons p ps =>
          refine Or.inr ⟨j, p, ps, hfound.1, hj, hps, ?_⟩
          simp only [hps]

/-- A block that is handed out takes no other frame away: the halves that are split off stay free,
and the rest is held now. -/
theorem Pool.frames_take (h : P.take k = (P', some p)) :
    P.frames blocks ⊆ P'.frames (⟨p, k⟩ :: blocks) := by
  rcases P.take_cases k with ⟨hnone, -⟩ | ⟨j, q, ps, hkj, hj, hps, hsome⟩
  · rw [hnone] at h
    cases h
  · rw [hsome] at h
    obtain ⟨rfl, hq⟩ := Prod.mk.inj h
    obtain rfl := Option.some.inj hq
    intro x hx
    obtain ⟨c, hc, hx⟩ := hx
    cases hc with
    | inl hout => exact ⟨c, Or.inl (List.mem_cons_of_mem _ hout), hx⟩
    | inr hlisted =>
        cases frames_splitSeq hkj hj hps hlisted hx with
        | inl hfirst => exact ⟨⟨q, k⟩, Or.inl List.mem_cons_self, hfirst⟩
        | inr hrest =>
            obtain ⟨d, hd, hx⟩ := hrest
            exact ⟨d, Or.inr hd, hx⟩

/-- When no block is found, the pool stays as it is. -/
theorem Pool.take_none (h : P.take k = (P', none)) : P' = P := by
  rcases P.take_cases k with ⟨hnone, -⟩ | ⟨j, q, ps, -, -, -, hsome⟩
  · exact (Prod.mk.inj (h.symm.trans hnone)).1
  · exact absurd (h.symm.trans hsome) (by simp)

/-- `alloc_pages` fails exactly when no free block is large enough. -/
theorem Pool.take_eq_none_iff : (P.take k).2 = none ↔ ∀ c, Listed P.seq c → c.order < k := by
  rcases P.take_cases k with ⟨hnone, hsmall⟩ | ⟨j, q, ps, hkj, hj, hps, hsome⟩
  · rw [hnone]
    exact iff_of_true rfl hsmall
  · rw [hsome]
    refine iff_of_false (by simp) fun hall => ?_
    have hlt := hall ⟨q, j⟩ ⟨hj, by rw [hps]; exact List.mem_cons_self⟩
    exact absurd hkj (Nat.not_le.mpr hlt)

/-- Frames are a matter of the free lists and of the blocks of the caches. -/
theorem Pool.frames_congr (hseq : ∀ k, P'.seq (.freelist k) = P.seq (.freelist k))
    (hslubs : P'.slubs = P.slubs) : P'.frames blocks = P.frames blocks := by
  unfold Pool.frames Pool.out Listed
  simp only [hseq, hslubs]

/-- Retiring a slub moves no frame: the slub is held by its cache before and after. -/
theorem Pool.frames_retire : (P.retire i).frames blocks = P.frames blocks :=
  Pool.frames_congr (Pool.retire_freelist P i) (Pool.retire_slubs P i)

/-- `kmem_cache_alloc` on the pool, round by round, loses no frame: a block that leaves the free
lists becomes a block of the cache. -/
theorem Pool.frames_alloc (h : Pool.alloc i n P = some (P', y)) :
    P.frames blocks ⊆ P'.frames blocks := by
  induction n generalizing P with
  | zero => cases h
  | succ n ih =>
      rw [Pool.alloc] at h
      split at h
      · obtain ⟨rfl, -⟩ := Prod.mk.inj (Option.some.inj h)
        exact fun x hx => hx
      · rw [← Pool.frames_retire (P := P) (i := i)]
        split at h
        · rename_i htake
          obtain ⟨rfl, -⟩ := Prod.mk.inj (Option.some.inj h)
          rw [Pool.take_none htake]
        · rename_i P₁ p htake
          refine fun x hx => ih h ?_
          -- The block that was taken is one of the cache.
          have hkept : (P.retire i).frames blocks ⊆ _ := Pool.frames_take htake
          obtain ⟨c, hc, hx⟩ := hkept hx
          refine ⟨c, hc.imp_left fun hout => ?_, hx⟩
          exact List.perm_middle.mem_iff.mpr hout

/-- No step loses a frame: what a client gets was free, and it is counted among the blocks that are
held from then on. -/
theorem Pool.frames_step {op : ClientOp} (h : Pool.step r op = some r') :
    r.1.frames (heldBlocks r.2) ⊆ r'.1.frames (heldBlocks r'.2) := by
  cases op with
  | kmalloc sz =>
      obtain ⟨t, ht, rfl⟩ := Option.map_eq_some_iff.mp h
      rw [Pool.kmalloc] at ht
      split at ht
      · rw [Option.some.injEq] at ht
        rw [← ht]
        exact fun x hx => hx
      · split at ht
        · cases ht
        · exact Pool.frames_alloc ht
  | allocPages order =>
      rw [Pool.step, Option.some.injEq] at h
      rw [← h]
      cases htake : r.1.take order with
      | mk P' p =>
          cases p with
          | none =>
              rw [Pool.take_none htake]
              exact fun x hx => hx
          | some p => exact Pool.frames_take htake
  | write a v =>
      obtain rfl := Option.some.inj h
      exact fun x hx => hx

/-- The frames of a pool do not depend on the order in which the blocks are named. -/
theorem Pool.frames_perm (h : blocks.Perm blocks') : P.frames blocks ⊆ P.frames blocks' := by
  intro x hx
  obtain ⟨c, hc, hx⟩ := hx
  exact ⟨c, hc.imp_left (h.append_right _).mem_iff.mp, hx⟩

/-- The clients and the caches have the frames of `ram`, all of them. -/
structure Heap.Owns (ram : Set Int) (h : Heap) (P : Pool) : Prop extends h.Simulates ram P where
  covers : ram ⊆ P.frames (heldBlocks h.answers)

/-- A step of a client keeps what the allocators own, with the pool making the same step. -/
theorem Heap.Owns.step {ram : Set Int} {h h' : Heap} {op : ClientOp} (ho : h.Owns ram P)
    (hstep : h.step op = some h') :
    ∃ P', Pool.step (P, h.answers) op = some (P', h'.answers) ∧ h'.Owns ram P' := by
  obtain ⟨P', hpool, hs'⟩ := ho.toSimulates.step hstep
  exact ⟨P', hpool, hs', ho.covers.trans (Pool.frames_step hpool)⟩

end Frames

end SumiOS
