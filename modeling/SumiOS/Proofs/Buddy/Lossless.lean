import SumiOS.Proofs.Buddy.Exclusive

/-!
# `SumiOS.Proofs.Buddy.Lossless`: no frame is lost

When a merge takes the head of a block that is larger than `2 ^ order` frames,
that block is off the lists, but only its first `2 ^ order` frames are part of
the merged block. `KeepsWhole` says of a call that this does not happen to
frames of the run that was freed in the beginning.

Among the runs in which no frame gets two owners, the ones that never lose a
frame are exactly those whose calls all keep blocks whole
(`lossless_iff_keepsWhole`). For one direction the loop keeps every frame in
some block or in the block at hand (`Keeping`). For the other, the block at
hand ends inside the block that was cut, where no block starts, so no later
merge claims the rest (`Losing`).
-/

set_option autoImplicit false

namespace SumiOS

open Lib

/-- Some block owns the frame: an outstanding one or a free one. -/
def OwnedFrame (s : Sys) (y : Int) : Prop :=
  ∃ c, (c ∈ s.outstanding ∨ FreeBlock s.buddy c) ∧ y ∈ c.frames

/-- Every frame of the run that was freed in the beginning has an owner. -/
def Lossless (start : Int) (n : Nat) (s : Sys) : Prop :=
  ∀ y, start ≤ y → y < start + n → OwnedFrame s y

/-- Every frame of the run that a block taken by a merge has is among the frames
that the merge claims. -/
def KeepsWhole (mapped : Int → Bool) (start : Int) (n : Nat) (s : Sys) : Call → Prop
  | .alloc _ => True
  | .free p order =>
      ∀ t ∈ claimed mapped s.buddy p order, ∀ r, FreeBlock s.buddy ⟨t.start, r⟩ →
        ∀ y ∈ (Block.mk t.start r).frames, start ≤ y → y < start + n → y ∈ t.frames

section

variable {mapped : Int → Bool} {H : Set Head} {start : Int} {n : Nat} {b : Buddy}
  {seq : Head → List Int} {out : List Block} {y : Int}

/-- `KeepsWhole` for one claim, on the sequences. -/
def Whole (start : Int) (n : Nat) (seq : Head → List Int) (t : Block) : Prop :=
  ∀ r, Listed seq ⟨t.start, r⟩ → ∀ y ∈ (Block.mk t.start r).frames,
    start ≤ y → y < start + n → y ∈ t.frames

/-- The condition in terms of the representing sequences: each merge takes a whole free block. -/
theorem keepsWhole_iff {p : Int} {k : Nat} (hH : HasFreelists H) (hr : Rep H b.links seq) :
    KeepsWhole mapped start n ⟨b, out⟩ (.free p k) ↔
      ∀ t ∈ claimed mapped b p k, Whole start n seq t := by
  refine forall₂_congr fun t _ => forall_congr' fun r => ?_
  rw [freeBlock_iff hH hr]

/-- The owners of a frame, on the sequences: an outstanding block or a listed one that
it lies in. -/
theorem ownedFrame_iff (hH : HasFreelists H) (hr : Rep H b.links seq) :
    OwnedFrame ⟨b, out⟩ y ↔ ∃ c, (c ∈ out ∨ Listed seq c) ∧ y ∈ c.frames := by
  refine exists_congr fun c => ?_
  rw [freeBlock_iff hH hr]

/-- An allocation gives every frame of the block it splits a new owner, the client or one of the
lists that get the halves, and leaves all other frames where they are. -/
theorem BuddyInv.alloc_lossless {s s' : Sys} {k : Nat}
    (hI : BuddyInv H s.buddy seq s.outstanding) (hH : HasFreelists H)
    (hs : step mapped s (.alloc k) = some s') (hy : OwnedFrame s y) : OwnedFrame s' y := by
  rcases hI.step_alloc hH hs with ⟨rfl, -⟩ | ⟨j, p, ps, hkj, hj, hps, hout, -, hI'⟩
  · exact hy
  · obtain ⟨c, hc, hyc⟩ := (ownedFrame_iff hH hI.rep).mp hy
    refine (ownedFrame_iff hH hI'.rep).mpr ?_
    have hlist := fun c => listed_splitSeq (k := k) (c := c) hH hI.rep hj hps
    rw [hout]
    rcases hc with hc | hc
    · exact ⟨c, Or.inl (List.mem_cons_of_mem _ hc), hyc⟩
    · by_cases e : c = ⟨p, j⟩
      · rw [e, Block.mem_frames_split hkj] at hyc
        rcases hyc with hyc | ⟨i, h1, h2, hyc⟩
        · exact ⟨_, Or.inl List.mem_cons_self, hyc⟩
        · exact ⟨_, Or.inr ((hlist _).mpr (Or.inr ⟨i, h1, h2, rfl⟩)), hyc⟩
      · exact ⟨c, Or.inr ((hlist c).mpr (Or.inl ⟨hc, e⟩)), hyc⟩

/-- Nothing is lost on the way: every frame of the run is in another block or in
the block at hand, and the claims that are still to come keep blocks whole. -/
structure Keeping (mapped : Int → Bool) (start : Int) (n : Nat) (b₀ : Buddy)
    (seq₀ : Head → List Int) (out : List Block) (seq : Head → List Int) (p : Int) (o : Nat) :
    Prop where
  owned : ∀ y, start ≤ y → y < start + n →
    (∃ c, (c ∈ out ∨ Listed seq c) ∧ y ∈ c.frames) ∨ y ∈ (Block.mk p o).frames
  ahead : ∀ t ∈ takes mapped b₀ (MAX_PAGE_ORDER - 1 - o) p o, Whole start n seq₀ t

/-- The frame `y` is lost: a claim that is still to come cuts it off, or it is
behind the block at hand in a block that was cut. -/
inductive Losing (mapped : Int → Bool) (start : Int) (n : Nat) (b₀ : Buddy)
    (seq₀ : Head → List Int) (seq : Head → List Int) (p : Int) (o : Nat) : Prop
  | ahead (t : Block) (ht : t ∈ takes mapped b₀ (MAX_PAGE_ORDER - 1 - o) p o)
      (hun : ¬ Whole start n seq₀ t)
  | cut (c : Block) (y : Int) (hc : Listed seq₀ c) (hgone : ¬ Listed seq c)
      (hend : c.start < p + 2 ^ o ∧ p + 2 ^ o ≤ y) (hy : y ∈ c.frames)
      (hrun : start ≤ y ∧ y < start + n)

section Merge

variable {b₀ : Buddy} {seq₀ : Head → List Int} {p₀ p : Int} {k o r : Nat}

/-- One merge, when blocks are kept whole: the claimed frames are those of the block that is
unlinked, so that the block at hand has gained exactly what left the lists. -/
theorem Keeping.merge (hM : Merging H b₀ seq₀ p₀ b seq p o) (hH : HasFreelists H)
    {q p' : Int} (hlist : Listed seq ⟨q, r⟩) (hq : Neighbour q p o p')
    (htake : NextTake mapped b₀ q p o p') (hK : Keeping mapped start n b₀ seq₀ out seq p o) :
    Keeping mapped start n b₀ seq₀ out (dropSeq seq q r) p' (o + 1) := by
  have hdrop := fun c => listed_dropSeq (q := q) (r := r) (c := c) hH hM.rep
  have hahead := hK.ahead
  rw [htake] at hahead
  refine ⟨fun y h1 h2 => ?_, fun t ht => hahead t (List.mem_cons_of_mem _ ht)⟩
  have hgrow : ∀ x, x ∈ (Block.mk p o).frames ∨ x ∈ (Block.mk q o).frames →
      x ∈ (Block.mk p' (o + 1)).frames := by
    intro x hx
    rcases hq with ⟨rfl, rfl⟩ | ⟨rfl, rfl⟩
    · exact hx.elim frames_subset_next claim_subset_next
    · exact hx.elim frames_subset_prev claim_subset_prev
  rcases hK.owned y h1 h2 with ⟨c, hc, hyc⟩ | hy
  · by_cases e : c = ⟨q, r⟩
    · subst e
      exact Or.inr (hgrow y (Or.inr
        (hahead _ List.mem_cons_self r (hM.sub _ hlist) y hyc h1 h2)))
    · exact Or.inl ⟨c, hc.imp_right fun h => (hdrop c).mpr ⟨h, e⟩, hyc⟩
  · exact Or.inr (hgrow y (Or.inl hy))

/-- No block starts behind the block at hand when a block was cut there. -/
theorem Losing.not_next (ht : Tidy seq₀ (⟨p₀, k⟩ :: out)) {c : Block} {y : Int}
    (hc : Listed seq₀ c) (hend : c.start < p + 2 ^ o ∧ p + 2 ^ o ≤ y) (hy : y ∈ c.frames) :
    ¬ Listed seq₀ ⟨p + 2 ^ o, r⟩ := by
  intro hl
  rw [Block.mem_frames] at hy
  have hmem : (Block.mk (p + 2 ^ o) r).start ∈ c.frames := by
    rw [Block.mem_frames]
    show c.start ≤ p + 2 ^ o ∧ p + 2 ^ o < c.start + 2 ^ c.order
    omega
  have hne : c ≠ ⟨p + 2 ^ o, r⟩ := by
    rintro rfl
    exact absurd hend.1 (lt_irrefl _)
  exact Block.not_apart_of_start_mem hmem (ht.freeApart c _ hc hl hne)

/-- One merge, when something is lost: a cut that is still ahead either comes with this merge or
stays ahead, and a frame that was lost before it is in no block after it either. -/
theorem Losing.merge (hM : Merging H b₀ seq₀ p₀ b seq p o) (hH : HasFreelists H)
    (ht : Tidy seq₀ (⟨p₀, k⟩ :: out)) {q p' : Int} (hlist : Listed seq ⟨q, r⟩)
    (hq : Neighbour q p o p') (htake : NextTake mapped b₀ q p o p')
    (hL : Losing mapped start n b₀ seq₀ seq p o) :
    Losing mapped start n b₀ seq₀ (dropSeq seq q r) p' (o + 1) := by
  have hdrop := fun c => listed_dropSeq (q := q) (r := r) (c := c) hH hM.rep
  have hpos := Block.two_pow_pos o
  cases hL with
  | ahead t hmem hun =>
      rw [htake] at hmem
      rcases List.mem_cons.mp hmem with rfl | hmem
      · unfold Whole at hun
        push Not at hun
        obtain ⟨r', hr', y, hy, h1, h2, hout⟩ := hun
        obtain ⟨-, rfl⟩ := Block.mk.inj (ht.eq_of_start hr' (hM.sub _ hlist) rfl)
        -- The frame is in the block that is taken, behind the frames that are claimed of it.
        have hfrom : q ≤ y ∧ y < q + 2 ^ r' := hy
        have hpast : ¬ (q ≤ y ∧ y < q + 2 ^ o) := hout
        have hbehind : q + 2 ^ o ≤ y := by omega
        rcases hq with ⟨rfl, rfl⟩ | ⟨rfl, rfl⟩
        · refine .cut _ y hr' (fun h => ((hdrop _).mp h).2 rfl) ?_ hy ⟨h1, h2⟩
          rw [Block.two_pow_succ]
          show p' + 2 ^ o < p' + 2 * 2 ^ o ∧ p' + 2 * 2 ^ o ≤ y
          omega
        · -- A block in front of the block at hand ends there.
          have hstart := hM.start_not_mem ht (Or.inr hlist)
          rw [Block.mem_mk] at hstart
          omega
      · exact .ahead t hmem hun
  | cut c y hc hgone hend hy hrun =>
      rcases hq with ⟨rfl, rfl⟩ | ⟨rfl, rfl⟩
      · exact absurd (hM.sub _ hlist) (Losing.not_next ht hc hend hy)
      · -- The block at hand only grows to the front, away from the lost frame.
        refine .cut c y hc (fun h => hgone ((hdrop c).mp h).1) ?_ hy hrun
        rw [Block.two_pow_succ]
        omega

end Merge

/-- A call of `free_pages` that keeps blocks whole loses nothing: every frame stays in the block
that it was in, or goes over into the new one. -/
theorem BuddyInv.free_lossless {p : Int} {k : Nat} (hI : BuddyInv buddyHeads b seq out)
    (hmem : ⟨p, k⟩ ∈ out) (hL : Lossless start n ⟨b, out⟩)
    (hwhole : KeepsWhole mapped start n ⟨b, out⟩ (.free p k)) :
    Lossless start n ⟨freePages mapped b (some p) k, out.erase ⟨p, k⟩⟩ := by
  have hH := hasFreelists_buddyHeads
  have hperm : out.Perm (⟨p, k⟩ :: out.erase ⟨p, k⟩) := List.perm_cons_erase hmem
  have hstart : Keeping mapped start n b seq (out.erase ⟨p, k⟩) seq p k := by
    refine ⟨fun y h1 h2 => ?_, (keepsWhole_iff hH hI.rep).mp hwhole⟩
    obtain ⟨c, hc, hyc⟩ := (ownedFrame_iff hH hI.rep).mp (hL y h1 h2)
    rcases hc with hc | hc
    · rcases List.mem_cons.mp (hperm.mem_iff.mp hc) with rfl | hc
      · exact Or.inr hyc
      · exact Or.inl ⟨c, Or.inl hc, hyc⟩
    · exact Or.inl ⟨c, Or.inr hc, hyc⟩
  obtain ⟨b', seq', p', o', heq, hM, hK, -, ho, -⟩ :=
    free_induct mapped (R := fun _ seq' p' o' =>
        Keeping mapped start n b seq (out.erase ⟨p, k⟩) seq' p' o') hH (hI.small _ hmem)
      (hI.merging hH hmem buddyHeads_other) hstart
      (fun b' seq' p' o' r ho hM hn hq hK =>
        hK.merge hM hH hq (Or.inl ⟨rfl, rfl⟩) (nextTake_next ho hn))
      (fun b' seq' p' o' r ho hM hn hp hq hK =>
        hK.merge hM hH hq (Or.inr ⟨rfl, rfl⟩) (nextTake_prev ho hn hp))
  obtain ⟨hrep, -⟩ := hM.putFree hH ho
  have hput : ∀ c, Listed (putSeq seq' p' o') c ↔ c = ⟨p', o'⟩ ∨ Listed seq' c :=
    fun c => listed_putSeq ho
  intro y h1 h2
  rw [heq, ownedFrame_iff hH hrep]
  -- A frame stays in its block, or is in the new one.
  rcases hK.owned y h1 h2 with ⟨c, hc, hyc⟩ | hy
  · exact ⟨c, hc.imp_right fun h => (hput c).mpr (Or.inr h), hyc⟩
  · exact ⟨_, Or.inr ((hput _).mpr (Or.inl rfl)), hy⟩

/-- A call of `free_pages` that cuts a block loses the rest of it: the cut block is unlinked, and
of its frames only the claimed ones are in the block that is put on a list. -/
theorem BuddyInv.not_lossless_free {p : Int} {k : Nat} (hI : BuddyInv buddyHeads b seq out)
    (hmem : ⟨p, k⟩ ∈ out) (hwhole : ¬ KeepsWhole mapped start n ⟨b, out⟩ (.free p k)) :
    ¬ Lossless start n ⟨freePages mapped b (some p) k, out.erase ⟨p, k⟩⟩ := by
  have hH := hasFreelists_buddyHeads
  have ht := hI.tidy_erase hmem
  rw [keepsWhole_iff hH hI.rep] at hwhole
  push Not at hwhole
  -- A block that is taken on the way sticks out of the claimed frames.
  obtain ⟨t, htmem, hun⟩ := hwhole
  obtain ⟨b', seq', p', o', heq, hM, hS, -, ho, hexit⟩ :=
    free_induct mapped (R := fun _ seq' p' o' =>
        Losing mapped start n b seq seq' p' o') hH (hI.small _ hmem)
      (hI.merging hH hmem buddyHeads_other) (.ahead t htmem hun)
      (fun b' seq' p' o' r ho hM hn hq hS =>
        hS.merge hM hH ht hq (Or.inl ⟨rfl, rfl⟩) (nextTake_next ho hn))
      (fun b' seq' p' o' r ho hM hn hp hq hS =>
        hS.merge hM hH ht hq (Or.inr ⟨rfl, rfl⟩) (nextTake_prev ho hn hp))
  obtain ⟨hrep, -⟩ := hM.putFree hH ho
  have hput : ∀ c, Listed (putSeq seq' p' o') c ↔ c = ⟨p', o'⟩ ∨ Listed seq' c :=
    fun c => listed_putSeq ho
  intro hL
  cases hS with
  | ahead t htmem hun =>
      -- The loop ends with nothing more to take, so the cut block was taken.
      rw [takes_stop hexit] at htmem
      exact List.not_mem_nil htmem
  | cut c y hc hgone hend hy hrun =>
      -- The rest of the cut block is in no block any more.
      have hown := hL y hrun.1 hrun.2
      rw [heq, ownedFrame_iff hH hrep] at hown
      obtain ⟨d, hd, hyd⟩ := hown
      have hdisj : ∀ d : Block, c.Apart d → y ∉ d.frames := fun d hap hyd => by
        rw [Block.apart_iff_disjoint, Set.disjoint_left] at hap
        exact hap hy hyd
      rcases hd with hd | hd
      · exact hdisj d (Block.apart_comm.mp (ht.between d (List.mem_cons_of_mem _ hd) c hc)) hyd
      · rcases (hput d).mp hd with rfl | hd
        · rw [Block.mem_mk] at hyd
          omega
        · exact hdisj d (ht.freeApart c d hc (hM.sub d hd) fun e => hgone (e ▸ hd)) hyd

end

/-- In a run from one contiguous run of frames in which no frame gets two
owners, no frame is ever lost exactly when every call keeps blocks whole. -/
theorem lossless_iff_keepsWhole (mapped : Int → Bool) (b : Buddy) (start : Int) (n : Nat)
    (hU : Untouched mapped b (frameRange start n)) (calls : List Call)
    (hrun : (run (step mapped) ⟨freeRange mapped b start n, []⟩ calls).isSome)
    (hswallow : Guarded (step mapped) (SwallowsNothing mapped)
      ⟨freeRange mapped b start n, []⟩ calls) :
    Always (step mapped) (Lossless start n) ⟨freeRange mapped b start n, []⟩ calls ↔
      Guarded (step mapped) (KeepsWhole mapped start n) ⟨freeRange mapped b start n, []⟩
        calls := by
  obtain ⟨seq, hT⟩ := freeRange_spec hU
  obtain ⟨s, hrun⟩ := Option.isSome_iff_exists.mp hrun
  have hfirst : Lossless start n ⟨freeRange mapped b start n, []⟩ := fun y h1 h2 => by
    obtain ⟨c, hc, hyc⟩ := (hT.covered y).mpr ⟨h1, h2⟩
    exact (ownedFrame_iff hasFreelists_buddyHeads hT.inv.rep).mpr ⟨c, Or.inr hc, hyc⟩
  refine always_iff_guarded (I := fun s => Kept buddyHeads s ∧ Lossless start n s)
    (fun s h => h.2) ?_ ?_ ⟨⟨seq, hT.inv⟩, hfirst⟩ hswallow hrun
  · -- An allocation only moves frames to its caller, and a free under the condition keeps them all.
    rintro s a s' ⟨hI, hL⟩ hD hC hs
    refine ⟨hI.call hD hs, ?_⟩
    obtain ⟨seq, hI⟩ := hI
    cases a with
    | alloc order => exact fun y h1 h2 => hI.alloc_lossless hasFreelists_buddyHeads hs (hL y h1 h2)
    | free p order =>
        obtain ⟨hmem, rfl⟩ := step_free_iff.mp hs
        exact hI.free_lossless hmem hL hC
  · -- Where the condition fails the call is a free, and a frame of the range is lost in it.
    rintro s a s' ⟨⟨seq, hI⟩, -⟩ - hC hs
    cases a with
    | alloc order => exact absurd trivial hC
    | free p order =>
        obtain ⟨hmem, rfl⟩ := step_free_iff.mp hs
        exact hI.not_lossless_free hmem hC

/-- A run of four frames. The first block comes back alone, and the second one is merged
with it. What such a run meets is decided by the claims of the two frees, and by the free
blocks in front of the second one. -/
theorem guarded_four {C : Sys → Call → Prop} (halloc : ∀ s k, C s (.alloc k))
    (hfirst : ∀ s, claimed (fun _ => true) s.buddy 0 0 = [] → C s (.free 0 0))
    (hsecond : ∀ s, claimed (fun _ => true) s.buddy 1 0 = [⟨0, 0⟩] → s.outstanding = [⟨1, 0⟩] →
      (∀ c, FreeBlock s.buddy c → c = ⟨0, 0⟩ ∨ c = ⟨2, 1⟩) → C s (.free 1 0)) :
    Guarded (step fun _ => true) C ⟨freeRange (fun _ => true) cleared 0 4, []⟩
      [.alloc 0, .alloc 0, .free 0 0, .free 1 0] := by
  have htwo : (run (step fun _ => true) ⟨freeRange (fun _ => true) cleared 0 4, []⟩
      [.alloc 0, .alloc 0]).map (fun s => claimed (fun _ => true) s.buddy 0 0) = some [] := by decide
  have hthree : (run (step fun _ => true) ⟨freeRange (fun _ => true) cleared 0 4, []⟩
      [.alloc 0, .alloc 0, .free 0 0]).map (fun s => (claimed (fun _ => true) s.buddy 1 0,
        s.outstanding, decide (HasLists s.buddy fun k => if k = 0 then [0] else
          if k = 1 then [2] else []))) = some ([⟨0, 0⟩], [⟨1, 0⟩], true) := by decide
  refine ⟨halloc _ _, fun s₁ h₁ => ⟨halloc _ _, fun s₂ h₂ => ⟨?_, fun s₃ h₃ =>
    ⟨?_, fun _ _ => trivial⟩⟩⟩⟩
  · rw [run_cons.mpr ⟨s₁, h₁, run_cons.mpr ⟨s₂, h₂, rfl⟩⟩] at htwo
    exact hfirst s₂ (Option.some.inj htwo)
  · rw [run_cons.mpr ⟨s₁, h₁, run_cons.mpr ⟨s₂, h₂, run_cons.mpr ⟨s₃, h₃, rfl⟩⟩⟩, Option.map_some,
      Option.some.injEq, Prod.mk.injEq, Prod.mk.injEq, decide_eq_true_iff] at hthree
    obtain ⟨hclaim, hout, hlists⟩ := hthree
    refine hsecond s₃ hclaim hout fun c hc => ?_
    obtain ⟨q, k⟩ := c
    obtain ⟨-, hq⟩ := hlists.freeBlock_iff.mp hc
    split_ifs at hq with h0 h1
    · exact Or.inl (by simp_all)
    · exact Or.inr (by simp_all)
    · exact absurd hq List.not_mem_nil

/-- In this run two blocks are split, two frames are handed out, and the second free merges
them again. No frame is lost. -/
theorem lossless_iff_keepsWhole_four :
    Always (step fun _ => true) (Lossless 0 4) ⟨freeRange (fun _ => true) cleared 0 4, []⟩
        [.alloc 0, .alloc 0, .free 0 0, .free 1 0] ∧
      (run (step fun _ => true) ⟨freeRange (fun _ => true) cleared 0 4, []⟩
        [.alloc 0, .alloc 0, .free 0 0, .free 1 0]).map
          (fun s => (s.outstanding, s.buddy.links.next (freelist 1))) = some ([], .page 0) := by
  refine ⟨(lossless_iff_keepsWhole _ cleared 0 4 (cleared_untouched _) _ (by decide)
    (guarded_four (fun _ _ => trivial) ?_ ?_)).mpr (guarded_four (fun _ _ => trivial) ?_ ?_),
    by decide⟩
  · intro s hclaim t ht
    rw [hclaim] at ht
    exact absurd ht List.not_mem_nil
  · intro s hclaim hout hfree t ht c hc
    rw [hclaim, List.mem_singleton] at ht
    subst ht
    rw [hout] at hc
    -- The only other free block is the one of the frames 2 and 3.
    rcases hc with hc | ⟨hc, hne⟩
    · exact absurd hc List.not_mem_nil
    · rcases hfree c hc with rfl | rfl
      · exact absurd rfl hne
      · rw [← Block.apart_iff_disjoint]
        unfold Block.Apart
        decide
  · intro s hclaim t ht
    rw [hclaim] at ht
    exact absurd ht List.not_mem_nil
  · intro s hclaim hout hfree t ht r hr y hy _ _
    rw [hclaim, List.mem_singleton] at ht
    subst ht
    rcases hfree _ hr with h | h
    · rwa [h] at hy
    · exact absurd (Block.mk.inj h).1 (by decide)

/-- Four frames. Frame 0 and the pair 2, 3 are handed out, the pair comes back,
then frame 1 is handed out and comes back: the merge takes frame 2 as a single
frame, and frame 3 is in no block. -/
theorem not_always_lossless :
    ¬ Always (step fun _ => true) (Lossless 0 4) ⟨freeRange (fun _ => true) cleared 0 4, []⟩
      [.alloc 0, .alloc 1, .free 2 1, .alloc 0, .free 1 0] := by
  intro h
  have hrun : (run (step fun _ => true) ⟨freeRange (fun _ => true) cleared 0 4, []⟩
      [.alloc 0, .alloc 1, .free 2 1, .alloc 0, .free 1 0]).map (fun s =>
        (decide (HasLists s.buddy fun k => if k = 1 then [1] else []), s.outstanding))
      = some (true, [⟨0, 0⟩]) := by decide
  obtain ⟨s, hs, heq⟩ := Option.map_eq_some_iff.mp hrun
  obtain ⟨hlists, hout⟩ := Prod.mk.inj heq
  obtain ⟨c, hc, hmem⟩ := h.last hs 3 (by decide) (by decide)
  rw [(of_decide_eq_true hlists).freeBlock_iff, hout] at hc
  rcases hc with hc | ⟨-, hc⟩
  · obtain rfl := List.mem_singleton.mp hc
    exact absurd (Block.mem_mk.mp hmem) (by decide)
  · by_cases e : c.order = 1
    · rw [if_pos e, List.mem_singleton] at hc
      rw [Block.mem_frames, e, hc] at hmem
      exact absurd hmem (by decide)
    · rw [if_neg e] at hc
      exact absurd hc List.not_mem_nil

end SumiOS
