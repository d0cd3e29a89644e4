import SumiOS.Proofs.Buddy.Counter

/-!
# `SumiOS.Proofs.Buddy.Exclusive`: no frame has two owners

`__free_pages` merges with a neighbour at distance `2 ^ order` when that page is
the head of a free block, and takes the neighbour to be `2 ^ order` frames long.
A smaller neighbour is followed by other blocks, and the merge claims their
frames too. `SwallowsNothing` says of a call that this does not happen.

The runs in which no frame ever has two owners are exactly the runs whose calls
all swallow nothing (`exclusive_iff_swallowsNothing`). One direction carries
`BuddyInv` through the run. For the other, a block whose frames are claimed
stays where it is: the loop takes blocks outside the block at hand only.
-/

set_option autoImplicit false

namespace SumiOS

open Lib

/-- The outstanding blocks and the free blocks are pairwise disjoint. -/
structure Exclusive (s : Sys) : Prop where
  outstanding : s.outstanding.Pairwise fun c d => Disjoint c.frames d.frames
  free : ∀ c d, FreeBlock s.buddy c → FreeBlock s.buddy d → c ≠ d → Disjoint c.frames d.frames
  between : ∀ c ∈ s.outstanding, ∀ d, FreeBlock s.buddy d → Disjoint c.frames d.frames

/-- The frames that a merge of the call claims belong to no block other than
the free block that starts there. -/
def SwallowsNothing (mapped : Int → Bool) (s : Sys) : Call → Prop
  | .alloc _ => True
  | .free p order =>
      ∀ t ∈ claimed mapped s.buddy p order, ∀ c,
        c ∈ s.outstanding.erase ⟨p, order⟩ ∨ (FreeBlock s.buddy c ∧ c.start ≠ t.start) →
        Disjoint c.frames t.frames

/-- The invariant, for some sequences of pages. -/
def Kept (H : Set Head) (s : Sys) : Prop := ∃ seq, BuddyInv H s.buddy seq s.outstanding

section

variable {mapped : Int → Bool} {H : Set Head} {b : Buddy} {seq : Head → List Int}
  {out : List Block}

/-- That the blocks on the rings are disjoint is a statement about the sequences that represent
them. -/
theorem Tidy.exclusive (hH : HasFreelists H) (hr : Rep H b.links seq) :
    Exclusive ⟨b, out⟩ ↔ Tidy seq out := by
  have hfree := fun c => freeBlock_iff (c := c) hH hr
  constructor
  · intro h
    refine ⟨h.outstanding.imp fun h => Block.apart_iff_disjoint.mpr h,
      fun c d hc hd hne => ?_, fun c hc d hd => ?_⟩
    · exact Block.apart_iff_disjoint.mpr (h.free c d ((hfree c).mpr hc) ((hfree d).mpr hd) hne)
    · exact Block.apart_iff_disjoint.mpr (h.between c hc d ((hfree d).mpr hd))
  · intro h
    refine ⟨h.outApart.imp fun h => Block.apart_iff_disjoint.mp h, fun c d hc hd hne => ?_,
      fun c hc d hd => ?_⟩
    · exact Block.apart_iff_disjoint.mp (h.freeApart c d ((hfree c).mp hc) ((hfree d).mp hd) hne)
    · exact Block.apart_iff_disjoint.mp (h.between c hc d ((hfree d).mp hd))

/-- What is apart from two halves is apart from the block. -/
theorem apart_next {c : Block} {p : Int} {o : Nat} (h : c.Apart ⟨p, o⟩)
    (h' : c.Apart ⟨p + 2 ^ o, o⟩) : c.Apart ⟨p, o + 1⟩ := by
  rw [Block.apart_iff_disjoint] at h h' ⊢
  rw [Block.frames_succ]
  exact Set.disjoint_union_right.mpr ⟨h, h'⟩

/-- A block apart from both halves is apart from the whole, where the front half is the
neighbour. -/
theorem apart_prev {c : Block} {p : Int} {o : Nat} (h : c.Apart ⟨p, o⟩)
    (h' : c.Apart ⟨p - 2 ^ o, o⟩) : c.Apart ⟨p - 2 ^ o, o + 1⟩ :=
  apart_next h' (by rwa [Int.sub_add_cancel])

/-- The block `t` of claimed frames meets only the free block that starts with
it. -/
def Clear (seq : Head → List Int) (out : List Block) (t : Block) : Prop :=
  ∀ c, c ∈ out ∨ (Listed seq c ∧ c.start ≠ t.start) → c.Apart t

/-- The condition in terms of the representing sequences: the frames that each merge takes belong
to no block but the free one that starts there. -/
theorem swallowsNothing_iff {p : Int} {k : Nat} (hH : HasFreelists H) (hr : Rep H b.links seq) :
    SwallowsNothing mapped ⟨b, out⟩ (.free p k) ↔
      ∀ t ∈ claimed mapped b p k, Clear seq (out.erase ⟨p, k⟩) t := by
  refine forall₂_congr fun t _ => forall_congr' fun c => ?_
  rw [freeBlock_iff hH hr, Block.apart_iff_disjoint]

/-- Nothing is swallowed on the way: every other block is apart from the block
at hand, and the claims that are still to come are clear. -/
structure Owning (mapped : Int → Bool) (b₀ : Buddy) (seq₀ : Head → List Int) (out : List Block)
    (seq : Head → List Int) (p : Int) (o : Nat) : Prop where
  apart : ∀ c, c ∈ out ∨ Listed seq c → c.Apart ⟨p, o⟩
  ahead : ∀ t ∈ takes mapped b₀ (MAX_PAGE_ORDER - 1 - o) p o, Clear seq₀ out t

/-- Something is swallowed: a claim that is still to come is not clear, or a
block already meets the block at hand. -/
inductive Swallowing (mapped : Int → Bool) (b₀ : Buddy) (seq₀ : Head → List Int)
    (out : List Block) (seq : Head → List Int) (p : Int) (o : Nat) : Prop
  | ahead (t : Block) (ht : t ∈ takes mapped b₀ (MAX_PAGE_ORDER - 1 - o) p o)
      (hun : ¬ Clear seq₀ out t)
  | met (c : Block) (hc : c ∈ out ∨ Listed seq c) (hun : ¬ c.Apart ⟨p, o⟩)

section Merge

variable {b₀ : Buddy} {seq₀ : Head → List Int} {p₀ p : Int} {k o r : Nat}

/-- The block at hand before and after a merge with the neighbour `q`. -/
def Neighbour (q p : Int) (o : Nat) (p' : Int) : Prop :=
  (q = p + 2 ^ o ∧ p' = p) ∨ (q = p - 2 ^ o ∧ p' = p - 2 ^ o)

/-- A block that meets the block at hand is not the one that the next merge
takes, and still meets the larger block. -/
theorem met_of_merge (hM : Merging H b₀ seq₀ p₀ b seq p o) (hH : HasFreelists H)
    (ht : Tidy seq₀ (⟨p₀, k⟩ :: out)) {c : Block} {q p' : Int} (hc : c ∈ out ∨ Listed seq c)
    (hun : ¬ c.Apart ⟨p, o⟩) (hq : Neighbour q p o p') :
    (c ∈ out ∨ Listed (dropSeq seq q r) c) ∧ ¬ c.Apart ⟨p', o + 1⟩ := by
  have hpos := Block.two_pow_pos o
  have hstart := hM.start_not_mem ht hc
  have hne : c ≠ ⟨q, r⟩ := by
    rintro rfl
    have hrpos := Block.two_pow_pos r
    rw [Block.mem_mk] at hstart
    refine hun ?_
    rcases hq with ⟨rfl, -⟩ | ⟨rfl, -⟩
    · exact Or.inr (le_refl _)
    · exact Or.inl (show p - 2 ^ o + 2 ^ r ≤ p by omega)
  refine ⟨hc.imp_right fun h => (listed_dropSeq hH hM.rep).mpr ⟨h, hne⟩, fun h => hun ?_⟩
  rcases hq with ⟨-, rfl⟩ | ⟨-, rfl⟩ <;> refine h.mono ?_ ?_ <;>
    simp only [Block.two_pow_succ] <;> omega

/-- The blocks that meet the claim of the next merge are still on the lists. -/
theorem met_of_claim (hM : Merging H b₀ seq₀ p₀ b seq p o) (hH : HasFreelists H)
    (ht : Tidy seq₀ (⟨p₀, k⟩ :: out)) {q p' : Int} (hlist : Listed seq ⟨q, r⟩)
    (hq : Neighbour q p o p') (hun : ¬ Clear seq₀ out ⟨q, o⟩) :
    ∃ c, (c ∈ out ∨ Listed (dropSeq seq q r) c) ∧ ¬ c.Apart ⟨p', o + 1⟩ := by
  have hpos := Block.two_pow_pos o
  unfold Clear at hun
  push Not at hun
  obtain ⟨c, hc, hmeet⟩ := hun
  have hbig : ¬ c.Apart ⟨p', o + 1⟩ := fun h => hmeet (by
    rcases hq with ⟨rfl, rfl⟩ | ⟨rfl, rfl⟩ <;> refine h.mono ?_ ?_ <;>
      simp only [Block.two_pow_succ] <;> omega)
  refine ⟨c, ?_, hbig⟩
  rcases hc with hc | ⟨hc, hne⟩
  · exact Or.inl hc
  · have hcq : c ≠ ⟨q, r⟩ := fun e => hne (by rw [e])
    -- `q` heads its own block, so `c` does not contain it.
    have hap := ht.freeApart c _ hc (hM.sub _ hlist) hcq
    have hout : q ∉ c.frames := fun h => Block.not_apart_of_start_mem h hap
    have hfar : c.start ∉ (Block.mk p o).frames := fun h => by
      rw [Block.mem_frames] at hout
      rw [Block.mem_mk] at h
      refine hmeet ?_
      rcases hq with ⟨rfl, -⟩ | ⟨rfl, -⟩
      · exact Or.inl (show c.start + 2 ^ c.order ≤ p + 2 ^ o by omega)
      · exact Or.inr (show p - 2 ^ o + 2 ^ o ≤ c.start by omega)
    exact Or.inr ((listed_dropSeq hH hM.rep).mpr ⟨(hM.gone c hc).resolve_right hfar, hcq⟩)

/-- The claims of the loop begin with the neighbour of the next merge. -/
def NextTake (mapped : Int → Bool) (b₀ : Buddy) (q p : Int) (o : Nat) (p' : Int) : Prop :=
  takes mapped b₀ (MAX_PAGE_ORDER - 1 - o) p o
    = ⟨q, o⟩ :: takes mapped b₀ (MAX_PAGE_ORDER - 1 - (o + 1)) p' (o + 1)

/-- When the neighbour behind can be merged, it comes first among the blocks that the
call takes. -/
theorem nextTake_next (ho : o < MAX_PAGE_ORDER - 1)
    (hn : mergeable mapped b₀ (p + 2 ^ o) = true) : NextTake mapped b₀ (p + 2 ^ o) p o p := by
  unfold NextTake
  rw [show MAX_PAGE_ORDER - 1 - o = MAX_PAGE_ORDER - 1 - (o + 1) + 1 from by omega]
  exact takes_next hn

/-- When only the neighbour in front can be merged, it comes first among the blocks that the call
takes. -/
theorem nextTake_prev (ho : o < MAX_PAGE_ORDER - 1)
    (hn : mergeable mapped b₀ (p + 2 ^ o) = false)
    (hp : mergeable mapped b₀ (p - 2 ^ o) = true) :
    NextTake mapped b₀ (p - 2 ^ o) p o (p - 2 ^ o) := by
  unfold NextTake
  rw [show MAX_PAGE_ORDER - 1 - o = MAX_PAGE_ORDER - 1 - (o + 1) + 1 from by omega]
  exact takes_prev hn hp

/-- One merge, when nothing is swallowed: the neighbour is apart from all other blocks, so the
grown block is, and the claims behind it are still clear. -/
theorem Owning.merge (hM : Merging H b₀ seq₀ p₀ b seq p o) (hH : HasFreelists H)
    {q p' : Int} (hlist : Listed seq ⟨q, r⟩) (hq : Neighbour q p o p')
    (htake : NextTake mapped b₀ q p o p') (hO : Owning mapped b₀ seq₀ out seq p o) :
    Owning mapped b₀ seq₀ out (dropSeq seq q r) p' (o + 1) := by
  have hdrop := fun c => listed_dropSeq (q := q) (r := r) (c := c) hH hM.rep
  have hahead := hO.ahead
  rw [htake] at hahead
  refine ⟨fun c hc => ?_, fun t ht => hahead t (List.mem_cons_of_mem _ ht)⟩
  have hc' : c ∈ out ∨ Listed seq c := hc.imp_right fun h => ((hdrop c).mp h).1
  have hclaim : c.Apart ⟨q, o⟩ := by
    refine hahead _ List.mem_cons_self c (hc.imp_right fun h => ?_)
    obtain ⟨h, hne⟩ := (hdrop c).mp h
    exact ⟨hM.sub c h, fun e => hne (Listed.eq_of_start hH hM.rep h hlist e)⟩
  rcases hq with ⟨rfl, rfl⟩ | ⟨rfl, rfl⟩
  · exact apart_next (hO.apart c hc') hclaim
  · exact apart_prev (hO.apart c hc') hclaim

/-- One merge, when something is swallowed: either the claim of this merge is the one that is not
clear, and from now on a block meets the block at hand, or it is still ahead. -/
theorem Swallowing.merge (hM : Merging H b₀ seq₀ p₀ b seq p o) (hH : HasFreelists H)
    (ht : Tidy seq₀ (⟨p₀, k⟩ :: out)) {q p' : Int} (hlist : Listed seq ⟨q, r⟩)
    (hq : Neighbour q p o p') (htake : NextTake mapped b₀ q p o p')
    (hS : Swallowing mapped b₀ seq₀ out seq p o) :
    Swallowing mapped b₀ seq₀ out (dropSeq seq q r) p' (o + 1) := by
  cases hS with
  | ahead t hmem hun =>
      rw [htake] at hmem
      rcases List.mem_cons.mp hmem with rfl | hmem
      · obtain ⟨c, hc, hc'⟩ := met_of_claim hM hH ht hlist hq hun
        exact .met c hc hc'
      · exact .ahead t hmem hun
  | met c hc hun =>
      obtain ⟨h1, h2⟩ := met_of_merge (r := r) hM hH ht hc hun hq
      exact .met c h1 h2

end Merge

/-! ### One call -/

/-- A page of the free lists of the buddy system is not on another list. -/
theorem buddyHeads_other {p : Int} {seq : Head → List Int} :
    ∀ h ∈ buddyHeads, (∀ k, h ≠ .freelist k) → p ∉ seq h := by
  rintro _ ⟨k, -, rfl⟩ hne
  exact absurd rfl (hne k)

/-- A call of `free_pages` that swallows nothing keeps the invariant. The rule for the loop carries
the picture that all other blocks are apart from the block at hand, and the insertion makes that
block a free one. -/
theorem BuddyInv.free {p : Int} {k : Nat} (hI : BuddyInv buddyHeads b seq out)
    (hmem : ⟨p, k⟩ ∈ out) (hclear : SwallowsNothing mapped ⟨b, out⟩ (.free p k)) :
    ∃ seq', BuddyInv buddyHeads (freePages mapped b (some p) k) seq' (out.erase ⟨p, k⟩) := by
  have hH := hasFreelists_buddyHeads
  have ht := hI.tidy_erase hmem
  obtain ⟨b', seq', p', o', heq, hM, hO, -, ho, -⟩ :=
    free_induct mapped (R := fun _ seq' p' o' =>
        Owning mapped b seq (out.erase ⟨p, k⟩) seq' p' o') hH (hI.small _ hmem)
      (hI.merging hH hmem buddyHeads_other)
      ⟨fun c hc => by
        rcases hc with hc | hc
        · exact Block.apart_comm.mp ((List.pairwise_cons.mp ht.outApart).1 c hc)
        · exact Block.apart_comm.mp (ht.between _ List.mem_cons_self c hc),
        (swallowsNothing_iff hH hI.rep).mp hclear⟩
      (fun b' seq' p' o' r ho hM hn hq hO =>
        hO.merge hM hH hq (Or.inl ⟨rfl, rfl⟩) (nextTake_next ho hn))
      (fun b' seq' p' o' r ho hM hn hp hq hO =>
        hO.merge hM hH hq (Or.inr ⟨rfl, rfl⟩) (nextTake_prev ho hn hp))
  -- What the merging leaves is put on a list.
  obtain ⟨hrep, hfl⟩ := hM.putFree hH ho
  have hput : ∀ c, Listed (putSeq seq' p' o') c ↔ c = ⟨p', o'⟩ ∨ Listed seq' c :=
    fun c => listed_putSeq ho
  have htidy := hM.tidy ht
  refine ⟨putSeq seq' p' o', heq ▸ hrep, ⟨(List.pairwise_cons.mp htidy.outApart).2,
    fun c d hc hd hne => ?_, fun c hc d hd => ?_⟩, heq ▸ hfl,
    fun h hh hne => absurd hh fun ⟨k, _, e⟩ => hne k e,
    fun c hc => hI.small c (List.mem_of_mem_erase hc)⟩
  · -- The new block is apart from the others, and these were apart before.
    rcases (hput c).mp hc with rfl | hc <;> rcases (hput d).mp hd with rfl | hd
    · exact absurd rfl hne
    · exact Block.apart_comm.mp (hO.apart d (Or.inr hd))
    · exact hO.apart c (Or.inr hc)
    · exact htidy.freeApart c d hc hd hne
  · rcases (hput d).mp hd with rfl | hd
    · exact hO.apart c (Or.inl hc)
    · exact htidy.between c (List.mem_cons_of_mem _ hc) d hd

/-- A call of `free_pages` that swallows something gives a frame two owners. The rule for the loop
carries that a block meets the block at hand or will meet it, and when the loop ends there is
nothing more to come. -/
theorem BuddyInv.not_exclusive_free {p : Int} {k : Nat} (hI : BuddyInv buddyHeads b seq out)
    (hmem : ⟨p, k⟩ ∈ out) (hclear : ¬ SwallowsNothing mapped ⟨b, out⟩ (.free p k)) :
    ¬ Exclusive ⟨freePages mapped b (some p) k, out.erase ⟨p, k⟩⟩ := by
  have hH := hasFreelists_buddyHeads
  have ht := hI.tidy_erase hmem
  rw [swallowsNothing_iff hH hI.rep] at hclear
  push Not at hclear
  obtain ⟨t, htmem, hun⟩ := hclear
  obtain ⟨b', seq', p', o', heq, hM, hS, -, ho, hexit⟩ :=
    free_induct mapped (R := fun _ seq' p' o' =>
        Swallowing mapped b seq (out.erase ⟨p, k⟩) seq' p' o') hH (hI.small _ hmem)
      (hI.merging hH hmem buddyHeads_other) (.ahead t htmem hun)
      (fun b' seq' p' o' r ho hM hn hq hS =>
        hS.merge hM hH ht hq (Or.inl ⟨rfl, rfl⟩) (nextTake_next ho hn))
      (fun b' seq' p' o' r ho hM hn hp hq hS =>
        hS.merge hM hH ht hq (Or.inr ⟨rfl, rfl⟩) (nextTake_prev ho hn hp))
  obtain ⟨hrep, -⟩ := hM.putFree hH ho
  have hput : ∀ c, Listed (putSeq seq' p' o') c ↔ c = ⟨p', o'⟩ ∨ Listed seq' c :=
    fun c => listed_putSeq ho
  rw [heq, Tidy.exclusive hH hrep]
  intro htidy
  have hown : Listed (putSeq seq' p' o') ⟨p', o'⟩ := (hput _).mpr (Or.inl rfl)
  cases hS with
  | ahead t htmem hun =>
      -- The loop ends with nothing more to take, so the block was taken.
      rw [takes_stop hexit] at htmem
      exact List.not_mem_nil htmem
  | met c hc hun =>
      rcases hc with hc | hc
      · exact hun (htidy.between c hc _ hown)
      · -- The met block is free, and still on its list.
        have hne : c ≠ ⟨p', o'⟩ := by
          rintro rfl
          exact hM.unlisted _ ((hH o').mpr ho) hc.2
        exact hun (htidy.freeApart c _ ((hput c).mpr (Or.inr hc)) hown hne)

/-- A call that swallows nothing keeps the invariant: an allocation always does, and for a free it
is the condition. -/
theorem Kept.call {s s' : Sys} {a : Call} (hI : Kept buddyHeads s)
    (hC : SwallowsNothing mapped s a) (hs : step mapped s a = some s') : Kept buddyHeads s' := by
  obtain ⟨seq, hI⟩ := hI
  cases a with
  | alloc order =>
      rcases hI.step_alloc hasFreelists_buddyHeads hs with
        ⟨rfl, -⟩ | ⟨j, p, ps, -, -, -, -, -, hI'⟩
      · exact ⟨seq, hI⟩
      · exact ⟨_, hI'⟩
  | free p order =>
      obtain ⟨hmem, rfl⟩ := step_free_iff.mp hs
      exact hI.free hmem hC

end

/-- In a run from one contiguous run of frames, no frame ever has two owners exactly when no call
swallows anything: the frames that a merge claims belong to no block other than the free block that
starts there. -/
theorem exclusive_iff_swallowsNothing (mapped : Int → Bool) (b : Buddy) (start : Int) (n : Nat)
    (hU : Untouched mapped b (frameRange start n)) (calls : List Call)
    (hrun : (run (step mapped) ⟨freeRange mapped b start n, []⟩ calls).isSome) :
    Always (step mapped) Exclusive ⟨freeRange mapped b start n, []⟩ calls ↔
      Guarded (step mapped) (SwallowsNothing mapped) ⟨freeRange mapped b start n, []⟩ calls := by
  obtain ⟨seq, hT⟩ := freeRange_spec hU
  obtain ⟨s, hrun⟩ := Option.isSome_iff_exists.mp hrun
  refine always_iff_guarded (I := Kept buddyHeads) (D := fun _ _ => True) ?_
    (fun s a s' hI _ => hI.call) ?_ ⟨seq, hT.inv⟩ (guarded_of_forall (fun _ _ => trivial) _ _) hrun
  · rintro ⟨b, out⟩ ⟨seq, hI⟩
    exact (Tidy.exclusive hasFreelists_buddyHeads hI.rep).mpr hI.tidy
  · rintro ⟨b, out⟩ a s' ⟨seq, hI⟩ - hC hs
    cases a with
    | alloc order => exact absurd trivial hC
    | free p order =>
        obtain ⟨hmem, rfl⟩ := step_free_iff.mp hs
        exact hI.not_exclusive_free hmem hC

/-- On two frames that are handed out and freed one after the other, both sides are about a run
with a split and a merge. -/
theorem exclusive_iff_swallowsNothing_two :
    Always (step fun _ => true) Exclusive ⟨freeRange (fun _ => true) cleared 0 2, []⟩
        [.alloc 0, .alloc 0, .free 0 0, .free 1 0] ↔
      Guarded (step fun _ => true) (SwallowsNothing fun _ => true)
        ⟨freeRange (fun _ => true) cleared 0 2, []⟩ [.alloc 0, .alloc 0, .free 0 0, .free 1 0] :=
  exclusive_iff_swallowsNothing _ cleared 0 2 (cleared_untouched _) _ (by decide)

/-- Four frames. Frames 0 and 1 are handed out together, 2 and 3 one by one.
When 2 and then the pair are freed, the merge takes frame 2 for the head of
two frames, and frame 3 is in the free block although it is outstanding. -/
theorem not_always_exclusive :
    ¬ Always (step fun _ => true) Exclusive ⟨freeRange (fun _ => true) cleared 0 4, []⟩
      [.alloc 1, .alloc 0, .alloc 0, .free 2 0, .free 0 1] := by
  intro h
  have hrun : (run (step fun _ => true) ⟨freeRange (fun _ => true) cleared 0 4, []⟩
      [.alloc 1, .alloc 0, .alloc 0, .free 2 0, .free 0 1]).map
        (fun s => (s.buddy.links.next (freelist 2), s.outstanding))
      = some (.page 0, [⟨3, 0⟩]) := by decide
  obtain ⟨s, hs, heq⟩ := Option.map_eq_some_iff.mp hrun
  obtain ⟨hnext, hout⟩ := Prod.mk.inj heq
  have hfree : FreeBlock s.buddy ⟨0, 2⟩ := by
    refine ⟨by decide, ?_⟩
    have := OnRing.first (l := s.buddy.links) (h := freelist 2) (by rw [hnext]; decide)
    rwa [hnext] at this
  have hmeet := (h.last hs).between ⟨3, 0⟩ (by rw [hout]; decide) _ hfree
  rw [← Block.apart_iff_disjoint] at hmeet
  exact absurd hmeet (by unfold Block.Apart; decide)

end SumiOS
