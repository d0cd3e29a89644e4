import SumiOS.Proofs.Buddy.Run

/-!
# `SumiOS.Proofs.Buddy.Exact`: one call of `alloc_pages` on a sound state

`Sound b pages` is all that `alloc_pages` relies on: the free lists hold the
pages `pages`, order by order, and the blocks on them are pairwise apart. It asks
for nothing about the flags, and nothing about how the state came about.

`allocPages_exact` says which calls fail, and what all lists hold after a call
that succeeds (`listsAfter`). The blocks of these lists and the block that was
handed out cover the frames that were free, without overlap.
-/

set_option autoImplicit false

namespace SumiOS

open Lib

/-- The blocks that the lists `pages` hold. -/
def blocksOf (pages : Nat → List Int) : Set Block :=
  { c | c.order < MAX_PAGE_ORDER ∧ c.start ∈ pages c.order }

/-- The free lists are well formed, hold the pages `pages`, and the blocks on
them are pairwise apart. -/
structure Sound (b : Buddy) (pages : Nat → List Int) : Prop where
  lists : HasLists b pages
  nodup : ∀ k < MAX_PAGE_ORDER, (pages k).Nodup
  apart : (blocksOf pages).Pairwise Block.Apart

/-- The lists after the first block `p` of the list of order `j` was taken for a
block of order `k`. -/
def listsAfter (pages : Nat → List Int) (p : Int) (k j : Nat) : Nat → List Int := fun i =>
  if i = j then (pages j).tail
  else if k ≤ i ∧ i < j then [p + 2 ^ i]
  else pages i

/-- The frames of the blocks that the lists `pages` hold. -/
def framesOf (pages : Nat → List Int) : Set Int := { x | ∃ c ∈ blocksOf pages, x ∈ c.frames }

/-- The block `c` and the blocks that the lists `after` hold tile the frames of the
lists `pages` without overlap. -/
structure TiledBy (pages after : Nat → List Int) (c : Block) : Prop where
  apart : (blocksOf after).Pairwise Block.Apart
  between : ∀ d ∈ blocksOf after, c.Apart d
  covers : ∀ x, x ∈ framesOf pages ↔ x ∈ c.frames ∨ x ∈ framesOf after

section

variable {b : Buddy} {pages : Nat → List Int} {k j : Nat} {p : Int}

/-- The lists of the buddy system as sequences; there is no other list. -/
def seqOf (pages : Nat → List Int) : Head → List Int
  | .freelist k => pages k
  | _ => []

/-- No page heads two free blocks, since these would share it. -/
theorem Sound.order_unique (hS : Sound b pages) {q : Int} {i i' : Nat}
    (h : (⟨q, i⟩ : Block) ∈ blocksOf pages) (h' : (⟨q, i'⟩ : Block) ∈ blocksOf pages) :
    i = i' := by
  by_contra hne
  have hap := hS.apart h h' (fun e => hne (Block.mk.inj e).2)
  exact Block.not_apart_of_start_mem (c := ⟨q, i'⟩) (Block.start_mem ⟨q, i⟩) hap

/-- A sound state is represented by the sequences of its lists: each list is a ring, and no frame
is on two of them, because the free blocks are apart. -/
theorem Sound.rep (hS : Sound b pages) : Rep buddyHeads b.links (seqOf pages) where
  ring := by
    intro n hn
    obtain ⟨h, ⟨k, hk, rfl⟩, rfl⟩ := hn
    exact hS.lists k hk
  nodup := by
    intro n hn
    obtain ⟨h, ⟨k, hk, rfl⟩, rfl⟩ := hn
    exact (hS.nodup k hk).map page_injective
  sep := by
    intro n hn n' hn' x hx hx'
    obtain ⟨h, ⟨k, hk, rfl⟩, rfl⟩ := hn
    obtain ⟨h', ⟨k', hk', rfl⟩, rfl⟩ := hn'
    obtain ⟨q, hq, rfl⟩ := List.mem_map.mp hx
    have hq' : q ∈ pages k' := (List.mem_map_of_injective page_injective).mp hx'
    rw [hS.order_unique (q := q) ⟨hk, hq⟩ ⟨hk', hq'⟩]
  noHead := by
    intro n hn n' hn' hm
    obtain ⟨h, ⟨k, hk, rfl⟩, rfl⟩ := hn
    obtain ⟨h', -, rfl⟩ := hn'
    simp [nodeSeq] at hm

/-- A sound state satisfies the invariant of `alloc_pages`, with nothing handed out. -/
theorem Sound.blocks (hS : Sound b pages) : BlockInv buddyHeads b.links (seqOf pages) [] where
  rep := hS.rep
  tidy := ⟨List.Pairwise.nil, fun _ _ hc hd hne => hS.apart hc hd hne,
    fun c hc => absurd hc List.not_mem_nil⟩
  held := by
    intro h hh hne
    obtain ⟨k, -, rfl⟩ := hh
    exact absurd rfl (hne k)

/-- There is one first list, from `k` on, that is not empty. -/
theorem first_unique {i : Nat} (hki : k ≤ i) (hkj : k ≤ j) (hi : pages i ≠ []) (hj : pages j ≠ [])
    (hempty : ∀ l, k ≤ l → l < i → pages l = []) (hempty' : ∀ l, k ≤ l → l < j → pages l = []) :
    i = j := by
  rcases Nat.lt_trichotomy i j with h | h | h
  · exact absurd (hempty' i hki h) hi
  · exact h
  · exact absurd (hempty j hkj h) hj

/-- The split of the sequences is `listsAfter` on the lists: the list of the block loses its first
block, and each list below it down to the order that was asked for gets one part. -/
theorem splitSeq_seqOf (hempty : ∀ i, k ≤ i → i < j → pages i = []) (i : Nat) :
    splitSeq (seqOf pages) p k j (.freelist i) = listsAfter pages p k j i := by
  have htail : ∀ i, i ≠ j → Function.update (seqOf pages) (.freelist j)
      (seqOf pages (.freelist j)).tail (.freelist i) = pages i := by
    intro i e
    exact Function.update_of_ne (by simpa using e) _ _
  by_cases e : i = j
  · subst e
    have hput : splitSeq (seqOf pages) p k i (.freelist i) = Function.update (seqOf pages)
        (.freelist i) (seqOf pages (.freelist i)).tail (.freelist i) := if_neg (by omega)
    rw [hput, Function.update_self, listsAfter, if_pos rfl]
    rfl
  · rw [listsAfter, if_neg e]
    by_cases hi : k ≤ i ∧ i < j
    · have hput : splitSeq (seqOf pages) p k j (.freelist i) = (p + 2 ^ i) :: Function.update
          (seqOf pages) (.freelist j) (seqOf pages (.freelist j)).tail (.freelist i) := if_pos hi
      rw [hput, htail i e, hempty i hi.1 hi.2, if_pos hi]
    · have hput : splitSeq (seqOf pages) p k j (.freelist i) = Function.update (seqOf pages)
          (.freelist j) (seqOf pages (.freelist j)).tail (.freelist i) := if_neg hi
      rw [hput, htail i e, if_neg hi]

/-- The block that is handed out and the free blocks after the call cover the
frames that were free before it. -/
theorem Sound.covers_after (hS : Sound b pages) (hkj : k ≤ j) (hj : j < MAX_PAGE_ORDER)
    {ps : List Int} (hps : pages j = p :: ps) (hempty : ∀ i, k ≤ i → i < j → pages i = [])
    (x : Int) :
    x ∈ framesOf pages ↔
      x ∈ (Block.mk p k).frames ∨ x ∈ framesOf (listsAfter pages p k j) := by
  have hlisted : ∀ c, c ∈ blocksOf (listsAfter pages p k j) ↔
      (c ∈ blocksOf pages ∧ c ≠ ⟨p, j⟩) ∨ ∃ i, k ≤ i ∧ i < j ∧ c = ⟨p + 2 ^ i, i⟩ := by
    intro c
    have h := listed_splitSeq (k := k) (c := c) hasFreelists_buddyHeads hS.rep hj hps
    rwa [Listed, splitSeq_seqOf hempty] at h
  have hpj : (⟨p, j⟩ : Block) ∈ blocksOf pages :=
    ⟨hj, show p ∈ pages j by rw [hps]; exact List.mem_cons_self⟩
  constructor
  · intro h
    obtain ⟨c, hc, hx⟩ := h
    by_cases e : c = ⟨p, j⟩
    · subst e
      -- A frame of the block that was split is in its first part or in one of the halves.
      rcases (Block.mem_frames_split hkj).mp hx with hx | ⟨i, h1, h2, hx⟩
      · exact Or.inl hx
      · exact Or.inr ⟨_, (hlisted _).mpr (Or.inr ⟨i, h1, h2, rfl⟩), hx⟩
    · exact Or.inr ⟨c, (hlisted c).mpr (Or.inl ⟨hc, e⟩), hx⟩
  · intro h
    rcases h with hx | ⟨c, hc, hx⟩
    · exact ⟨_, hpj, (Block.mem_frames_split hkj).mpr (Or.inl hx)⟩
    · rcases (hlisted c).mp hc with ⟨hc, -⟩ | ⟨i, h1, h2, rfl⟩
      · exact ⟨c, hc, hx⟩
      · exact ⟨_, hpj, (Block.mem_frames_split hkj).mpr (Or.inr ⟨i, h1, h2, hx⟩)⟩

/-- The lists after a call that finds a block are well formed, and their blocks
are apart from each other and from the block that was handed out. -/
theorem Sound.take {links : Links Node} (pages' : Int → Page)
    (hempty : ∀ i, k ≤ i → i < j → pages i = [])
    (hB : BlockInv buddyHeads links (splitSeq (seqOf pages) p k j) [⟨p, k⟩]) :
    Sound ⟨links, pages'⟩ (listsAfter pages p k j) ∧
      ∀ d ∈ blocksOf (listsAfter pages p k j), (Block.mk p k).Apart d := by
  have hfree : ∀ {c : Block}, c ∈ blocksOf (listsAfter pages p k j) →
      Listed (splitSeq (seqOf pages) p k j) c := by
    intro c hc
    rwa [Listed, splitSeq_seqOf hempty]
  refine ⟨⟨fun i hi => ?_, fun i hi => ?_, fun c hc d hd hne => ?_⟩, fun d hd => ?_⟩
  · have hring := hB.rep.ring (h := .freelist i) ⟨i, hi, rfl⟩
    rwa [splitSeq_seqOf hempty] at hring
  · have hnd := hB.rep.nodup (h := .freelist i) ⟨i, hi, rfl⟩
    rwa [splitSeq_seqOf hempty] at hnd
  · exact hB.tidy.freeApart c d (hfree hc) (hfree hd) hne
  · exact hB.tidy.between _ List.mem_cons_self d (hfree hd)

end

/-- A call of `alloc_pages` on a sound state fails exactly when the order is too
large or the lists from it on are empty, and then changes nothing. Otherwise it
hands out the first block of the first nonempty list, with no free flag in it, and
the rest of that block goes to the lists in between. -/
theorem allocPages_exact (b : Buddy) (pages : Nat → List Int) (hS : Sound b pages) (k : Nat) :
    ((allocPages b k).2 = none ∧ (allocPages b k).1 = b ↔
        k ≥ MAX_PAGE_ORDER ∨ ∀ j, k ≤ j → j < MAX_PAGE_ORDER → pages j = []) ∧
    ∀ j, k ≤ j → j < MAX_PAGE_ORDER → pages j ≠ [] →
      (∀ i, k ≤ i → i < j → pages i = []) →
      ∃ p ps, pages j = p :: ps ∧ (allocPages b k).2 = some p ∧
        (∀ x ∈ (Block.mk p k).frames, ((allocPages b k).1.pages x).isFree = false) ∧
        (∀ x ∉ (Block.mk p k).frames, (allocPages b k).1.pages x = b.pages x) ∧
        Sound (allocPages b k).1 (listsAfter pages p k j) ∧
        TiledBy pages (listsAfter pages p k j) ⟨p, k⟩ := by
  rcases hS.blocks.alloc hasFreelists_buddyHeads k with
    ⟨heq, hnone⟩ | ⟨j, p, ps, links, hkj, hj, hps, hempty, heq, hB⟩
  · refine ⟨iff_of_true (by rw [heq]; exact ⟨rfl, rfl⟩) (Or.inr hnone), fun j h1 h2 hne _ => ?_⟩
    exact absurd (hnone j h1 h2) hne
  · have hps : pages j = p :: ps := hps
    constructor
    · -- The call hands out a block, and `j` is below the largest order.
      refine iff_of_false (fun h => by simp [heq] at h) fun h => ?_
      rcases h with h | h
      · omega
      · have hnil := h j hkj hj
        simp [hps] at hnil
    · intro j' hkj' hj' hne' hempty'
      -- The list that is taken from is the first one that is not empty.
      obtain rfl : j' = j := first_unique hkj' hkj hne' (by simp [hps]) hempty' hempty
      obtain ⟨hsound, hbetween⟩ := Sound.take (takePages p (2 ^ k) b.pages) hempty hB
      rw [heq]
      refine ⟨p, ps, hps, rfl, fun x hx => ?_, fun x hx => ?_, hsound,
        ⟨hsound.apart, hbetween, hS.covers_after hkj hj hps hempty⟩⟩
      · rcases takePages_block p k b.pages x with ⟨-, he⟩ | ⟨hout, -⟩
        · simp only [he]
        · exact absurd hx hout
      · rcases takePages_block p k b.pages x with ⟨hin, -⟩ | ⟨-, he⟩
        · exact absurd hin hx
        · exact he

/-- When there is one free block, it is the only one that the lists have. -/
theorem blocksOf_one (p : Int) (k : Nat) {c : Block}
    (hc : c ∈ blocksOf fun i => if i = k then [p] else []) : c = ⟨p, k⟩ := by
  obtain ⟨q, i⟩ := c
  have hmem : q ∈ if i = k then [p] else [] := hc.2
  by_cases hi : i = k
  · rw [if_pos hi, List.mem_singleton] at hmem
    rw [hmem, hi]
  · rw [if_neg hi] at hmem
    exact absurd hmem List.not_mem_nil

/-- One free block makes a sound state: there is no other that it would have to be apart from. -/
theorem Sound.of_one {b : Buddy} {p : Int} {k : Nat}
    (hlists : HasLists b fun i => if i = k then [p] else []) :
    Sound b fun i => if i = k then [p] else [] where
  lists := hlists
  nodup := fun i _ => by split <;> simp
  apart := fun _ hc _ hd hne => absurd ((blocksOf_one p k hc).trans (blocksOf_one p k hd).symm) hne

/-- One free block of four frames, which starts at frame 8. -/
theorem sound_four : Sound (putFree cleared 8 2) (fun i => if i = 2 then [8] else []) :=
  Sound.of_one (by decide)

/-- One free block of four frames, of which one frame is handed out: a pair and a single frame are
left on the lists of their orders. -/
theorem allocPages_exact_four :
    ∃ p ps, [8] = p :: ps ∧ (allocPages (putFree cleared 8 2) 0).2 = some p ∧
      Sound (allocPages (putFree cleared 8 2) 0).1
        (listsAfter (fun i => if i = 2 then [8] else []) p 0 2) := by
  obtain ⟨p, ps, h1, h2, -, -, h5, -⟩ :=
    (allocPages_exact _ _ sound_four 0).2 2 (by decide) (by decide) (by simp) (by
      intro i _ hi
      exact if_neg (by omega))
  exact ⟨p, ps, h1, h2, h5⟩

end SumiOS
