import SumiOS.Proofs.Buddy.Spec
import SumiOS.Lib.Run

/-!
# `SumiOS.Proofs.Buddy.Run`: clients of the buddy system

A client calls `alloc_pages` and `free_pages` in any order. It frees only
blocks that it holds, each with the order it was allocated with. `step` is one
call on the state of the buddy system and the blocks that are outstanding.

`BuddyInv` says that the lists are well formed, that the outstanding and the free
blocks are pairwise apart, and that a page with both head flags is on a list.
`BuddyInv.alloc` shows that every `alloc_pages` keeps it; for the blocks alone, that is
`BlockInv.alloc`. `free_pages` does not keep
it in general, so its loop has a weaker invariant that every merge keeps
(`Merging`), and `free_induct` is the rule by which a property of the merges
is carried through the loop.
-/

set_option autoImplicit false

namespace SumiOS

open Lib

/-! ### Runs -/

/-- A call of a client. -/
inductive Call
  | alloc (order : Nat)
  | free (p : Int) (order : Nat)

/-- The buddy system and the blocks that its clients hold. -/
structure Sys where
  buddy : Buddy
  outstanding : List Block

/-- One call. Only an outstanding block may be freed, with its own order. -/
def step (mapped : Int → Bool) (s : Sys) : Call → Option Sys
  | .alloc order =>
      match allocPages s.buddy order with
      | (b, some p) => some ⟨b, ⟨p, order⟩ :: s.outstanding⟩
      | (b, none) => some ⟨b, s.outstanding⟩
  | .free p order =>
      if ⟨p, order⟩ ∈ s.outstanding then
        some ⟨freePages mapped s.buddy (some p) order, s.outstanding.erase ⟨p, order⟩⟩
      else none

/-- What a call of `free_pages` can do: it is a step when the block is outstanding, and then the
block is not any more. -/
theorem step_free_iff {mapped : Int → Bool} {s s' : Sys} {p : Int} {order : Nat} :
    step mapped s (.free p order) = some s' ↔ ⟨p, order⟩ ∈ s.outstanding ∧
      s' = ⟨freePages mapped s.buddy (some p) order, s.outstanding.erase ⟨p, order⟩⟩ := by
  by_cases h : ⟨p, order⟩ ∈ s.outstanding
  · simp [step, h, eq_comm]
  · simp [step, h]

/-- `free_pages(page, 0)` for the frames of a list, one after the other. -/
def freeFrames (mapped : Int → Bool) (b : Buddy) (frames : List Int) : Buddy :=
  frames.foldl (fun b x => freePages mapped b (some x) 0) b

/-- The frames `start, …, start + n - 1`. -/
def frameRange (start : Int) (n : Nat) : List Int := (List.range n).map fun i : Nat => start + (i : Int)

/-- The init loop on one contiguous run of `n` frames. -/
def freeRange (mapped : Int → Bool) (b : Buddy) (start : Int) (n : Nat) : Buddy :=
  freeFrames mapped b (frameRange start n)

/-- The state before the init loop frees the frames of a list: their page
structs are mapped, no page struct reads as free, and the free lists
are empty. The head flags are whatever the memory held. -/
structure Untouched (mapped : Int → Bool) (b : Buddy) (frames : List Int) : Prop where
  mapped : ∀ x ∈ frames, mapped x = true
  notFree : ∀ x, (b.pages x).isFree = false
  empty : ∀ k < MAX_PAGE_ORDER, IsRing b.links (freelist k) []

/-- A cleared page array and empty lists. -/
def cleared : Buddy := ⟨⟨id, id⟩, fun _ => ⟨0, false, false, 0, 0, 0⟩⟩

/-- A cleared page array with empty lists is a state in which nothing has been freed yet. -/
theorem cleared_untouched (frames : List Int) : Untouched (fun _ => true) cleared frames where
  mapped _ _ := rfl
  notFree _ := rfl
  empty _ _ := isRing_nil.mpr ⟨rfl, rfl⟩

/-- The block is linked on its `freelist`. -/
def FreeBlock (b : Buddy) (c : Block) : Prop :=
  c.order < MAX_PAGE_ORDER ∧ OnRing b.links (freelist c.order) (.page c.start)

/-- The free lists hold exactly the given pages, order by order. -/
def HasLists (b : Buddy) (pages : Nat → List Int) : Prop :=
  ∀ k < MAX_PAGE_ORDER, IsRing b.links (freelist k) ((pages k).map .page)

instance (b : Buddy) (pages : Nat → List Int) : Decidable (HasLists b pages) :=
  inferInstanceAs (Decidable (∀ k < MAX_PAGE_ORDER, _))

/-- The neighbours that the loop of `__free_pages` takes in the state `b`, each
with the order at which it is taken: the frames that each merge claims. -/
def takes (mapped : Int → Bool) (b : Buddy) : Nat → Int → Nat → List Block
  | 0, _, _ => []
  | n + 1, p, order =>
      if mergeable mapped b (p + 2 ^ order) then
        ⟨p + 2 ^ order, order⟩ :: takes mapped b n p (order + 1)
      else if mergeable mapped b (p - 2 ^ order) then
        ⟨p - 2 ^ order, order⟩ :: takes mapped b n (p - 2 ^ order) (order + 1)
      else []

/-- The frames that `free_pages(p, order)` claims besides the freed block. -/
def claimed (mapped : Int → Bool) (b : Buddy) (p : Int) (order : Nat) : List Block :=
  takes mapped b (MAX_PAGE_ORDER - 1 - order) p order

/-- When the contents of the free lists are known, the free blocks are read off them. -/
theorem HasLists.freeBlock_iff {b : Buddy} {pages : Nat → List Int} (h : HasLists b pages)
    {c : Block} : FreeBlock b c ↔ c.order < MAX_PAGE_ORDER ∧ c.start ∈ pages c.order := by
  refine and_congr_right fun hc => ?_
  rw [(h c.order hc).onRing_iff (by simp), List.mem_map_of_injective page_injective]

/-! ### Free blocks in the sequences -/

/-- The block is in the sequence of its order. -/
def Listed (seq : Head → List Int) (c : Block) : Prop :=
  c.order < MAX_PAGE_ORDER ∧ c.start ∈ seq (.freelist c.order)

/-- The sequences after the block `q` of order `r` was unlinked. -/
def dropSeq (seq : Head → List Int) (q : Int) (r : Nat) : Head → List Int :=
  Function.update seq (.freelist r) ((seq (.freelist r)).erase q)

/-- The sequences after the block `p` of order `o` was linked in. -/
def putSeq (seq : Head → List Int) (p : Int) (o : Nat) : Head → List Int :=
  Function.update seq (.freelist o) (p :: seq (.freelist o))

section Listed

variable {H : Set Head} {l : Links Node} {b : Buddy} {seq : Head → List Int}
  {p q : Int} {k j o r : Nat} {c : Block}

/-- A block is free exactly when its start is in the sequence that represents the list of its
order. -/
theorem freeBlock_iff (hH : HasFreelists H) (hr : Rep H b.links seq) :
    FreeBlock b c ↔ Listed seq c :=
  and_congr_right fun hc => hr.onRing_iff ((hH c.order).mpr hc)

/-- A page heads at most one free block, as it is on one list only. -/
theorem Listed.order_unique (hH : HasFreelists H) (hr : Rep H l seq)
    (h : Listed seq ⟨q, j⟩) (h' : Listed seq ⟨q, k⟩) : j = k :=
  Head.freelist.inj (hr.sep ((hH j).mpr h.1) ((hH k).mpr h'.1) h.2 h'.2)

/-- Two free blocks that start together are one, as a page is on one list only and the list gives
the order. -/
theorem Listed.eq_of_start (hH : HasFreelists H) (hr : Rep H l seq) {d : Block}
    (hc : Listed seq c) (hd : Listed seq d) (h : c.start = d.start) : c = d := by
  obtain ⟨p, j⟩ := c
  obtain ⟨q, k⟩ := d
  obtain rfl : p = q := h
  rw [Listed.order_unique hH hr hc hd]

/-- After a block was unlinked, all other listed blocks are still listed, and it is not. -/
theorem listed_dropSeq (hH : HasFreelists H) (hr : Rep H l seq) :
    Listed (dropSeq seq q r) c ↔ Listed seq c ∧ c ≠ ⟨q, r⟩ := by
  unfold Listed dropSeq
  by_cases e : c.order = r
  · by_cases hc : c.order < MAX_PAGE_ORDER
    · have hnd : (seq (.freelist r)).Nodup := hr.nodup ((hH r).mpr (e ▸ hc))
      rw [e, Function.update_self, hnd.mem_erase_iff]
      have hne : c ≠ ⟨q, r⟩ ↔ c.start ≠ q := by
        rw [not_iff_not]
        exact ⟨fun h => by rw [h], fun h => by cases c; simp_all⟩
      rw [hne]
      tauto
    · exact iff_of_false (fun h => hc h.1) (fun h => hc h.1.1)
  · have e' : Head.freelist c.order ≠ .freelist r := by simpa using e
    have hne : c ≠ ⟨q, r⟩ := fun h => e (by rw [h])
    rw [Function.update_of_ne e']
    exact (and_iff_left hne).symm

/-- After a block was linked in, it is listed besides the others. -/
theorem listed_putSeq (ho : o < MAX_PAGE_ORDER) :
    Listed (putSeq seq p o) c ↔ c = ⟨p, o⟩ ∨ Listed seq c := by
  unfold Listed putSeq
  by_cases e : c.order = o
  · have hne : c = ⟨p, o⟩ ↔ c.start = p :=
      ⟨fun h => by rw [h], fun h => by cases c; simp_all⟩
    rw [e, Function.update_self, List.mem_cons, hne]
    tauto
  · have e' : Head.freelist c.order ≠ .freelist o := by simpa using e
    have hne : c ≠ ⟨p, o⟩ := fun h => e (by rw [h])
    rw [Function.update_of_ne e', or_iff_right hne]

/-- The free blocks after an allocation: without the block that was taken, with
the halves that were put back. -/
theorem listed_splitSeq (hH : HasFreelists H) (hr : Rep H l seq) {ps : List Int}
    (hj : j < MAX_PAGE_ORDER) (hps : seq (.freelist j) = p :: ps) :
    Listed (splitSeq seq p k j) c ↔
      (Listed seq c ∧ c ≠ ⟨p, j⟩) ∨ ∃ i, k ≤ i ∧ i < j ∧ c = ⟨p + 2 ^ i, i⟩ := by
  have htail : Function.update seq (.freelist j) (seq (.freelist j)).tail = dropSeq seq p j := by
    rw [dropSeq, hps, List.tail_cons, List.erase_cons_head]
  rw [← listed_dropSeq hH hr, splitSeq, htail]
  obtain ⟨q, i⟩ := c
  unfold Listed
  by_cases hi : k ≤ i ∧ i < j
  · -- The upper half of order `i` went back to this list.
    have hput : putBackSeq (dropSeq seq p j) p k j (.freelist i)
        = (p + 2 ^ i) :: dropSeq seq p j (.freelist i) := if_pos hi
    rw [hput, List.mem_cons]
    constructor
    · rintro ⟨h1, rfl | h2⟩
      · exact Or.inr ⟨i, hi.1, hi.2, rfl⟩
      · exact Or.inl ⟨h1, h2⟩
    · rintro (⟨h1, h2⟩ | ⟨i', -, -, h⟩)
      · exact ⟨h1, Or.inr h2⟩
      · cases h
        exact ⟨by show i < MAX_PAGE_ORDER; omega, Or.inl rfl⟩
  · have hput : putBackSeq (dropSeq seq p j) p k j (.freelist i)
        = dropSeq seq p j (.freelist i) := if_neg hi
    rw [hput]
    refine (or_iff_left ?_).symm
    rintro ⟨i', h1, h2, h⟩
    cases h
    exact hi ⟨h1, h2⟩

end Listed

/-! ### The invariant -/

/-- The outstanding and the free blocks are pairwise apart. -/
structure Tidy (seq : Head → List Int) (out : List Block) : Prop where
  outApart : out.Pairwise Block.Apart
  freeApart : ∀ c d, Listed seq c → Listed seq d → c ≠ d → c.Apart d
  between : ∀ c ∈ out, ∀ d, Listed seq d → c.Apart d

/-- What `alloc_pages` needs: the lists are well formed, the blocks are apart, and only
starts of outstanding blocks are on the lists of `H` that are not free lists. -/
structure BlockInv (H : Set Head) (l : Links Node) (seq : Head → List Int) (out : List Block) :
    Prop where
  rep : Rep H l seq
  tidy : Tidy seq out
  held : ∀ h ∈ H, (∀ k, h ≠ .freelist k) → ∀ q ∈ seq h, ∃ c ∈ out, c.start = q

/-- The invariant of the buddy system between two calls. Only starts of
outstanding blocks are on the lists of `H` that are not free lists. -/
structure BuddyInv (H : Set Head) (b : Buddy) (seq : Head → List Int) (out : List Block) : Prop where
  rep : Rep H b.links seq
  tidy : Tidy seq out
  flagged : ∀ q, Flagged b q → ∃ k, Listed seq ⟨q, k⟩
  held : ∀ h ∈ H, (∀ k, h ≠ .freelist k) → ∀ q ∈ seq h, ∃ c ∈ out, c.start = q
  small : ∀ c ∈ out, c.order < MAX_PAGE_ORDER

/-- The part of the invariant that `alloc_pages` needs, without the flags. -/
theorem BuddyInv.blocks {H : Set Head} {b : Buddy} {seq : Head → List Int} {out : List Block}
    (hI : BuddyInv H b seq out) : BlockInv H b.links seq out := ⟨hI.rep, hI.tidy, hI.held⟩

section Alloc

variable {H : Set Head} {b : Buddy} {seq : Head → List Int} {out : List Block}

/-- Splitting a free block keeps all blocks apart: its parts lie in it, so they are apart from
every block that it was apart from, and one after the other they do not overlap. -/
theorem Tidy.split (ht : Tidy seq out) (hH : HasFreelists H) (hr : Rep H b.links seq)
    {p : Int} {ps : List Int} {k j : Nat} (hkj : k ≤ j) (hj : j < MAX_PAGE_ORDER)
    (hps : seq (.freelist j) = p :: ps) :
    Tidy (splitSeq seq p k j) (⟨p, k⟩ :: out) := by
  have hpj : Listed seq ⟨p, j⟩ := ⟨hj, by rw [hps]; exact List.mem_cons_self⟩
  have hlist := fun c => listed_splitSeq (k := k) (c := c) hH hr hj hps
  -- What is apart from the block that is split is apart from each of its parts.
  have hfirst : ∀ c : Block, c.Apart ⟨p, j⟩ → c.Apart ⟨p, k⟩ := fun c h =>
    h.mono (le_refl p) (Block.first_le hkj)
  have hhalf : ∀ c : Block, ∀ i, i < j → c.Apart ⟨p, j⟩ → c.Apart ⟨p + 2 ^ i, i⟩ :=
    fun c i hi h => h.mono (by have := Block.two_pow_pos i; show p ≤ p + 2 ^ i; omega)
      (Block.half_le hi)
  have hlower : ∀ i i', i < i' → (Block.mk (p + 2 ^ i) i).Apart ⟨p + 2 ^ i', i'⟩ := fun i i' h =>
    Or.inl (Block.half_le h)
  refine ⟨List.pairwise_cons.mpr ⟨fun c hc => ?_, ht.outApart⟩, fun c d hc hd hne => ?_,
    fun c hc d hd => ?_⟩
  · exact Block.apart_comm.mp (hfirst c (ht.between c hc _ hpj))
  · rcases (hlist c).mp hc with ⟨hc, hcp⟩ | ⟨i, hi1, hi2, rfl⟩ <;>
      rcases (hlist d).mp hd with ⟨hd, hdp⟩ | ⟨i', hi'1, hi'2, rfl⟩
    · exact ht.freeApart c d hc hd hne
    · exact hhalf c i' hi'2 (ht.freeApart c _ hc hpj hcp)
    · exact Block.apart_comm.mp (hhalf d i hi2 (ht.freeApart d _ hd hpj hdp))
    · rcases Nat.lt_trichotomy i i' with h | h | h
      · exact hlower i i' h
      · exact absurd (by rw [h]) hne
      · exact Block.apart_comm.mp (hlower i' i h)
  · rcases List.mem_cons.mp hc with rfl | hc <;>
      rcases (hlist d).mp hd with ⟨hd, hdp⟩ | ⟨i, hi1, hi2, rfl⟩
    · exact Block.apart_comm.mp (hfirst d (ht.freeApart d _ hd hpj hdp))
    · exact Or.inl (Block.first_le hi1)
    · exact ht.between c hc d hd
    · exact hhalf c i hi2 (ht.between c hc _ hpj)

/-- The pages inside a free block are on no list: they lie in the block, and the blocks on the
lists are apart. -/
theorem BlockInv.half_unlisted {l : Links Node} (hI : BlockInv H l seq out) (hH : HasFreelists H) {j : Nat}
    {p : Int} (hp : p ∈ seq (.freelist j)) (hj : j < MAX_PAGE_ORDER) :
    ∀ i < j, ∀ h ∈ H, p + 2 ^ i ∉ seq h := by
  intro i hi h hh hm
  have hpos := Block.two_pow_pos i
  have hle := Block.half_le (p := p) hi
  have hin : p + 2 ^ i ∈ (Block.mk p j).frames :=
    ⟨show p ≤ p + 2 ^ i by omega, show p + 2 ^ i < p + 2 ^ j by omega⟩
  have hpj : Listed seq ⟨p, j⟩ := ⟨hj, hp⟩
  by_cases hfl : ∃ k, h = .freelist k
  · obtain ⟨k, rfl⟩ := hfl
    have hne : (Block.mk p j) ≠ ⟨p + 2 ^ i, k⟩ := fun e => by
      have := (Block.mk.inj e).1
      omega
    have hap := hI.tidy.freeApart _ _ hpj ⟨(hH k).mp hh, hm⟩ hne
    exact Block.not_apart_of_start_mem hin hap
  · obtain ⟨c, hc, hcq⟩ := hI.held h hh (fun k e => hfl ⟨k, e⟩) _ hm
    have hap := hI.tidy.between c hc ⟨p, j⟩ hpj
    exact Block.not_apart_of_start_mem (hcq ▸ hin) (Block.apart_comm.mp hap)

/-- The pages of the array after a block was handed out. -/
theorem takePages_block (p : Int) (k : Nat) (pages : Int → Page) (x : Int) :
    (x ∈ (Block.mk p k).frames ∧ takePages p (2 ^ k) pages x
        = { pages x with refCount := (pages x).refCount + 1, isFree := false }) ∨
    (x ∉ (Block.mk p k).frames ∧ takePages p (2 ^ k) pages x = pages x) := by
  have hcast : ((2 ^ k : Nat) : Int) = 2 ^ k := by simp
  rw [takePages_apply, hcast]
  by_cases h : x ∈ (Block.mk p k).frames
  · exact Or.inl ⟨h, if_pos h⟩
  · exact Or.inr ⟨h, if_neg h⟩

/-- The flags after a block was handed out: the free flags inside it are gone. -/
theorem flagged_takePages {links : Links Node} {p q : Int} {k : Nat} :
    Flagged ⟨links, takePages p (2 ^ k) b.pages⟩ q ↔
      Flagged b q ∧ q ∉ (Block.mk p k).frames := by
  unfold Flagged
  rcases takePages_block p k b.pages q with ⟨h, he⟩ | ⟨h, he⟩ <;> simp [h, he]

/-- A split leaves the lists alone that are not free lists. -/
theorem splitSeq_other {p : Int} {k j : Nat} {h : Head} (hne : ∀ i, h ≠ .freelist i) :
    splitSeq seq p k j h = seq h := by
  cases h with
  | freelist i => exact absurd rfl (hne i)
  | full i => rfl
  | partialSlubs i => rfl
  | list i => rfl

/-- Every call of `alloc_pages` keeps the blocks apart. The flags do not matter for it. -/
theorem BlockInv.alloc (hI : BlockInv H b.links seq out) (hH : HasFreelists H) (k : Nat) :
    (allocPages b k = (b, none) ∧
        ∀ i, k ≤ i → i < MAX_PAGE_ORDER → seq (.freelist i) = []) ∨
    ∃ j p ps links, k ≤ j ∧ j < MAX_PAGE_ORDER ∧ seq (.freelist j) = p :: ps ∧
      (∀ i, k ≤ i → i < j → seq (.freelist i) = []) ∧
      allocPages b k = (⟨links, takePages p (2 ^ k) b.pages⟩, some p) ∧
      BlockInv H links (splitSeq seq p k j) (⟨p, k⟩ :: out) := by
  rcases allocPages_cases hH hI.rep k (fun j p hp hj _ i _ => hI.half_unlisted hH hp hj i) with
    hnone | ⟨j, p, ps, links, hkj, hj, hps, hempty, hrep, heq⟩
  · exact Or.inl hnone
  · refine Or.inr ⟨j, p, ps, links, hkj, hj, hps, hempty, heq, hrep,
      hI.tidy.split hH hI.rep hkj hj hps, fun h hh hne q hq => ?_⟩
    rw [splitSeq_other hne] at hq
    obtain ⟨c, hc, hcq⟩ := hI.held h hh hne q hq
    exact ⟨c, List.mem_cons_of_mem _ hc, hcq⟩

/-- Every call of `alloc_pages` keeps the invariant. It fails when no list has a block that is
large enough, and otherwise takes the first block of the first list that has one and splits it. -/
theorem BuddyInv.alloc (hI : BuddyInv H b seq out) (hH : HasFreelists H) (k : Nat) :
    (allocPages b k = (b, none) ∧
        ∀ i, k ≤ i → i < MAX_PAGE_ORDER → seq (.freelist i) = []) ∨
    ∃ j p ps links, k ≤ j ∧ j < MAX_PAGE_ORDER ∧ seq (.freelist j) = p :: ps ∧
      (∀ i, k ≤ i → i < j → seq (.freelist i) = []) ∧
      allocPages b k = (⟨links, takePages p (2 ^ k) b.pages⟩, some p) ∧
      BuddyInv H ⟨links, takePages p (2 ^ k) b.pages⟩ (splitSeq seq p k j) (⟨p, k⟩ :: out) := by
  rcases hI.blocks.alloc hH k with hnone | ⟨j, p, ps, links, hkj, hj, hps, hempty, heq, hB⟩
  · exact Or.inl hnone
  · refine Or.inr ⟨j, p, ps, links, hkj, hj, hps, hempty, heq, hB.rep, hB.tidy, fun q hq => ?_,
      hB.held, fun c hc => ?_⟩
    · obtain ⟨hq, hout⟩ := flagged_takePages.mp hq
      obtain ⟨m, hm⟩ := hI.flagged q hq
      refine ⟨m, (listed_splitSeq hH hI.rep hj hps).mpr (Or.inl ⟨hm, fun e => hout ?_⟩)⟩
      obtain ⟨rfl, -⟩ := Block.mk.inj e
      exact Block.start_mem ⟨q, k⟩
    · rcases List.mem_cons.mp hc with rfl | hc
      · exact Nat.lt_of_le_of_lt hkj hj
      · exact hI.small c hc

/-- What a call of `alloc_pages` can do to a client: nothing, when all lists from the order on are
empty, or one more block that is outstanding. -/
theorem BuddyInv.step_alloc {mapped : Int → Bool} {s s' : Sys} {k : Nat}
    (hI : BuddyInv H s.buddy seq s.outstanding) (hH : HasFreelists H)
    (hs : step mapped s (.alloc k) = some s') :
    (s' = s ∧ ∀ i, k ≤ i → i < MAX_PAGE_ORDER → seq (.freelist i) = []) ∨
    ∃ j p ps, k ≤ j ∧ j < MAX_PAGE_ORDER ∧ seq (.freelist j) = p :: ps ∧
      s'.outstanding = ⟨p, k⟩ :: s.outstanding ∧
      s'.buddy.pages = takePages p (2 ^ k) s.buddy.pages ∧
      BuddyInv H s'.buddy (splitSeq seq p k j) s'.outstanding := by
  rcases hI.alloc hH k with ⟨heq, hempty⟩ | ⟨j, p, ps, links, hkj, hj, hps, -, heq, hI'⟩
  · rw [step, heq, Option.some.injEq] at hs
    exact Or.inl ⟨hs.symm, hempty⟩
  · rw [step, heq, Option.some.injEq] at hs
    subst hs
    exact Or.inr ⟨j, p, ps, hkj, hj, hps, rfl, rfl, hI'⟩

end Alloc

end SumiOS
