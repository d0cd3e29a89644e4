import SumiOS.PageAlloc
import SumiOS.Lib.Block
import Mathlib.Data.List.Nodup

/-!
# `SumiOS.Proofs.Buddy.Spec`: what each operation of the buddy system does

`Rep H l seq` connects the pointer graph to sequences: every list head of `H`
represents the pages `seq h`. The proofs about blocks use the sequences and
the page flags only, so the pointers appear in this module alone:

* `Rep.del` and `Rep.add` are `list_del` and `list_add_next` on the sequences;
* `allocPages_cases` says everything a call of `alloc_pages` can do;
* `combine_induct` is the rule for the loop of `__free_pages`, and
  `Rep.mergeNext`, `Rep.mergePrev` and `Rep.putFree` are its steps;
* `pages_mergeNext`, `pages_mergePrev` and `pages_putFree` give the flags.

`H` is a parameter. The buddy system needs the heads of its own lists; with the
list heads of the slub caches in `H`, the same lemmas say that the buddy system
leaves the lists of the caches alone.
-/

set_option autoImplicit false

namespace SumiOS

open Lib

/-! ### Sequences of pages -/

/-- The sequences of a pointer graph, node by node. -/
def nodeSeq (seq : Head → List Int) : Node → List Node
  | .head h => (seq h).map .page
  | .page _ => []

/-- Every list head of `H` represents the pages that `seq` gives for it, and no
page is linked into two of these lists. -/
def Rep (H : Set Head) (l : Links Node) (seq : Head → List Int) : Prop :=
  Rings (Node.head '' H) l (nodeSeq seq)

/-- The heads of `freelist[0]`, …, `freelist[MAX_PAGE_ORDER - 1]` are in `H`,
and no further element of the array. -/
def HasFreelists (H : Set Head) : Prop :=
  ∀ order, Head.freelist order ∈ H ↔ order < MAX_PAGE_ORDER

/-- The list heads of the buddy system. -/
def buddyHeads : Set Head := { h | ∃ order < MAX_PAGE_ORDER, h = .freelist order }

/-- The heads of the buddy system are its free lists, one for each order. -/
theorem hasFreelists_buddyHeads : HasFreelists buddyHeads := by
  intro order
  constructor
  · rintro ⟨k, hk, h⟩
    cases h
    exact hk
  · exact fun h => ⟨order, h, rfl⟩

/-- Distinct frames have distinct page structs, so that lists of frames can be compared through
their nodes. -/
theorem page_injective : Function.Injective Node.page := fun _ _ h => Node.page.inj h

/-- Replacing the frames on one list replaces the nodes on that list, and only there. -/
theorem nodeSeq_update (seq : Head → List Int) (h : Head) (ps : List Int) :
    nodeSeq (Function.update seq h ps)
      = Function.update (nodeSeq seq) (.head h) (ps.map .page) := by
  funext n
  cases n with
  | page p => rfl
  | head h' =>
      by_cases e : h' = h
      · subst e
        simp [nodeSeq]
      · have e' : Node.head h' ≠ Node.head h := fun he => e (Node.head.inj he)
        simp [nodeSeq, e, e']

section Sequences

variable {H : Set Head} {l : Links Node} {seq : Head → List Int} {h h' : Head} {p : Int}

/-- Each represented list is a ring through its head, in the order of its frames. -/
theorem Rep.ring (hr : Rep H l seq) (hh : h ∈ H) : IsRing l (.head h) ((seq h).map .page) :=
  Rings.ring hr _ ⟨h, hh, rfl⟩

/-- No frame is on a list twice, because a ring passes through every node once. -/
theorem Rep.nodup (hr : Rep H l seq) (hh : h ∈ H) : (seq h).Nodup :=
  List.Nodup.of_map _ (Rings.nodup hr _ ⟨h, hh, rfl⟩)

/-- No frame is on two lists: its page struct has only one pair of links. -/
theorem Rep.sep (hr : Rep H l seq) (hh : h ∈ H) (hh' : h' ∈ H) (hp : p ∈ seq h)
    (hp' : p ∈ seq h') : h = h' :=
  Node.head.inj (Rings.sep hr _ ⟨h, hh, rfl⟩ _ ⟨h', hh', rfl⟩ (.page p)
    (List.mem_map_of_mem hp) (List.mem_map_of_mem hp'))

/-- The walk along a list meets exactly its pages. -/
theorem Rep.onRing_iff (hr : Rep H l seq) (hh : h ∈ H) :
    OnRing l (.head h) (.page p) ↔ p ∈ seq h := by
  rw [(hr.ring hh).onRing_iff (by simp), List.mem_map_of_injective page_injective]

/-- `list_empty` of the source asks whether the represented list has no frames. -/
theorem Rep.listEmpty_iff (hr : Rep H l seq) (hh : h ∈ H) :
    listEmpty l (.head h) = true ↔ seq h = [] := by
  rw [SumiOS.listEmpty_iff (hr.ring hh) (by simp), List.map_eq_nil_iff]

/-- The first entry of a nonempty list is where `next` of its head points to. -/
theorem Rep.next_head (hr : Rep H l seq) (hh : h ∈ H) {ps : List Int} (hs : seq h = p :: ps) :
    l.next (.head h) = .page p := by
  have hn := (hr.ring hh).next_head
  rw [hs] at hn
  simpa using hn.symm

/-- `list_del` of a page on a list takes it out of the sequence and leaves the other lists. -/
theorem Rep.del (hr : Rep H l seq) (hh : h ∈ H) (hp : p ∈ seq h) :
    Rep H (listDel l (.page p)) (Function.update seq h ((seq h).erase p)) := by
  rw [listDel_eq, Rep, nodeSeq_update, List.map_erase page_injective]
  exact Rings.unlink hr ⟨h, hh, rfl⟩ (List.mem_map_of_mem hp)

/-- `list_add_next` of a page that is on no list. -/
theorem Rep.add (hr : Rep H l seq) (hh : h ∈ H) (hp : ∀ h' ∈ H, p ∉ seq h') :
    Rep H (listAddNext l (.head h) (.page p)) (Function.update seq h (p :: seq h)) := by
  rw [listAddNext_eq, Rep, nodeSeq_update]
  refine Rings.insertAfter_head hr ⟨h, hh, rfl⟩ (by simp) ?_
  rintro _ ⟨h', hh', rfl⟩ hm
  exact hp h' hh' ((List.mem_map_of_injective page_injective).mp hm)

end Sequences

/-! ### `alloc_pages` -/

/-- The sequences after the halves of `p` of the orders from `k` to below `m`
were put back. -/
def putBackSeq (seq : Head → List Int) (p : Int) (k m : Nat) : Head → List Int
  | .freelist i =>
      if k ≤ i ∧ i < m then (p + 2 ^ i) :: seq (.freelist i) else seq (.freelist i)
  | h => seq h

/-- The sequences after the first block `p` of `freelist[j]` was taken and its
halves were put back down to order `k`. -/
def splitSeq (seq : Head → List Int) (p : Int) (k j : Nat) : Head → List Int :=
  putBackSeq (Function.update seq (.freelist j) (seq (.freelist j)).tail) p k j

/-- Putting nothing back changes no list, the case in which the block that was found has just the
order asked for. -/
theorem putBackSeq_self (seq : Head → List Int) (p : Int) (k : Nat) :
    putBackSeq seq p k k = seq := by
  funext h
  cases h with
  | freelist i => exact if_neg (by omega)
  | full i => rfl
  | partialSlubs i => rfl
  | list i => rfl

/-- The half of the largest order is linked first, the smaller ones after it. -/
theorem putBackSeq_succ (seq : Head → List Int) (p : Int) (k n : Nat) :
    putBackSeq seq p k (k + (n + 1))
      = putBackSeq (Function.update seq (.freelist (k + n)) ((p + 2 ^ (k + n)) ::
          seq (.freelist (k + n)))) p k (k + n) := by
  funext h
  cases h with
  | freelist i =>
      by_cases e : i = k + n
      · subst e
        simp [putBackSeq]
      · have e' : Head.freelist i ≠ .freelist (k + n) := by simpa using e
        simp only [putBackSeq, Function.update_of_ne e']
        exact if_congr (by omega) rfl rfl
  | full i => rfl
  | partialSlubs i => rfl
  | list i => rfl

/-- Below the largest order the neighbour behind a block begins where the block ends. -/
theorem nextPageByOrder_eq {p : Int} {order : Nat} (h : order < MAX_PAGE_ORDER) :
    nextPageByOrder p order = some (p + 2 ^ order) := if_neg (Nat.not_le.mpr h)

/-- Below the largest order the neighbour in front of a block of the same size begins one block
size earlier. -/
theorem prevPageByOrder_eq {p : Int} {order : Nat} (h : order < MAX_PAGE_ORDER) :
    prevPageByOrder p order = some (p - 2 ^ order) := if_neg (Nat.not_le.mpr h)

section Alloc

variable {H : Set Head} {l : Links Node} {seq : Head → List Int}

/-- The search stops at the first nonempty list, or finds that all lists from `k` on are empty. The
induction is on the number of orders that are left to look at. -/
theorem findOrder_spec (hH : HasFreelists H) (hr : Rep H l seq) :
    ∀ (n k : Nat), k + n = MAX_PAGE_ORDER →
      (findOrder l n k = none ∧ ∀ i, k ≤ i → i < MAX_PAGE_ORDER → seq (.freelist i) = []) ∨
      ∃ j, findOrder l n k = some j ∧ k ≤ j ∧ j < MAX_PAGE_ORDER ∧
        seq (.freelist j) ≠ [] ∧ ∀ i, k ≤ i → i < j → seq (.freelist i) = [] := by
  intro n
  induction n with
  | zero => exact fun k hk => Or.inl ⟨rfl, fun i h1 h2 => by omega⟩
  | succ n ih =>
      intro k hk
      have hkH : Head.freelist k ∈ H := (hH k).mpr (by omega)
      have hemp := hr.listEmpty_iff hkH
      by_cases he : listEmpty l (freelist k) = true
      · have hf : findOrder l (n + 1) k = findOrder l n (k + 1) := by
          simp [findOrder, he]
        have hk0 := hemp.mp he
        -- An empty list at `k` extends what the rest of the search says to `k`.
        have hext : ∀ m, (∀ i, k + 1 ≤ i → i < m → seq (.freelist i) = []) →
            ∀ i, k ≤ i → i < m → seq (.freelist i) = [] := by
          intro m hm i h1 h2
          rcases Nat.eq_or_lt_of_le h1 with rfl | h1
          · exact hk0
          · exact hm i h1 h2
        rcases ih (k + 1) (by omega) with ⟨h1, h2⟩ | ⟨j, h1, h2, h3, h4, h5⟩
        · exact Or.inl ⟨hf.trans h1, hext _ h2⟩
        · exact Or.inr ⟨j, hf.trans h1, by omega, h3, h4, hext _ h5⟩
      · refine Or.inr ⟨k, by simp [findOrder, he], Nat.le_refl k, by omega, ?_, ?_⟩
        · exact fun h0 => he (hemp.mpr h0)
        · exact fun i h1 h2 => by omega

/-- The loop that puts the halves of orders `k, …, k + n - 1` back. -/
theorem putBack_spec (hH : HasFreelists H) {p : Int} {k : Nat} :
    ∀ (n : Nat) (l : Links Node) (seq : Head → List Int), k + n ≤ MAX_PAGE_ORDER →
      Rep H l seq →
      (∀ i, k ≤ i → i < k + n → ∀ h ∈ H, p + 2 ^ i ∉ seq h) →
      Rep H (putBack p k n l) (putBackSeq seq p k (k + n)) := by
  intro n
  induction n with
  | zero =>
      intro l seq _ hr _
      rw [Nat.add_zero, putBackSeq_self]
      exact hr
  | succ n ih =>
      intro l seq hn hr hnew
      have hadd := hr.add ((hH (k + n)).mpr (by omega))
        (hnew (k + n) (by omega) (by omega))
      rw [putBack, nextPageByOrder_eq (by omega), putBackSeq_succ]
      refine ih _ _ (by omega) hadd fun i h1 h2 h hh hm => ?_
      by_cases e : h = .freelist (k + n)
      · subst e
        rw [Function.update_self, List.mem_cons] at hm
        rcases hm with hm | hm
        · have := Block.two_pow_inj (show (2 : Int) ^ i = 2 ^ (k + n) from by omega)
          omega
        · exact hnew i h1 (by omega) _ hh hm
      · rw [Function.update_of_ne e] at hm
        exact hnew i h1 (by omega) h hh hm

/-- The pages of a block after `__alloc_pages` went over them: each has one reference more and is
not free, and all other pages are as before. -/
theorem takePages_apply (p : Int) (n : Nat) (pages : Int → Page) (x : Int) :
    takePages p n pages x =
      if p ≤ x ∧ x < p + n then
        { pages x with refCount := (pages x).refCount + 1, isFree := false }
      else pages x := by
  induction n with
  | zero => exact (if_neg (by omega)).symm
  | succ n ih =>
      simp only [takePages]
      by_cases e : x = p + n
      · subst e
        have hout : takePages p n pages (p + n) = pages (p + n) := by
          rw [ih, if_neg (by omega)]
        rw [Function.update_self, hout, if_pos (by omega)]
      · rw [Function.update_of_ne e, ih]
        exact if_congr (by omega) rfl rfl

/-- Everything a call of `alloc_pages` can do. It fails when no list from
`order` on has a block, and then changes nothing. Otherwise it takes the first
block of the first such list, and the halves go to the lists in between. -/
theorem allocPages_cases (hH : HasFreelists H) {b : Buddy} (hr : Rep H b.links seq) (k : Nat)
    (hhalf : ∀ j p, p ∈ seq (.freelist j) → j < MAX_PAGE_ORDER →
      (∀ i, k ≤ i → i < j → seq (.freelist i) = []) →
      ∀ i, k ≤ i → i < j → ∀ h ∈ H, p + 2 ^ i ∉ seq h) :
    (allocPages b k = (b, none) ∧
        ∀ i, k ≤ i → i < MAX_PAGE_ORDER → seq (.freelist i) = []) ∨
    ∃ j p ps links, k ≤ j ∧ j < MAX_PAGE_ORDER ∧ seq (.freelist j) = p :: ps ∧
      (∀ i, k ≤ i → i < j → seq (.freelist i) = []) ∧
      Rep H links (splitSeq seq p k j) ∧
      allocPages b k = (⟨links, takePages p (2 ^ k) b.pages⟩, some p) := by
  by_cases hk : k ≥ MAX_PAGE_ORDER
  · exact Or.inl ⟨if_pos hk, fun i h1 h2 => by omega⟩
  · rcases findOrder_spec hH hr (MAX_PAGE_ORDER - k) k (by omega) with
      ⟨hf, hempty⟩ | ⟨j, hf, hkj, hj, hne, hempty⟩
    · refine Or.inl ⟨?_, hempty⟩
      simp [allocPages, allocPagesLocked, hk, allocPageDirect, hf]
    · obtain ⟨p, ps, hps⟩ : ∃ p ps, seq (.freelist j) = p :: ps := List.exists_cons_of_ne_nil hne
      have hjH : Head.freelist j ∈ H := (hH j).mpr hj
      have hpj : p ∈ seq (.freelist j) := hps ▸ List.mem_cons_self
      have hnext : b.links.next (freelist j) = .page p := hr.next_head hjH hps
      -- The block is unlinked first, and then the halves go back from the largest on.
      have hdel := hr.del hjH hpj
      rw [hps, List.erase_cons_head] at hdel
      have hput : Rep H (putBack p k (j - k) (listDel b.links (.page p)))
          (splitSeq seq p k j) := by
        have h := putBack_spec hH (p := p) (k := k) (j - k) _ _ (by omega) hdel (by
          intro i h1 h2 h hh hm
          refine hhalf j p hpj hj hempty i h1 (by omega) h hh ?_
          by_cases e : h = .freelist j
          · subst e
            rw [Function.update_self] at hm
            exact hps ▸ List.mem_cons_of_mem _ hm
          · rwa [Function.update_of_ne e] at hm)
        rwa [show k + (j - k) = j from by omega,
          show ps = (seq (.freelist j)).tail from by rw [hps, List.tail_cons]] at h
      refine Or.inr ⟨j, p, ps, _, hkj, hj, hps, hempty, hput, ?_⟩
      simp [allocPages, allocPagesLocked, hk, allocPageDirect, hf, hnext, listEntry]

end Alloc

/-! ### `free_pages` -/

section Free

variable {mapped : Int → Bool}

/-- The head flags of a page: what `__free_pages` tests, apart from the page
table. -/
def Flagged (b : Buddy) (q : Int) : Prop :=
  (b.pages q).isFree = true ∧ (b.pages q).isHead = true

/-- The test of the source in its two parts: the neighbour's page struct is mapped, and its flags
say that it is free and the head of a block. -/
theorem mergeable_iff {b : Buddy} {q : Int} :
    mergeable mapped b q = true ↔ mapped q = true ∧ Flagged b q := by
  simp [mergeable, Flagged, and_assoc]

/-- The rule for the loop of `__free_pages`: what each of the two merges keeps
holds when the loop is left, and then neither neighbour can be merged or the
order is the largest one. -/
theorem combine_induct (mapped : Int → Bool) {I : Buddy → Int → Nat → Prop}
    (hnext : ∀ b p o, o < MAX_PAGE_ORDER - 1 → I b p o →
      mergeable mapped b (p + 2 ^ o) = true → I (mergeNext b (p + 2 ^ o)) p (o + 1))
    (hprev : ∀ b p o, o < MAX_PAGE_ORDER - 1 → I b p o →
      mergeable mapped b (p + 2 ^ o) = false → mergeable mapped b (p - 2 ^ o) = true →
      I (mergePrev b p (p - 2 ^ o)) (p - 2 ^ o) (o + 1)) :
    ∀ (n : Nat) (b : Buddy) (p : Int) (o : Nat), o + n = MAX_PAGE_ORDER - 1 → I b p o →
      ∃ b' p' o', combine mapped n b p o = (b', p', o') ∧ I b' p' o' ∧ o ≤ o' ∧
        o' < MAX_PAGE_ORDER ∧
        (o' < MAX_PAGE_ORDER - 1 →
          mergeable mapped b' (p' + 2 ^ o') = false ∧
          mergeable mapped b' (p' - 2 ^ o') = false) := by
  have hmax : MAX_PAGE_ORDER = 11 := rfl
  intro n
  induction n with
  | zero => exact fun b p o ho hI => ⟨b, p, o, rfl, hI, Nat.le_refl o, by omega, by omega⟩
  | succ n ih =>
      intro b p o ho hI
      simp only [combine, nextPageByOrder_eq (show o < MAX_PAGE_ORDER from by omega),
        prevPageByOrder_eq (show o < MAX_PAGE_ORDER from by omega)]
      by_cases hn : mergeable mapped b (p + 2 ^ o) = true
      · -- The block behind is merged first.
        obtain ⟨b', p', o', h1, h2, h3, h4, h5⟩ :=
          ih _ _ _ (by omega) (hnext b p o (by omega) hI hn)
        refine ⟨b', p', o', ?_, h2, by omega, h4, h5⟩
        simpa [Option.filter, hn] using h1
      · rw [Bool.not_eq_true] at hn
        by_cases hp : mergeable mapped b (p - 2 ^ o) = true
        · obtain ⟨b', p', o', h1, h2, h3, h4, h5⟩ :=
            ih _ _ _ (by omega) (hprev b p o (by omega) hI hn hp)
          refine ⟨b', p', o', ?_, h2, by omega, h4, h5⟩
          simpa [Option.filter, hn, hp] using h1
        · -- Neither neighbour can be merged, and the loop stops.
          rw [Bool.not_eq_true] at hp
          refine ⟨b, p, o, ?_, hI, Nat.le_refl o, by omega, fun _ => ⟨hn, hp⟩⟩
          simp [Option.filter, hn, hp]

/-- `free_pages` is its loop followed by the insertion of the block that the loop has come to. -/
theorem freePages_eq {b b' : Buddy} {p p' : Int} {k k' : Nat} (hk : k < MAX_PAGE_ORDER)
    (h : combine mapped (MAX_PAGE_ORDER - 1 - k) b p k = (b', p', k')) :
    freePages mapped b (some p) k = putFree b' p' k' := by
  simp [freePages, freePagesLocked, Nat.not_le.mpr hk, h]

variable {H : Set Head} {b : Buddy} {seq : Head → List Int} {p q : Int}

/-- Merging with the neighbour behind unlinks that neighbour from its list, the other lists are as
before. -/
theorem Rep.mergeNext (hr : Rep H b.links seq) {h : Head} (hh : h ∈ H) (hq : q ∈ seq h) :
    Rep H (mergeNext b q).links (Function.update seq h ((seq h).erase q)) := hr.del hh hq

/-- Merging with the neighbour in front unlinks that neighbour from its list, the other lists are
as before. -/
theorem Rep.mergePrev (hr : Rep H b.links seq) {h : Head} (hh : h ∈ H) (hq : q ∈ seq h) :
    Rep H (mergePrev b p q).links (Function.update seq h ((seq h).erase q)) := hr.del hh hq

/-- Freeing puts the block at the front of the free list of its order, which presupposes that it is
on no list yet. -/
theorem Rep.putFree (hr : Rep H b.links seq) {o : Nat} (ho : .freelist o ∈ H)
    (hp : ∀ h ∈ H, p ∉ seq h) :
    Rep H (putFree b p o).links (Function.update seq (.freelist o) (p :: seq (.freelist o))) :=
  hr.add ho hp

/-- A merge with the block behind clears one head flag. -/
theorem pages_mergeNext (x : Int) :
    (mergeNext b q).pages x = if x = q then { b.pages x with isHead := false } else b.pages x := by
  by_cases e : x = q
  · subst e
    simp [mergeNext, setHead, delPage]
  · simp [mergeNext, setHead, delPage, e]

/-- A merge with the block in front makes `p` an inner page. -/
theorem pages_mergePrev (x : Int) :
    (mergePrev b p q).pages x =
      if x = p then { b.pages x with isHead := false, isFree := true } else b.pages x := by
  by_cases e : x = p
  · subst e
    simp [mergePrev, setFree, setHead, delPage]
  · simp [mergePrev, setFree, setHead, delPage, e]

/-- The insertion marks the head of the block and takes its counts away, and leaves all other
pages. -/
theorem pages_putFree (o : Nat) (x : Int) :
    (putFree b p o).pages x =
      if x = p then
        { b.pages x with refCount := -1, mapCount := -1, isFree := true, isHead := true }
      else b.pages x := by
  by_cases e : x = p
  · subst e
    simp [putFree]
  · simp [putFree, e]

end Free

end SumiOS
