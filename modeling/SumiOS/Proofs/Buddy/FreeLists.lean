import SumiOS.Proofs.Buddy.Counter

/-!
# `SumiOS.Proofs.Buddy.FreeLists`: the free lists and the flags

A page should be linked on a free list exactly when `is_free` and `is_head` are
both set. `free_pages` restores that after every merge, in any state. A split
does not: `__alloc_page_direct` links the halves and sets no flag. And a block
that holds the head of another free block is handed out with that flag cleared.
`KeepsFlags` excludes these two kinds of allocation, and runs without them keep
the lists and the flags in agreement (`freeListsOk_of_keepsFlags`).

The invariant asks for nothing about the frames of the blocks. Only the starts
of the outstanding blocks matter: they are distinct and on no list.
-/

set_option autoImplicit false

namespace SumiOS

open Lib

/-- The free lists are well formed, share no page, and hold exactly the pages
that `__free_pages` takes for the heads of free blocks. -/
structure FreeListsOk (b : Buddy) : Prop where
  ring : ∀ k < MAX_PAGE_ORDER, ∃ ps : List Int,
    ps.Nodup ∧ IsRing b.links (freelist k) (ps.map .page)
  sep : ∀ j < MAX_PAGE_ORDER, ∀ k < MAX_PAGE_ORDER, ∀ p,
    OnRing b.links (freelist j) (.page p) → OnRing b.links (freelist k) (.page p) → j = k
  flags : ∀ q, (∃ k < MAX_PAGE_ORDER, OnRing b.links (freelist k) (.page q)) ↔ Flagged b q

/-- An allocation fails, or it takes a block of its own order that holds no
further page with both head flags. -/
def KeepsFlags (s : Sys) : Call → Prop
  | .alloc order =>
      order ≥ MAX_PAGE_ORDER ∨
      (∀ j, order ≤ j → ∀ p, ¬ FreeBlock s.buddy ⟨p, j⟩) ∨
      ∃ p, s.buddy.links.next (freelist order) = .page p ∧
        ∀ x ∈ (Block.mk p order).frames, x ≠ p → ¬ Flagged s.buddy x
  | .free _ _ => True

/-- The lists and the flags agree, and outstanding blocks start at different
pages that are on no list. -/
structure ListInv (b : Buddy) (seq : Head → List Int) (out : List Block) : Prop where
  rep : Rep buddyHeads b.links seq
  flags : ∀ q, Flagged b q ↔ ∃ k, Listed seq ⟨q, k⟩
  starts : (out.map Block.start).Nodup
  unlisted : ∀ c ∈ out, ∀ h ∈ buddyHeads, c.start ∉ seq h
  small : ∀ c ∈ out, c.order < MAX_PAGE_ORDER

section

variable {mapped : Int → Bool} {b : Buddy} {seq : Head → List Int} {out : List Block}

/-- The invariant says that the free lists are well formed, which is what is to be shown after
every call. -/
theorem ListInv.ok (hI : ListInv b seq out) : FreeListsOk b where
  ring k hk :=
    have hkH : Head.freelist k ∈ buddyHeads := ⟨k, hk, rfl⟩
    ⟨seq (.freelist k), hI.rep.nodup hkH, hI.rep.ring hkH⟩
  sep j hj k hk p h h' := by
    have hp := (hI.rep.onRing_iff ⟨j, hj, rfl⟩).mp h
    have hp' := (hI.rep.onRing_iff ⟨k, hk, rfl⟩).mp h'
    exact Head.freelist.inj (hI.rep.sep ⟨j, hj, rfl⟩ ⟨k, hk, rfl⟩ hp hp')
  flags q := by
    rw [hI.flags]
    refine exists_congr fun k => and_congr_right fun hk => ?_
    exact hI.rep.onRing_iff ⟨k, hk, rfl⟩

/-- Taking a block of its own order that holds no other page with both flags. -/
theorem ListInv.take {p : Int} {k : Nat} {ps : List Int} {links : Links Node}
    (hI : ListInv b seq out) (hk : k < MAX_PAGE_ORDER) (hps : seq (.freelist k) = p :: ps)
    (hin : ∀ x ∈ (Block.mk p k).frames, x ≠ p → ¬ Flagged b x)
    (hrep : Rep buddyHeads links (splitSeq seq p k k)) :
    ListInv ⟨links, takePages p (2 ^ k) b.pages⟩ (splitSeq seq p k k) (⟨p, k⟩ :: out) := by
  have hH := hasFreelists_buddyHeads
  have hpl : Listed seq ⟨p, k⟩ := ⟨hk, hps ▸ List.mem_cons_self⟩
  -- Nothing is split, so the free blocks are the ones before without `⟨p, k⟩`.
  have hlist : ∀ q m, Listed (splitSeq seq p k k) ⟨q, m⟩ ↔ Listed seq ⟨q, m⟩ ∧ q ≠ p := by
    intro q m
    rw [listed_splitSeq hH hI.rep hk hps]
    constructor
    · rintro (⟨hm, hne⟩ | ⟨i, h1, h2, -⟩)
      · refine ⟨hm, ?_⟩
        rintro rfl
        exact hne (by rw [Listed.order_unique hH hI.rep hm hpl])
      · omega
    · rintro ⟨hm, hne⟩
      exact Or.inl ⟨hm, fun e => hne (Block.mk.inj e).1⟩
  refine ⟨hrep, fun q => ?_, ?_, fun c hc h hh hm => ?_, fun c hc => ?_⟩
  · rw [flagged_takePages, hI.flags]
    simp only [hlist]
    constructor
    · rintro ⟨⟨m, hm⟩, hout⟩
      exact ⟨m, hm, fun e => hout (e ▸ Block.start_mem ⟨p, k⟩)⟩
    · rintro ⟨m, hm, hne⟩
      exact ⟨⟨m, hm⟩, fun hq => hin q hq hne ((hI.flags q).mpr ⟨m, hm⟩)⟩
  · rw [List.map_cons, List.nodup_cons]
    refine ⟨fun hm => ?_, hI.starts⟩
    obtain ⟨c, hc, hcp⟩ := List.mem_map.mp hm
    exact hI.unlisted c hc _ ⟨k, hk, rfl⟩ (hcp ▸ hpl.2)
  · obtain ⟨i, hi, rfl⟩ := hh
    obtain ⟨hm, hne⟩ := (hlist c.start i).mp ⟨hi, hm⟩
    rcases List.mem_cons.mp hc with rfl | hc
    · exact hne rfl
    · exact hI.unlisted c hc _ ⟨i, hi, rfl⟩ hm.2
  · rcases List.mem_cons.mp hc with rfl | hc
    · exact hk
    · exact hI.small c hc

/-- The page behind the head of a list is the first of its sequence. -/
theorem Rep.exists_cons {H : Set Head} {l : Links Node} (hr : Rep H l seq) {h : Head}
    (hh : h ∈ H) {p : Int} (hp : l.next (.head h) = .page p) : ∃ ps, seq h = p :: ps := by
  cases hs : seq h with
  | nil =>
      have hnil := hr.ring hh
      rw [hs, List.map_nil, isRing_nil] at hnil
      exact absurd (hnil.1.symm.trans hp) (by simp)
  | cons p' ps =>
      have hfirst := hr.next_head hh hs
      rw [hp, Node.page.injEq] at hfirst
      exact ⟨ps, by rw [hfirst]⟩

/-- An allocation that keeps the flags: it takes a block of just the order asked for, so that
nothing is split and no part goes to a list without its flag. -/
theorem ListInv.alloc {k : Nat} (hI : ListInv b seq out)
    (hC : KeepsFlags ⟨b, out⟩ (.alloc k)) :
    (allocPages b k = (b, none)) ∨
      ∃ p links seq', allocPages b k = (⟨links, takePages p (2 ^ k) b.pages⟩, some p) ∧
        ListInv ⟨links, takePages p (2 ^ k) b.pages⟩ seq' (⟨p, k⟩ :: out) := by
  have hH := hasFreelists_buddyHeads
  by_cases hk : k < MAX_PAGE_ORDER
  · rcases hC with hbig | hnone | ⟨p, hp, hin⟩
    · omega
    · have hempty : ∀ j, k ≤ j → j < MAX_PAGE_ORDER → seq (.freelist j) = [] := by
        intro j hkj hj
        rw [List.eq_nil_iff_forall_not_mem]
        exact fun p hp => hnone j hkj p ((freeBlock_iff hH hI.rep).mpr ⟨hj, hp⟩)
      rcases allocPages_cases hH hI.rep k (fun j p hp hj _ i h1 h2 => by
          rw [hempty j (by omega) hj] at hp
          exact absurd hp List.not_mem_nil) with ⟨h, -⟩ | ⟨j, p, ps, -, h1, h2, h3, -⟩
      · exact Or.inl h
      · rw [hempty j h1 h2] at h3
        exact absurd h3 (by simp)
    · obtain ⟨ps, hps⟩ := hI.rep.exists_cons ⟨k, hk, rfl⟩ hp
      -- The list of the order itself is not empty, so no other is looked at.
      have hown : ∀ j, k ≤ j → (∀ i, k ≤ i → i < j → seq (.freelist i) = []) → j = k := by
        intro j hkj hempty
        by_contra hne
        have hnil := hempty k (le_refl k) (by omega)
        rw [hps] at hnil
        exact absurd hnil (by simp)
      rcases allocPages_cases hH hI.rep k (fun j p _ _ hempty i h1 h2 => by
          have := hown j (by omega) hempty
          omega) with ⟨-, h⟩ | ⟨j, p', ps', links, h1, h2, h3, h4, h5, h6⟩
      · rw [h k (le_refl k) hk] at hps
        exact absurd hps (by simp)
      · obtain rfl := hown j h1 h4
        obtain ⟨rfl, rfl⟩ := List.cons.inj (hps.symm.trans h3)
        exact Or.inr ⟨p, links, _, h6, hI.take hk hps hin h5⟩
  · exact Or.inl (if_pos (Nat.not_lt.mp hk))

/-- `free_pages` keeps the lists and the flags in agreement, whatever it merges: each merge unlinks
a block and clears its flag, and the block that is put on a list in the end is flagged. -/
theorem ListInv.free {p : Int} {k : Nat} (hI : ListInv b seq out) (hmem : ⟨p, k⟩ ∈ out) :
    ∃ seq', ListInv (freePages mapped b (some p) k) seq' (out.erase ⟨p, k⟩) := by
  have hH := hasFreelists_buddyHeads
  obtain ⟨b', seq', p', o', heq, hM, hlinked, -, ho, -⟩ :=
    free_induct mapped (R := fun b' seq' _ _ => ∀ c, Listed seq' c → Flagged b' c.start) hH
      (hI.small _ hmem)
      (Merging.start hI.rep (fun q _ hq => (hI.flags q).mp hq) (hI.unlisted _ hmem))
      (fun c hc => (hI.flags c.start).mpr ⟨c.order, hc⟩)
      (fun _ _ _ _ _ _ hM _ hq hlinked => flagged_mergeNext hH hM.rep hq hlinked)
      (fun _ _ _ _ _ _ hM _ _ _ hlinked => flagged_mergePrev hH hM.rep hM.unlisted hlinked)
  obtain ⟨hrep, hfl⟩ := hM.putFree hH ho
  have hput : ∀ c, Listed (putSeq seq' p' o') c ↔ c = ⟨p', o'⟩ ∨ Listed seq' c :=
    fun c => listed_putSeq ho
  -- The freed block was on the list of the client once.
  have hperm : (out.map Block.start).Perm (p :: (out.erase ⟨p, k⟩).map Block.start) :=
    (List.perm_cons_erase hmem).map Block.start
  have hnodup := List.nodup_cons.mp (hperm.nodup_iff.mp hI.starts)
  refine ⟨putSeq seq' p' o', heq ▸ hrep, fun q => ⟨heq ▸ hfl q, ?_⟩, hnodup.2,
    fun c hc h hh hm => ?_, fun c hc => hI.small c (List.mem_of_mem_erase hc)⟩
  · rintro ⟨m, hm⟩
    rw [heq]
    exact flagged_putFree hH hM.unlisted ho hlinked _ hm
  · obtain ⟨i, hi, rfl⟩ := hh
    -- No block that a client still holds starts where a listed one does.
    have hold : ∀ j, ¬ Listed seq ⟨c.start, j⟩ := fun j hj =>
      hI.unlisted c (List.mem_of_mem_erase hc) _ ⟨j, hj.1, rfl⟩ hj.2
    rcases (hput ⟨c.start, i⟩).mp ⟨hi, hm⟩ with h | h
    · -- The new block starts at the freed page or at a page that was listed.
      have hstart : c.start = p' := (Block.mk.inj h).1
      rcases hM.origin with rfl | ⟨r, hr, -⟩
      · exact hnodup.1 (List.mem_map.mpr ⟨c, hc, hstart⟩)
      · exact hold r (hstart ▸ hr)
    · exact hold i (hM.sub _ h)

end

/-- In a run from one contiguous run of frames whose allocations all keep the
flags, the free lists and the flags agree in every state. -/
theorem freeListsOk_of_keepsFlags (mapped : Int → Bool) (b : Buddy) (start : Int) (n : Nat)
    (hU : Untouched mapped b (frameRange start n)) (calls : List Call)
    (hkeep : Guarded (step mapped) KeepsFlags ⟨freeRange mapped b start n, []⟩ calls) :
    Always (step mapped) (fun s => FreeListsOk s.buddy) ⟨freeRange mapped b start n, []⟩
      calls := by
  obtain ⟨seq, hT⟩ := freeRange_spec hU
  have hfirst : ListInv (freeRange mapped b start n) seq [] :=
    ⟨hT.inv.rep, fun q => ⟨hT.inv.flagged q, fun ⟨k, hk⟩ => hT.linked _ hk⟩, List.nodup_nil,
      fun c hc => absurd hc List.not_mem_nil, fun c hc => absurd hc List.not_mem_nil⟩
  refine always_of_guarded (I := fun s => ∃ seq, ListInv s.buddy seq s.outstanding)
    (fun s ⟨seq, hI⟩ => hI.ok) ?_ ⟨seq, hfirst⟩ hkeep
  rintro ⟨b, out⟩ a s' ⟨seq, hI⟩ hC hs
  cases a with
  | alloc order =>
      rcases hI.alloc hC with heq | ⟨p, links, seq', heq, hI'⟩
      · simp only [step, heq, Option.some.injEq] at hs
        exact hs ▸ ⟨seq, hI⟩
      · simp only [step, heq, Option.some.injEq] at hs
        exact hs ▸ ⟨seq', hI'⟩
  | free p order =>
      obtain ⟨hmem, rfl⟩ := step_free_iff.mp hs
      exact hI.free hmem

/-- Seven frames are handed out in blocks of four, two and one, and come back from the last
one on. Two of the frees merge their block with a neighbour. -/
theorem freeListsOk_of_keepsFlags_seven :
    Always (step fun _ => true) (fun s => FreeListsOk s.buddy)
        ⟨freeRange (fun _ => true) cleared 0 7, []⟩
        [.alloc 0, .alloc 1, .alloc 2, .free 6 0, .free 4 1, .free 0 2] ∧
      (run (step fun _ => true) ⟨freeRange (fun _ => true) cleared 0 7, []⟩
        [.alloc 0, .alloc 1, .alloc 2, .free 6 0, .free 4 1, .free 0 2]).map
          (fun s => s.buddy.links.next (freelist 3)) = some (.page 0) := by
  -- Every block is the first of its own list, and no other page of it is flagged.
  have htakes : ∀ (s : Sys) (p : Int) (k : Nat), s.buddy.links.next (freelist k) = .page p →
      (∀ x, p < x → x < p + 2 ^ k → (s.buddy.pages x).isHead = false) →
      KeepsFlags s (.alloc k) := by
    refine fun s p k hnext hhead => Or.inr (Or.inr ⟨p, hnext, fun x hx hne hflag => ?_⟩)
    have hx : p ≤ x ∧ x < p + 2 ^ k := hx
    exact absurd (hflag.2.symm.trans (hhead x (by omega) hx.2)) (by decide)
  have hpair : (run (step fun _ => true) ⟨freeRange (fun _ => true) cleared 0 7, []⟩
      [.alloc 0]).map (fun s => (s.buddy.links.next (freelist 1), (s.buddy.pages 5).isHead))
      = some (.page 4, false) := by decide
  have hfour : (run (step fun _ => true) ⟨freeRange (fun _ => true) cleared 0 7, []⟩
      [.alloc 0, .alloc 1]).map (fun s => (s.buddy.links.next (freelist 2),
        (s.buddy.pages 1).isHead, (s.buddy.pages 2).isHead, (s.buddy.pages 3).isHead))
      = some (.page 0, false, false, false) := by decide
  refine ⟨freeListsOk_of_keepsFlags _ cleared 0 7 (cleared_untouched _) _
    ⟨htakes _ 6 0 (by decide) fun x h1 h2 => by omega, fun s₁ h₁ => ⟨?_, fun s₂ h₂ =>
      ⟨?_, fun _ _ => ⟨trivial, fun _ _ => ⟨trivial, fun _ _ =>
        ⟨trivial, fun _ _ => trivial⟩⟩⟩⟩⟩⟩, by decide⟩
  · rw [run_cons.mpr ⟨s₁, h₁, rfl⟩, Option.map_some, Option.some.injEq, Prod.mk.injEq] at hpair
    refine htakes _ 4 1 hpair.1 fun x h1 h2 => ?_
    obtain rfl : x = 5 := by omega
    exact hpair.2
  · rw [run_cons.mpr ⟨s₁, h₁, run_cons.mpr ⟨s₂, h₂, rfl⟩⟩, Option.map_some, Option.some.injEq,
      Prod.mk.injEq, Prod.mk.injEq, Prod.mk.injEq] at hfour
    obtain ⟨hnext, hone, htwo, hthree⟩ := hfour
    refine htakes _ 0 2 hnext fun x h1 h2 => ?_
    obtain rfl | rfl | rfl : x = 1 ∨ x = 2 ∨ x = 3 := by omega
    · exact hone
    · exact htwo
    · exact hthree

/-- Two frames, of which one is handed out: the other one is on a list, and its
`is_head` is not set. -/
theorem not_always_freeListsOk :
    ¬ Always (step fun _ => true) (fun s => FreeListsOk s.buddy)
      ⟨freeRange (fun _ => true) cleared 0 2, []⟩ [.alloc 0] := by
  intro h
  have hrun : (run (step fun _ => true) ⟨freeRange (fun _ => true) cleared 0 2, []⟩
      [.alloc 0]).map (fun s => (s.buddy.links.next (freelist 0), (s.buddy.pages 1).isHead))
      = some (.page 1, false) := by decide
  obtain ⟨s, hs, heq⟩ := Option.map_eq_some_iff.mp hrun
  obtain ⟨hnext, hhead⟩ := Prod.mk.inj heq
  have hon : OnRing s.buddy.links (freelist 0) (.page 1) := by
    have := OnRing.first (l := s.buddy.links) (h := freelist 0) (by rw [hnext]; decide)
    rwa [hnext] at this
  have hflag := ((h.last hs).flags 1).mp ⟨0, by decide, hon⟩
  rw [Flagged, hhead] at hflag
  exact Bool.false_ne_true hflag.2

end SumiOS
