import SumiOS.Proofs.Buddy.Counter

/-!
# `SumiOS.Proofs.Buddy.RefCount`: the reference counts of a block

`__alloc_pages` adds one to the count of every page of the block that it hands
out. `__free_pages` sets one count back to `-1`, the one of the page that heads
the block in the end. So a page has the count `-1` exactly when it has headed a
free block since it was last handed out, and a block is handed out with equal
counts when that is so for all of its pages (`counts_iff_headsOnly`).

`Marked` adds the set of these pages to the state of a run. The init loop frees
the frames of a run in ascending order, and every block it makes starts at an
even distance from the first frame: the frames at even distances are marked
then, and no others (`refCount_freeRange`).
-/

set_option autoImplicit false

namespace SumiOS

open Lib

/-- The first page of the block that `alloc_pages(order)` takes. -/
def firstFit (l : Links Node) (order : Nat) : Option Int :=
  if order ≥ MAX_PAGE_ORDER then none
  else (findOrder l (MAX_PAGE_ORDER - order) order).map fun j => listEntry (l.next (freelist j))

/-- The page that heads the free block when `free_pages(p, order)` ends. -/
def freeHead (mapped : Int → Bool) (b : Buddy) (p : Int) (order : Nat) : Int :=
  (combine mapped (MAX_PAGE_ORDER - 1 - order) b p order).2.1

/-- A call that hands out a block leaves all of its pages with the count `v`. -/
def CountsAre (v : Int) (s : Sys) : Call → Prop
  | .alloc order => ∀ p, (allocPages s.buddy order).2 = some p →
      ∀ x ∈ (Block.mk p order).frames, ((allocPages s.buddy order).1.pages x).refCount = v
  | .free _ _ => True

/-- The system, and the pages that headed a free block since they were last
handed out. -/
structure Marked where
  sys : Sys
  headed : Set Int

/-- One call on a marked system. -/
def markStep (mapped : Int → Bool) (m : Marked) (a : Call) : Option Marked :=
  (step mapped m.sys a).map fun s => ⟨s,
    match a with
    | .alloc order =>
        match firstFit m.sys.buddy.links order with
        | some p => m.headed \ (Block.mk p order).frames
        | none => m.headed
    | .free p order => insert (freeHead mapped m.sys.buddy p order) m.headed⟩

/-- A call hands out marked pages only. -/
def HeadsOnly (m : Marked) : Call → Prop
  | .alloc order => ∀ p, firstFit m.sys.buddy.links order = some p →
      (Block.mk p order).frames ⊆ m.headed
  | .free _ _ => True

/-- The frames of the run at an even distance from the first one. -/
def evenFrames (start : Int) (n : Nat) : Set Int := { x | x ∈ frameRange start n ∧ 2 ∣ x - start }

section

variable {mapped : Int → Bool} {b : Buddy} {p x : Int} {k n : Nat}

/-! ### The counts after one call -/

/-- What `alloc_pages` returns, and what it does to the page array. -/
theorem allocPages_fit (b : Buddy) (k : Nat) :
    (allocPages b k).2 = firstFit b.links k ∧
      (allocPages b k).1.pages = match firstFit b.links k with
        | some p => takePages p (2 ^ k) b.pages
        | none => b.pages := by
  unfold allocPages allocPagesLocked allocPageDirect firstFit
  by_cases hk : k ≥ MAX_PAGE_ORDER
  · simp [hk]
  · cases hfind : findOrder b.links (MAX_PAGE_ORDER - k) k with
    | none => simp [hk]
    | some j => simp [hk]

/-- An order that was found is one of the orders that there are. -/
theorem firstFit_lt (h : firstFit b.links k = some p) : k < MAX_PAGE_ORDER := by
  by_contra hk
  simp [firstFit, Nat.not_lt.mp hk] at h

/-- The counts after a block was handed out: one more for each of its pages. -/
theorem refCount_takePages (pages : Int → Page) :
    (x ∈ (Block.mk p k).frames ∧
        (takePages p (2 ^ k) pages x).refCount = (pages x).refCount + 1) ∨
      (x ∉ (Block.mk p k).frames ∧ (takePages p (2 ^ k) pages x).refCount = (pages x).refCount) := by
  rcases takePages_block p k pages x with ⟨hx, h⟩ | ⟨hx, h⟩
  · exact Or.inl ⟨hx, by rw [h]⟩
  · exact Or.inr ⟨hx, by rw [h]⟩

/-- The counts after `free_pages`: the head of the block that goes to a list has `-1`, and all
other pages keep theirs, those of the freed block included. -/
theorem refCount_freePages (hk : k < MAX_PAGE_ORDER) :
    ((freePages mapped b (some p) k).pages x).refCount
      = if x = freeHead mapped b p k then -1 else (b.pages x).refCount := by
  obtain ⟨b', p', o', hc, hsame, -⟩ :=
    combine_induct mapped (I := fun b' _ _ => ∀ y, (b'.pages y).refCount = (b.pages y).refCount)
      (fun b' q o _ h _ y => by
        rw [pages_mergeNext]
        split <;> exact h y)
      (fun b' q o _ h _ _ y => by
        rw [pages_mergePrev]
        split <;> exact h y)
      (MAX_PAGE_ORDER - 1 - k) b p k (by omega) fun _ => rfl
  have hhead : freeHead mapped b p k = p' := by rw [freeHead, hc]
  rw [freePages_eq hk hc, pages_putFree, hhead]
  split
  · rfl
  · exact hsame x

/-! ### The counts of the init loop -/

/-- The block that `free_pages` ends with contains the freed page, and is on the
free list of its order. -/
theorem freeHead_spec (hk : k < MAX_PAGE_ORDER) :
    ∃ o < MAX_PAGE_ORDER, p ∈ (Block.mk (freeHead mapped b p k) o).frames ∧
      FreeBlock (freePages mapped b (some p) k) ⟨freeHead mapped b p k, o⟩ := by
  obtain ⟨b', p', o', hc, hmem, -, ho, -⟩ :=
    combine_induct mapped (I := fun _ q o => p ∈ (Block.mk q o).frames)
      (fun _ _ _ _ h _ => by
        rw [Block.frames_succ]
        exact Or.inl h)
      (fun _ q o _ h _ _ => by
        rw [Block.frames_succ, Int.sub_add_cancel]
        exact Or.inr h)
      (MAX_PAGE_ORDER - 1 - k) b p k (by omega) (Block.start_mem ⟨p, k⟩)
  have hhead : freeHead mapped b p k = p' := by rw [freeHead, hc]
  rw [hhead, freePages_eq hk hc]
  have hfirst : (putFree b' p' o').links.next (freelist o') = .page p' := by
    simp [putFree, listAddNext, setNext]
  refine ⟨o', ho, hmem, ho, ?_⟩
  have := OnRing.first (l := (putFree b' p' o').links) (h := freelist o') (by rw [hfirst]; simp)
  rwa [hfirst] at this

/-- A run of one more frame has the next frame at its end. -/
theorem frameRange_succ (start : Int) (n : Nat) :
    frameRange start (n + 1) = frameRange start n ++ [start + n] := by
  simp [frameRange, List.range_succ]

/-- Freeing it is freeing the shorter run first and then that frame. -/
theorem freeRange_succ (mapped : Int → Bool) (b : Buddy) (start : Int) (n : Nat) :
    freeRange mapped b start (n + 1)
      = freePages mapped (freeRange mapped b start n) (some (start + n)) 0 := by
  simp [freeRange, freeFrames, frameRange_succ]

/-- The head after the next frame of the run was freed: a frame of the run at an
even distance, and the freed frame itself when its own distance is even. -/
theorem freeHead_freeRange {start : Int} (hU : Untouched mapped b (frameRange start (n + 1))) :
    freeHead mapped (freeRange mapped b start n) (start + n) 0 ∈ evenFrames start (n + 1) ∧
      (2 ∣ (n : Int) → freeHead mapped (freeRange mapped b start n) (start + n) 0 = start + n) := by
  obtain ⟨seq, hT⟩ := freeRange_spec hU
  have hspec : ∃ o < MAX_PAGE_ORDER,
      start + n ∈ (Block.mk (freeHead mapped (freeRange mapped b start n) (start + n) 0) o).frames ∧
      FreeBlock (freePages mapped (freeRange mapped b start n) (some (start + n)) 0)
        ⟨freeHead mapped (freeRange mapped b start n) (start + n) 0, o⟩ := freeHead_spec (by decide)
  rw [← freeRange_succ] at hspec
  generalize freeHead mapped (freeRange mapped b start n) (start + n) 0 = h at hspec ⊢
  obtain ⟨o, ho, hmem, hfree⟩ := hspec
  rw [freeBlock_iff hasFreelists_buddyHeads hT.inv.rep] at hfree
  have hal := hT.aligned _ hfree
  -- Below the largest order the start is aligned to the next order, and that order is even.
  have heven : 2 ∣ h - start := by
    by_cases hlt : o < topOrder
    · exact (pow_dvd_pow 2 (Nat.succ_le_succ (Nat.zero_le o))).trans (hal.1 hlt)
    · have htop : 1 ≤ o := Nat.le_trans (by decide) (Nat.not_lt.mp hlt)
      exact (pow_dvd_pow 2 htop).trans hal.2
  have hrange : h ∈ frameRange start (n + 1) :=
    mem_frameRange.mpr ((hT.covered h).mp ⟨_, hfree, Block.start_mem _⟩)
  refine ⟨⟨hrange, heven⟩, fun hn => ?_⟩
  -- The block ends with the freed frame, since nothing behind it is free.
  have hlast : h + 2 ^ o - 1 < start + (n + 1 : Nat) := by
    refine ((hT.covered _).mp ⟨_, hfree, ?_⟩).2
    have := Block.two_pow_pos o
    rw [Block.mem_mk]
    omega
  rw [Block.mem_mk] at hmem
  push_cast at hlast
  cases o with
  | zero =>
      rw [pow_zero] at hmem
      omega
  | succ o =>
      rw [Block.two_pow_succ] at hmem hlast
      omega

/-- The counts after the init loop freed one contiguous run of frames: every other frame, the first
one included, was the head of a freed block and has `-1`, and the others have what the page array
held. -/
theorem refCount_freeRange {start : Int} : ∀ {n : Nat}, Untouched mapped b (frameRange start n) →
    ∀ x, (x ∈ evenFrames start n ∧ ((freeRange mapped b start n).pages x).refCount = -1) ∨
      (x ∉ evenFrames start n ∧
        ((freeRange mapped b start n).pages x).refCount = (b.pages x).refCount)
  | 0, _, x => Or.inr ⟨fun h => by simp [evenFrames, frameRange] at h, rfl⟩
  | n + 1, hU, x => by
      have hmem : ∀ y ∈ frameRange start n, y ∈ frameRange start (n + 1) := fun y hy => by
        rw [frameRange_succ]
        exact List.mem_append_left _ hy
      have hU' : Untouched mapped b (frameRange start n) :=
        ⟨fun y hy => hU.mapped y (hmem y hy), hU.notFree, hU.empty⟩
      obtain ⟨heven, hself⟩ := freeHead_freeRange hU
      have hiff : x ∈ evenFrames start (n + 1) ↔
          x ∈ evenFrames start n ∨ (x = start + n ∧ 2 ∣ (n : Int)) := by
        simp only [evenFrames, Set.mem_ofPred_eq, frameRange_succ, List.mem_append,
          List.mem_singleton]
        constructor
        · rintro ⟨h | rfl, h2⟩
          · exact Or.inl ⟨h, h2⟩
          · exact Or.inr ⟨rfl, by omega⟩
        · rintro (⟨h, h2⟩ | ⟨rfl, h2⟩)
          · exact ⟨Or.inl h, h2⟩
          · exact ⟨Or.inr rfl, by omega⟩
      rw [freeRange_succ, refCount_freePages (by decide)]
      -- Only the page that heads the freed block gets the count.
      by_cases hx : x = freeHead mapped (freeRange mapped b start n) (start + n) 0
      · exact Or.inl ⟨hx ▸ heven, if_pos hx⟩
      · rw [if_neg hx]
        have hnew : ¬ (x = start + n ∧ 2 ∣ (n : Int)) := by
          rintro ⟨h1, h2⟩
          exact hx (h1.trans (hself h2).symm)
        rw [hiff, or_iff_left hnew]
        exact refCount_freeRange hU' x

/-! ### Runs -/

/-- What a run keeps: the marked pages have the count `-1`. -/
structure Marks (m : Marked) : Prop where
  headed : ∀ x ∈ m.headed, (m.sys.buddy.pages x).refCount = -1
  small : ∀ c ∈ m.sys.outstanding, c.order < MAX_PAGE_ORDER

/-- The pages that are not marked have references. -/
def Referenced (m : Marked) : Prop := ∀ x, x ∉ m.headed → 0 ≤ (m.sys.buddy.pages x).refCount

/-- What one call does to the marks and the counts: nothing, when it fails; the count of all pages
of the block is changed by an allocation; one page gets the count and the mark by a free. -/
theorem markStep_cases {m m' : Marked} {a : Call} (hM : Marks m)
    (hs : markStep mapped m a = some m') :
    (m'.sys.buddy.pages = m.sys.buddy.pages ∧ m'.headed = m.headed ∧
        m'.sys.outstanding = m.sys.outstanding) ∨
    (∃ p k, k < MAX_PAGE_ORDER ∧ m'.sys.buddy.pages = takePages p (2 ^ k) m.sys.buddy.pages ∧
        m'.headed = m.headed \ (Block.mk p k).frames ∧
        m'.sys.outstanding = ⟨p, k⟩ :: m.sys.outstanding) ∨
    ∃ q c, (∀ x, (m'.sys.buddy.pages x).refCount
          = if x = q then -1 else (m.sys.buddy.pages x).refCount) ∧
        m'.headed = insert q m.headed ∧ m'.sys.outstanding = m.sys.outstanding.erase c := by
  obtain ⟨s', hs', rfl⟩ := Option.map_eq_some_iff.mp hs
  cases a with
  | alloc k =>
      obtain ⟨hres, hpages⟩ := allocPages_fit m.sys.buddy k
      rcases halloc : allocPages m.sys.buddy k with ⟨b, res⟩
      simp only [halloc] at hres hpages
      cases hfit : firstFit m.sys.buddy.links k with
      | none =>
          -- No list has a block for the request.
          rw [hfit] at hres hpages
          subst hres
          simp only [SumiOS.step, halloc, Option.some.injEq] at hs'
          exact Or.inl ⟨by rw [← hs']; exact hpages, by simp [hfit], by rw [← hs']⟩
      | some p =>
          rw [hfit] at hres hpages
          subst hres
          simp only [SumiOS.step, halloc, Option.some.injEq] at hs'
          refine Or.inr (Or.inl ⟨p, k, firstFit_lt hfit, ?_, by simp [hfit], by rw [← hs']⟩)
          rw [← hs']
          exact hpages
  | free p k =>
      obtain ⟨hmem, rfl⟩ := step_free_iff.mp hs'
      exact Or.inr (Or.inr ⟨_, _, fun x => refCount_freePages (hM.small _ hmem), rfl, rfl⟩)

/-- Every call keeps the marks: pages that headed a free block since they were last handed out have
the count `-1`, whichever block they are in at the moment. -/
theorem Marks.step {m m' : Marked} {a : Call} (hM : Marks m)
    (hs : markStep mapped m a = some m') : Marks m' := by
  rcases markStep_cases hM hs with ⟨hp, hh, ho⟩ | ⟨p, k, hk, hp, hh, ho⟩ | ⟨q, c, hp, hh, ho⟩
  · exact ⟨by rw [hp, hh]; exact hM.headed, by rw [ho]; exact hM.small⟩
  · refine ⟨fun x hx => ?_, fun c hc => ?_⟩
    · rw [hh] at hx
      rw [hp]
      rcases refCount_takePages (p := p) (k := k) (x := x) m.sys.buddy.pages with h | h
      · exact absurd h.1 hx.2
      · rw [h.2]
        exact hM.headed x hx.1
    · rw [ho] at hc
      rcases List.mem_cons.mp hc with rfl | hc
      · exact hk
      · exact hM.small c hc
  · refine ⟨fun x hx => ?_, fun c hc => ?_⟩
    · rw [hh] at hx
      rw [hp]
      by_cases hq : x = q
      · exact if_pos hq
      · rw [if_neg hq]
        exact hM.headed x (hx.resolve_left hq)
    · rw [ho] at hc
      exact hM.small c (List.mem_of_mem_erase hc)

/-- Every call leaves references to the pages that are not marked, because only a free sets a count
to `-1`, and it marks that page. -/
theorem Referenced.step {m m' : Marked} {a : Call} (hR : Referenced m) (hM : Marks m)
    (hs : markStep mapped m a = some m') : Referenced m' := by
  intro x hx
  rcases markStep_cases hM hs with ⟨hp, hh, -⟩ | ⟨p, k, -, hp, hh, -⟩ | ⟨q, c, hp, hh, -⟩
  · rw [hp]
    exact hR x (hh ▸ hx)
  · rw [hh] at hx
    rw [hp]
    rcases refCount_takePages (p := p) (k := k) (x := x) m.sys.buddy.pages with h | h
    · -- The count was at least `-1`.
      rw [h.2]
      by_cases hm : x ∈ m.headed
      · rw [hM.headed x hm]
        decide
      · have := hR x hm
        omega
    · rw [h.2]
      exact hR x fun hm => hx ⟨hm, h.1⟩
  · rw [hh, Set.mem_insert_iff, not_or] at hx
    rw [hp, if_neg hx.1]
    exact hR x hx.2

/-- A block of marked pages is handed out with the count `0` for all of them. -/
theorem Marks.countsAre {m : Marked} {a : Call} (hM : Marks m) (hC : HeadsOnly m a) :
    CountsAre 0 m.sys a := by
  cases a with
  | free p k => trivial
  | alloc k =>
      intro p hp x hx
      obtain ⟨hres, hpages⟩ := allocPages_fit m.sys.buddy k
      rw [hres] at hp
      rw [hpages, hp]
      rcases refCount_takePages (p := p) (k := k) (x := x) m.sys.buddy.pages with h | h
      · show (takePages p (2 ^ k) m.sys.buddy.pages x).refCount = 0
        rw [h.2, hM.headed x (hC p hp hx)]
        decide
      · exact absurd hx h.1

/-- A block that is handed out with the count `0` for all pages was marked. -/
theorem Referenced.headsOnly {m : Marked} {a : Call} (hR : Referenced m)
    (hC : CountsAre 0 m.sys a) : HeadsOnly m a := by
  cases a with
  | free p k => trivial
  | alloc k =>
      intro p hp x hx
      obtain ⟨hres, hpages⟩ := allocPages_fit m.sys.buddy k
      have hzero := hC p (hres.trans hp) x hx
      rw [hpages, hp] at hzero
      by_contra hm
      have hpos := hR x hm
      rcases refCount_takePages (p := p) (k := k) (x := x) m.sys.buddy.pages with h | h
      · have : (takePages p (2 ^ k) m.sys.buddy.pages x).refCount = 0 := hzero
        omega
      · exact h.1 hx

end

/-- In a run from one contiguous run of frames, every block is handed out with the
count `0` for all of its pages when all of them headed a free block since they
were last handed out; and only then, when no count was negative before the
init loop. -/
theorem counts_iff_headsOnly (mapped : Int → Bool) (b : Buddy) (start : Int) (n : Nat)
    (hU : Untouched mapped b (frameRange start n)) (calls : List Call) :
    (Guarded (markStep mapped) HeadsOnly ⟨⟨freeRange mapped b start n, []⟩, evenFrames start n⟩
        calls →
      Guarded (step mapped) (CountsAre 0) ⟨freeRange mapped b start n, []⟩ calls) ∧
    ((∀ x, 0 ≤ (b.pages x).refCount) →
      Guarded (step mapped) (CountsAre 0) ⟨freeRange mapped b start n, []⟩ calls →
      Guarded (markStep mapped) HeadsOnly ⟨⟨freeRange mapped b start n, []⟩, evenFrames start n⟩
        calls) := by
  have hrefs := refCount_freeRange hU
  have hM : Marks ⟨⟨freeRange mapped b start n, []⟩, evenFrames start n⟩ :=
    ⟨fun x hx => ((hrefs x).resolve_right fun h => h.1 hx).2,
      fun c hc => absurd hc List.not_mem_nil⟩
  -- The set of head frames is bookkeeping beside the system and does not change its runs.
  have hproj : Guarded (step mapped) (CountsAre 0) ⟨freeRange mapped b start n, []⟩ calls ↔
      Guarded (markStep mapped) (fun m a => CountsAre 0 m.sys a)
        ⟨⟨freeRange mapped b start n, []⟩, evenFrames start n⟩ calls :=
    guarded_map (t := ⟨⟨freeRange mapped b start n, []⟩, evenFrames start n⟩) Marked.sys
      fun m a => by simp [markStep, Function.comp_def]
  rw [hproj]
  refine ⟨Guarded.imp (I := Marks) (fun m a m' hM _ hs => hM.step hs)
    (fun m a hM hC => hM.countsAre hC) hM, fun hcount => ?_⟩
  have hR : Referenced ⟨⟨freeRange mapped b start n, []⟩, evenFrames start n⟩ := fun x hx => by
    have h := ((hrefs x).resolve_left fun h => hx h.1).2
    show 0 ≤ ((freeRange mapped b start n).pages x).refCount
    rw [h]
    exact hcount x
  exact Guarded.imp (I := fun m => Marks m ∧ Referenced m)
    (fun m a m' hI _ hs => ⟨hI.1.step hs, hI.2.step hI.1 hs⟩)
    (fun m a hI hC => hI.2.headsOnly hC) ⟨hM, hR⟩

/-- The frame behind the pair is handed out, comes back and is handed out again, each time
with the same count. -/
theorem counts_iff_headsOnly_three :
    Guarded (step fun _ => true) (CountsAre 0) ⟨freeRange (fun _ => true) cleared 0 3, []⟩
      [.alloc 0, .free 2 0, .alloc 0] := by
  have hone : (run (step fun _ => true) ⟨freeRange (fun _ => true) cleared 0 3, []⟩
      [.alloc 0]).map (fun s => freeHead (fun _ => true) s.buddy 2 0) = some 2 := by decide
  have htwo : (run (step fun _ => true) ⟨freeRange (fun _ => true) cleared 0 3, []⟩
      [.alloc 0, .free 2 0]).map (fun s => firstFit s.buddy.links 0) = some (some 2) := by decide
  refine (counts_iff_headsOnly _ cleared 0 3 (cleared_untouched _)
    [.alloc 0, .free 2 0, .alloc 0]).1 ⟨fun p hp x hx => ?_, fun m₁ h₁ => ⟨trivial, fun m₂ h₂ =>
      ⟨fun p hp x hx => ?_, fun _ _ => trivial⟩⟩⟩
  · have hfit : firstFit (freeRange (fun _ => true) cleared 0 3).links 0 = some 2 := by decide
    obtain rfl := Option.some.inj (hfit.symm.trans hp)
    rw [Block.mem_mk, pow_zero] at hx
    obtain rfl : x = 2 := by omega
    exact ⟨by decide, by decide⟩
  · obtain ⟨s₁, hs₁, rfl⟩ := Option.map_eq_some_iff.mp h₁
    obtain ⟨s₂, hs₂, rfl⟩ := Option.map_eq_some_iff.mp h₂
    rw [run_cons.mpr ⟨s₁, hs₁, rfl⟩, Option.map_some, Option.some.injEq] at hone
    rw [run_cons.mpr ⟨s₁, hs₁, run_cons.mpr ⟨s₂, hs₂, rfl⟩⟩, Option.map_some,
      Option.some.injEq] at htwo
    -- Frame 2 heads its block again since it came back.
    obtain rfl := Option.some.inj (htwo.symm.trans hp)
    rw [Block.mem_mk, pow_zero] at hx
    obtain rfl : x = 2 := by omega
    exact Set.mem_insert_iff.mpr (Or.inl hone.symm)
/-- Two frames, handed out together. The second one was merged into the block of
the first, so only the first one lost its count: the block has the counts `0`
and `1`. -/
theorem not_countsAre_pair :
    ¬ ∃ v, Guarded (step fun _ => true) (CountsAre v)
      ⟨freeRange (fun _ => true) cleared 0 2, []⟩ [.alloc 1] := by
  rintro ⟨v, h, -⟩
  have hp : (allocPages (freeRange (fun _ => true) cleared 0 2) 1).2 = some 0 := by decide
  have h0 := h 0 hp 0 ⟨by decide, by decide⟩
  have h1 := h 0 hp 1 ⟨by decide, by decide⟩
  have hcounts : ((allocPages (freeRange (fun _ => true) cleared 0 2) 1).1.pages 0).refCount = 0 ∧
      ((allocPages (freeRange (fun _ => true) cleared 0 2) 1).1.pages 1).refCount = 1 := by decide
  rw [← h0, hcounts.1, hcounts.2] at h1
  exact absurd h1 (by decide)

end SumiOS
