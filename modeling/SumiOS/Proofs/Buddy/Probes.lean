import SumiOS.Proofs.Buddy.Counter

/-!
# `SumiOS.Proofs.Buddy.Probes`: the page structs that the merge test reads

`__free_pages` reads `is_free` of a neighbour as soon as its page struct is mapped.
`combineReads` and `framesReads` list these reads.

Two states that agree on a set of nodes give the same reads and agree again afterwards,
as long as the reads stay in the set (`Agree.frames`). So what the other page structs
hold matters only if one of them is read, and then it can as well be taken to be not
free. In that case the reads are those of a counter that knows nothing but the heads of
the blocks so far (`Quiet.framesReads`): with the frame `x`, it looks at `x + 1`, and one
size in front of the block that ends with `x`, which doubles for every head it finds
there.

The counter compares no orders and sees no holes, as the code does. So it is exact also
for lists that are not `Separated`.
-/

set_option autoImplicit false

namespace SumiOS

open Lib

/-! ### The reads -/

section Reads

variable (mapped : Int → Bool)

/-- The neighbours whose `is_free` the loop of `__free_pages` reads: those that are
mapped, as far as the loop comes to them. -/
def combineReads : Nat → Buddy → Int → Nat → List Int
  | 0, _, _, _ => []
  | n + 1, b, p, order =>
      ((nextPageByOrder p order).filter mapped).toList ++
        match (nextPageByOrder p order).filter (mergeable mapped b) with
        | some next => combineReads n (mergeNext b next) p (order + 1)
        | none =>
            ((prevPageByOrder p order).filter mapped).toList ++
              match (prevPageByOrder p order).filter (mergeable mapped b) with
              | some prev => combineReads n (mergePrev b p prev) prev (order + 1)
              | none => []

/-- The reads while the frames of a list are freed. -/
def framesReads : Buddy → List Int → List Int
  | _, [] => []
  | b, x :: xs =>
      combineReads mapped (MAX_PAGE_ORDER - 1) b x 0 ++
        framesReads (freePages mapped b (some x) 0) xs

end Reads

/-! ### States that agree -/

section LinksAgree

universe u
variable {ν : Type u} {D : Set ν} {l l' : Links ν} {x y e : ν}

/-- The pointers of the nodes of `D` are the same, and `next` stays in `D`. -/
structure LinksAgree (D : Set ν) (l l' : Links ν) : Prop where
  next : ∀ n ∈ D, l.next n = l'.next n
  prev : ∀ n ∈ D, l.prev n = l'.prev n
  inside : ∀ n ∈ D, l.next n ∈ D

/-- Agreement does not tell the two sides apart, so every fact that follows for one of them follows
for the other. -/
theorem LinksAgree.symm (h : LinksAgree D l l') : LinksAgree D l' l where
  next n hn := (h.next n hn).symm
  prev n hn := (h.prev n hn).symm
  inside n hn := h.next n hn ▸ h.inside n hn

/-- A ring of a head in `D` is inside `D`, so the other side has the same ring. -/
theorem LinksAgree.isRing {xs : List ν} (h : LinksAgree D l l') (hx : x ∈ D)
    (hr : IsRing l x xs) : IsRing l' x xs := by
  -- The nodes of the ring are met along `next`, from the head on.
  have hin : ∀ y ∈ x :: xs, y ∈ D := by
    unfold IsRing at hr
    generalize hend : [x] = last at hr
    clear hend
    induction xs generalizing x with
    | nil => exact fun y hy => List.mem_singleton.mp hy ▸ hx
    | cons z zs ih =>
        rw [List.cons_append, List.isChain_cons_cons] at hr
        have hz : z ∈ D := hr.1.1 ▸ h.inside x hx
        exact List.forall_mem_cons.mpr ⟨hx, ih hz hr.2⟩
  exact hr.frame fun a ha => ⟨(h.next a (hin a ha)).symm, (h.prev a (hin a ha)).symm⟩

variable [DecidableEq ν]

/-- Setting the same `next` on both sides keeps them in agreement, as long as the new pointer stays
in `D`. -/
theorem LinksAgree.setNext (h : LinksAgree D l l') (hy : y ∈ D) :
    LinksAgree D (setNext l x y) (setNext l' x y) where
  next n hn := by
    show Function.update l.next x y n = Function.update l'.next x y n
    simp only [Function.update_apply, h.next n hn]
  prev := h.prev
  inside n hn := by
    show Function.update l.next x y n ∈ D
    by_cases e : n = x
    · rwa [e, Function.update_self]
    · rw [Function.update_of_ne e]
      exact h.inside n hn

/-- Setting the same `prev` on both sides keeps them in agreement, and `D` need not contain what it
points to. -/
theorem LinksAgree.setPrev (h : LinksAgree D l l') :
    LinksAgree D (setPrev l x y) (setPrev l' x y) where
  next := h.next
  prev n hn := by
    show Function.update l.prev x y n = Function.update l'.prev x y n
    simp only [Function.update_apply, h.prev n hn]
  inside := h.inside

/-- Unlinking a node of `D` keeps the agreement, because its two neighbours are the same on both
sides. -/
theorem LinksAgree.listDel (h : LinksAgree D l l') (he : e ∈ D) :
    LinksAgree D (listDel l e) (listDel l' e) := by
  have hfirst : LinksAgree D (SumiOS.setPrev l (l.next e) (l.prev e))
      (SumiOS.setPrev l' (l'.next e) (l'.prev e)) := by
    rw [h.next e he, h.prev e he]
    exact h.setPrev
  unfold SumiOS.listDel
  dsimp only
  rw [hfirst.prev e he, ← hfirst.next e he]
  exact hfirst.setNext (hfirst.inside e he)

/-- Linking a node of `D` in behind another one. -/
theorem LinksAgree.listAddNext (h : LinksAgree D l l') (he : e ∈ D) (hx : x ∈ D) :
    LinksAgree D (listAddNext l e x) (listAddNext l' e x) := by
  have hsecond : LinksAgree D (SumiOS.setPrev (SumiOS.setPrev l (l.next e) x) x e)
      (SumiOS.setPrev (SumiOS.setPrev l' (l'.next e) x) x e) := by
    rw [h.next e he]
    exact h.setPrev.setPrev
  unfold SumiOS.listAddNext
  dsimp only
  rw [← hsecond.next e he]
  exact (hsecond.setNext (hsecond.inside e he)).setNext hx

/-- After `list_head_init` the node agrees, whatever it held before on either side: both of its
pointers lead to itself now, which is inside the larger set. -/
theorem LinksAgree.listHeadInit (h : LinksAgree D l l') :
    LinksAgree (insert e D) (listHeadInit l e) (listHeadInit l' e) := by
  have hself : ∀ k : Links ν, (SumiOS.listHeadInit k e).next e = e ∧
      (SumiOS.listHeadInit k e).prev e = e := fun k => by
    simp [SumiOS.listHeadInit, SumiOS.setNext, SumiOS.setPrev]
  have hother : ∀ (k : Links ν) (n : ν), n ≠ e → (SumiOS.listHeadInit k e).next n = k.next n ∧
      (SumiOS.listHeadInit k e).prev n = k.prev n := fun k n hne => by
    simp [SumiOS.listHeadInit, SumiOS.setNext, SumiOS.setPrev, hne]
  refine ⟨fun n hn => ?_, fun n hn => ?_, fun n hn => ?_⟩
  · by_cases hne : n = e
    · rw [hne, (hself l).1, (hself l').1]
    · rw [(hother l n hne).1, (hother l' n hne).1]
      exact h.next n (Set.mem_of_mem_insert_of_ne hn hne)
  · by_cases hne : n = e
    · rw [hne, (hself l).2, (hself l').2]
    · rw [(hother l n hne).2, (hother l' n hne).2]
      exact h.prev n (Set.mem_of_mem_insert_of_ne hn hne)
  · by_cases hne : n = e
    · rw [hne, (hself l).1]
      exact Set.mem_insert e D
    · rw [(hother l n hne).1]
      exact Set.mem_insert_of_mem e (h.inside n (Set.mem_of_mem_insert_of_ne hn hne))

end LinksAgree

/-- The two states have the same pointers in the nodes of `D`, the same `is_free` in
its pages, and the same `is_head` in those that are free. -/
structure Agree (D : Set Node) (b b' : Buddy) : Prop where
  links : LinksAgree D b.links b'.links
  free : ∀ q, .page q ∈ D → (b.pages q).isFree = (b'.pages q).isFree
  head : ∀ q, .page q ∈ D → (b.pages q).isFree = true → (b.pages q).isHead = (b'.pages q).isHead

section Agree

variable {mapped : Int → Bool} {D : Set Node} {b b' : Buddy} {p q : Int} {o : Nat}

/-- Agreement is symmetric: an `is_head` is only compared where `is_free` says that it counts, and
`is_free` agrees. -/
theorem Agree.symm (h : Agree D b b') : Agree D b' b where
  links := h.links.symm
  free q hq := (h.free q hq).symm
  head q hq hf := (h.head q hq ((h.free q hq).trans hf)).symm

/-- The merge test reads a page of `D` alike. -/
theorem Agree.mergeable_eq (h : Agree D b b') (hq : mapped q = true → .page q ∈ D) :
    mergeable mapped b q = mergeable mapped b' q := by
  unfold mergeable
  cases hm : mapped q with
  | false => rfl
  | true =>
      have hD := hq hm
      cases hf : (b.pages q).isFree with
      | false => rw [← h.free q hD, hf, Bool.and_false, Bool.false_and, Bool.false_and]
      | true => rw [← h.free q hD, ← h.head q hD hf, hf]

/-- Merging with the same neighbour behind keeps the two states in agreement: the same pointers
change in both, and the flags of the neighbour are set alike. -/
theorem Agree.mergeNext (h : Agree D b b') (hq : .page q ∈ D) :
    Agree D (mergeNext b q) (mergeNext b' q) where
  links := h.links.listDel hq
  free x hx := by
    simp only [pages_mergeNext]
    by_cases e : x = q
    · simpa [e] using h.free q hq
    · simpa [e] using h.free x hx
  head x hx hf := by
    simp only [pages_mergeNext] at hf ⊢
    by_cases e : x = q
    · simp [e]
    · simp only [e, if_false] at hf ⊢
      exact h.head x hx hf

/-- Merging with the same neighbour in front keeps the two states in agreement: the same pointers
change in both, and the flags of the block at hand are set alike. -/
theorem Agree.mergePrev (h : Agree D b b') (hq : .page q ∈ D) :
    Agree D (mergePrev b p q) (mergePrev b' p q) where
  links := h.links.listDel hq
  free x hx := by
    simp only [pages_mergePrev]
    by_cases e : x = p
    · simp [e]
    · simpa [e] using h.free x hx
  head x hx hf := by
    simp only [pages_mergePrev] at hf ⊢
    by_cases e : x = p
    · simp [e]
    · simp only [e, if_false] at hf ⊢
      exact h.head x hx hf

/-- Putting the same block on the same free list keeps the two states in agreement. -/
theorem Agree.putFree (h : Agree D b b') (ho : freelist o ∈ D) (hp : .page p ∈ D) :
    Agree D (putFree b p o) (putFree b' p o) where
  links := h.links.listAddNext ho hp
  free x hx := by
    simp only [pages_putFree]
    by_cases e : x = p
    · simp [e]
    · simpa [e] using h.free x hx
  head x hx hf := by
    simp only [pages_putFree] at hf ⊢
    by_cases e : x = p
    · simp [e]
    · simp only [e, if_false] at hf ⊢
      exact h.head x hx hf

/-- The merge test on a neighbour, when what is read is in `D`: both states answer alike, and a
neighbour that passes the test is in `D` as well. -/
theorem Agree.filter_mergeable (h : Agree D b b') (x : Option Int)
    (hx : ∀ q ∈ (x.filter mapped).toList, .page q ∈ D) :
    x.filter (mergeable mapped b') = x.filter (mergeable mapped b) ∧
      ∀ q, x.filter (mergeable mapped b) = some q → .page q ∈ D := by
  cases x with
  | none => exact ⟨rfl, fun q hq => absurd hq (by simp)⟩
  | some y =>
      have hy : mapped y = true → .page y ∈ D := fun hm => hx y (by simp [Option.filter, hm])
      refine ⟨by simp only [Option.filter, h.mergeable_eq hy], fun q hq => ?_⟩
      obtain ⟨he, hm⟩ := Option.filter_eq_some_iff.mp hq
      rw [← Option.some.inj he] at hm ⊢
      exact hy (mergeable_iff.mp hm).1

/-- The loop of `__free_pages` reads the same and leaves agreeing states, when what it
reads is in `D`. -/
theorem Agree.combine (n : Nat) (h : Agree D b b') (hp : .page p ∈ D)
    (hreads : ∀ q ∈ combineReads mapped n b p o, .page q ∈ D) :
    combineReads mapped n b' p o = combineReads mapped n b p o ∧
      Agree D (combine mapped n b p o).1 (combine mapped n b' p o).1 ∧
      (combine mapped n b' p o).2 = (combine mapped n b p o).2 ∧
      .page (combine mapped n b p o).2.1 ∈ D := by
  induction n generalizing b b' p o with
  | zero => exact ⟨rfl, h, rfl, hp⟩
  | succ n ih =>
      unfold combineReads at hreads
      obtain ⟨hread, hrest⟩ := List.forall_mem_append.mp hreads
      -- The test of the page behind reads the same on both sides.
      obtain ⟨hnext, hnextD⟩ := h.filter_mergeable _ hread
      unfold combineReads SumiOS.combine
      rw [hnext]
      cases hn : (nextPageByOrder p o).filter (mergeable mapped b) with
      | some q =>
          rw [hn] at hrest
          obtain ⟨hreq, hagree⟩ := ih (h.mergeNext (hnextD q hn)) hp hrest
          exact ⟨congrArg _ hreq, hagree⟩
      | none =>
          rw [hn] at hrest
          -- It fails, so the page in front is read as well.
          obtain ⟨hread, hrest⟩ := List.forall_mem_append.mp hrest
          obtain ⟨hprev, hprevD⟩ := h.filter_mergeable _ hread
          dsimp only
          rw [hprev]
          cases hq : (prevPageByOrder p o).filter (mergeable mapped b) with
          | some q =>
              rw [hq] at hrest
              obtain ⟨hreq, hagree⟩ := ih (h.mergePrev (p := p) (hprevD q hq)) (hprevD q hq) hrest
              exact ⟨by dsimp only; rw [hreq], hagree⟩
          | none => exact ⟨rfl, h, rfl, hp⟩

/-- The same for a list of frames that are freed one after the other, by induction on the list: the
reads of all of them are the same on both sides, and the two states agree in the end. -/
theorem Agree.frames (xs : List Int) (hlists : ∀ k < MAX_PAGE_ORDER, freelist k ∈ D)
    (h : Agree D b b') (hxs : ∀ x ∈ xs, .page x ∈ D)
    (hreads : ∀ q ∈ framesReads mapped b xs, .page q ∈ D) :
    framesReads mapped b' xs = framesReads mapped b xs ∧
      Agree D (freeFrames mapped b xs) (freeFrames mapped b' xs) := by
  induction xs generalizing b b' with
  | nil => exact ⟨rfl, h⟩
  | cons x xs ih =>
      obtain ⟨hx, hxs⟩ := List.forall_mem_cons.mp hxs
      obtain ⟨hfirst, hrest⟩ := List.forall_mem_append.mp hreads
      obtain ⟨hreq, hagree, hblock, hstart⟩ := h.combine (MAX_PAGE_ORDER - 1) hx hfirst
      obtain ⟨b₁, p, o, hc, -, -, ho, -⟩ := combine_induct mapped (I := fun _ _ _ => True)
        (fun _ _ _ _ _ _ => trivial) (fun _ _ _ _ _ _ _ => trivial) (MAX_PAGE_ORDER - 1) b x 0
        rfl trivial
      obtain ⟨b₁', hc'⟩ : ∃ b₁', SumiOS.combine mapped (MAX_PAGE_ORDER - 1) b' x 0 = (b₁', p, o) :=
        ⟨_, Prod.ext rfl (by rw [hblock, hc])⟩
      rw [hc, hc'] at hagree
      rw [hc] at hstart
      have hput := hagree.putFree (p := p) (hlists o ho) hstart
      have hfree : freePages mapped b (some x) 0 = SumiOS.putFree b₁ p o := freePages_eq (by decide) hc
      have hfree' : freePages mapped b' (some x) 0 = SumiOS.putFree b₁' p o :=
        freePages_eq (by decide) hc'
      rw [← hfree, ← hfree'] at hput
      obtain ⟨hreqs, hagrees⟩ := ih hput hxs hrest
      exact ⟨by rw [framesReads, framesReads, hreq, hreqs], hagrees⟩

end Agree

/-! ### The reads of a quiet run -/

/-- The frames that are looked at while the block that ends with `x` grows, from order
`o` on. -/
def looked (heads : List Int) (x : Int) : Nat → Nat → List Int
  | 0, _ => []
  | n + 1, o =>
      let prev := x + 1 - 2 ^ (o + 1)
      (x + 1) :: prev :: if prev ∈ heads then looked (heads.filter (· ≠ prev)) x n (o + 1) else []

/-- The heads afterwards: those that were found are gone, and the block that ends with
`x` has one, which is seen if it is mapped. -/
def addFrame (mapped : Int → Bool) (heads : List Int) (x : Int) : Nat → Nat → List Int
  | 0, o => ((x + 1 - 2 ^ o) :: heads).filter mapped
  | n + 1, o =>
      let prev := x + 1 - 2 ^ (o + 1)
      if prev ∈ heads then addFrame mapped (heads.filter (· ≠ prev)) x n (o + 1)
      else ((x + 1 - 2 ^ o) :: heads).filter mapped

/-- While the frames of a list are added, what is looked at and mapped is `known`. -/
def Confined (mapped : Int → Bool) (known : Int → Prop) : List Int → List Int → Prop
  | _, [] => True
  | heads, x :: xs =>
      (∀ q ∈ looked heads x topOrder 0, mapped q = true → known q) ∧
        Confined mapped known (addFrame mapped heads x topOrder 0) xs

instance Confined.decidable (mapped : Int → Bool) (known : Int → Prop) [DecidablePred known] :
    ∀ heads xs : List Int, Decidable (Confined mapped known heads xs)
  | _, [] => isTrue trivial
  | heads, x :: xs =>
      have := Confined.decidable mapped known (addFrame mapped heads x topOrder 0) xs
      inferInstanceAs (Decidable (_ ∧ _))

section Near

variable {mapped mapped' : Int → Bool} {known near : Int → Prop} {heads : List Int} {x q : Int}

/-- The counter looks at most 1023 frames back and one frame ahead, as blocks have at most 1024
frames. The induction is on the orders that are left. -/
theorem looked_between (n o : Nat) (hn : o + n ≤ topOrder) (hq : q ∈ looked heads x n o) :
    x - 1023 ≤ q ∧ q ≤ x + 1 := by
  induction n generalizing heads o with
  | zero => exact absurd hq List.not_mem_nil
  | succ n ih =>
      have hsize : (2 : Int) ^ (o + 1) ≤ 2 ^ 10 := Block.two_pow_le (by
        have : topOrder = 10 := rfl
        omega)
      have hpos := Block.two_pow_pos (o + 1)
      unfold looked at hq
      dsimp only at hq
      rcases List.mem_cons.mp hq with rfl | hq
      · omega
      rcases List.mem_cons.mp hq with rfl | hq
      · omega
      split at hq
      · exact ih (o + 1) (by omega) hq
      · exact absurd hq List.not_mem_nil

/-- The head of the block that ends with `x`. -/
theorem addHead_near {o : Nat} (ho : o ≤ topOrder) (hmapped : ∀ q, near q → mapped q = mapped' q)
    (hheads : ∀ q ∈ heads, near q) (hx : ∀ q, x - 1023 ≤ q → q ≤ x + 1 → near q) :
    ((x + 1 - 2 ^ o) :: heads).filter mapped = ((x + 1 - 2 ^ o) :: heads).filter mapped' ∧
      ∀ q ∈ ((x + 1 - 2 ^ o) :: heads).filter mapped, near q := by
  have hsize : (2 : Int) ^ o ≤ 2 ^ 10 := Block.two_pow_le ho
  have hpos := Block.two_pow_pos o
  have hall : ∀ q ∈ (x + 1 - 2 ^ o) :: heads, near q :=
    List.forall_mem_cons.mpr ⟨hx _ (by omega) (by omega), hheads⟩
  exact ⟨List.filter_congr fun q hq => hmapped q (hall q hq),
    fun q hq => hall q (List.mem_filter.mp hq).1⟩

/-- The heads stay near, and only what is mapped near them matters, for one frame that is added to
the counter. -/
theorem addFrame_near (n o : Nat) (hn : o + n ≤ topOrder)
    (hmapped : ∀ q, near q → mapped q = mapped' q) (hheads : ∀ q ∈ heads, near q)
    (hx : ∀ q, x - 1023 ≤ q → q ≤ x + 1 → near q) :
    addFrame mapped heads x n o = addFrame mapped' heads x n o ∧
      ∀ q ∈ addFrame mapped heads x n o, near q := by
  induction n generalizing heads o with
  | zero => exact addHead_near (by omega) hmapped hheads hx
  | succ n ih =>
      unfold addFrame
      dsimp only
      by_cases hprev : x + 1 - 2 ^ (o + 1) ∈ heads
      · simp only [if_pos hprev]
        exact ih (o + 1) (by omega) fun q hq => hheads q (List.mem_filter.mp hq).1
      · simp only [if_neg hprev]
        exact addHead_near (by omega) hmapped hheads hx

/-- Whether the looks are confined depends on the mapping near the heads and the frames only,
within one largest block in front of a frame. -/
theorem Confined.congr (hmapped : ∀ q, near q → mapped q = mapped' q) (xs : List Int)
    (hheads : ∀ q ∈ heads, near q) (hxs : ∀ x ∈ xs, ∀ q, x - 1023 ≤ q → q ≤ x + 1 → near q) :
    Confined mapped known heads xs ↔ Confined mapped' known heads xs := by
  induction xs generalizing heads with
  | nil => exact Iff.rfl
  | cons x xs ih =>
      obtain ⟨hx, hxs⟩ := List.forall_mem_cons.mp hxs
      obtain ⟨hsame, hnear⟩ := addFrame_near topOrder 0 (Nat.le_of_eq (Nat.zero_add _)) hmapped hheads hx
      unfold Confined
      rw [ih hnear hxs, hsame]
      refine and_congr_left fun _ => forall₂_congr fun q hq => ?_
      obtain ⟨hlow, hhigh⟩ := looked_between topOrder 0 (Nat.le_of_eq (Nat.zero_add _)) hq
      rw [hmapped q (hx q hlow hhigh)]

end Near

/-- The merge test succeeds for the heads, and no page from `e` on is free. -/
structure Quiet (mapped : Int → Bool) (b : Buddy) (heads : List Int) (e : Int) : Prop where
  seen : ∀ q, mergeable mapped b q = true ↔ q ∈ heads
  unfreed : ∀ q, e ≤ q → (b.pages q).isFree = false

section Quiet

variable {mapped : Int → Bool} {known : Int → Prop} {b : Buddy} {heads : List Int} {e x : Int}

/-- The loop of `__free_pages` on the way, in a quiet run: the block at hand ends with `x`. -/
structure QuietLoop (mapped : Int → Bool) (b : Buddy) (heads : List Int) (x p : Int) (o : Nat) :
    Prop where
  ends : p + 2 ^ o = x + 1
  self : p ∉ heads
  seen : ∀ q, q ≠ p → (mergeable mapped b q = true ↔ q ∈ heads)
  unfreed : ∀ q, x < q → (b.pages q).isFree = false

/-- The insertion that ends the loop: the block at hand is a head now, seen by the test when its
page struct is mapped, and the next frame is the first one that nobody has freed. -/
theorem QuietLoop.put {p : Int} {o : Nat} (h : QuietLoop mapped b heads x p o) :
    Quiet mapped (putFree b p o) (((x + 1 - 2 ^ o) :: heads).filter mapped) (x + 1) := by
  have hends := h.ends
  have hpos := Block.two_pow_pos o
  have hp : x + 1 - 2 ^ o = p := by omega
  refine ⟨fun q => ?_, fun q hq => ?_⟩
  · rw [hp, List.mem_filter, List.mem_cons]
    by_cases hqp : q = p
    · simp [mergeable, pages_putFree, hqp]
    · have hsame : mergeable mapped (putFree b p o) q = mergeable mapped b q := by
        simp only [mergeable, pages_putFree, if_neg hqp]
      have hmapped : mergeable mapped b q = true → mapped q = true :=
        fun hm => (mergeable_iff.mp hm).1
      rw [hsame, h.seen q hqp]
      rw [h.seen q hqp] at hmapped
      simp only [hqp, false_or]
      exact ⟨fun hm => ⟨hm, hmapped hm⟩, And.left⟩
  · have hqp : q ≠ p := by omega
    rw [pages_putFree, if_neg hqp]
    exact h.unfreed q (by omega)

/-- A merge with the head that was found: it is no head any more, and the block at hand now starts
with it. -/
theorem QuietLoop.prev {p : Int} {o : Nat} (h : QuietLoop mapped b heads x p o) :
    QuietLoop mapped (mergePrev b p (p - 2 ^ o)) (heads.filter (· ≠ p - 2 ^ o)) x (p - 2 ^ o)
      (o + 1) := by
  have hends := h.ends
  have hpos := Block.two_pow_pos o
  refine ⟨by rw [Block.two_pow_succ]; omega, by simp, fun q hq => ?_, fun q hq => ?_⟩
  · rw [List.mem_filter]
    simp only [ne_eq, decide_eq_true_eq, hq, not_false_eq_true, and_true]
    by_cases hqp : q = p
    · rw [hqp]
      exact iff_of_false (by simp [mergeable, pages_mergePrev]) h.self
    · have hsame : mergeable mapped (mergePrev b p (p - 2 ^ o)) q = mergeable mapped b q := by
        simp only [mergeable, pages_mergePrev, if_neg hqp]
      rw [hsame, h.seen q hqp]
  · have hqp : q ≠ p := by omega
    rw [pages_mergePrev, if_neg hqp]
    exact h.unfreed q hq

/-- An address that is asked about and filtered, as the list of zero or one elements that the reads
are collected in. -/
theorem toList_filter (x : Int) : ((some x).filter mapped).toList = [x].filter mapped := by
  cases hm : mapped x with
  | false => simp [Option.filter, hm]
  | true => simp [Option.filter, hm]

/-- The loop reads what the counter looks at, and leaves the heads of the counter. -/
theorem QuietLoop.combine (n : Nat) {p : Int} {o : Nat} (ho : o + n = topOrder)
    (h : QuietLoop mapped b heads x p o) :
    combineReads mapped n b p o = (looked heads x n o).filter mapped ∧
      ∀ b' p' o', combine mapped n b p o = (b', p', o') →
        Quiet mapped (putFree b' p' o') (addFrame mapped heads x n o) (x + 1) := by
  induction n generalizing b heads p o with
  | zero =>
      refine ⟨rfl, fun b' p' o' hc => ?_⟩
      obtain ⟨rfl, rfl, rfl⟩ : b = b' ∧ p = p' ∧ o = o' := by simpa [SumiOS.combine] using hc
      exact h.put
  | succ n ih =>
      have hends := h.ends
      have hpos := Block.two_pow_pos o
      have hlt : ¬ o ≥ MAX_PAGE_ORDER := by
        have : topOrder = 10 := rfl
        have : MAX_PAGE_ORDER = 11 := rfl
        omega
      have hprev : p - 2 ^ o = x + 1 - 2 ^ (o + 1) := by
        rw [Block.two_pow_succ]
        omega
      have hne : p - 2 ^ o ≠ p := by omega
      -- Nothing behind `x` was freed.
      have hnext : mergeable mapped b (x + 1) = false := by
        simp [mergeable, h.unfreed (x + 1) (by omega)]
      have hseen := h.seen (p - 2 ^ o) hne
      have hnone : (some (x + 1)).filter (mergeable mapped b) = none := by
        simp [Option.filter, hnext]
      unfold combineReads SumiOS.combine looked addFrame
      simp only [nextPageByOrder, prevPageByOrder, if_neg hlt, hends, hnone, toList_filter, ← hprev]
      by_cases hm : mergeable mapped b (p - 2 ^ o) = true
      · obtain ⟨hreads, hleft⟩ := ih (by omega) h.prev
        have hsome : (some (p - 2 ^ o)).filter (mergeable mapped b) = some (p - 2 ^ o) := by
          simp [Option.filter, hm]
        simp only [hsome, if_pos (hseen.mp hm), hreads, ← List.filter_append]
        exact ⟨rfl, hleft⟩
      · have hsome : (some (p - 2 ^ o)).filter (mergeable mapped b) = none := by
          simp [Option.filter, hm]
        simp only [hsome, if_neg fun hh => hm (hseen.mpr hh), List.append_nil, ← List.filter_append]
        refine ⟨rfl, fun b' p' o' hc => ?_⟩
        obtain ⟨rfl, rfl, rfl⟩ : b = b' ∧ p = p' ∧ o = o' := by simpa using hc
        exact h.put

/-- Freeing a frame behind all others: what the loop reads is what the counter looks at, as far as
it is mapped, and the heads afterwards are those of the counter. -/
theorem Quiet.free (h : Quiet mapped b heads e) (hex : e ≤ x) :
    combineReads mapped (MAX_PAGE_ORDER - 1) b x 0 = (looked heads x topOrder 0).filter mapped ∧
      Quiet mapped (freePages mapped b (some x) 0) (addFrame mapped heads x topOrder 0) (x + 1) := by
  have hself : x ∉ heads := by
    rw [← h.seen]
    simp [mergeable, h.unfreed x hex]
  have hloop : QuietLoop mapped b heads x x 0 :=
    ⟨by simp, hself, fun q _ => h.seen q, fun q hq => h.unfreed q (by omega)⟩
  obtain ⟨hreads, hleft⟩ := hloop.combine topOrder (Nat.zero_add _)
  refine ⟨hreads, ?_⟩
  rw [freePages_eq (by decide) rfl]
  exact hleft _ _ _ rfl

/-- The reads in a quiet run are known exactly when the list is confined. -/
theorem Quiet.framesReads (xs : List Int) (h : Quiet mapped b heads e) (hxs : ∀ x ∈ xs, e ≤ x)
    (hsort : xs.Pairwise (· < ·)) :
    (∀ q ∈ framesReads mapped b xs, known q) ↔ Confined mapped known heads xs := by
  induction xs generalizing b heads e with
  | nil => exact iff_of_true (fun q hq => absurd hq List.not_mem_nil) trivial
  | cons x xs ih =>
      obtain ⟨hx, hsort⟩ := List.pairwise_cons.mp hsort
      obtain ⟨hreads, hquiet⟩ := h.free (hxs x List.mem_cons_self)
      have hrest := ih hquiet (fun y hy => hx y hy) hsort
      unfold SumiOS.framesReads Confined
      rw [List.forall_mem_append, hrest, hreads]
      simp only [List.mem_filter, and_imp]

end Quiet

/-! ### Page structs that were not written -/

section Quieten

variable {mapped : Int → Bool} {D : Set Node} {b b' : Buddy}

open Classical in
/-- The state with the pages outside `D` not free. -/
noncomputable def quieten (D : Set Node) (b : Buddy) : Buddy :=
  { b with pages := fun q =>
      if Node.page q ∈ D then b.pages q else { b.pages q with isFree := false } }

/-- Clearing the page structs outside of `D` gives a state that agrees with the given
one on `D`. -/
theorem agree_quieten (hlinks : LinksAgree D b.links b.links) : Agree D b (quieten D b) where
  links := hlinks
  free q hq := by simp [quieten, hq]
  head q hq _ := by simp [quieten, hq]

/-- The frames of an ascending list are freed, and all pages of `D` are not free. What the
other pages hold, the reads stay in `D` exactly when the list is confined to it. -/
theorem framesReads_iff_confined {xs : List Int} (hlists : ∀ k < MAX_PAGE_ORDER, freelist k ∈ D)
    (hlinks : LinksAgree D b.links b.links) (hfree : ∀ q, .page q ∈ D → (b.pages q).isFree = false)
    (hxs : ∀ x ∈ xs, .page x ∈ D) (hsort : xs.Pairwise (· < ·)) :
    (∀ q ∈ framesReads mapped b xs, .page q ∈ D) ↔
      Confined mapped (fun q => .page q ∈ D) [] xs := by
  have hnone : ∀ q, ((quieten D b).pages q).isFree = false := by
    intro q
    by_cases hq : Node.page q ∈ D
    · simp [quieten, hq, hfree q hq]
    · simp [quieten, hq]
  obtain ⟨lo, hlo⟩ := exists_le_of_sorted hsort
  have hquiet : Quiet mapped (quieten D b) [] lo :=
    ⟨fun q => by simp [mergeable, hnone q], fun q _ => hnone q⟩
  rw [← hquiet.framesReads xs hlo hsort]
  -- The first read outside `D` is the same in both runs.
  have hagree := agree_quieten hlinks
  constructor
  · intro hreads
    rw [(hagree.frames xs hlists hxs hreads).1]
    exact hreads
  · intro hreads
    rw [(hagree.symm.frames xs hlists hxs hreads).1]
    exact hreads

end Quieten

end SumiOS
