import Mathlib.Data.List.Chain
import Mathlib.Data.Set.Insert

/-!
# `SumiOS.Lib.Ring`: circular doubly linked lists

A pointer graph gives every node a `next` and a `prev` pointer. A head node
`h` represents the sequence `xs` when the nodes of `h, xs, h` are linked both
ways, one after the other (`IsRing`). A set of heads represents one sequence
each when the rings share no node (`Rings`).

* `IsRing.insert` and `IsRing.remove` are the two edits of one ring, at any
  position. They ask only for the pointers that the edit must set and for the
  frame: every other pointer is kept.
* `Rings.insertAfter_head`, `Rings.insertBefore_head` and `Rings.unlink` lift
  the edits to a family of rings. Every other sequence stays.
* `IsRing.onRing_iff` identifies the nodes of the sequence with the nodes that
  a walk along `next` meets before it is back at the head.
-/

set_option autoImplicit false

namespace Lib

universe u
variable {ν : Type u}

/-- A pointer graph: the two link fields of every node. -/
structure Links (ν : Type u) where
  next : ν → ν
  prev : ν → ν

/-- `y` follows `x`, in both directions. -/
def Linked (l : Links ν) (x y : ν) : Prop := l.next x = y ∧ l.prev y = x

/-- The head `h` represents the sequence `xs`. -/
def IsRing (l : Links ν) (h : ν) (xs : List ν) : Prop :=
  (h :: (xs ++ [h])).IsChain (Linked l)

instance [DecidableEq ν] (l : Links ν) (h : ν) (xs : List ν) : Decidable (IsRing l h xs) :=
  inferInstanceAs (Decidable (List.IsChain (fun x y => l.next x = y ∧ l.prev y = x) _))

/-- The nodes a walk along `next` meets, from `h` until it is back at `h`. -/
inductive OnRing (l : Links ν) (h : ν) : ν → Prop
  | first : l.next h ≠ h → OnRing l h (l.next h)
  | next {x : ν} : OnRing l h x → l.next x ≠ h → OnRing l h (l.next x)

/-- The links after `y` is put between `x` and `z`. -/
structure Spliced (l l' : Links ν) (x y z : ν) : Prop where
  next_x : l'.next x = y
  prev_y : l'.prev y = x
  next_y : l'.next y = z
  prev_z : l'.prev z = y
  next_other : ∀ a, a ≠ x → a ≠ y → l'.next a = l.next a
  prev_other : ∀ a, a ≠ y → a ≠ z → l'.prev a = l.prev a

/-- The links after the nodes between `x` and `z` are bypassed. -/
structure Bypassed (l l' : Links ν) (x z : ν) : Prop where
  next_x : l'.next x = z
  prev_z : l'.prev z = x
  next_other : ∀ a, a ≠ x → l'.next a = l.next a
  prev_other : ∀ a, a ≠ z → l'.prev a = l.prev a

/-! ### One ring -/

/-- A chain passes to another relation when each of its steps does. The first
node of a step is never the last node of the chain, and the second is never
the first. -/
theorem isChain_imp_dropLast {R S : ν → ν → Prop} :
    ∀ {xs : List ν}, (∀ a b, a ∈ xs.dropLast → b ∈ xs.tail → R a b → S a b) →
      xs.IsChain R → xs.IsChain S
  | [], _, _ => .nil
  | [a], _, _ => .singleton a
  | a :: b :: xs, himp, hc => by
      rw [List.isChain_cons_cons] at hc ⊢
      refine ⟨himp a b (by simp) (by simp) hc.1, ?_⟩
      refine isChain_imp_dropLast (fun c d hc' hd => himp c d ?_ ?_) hc.2
      · rw [List.dropLast_cons_cons]
        exact List.mem_cons_of_mem _ hc'
      · exact List.mem_of_mem_tail hd

/-- The empty ring: its head points at itself both ways. -/
theorem isRing_nil {l : Links ν} {h : ν} :
    IsRing l h [] ↔ l.next h = h ∧ l.prev h = h := by
  simp [IsRing, Linked]

/-- A ring cut between `pre` and `post` is two chains, one from the head and one back to it. -/
theorem isRing_append {l : Links ν} {h : ν} {pre post : List ν} :
    IsRing l h (pre ++ post) ↔
      (h :: pre).IsChain (Linked l) ∧ (post ++ [h]).IsChain (Linked l) ∧
        ∀ x ∈ (h :: pre).getLast?, ∀ z ∈ (post ++ [h]).head?, Linked l x z := by
  unfold IsRing
  rw [List.append_assoc, ← List.cons_append, List.isChain_append]

/-- The first half of a ring survives an edit that keeps its pointers, except `next` of its last
node and `prev` of the node behind it. -/
theorem isChain_prefix_frame {l l' : Links ν} {h x z : ν} {pre : List ν}
    (hc : (h :: pre).IsChain (Linked l)) (hnd : (h :: pre).Nodup)
    (hx : (h :: pre).getLast? = some x) (hz : z ∉ pre)
    (hnext : ∀ a ∈ h :: pre, a ≠ x → l'.next a = l.next a)
    (hprev : ∀ a ∈ pre, a ≠ z → l'.prev a = l.prev a) :
    (h :: pre).IsChain (Linked l') := by
  refine isChain_imp_dropLast (fun a b ha hb hab => ?_) hc
  have hax : a ≠ x := by
    rintro rfl
    rw [List.getLast?_eq_some_iff] at hx
    obtain ⟨ini, hini⟩ := hx
    rw [hini] at ha hnd
    rw [List.dropLast_concat] at ha
    exact (List.nodup_append.mp hnd).2.2 a ha a (by simp) rfl
  have hbz : b ≠ z := fun e => hz (e ▸ hb)
  exact ⟨(hnext a (List.dropLast_subset _ ha) hax).trans hab.1,
    (hprev b hb hbz).trans hab.2⟩

/-- The second half of a ring survives an edit that keeps its pointers: `next` may change at the
node in front of it, which is not in this half, and `prev` at its first node. -/
theorem isChain_suffix_frame {l l' : Links ν} {h x z : ν} {post : List ν}
    (hc : (post ++ [h]).IsChain (Linked l)) (hnd : (post ++ [h]).Nodup)
    (hz : (post ++ [h]).head? = some z) (hx : x ∉ post)
    (hnext : ∀ a ∈ post, a ≠ x → l'.next a = l.next a)
    (hprev : ∀ a ∈ post ++ [h], a ≠ z → l'.prev a = l.prev a) :
    (post ++ [h]).IsChain (Linked l') := by
  refine isChain_imp_dropLast (fun a b ha hb hab => ?_) hc
  rw [List.dropLast_concat] at ha
  have hax : a ≠ x := fun e => hx (e ▸ ha)
  have hbz : b ≠ z := by
    rintro rfl
    obtain ⟨rest, hrest⟩ : ∃ rest, post ++ [h] = b :: rest := by
      cases hp : post ++ [h] with
      | nil => simp at hp
      | cons c rest =>
          rw [hp, List.head?_cons, Option.some.injEq] at hz
          exact ⟨rest, by rw [hz]⟩
    rw [hrest] at hnd hb
    exact (List.nodup_cons.mp hnd).1 hb
  exact ⟨(hnext a ha hax).trans hab.1, (hprev b (List.mem_of_mem_tail hb) hbz).trans hab.2⟩

/-- The node sets of the two halves of a ring. The head belongs to both, everything else to one of
them, so that an edit between the halves changes one pointer in each. -/
theorem nodup_halves {h : ν} {pre post : List ν} (hnd : (h :: (pre ++ post)).Nodup) :
    (h :: pre).Nodup ∧ (post ++ [h]).Nodup ∧ (∀ a ∈ pre, a ∉ post ++ [h]) ∧
      ∀ a ∈ post, a ∉ h :: pre := by
  rw [List.nodup_cons, List.nodup_append] at hnd
  obtain ⟨hh, hpre, hpost, hdis⟩ := hnd
  rw [List.mem_append, not_or] at hh
  refine ⟨List.nodup_cons.mpr ⟨hh.1, hpre⟩, ?_, ?_, ?_⟩
  · rw [List.nodup_append]
    refine ⟨hpost, by simp, fun a ha b hb e => hh.2 ?_⟩
    rw [List.mem_singleton] at hb
    exact hb ▸ e ▸ ha
  · intro a ha hmem
    rcases List.mem_append.mp hmem with hmem | hmem
    · exact hdis a ha a hmem rfl
    · rw [List.mem_singleton] at hmem
      exact hh.1 (hmem ▸ ha)
  · intro a ha hmem
    rcases List.mem_cons.mp hmem with hmem | hmem
    · exact hh.2 (hmem ▸ ha)
    · exact hdis a hmem a ha rfl

/-- Putting `y` into a ring, between the last node `x` of the first half and
the first node `z` of the second. -/
theorem IsRing.insert {l l' : Links ν} {h x y z : ν} {pre post : List ν}
    (hr : IsRing l h (pre ++ post)) (hnd : (h :: (pre ++ post)).Nodup)
    (hy : y ∉ h :: (pre ++ post)) (hx : (h :: pre).getLast? = some x)
    (hz : (post ++ [h]).head? = some z) (hs : Spliced l l' x y z) :
    IsRing l' h (pre ++ y :: post) := by
  obtain ⟨hndpre, hndpost, hpre, hpost⟩ := nodup_halves hnd
  have hyne : ∀ a ∈ h :: (pre ++ post), a ≠ y := fun a ha e => hy (e ▸ ha)
  have hxmem : x ∈ h :: pre := List.mem_of_getLast? hx
  have hzmem : z ∈ post ++ [h] := List.mem_of_mem_head? hz
  rw [isRing_append] at hr
  obtain ⟨hcpre, hcpost, -⟩ := hr
  have hcpre' : (h :: pre).IsChain (Linked l') :=
    isChain_prefix_frame hcpre hndpre hx (fun hm => hpre z hm hzmem)
      (fun a ha hax => hs.next_other a hax (hyne a (by
        rcases List.mem_cons.mp ha with e | ha <;> simp_all)))
      (fun a ha haz => hs.prev_other a (hyne a (by simp [ha])) haz)
  have hcpost' : (post ++ [h]).IsChain (Linked l') :=
    isChain_suffix_frame hcpost hndpost hz (fun hm => hpost x hm hxmem)
      (fun a ha hax => hs.next_other a hax (hyne a (by simp [ha])))
      (fun a ha haz => hs.prev_other a (hyne a (by
        rcases List.mem_append.mp ha with ha | ha <;> simp_all)) haz)
  rw [isRing_append]
  refine ⟨hcpre', ?_, ?_⟩
  · -- `y` in front of the second half: its one new step is `y` to `z`.
    rw [List.cons_append, List.isChain_cons]
    refine ⟨fun b hb => ?_, hcpost'⟩
    obtain rfl : z = b := Option.some.inj (hz.symm.trans hb)
    exact ⟨hs.next_y, hs.prev_z⟩
  · intro a ha b hb
    obtain rfl : x = a := Option.some.inj (hx.symm.trans ha)
    obtain rfl : y = b := by simpa using hb
    exact ⟨hs.next_x, hs.prev_y⟩

/-- The neighbours of a node of a ring: the last node before it and the first
node after it. -/
theorem IsRing.neighbours {l : Links ν} {h y : ν} {pre post : List ν}
    (hr : IsRing l h (pre ++ y :: post)) :
    (h :: pre).getLast? = some (l.prev y) ∧ (post ++ [h]).head? = some (l.next y) := by
  rw [isRing_append] at hr
  obtain ⟨-, hcpost, hmid⟩ := hr
  constructor
  · obtain ⟨x, hx⟩ : ∃ x, (h :: pre).getLast? = some x :=
      ⟨_, List.getLast?_eq_some_getLast (by simp)⟩
    have hlink := hmid x hx y (by simp)
    rw [hx, hlink.2]
  · rw [List.cons_append, List.isChain_cons] at hcpost
    obtain ⟨z, hz⟩ : ∃ z, (post ++ [h]).head? = some z := by
      cases hp : post ++ [h] with
      | nil => simp at hp
      | cons c rest => exact ⟨c, rfl⟩
    have hlink := hcpost.1 z hz
    rw [hz, hlink.1]

/-- A node that points back to itself is on the ring of no other head. The node before it would
be the node again, and so there would be no first time to come to it. -/
theorem IsRing.not_mem_of_prev_self {l : Links ν} {h y : ν} {xs : List ν} (hr : IsRing l h xs)
    (hself : l.prev y = y) (hne : h ≠ y) : y ∉ xs := by
  intro hy
  obtain ⟨pre, post, rfl, hfirst⟩ := List.eq_append_cons_of_mem hy
  have hlast := hr.neighbours.1
  rw [hself] at hlast
  cases List.mem_cons.mp (List.mem_of_getLast? hlast) with
  | inl h => exact hne h.symm
  | inr h => exact hfirst h

/-- Taking `y` out of a ring: when its two neighbours point to each other and all other pointers
are kept, the nodes in front of it and behind it make up the ring. -/
theorem IsRing.remove {l l' : Links ν} {h y : ν} {pre post : List ν}
    (hr : IsRing l h (pre ++ y :: post)) (hnd : (h :: (pre ++ y :: post)).Nodup)
    (hb : Bypassed l l' (l.prev y) (l.next y)) : IsRing l' h (pre ++ post) := by
  obtain ⟨hx, hz⟩ := hr.neighbours
  have hnd' : (h :: (pre ++ post)).Nodup := by
    refine hnd.sublist ?_
    exact (List.Sublist.append_left (List.sublist_cons_self y post) pre).cons_cons h
  obtain ⟨hndpre, hndpost, hpre, hpost⟩ := nodup_halves hnd'
  have hxmem : l.prev y ∈ h :: pre := List.mem_of_getLast? hx
  have hzmem : l.next y ∈ post ++ [h] := List.mem_of_mem_head? hz
  rw [isRing_append] at hr ⊢
  obtain ⟨hcpre, hcpost, -⟩ := hr
  rw [List.cons_append, List.isChain_cons] at hcpost
  refine ⟨?_, ?_, ?_⟩
  · exact isChain_prefix_frame hcpre hndpre hx (fun hm => hpre _ hm hzmem)
      (fun a _ hax => hb.next_other a hax) (fun a _ haz => hb.prev_other a haz)
  · exact isChain_suffix_frame hcpost.2 hndpost hz (fun hm => hpost _ hm hxmem)
      (fun a _ hax => hb.next_other a hax) (fun a _ haz => hb.prev_other a haz)
  · intro a ha b hb'
    obtain rfl : l.prev y = a := Option.some.inj (hx.symm.trans ha)
    obtain rfl : l.next y = b := Option.some.inj (hz.symm.trans hb')
    exact ⟨hb.next_x, hb.prev_z⟩

/-- A ring does not read the pointers of other nodes. -/
theorem IsRing.frame {l l' : Links ν} {h : ν} {xs : List ν} (hr : IsRing l h xs)
    (hag : ∀ a ∈ h :: xs, l'.next a = l.next a ∧ l'.prev a = l.prev a) :
    IsRing l' h xs := by
  refine isChain_imp_dropLast (fun a b ha hb hab => ?_) hr
  have hmem : ∀ c ∈ xs ++ [h], c ∈ h :: xs := by
    intro c hc
    rcases List.mem_append.mp hc with hc | hc <;> simp_all
  have ha' : a ∈ h :: xs := by
    rw [← List.cons_append, List.dropLast_concat] at ha
    exact ha
  exact ⟨(hag a ha').1.trans hab.1, (hag b (hmem b hb)).2.trans hab.2⟩

/-- The head's `next` pointer is the first node of the sequence. -/
theorem IsRing.next_head {l : Links ν} {h : ν} {xs : List ν} (hr : IsRing l h xs) :
    (xs ++ [h]).head? = some (l.next h) := by
  unfold IsRing at hr
  rw [List.isChain_cons] at hr
  obtain ⟨z, hz⟩ : ∃ z, (xs ++ [h]).head? = some z := by
    cases hp : xs ++ [h] with
    | nil => simp at hp
    | cons c rest => exact ⟨c, rfl⟩
  rw [hz, (hr.1 z hz).1]

/-- The head's `prev` pointer is the last node of the sequence. -/
theorem IsRing.prev_head {l : Links ν} {h : ν} {xs : List ν} (hr : IsRing l h xs) :
    (h :: xs).getLast? = some (l.prev h) := by
  have hr' : IsRing l h (xs ++ []) := by rwa [List.append_nil]
  rw [isRing_append] at hr'
  obtain ⟨x, hx⟩ : ∃ x, (h :: xs).getLast? = some x :=
    ⟨_, List.getLast?_eq_some_getLast (by simp)⟩
  rw [hx, (hr'.2.2 x hx h (by simp)).2]

/-- On a ring, `prev` undoes `next` and `next` undoes `prev`, at the head as well as at every node
of the sequence. -/
theorem IsRing.inverse {l : Links ν} {h a : ν} {xs : List ν} (hr : IsRing l h xs)
    (ha : a ∈ h :: xs) : l.prev (l.next a) = a ∧ l.next (l.prev a) = a := by
  rcases List.mem_cons.mp ha with rfl | ha
  · -- The head: the first and the last step of the ring.
    have hlast : IsRing l a (xs ++ []) := by rwa [List.append_nil]
    have hlink := (isRing_append.mp hlast).2.2 _ hr.prev_head a (by simp)
    have hfirst := List.isChain_cons.mp hr
    exact ⟨(hfirst.1 _ hr.next_head).2, hlink.1⟩
  · obtain ⟨pre, post, rfl⟩ := List.append_of_mem ha
    obtain ⟨hx, hz⟩ := hr.neighbours
    obtain ⟨-, hpost, hmid⟩ := isRing_append.mp hr
    rw [List.cons_append, List.isChain_cons] at hpost
    exact ⟨(hpost.1 _ hz).2, (hmid _ hx a (by simp)).1⟩

/-- A head that is not in its own sequence is alone exactly when it points at
itself. -/
theorem IsRing.next_eq_self_iff {l : Links ν} {h : ν} {xs : List ν} (hr : IsRing l h xs)
    (hh : h ∉ xs) : l.next h = h ↔ xs = [] := by
  have hn := hr.next_head
  cases xs with
  | nil => simpa using hn.symm
  | cons x xs =>
      simp only [List.cons_append, List.head?_cons, Option.some.injEq] at hn
      simp only [List.mem_cons, not_or] at hh
      exact iff_of_false (fun e => hh.1 (hn.trans e).symm) (by simp)

/-- The walk from the head meets exactly the nodes of the sequence. One direction goes along the
sequence; in the other one, the walk cannot leave it before it is back at the head. -/
theorem IsRing.onRing_iff {l : Links ν} {h : ν} {xs : List ν} (hr : IsRing l h xs)
    (hh : h ∉ xs) (x : ν) : OnRing l h x ↔ x ∈ xs := by
  constructor
  · -- Each step of the walk goes to the `next` of a node of the sequence.
    intro hx
    induction hx with
    | first hne =>
        have hn := hr.next_head
        cases xs with
        | nil => simp only [List.nil_append, List.head?_cons, Option.some.injEq] at hn
                 exact absurd hn.symm hne
        | cons y ys =>
            simp only [List.cons_append, List.head?_cons, Option.some.injEq] at hn
            rw [← hn]
            exact List.mem_cons_self
    | @next y _ hne ih =>
        obtain ⟨pre, post, rfl⟩ := List.append_of_mem ih
        have hz := hr.neighbours.2
        -- The next node is further along, or the head.
        have hmem : l.next y ∈ post ++ [h] := List.mem_of_mem_head? hz
        rcases List.mem_append.mp hmem with hm | hm
        · simp [hm]
        · exact absurd (List.mem_singleton.mp hm) hne
  · -- Along the sequence, each node is the `next` of the one before it.
    intro hx
    obtain ⟨pre, post, rfl⟩ := List.append_of_mem hx
    clear hx
    induction pre using List.reverseRecOn generalizing x post with
    | nil =>
        have hn : l.next h = x := by simpa using hr.next_head.symm
        have hne : l.next h ≠ h := by
          rw [hn]
          rintro rfl
          exact hh (by simp)
        exact hn ▸ OnRing.first hne
    | append_singleton pre y ih =>
        have hr' : IsRing l h (pre ++ y :: (x :: post)) := by simpa using hr
        have hon : OnRing l h y := ih y (x :: post) hr' (by simpa using hh)
        have hn : l.next y = x := by simpa using hr'.neighbours.2.symm
        have hne : l.next y ≠ h := by
          rw [hn]
          rintro rfl
          exact hh (by simp)
        exact hn ▸ OnRing.next hon hne

/-! ### The two pointer edits -/

section Edits
variable [DecidableEq ν]

/-- Put `y` behind `x`. -/
def Links.insertAfter (l : Links ν) (x y : ν) : Links ν where
  next := Function.update (Function.update l.next y (l.next x)) x y
  prev := Function.update (Function.update l.prev (l.next x) y) y x

/-- Put `y` before `z`. -/
def Links.insertBefore (l : Links ν) (z y : ν) : Links ν where
  next := Function.update (Function.update l.next (l.prev z) y) y z
  prev := Function.update (Function.update l.prev y (l.prev z)) z y

/-- Let the neighbours of `y` point past it. -/
def Links.unlink (l : Links ν) (y : ν) : Links ν where
  next := Function.update l.next (l.prev y) (l.next y)
  prev := Function.update l.prev (l.next y) (l.prev y)

/-- Inserting a node behind another splices it in between that one and its old successor. -/
theorem Links.insertAfter_spliced (l : Links ν) {x y : ν} (hxy : x ≠ y)
    (hy : l.next x ≠ y) : Spliced l (l.insertAfter x y) x y (l.next x) where
  next_x := by simp [Links.insertAfter]
  prev_y := by simp [Links.insertAfter]
  next_y := by simp [Links.insertAfter, hxy.symm]
  prev_z := by simp [Links.insertAfter, hy]
  next_other a hx hy := by simp [Links.insertAfter, hx, hy]
  prev_other a hy hz := by simp [Links.insertAfter, hy, hz]

/-- Inserting a node in front of another splices it in between its old predecessor and that one. -/
theorem Links.insertBefore_spliced (l : Links ν) {z y : ν} (hzy : z ≠ y)
    (hy : l.prev z ≠ y) : Spliced l (l.insertBefore z y) (l.prev z) y z where
  next_x := by simp [Links.insertBefore, hy]
  prev_y := by simp [Links.insertBefore, hzy.symm]
  next_y := by simp [Links.insertBefore]
  prev_z := by simp [Links.insertBefore]
  next_other a hx hy := by simp [Links.insertBefore, hx, hy]
  prev_other a hy hz := by simp [Links.insertBefore, hy, hz]

/-- Unlinking a node connects its two neighbours with each other. -/
theorem Links.unlink_bypassed (l : Links ν) (y : ν) :
    Bypassed l (l.unlink y) (l.prev y) (l.next y) where
  next_x := by simp [Links.unlink]
  prev_z := by simp [Links.unlink]
  next_other a h := by simp [Links.unlink, h]
  prev_other a h := by simp [Links.unlink, h]

end Edits

/-! ### Families of rings -/

section Families

/-- Every head of `H` represents its own sequence, and no node is linked into
two of them. -/
structure Rings (H : Set ν) (l : Links ν) (seq : ν → List ν) : Prop where
  ring : ∀ h ∈ H, IsRing l h (seq h)
  nodup : ∀ h ∈ H, (seq h).Nodup
  sep : ∀ h ∈ H, ∀ h' ∈ H, ∀ x, x ∈ seq h → x ∈ seq h' → h = h'
  noHead : ∀ h ∈ H, ∀ h' ∈ H, h' ∉ seq h

variable {H : Set ν} {l : Links ν} {seq : ν → List ν}

/-- A head and its sequence have no node twice. -/
theorem Rings.nodup_cons (hr : Rings H l seq) {h : ν} (hh : h ∈ H) : (h :: seq h).Nodup :=
  List.nodup_cons.mpr ⟨hr.noHead h hh h hh, hr.nodup h hh⟩

/-- The nodes of two rings are different, the heads included, so an edit on one ring leaves the
other. -/
theorem Rings.ne_of_mem (hr : Rings H l seq) {h h' a b : ν} (hh : h ∈ H) (hh' : h' ∈ H)
    (hne : h ≠ h') (ha : a ∈ h :: seq h) (hb : b ∈ h' :: seq h') : a ≠ b := by
  rintro rfl
  rcases List.mem_cons.mp ha with rfl | ha <;> rcases List.mem_cons.mp hb with hb | hb
  · exact hne hb
  · exact hr.noHead h' hh' a hh hb
  · exact hr.noHead h hh h' hh' (hb ▸ ha)
  · exact hne (hr.sep h hh h' hh' a ha hb)

/-- An insertion does not write the pointers of another ring. -/
theorem Rings.keeps_spliced (hr : Rings H l seq) {l' : Links ν} {h h' x y z : ν} (hh : h ∈ H)
    (hh' : h' ∈ H) (hne : h ≠ h') (hx : x ∈ h :: seq h) (hz : z ∈ h :: seq h)
    (hy : y ∉ h' :: seq h') (hs : Spliced l l' x y z) :
    ∀ a ∈ h' :: seq h', l'.next a = l.next a ∧ l'.prev a = l.prev a := by
  intro a ha
  have hay : a ≠ y := fun e => hy (e ▸ ha)
  exact ⟨hs.next_other a (hr.ne_of_mem hh hh' hne hx ha).symm hay,
    hs.prev_other a hay (hr.ne_of_mem hh hh' hne hz ha).symm⟩

/-- A bypass does not write the pointers of another ring. -/
theorem Rings.keeps_bypassed (hr : Rings H l seq) {l' : Links ν} {h h' x z : ν} (hh : h ∈ H)
    (hh' : h' ∈ H) (hne : h ≠ h') (hx : x ∈ h :: seq h) (hz : z ∈ h :: seq h)
    (hb : Bypassed l l' x z) :
    ∀ a ∈ h' :: seq h', l'.next a = l.next a ∧ l'.prev a = l.prev a := fun a ha =>
  ⟨hb.next_other a (hr.ne_of_mem hh hh' hne hx ha).symm,
    hb.prev_other a (hr.ne_of_mem hh hh' hne hz ha).symm⟩

/-- The node behind a head belongs to its ring. -/
theorem Rings.next_mem (hr : Rings H l seq) {h : ν} (hh : h ∈ H) : l.next h ∈ h :: seq h := by
  have hm : l.next h ∈ seq h ++ [h] := List.mem_of_mem_head? (hr.ring h hh).next_head
  rcases List.mem_append.mp hm with hm | hm
  · exact List.mem_cons_of_mem h hm
  · rw [List.mem_singleton.mp hm]
    exact List.mem_cons_self

/-- The node before a head belongs to its ring. -/
theorem Rings.prev_mem (hr : Rings H l seq) {h : ν} (hh : h ∈ H) : l.prev h ∈ h :: seq h :=
  List.mem_of_getLast? (hr.ring h hh).prev_head

/-- The neighbours of a node belong to its ring, so that unlinking it changes no pointer of any
other ring. -/
theorem Rings.neighbours_mem (hr : Rings H l seq) {h y : ν} (hh : h ∈ H) (hy : y ∈ seq h) :
    l.prev y ∈ h :: seq h ∧ l.next y ∈ h :: seq h := by
  obtain ⟨pre, post, hseq⟩ := List.append_of_mem hy
  have hring := hr.ring h hh
  rw [hseq] at hring ⊢
  obtain ⟨hx, hz⟩ := hring.neighbours
  constructor
  · have hm := List.mem_of_getLast? hx
    rw [List.mem_cons] at hm ⊢
    exact hm.imp_right fun hm => List.mem_append_left _ hm
  · have hm := List.mem_of_mem_head? hz
    rw [List.mem_append, List.mem_singleton] at hm
    simp only [List.mem_cons, List.mem_append]
    tauto

/-- A node that is no head and on no list is on no ring. -/
theorem not_mem_ring {y : ν} (hyH : y ∉ H) (hy : ∀ h' ∈ H, y ∉ seq h') :
    ∀ h' ∈ H, y ∉ h' :: seq h' := by
  intro h' hh' hm
  rcases List.mem_cons.mp hm with rfl | hm
  · exact hyH hh'
  · exact hy h' hh' hm

/-- Some of the rings are rings by themselves, as when only the free lists are looked at. -/
theorem Rings.mono {H' : Set ν} (hr : Rings H l seq) (hsub : H' ⊆ H) : Rings H' l seq where
  ring h hh := hr.ring h (hsub hh)
  nodup h hh := hr.nodup h (hsub hh)
  sep h hh h' hh' := hr.sep h (hsub hh) h' (hsub hh')
  noHead h hh h' hh' := hr.noHead h (hsub hh) h' (hsub hh')

/-- The sequences matter at the heads only, so two accounts that agree there describe the same
rings. -/
theorem Rings.congr {seq' : ν → List ν} (hr : Rings H l seq) (heq : ∀ h ∈ H, seq' h = seq h) :
    Rings H l seq' where
  ring h hh := heq h hh ▸ hr.ring h hh
  nodup h hh := heq h hh ▸ hr.nodup h hh
  sep h hh h' hh' x hx hx' := hr.sep h hh h' hh' x (heq h hh ▸ hx) (heq h' hh' ▸ hx')
  noHead h hh h' hh' := heq h hh ▸ hr.noHead h hh h' hh'

variable [DecidableEq ν]

/-- An empty ring beside the others. Its head is on none of them, so the edit that makes it point
to itself leaves the others as they are. -/
theorem Rings.insert_head (hr : Rings H l seq) {l' : Links ν} {h : ν} (hh : ∀ h' ∈ H, h ∉ seq h')
    (hself : IsRing l' h []) (hkeep : ∀ a, a ≠ h → l'.next a = l.next a ∧ l'.prev a = l.prev a) :
    Rings (insert h H) l' (Function.update seq h []) := by
  -- The nodes of the new sequences were in the same rings before.
  have hsub : ∀ h' ∈ insert h H, ∀ a ∈ Function.update seq h [] h', h' ∈ H ∧ a ∈ seq h' := by
    intro h' hh' a ha
    by_cases e : h' = h
    · rw [e, Function.update_self] at ha
      cases ha
    · rw [Function.update_of_ne e] at ha
      exact ⟨Set.mem_of_mem_insert_of_ne hh' e, ha⟩
  constructor
  case ring =>
    intro h' hh'
    by_cases e : h' = h
    · subst e
      rwa [Function.update_self]
    · rw [Function.update_of_ne e]
      have hmem := Set.mem_of_mem_insert_of_ne hh' e
      refine (hr.ring h' hmem).frame fun a ha => hkeep a ?_
      rintro rfl
      exact (List.mem_cons.mp ha).elim (fun e' => e e'.symm) (hh h' hmem)
  case nodup =>
    intro h' hh'
    by_cases e : h' = h
    · rw [e, Function.update_self]
      exact List.nodup_nil
    · rw [Function.update_of_ne e]
      exact hr.nodup h' (Set.mem_of_mem_insert_of_ne hh' e)
  case sep =>
    intro h₁ hh₁ h₂ hh₂ a ha₁ ha₂
    have h₁s := hsub h₁ hh₁ a ha₁
    have h₂s := hsub h₂ hh₂ a ha₂
    exact hr.sep h₁ h₁s.1 h₂ h₂s.1 a h₁s.2 h₂s.2
  case noHead =>
    intro h₁ hh₁ h₂ hh₂ hm
    have h₁s := hsub h₁ hh₁ h₂ hm
    cases Set.mem_insert_iff.mp hh₂ with
    | inl e => exact hh h₁ h₁s.1 (e ▸ h₁s.2)
    | inr hmem => exact hr.noHead h₁ h₁s.1 h₂ hmem h₁s.2

/-- The sequences after one of them gained the fresh node `y`: the ring of that head is given, the
rings of the other heads are kept, and no node is on two of them. -/
theorem Rings.update_insert (hr : Rings H l seq) {l' : Links ν} {h y : ν} (pre post : List ν)
    (hh : h ∈ H) (hseq : seq h = pre ++ post) (hyH : y ∉ H) (hy : ∀ h' ∈ H, y ∉ seq h')
    (hring : IsRing l' h (pre ++ y :: post))
    (hother : ∀ h' ∈ H, h ≠ h' → IsRing l' h' (seq h')) :
    Rings H l' (Function.update seq h (pre ++ y :: post)) := by
  have hmem : ∀ a, a ∈ pre ++ y :: post ↔ a = y ∨ a ∈ seq h := by
    intro a
    rw [hseq]
    simp only [List.mem_append, List.mem_cons]
    tauto
  -- A node of an updated sequence is the new one, or an old one.
  have hcases : ∀ h' ∈ H, ∀ a, a ∈ Function.update seq h (pre ++ y :: post) h' →
      (a = y ∧ h' = h) ∨ a ∈ seq h' := by
    intro h' _ a ha
    by_cases e : h' = h
    · subst e
      rw [Function.update_self, hmem] at ha
      exact ha.imp (fun hay => ⟨hay, rfl⟩) id
    · rw [Function.update_of_ne e] at ha
      exact Or.inr ha
  refine ⟨fun h' hh' => ?_, fun h' hh' => ?_, fun a ha b hb x hxa hxb => ?_,
    fun a ha b hb hmem' => ?_⟩
  · by_cases e : h' = h
    · subst e
      rwa [Function.update_self]
    · rw [Function.update_of_ne e]
      exact hother h' hh' (Ne.symm e)
  · by_cases e : h' = h
    · subst e
      rw [Function.update_self, List.perm_middle.nodup_iff, List.nodup_cons, ← hseq]
      exact ⟨hy h' hh', hr.nodup h' hh'⟩
    · rw [Function.update_of_ne e]
      exact hr.nodup h' hh'
  · rcases hcases a ha x hxa with ⟨hxy, rfl⟩ | hxa' <;>
      rcases hcases b hb x hxb with ⟨hxy', rfl⟩ | hxb'
    · rfl
    · exact absurd (hxy ▸ hxb') (hy b hb)
    · exact absurd (hxy' ▸ hxa') (hy a ha)
    · exact hr.sep a ha b hb x hxa' hxb'
  · rcases hcases a ha b hmem' with ⟨rfl, -⟩ | hm
    · exact hyH hb
    · exact hr.noHead a ha b hb hm

/-- The pointers that an insertion directly behind a head writes. -/
theorem Rings.insertAfter_spliced (hr : Rings H l seq) {h y : ν} (hh : h ∈ H)
    (hy : y ∉ h :: seq h) : Spliced l (l.insertAfter h y) h y (l.next h) :=
  l.insertAfter_spliced (fun e => hy (e ▸ List.mem_cons_self)) fun e => hy (e ▸ hr.next_mem hh)

/-- The pointers that an insertion directly before a head writes. -/
theorem Rings.insertBefore_spliced (hr : Rings H l seq) {h y : ν} (hh : h ∈ H)
    (hy : y ∉ h :: seq h) : Spliced l (l.insertBefore h y) (l.prev h) y h :=
  l.insertBefore_spliced (fun e => hy (e ▸ List.mem_cons_self)) fun e => hy (e ▸ hr.prev_mem hh)

/-- Insertion directly behind a head puts the fresh node at the front of its sequence. -/
theorem Rings.insertAfter_head (hr : Rings H l seq) {h y : ν} (hh : h ∈ H) (hyH : y ∉ H)
    (hy : ∀ h' ∈ H, y ∉ seq h') :
    Rings H (l.insertAfter h y) (Function.update seq h (y :: seq h)) := by
  have hynot := not_mem_ring hyH hy
  have hs := hr.insertAfter_spliced hh (hynot h hh)
  have hring : IsRing (l.insertAfter h y) h ([] ++ y :: seq h) :=
    IsRing.insert (hr.ring h hh) (hr.nodup_cons hh) (hynot h hh) (by simp)
      (hr.ring h hh).next_head hs
  exact hr.update_insert [] (seq h) hh rfl hyH hy hring fun h' hh' hne =>
    (hr.ring h' hh').frame
      (hr.keeps_spliced hh hh' hne List.mem_cons_self (hr.next_mem hh) (hynot h' hh') hs)

/-- Insertion directly before a head, at the end of its sequence. -/
theorem Rings.insertBefore_head (hr : Rings H l seq) {h y : ν} (hh : h ∈ H) (hyH : y ∉ H)
    (hy : ∀ h' ∈ H, y ∉ seq h') :
    Rings H (l.insertBefore h y) (Function.update seq h (seq h ++ [y])) := by
  have hynot := not_mem_ring hyH hy
  have hs := hr.insertBefore_spliced hh (hynot h hh)
  have hring : IsRing (l.insertBefore h y) h (seq h ++ y :: []) :=
    IsRing.insert (by simpa using hr.ring h hh) (by simpa using hr.nodup_cons hh)
      (by simpa using hynot h hh) (hr.ring h hh).prev_head (by simp) hs
  exact hr.update_insert (seq h) [] hh (by simp) hyH hy hring fun h' hh' hne =>
    (hr.ring h' hh').frame
      (hr.keeps_spliced hh hh' hne (hr.prev_mem hh) List.mem_cons_self (hynot h' hh') hs)

/-- Unlinking a node removes it from its sequence. The neighbours whose pointers change are on the
same ring, so that every other ring is kept. -/
theorem Rings.unlink (hr : Rings H l seq) {h y : ν} (hh : h ∈ H) (hy : y ∈ seq h) :
    Rings H (l.unlink y) (Function.update seq h ((seq h).erase y)) := by
  obtain ⟨pre, post, hynot, hseq, herase⟩ := List.exists_erase_eq hy
  have hr0 := hr.ring h hh
  have hnd0 := hr.nodup_cons hh
  rw [hseq] at hr0 hnd0
  obtain ⟨hxmem, hzmem⟩ := hr.neighbours_mem hh hy
  have hby := l.unlink_bypassed y
  -- Nothing is added to a sequence.
  have hle : ∀ h' ∈ H, ∀ a, a ∈ Function.update seq h ((seq h).erase y) h' → a ∈ seq h' := by
    intro h' _ a ha
    by_cases e : h' = h
    · subst e
      rw [Function.update_self] at ha
      exact List.mem_of_mem_erase ha
    · rwa [Function.update_of_ne e] at ha
  refine ⟨fun h' hh' => ?_, fun h' hh' => ?_, fun a ha b hb x hxa hxb => ?_,
    fun a ha b hb hm => hr.noHead a ha b hb (hle a ha b hm)⟩
  · by_cases e : h' = h
    · subst e
      rw [Function.update_self, herase]
      exact hr0.remove hnd0 hby
    · rw [Function.update_of_ne e]
      exact (hr.ring h' hh').frame (hr.keeps_bypassed hh hh' (Ne.symm e) hxmem hzmem hby)
  · by_cases e : h' = h
    · subst e
      rw [Function.update_self]
      exact (hr.nodup h' hh').erase y
    · rw [Function.update_of_ne e]
      exact hr.nodup h' hh'
  · exact hr.sep a ha b hb x (hle a ha x hxa) (hle b hb x hxb)

end Families

end Lib
