import SumiOS.Lib.Simulation
import SumiOS.PageAlloc

/-!
# `SumiOS.Proofs.List.Sequences`: the intrusive lists implement sequences

The abstract state `Lists` is a set of heads with one sequence of nodes each,
and `Lists.step` says what each operation of `list.h` is for. On the heap the
same operation is `listStep`: the pointer writes of `SumiOS.List`.

A heap represents the sequences when every head is on its own ring and no node
is on two of them. `listStep_simulates` has one case for each operation;
`listSteps_implement` is the result about any sequence of operations on any
number of lists.

A node that was deleted, or that was on a list whose head was initialized
again, keeps its stale pointers and is free to be added to another list.
-/

set_option autoImplicit false

namespace SumiOS

open Lib

universe u
variable {ν : Type u}

/-- The operations of `list.h`, with their arguments. -/
inductive ListOp (ν : Type u)
  | headInit (entry : ν)
  | addNext (entry next : ν)
  | addPrev (entry prev : ν)
  | del (entry : ν)
  | empty (entry : ν)

/-- A set of list heads, each with the sequence of the nodes on its list. -/
structure Lists (ν : Type u) where
  heads : Set ν
  seq : ν → List ν

/-- The node is no head and on no list. -/
def Lists.Free (S : Lists ν) (x : ν) : Prop := x ∉ S.heads ∧ ∀ h ∈ S.heads, x ∉ S.seq h

/-- Every head is on the ring of its sequence, and the rings are disjoint. -/
def Represents (l : Links ν) (S : Lists ν) : Prop := Rings S.heads l S.seq

/-- Every heap represents no lists. -/
theorem represents_empty (l : Links ν) : Represents l ⟨∅, fun _ => []⟩ :=
  ⟨fun _ h => h.elim, fun _ h => h.elim, fun _ h => h.elim, fun _ h => h.elim⟩

/-- When a caller may use an operation: a list is reached through its head, a
new node is on no list yet, and only a node on a list is deleted. A head may be
initialized anywhere but in the middle of a list. -/
def Lists.Pre (S : Lists ν) : ListOp ν → Prop
  | .headInit h => ∀ h' ∈ S.heads, h ∉ S.seq h'
  | .addNext h x => h ∈ S.heads ∧ S.Free x
  | .addPrev h x => h ∈ S.heads ∧ S.Free x
  | .del x => ∃ h ∈ S.heads, x ∈ S.seq h
  | .empty h => h ∈ S.heads

variable [DecidableEq ν]

/-- The same lists, with the sequence `xs` at `h`. -/
def Lists.set (S : Lists ν) (h : ν) (xs : List ν) : Lists ν :=
  { S with seq := Function.update S.seq h xs }

/-- What the operations are for. Only `list_empty` answers. -/
def Lists.step (S : Lists ν) : ListOp ν → Lists ν × Option Bool
  | .headInit h => ({ heads := insert h S.heads, seq := Function.update S.seq h [] }, none)
  | .addNext h x => (S.set h (x :: S.seq h), none)
  | .addPrev h x => (S.set h (S.seq h ++ [x]), none)
  | .del x => ({ S with seq := fun h => (S.seq h).erase x }, none)
  | .empty h => (S, some (S.seq h).isEmpty)

/-- What the operations do to the pointers. -/
def listStep (l : Links ν) : ListOp ν → Links ν × Option Bool
  | .headInit h => (listHeadInit l h, none)
  | .addNext h x => (listAddNext l h x, none)
  | .addPrev h x => (listAddPrev l h x, none)
  | .del x => (listDel l x, none)
  | .empty h => (l, some (listEmpty l h))

/-- The list of `h` becomes `xs`, and the nodes of the other lists keep their
pointers. -/
structure Becomes (S : Lists ν) (l l' : Links ν) (h : ν) (xs : List ν) : Prop where
  represents : Represents l' (S.set h xs)
  others : ∀ h' ∈ S.heads, h' ≠ h → ∀ a ∈ h' :: S.seq h',
    l'.next a = l.next a ∧ l'.prev a = l.prev a

/-- Each operation on the heap does to the sequences what it is for. -/
structure Implements (l : Links ν) (S : Lists ν) : Prop where
  represents : Represents l S
  inverse : ∀ h ∈ S.heads, ∀ a ∈ h :: S.seq h, l.prev (l.next a) = a ∧ l.next (l.prev a) = a
  addNext : ∀ h ∈ S.heads, ∀ x, S.Free x → Becomes S l (listAddNext l h x) h (x :: S.seq h)
  addPrev : ∀ h ∈ S.heads, ∀ x, S.Free x → Becomes S l (listAddPrev l h x) h (S.seq h ++ [x])
  del : ∀ h ∈ S.heads, ∀ x ∈ S.seq h, Becomes S l (listDel l x) h ((S.seq h).erase x)
  empty : ∀ h ∈ S.heads, listEmpty l h = true ↔ S.seq h = []

/-! ### One operation -/

section Step
variable {l : Links ν} {S : Lists ν}

/-- `list_add_next` on a head puts the free node at the front of its sequence and changes no other
sequence. -/
theorem Represents.addNext (hr : Represents l S) {h x : ν} (hh : h ∈ S.heads) (hx : S.Free x) :
    Becomes S l (listAddNext l h x) h (x :: S.seq h) where
  represents := listAddNext_eq l h x ▸ hr.insertAfter_head hh hx.1 hx.2
  others h' hh' hne := by
    have hnot := not_mem_ring hx.1 hx.2
    exact hr.keeps_spliced hh hh' (Ne.symm hne) List.mem_cons_self (hr.next_mem hh) (hnot h' hh')
      (hr.insertAfter_spliced hh (hnot h hh))

/-- `list_add_prev` on a head puts the free node at the end of its sequence and changes no other
sequence. -/
theorem Represents.addPrev (hr : Represents l S) {h x : ν} (hh : h ∈ S.heads) (hx : S.Free x) :
    Becomes S l (listAddPrev l h x) h (S.seq h ++ [x]) where
  represents := listAddPrev_eq l h x ▸ hr.insertBefore_head hh hx.1 hx.2
  others h' hh' hne := by
    have hnot := not_mem_ring hx.1 hx.2
    exact hr.keeps_spliced hh hh' (Ne.symm hne) (hr.prev_mem hh) List.mem_cons_self (hnot h' hh')
      (hr.insertBefore_spliced hh (hnot h hh))

/-- `list_del` takes the node out of its sequence and changes no other one. -/
theorem Represents.del (hr : Represents l S) {h x : ν} (hh : h ∈ S.heads) (hx : x ∈ S.seq h) :
    Becomes S l (listDel l x) h ((S.seq h).erase x) where
  represents := listDel_eq l x ▸ hr.unlink hh hx
  others h' hh' hne := by
    obtain ⟨hprev, hnext⟩ := hr.neighbours_mem hh hx
    exact hr.keeps_bypassed hh hh' (Ne.symm hne) hprev hnext (listDel_eq l x ▸ l.unlink_bypassed x)

/-- `list_head_init` starts an empty list at a node that is on none of the others. -/
theorem Represents.headInit (hr : Represents l S) {h : ν} (hh : ∀ h' ∈ S.heads, h ∉ S.seq h') :
    Represents (listHeadInit l h) (S.step (.headInit h)).1 :=
  hr.insert_head hh (isRing_listHeadInit l h) fun _ ha => listHeadInit_keeps l ha

/-- `list_empty` tells whether the sequence is empty, by looking at `next` of the head alone. -/
theorem Represents.empty (hr : Represents l S) {h : ν} (hh : h ∈ S.heads) :
    listEmpty l h = true ↔ S.seq h = [] :=
  listEmpty_iff (hr.ring h hh) (hr.noHead h hh h hh)

/-- A node is on one list only, so deleting it from all lists deletes it from
that one. -/
theorem Represents.erase_all (hr : Represents l S) {h x : ν} (hh : h ∈ S.heads) (hx : x ∈ S.seq h) :
    ∀ h' ∈ S.heads, (S.seq h').erase x = (S.set h ((S.seq h).erase x)).seq h' := by
  intro h' hh'
  show _ = Function.update S.seq h _ h'
  by_cases e : h' = h
  · rw [e, Function.update_self]
  · rw [Function.update_of_ne e]
    exact List.erase_of_not_mem fun hx' => e (hr.sep h' hh' h hh x hx' hx)

/-- The operations of the heap simulate those on the sequences, for each operation under the
condition that its callers keep. -/
theorem listStep_simulates :
    Simulates (@listStep ν _) Lists.Pre Lists.step Represents where
  state l S op hr hpre := by
    cases op with
    | headInit h => exact hr.headInit hpre
    | addNext h x => exact (hr.addNext hpre.1 hpre.2).represents
    | addPrev h x => exact (hr.addPrev hpre.1 hpre.2).represents
    | del x =>
        obtain ⟨h, hh, hx⟩ := hpre
        exact (hr.del hh hx).represents.congr (hr.erase_all hh hx)
    | empty h => exact hr
  answer l S op hr hpre := by
    cases op with
    | empty h =>
        show some (listEmpty l h) = some (S.seq h).isEmpty
        rw [Option.some.injEq, Bool.eq_iff_iff, hr.empty hpre, List.isEmpty_iff]
    | _ => rfl

/-- A heap that represents the sequences implements them: walking either way round meets each
sequence in its order. -/
theorem Represents.implements (hr : Represents l S) : Implements l S where
  represents := hr
  inverse h hh _ ha := (hr.ring h hh).inverse ha
  addNext _ hh _ hx := hr.addNext hh hx
  addPrev _ hh _ hx := hr.addPrev hh hx
  del _ hh _ hx := hr.del hh hx
  empty _ hh := hr.empty hh

end Step

/-! ### Any sequence of operations -/

/-- From a heap that represents some sequences, after any operations that the
callers may use, the heap implements the sequences that these operations give,
and `list_empty` answered as it should. -/
theorem listSteps_implement {l : Links ν} {S : Lists ν} (hr : Represents l S) (ops : List (ListOp ν))
    (hops : Admitted Lists.Pre Lists.step S ops) :
    Implements (runs listStep l ops).1 (runs Lists.step S ops).1 ∧
      (runs listStep l ops).2 = (runs Lists.step S ops).2 := by
  have hrun := listStep_simulates.runs hr hops
  exact ⟨hrun.1.implements, hrun.2⟩

/-- Two lists in a heap of stale pointers: the node 2 moves from the list of 0 to
that of 1. -/
theorem listSteps_implement_move :
    (runs listStep ⟨fun _ => 9, fun _ => 7⟩ [.headInit 0, .headInit 1, .addNext 0 2, .addPrev 0 3,
        .empty 1, .del 2, .addPrev 1 2, .empty 1, .empty (0 : Nat)]).2 =
      [none, none, none, none, some true, none, none, some false, some false] := by
  refine (listSteps_implement (S := ⟨∅, fun _ => []⟩) (represents_empty _) _ ?_).2.trans ?_
  · simp [Admitted, Lists.Pre, Lists.step, Lists.set, Lists.Free]
  · simp [runs, Lists.step, Lists.set]

/-! ### The lists of the buddy system -/

/-- `list_head_init` on the nodes of a list makes an empty list of each, beside the empty lists
that there are. -/
theorem Represents.headInits {l : Links ν} {H : Set ν} (hs : List ν)
    (hr : Represents l ⟨H, fun _ => []⟩) :
    Represents (hs.foldl listHeadInit l) ⟨{h | h ∈ hs ∨ h ∈ H}, fun _ => []⟩ := by
  induction hs generalizing l H with
  | nil => simpa using hr
  | cons h hs ih =>
      have hone : Represents (listHeadInit l h) ⟨insert h H, fun _ => []⟩ := by
        have hinit := hr.headInit (h := h) fun _ _ => List.not_mem_nil
        rwa [Lists.step, Function.update_eq_self] at hinit
      have hheads : {a | a ∈ h :: hs ∨ a ∈ H} = {a | a ∈ hs ∨ a ∈ insert h H} := by
        ext a
        simp only [Set.mem_ofPred_eq, List.mem_cons, Set.mem_insert_iff]
        tauto
      rw [hheads]
      exact ih hone

/-- Initialising the free lists is one `list_head_init` for each order. -/
theorem freelistInit_links (b : Buddy) :
    (freelistInit b).links = ((List.range MAX_PAGE_ORDER).map freelist).foldl listHeadInit b.links := by
  rw [List.foldl_map]
  rfl

/-- After `freelist_init`, in any heap, the free lists are empty lists on
disjoint rings. -/
theorem freelistInit_represents (b : Buddy) :
    Represents (freelistInit b).links
      ⟨{h | h ∈ (List.range MAX_PAGE_ORDER).map freelist}, fun _ => []⟩ := by
  have hinits := (represents_empty b.links).headInits ((List.range MAX_PAGE_ORDER).map freelist)
  rw [← freelistInit_links] at hinits
  simpa using hinits

end SumiOS
