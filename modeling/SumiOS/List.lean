import SumiOS.Lib.Ring

/-!
# `SumiOS.List`: the intrusive lists of `include/sumios/list.h`

The four pointer writes of each operation in the source's order, over any type
of nodes. The equations below identify them with the edits of
`SumiOS.Lib.Ring`.
-/

set_option autoImplicit false

namespace SumiOS

open Lib

universe u
variable {ν : Type u} [DecidableEq ν]

/-- `x->next = y`. -/
def setNext (l : Links ν) (x y : ν) : Links ν := { l with next := Function.update l.next x y }

/-- `x->prev = y`. -/
def setPrev (l : Links ν) (x y : ν) : Links ν := { l with prev := Function.update l.prev x y }

/-- `list_add_prev`: add a new node as `entry->prev`. -/
def listAddPrev (l : Links ν) (entry prev : ν) : Links ν :=
  let l := setNext l (l.prev entry) prev
  let l := setPrev l prev (l.prev entry)
  let l := setNext l prev entry
  setPrev l entry prev

/-- `list_add_next`: add a new node as `entry->next`. -/
def listAddNext (l : Links ν) (entry next : ν) : Links ν :=
  let l := setPrev l (l.next entry) next
  let l := setPrev l next entry
  let l := setNext l next (l.next entry)
  setNext l entry next

/-- `list_del`: unlink a node from its list. The node keeps its pointers. -/
def listDel (l : Links ν) (entry : ν) : Links ν :=
  let l := setPrev l (l.next entry) (l.prev entry)
  setNext l (l.prev entry) (l.next entry)

/-- `list_head_init`. -/
def listHeadInit (l : Links ν) (entry : ν) : Links ν :=
  let l := setNext l entry entry
  setPrev l entry entry

/-- `list_empty`. -/
def listEmpty (l : Links ν) (entry : ν) : Bool :=
  l.next entry == entry && l.prev entry == entry

/-- `list_add_next` of the source does what insertion behind a node does in the
library of rings. -/
theorem listAddNext_eq (l : Links ν) (entry next : ν) :
    listAddNext l entry next = l.insertAfter entry next := rfl

/-- `list_add_prev` of the source does what insertion in front of a node does there. -/
theorem listAddPrev_eq (l : Links ν) (entry prev : ν) :
    listAddPrev l entry prev = l.insertBefore entry prev := rfl

/-- The second write of `list_del` reads `entry->prev` after the first one,
which changes it only in a node linked to itself, and there to its own value. -/
theorem listDel_eq (l : Links ν) (entry : ν) : listDel l entry = l.unlink entry := by
  have hprev : Function.update l.prev (l.next entry) (l.prev entry) entry = l.prev entry := by
    by_cases h : entry = l.next entry
    · rw [← h, Function.update_self]
    · rw [Function.update_of_ne h]
  simp only [listDel, setPrev, setNext, Links.unlink, hprev]

/-- `list_empty` on a head whose ring is well formed. -/
theorem listEmpty_iff {l : Links ν} {h : ν} {xs : List ν} (hr : IsRing l h xs) (hh : h ∉ xs) :
    listEmpty l h = true ↔ xs = [] := by
  rw [← hr.next_eq_self_iff hh]
  simp only [listEmpty, Bool.and_eq_true, beq_iff_eq, and_iff_left_iff_imp]
  intro hn
  rw [hr.next_eq_self_iff hh] at hn
  subst hn
  exact (isRing_nil.mp hr).2

/-- `list_head_init` writes the pointers of its argument only, so no other node is changed. -/
theorem listHeadInit_keeps (l : Links ν) {h a : ν} (ha : a ≠ h) :
    (listHeadInit l h).next a = l.next a ∧ (listHeadInit l h).prev a = l.prev a :=
  ⟨Function.update_of_ne ha _ _, Function.update_of_ne ha _ _⟩

/-- `list_head_init` makes a ring with no nodes of its argument. -/
theorem isRing_listHeadInit (l : Links ν) (h : ν) : IsRing (listHeadInit l h) h [] :=
  isRing_nil.mpr ⟨by simp [listHeadInit, setNext, setPrev], by simp [listHeadInit, setPrev]⟩

end SumiOS
