import Mathlib.Logic.Function.Basic
import Mathlib.Tactic.Common

/-!
# `SumiOS.Lib.Trie`: radix trees whose nodes are tables in a store

A store gives the entry at every index of every table. An entry may refer to a
further table (`child`). A path is a list of indices, the last one first, so
that `i :: π` is the entry `i` of the table at `π`.

`Laid` says that `T` gives the tables of a tree of the depth `depth` in the
store: different paths have different tables, and the entries of the inner
tables refer to the tables below them. Root entries outside `top` are left out:
nothing is said about what they refer to.

Seen through `entryAt`, the tree is a function from paths to entries. The two
edits are updates of that function at one path: `Laid.set` writes an entry of a
table of the last level, and `Laid.grow_laid` makes an empty entry refer to a
new, empty table. `Laid.hide` gives up a root entry, and `Laid.pruned` takes it back when nothing
is below it. `Laid.walkTo_eq` says that a walk from the root finds the tables.
-/

set_option autoImplicit false

namespace Lib

universe u v w
variable {P : Type u} {I : Type v} {E : Type w}

/-- The root entry that the path goes through is one of `top`. -/
def Under (top : I → Prop) (π : List I) : Prop := ∀ i ∈ π.getLast?, top i

/-- `T` gives the tables of a tree of the depth `depth` in the store `V`. -/
structure Laid (child : E → Option P) (depth : Nat) (top : I → Prop) (V : P → I → E)
    (T : List I → Option P) : Prop where
  inj : ∀ π π' p, T π = some p → T π' = some p → π = π'
  link : ∀ π p i, T π = some p → π.length + 1 < depth → Under top (i :: π) →
    child (V p i) = T (i :: π)
  orphan : ∀ π i, T π = none → T (i :: π) = none
  deep : ∀ π, depth ≤ π.length → T π = none

/-- The entry at a path, `zero` when there is no table for it. -/
def entryAt (zero : E) (V : P → I → E) (T : List I → Option P) : List I → E
  | [] => zero
  | i :: π => (T π).elim zero fun p => V p i

/-- The table that a walk from the root comes to. -/
def walkTo (child : E → Option P) (V : P → I → E) (root : P) : List I → Option P
  | [] => some root
  | i :: π => (walkTo child V root π).bind fun p => child (V p i)

section

variable {child : E → Option P} {depth : Nat} {top : I → Prop} {V V' : P → I → E}
  {T : List I → Option P} {π : List I} {p q root : P} {i : I} {e zero : E}

/-- A path below a chosen root entry stays below it when its last index is dropped. -/
theorem Under.tail (h : Under top (i :: π)) : Under top π := by
  intro j hj
  cases π with
  | nil => exact absurd hj (by simp)
  | cons k π => exact h j (by rwa [List.getLast?_cons_cons])

/-- And when an index is added, unless the path was the root itself. -/
theorem Under.cons (h : Under top π) (hne : π ≠ []) : Under top (i :: π) := by
  intro j hj
  cases π with
  | nil => exact absurd rfl hne
  | cons k π => exact h j (by rwa [List.getLast?_cons_cons] at hj)

/-- A path of a single index is below a chosen root entry when the index is one. -/
theorem under_singleton (h : top i) : Under top [i] := by
  intro j hj
  rw [List.getLast?_singleton, Option.mem_some_iff] at hj
  exact hj ▸ h

/-- Any prefix of a path below a chosen root entry is below it. -/
theorem Under.of_append : ∀ {πs : List I}, Under top (πs ++ π) → Under top π
  | [], h => h
  | _ :: _, h => h.tail.of_append

/-- A tree for some root entries is one for fewer of them. -/
theorem Laid.mono {top' : I → Prop} (h : Laid child depth top V T) (hle : ∀ i, top' i → top i) :
    Laid child depth top' V T :=
  ⟨h.inj, fun π p i hp hlen hu => h.link π p i hp hlen fun j hj => hle j (hu j hj), h.orphan, h.deep⟩

/-- The entry at a path is read from the table that the rest of the path leads to. -/
theorem entryAt_some (hp : T π = some p) : entryAt zero V T (i :: π) = V p i := by
  simp [entryAt, hp]

/-- Where the rest of the path leads to no table, the entry is empty. -/
theorem entryAt_none (hp : T π = none) : entryAt zero V T (i :: π) = zero := by
  simp [entryAt, hp]

/-- A walk finds the tables of the tree, as far as its depth goes and below the root entries that
count. -/
theorem Laid.walkTo_eq (h : Laid child depth top V T) (hroot : T [] = some root) :
    ∀ {π : List I}, π.length < depth → Under top π → walkTo child V root π = T π
  | [], _, _ => hroot.symm
  | i :: π, hlen, hu => by
      have hlen' : π.length + 1 < depth := hlen
      have ih : walkTo child V root π = T π := h.walkTo_eq hroot (by omega) hu.tail
      rw [walkTo, ih]
      cases hp : T π with
      | none => exact (h.orphan π i hp).symm
      | some p => exact h.link π p i hp hlen' hu

/-- Below a path without a table there is none. -/
theorem Laid.orphan_append (h : Laid child depth top V T) (hπ : T π = none) :
    ∀ πs : List I, T (πs ++ π) = none
  | [] => hπ
  | i :: πs => h.orphan _ i (h.orphan_append hπ πs)

/-- Entries at different paths are different entries of the store. -/
theorem Laid.entry_ne (h : Laid child depth top V T) {π' : List I} {p' : P} {j : I} (hp : T π = some p)
    (hp' : T π' = some p') (hne : j :: π' ≠ i :: π) : (p', j) ≠ (p, i) := by
  intro he
  obtain ⟨h₁, h₂⟩ := Prod.mk.inj he
  exact hne (by rw [h₂, h.inj π' π p (h₁ ▸ hp') hp])

/-- Writing a root entry hides what is below it, and nothing else: the tables there are still laid
out, but no path that counts goes through that entry any more. -/
theorem Laid.hide (h : Laid child depth top V T) (hroot : T [] = some root)
    (hkeep : ∀ π p j, T π = some p → (p, j) ≠ (root, i) → V' p j = V p j) :
    Laid child depth (fun j => top j ∧ j ≠ i) V' T ∧
      ∀ π, π ≠ [i] → entryAt zero V' T π = entryAt zero V T π := by
  refine ⟨⟨h.inj, fun π p j hp hlen hu => ?_, h.orphan, h.deep⟩, fun π hπ => ?_⟩
  · -- The root entry is hidden, so this is another one.
    have hne : (p, j) ≠ (root, i) := by
      intro he
      obtain ⟨rfl, rfl⟩ := Prod.mk.inj he
      obtain rfl : π = [] := h.inj π [] p hp hroot
      exact (hu j rfl).2 rfl
    rw [hkeep π p j hp hne]
    exact h.link π p j hp hlen fun k hk => (hu k hk).1
  · cases π with
    | nil => rfl
    | cons j π =>
        cases hp : T π with
        | none => rw [entryAt_none hp, entryAt_none hp]
        | some p =>
            rw [entryAt_some hp, entryAt_some hp]
            exact hkeep π p j hp (h.entry_ne hroot hp hπ)

/-- A tree is a matter of the entries of its tables. -/
theorem Laid.congr (h : Laid child depth top V T) (hsame : ∀ π p i, T π = some p → V' p i = V p i) :
    Laid child depth top V' T := by
  refine ⟨h.inj, fun π p i hp hlen hu => ?_, h.orphan, h.deep⟩
  rw [hsame π p i hp]
  exact h.link π p i hp hlen hu

/-- The entries of a tree depend on the contents of its own tables only. -/
theorem entryAt_congr (hsame : ∀ π p i, T π = some p → V' p i = V p i) :
    entryAt zero V' T = entryAt zero V T := by
  funext π
  cases π with
  | nil => rfl
  | cons i π =>
      cases hp : T π with
      | none => rw [entryAt_none hp, entryAt_none hp]
      | some p => rw [entryAt_some hp, entryAt_some hp, hsame π p i hp]

variable [DecidableEq I]

/-- The tables that are not below the root entry `i`. -/
def pruned (T : List I → Option P) (i : I) (π : List I) : Option P :=
  if π.getLast? = some i then none else T π

/-- A table that is left after pruning is one of the old tables, and not below the pruned entry. -/
theorem pruned_some (hp : pruned T i π = some p) : π.getLast? ≠ some i ∧ T π = some p := by
  rw [pruned] at hp
  split at hp
  · cases hp
  · exact ⟨‹_›, hp⟩

/-- A root entry that was hidden and has nothing below it counts again, after the tables that used
to be below it are dropped from the tree. -/
theorem Laid.pruned (h : Laid child depth (fun j => top j ∧ j ≠ i) V T) (hroot : T [] = some root)
    (hempty : child (V root i) = none) : Laid child depth top V (Lib.pruned T i) := by
  have hlast : ∀ π j, π.getLast? = some i → (j :: π).getLast? = some i := by
    intro π j hπ
    cases π with
    | nil => cases hπ
    | cons k π => rwa [List.getLast?_cons_cons]
  refine ⟨fun π π' p hp hp' => ?_, fun π p j hp hlen hu => ?_, fun π j hp => ?_, fun π hlen => ?_⟩
  · exact h.inj π π' p (pruned_some hp).2 (pruned_some hp').2
  · obtain ⟨hπ, hp⟩ := pruned_some hp
    rw [Lib.pruned]
    split
    · -- The path ends with the empty entry itself.
      rename_i hj
      cases π with
      | nil =>
          rw [List.getLast?_singleton, Option.some.injEq] at hj
          obtain rfl : root = p := Option.some.inj (hroot.symm.trans hp)
          rw [hj, hempty]
      | cons k π =>
          rw [List.getLast?_cons_cons] at hj
          exact absurd hj hπ
    · rename_i hj
      refine h.link π p j hp hlen fun k hk => ⟨hu k hk, fun e => hj ?_⟩
      rw [← e]
      exact hk
  · -- No table is below a path that the pruned tree leaves out either.
    rw [Lib.pruned] at hp ⊢
    split
    · rfl
    · rename_i hj
      rw [if_neg fun hπ => hj (hlast π j hπ)] at hp
      exact h.orphan π j hp
  · rw [Lib.pruned, h.deep π hlen, ite_self]

/-- Writing an entry of a table of the last level sets the entry at its path and no other, since
each table has one place in the tree. -/
theorem Laid.set (zero : E) (h : Laid child depth top V T) (hp : T π = some p) (hlen : π.length + 1 = depth)
    (hwrite : V' p i = e)
    (hkeep : ∀ π' p' j, T π' = some p' → (p', j) ≠ (p, i) → V' p' j = V p' j) :
    Laid child depth top V' T ∧
      entryAt zero V' T = Function.update (entryAt zero V T) (i :: π) e := by
  refine ⟨⟨h.inj, fun π' p' j hp' hlen' hu => ?_, h.orphan, h.deep⟩, ?_⟩
  · -- The table that was written is not an inner one.
    have hne : p' ≠ p := by
      intro he
      have hπ := h.inj π' π p (he ▸ hp') hp
      rw [hπ] at hlen'
      omega
    rw [hkeep π' p' j hp' fun he => hne (Prod.mk.inj he).1]
    exact h.link π' p' j hp' hlen' hu
  · funext π'
    cases π' with
    | nil => rfl
    | cons j π' =>
        by_cases hpath : j :: π' = i :: π
        · rw [hpath, Function.update_self, entryAt_some hp, hwrite]
        · rw [Function.update_of_ne hpath]
          cases hp' : T π' with
          | none => rw [entryAt_none hp', entryAt_none hp']
          | some p' =>
              rw [entryAt_some hp', entryAt_some hp']
              exact hkeep π' p' j hp' (h.entry_ne hp hp' hpath)

section Grow

variable (h : Laid child depth top V T) (hp : T π = some p) (hnone : T (i :: π) = none)
  (hwrite : V' p i = e) (hempty : ∀ j, V' q j = zero)
  (hkeep : ∀ π' p' j, T π' = some p' → (p', j) ≠ (p, i) → V' p' j = V p' j)
include h hp hnone hwrite hempty hkeep

/-- The tree with a new, empty table behind an empty entry is laid out again: the new table is at
no other place, and nothing hangs below it yet. -/
theorem Laid.grow_laid (hzero : child zero = none) (hlen : π.length + 1 < depth)
    (hnew : ∀ π', T π' ≠ some q) (hchild : child e = some q) :
    Laid child depth top V' (Function.update T (i :: π) (some q)) := by
  have hold : ∀ π' p', π' ≠ i :: π →
      Function.update T (i :: π) (some q) π' = some p' → T π' = some p' := by
    intro π' p' hne hp'
    rwa [Function.update_of_ne hne] at hp'
  -- One table per path, the entries, no table behind an empty entry, and the depth.
  refine ⟨fun π₁ π₂ r h1 h2 => ?_, fun π' p' j hp' hlen' hu => ?_, fun π' j hp' => ?_,
    fun π' hlen' => ?_⟩
  · by_cases e1 : π₁ = i :: π
    · by_cases e2 : π₂ = i :: π
      · rw [e1, e2]
      · rw [e1, Function.update_self, Option.some.injEq] at h1
        exact absurd (h1 ▸ hold π₂ r e2 h2) (hnew π₂)
    · by_cases e2 : π₂ = i :: π
      · rw [e2, Function.update_self, Option.some.injEq] at h2
        exact absurd (h2 ▸ hold π₁ r e1 h1) (hnew π₁)
      · exact h.inj π₁ π₂ r (hold π₁ r e1 h1) (hold π₂ r e2 h2)
  · by_cases e1 : π' = i :: π
    · -- The new table is empty, and there is nothing below it.
      subst e1
      have hself : j :: i :: π ≠ i :: π := List.cons_ne_self j (i :: π)
      rw [Function.update_self, Option.some.injEq] at hp'
      rw [← hp', hempty, hzero, Function.update_of_ne hself, h.orphan _ j hnone]
    · have hp'' := hold π' p' e1 hp'
      by_cases hpath : j :: π' = i :: π
      · obtain ⟨rfl, rfl⟩ := List.cons.inj hpath
        obtain rfl : p = p' := Option.some.inj (hp.symm.trans hp'')
        rw [hwrite, hchild, Function.update_self]
      · rw [Function.update_of_ne hpath, hkeep π' p' j hp'' (h.entry_ne hp hp'' hpath)]
        exact h.link π' p' j hp'' hlen' hu
  · by_cases e1 : π' = i :: π
    · rw [e1, Function.update_self] at hp'
      exact absurd hp' (by simp)
    · rw [Function.update_of_ne e1] at hp'
      have hpath : j :: π' ≠ i :: π := by
        intro he
        rw [(List.cons.inj he).2, hp] at hp'
        exact absurd hp' (by simp)
      rw [Function.update_of_ne hpath]
      exact h.orphan π' j hp'
  · have hne : π' ≠ i :: π := by
      intro he
      rw [he, List.length_cons] at hlen'
      omega
    rw [Function.update_of_ne hne]
    exact h.deep π' hlen'

/-- Its entries are those from before, except that the one that was empty now refers to the new
table. All entries of the new table are empty, as they were without it. -/
theorem Laid.grow_entryAt : entryAt zero V' (Function.update T (i :: π) (some q)) =
    Function.update (entryAt zero V T) (i :: π) e := by
  funext π'
  cases π' with
  | nil => rfl
  | cons j π' =>
      by_cases hpath : j :: π' = i :: π
      · obtain ⟨rfl, rfl⟩ := List.cons.inj hpath
        have hne : π' ≠ j :: π' := (List.cons_ne_self j π').symm
        rw [Function.update_self, entryAt_some (p := p), hwrite]
        rw [Function.update_of_ne hne, hp]
      · rw [Function.update_of_ne hpath]
        by_cases e1 : π' = i :: π
        · subst e1
          rw [entryAt_some (p := q) (Function.update_self ..), hempty, entryAt_none hnone]
        · cases hp' : T π' with
          | none =>
              rw [entryAt_none hp', entryAt_none]
              rw [Function.update_of_ne e1, hp']
          | some p' =>
              rw [entryAt_some hp', entryAt_some (p := p')]
              · exact hkeep π' p' j hp' (h.entry_ne hp hp' hpath)
              · rw [Function.update_of_ne e1, hp']

end Grow

/-- The tables of a tree stay where they are when an empty entry gets one. -/
theorem update_keeps (hnone : T (i :: π) = none) {π' : List I} (hp : T π' = some p) :
    Function.update T (i :: π) (some q) π' = some p := by
  have hne : π' ≠ i :: π := by
    rintro rfl
    rw [hnone] at hp
    exact absurd hp (by simp)
  rw [Function.update_of_ne hne, hp]

end

end Lib
