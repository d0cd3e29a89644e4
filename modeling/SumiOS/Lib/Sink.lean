import Mathlib.Tactic.Common

/-!
# `SumiOS.Lib.Sink`: programs that put characters

A program that puts characters one after the other can be run on any sink: a console, a
counter, or the list of the characters themselves. `Emits p cs` says that `p` returns on
every sink, and that it puts exactly the characters `cs` there.

`Emits.unique` reads the characters off a run on a list; `emits_put` and `Emits.bind` are
the rules for the programs that the others are made of.
-/

set_option autoImplicit false

namespace Lib

variable {ε α β γ : Type}

/-- A program over any sink: how a character is put there, and the sink. -/
abbrev Sinks (ε β : Type) : Type 1 := (κ : Type) → (κ → β → κ) → κ → Except ε κ

/-- The program returns, and puts the characters `cs`. -/
def Emits (p : Sinks ε β) (cs : List β) : Prop :=
  ∀ (κ : Type) (put : κ → β → κ) (k : κ), p κ put k = .ok (cs.foldl put k)

variable {p q : Sinks ε β} {cs ds : List β}

/-- On a list, a program collects what it emits. -/
theorem Emits.collect (h : Emits p cs) : p (List β) (fun k c => k ++ [c]) [] = .ok cs := by
  have hfold : ∀ (ds k : List β), ds.foldl (fun k c => k ++ [c]) k = k ++ ds := by
    intro ds
    induction ds with
    | nil => simp
    | cons d ds ih => exact fun k => by rw [List.foldl_cons, ih, List.append_assoc]; rfl
  rw [h, hfold, List.nil_append]

/-- A program emits one list of characters only. -/
theorem Emits.unique (h : Emits p cs) (h' : Emits p ds) : cs = ds :=
  Except.ok.inj (h.collect.symm.trans h'.collect)

/-- A program that emits characters does not fail, whatever is done with the characters. -/
theorem Emits.ne_error (h : Emits p cs) {κ : Type} (put : κ → β → κ) (k : κ) (e : ε) :
    p κ put k ≠ .error e := by
  rw [h κ put k]
  exact fun h => nomatch h

/-- Putting one character. -/
theorem emits_put (c : β) : Emits (fun _ put k => .ok (put k c) : Sinks ε β) [c] := fun _ _ _ => rfl

/-- One program after the other emits the characters of the one and then those of the other. -/
theorem Emits.bind (hp : Emits p cs) (hq : Emits q ds) :
    Emits (fun κ put k => p κ put k >>= q κ put) (cs ++ ds) := by
  intro κ put k
  show (p κ put k >>= q κ put) = _
  rw [hp κ put k, List.foldl_append]
  exact hq κ put (cs.foldl put k)

/-! ### The result of a run -/

/-- What a run that returned has returned, when its result is only changed on the way out. -/
theorem map_eq_ok {r : Except ε α} {f : α → γ} {c : γ} :
    r.map f = .ok c ↔ ∃ a, r = .ok a ∧ f a = c := by
  cases r with
  | error e => exact ⟨fun h => (nomatch h), fun ⟨_, h, _⟩ => (nomatch h)⟩
  | ok a => simp [Except.map]

/-- A part of what is seen of a run. -/
theorem map_map (r : Except ε α) (f : α → β) (g : β → γ) :
    (r.map f).map g = r.map fun a => g (f a) := by
  cases r with
  | error e => rfl
  | ok a => rfl

end Lib
