import Mathlib.Tactic.Common

/-!
# `SumiOS.Lib.Simulation`: two systems that answer alike

A system is a step function `σ → α → σ × β`: an action changes the state and
gives an answer. `runs` carries out a list of actions and collects the answers.

A concrete system simulates an abstract one along a relation `R` when every
action that the abstract one admits keeps `R` and is answered alike
(`Simulates`). The rule for whole runs is `Simulates.runs`.
-/

set_option autoImplicit false

namespace Lib

universe u v w x
variable {σ : Type u} {τ : Type v} {α : Type w} {β : Type x}

/-- The state after a list of actions, and their answers. -/
def runs (step : σ → α → σ × β) : σ → List α → σ × List β
  | s, [] => (s, [])
  | s, a :: as =>
      ((runs step (step s a).1 as).1, (step s a).2 :: (runs step (step s a).1 as).2)

/-- Every action is admitted in the state it starts from. -/
def Admitted (pre : τ → α → Prop) (spec : τ → α → τ × β) : τ → List α → Prop
  | _, [] => True
  | t, a :: as => pre t a ∧ Admitted pre spec (spec t a).1 as

/-- An admitted action keeps the relation and is answered alike. -/
structure Simulates (step : σ → α → σ × β) (pre : τ → α → Prop) (spec : τ → α → τ × β)
    (R : σ → τ → Prop) : Prop where
  state : ∀ s t a, R s t → pre t a → R (step s a).1 (spec t a).1
  answer : ∀ s t a, R s t → pre t a → (step s a).2 = (spec t a).2

/-- A run of admitted actions keeps the relation and is answered alike. Which actions are admitted
is decided by the specification alone, along its own run. -/
theorem Simulates.runs {step : σ → α → σ × β} {pre : τ → α → Prop} {spec : τ → α → τ × β}
    {R : σ → τ → Prop} (hsim : Simulates step pre spec R) {s : σ} {t : τ} {as : List α}
    (hR : R s t) (has : Admitted pre spec t as) :
    R (Lib.runs step s as).1 (Lib.runs spec t as).1 ∧
      (Lib.runs step s as).2 = (Lib.runs spec t as).2 := by
  induction as generalizing s t with
  | nil => exact ⟨hR, rfl⟩
  | cons a as ih =>
      have hrest := ih (hsim.state s t a hR has.1) has.2
      refine ⟨hrest.1, ?_⟩
      show (step s a).2 :: _ = (spec t a).2 :: _
      rw [hsim.answer s t a hR has.1, hrest.2]

end Lib
