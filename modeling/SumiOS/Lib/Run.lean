import Mathlib.Tactic.Common

/-!
# `SumiOS.Lib.Run`: runs of a partial step function

A system is a step function `σ → α → Option σ`: `none` says that the action is
not allowed in the state. `run` folds it over a list of actions.

`Always P` holds of a run when `P` holds in every state it passes, the first
and the last included. `Guarded C` holds of a run when every action meets the
condition `C` in the state it starts from. The rules:

* `invariant_of_guarded`: an invariant that every guarded step keeps holds in
  the last state of a guarded run.
* `always_of_guarded`: it then holds in all of them.
* `always_iff_guarded`: when an unguarded step breaks `P`, the guarded runs are
  exactly the runs that satisfy `P` throughout. A second guard `D` restricts the
  runs that are considered.
* `guarded_map`: a guard on a part of the state needs that part of the run only.
-/

set_option autoImplicit false

namespace Lib

universe u v
variable {σ : Type u} {α : Type v} (step : σ → α → Option σ)

/-- The state after a list of actions, when all of them are allowed. -/
def run : σ → List α → Option σ
  | s, [] => some s
  | s, a :: as => (step s a).bind fun s' => run s' as

/-- `P` holds in every state of the run. -/
def Always (P : σ → Prop) : σ → List α → Prop
  | s, [] => P s
  | s, a :: as => P s ∧ ∀ s', step s a = some s' → Always P s' as

/-- Every action of the run meets `C` in the state it starts from. -/
def Guarded (C : σ → α → Prop) : σ → List α → Prop
  | _, [] => True
  | s, a :: as => C s a ∧ ∀ s', step s a = some s' → Guarded C s' as

variable {step} {I P : σ → Prop} {C : σ → α → Prop}

/-- A run of a nonempty list is its first step and the run of the rest. -/
theorem run_cons {s s' : σ} {a : α} {as : List α} :
    run step s (a :: as) = some s' ↔ ∃ t, step s a = some t ∧ run step t as = some s' := by
  simp [run, Option.bind_eq_some_iff]

/-- A run of two lists is a run of the second after one of the first. -/
theorem run_append (s : σ) (as bs : List α) :
    run step s (as ++ bs) = (run step s as).bind fun t => run step t bs := by
  induction as generalizing s with
  | nil => rfl
  | cons a as ih =>
      show (step s a).bind _ = ((step s a).bind _).bind _
      rw [Option.bind_assoc]
      exact Option.bind_congr fun t _ => ih t

/-- What always holds in a run holds at its end. -/
theorem Always.last : ∀ {as : List α} {s s' : σ}, Always step P s as → run step s as = some s' → P s'
  | [], s, s', h, hr => by
      rw [run, Option.some.injEq] at hr
      exact hr ▸ h
  | a :: as, s, s', h, hr => by
      obtain ⟨t, ht, hr⟩ := run_cons.mp hr
      exact (h.2 t ht).last hr

/-- An invariant of the guarded steps holds at the end of a guarded run. -/
theorem invariant_of_guarded
    (hstep : ∀ s a s', I s → C s a → step s a = some s' → I s') :
    ∀ {as : List α} {s s' : σ}, I s → Guarded step C s as → run step s as = some s' → I s'
  | [], s, s', hI, _, hr => by
      rw [run, Option.some.injEq] at hr
      exact hr ▸ hI
  | a :: as, s, s', hI, hg, hr => by
      obtain ⟨t, ht, hr⟩ := run_cons.mp hr
      exact invariant_of_guarded hstep (hstep s a t hI hg.1 ht) (hg.2 t ht) hr

/-- An invariant of the guarded steps holds in every state of a guarded run. -/
theorem always_of_guarded (hIP : ∀ s, I s → P s)
    (hstep : ∀ s a s', I s → C s a → step s a = some s' → I s') :
    ∀ {as : List α} {s : σ}, I s → Guarded step C s as → Always step P s as
  | [], s, hI, _ => hIP s hI
  | a :: _, s, hI, hg =>
      ⟨hIP s hI, fun s' hs' =>
        always_of_guarded hIP hstep (hstep s a s' hI hg.1 hs') (hg.2 s' hs')⟩

/-- A condition that every action meets in every state. -/
theorem guarded_of_forall (h : ∀ s a, C s a) : ∀ (as : List α) (s : σ), Guarded step C s as
  | [], _ => trivial
  | a :: as, s => ⟨h s a, fun s' _ => guarded_of_forall h as s'⟩

/-- Along an invariant of the guarded steps, one guard gives another. -/
theorem Guarded.imp {D : σ → α → Prop}
    (hstep : ∀ s a s', I s → C s a → step s a = some s' → I s')
    (himp : ∀ s a, I s → C s a → D s a) :
    ∀ {as : List α} {s : σ}, I s → Guarded step C s as → Guarded step D s as
  | [], _, _, _ => trivial
  | a :: _, s, hI, hg =>
      ⟨himp s a hI hg.1, fun s' hs' =>
        Guarded.imp hstep himp (hstep s a s' hI hg.1 hs') (hg.2 s' hs')⟩

/-- A run of a system with more state is guarded by a condition on the part `f`
exactly when the run of that part is. -/
theorem guarded_map {τ : Type u} {step' : τ → α → Option τ} (f : τ → σ)
    (hf : ∀ t a, step (f t) a = (step' t a).map f) :
    ∀ {as : List α} {t : τ},
      Guarded step C (f t) as ↔ Guarded step' (fun t a => C (f t) a) t as
  | [], _ => Iff.rfl
  | a :: as, t => by
      refine and_congr_right fun _ => ?_
      rw [hf]
      constructor
      · exact fun h t' ht' => (guarded_map f hf).mp (h (f t') (by rw [ht', Option.map_some]))
      · rintro h s' hs'
        obtain ⟨t', ht', rfl⟩ := Option.map_eq_some_iff.mp hs'
        exact (guarded_map f hf).mpr (h t' ht')

/-- Consider the runs that are guarded by `D`. When the invariant gives `P`, and
a step that does not meet `C` loses `P`, then those that satisfy `P` throughout
are the ones that are guarded by `C` as well. -/
theorem always_iff_guarded {D : σ → α → Prop} (hIP : ∀ s, I s → P s)
    (hstep : ∀ s a s', I s → D s a → C s a → step s a = some s' → I s')
    (hbreak : ∀ s a s', I s → D s a → ¬ C s a → step s a = some s' → ¬ P s') :
    ∀ {as : List α} {s s' : σ}, I s → Guarded step D s as → run step s as = some s' →
      (Always step P s as ↔ Guarded step C s as)
  | [], s, _, hI, _, _ => iff_of_true (hIP s hI) trivial
  | a :: as, s, s', hI, hD, hr => by
      obtain ⟨t, ht, hr⟩ := run_cons.mp hr
      have hfirst : ∀ Q, Always step Q t as → Q t := by
        intro Q hQ
        cases as with
        | nil => exact hQ
        | cons b bs => exact hQ.1
      have hrest := fun hC => always_iff_guarded hIP hstep hbreak
        (hstep s a t hI hD.1 hC ht) (hD.2 t ht) hr
      constructor
      · rintro ⟨-, hP⟩
        have hC : C s a := by
          by_contra hC
          exact hbreak s a t hI hD.1 hC ht (hfirst P (hP t ht))
        refine ⟨hC, fun t' ht' => ?_⟩
        obtain rfl : t = t' := Option.some.inj (ht.symm.trans ht')
        exact (hrest hC).mp (hP t ht)
      · rintro ⟨hC, hG⟩
        refine ⟨hIP s hI, fun t' ht' => ?_⟩
        obtain rfl : t = t' := Option.some.inj (ht.symm.trans ht')
        exact (hrest hC).mpr (hG t ht)

end Lib
