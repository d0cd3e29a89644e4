import Mathlib.Data.List.Perm.Subperm
import SumiOS.Proofs.PageTable.Map

/-!
# `SumiOS.Proofs.PageTable.Count`: how many tables a run of calls needs

A call allocates one page for each empty inner entry of its walk (`pgtableMap_count`).
So the number of pages of a run is a matter of paths alone: `demand` counts those that
come up for the first time.

The count does not presuppose that the allocations of the run succeed. It is enough that
as many allocations as are counted would.
-/

set_option autoImplicit false

namespace SumiOS

open Lib

/-! ### Paths that come up for the first time -/

/-- The paths of a step that were not used before. -/
def unused {α : Type} [DecidableEq α] (used step : List α) : List α := step.filter (· ∉ used)

/-- How many paths of the steps come up for the first time. -/
def demand {α : Type} [DecidableEq α] : List α → List (List α) → Nat
  | _, [] => 0
  | used, step :: steps => (unused used step).length + demand (step ++ used) steps

section Demand

variable {α : Type} [DecidableEq α] {used used' step : List α} {steps steps' : List (List α)}

/-- The demand of two lists of steps: the second list finds in use what the first has brought into
use. -/
theorem demand_append (used : List α) (steps steps' : List (List α)) :
    demand used (steps ++ steps') =
      demand used steps + demand (steps.reverse.flatten ++ used) steps' := by
  induction steps generalizing used with
  | nil => simp [demand]
  | cons step steps ih =>
      rw [List.cons_append, demand, demand, ih, Nat.add_assoc]
      simp

/-- No step needs more than it has entries, so the demand is at most that many times the number of
steps. -/
theorem demand_le {n : Nat} (h : ∀ step ∈ steps, step.length ≤ n) :
    demand used steps ≤ n * steps.length := by
  induction steps generalizing used with
  | nil => exact Nat.zero_le _
  | cons step steps ih =>
      obtain ⟨hstep, hsteps⟩ := List.forall_mem_cons.mp h
      have hfirst : (unused used step).length ≤ step.length := List.length_filter_le ..
      have hrest : demand (step ++ used) steps ≤ n * steps.length := ih hsteps
      rw [demand, List.length_cons, Nat.mul_succ]
      omega

/-- Steps within a list need no more than what of it was not used before. -/
theorem demand_le_filter {all : List α} (h : ∀ step ∈ steps, step.Nodup ∧ step ⊆ all) :
    demand used steps ≤ (all.filter (· ∉ used)).length := by
  induction steps generalizing used with
  | nil => exact Nat.zero_le _
  | cons step steps ih =>
      obtain ⟨⟨hnodup, hsub⟩, hsteps⟩ := List.forall_mem_cons.mp h
      have hfirst : (unused used step).length ≤ ((all.filter (· ∉ used)).filter (· ∈ step)).length := by
        have hdistinct : (unused used step).Nodup := hnodup.filter _
        refine (hdistinct.subperm fun x hx => ?_).length_le
        obtain ⟨hmem, hnew⟩ := List.mem_filter.mp hx
        exact List.mem_filter.mpr ⟨List.mem_filter.mpr ⟨hsub hmem, hnew⟩, decide_eq_true hmem⟩
      have hrest : all.filter (· ∉ step ++ used) =
          (all.filter (· ∉ used)).filter fun x => ! decide (x ∈ step) := by
        rw [List.filter_filter]
        refine List.filter_congr fun x _ => ?_
        simp [not_or]
      have hsplit := (all.filter (· ∉ used)).length_eq_length_filter_add fun x => decide (x ∈ step)
      have hnext : demand (step ++ used) steps ≤ (all.filter (· ∉ step ++ used)).length := ih hsteps
      rw [hrest] at hnext
      rw [demand]
      omega

/-- Steps that are all among a few ones need no more than these, which bounds the demand of many
frames by that of the regions they lie in. -/
theorem demand_map_le {β : Type} {step : β → List α} {xs reps : List β} {n : Nat}
    (h : ∀ x ∈ xs, (step x).Nodup ∧ ∃ y ∈ reps, step x = step y) (hlen : ∀ y ∈ reps, (step y).length ≤ n) :
    demand used (xs.map step) ≤ n * reps.length := by
  have hall : demand used (xs.map step) ≤ (reps.flatMap step).length := by
    refine (demand_le_filter fun s hs => ?_).trans (List.length_filter_le ..)
    obtain ⟨x, hx, rfl⟩ := List.mem_map.mp hs
    obtain ⟨hnodup, y, hy, he⟩ := h x hx
    exact ⟨hnodup, fun π hπ => List.mem_flatMap.mpr ⟨y, hy, he ▸ hπ⟩⟩
  refine hall.trans ?_
  clear h hall
  induction reps with
  | nil => exact Nat.zero_le _
  | cons y reps ih =>
      obtain ⟨hfirst, hrest⟩ := List.forall_mem_cons.mp hlen
      have hnext := ih hrest
      rw [List.flatMap_cons, List.length_append, List.length_cons, Nat.mul_succ]
      omega

end Demand

/-! ### One call -/

section Call

variable {σ : Type} {window : Word} {alloc : σ → σ × Word} {logOf : σ → List Word}
  {top : BitVec 9 → Prop} {base : Word → Prop} {m : Mem} {s : σ}
  {T : List (BitVec 9) → Option Word} {π : List (BitVec 9)} {p pgtable va pa attr : Word}
  {i : BitVec 9}

/-- The state after `n` allocations. -/
abbrev allocated (alloc : σ → σ × Word) (n : Nat) (s : σ) : σ := (fun s => (alloc s).1)^[n] s

/-- Taking pages in two portions is taking them at once. -/
theorem allocated_add (k n : Nat) (s : σ) :
    allocated alloc (k + n) s = allocated alloc k (allocated alloc n s) :=
  Function.iterate_add_apply _ k n s

/-- The pages that an inner entry needs. -/
def pagesAt (A : List (BitVec 9) → Word) (π : List (BitVec 9)) : Nat := if A π = 0 then 1 else 0

/-- A level allocates a page exactly when its entry is empty. -/
theorem ensureTable_count (hp : T π = some p) :
    (ensureTable window alloc m s p (i.setWidth 64) attr).2 =
      allocated alloc (pagesAt (entries window m T) (i :: π)) s := by
  rw [pagesAt, entries_some hp]
  by_cases hz : view window m p i = 0
  · rw [if_pos hz, ensureTable_empty hz]
    rfl
  · rw [if_neg hz, ensureTable_used hz]
    rfl

/-- The pages that a whole call needs, the last level first. -/
theorem empty_innerPaths (A : List (BitVec 9) → Word) (va : Word) :
    ((innerPaths va).filter fun π => A π = 0).length =
      pagesAt A [indexOf PMD_OFFSET va, indexOf PUD_OFFSET va, indexOf PGD_OFFSET va] +
        (pagesAt A [indexOf PUD_OFFSET va, indexOf PGD_OFFSET va] + pagesAt A [indexOf PGD_OFFSET va]) := by
  rw [innerPaths]
  simp only [List.filter_cons, List.filter_nil, decide_eq_true_eq, pagesAt]
  split_ifs
  all_goals rfl

/-- A call allocates a page for each of its empty inner entries, if either the results of
the call or those of as many allocations are fresh. -/
theorem pgtableMap_count (hlog : ∀ s, logOf (alloc s).1 = (alloc s).2 :: logOf s)
    (hattr : attr &&& PAGE_MASK = 0) (hP : attr &&& PAGE_ATTR_P = PAGE_ATTR_P)
    (hT : Tables window top base (logOf s) m T) (hroot : T [] = some pgtable)
    (htop : top (indexOf PGD_OFFSET va)) {n : Nat}
    (hn : n = ((innerPaths va).filter fun π => entries window m T π = 0).length)
    (hfresh : Fresh base (logOf (pgtableMap window alloc m s pgtable va pa attr).2) ∨
      Fresh base (logOf (allocated alloc n s))) :
    (pgtableMap window alloc m s pgtable va pa attr).2 = allocated alloc n s := by
  obtain ⟨r₁, r₂, r₃, pud, pmd, pte, hw, heq⟩ :=
    pgtableMap_walked window alloc m s pgtable va pa attr
  rw [heq] at hfresh ⊢
  obtain ⟨-, hl₂, hl₃⟩ := hw.logs hlog
  generalize hA : entries window m T = A at hn
  obtain ⟨hfirst, htoPud, hsecond, htoPmd, hthird, -⟩ := hw
  rw [pgdEntry_eq] at hfirst htoPud
  rw [pudEntry_eq] at hsecond htoPmd
  rw [pmdEntry_eq] at hthird
  rw [empty_innerPaths] at hn
  -- What was allocated up to some level is fresh.
  have hupto : ∀ (k : Nat) (s' : σ), k ≤ n → s' = allocated alloc k s →
      logOf s' <:+ logOf r₃.2 → Fresh base (logOf s') := by
    intro k s' hk hs' hsuffix
    cases hfresh with
    | inl h => exact h.suffix hsuffix
    | inr h =>
        obtain ⟨j, rfl⟩ := Nat.exists_eq_add_of_le' hk
        rw [allocated_add] at h
        rw [hs']
        exact h.suffix (log_iterate hlog j _)
  have hu₁ : Under top [indexOf PGD_OFFSET va] := under_singleton htop
  have hcount₁ : r₁.2 = allocated alloc (pagesAt A [indexOf PGD_OFFSET va]) s := by
    rw [← hfirst, ← hA]
    exact ensureTable_count hroot
  obtain ⟨T₁, hT₁, -, hpud, hent₁⟩ := ensureTable_spec hlog hattr hP hT hroot (by decide) hu₁ hfirst
    (hupto _ _ (by omega) hcount₁ (hl₂.trans hl₃))
  rw [htoPud] at hpud
  have hu₂ := hu₁.cons (i := indexOf PUD_OFFSET va) (by simp)
  have hkeep₁ : ∀ π, π ≠ [indexOf PGD_OFFSET va] → entries window r₁.1 T₁ π = A π := by
    intro π hne
    rw [hent₁, Function.update_of_ne hne, hA]
  have hcount₂ : r₂.2 = allocated alloc (pagesAt A [indexOf PUD_OFFSET va, indexOf PGD_OFFSET va] +
      pagesAt A [indexOf PGD_OFFSET va]) s := by
    rw [← hsecond, ensureTable_count hpud, pagesAt, hkeep₁ _ (by simp), hcount₁]
    exact (allocated_add _ _ s).symm
  obtain ⟨T₂, hT₂, -, hpmd, hent₂⟩ := ensureTable_spec hlog hattr hP hT₁ hpud (by simp) hu₂ hsecond
    (hupto _ _ (by omega) hcount₂ hl₃)
  rw [htoPmd] at hpmd
  have hkeep₂ : ∀ π, π ≠ [indexOf PUD_OFFSET va, indexOf PGD_OFFSET va] →
      entries window r₂.1 T₂ π = entries window r₁.1 T₁ π := by
    intro π hne
    rw [hent₂, Function.update_of_ne hne]
  rw [← hthird, ensureTable_count hpmd, pagesAt, hkeep₂ _ (by simp), hkeep₁ _ (by simp), hcount₂, hn]
  exact (allocated_add _ _ s).symm

end Call

/-! ### What an allocator supplies -/

section Supply

variable {σ : Type} {alloc : σ → σ × Word} {logOf : σ → List Word} {supply : σ → List Word} {s s' : σ}

/-- An allocation takes the next page of the supply, or fails because nothing is left. -/
def Draws (alloc : σ → σ × Word) (supply : σ → List Word) (s : σ) : Prop :=
  (alloc s).2 ≠ 0 ∧ supply s = (alloc s).2 :: supply (alloc s).1 ∨
    (alloc s).2 = 0 ∧ supply s = [] ∧ supply (alloc s).1 = []

/-- The pages of a log, the first one first. -/
def pagesOf (log : List Word) : List Word := (log.filter (· ≠ 0)).reverse

/-- The pages of a log are its results other than NULL. -/
theorem mem_pagesOf {log : List Word} {p : Word} : p ∈ pagesOf log ↔ p ∈ log ∧ p ≠ 0 := by
  rw [pagesOf, List.mem_reverse, List.mem_filter, decide_eq_true_eq]

/-- Allocations that draw on a supply hand out its first pages. Nothing fails as long as
the supply lasts. -/
theorem allocated_supply (hlog : ∀ s, logOf (alloc s).1 = (alloc s).2 :: logOf s) (n : Nat)
    (h : ∀ k < n, Draws alloc supply (allocated alloc k s)) :
    supply (allocated alloc n s) = (supply s).drop n ∧
      pagesOf (logOf (allocated alloc n s)) = pagesOf (logOf s) ++ (supply s).take n ∧
      (0 ∉ logOf (allocated alloc n s) ↔ 0 ∉ logOf s ∧ n ≤ (supply s).length) := by
  induction n with
  | zero =>
      show supply s = _ ∧ pagesOf (logOf s) = _ ∧ (0 ∉ logOf s ↔ _)
      simp
  | succ n ih =>
      obtain ⟨hleft, htaken, hok⟩ := ih fun k hk => h k (by omega)
      have hdraw := h n (Nat.lt_succ_self n)
      have hsucc : allocated alloc (n + 1) s = (alloc (allocated alloc n s)).1 :=
        Function.iterate_succ_apply' _ n s
      rw [hsucc, hlog]
      generalize allocated alloc n s = s₁ at hdraw hleft htaken hok
      generalize hold : pagesOf (logOf s) = old at htaken ⊢
      unfold pagesOf at htaken ⊢
      cases hdraw with
      | inl hpage =>
          obtain ⟨hne, hnext⟩ := hpage
          rw [hleft] at hnext
          -- The supply was longer than what has been handed out.
          have hlt : n < (supply s).length := by
            by_contra hle
            rw [List.drop_eq_nil_of_le (by omega)] at hnext
            exact absurd hnext (by simp)
          have hget : (supply s)[n] = (alloc s₁).2 ∧ (supply s).drop (n + 1) = supply (alloc s₁).1 := by
            rw [List.drop_eq_getElem_cons hlt, List.cons.injEq] at hnext
            exact hnext
          refine ⟨hget.2.symm, ?_, ?_⟩
          · rw [List.filter_cons_of_pos (by simpa using hne), List.reverse_cons, htaken,
              List.take_succ_eq_append_getElem hlt, hget.1, List.append_assoc]
          · rw [List.mem_cons, not_or, hok]
            exact ⟨fun h => ⟨h.2.1, hlt⟩, fun h => ⟨hne.symm, h.1, by omega⟩⟩
      | inr hfail =>
          obtain ⟨hzero, hnone, hnone'⟩ := hfail
          rw [hleft, List.drop_eq_nil_iff] at hnone
          refine ⟨?_, ?_, ?_⟩
          · rw [hnone', List.drop_eq_nil_of_le (by omega)]
          · rw [List.filter_cons_of_neg (by simpa using hzero), htaken, List.take_of_length_le hnone,
              List.take_of_length_le (by omega)]
          · rw [hzero]
            exact iff_of_false (fun hm => hm List.mem_cons_self) (by omega)

/-- A run that needs `n` pages as long as nothing fails hands out the first `n` pages of
the supply, also when something does fail. -/
theorem run_supply (hlog : ∀ s, logOf (alloc s).1 = (alloc s).2 :: logOf s) (hstart : logOf s = [])
    {k n : Nat} (hrun : s' = allocated alloc k s)
    (h : ∀ j < max k n, Draws alloc supply (allocated alloc j s))
    (hcount : 0 ∉ logOf s' ∨ 0 ∉ logOf (allocated alloc n s) → s' = allocated alloc n s) :
    pagesOf (logOf s') = (supply s).take n ∧ (0 ∉ logOf s' ↔ n ≤ (supply s).length) := by
  obtain ⟨-, htaken, hok⟩ := allocated_supply hlog n fun j hj => h j (by omega)
  obtain ⟨-, htaken', hok'⟩ := allocated_supply hlog k fun j hj => h j (by omega)
  have hempty : pagesOf (logOf s) = [] ∧ 0 ∉ logOf s := by
    rw [hstart]
    exact ⟨rfl, List.not_mem_nil⟩
  rw [hempty.1, List.nil_append] at htaken htaken'
  rw [and_iff_right hempty.2] at hok hok'
  by_cases hfits : n ≤ (supply s).length
  · rw [hcount (Or.inr (hok.mpr hfits))]
    exact ⟨htaken, hok⟩
  · -- Then the run came to the end of the supply as well.
    have hfails : ¬ 0 ∉ logOf s' := by
      intro hnone
      rw [hcount (Or.inl hnone), hok] at hnone
      exact hfits hnone
    have hspent : ¬ k ≤ (supply s).length := by
      rw [← hok', ← hrun]
      exact hfails
    refine ⟨?_, iff_of_false hfails hfits⟩
    rw [hrun, htaken', List.take_of_length_le (by omega), List.take_of_length_le (by omega)]

end Supply

/-! ### Runs of calls -/

/-- The inner entries in use are those of the paths in the list. -/
def InUse (top : BitVec 9 → Prop) (used : List (List (BitVec 9))) (A : List (BitVec 9) → Word) :
    Prop :=
  ∀ va, top (indexOf PGD_OFFSET va) → ∀ π ∈ innerPaths va, A π ≠ 0 ↔ π ∈ used

section Run

variable {σ : Type} {window : Word} {alloc : σ → σ × Word} {logOf : σ → List Word}
  {top : BitVec 9 → Prop} {base : Word → Prop} {m : Mem} {s : σ}
  {T : List (BitVec 9) → Option Word} {pgtable va pa attr : Word}
  {used : List (List (BitVec 9))} {A A' : List (BitVec 9) → Word}

/-- A call takes the inner entries of its walk into use, and no others; entries that were in use
stay so. -/
theorem InUse.call (h : InUse top used A) (hP : attr &&& PAGE_ATTR_P = PAGE_ATTR_P)
    (he : Effect va pa attr A A') : InUse top (innerPaths va ++ used) A' := by
  intro va' htop π hπ
  have hne : π ≠ pathOf va := fun e => pathOf_not_inner (e ▸ hπ)
  rw [List.mem_append, ← h va' htop π hπ]
  by_cases hin : π ∈ innerPaths va
  · refine iff_of_true ?_ (Or.inl hin)
    by_cases hz : A π = 0
    · obtain ⟨q, -, hq⟩ := he.link π hin hz
      rw [hq]
      exact or_attr_ne_zero hP
    · rw [he.keep π hne fun hm => hz hm.2]
      exact hz
  · rw [he.keep π hne fun hm => hin hm.1]
    exact (or_iff_right hin).symm

/-- After a run on a zero root, the inner entries of its calls are in use. -/
theorem History.inUse {calls : List MapCall} (h : History calls A) (htagged : ∀ c ∈ calls, c.Tagged) :
    InUse top (calls.flatMap fun c => innerPaths c.va) A := by
  intro va _ π hπ
  obtain ⟨k, h0, h4, rfl⟩ := mem_innerPaths.mp hπ
  have hin := h.inner va k h0 h4
  -- A table is on the path of a call just if the call shares the upper part of the address.
  have hmem : upperPath va k ∈ (calls.flatMap fun c => innerPaths c.va) ↔
      ∃ c ∈ calls, SameFrom (48 - 9 * k) c.va va := by
    rw [List.mem_flatMap]
    refine exists_congr fun c => and_congr_right fun _ => ?_
    rw [sameFrom_iff c.va va k (by omega), mem_innerPaths]
    constructor
    · intro ⟨j, _, _, he⟩
      obtain rfl : k = j := by
        have hlen := congrArg List.length he
        rwa [upperPath_length, upperPath_length] at hlen
      exact he.symm
    · exact fun he => ⟨k, h0, h4, he.symm⟩
  rw [hmem]
  cases hf : firstCall (48 - 9 * k) va calls with
  | none =>
      rw [hf] at hin
      refine iff_of_false (fun hne => hne hin) fun ⟨c, hc, hsame⟩ => ?_
      exact List.find?_eq_none.mp hf c hc (decide_eq_true hsame)
  | some c =>
      rw [hf] at hin
      obtain ⟨q, -, hq⟩ := hin
      have hc : c ∈ calls := List.mem_of_find?_eq_some hf
      have hfound :=
        List.find?_some (show calls.find? (fun c => SameFrom (48 - 9 * k) c.va va) = some c from hf)
      have hsame : SameFrom (48 - 9 * k) c.va va := of_decide_eq_true hfound
      refine iff_of_true ?_ ⟨c, hc, hsame⟩
      rw [hq]
      exact or_attr_ne_zero (htagged c hc).present

/-- The paths that a call needs tables for are those of its inner entries that are not
in use yet. -/
theorem InUse.unused_eq (h : InUse top used A) (htop : top (indexOf PGD_OFFSET va)) :
    (innerPaths va).filter (fun π => A π = 0) = unused used (innerPaths va) := by
  refine List.filter_congr fun π hπ => ?_
  have hiff := h va htop π hπ
  rw [decide_eq_decide]
  tauto

/-- A list of mapping calls only adds to the log of pages. -/
theorem mapCalls_log (hlog : ∀ s, logOf (alloc s).1 = (alloc s).2 :: logOf s)
    (calls : List MapCall) :
    logOf s <:+ logOf (mapCalls (pgtableMap window alloc) m s pgtable calls).2 := by
  obtain ⟨n, -, hn⟩ := mapCalls_allocs window alloc pgtable calls m s
  rw [hn]
  exact log_iterate hlog n s

/-- A run of calls allocates a page for each inner path that comes up for the first time. -/
theorem mapCalls_count (hlog : ∀ s, logOf (alloc s).1 = (alloc s).2 :: logOf s)
    (calls : List MapCall) (hcalls : ∀ c ∈ calls, c.Tagged ∧ top (indexOf PGD_OFFSET c.va))
    (hT : Tables window top base (logOf s) m T) (hroot : T [] = some pgtable)
    (hused : InUse top used (entries window m T)) {n : Nat}
    (hn : n = demand used (calls.map fun c => innerPaths c.va))
    (hfresh : Fresh base (logOf (mapCalls (pgtableMap window alloc) m s pgtable calls).2) ∨
      Fresh base (logOf (allocated alloc n s))) :
    (mapCalls (pgtableMap window alloc) m s pgtable calls).2 = allocated alloc n s := by
  induction calls generalizing m s T used n with
  | nil =>
      subst hn
      rfl
  | cons c calls ih =>
      obtain ⟨⟨⟨hattr, hP⟩, htop⟩, hcalls⟩ := List.forall_mem_cons.mp hcalls
      rw [List.map_cons, demand, Nat.add_comm] at hn
      generalize hrest : demand (innerPaths c.va ++ used) (calls.map fun c => innerPaths c.va) = k
        at hn
      rw [mapCalls_cons] at hfresh ⊢
      rw [hn, allocated_add] at hfresh ⊢
      -- The first call allocates for the inner paths of its address that are not in use.
      have hcount : (pgtableMap window alloc m s pgtable c.va c.pa c.attr).2 =
          allocated alloc (unused used (innerPaths c.va)).length s :=
        pgtableMap_count hlog hattr hP hT hroot htop
        (congrArg List.length (hused.unused_eq htop).symm)
        (hfresh.imp (fun h => h.suffix (mapCalls_log hlog calls))
          fun h => h.suffix (log_iterate hlog k _))
      rw [← hcount] at hfresh ⊢
      have hfirst : Fresh base (logOf (pgtableMap window alloc m s pgtable c.va c.pa c.attr).2) :=
        hfresh.elim (fun h => h.suffix (mapCalls_log hlog calls))
          fun h => h.suffix (log_iterate hlog k _)
      obtain ⟨T', hT', hsub, heffect⟩ := pgtableMap_spec hlog hattr hP hT hroot htop rfl hfirst
      exact ih hcalls hT' (hsub _ _ hroot) (hused.call hP heffect) hrest.symm hfresh

end Run

end SumiOS
