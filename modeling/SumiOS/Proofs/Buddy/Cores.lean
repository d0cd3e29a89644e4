import Mathlib.Algebra.BigOperators.Group.Finset.Piecewise
import Mathlib.Algebra.Order.BigOperators.Group.Finset
import Mathlib.Algebra.Order.Monoid.Canonical.Defs
import Mathlib.Data.Fintype.Basic
import SumiOS.Lock
import SumiOS.Proofs.Buddy.Exact
import SumiOS.Proofs.Buddy.Exclusive

/-!
# `SumiOS.Proofs.Buddy.Cores`: several cores and one buddy system

Any number of cores run programs that call `alloc_pages` and `free_pages`, and that may
share memory of their own. A core frees only blocks that it holds. `freelist_lock` is the
lock of `Lib.Monitor`, and `body` says how the two functions are cut into atomic steps: any
way that computes them will do (`Computes`).

`cores_sequential` says that the cores are one client. Whatever the order of the steps, the
buddy system has gone through a run of `step`, and its outstanding blocks are those that the
cores hold. What is proved of the runs of one client so holds of several cores. Without
frees, `cores_apart` is the case: the blocks of all cores are apart.
-/

set_option autoImplicit false

namespace SumiOS

open Lib

/-- The steps of a body, taken together, are the call. -/
def Computes (mapped : Int → Bool) (body : PageCall → Body Buddy (Option Int)) : Prop :=
  ∀ call b, (body call).run b = call.locked mapped b

/-- What the program of a core does next. -/
inductive Request (S κ : Type)
  | own (f : κ → κ × S)
  | alloc (order : Nat) (next : Option Int → S)
  | free (c : Block) (next : S)
  | halt

/-- A core: the blocks that it holds, and the state of its program. -/
structure Core (S : Type) where
  held : List Block
  state : S

/-- The blocks after a call of `alloc_pages`. -/
def receive (held : List Block) (order : Nat) : Option Int → List Block
  | some p => ⟨p, order⟩ :: held
  | none => held

/-- The next step of a core. It stops when it would free a block that it does not hold. -/
def coreInstr {S κ : Type} (program : S → Request S κ) (k : Core S) :
    Instr (Core S) κ PageCall (Option Int) :=
  match program k.state with
  | .own f => .own fun x => ((f x).1, ⟨k.held, (f x).2⟩)
  | .alloc order next => .call (.alloc order) fun r => ⟨receive k.held order r, next r⟩
  | .free c next =>
      if c ∈ k.held then .call (.free (some c.start) c.order) fun _ => ⟨k.held.erase c, next⟩
      else .halt
  | .halt => .halt

section

variable {ι S κ : Type} [DecidableEq ι]

/-- The cores after a schedule. At its start they hold nothing, and the lock is free. -/
def runCores (body : PageCall → Body Buddy (Option Int)) (program : S → Request S κ) (b : Buddy)
    (client : κ) (state : ι → S) (schedule : List ι) :
    Locked ι (Core S) κ Buddy PageCall (Option Int) Spinlock :=
  schedule.foldl (Locked.tick freelistLock (coreInstr program) body)
    (Locked.start freelistLock client b fun i => ⟨[], state i⟩)

/-- The core is in a call of the allocator, between the lock and the unlock. -/
def Inside (c : Locked ι (Core S) κ Buddy PageCall (Option Int) Spinlock) (i : ι) : Prop :=
  (c.phase i).pending ≠ none

variable [Fintype ι]

/-- The outstanding blocks are those that the cores hold. -/
def HeldBy (place : ι → Core S) (out : List Block) : Prop :=
  ∀ c, out.count c = ∑ i, (place i).held.count c

variable {mapped : Int → Bool} {place : ι → Core S} {out out' : List Block} {k : Core S} {i : ι}
  {program : S → Request S κ} {a : Atomic ι (Core S) κ Buddy} {s : Sys}

/-- The blocks that are freed are those that the programs free. -/
def Asked (program : S → Request S κ) (calls : List Call) : Prop :=
  ∀ p k, .free p k ∈ calls → ∃ state next, program state = .free ⟨p, k⟩ next

/-- What one core gets or gives, the cores together get or give: the blocks that all of them hold
are counted, and one count changes. -/
theorem HeldBy.update (h : HeldBy place out)
    (hcount : ∀ c, out'.count c + (place i).held.count c = out.count c + k.held.count c) :
    HeldBy (Function.update place i k) out' := by
  intro c
  have hsum := Finset.add_sum_erase Finset.univ (fun j => (place j).held.count c)
    (Finset.mem_univ i)
  have hnew := Finset.sum_update_of_mem (Finset.mem_univ i)
    (fun j => (place j).held.count c) (k.held.count c)
  have hfun : (fun j => (Function.update place i k j).held.count c)
      = Function.update (fun j => (place j).held.count c) i (k.held.count c) := by
    funext j
    by_cases hj : j = i
    · cases hj
      simp
    · simp [hj]
  rw [hfun, hnew, Finset.sdiff_singleton_eq_erase]
  have hold := h c
  have hc := hcount c
  omega

omit [DecidableEq ι] in
/-- A core holds no block more often than it is outstanding. -/
theorem HeldBy.count_le (h : HeldBy place out) (i : ι) (c : Block) :
    (place i).held.count c ≤ out.count c := by
  rw [h c]
  exact Finset.single_le_sum (f := fun j => (place j).held.count c) (fun j _ => Nat.zero_le _)
    (Finset.mem_univ i)

omit [DecidableEq ι] in
/-- A block that a core holds is outstanding. -/
theorem HeldBy.mem (h : HeldBy place out) {c : Block} (hc : c ∈ (place i).held) : c ∈ out :=
  List.count_pos_iff.mp (Nat.lt_of_lt_of_le (List.count_pos_iff.mpr hc) (h.count_le i c))

omit [DecidableEq ι] in
/-- What is outstanding once, no core holds twice, because the counts of all cores together are
one. -/
theorem HeldBy.nodup (h : HeldBy place out) (hout : out.Nodup) (i : ι) : (place i).held.Nodup := by
  rw [List.nodup_iff_count_le_one] at hout ⊢
  exact fun c => (h.count_le i c).trans (hout c)

/-- What is outstanding once, no two cores hold, because each holder would count. -/
theorem HeldBy.unique (h : HeldBy place out) (hout : out.Nodup) {j : ι} {c : Block}
    (hi : c ∈ (place i).held) (hj : c ∈ (place j).held) : i = j := by
  by_contra hij
  have hone := List.nodup_iff_count_le_one.mp hout c
  have hposi := List.count_pos_iff.mpr hi
  have hposj := List.count_pos_iff.mpr hj
  have hle : (place j).held.count c ≤ ∑ k ∈ Finset.univ.erase i, (place k).held.count c :=
    Finset.single_le_sum (f := fun k => (place k).held.count c) (fun k _ => Nat.zero_le _)
      (Finset.mem_erase.mpr ⟨fun e => hij e.symm, Finset.mem_univ j⟩)
  have hsum := Finset.add_sum_erase Finset.univ (fun k => (place k).held.count c)
    (Finset.mem_univ i)
  have hc := h c
  omega

/-- A step of a core is a call of the one client, or none. -/
theorem HeldBy.tick (h : HeldBy a.place s.outstanding) (hdata : a.data = s.buddy) (i : ι) :
    ∃ calls s', run (step mapped) s calls = some s' ∧ Asked program calls ∧
      HeldBy (a.tick (coreInstr program) (PageCall.locked mapped) i).place s'.outstanding ∧
      (a.tick (coreInstr program) (PageCall.locked mapped) i).data = s'.buddy := by
  -- Where the allocator is not called, nothing changes.
  have hstay : ∀ k : Core S, k.held = (a.place i).held →
      HeldBy (Function.update a.place i k) s.outstanding := by
    intro k hk
    exact h.update fun c => by rw [hk]
  cases hreq : program (a.place i).state with
  | own f =>
      refine ⟨[], s, rfl, by simp [Asked], ?_⟩
      simp only [Atomic.tick, coreInstr, hreq]
      exact ⟨hstay _ rfl, hdata⟩
  | halt =>
      refine ⟨[], s, rfl, by simp [Asked], ?_⟩
      simp only [Atomic.tick, coreInstr, hreq]
      exact ⟨h, hdata⟩
  | alloc order next =>
      have hcall : (PageCall.alloc order).locked mapped a.data = allocPages s.buddy order := by
        rw [hdata]
        rfl
      simp only [Atomic.tick, coreInstr, hreq, hcall]
      cases halloc : allocPages s.buddy order with
      | mk b r =>
          cases r with
          | none =>
              refine ⟨[.alloc order], ⟨b, s.outstanding⟩, ?_, by simp [Asked], hstay _ rfl, rfl⟩
              simp [run, step, halloc]
          | some p =>
              refine ⟨[.alloc order], ⟨b, ⟨p, order⟩ :: s.outstanding⟩, ?_, by simp [Asked],
                h.update ?_, rfl⟩
              · simp [run, step, halloc]
              · intro c
                simp only [receive, List.count_cons]
                omega
  | free c next =>
      by_cases hc : c ∈ (a.place i).held
      · have hcall : (PageCall.free (some c.start) c.order).locked mapped a.data
            = (freePages mapped s.buddy (some c.start) c.order, none) := by
          rw [hdata]
          rfl
        have hmem := h.mem hc
        refine ⟨[.free c.start c.order],
          ⟨freePages mapped s.buddy (some c.start) c.order, s.outstanding.erase c⟩, ?_, ?_, ?_⟩
        · simp [run, step, hmem]
        · intro p k hp
          cases List.mem_singleton.mp hp
          exact ⟨_, next, hreq⟩
        · simp only [Atomic.tick, coreInstr, hreq, if_pos hc, hcall]
          refine ⟨h.update ?_, trivial⟩
          intro d
          have hpos := List.count_pos_iff.mpr hc
          have hpos' := List.count_pos_iff.mpr hmem
          simp only [List.count_erase]
          by_cases hd : c = d
          · cases hd
            simp
            omega
          · have hne : (c == d) = false := by simpa using hd
            simp [hne]
      · refine ⟨[], s, rfl, by simp [Asked], ?_⟩
        simp only [Atomic.tick, coreInstr, hreq, if_neg hc]
        exact ⟨h, hdata⟩

/-- A run of the cores is a run of the one client who holds what all of them hold. The induction is
on the schedule, and each step of a core is one call or none. -/
theorem HeldBy.run (h : HeldBy a.place s.outstanding) (hdata : a.data = s.buddy)
    (schedule : List ι) : ∃ calls s', Lib.run (step mapped) s calls = some s' ∧
      Asked program calls ∧
      HeldBy (schedule.foldl (Atomic.tick (coreInstr program) (PageCall.locked mapped)) a).place
        s'.outstanding ∧
      (schedule.foldl (Atomic.tick (coreInstr program) (PageCall.locked mapped)) a).data
        = s'.buddy := by
  induction schedule generalizing a s with
  | nil => exact ⟨[], s, rfl, by simp [Asked], h, hdata⟩
  | cons i schedule ih =>
      obtain ⟨first, s₁, hfirst, hasked, hheld, hdata₁⟩ := h.tick hdata i
      obtain ⟨rest, s', hrest, hasked', hend⟩ := ih hheld hdata₁
      refine ⟨first ++ rest, s', ?_, ?_, hend⟩
      · rw [run_append, hfirst]
        exact hrest
      · intro p k hp
        cases List.mem_append.mp hp with
        | inl hp => exact hasked p k hp
        | inr hp => exact hasked' p k hp

omit [Fintype ι] in
/-- The rule for the lock, for the two operations of the page allocator: after any schedule the
cores are where a schedule of whole calls brings them. -/
theorem runCores_refines {body : PageCall → Body Buddy (Option Int)}
    (hbody : Computes mapped body) (program : S → Request S κ) (b : Buddy) (client : κ)
    (state : ι → S) (schedule : List ι) :
    ∃ (holder : Option ι) (schedule' : List ι), Refines freelistLock (coreInstr program) body holder
      (runCores body program b client state schedule)
      (schedule'.foldl (Atomic.tick (coreInstr program) (PageCall.locked mapped))
        ⟨client, b, fun i => ⟨[], state i⟩⟩) := by
  have hstart : Refines freelistLock (coreInstr program) body none
      (Locked.start freelistLock client b fun i : ι => ⟨[], state i⟩)
      ⟨client, b, fun i : ι => ⟨[], state i⟩⟩ :=
    Refines.start client b _
  obtain ⟨holder, schedule', -, hrefines⟩ := hstart.run hbody schedule
  exact ⟨holder, schedule', hrefines⟩

/-- The cores and the one client, after any schedule: the calls that were completed are a run of
the client, and it holds what they hold. -/
theorem runCores_heldBy {body : PageCall → Body Buddy (Option Int)}
    (hbody : Computes mapped body) (program : S → Request S κ) (b : Buddy) (client : κ)
    (state : ι → S) (schedule : List ι) :
    ∃ calls s, Lib.run (step mapped) ⟨b, []⟩ calls = some s ∧ Asked program calls ∧
      HeldBy (runCores body program b client state schedule).place s.outstanding ∧
      ((runCores body program b client state schedule).lock = spinLockInit →
        (runCores body program b client state schedule).data = s.buddy) := by
  obtain ⟨holder, schedule', hrefines⟩ :=
    runCores_refines hbody program b client state schedule
  have hnothing : HeldBy (fun i : ι => (⟨[], state i⟩ : Core S)) [] := by simp [HeldBy]
  obtain ⟨calls, s, hrun, hasked, hheld, hdata⟩ := HeldBy.run
    (a := ⟨client, b, fun i : ι => ⟨[], state i⟩⟩) (s := ⟨b, []⟩) hnothing rfl schedule'
  refine ⟨calls, s, hrun, hasked, hrefines.place ▸ hheld, ?_⟩
  intro hlock
  cases holder with
  | none => exact (hrefines.free rfl).2.trans hdata
  | some i =>
      have hused := (hrefines.used i rfl).1
      exact absurd (hused.symm.trans hlock) (by decide)

/-! ### Cores that free nothing -/

/-- What a run of `alloc_pages` keeps: the blocks are apart, and lie in the frames that were
free at its start. -/
def AllocInv (pages : Nat → List Int) (s : Sys) : Prop :=
  ∃ seq, BlockInv buddyHeads s.buddy.links seq s.outstanding ∧
    ∀ c, Listed seq c ∨ c ∈ s.outstanding → c.frames ⊆ framesOf pages

omit [DecidableEq ι] [Fintype ι] in
/-- A call of `alloc_pages` keeps the invariant: the block that is handed out and the parts that
are left of it lie in a block that was free, and so in the frames from the start. -/
theorem AllocInv.alloc {pages : Nat → List Int} {s s' : Sys} {order : Nat} (h : AllocInv pages s)
    (hs : step mapped s (.alloc order) = some s') : AllocInv pages s' := by
  obtain ⟨seq, hI, hin⟩ := h
  rcases hI.alloc hasFreelists_buddyHeads order with
    ⟨heq, -⟩ | ⟨j, p, ps, links, hkj, hj, hps, -, heq, hI'⟩
  · rw [step, heq, Option.some.injEq] at hs
    exact hs ▸ ⟨seq, hI, hin⟩
  · rw [step, heq, Option.some.injEq] at hs
    subst hs
    refine ⟨_, hI', ?_⟩
    have hblock : (Block.mk p j).frames ⊆ framesOf pages :=
      hin _ (.inl ⟨hj, by simp [hps]⟩)
    -- The parts of the block that was split lie in it.
    have hfirst : (Block.mk p order).frames ⊆ (Block.mk p j).frames := fun x hx =>
      (Block.mem_frames_split hkj).mpr (.inl hx)
    have hhalf : ∀ i, order ≤ i → i < j → (Block.mk (p + 2 ^ i) i).frames ⊆ (Block.mk p j).frames :=
      fun i h1 h2 x hx => (Block.mem_frames_split hkj).mpr (.inr ⟨i, h1, h2, hx⟩)
    rintro c (hc | hc)
    · rcases (listed_splitSeq hasFreelists_buddyHeads hI.rep hj hps).mp hc with
        ⟨hc, -⟩ | ⟨i, h1, h2, rfl⟩
      · exact hin c (.inl hc)
      · exact (hhalf i h1 h2).trans hblock
    · cases List.mem_cons.mp hc with
      | inl he => exact he ▸ hfirst.trans hblock
      | inr hc => exact hin c (.inr hc)

omit [DecidableEq ι] [Fintype ι] in
/-- By induction, so does every run in which blocks are only handed out: none of its calls is one
that the rule for a free would be needed for. -/
theorem AllocInv.run {pages : Nat → List Int} {s s' : Sys} {calls : List Call}
    (h : AllocInv pages s) (hcalls : ∀ p k, .free p k ∉ calls)
    (hs : Lib.run (step mapped) s calls = some s') : AllocInv pages s' := by
  induction calls generalizing s with
  | nil =>
      cases hs
      exact h
  | cons call calls ih =>
      obtain ⟨t, ht, hrest⟩ := run_cons.mp hs
      cases call with
      | free p k => exact absurd List.mem_cons_self (hcalls p k)
      | alloc order =>
          exact ih (h.alloc ht) (fun p k hp => hcalls p k (List.mem_cons_of_mem _ hp)) hrest

end

/-- The call as one step. -/
def wholeBody (mapped : Int → Bool) (call : PageCall) : Body Buddy (Option Int) :=
  .step (fun b => (call.locked mapped b).1) fun b => .ret (call.locked mapped b).2

/-- The body between the two operations on the lock computes the call that it is meant to be. -/
theorem computes_wholeBody (mapped : Int → Bool) : Computes mapped (wholeBody mapped) :=
  fun _ _ => rfl

/-- A program that allocates one frame. -/
def allocOnce : Bool → Request Bool Unit
  | true => .alloc 0 fun _ => false
  | false => .halt

/-- A program that allocates one frame, and frees what it got. -/
def allocAndFree : Option (Option Block) → Request (Option (Option Block)) Unit
  | none => .alloc 0 fun p => some (p.map fun p => ⟨p, 0⟩)
  | some (some c) => .free c (some none)
  | some none => .halt

/-- The cores are one client. At any time, one core at most is between the lock and the
unlock; and the buddy system, when the lock is free, and the blocks that the cores hold are
those after some run of calls, of which each is done at once. -/
theorem cores_sequential {ι S κ : Type} [DecidableEq ι] [Fintype ι] (mapped : Int → Bool)
    (body : PageCall → Body Buddy (Option Int)) (hbody : Computes mapped body)
    (program : S → Request S κ) (b : Buddy) (client : κ) (state : ι → S) (schedule : List ι) :
    let c := runCores body program b client state schedule
    (∀ i j, Inside c i → Inside c j → i = j) ∧
    ∃ calls s, run (step mapped) ⟨b, []⟩ calls = some s ∧ HeldBy c.place s.outstanding ∧
      (c.lock = spinLockInit → c.data = s.buddy) := by
  intro c
  obtain ⟨holder, schedule', hrefines⟩ :=
    runCores_refines hbody program b client state schedule
  obtain ⟨calls, s, hrun, -, hend⟩ := runCores_heldBy hbody program b client state schedule
  exact ⟨fun i j => hrefines.exclusive, calls, s, hrun, hend⟩

/-- Two cores that get in each other's way. After 14 steps each of them has a frame, and in
the end both frames are back. -/
theorem cores_sequential_two :
    let c := runCores (wholeBody fun _ => true) allocAndFree (putFree cleared 8 2) ()
      (fun _ : Fin 2 => none)
    let whole := [0, 1, 0, 1, 0, 1, 0, 0, 1, 0, 1, 0, 1, 1, 0, 0, 0, 0, 1, 1, 1, 1, 1]
    ((c (whole.take 14)).place 0).held = [⟨8, 0⟩] ∧ ((c (whole.take 14)).place 1).held = [⟨9, 0⟩] ∧
    (∀ i, ((c whole).place i).held = []) ∧
    (∀ i j, Inside (c whole) i → Inside (c whole) j → i = j) ∧
    ∃ calls s, run (step fun _ => true) ⟨putFree cleared 8 2, []⟩ calls = some s ∧
      HeldBy (c whole).place s.outstanding ∧
      ((c whole).lock = spinLockInit → (c whole).data = s.buddy) :=
  ⟨by decide, by decide, by decide,
    cores_sequential _ _ (computes_wholeBody _) allocAndFree _ () _ _⟩

/-- On cores that only allocate, from a sound state, the blocks of all cores are apart, and
lie in the frames that were free at the start. -/
theorem cores_apart {ι S κ : Type} [DecidableEq ι] [Fintype ι] (mapped : Int → Bool)
    (body : PageCall → Body Buddy (Option Int)) (hbody : Computes mapped body)
    (program : S → Request S κ) (hprogram : ∀ state c next, program state ≠ .free c next)
    (b : Buddy) (pages : Nat → List Int) (hS : Sound b pages) (client : κ) (state : ι → S)
    (schedule : List ι) :
    let held := fun i => ((runCores body program b client state schedule).place i).held
    (∀ i, (held i).Pairwise Block.Apart) ∧
    (∀ i j, i ≠ j → ∀ x ∈ held i, ∀ y ∈ held j, x.Apart y) ∧
    ∀ i, ∀ x ∈ held i, x.frames ⊆ framesOf pages := by
  intro held
  obtain ⟨calls, s, hrun, hasked, hheld, -⟩ :=
    runCores_heldBy hbody program b client state schedule
  have hcalls : ∀ p k, .free p k ∉ calls := by
    intro p k hp
    obtain ⟨st, next, hst⟩ := hasked p k hp
    exact hprogram st _ next hst
  have hstart : AllocInv pages ⟨b, []⟩ := by
    refine ⟨seqOf pages, hS.blocks, ?_⟩
    rintro c (hc | hc)
    · exact fun x hx => ⟨c, hc, hx⟩
    · cases hc
  obtain ⟨seq, hI, hin⟩ := hstart.run hcalls hrun
  have hapart := hI.tidy.outApart
  have hnodup : s.outstanding.Nodup := hapart.imp fun {x y} h e => by
    rw [e] at h
    exact Block.not_apart_of_start_mem y.start_mem h
  have hmem : ∀ i, ∀ x ∈ held i, x ∈ s.outstanding := fun i x hx => hheld.mem hx
  -- Two blocks of the cores that are not one are apart, and no block is held twice.
  have hdistinct : ∀ x ∈ s.outstanding, ∀ y ∈ s.outstanding, x ≠ y → x.Apart y :=
    fun x hx y hy => hapart.forall hx hy
  refine ⟨fun i => ?_, fun i j hij x hx y hy => ?_, fun i x hx => hin x (.inr (hmem i x hx))⟩
  · refine (hheld.nodup hnodup i).pairwise_of_forall_ne fun x hx y hy => ?_
    exact hdistinct x (hmem i x hx) y (hmem i y hy)
  · refine hdistinct x (hmem i x hx) y (hmem j y hy) ?_
    intro e
    exact hij (hheld.unique hnodup hx (e ▸ hy))

/-- Two cores that each ask for one page, in a schedule in which both calls complete: what they
hold is apart. -/
theorem cores_apart_two :
    let held := fun i => ((runCores (wholeBody fun _ => true) allocOnce (putFree cleared 8 2) ()
      (fun _ : Fin 2 => true) [0, 1, 0, 1, 0, 0, 0, 1, 1, 1, 1]).place i).held
    (∀ i, (held i).Pairwise Block.Apart) ∧
    (∀ i j, i ≠ j → ∀ x ∈ held i, ∀ y ∈ held j, x.Apart y) ∧
    ∀ i, ∀ x ∈ held i, x.frames ⊆ framesOf fun i => if i = 2 then [8] else [] :=
  cores_apart _ _ (computes_wholeBody _) allocOnce
    (by
      intro state c next
      cases state <;> simp [allocOnce])
    _ _ sound_four () _ _

/-- A call of a core can be brought to its end, wherever the cores are. -/
theorem cores_return {ι S κ : Type} [DecidableEq ι] (mapped : Int → Bool)
    (body : PageCall → Body Buddy (Option Int)) (hbody : Computes mapped body)
    (program : S → Request S κ) (b : Buddy) (client : κ) (state : ι → S) (schedule : List ι)
    (i : ι) :
    ∃ more : List ι, (runCores body program b client state (schedule ++ more)).phase i = .out := by
  obtain ⟨holder, schedule', hrefines⟩ :=
    runCores_refines hbody program b client state schedule
  obtain ⟨more, hout⟩ := hrefines.returns i
  refine ⟨more, ?_⟩
  rw [runCores, List.foldl_append]
  exact hout

/-- From a state in which one core waits for the other, some continuation of the schedule ends its
call. -/
theorem cores_return_two :
    ∃ more : List (Fin 2), (runCores (wholeBody fun _ => true) allocOnce (putFree cleared 8 2) ()
      (fun _ : Fin 2 => true) ([0, 1, 0, 1] ++ more)).phase 1 = .out :=
  cores_return _ _ (computes_wholeBody _) allocOnce _ () _ _ 1

end SumiOS
