import Mathlib.Logic.Function.Basic
import Mathlib.Tactic.Common

/-!
# `SumiOS.Lib.Monitor`: data behind a lock

Threads share the state of their clients and some data. At each place of its program a
thread does a step of its own, calls an operation on the data, or stops (`Instr`).

There are two systems for the same programs. In `Atomic` an operation is one step. In
`Locked` a thread that calls an operation tries to take the lock until it gets it, carries
out a body on the data step by step, tries to give the lock back until it has, and returns.
All threads can take steps in between. A schedule says which thread is next.

`Locked.refines` is the rule for the lock: what the clients see after any schedule of the
locked system, they see after a part of it in the atomic system. `Locked.returns` says that
a call can always be brought to its end, and `Locked.exclusive` that one thread at most is
between the lock and the unlock.
-/

set_option autoImplicit false

namespace Lib

/-- What a thread does at a place of its program. -/
inductive Instr (L κ Op β : Type)
  | own (f : κ → κ × L)
  | call (op : Op) (resume : β → L)
  | halt

/-- Atomic steps on the data, and then a result. -/
inductive Body (σ β : Type)
  | ret (b : β)
  | step (write : σ → σ) (next : σ → Body σ β)

/-- The body without interruption. -/
def Body.run {σ β : Type} : Body σ β → σ → σ × β
  | .ret b, s => (s, b)
  | .step write next, s => (next s).run (write s)

/-- A lock word. To take the lock and to give it back are atomic; the answer says whether it
was done. -/
structure LockWord (W : Type) where
  free : W
  used : W
  acquire : W → W × Bool
  release : W → W × Bool
  acquire_free : acquire free = (used, true)
  acquire_used : acquire used = (used, false)
  release_used : release used = (free, true)

/-- Where a thread is in a call. -/
inductive Phase (L σ Op β : Type)
  | out
  | locking (op : Op) (resume : β → L)
  | inside (rest : Body σ β) (resume : β → L)
  | unlocking (b : β) (resume : β → L)

/-- What a thread that has the lock still has to do. -/
def Phase.pending {L σ Op β : Type} : Phase L σ Op β → Option (Body σ β × (β → L))
  | .inside rest resume => some (rest, resume)
  | .unlocking b resume => some (.ret b, resume)
  | _ => none

/-- The system in which an operation is one step. -/
structure Atomic (ι L κ σ : Type) where
  client : κ
  data : σ
  place : ι → L

/-- The system in which operations are bodies behind the lock. -/
structure Locked (ι L κ σ Op β W : Type) where
  client : κ
  data : σ
  lock : W
  place : ι → L
  phase : ι → Phase L σ Op β

section

variable {ι L κ σ Op β W : Type} [DecidableEq ι]

/-- A step of the thread `i`. -/
def Atomic.tick (code : L → Instr L κ Op β) (sem : Op → σ → σ × β) (a : Atomic ι L κ σ) (i : ι) :
    Atomic ι L κ σ :=
  match code (a.place i) with
  | .own f =>
      { a with client := (f a.client).1, place := Function.update a.place i (f a.client).2 }
  | .call op resume =>
      { a with
        data := (sem op a.data).1
        place := Function.update a.place i (resume (sem op a.data).2) }
  | .halt => a

/-- A step of the thread `i`. -/
def Locked.tick (w : LockWord W) (code : L → Instr L κ Op β) (body : Op → Body σ β)
    (c : Locked ι L κ σ Op β W) (i : ι) : Locked ι L κ σ Op β W :=
  match c.phase i with
  | .out =>
      match code (c.place i) with
      | .own f =>
          { c with client := (f c.client).1, place := Function.update c.place i (f c.client).2 }
      | .call op resume => { c with phase := Function.update c.phase i (.locking op resume) }
      | .halt => c
  | .locking op resume =>
      match w.acquire c.lock with
      | (word, true) =>
          { c with lock := word, phase := Function.update c.phase i (.inside (body op) resume) }
      | (word, false) => { c with lock := word }
  | .inside (.step write next) resume =>
      { c with
        data := write c.data
        phase := Function.update c.phase i (.inside (next c.data) resume) }
  | .inside (.ret b) resume => { c with phase := Function.update c.phase i (.unlocking b resume) }
  | .unlocking b resume =>
      match w.release c.lock with
      | (word, true) =>
          { c with
            lock := word
            place := Function.update c.place i (resume b)
            phase := Function.update c.phase i .out }
      | (word, false) => { c with lock := word }

/-- Nobody is in a call, and the lock is free. -/
def Locked.start (w : LockWord W) (client : κ) (data : σ) (place : ι → L) :
    Locked ι L κ σ Op β W where
  client := client
  data := data
  lock := w.free
  place := place
  phase := fun _ => .out

/-- How the two systems correspond. A thread in a call is, in the atomic system, still in
front of it. `holder` is the thread that has the lock. -/
structure Refines (w : LockWord W) (code : L → Instr L κ Op β) (body : Op → Body σ β)
    (holder : Option ι) (c : Locked ι L κ σ Op β W) (a : Atomic ι L κ σ) : Prop where
  client : c.client = a.client
  place : c.place = a.place
  locking : ∀ i op resume, c.phase i = .locking op resume →
    code (c.place i) = .call op resume
  outside : ∀ i, holder ≠ some i → (c.phase i).pending = none
  free : holder = none → c.lock = w.free ∧ c.data = a.data
  used : ∀ i, holder = some i → c.lock = w.used ∧ ∃ op rest resume,
    code (c.place i) = .call op resume ∧ (c.phase i).pending = some (rest, resume) ∧
      rest.run c.data = (body op).run a.data

variable {w : LockWord W} {code : L → Instr L κ Op β} {body : Op → Body σ β}
  {sem : Op → σ → σ × β} {c : Locked ι L κ σ Op β W} {a : Atomic ι L κ σ}
  {holder : Option ι}

omit [DecidableEq ι] in
/-- The start of both systems corresponds: no thread is in a call, the lock is free, and the data
are the same. -/
theorem Refines.start (client : κ) (data : σ) (place : ι → L) :
    Refines w code body none (Locked.start w client data place) ⟨client, data, place⟩ where
  client := rfl
  place := rfl
  locking := by
    intro i op resume h
    cases h
  outside _ _ := rfl
  free _ := ⟨rfl, rfl⟩
  used := by
    intro i h
    cases h

omit [DecidableEq ι] in
/-- A thread that does not have the lock is not inside. -/
theorem Refines.ne_holder (h : Refines w code body holder c a) {i : ι}
    (hi : (c.phase i).pending = none) : holder ≠ some i := by
  intro hh
  obtain ⟨-, op, rest, resume, -, hpending, -⟩ := h.used i hh
  rw [hi] at hpending
  cases hpending

omit [DecidableEq ι] in
/-- A thread that is inside has the lock, so that it is the holder of the relation. -/
theorem Refines.holder_eq (h : Refines w code body holder c a) {i : ι} {r : Body σ β × (β → L)}
    (hi : (c.phase i).pending = some r) : holder = some i := by
  by_contra hne
  rw [h.outside i hne] at hi
  cases hi

/-- The step of a thread that is in no call. It begins one, which is no step of the atomic system,
or does something of its own, which both systems do at once, or has stopped. -/
theorem Refines.tick_out (h : Refines w code body holder c a) {i : ι} (hi : c.phase i = .out) :
    Refines w code body holder (c.tick w code body i) a ∨
      Refines w code body holder (c.tick w code body i) (a.tick code sem i) := by
  have hne := h.ne_holder (i := i) (by rw [hi]; rfl)
  cases hcode : code (c.place i) with
  | own f =>
      -- A step outside of the calls: both systems make it.
      right
      have hc : c.tick w code body i =
          ⟨(f c.client).1, c.data, c.lock, Function.update c.place i (f c.client).2, c.phase⟩ := by
        simp [Locked.tick, hi, hcode]
      have ha : a.tick code sem i =
          ⟨(f a.client).1, a.data, Function.update a.place i (f a.client).2⟩ := by
        simp [Atomic.tick, ← h.place, hcode]
      rw [hc, ha]
      refine ⟨by rw [h.client], by rw [h.client, h.place], ?_, h.outside, h.free, ?_⟩
      · intro j op resume hj
        have hji : j ≠ i := by
          intro e
          rw [e, hi] at hj
          cases hj
        simpa [hji] using h.locking j op resume hj
      · intro j hj
        have hji : j ≠ i := by
          intro e
          exact hne (e ▸ hj)
        simpa [hji] using h.used j hj
  | call op resume =>
      -- Only the place of this thread in its call changes, so the sequential system waits.
      left
      have hc : c.tick w code body i =
          { c with phase := Function.update c.phase i (.locking op resume) } := by
        simp [Locked.tick, hi, hcode]
      rw [hc]
      refine ⟨h.client, h.place, ?_, ?_, h.free, ?_⟩
      · intro j op' resume' hj
        by_cases hji : j = i
        · cases hji
          simp at hj
          rw [← hj.1, ← hj.2]
          exact hcode
        · exact h.locking j op' resume' (by simpa [hji] using hj)
      · intro j hj
        by_cases hji : j = i
        · simp [hji, Phase.pending]
        · simpa [hji] using h.outside j hj
      · intro j hj
        have hji : j ≠ i := by
          intro e
          exact hne (e ▸ hj)
        simpa [hji] using h.used j hj
  | halt =>
      left
      have hc : c.tick w code body i = c := by simp [Locked.tick, hi, hcode]
      rw [hc]
      exact h

/-- The step of a thread that waits for the lock. Whether it gets the lock or keeps waiting, the
atomic system does nothing; only who holds the lock may change. -/
theorem Refines.tick_locking (h : Refines w code body holder c a) {i : ι} {op : Op}
    {resume : β → L} (hi : c.phase i = .locking op resume) :
    ∃ holder', Refines w code body holder' (c.tick w code body i) a := by
  have hne := h.ne_holder (i := i) (by rw [hi]; rfl)
  have hcode := h.locking i op resume hi
  cases hh : holder with
  | none =>
      -- The lock is free: the thread gets it, and its body starts at the data as they are.
      have hfree := h.free hh
      have hc : c.tick w code body i = ⟨c.client, c.data, w.used, c.place,
          Function.update c.phase i (.inside (body op) resume)⟩ := by
        simp [Locked.tick, hi, hfree.1, w.acquire_free]
      rw [hc]
      refine ⟨some i, h.client, h.place, ?_, ?_, by simp, ?_⟩
      · intro j op' resume' hj
        by_cases hji : j = i
        · simp [hji] at hj
        · exact h.locking j op' resume' (by simpa [hji] using hj)
      · intro j hj
        have hji : j ≠ i := fun e => hj (by rw [e])
        simpa [hji] using h.outside j (by simp [hh])
      · intro j hj
        cases hj
        exact ⟨rfl, op, body op, resume, hcode, by simp [Phase.pending], by rw [hfree.2]⟩
  | some j =>
      -- The lock is in use: the thread tries again, and nothing changes.
      have hused := (h.used j hh).1
      have hc : c.tick w code body i = c := by
        simp only [Locked.tick, hi, hused, w.acquire_used]
        rw [← hused]
      rw [hc]
      exact ⟨some j, hh ▸ h⟩

/-- A step inside a call, which no other thread can see because the lock is held. So the
atomic system does nothing yet: what is left of the body still leads to what the whole
operation leads to. -/
theorem Refines.tick_inside (h : Refines w code body holder c a) {i : ι} {rest : Body σ β}
    {resume : β → L} (hi : c.phase i = .inside rest resume) :
    Refines w code body holder (c.tick w code body i) a := by
  have hh := h.holder_eq (i := i) (by rw [hi]; rfl)
  obtain ⟨hused, op, rest', resume', hcode, hpending, hrun⟩ := h.used i hh
  rw [hi] at hpending
  cases hpending
  -- The rest of the body gives what the whole of it gives.
  have hkeep : ∀ data phase', (∃ rest', phase'.pending = some (rest', resume) ∧
        rest'.run data = (body op).run a.data) →
      Refines w code body holder ⟨c.client, data, c.lock, c.place,
        Function.update c.phase i phase'⟩ a := by
    rintro data phase' ⟨rest', hpending, hrun'⟩
    refine ⟨h.client, h.place, ?_, ?_, ?_, ?_⟩
    · intro j op' resume' hj
      by_cases hji : j = i
      · cases hji
        simp at hj
        rw [hj] at hpending
        cases hpending
      · exact h.locking j op' resume' (by simpa [hji] using hj)
    · intro j hj
      have hji : j ≠ i := fun e => hj (by rw [hh, e])
      simpa [hji] using h.outside j hj
    · intro hnone
      rw [hh] at hnone
      cases hnone
    · intro j hj
      cases hh.symm.trans hj
      exact ⟨hused, op, rest', resume, hcode, by simpa using hpending, hrun'⟩
  cases rest with
  | ret b =>
      have hc : c.tick w code body i = ⟨c.client, c.data, c.lock, c.place,
          Function.update c.phase i (.unlocking b resume)⟩ := by
        simp [Locked.tick, hi]
      rw [hc]
      exact hkeep _ _ ⟨.ret b, rfl, hrun⟩
  | step write next =>
      have hc : c.tick w code body i = ⟨c.client, write c.data, c.lock, c.place,
          Function.update c.phase i (.inside (next c.data) resume)⟩ := by
        simp [Locked.tick, hi]
      rw [hc]
      exact hkeep _ _ ⟨next c.data, rfl, hrun⟩

/-- The step that gives the lock back is the operation of the atomic system. -/
theorem Refines.tick_unlocking (h : Refines w code body holder c a)
    (hsem : ∀ op s, (body op).run s = sem op s) {i : ι} {b : β} {resume : β → L}
    (hi : c.phase i = .unlocking b resume) :
    Refines w code body none (c.tick w code body i) (a.tick code sem i) := by
  have hh := h.holder_eq (i := i) (by rw [hi]; rfl)
  obtain ⟨hused, op, rest, resume', hcode, hpending, hrun⟩ := h.used i hh
  rw [hi] at hpending
  cases hpending
  -- What is left of the body is its result, so the operation is done as a whole now.
  have hop : sem op a.data = (c.data, b) := by
    rw [← hsem, ← hrun]
    rfl
  have hc : c.tick w code body i = ⟨c.client, c.data, w.free, Function.update c.place i (resume b),
      Function.update c.phase i .out⟩ := by
    simp [Locked.tick, hi, hused, w.release_used]
  have ha : a.tick code sem i = ⟨a.client, c.data, Function.update a.place i (resume b)⟩ := by
    simp [Atomic.tick, ← h.place, hcode, hop]
  rw [hc, ha]
  refine ⟨h.client, by rw [h.place], ?_, ?_, fun _ => ⟨rfl, rfl⟩, by simp⟩
  · intro j op' resume' hj
    by_cases hji : j = i
    · simp [hji] at hj
    · simpa [hji] using h.locking j op' resume' (by simpa [hji] using hj)
  · intro j _
    by_cases hji : j = i
    · simp [hji, Phase.pending]
    · have hj : holder ≠ some j := by
        rw [hh]
        exact fun e => hji (Option.some.inj e).symm
      simpa [hji] using h.outside j hj

/-- A step of the locked system is a step of the atomic one, or none. -/
theorem Refines.tick (h : Refines w code body holder c a)
    (hsem : ∀ op s, (body op).run s = sem op s) (i : ι) :
    ∃ holder', Refines w code body holder' (c.tick w code body i) a ∨
      Refines w code body holder' (c.tick w code body i) (a.tick code sem i) := by
  cases hi : c.phase i with
  | out => exact ⟨holder, h.tick_out hi⟩
  | locking op resume =>
      obtain ⟨holder', h'⟩ := h.tick_locking hi
      exact ⟨holder', .inl h'⟩
  | inside rest resume => exact ⟨holder, .inl (h.tick_inside hi)⟩
  | unlocking b resume => exact ⟨none, .inr (h.tick_unlocking hsem hi)⟩

/-- A run of the locked system is a run of the atomic one, on a part of the schedule. -/
theorem Refines.run (hsem : ∀ op s, (body op).run s = sem op s) (schedule : List ι)
    (h : Refines w code body holder c a) : ∃ (holder' : Option ι) (schedule' : List ι), schedule'.Sublist schedule ∧
      Refines w code body holder' (schedule.foldl (Locked.tick w code body) c)
        (schedule'.foldl (Atomic.tick code sem) a) := by
  induction schedule generalizing holder c a with
  | nil => exact ⟨holder, [], List.Sublist.refl [], h⟩
  | cons i schedule ih =>
      obtain ⟨holder₁, hstay | hstep⟩ := h.tick hsem i
      · obtain ⟨holder', schedule', hsub, h'⟩ := ih hstay
        exact ⟨holder', schedule', hsub.cons i, h'⟩
      · obtain ⟨holder', schedule', hsub, h'⟩ := ih hstep
        exact ⟨holder', i :: schedule', hsub.cons_cons i, h'⟩

omit [DecidableEq ι] in
/-- Two threads that are inside are one, because each of them is the holder. -/
theorem Refines.exclusive (h : Refines w code body holder c a) {i j : ι}
    (hi : (c.phase i).pending ≠ none) (hj : (c.phase j).pending ≠ none) : i = j := by
  obtain ⟨r, hi⟩ := Option.ne_none_iff_exists'.mp hi
  obtain ⟨r', hj⟩ := Option.ne_none_iff_exists'.mp hj
  exact Option.some.inj ((h.holder_eq hi).symm.trans (h.holder_eq hj))

variable (code body) in
/-- A thread that has the lock comes to its end by its own steps. -/
theorem Locked.finish {i : ι} {rest : Body σ β} {resume : β → L} (hused : c.lock = w.used)
    (hi : (c.phase i).pending = some (rest, resume)) : ∃ schedule : List ι,
      (schedule.foldl (Locked.tick w code body) c).lock = w.free ∧
      (schedule.foldl (Locked.tick w code body) c).phase i = .out ∧
      ∀ j, j ≠ i → (schedule.foldl (Locked.tick w code body) c).phase j = c.phase j := by
  have hunlock : ∀ (c : Locked ι L κ σ Op β W) (b : β), c.lock = w.used →
      c.phase i = .unlocking b resume → c.tick w code body i = ⟨c.client, c.data, w.free,
        Function.update c.place i (resume b), Function.update c.phase i .out⟩ := by
    intro c b hused hi
    simp [Locked.tick, hi, hused, w.release_used]
  -- On what is left of the body: each step of it is one more round of the thread that has the lock.
  induction rest generalizing c with
  | ret b =>
      cases hphase : c.phase i with
      | out => simp [hphase, Phase.pending] at hi
      | locking op resume' => simp [hphase, Phase.pending] at hi
      | unlocking b' resume' =>
          rw [hphase] at hi
          cases hi
          refine ⟨[i], ?_⟩
          simp +contextual [hunlock c b hused hphase]
      | inside rest resume' =>
          rw [hphase] at hi
          cases hi
          have htick : c.tick w code body i = ⟨c.client, c.data, c.lock, c.place,
              Function.update c.phase i (.unlocking b resume)⟩ := by
            simp [Locked.tick, hphase]
          have hlast := hunlock (c.tick w code body i) b (by rw [htick]; exact hused)
            (by simp [htick])
          rw [htick] at hlast
          refine ⟨[i, i], ?_⟩
          simp +contextual [htick, hlast]
  | step write next ih =>
      -- A step of the body is left, so the thread is not at the end of its call yet.
      have hphase : c.phase i = .inside (.step write next) resume := by
        cases hphase : c.phase i with
        | inside rest resume' =>
            rw [hphase] at hi
            cases hi
            rfl
        | _ => simp [hphase, Phase.pending] at hi
      have htick : c.tick w code body i = ⟨c.client, write c.data, c.lock, c.place,
          Function.update c.phase i (.inside (next c.data) resume)⟩ := by
        simp [Locked.tick, hphase]
      obtain ⟨schedule, hlock, hout, hothers⟩ := ih c.data (c := c.tick w code body i)
        (by rw [htick]; exact hused) (by simp [htick, Phase.pending])
      refine ⟨i :: schedule, hlock, hout, ?_⟩
      intro j hj
      rw [List.foldl_cons, hothers j hj, htick]
      simp [hj]

/-- A call can be brought to its end from any state that the refinement relates: first whoever
holds the lock is run to its end, then the thread itself. -/
theorem Refines.returns (h : Refines w code body holder c a) (i : ι) :
    ∃ schedule : List ι, (schedule.foldl (Locked.tick w code body) c).phase i = .out := by
  -- With the lock free, the thread takes it and comes to its end.
  have htake : ∀ c : Locked ι L κ σ Op β W, c.lock = w.free → ∀ op resume,
      c.phase i = .locking op resume →
      ∃ schedule : List ι, (schedule.foldl (Locked.tick w code body) c).phase i = .out := by
    intro c hfree op resume hi
    have htick : c.tick w code body i = ⟨c.client, c.data, w.used, c.place,
        Function.update c.phase i (.inside (body op) resume)⟩ := by
      simp [Locked.tick, hi, hfree, w.acquire_free]
    have hinside : ((c.tick w code body i).phase i).pending = some (body op, resume) := by
      rw [htick]
      simp [Phase.pending]
    obtain ⟨schedule, -, hout, -⟩ := Locked.finish code body (by rw [htick]) hinside
    exact ⟨i :: schedule, hout⟩
  cases hi : c.phase i with
  | out => exact ⟨[], hi⟩
  | locking op resume =>
      cases hh : holder with
      | none => exact htake c (h.free hh).1 op resume hi
      | some j =>
          obtain ⟨hused, op', rest, resume', -, hpending, -⟩ := h.used j hh
          have hji : i ≠ j := by
            intro e
            rw [← e, hi] at hpending
            cases hpending
          obtain ⟨first, hfree, -, hothers⟩ :=
            Locked.finish code body hused hpending
          obtain ⟨second, hout⟩ := htake _ hfree op resume ((hothers i hji).trans hi)
          exact ⟨first ++ second, by rw [List.foldl_append]; exact hout⟩
  | inside rest resume =>
      have hh := h.holder_eq (i := i) (by rw [hi]; rfl)
      obtain ⟨schedule, -, hout, -⟩ := Locked.finish code body (h.used i hh).1 (i := i)
        (by rw [hi]; rfl)
      exact ⟨schedule, hout⟩
  | unlocking b resume =>
      have hh := h.holder_eq (i := i) (by rw [hi]; rfl)
      obtain ⟨schedule, -, hout, -⟩ := Locked.finish code body (h.used i hh).1 (i := i)
        (by rw [hi]; rfl)
      exact ⟨schedule, hout⟩

end

end Lib
