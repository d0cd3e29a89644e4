import SumiOS.MmInit
import SumiOS.Proofs.PageTable.Spec

/-!
# `SumiOS.Proofs.PageTable.Map`: a page table is a finite map

A run maps pages one after the other, from a root table that is zero. `History`
says what the entries are after it: a leaf has the value of the last call for
its page, and an inner entry has the attributes of the first call that came
through it. Each call keeps `History` (`History.call`), because `Effect` says
everything a call does.

The pages that a run allocates are recorded by `logged`, which wraps any
allocator. The results do not depend on the record (`mapCalls_logged`).
-/

set_option autoImplicit false

namespace SumiOS

open Lib

/-! ### Addresses with a common prefix -/

/-- Bits `lo`, …, 47 of the two addresses agree. -/
def SameFrom (lo : Nat) (va va' : Word) : Prop :=
  va.extractLsb' lo (48 - lo) = va'.extractLsb' lo (48 - lo)

instance (lo : Nat) (va va' : Word) : Decidable (SameFrom lo va va') :=
  inferInstanceAs (Decidable (_ = _))

section Prefix

variable {lo n : Nat} {va va' : Word}

/-- Two addresses agree from bit `lo` on when their quotients by `2 ^ lo` do, within the 48 bits
that the tables translate. -/
theorem sameFrom_iff_nat : SameFrom lo va va' ↔
    va.toNat / 2 ^ lo % 2 ^ (48 - lo) = va'.toNat / 2 ^ lo % 2 ^ (48 - lo) := by
  unfold SameFrom
  rw [← BitVec.toNat_inj, BitVec.extractLsb'_toNat, BitVec.extractLsb'_toNat,
    Nat.shiftRight_eq_div_pow, Nat.shiftRight_eq_div_pow]

/-- A run of bits that starts with an index is that index and the bits behind it, so that addresses
can be compared level by level. -/
theorem extract_eq_iff :
    va.extractLsb' lo (9 + n) = va'.extractLsb' lo (9 + n) ↔
      indexOf lo va = indexOf lo va' ∧
        va.extractLsb' (lo + 9) n = va'.extractLsb' (lo + 9) n := by
  constructor
  · intro h
    -- The run of bits tells each bit of the two parts.
    have hbit : ∀ i, i < 9 + n → va.getLsbD (lo + i) = va'.getLsbD (lo + i) := by
      intro i hi
      have hi' := congrArg (fun x => x.getLsbD i) h
      simpa [BitVec.getLsbD_extractLsb', hi] using hi'
    constructor
    · apply BitVec.eq_of_getLsbD_eq
      intro i hi
      simp only [indexOf, BitVec.getLsbD_extractLsb', hi, decide_true, Bool.true_and]
      exact hbit i (by omega)
    · apply BitVec.eq_of_getLsbD_eq
      intro i hi
      simp only [BitVec.getLsbD_extractLsb', hi, decide_true, Bool.true_and]
      rw [Nat.add_assoc]
      exact hbit (9 + i) (by omega)
  · rintro ⟨h₁, h₂⟩
    apply BitVec.eq_of_getLsbD_eq
    intro i hi
    simp only [BitVec.getLsbD_extractLsb', hi, decide_true, Bool.true_and]
    by_cases hlow : i < 9
    · have hi' := congrArg (fun x => x.getLsbD i) h₁
      simpa [indexOf, BitVec.getLsbD_extractLsb', hlow] using hi'
    · have hi' := congrArg (fun x => x.getLsbD (i - 9)) h₂
      have hlt : i - 9 < n := by omega
      have hadd : lo + 9 + (i - 9) = lo + i := by omega
      simpa [BitVec.getLsbD_extractLsb', hlt, hadd] using hi'

/-- The indices of the first `k` levels, the last one first. -/
def upperPath (va : Word) : Nat → List (BitVec 9)
  | 0 => []
  | k + 1 => indexOf (39 - 9 * k) va :: upperPath va k

/-- The path down to level `k` consists of `k` indices. -/
@[simp]
theorem upperPath_length (k : Nat) : (upperPath va k).length = k := by
  induction k with
  | zero => rfl
  | succ k ih => rw [upperPath, List.length_cons, ih]

/-- The full path of an address is its path down to the fourth level, the one of the
leaf tables. -/
theorem pathOf_eq : pathOf va = upperPath va 4 := rfl

/-- The inner paths of an address are its proper, non-empty prefixes: the three entries that a call
of the mapper may have to create. -/
theorem mem_innerPaths {π : List (BitVec 9)} :
    π ∈ innerPaths va ↔ ∃ k, 0 < k ∧ k < 4 ∧ π = upperPath va k := by
  have hlist : innerPaths va = [upperPath va 1, upperPath va 2, upperPath va 3] := rfl
  rw [hlist]
  constructor
  · intro h
    simp only [List.mem_cons, List.not_mem_nil, or_false] at h
    rcases h with rfl | rfl | rfl
    · exact ⟨1, by decide, by decide, rfl⟩
    · exact ⟨2, by decide, by decide, rfl⟩
    · exact ⟨3, by decide, by decide, rfl⟩
  · rintro ⟨k, h0, h4, rfl⟩
    obtain rfl | rfl | rfl : k = 1 ∨ k = 2 ∨ k = 3 := by omega
    · simp
    · simp
    · simp

/-- A leaf is not an inner entry of any walk. -/
theorem pathOf_not_inner : pathOf va ∉ innerPaths va' := by
  intro h
  obtain ⟨k, -, hk, he⟩ := mem_innerPaths.mp h
  have hlen := congrArg List.length he
  rw [upperPath_length] at hlen
  simp only [pathOf, List.length_cons, List.length_nil] at hlen
  omega

/-- Addresses agree from a level on exactly when their walks do up to it, by recursion on the
levels. -/
theorem sameFrom_iff (va va' : Word) : ∀ k : Nat, k ≤ 4 →
    (SameFrom (48 - 9 * k) va va' ↔ upperPath va k = upperPath va' k)
  | 0, _ => iff_of_true (BitVec.eq_of_getLsbD_eq fun _ hi => absurd hi (Nat.not_lt_zero _)) rfl
  | k + 1, hk => by
      have ih := sameFrom_iff va va' k (by omega)
      have hlow : 48 - 9 * (k + 1) = 39 - 9 * k := by omega
      have hnext : 39 - 9 * k + 9 = 48 - 9 * k := by omega
      have hwidth : 48 - (39 - 9 * k) = 9 + 9 * k := by omega
      have hwidth' : 48 - (48 - 9 * k) = 9 * k := by omega
      rw [upperPath, upperPath, List.cons.injEq, ← ih]
      unfold SameFrom
      rw [hlow, hwidth, hwidth', extract_eq_iff, hnext]

/-- The inner paths are the upper parts of the longest of them. -/
theorem innerPaths_of_upper (h : upperPath va 3 = upperPath va' 3) : innerPaths va = innerPaths va' := by
  have h : [indexOf PMD_OFFSET va, indexOf PUD_OFFSET va, indexOf PGD_OFFSET va] =
      [indexOf PMD_OFFSET va', indexOf PUD_OFFSET va', indexOf PGD_OFFSET va'] := h
  simp only [List.cons.injEq, and_true] at h
  obtain ⟨h₁, h₂, h₃⟩ := h
  rw [innerPaths, innerPaths, h₁, h₂, h₃]

/-- Addresses with the same last entry need the same tables. -/
theorem innerPaths_of_pathOf (h : pathOf va = pathOf va') : innerPaths va = innerPaths va' :=
  innerPaths_of_upper (List.cons.inj h).2

end Prefix

/-! ### Runs of calls -/

/-- One call of a mapping function. -/
structure MapCall where
  va : Word
  pa : Word
  attr : Word
deriving DecidableEq

/-- The attribute is in the low 12 bits and contains P. -/
structure MapCall.Tagged (c : MapCall) : Prop where
  low : c.attr &&& PAGE_MASK = 0
  present : c.attr &&& PAGE_ATTR_P = PAGE_ATTR_P

/-- What the callers promise: such an attribute, and a page-aligned address. -/
structure MapCall.Valid (c : MapCall) : Prop extends c.Tagged where
  aligned : PageAligned c.pa

instance (c : MapCall) : Decidable c.Valid :=
  decidable_of_iff (PageAligned c.pa ∧ c.attr &&& PAGE_MASK = 0 ∧
      c.attr &&& PAGE_ATTR_P = PAGE_ATTR_P)
    ⟨fun ⟨h₁, h₂, h₃⟩ => ⟨⟨h₂, h₃⟩, h₁⟩, fun ⟨⟨h₂, h₃⟩, h₁⟩ => ⟨h₁, h₂, h₃⟩⟩

/-- The calls of a mapping function, one after the other. -/
def mapCalls {σ : Type} (map : Mem → σ → Word → Word → Word → Word → Mem × σ) (m : Mem) (s : σ)
    (pgtable : Word) (calls : List MapCall) : Mem × σ :=
  calls.foldl (fun r c => map r.1 r.2 pgtable c.va c.pa c.attr) (m, s)

/-- The allocator with a record of its results, the latest first. -/
def logged {σ : Type} (alloc : σ → σ × Word) (s : σ × List Word) : (σ × List Word) × Word :=
  (((alloc s.1).1, (alloc s.1).2 :: s.2), (alloc s.1).2)

/-- The table pages that a run of calls allocates, the latest first. -/
def tablePages {σ : Type} (window : Word) (alloc : σ → σ × Word) (m : Mem) (s : σ)
    (pgtable : Word) (calls : List MapCall) : List Word :=
  (mapCalls (pgtableMap window (logged alloc)) m (s, []) pgtable calls).2.2

/-- The last call for the page of an address. -/
def lastCall (va : Word) (calls : List MapCall) : Option MapCall :=
  calls.reverse.find? fun c => SameFrom PTE_OFFSET c.va va

/-- The first call that agrees with an address from the bit `lo` on. -/
def firstCall (lo : Nat) (va : Word) (calls : List MapCall) : Option MapCall :=
  calls.find? fun c => SameFrom lo c.va va

section Logged

variable {σ : Type} (window : Word) (alloc : σ → σ × Word)

/-- The record changes nothing on one level, neither in memory nor in the state of the
allocator. -/
theorem ensureTable_logged (m : Mem) (s : σ × List Word) (p i attr : Word) :
    (ensureTable window (logged alloc) m s p i attr).1 = (ensureTable window alloc m s.1 p i attr).1 ∧
      (ensureTable window (logged alloc) m s p i attr).2.1
        = (ensureTable window alloc m s.1 p i attr).2 := by
  unfold ensureTable
  by_cases h : m.read64 (entryAddr window p i) = 0
  · rw [if_pos h, if_pos h]
    exact ⟨rfl, rfl⟩
  · rw [if_neg h, if_neg h]
    exact ⟨rfl, rfl⟩

/-- Keeping a log beside the allocator changes neither the memory nor the allocator's own state, so
results about the logged run carry over. -/
theorem pgtableMap_logged (m : Mem) (s : σ × List Word) (pgtable va pa attr : Word) :
    (pgtableMap window (logged alloc) m s pgtable va pa attr).1
        = (pgtableMap window alloc m s.1 pgtable va pa attr).1 ∧
      (pgtableMap window (logged alloc) m s pgtable va pa attr).2.1
        = (pgtableMap window alloc m s.1 pgtable va pa attr).2 := by
  simp only [pgtableMap, ensureTable_logged, and_self]

/-- A list of calls runs its first call and then the rest from the memory and the allocator that
this call leaves. -/
theorem mapCalls_cons (map : Mem → σ → Word → Word → Word → Word → Mem × σ) (m : Mem) (s : σ)
    (pgtable : Word) (c : MapCall) (calls : List MapCall) :
    mapCalls map m s pgtable (c :: calls)
      = mapCalls map (map m s pgtable c.va c.pa c.attr).1 (map m s pgtable c.va c.pa c.attr).2
          pgtable calls := rfl

/-- The last call of a list runs on what all calls before it have left, the form in which the run
inductions take it. -/
theorem mapCalls_append (map : Mem → σ → Word → Word → Word → Word → Mem × σ) (m : Mem) (s : σ)
    (pgtable : Word) (calls : List MapCall) (c : MapCall) :
    mapCalls map m s pgtable (calls ++ [c])
      = map (mapCalls map m s pgtable calls).1 (mapCalls map m s pgtable calls).2 pgtable
          c.va c.pa c.attr := by
  rw [mapCalls, List.foldl_append]
  rfl

/-- The same for a list of calls: the log is only an observer. -/
theorem mapCalls_logged (pgtable : Word) (calls : List MapCall) :
    ∀ (m : Mem) (s : σ × List Word),
      (mapCalls (pgtableMap window (logged alloc)) m s pgtable calls).1
        = (mapCalls (pgtableMap window alloc) m s.1 pgtable calls).1 := by
  induction calls with
  | nil => exact fun _ _ => rfl
  | cons c calls ih =>
      intro m s
      obtain ⟨h₁, h₂⟩ := pgtableMap_logged window alloc m s pgtable c.va c.pa c.attr
      rw [mapCalls_cons, mapCalls_cons, ih, h₁, h₂]

/-- A run allocates at most three pages for each call, one for each inner level, and does nothing
else to the allocator. -/
theorem mapCalls_allocs (pgtable : Word) (calls : List MapCall) :
    ∀ (m : Mem) (s : σ), ∃ n ≤ 3 * calls.length,
      (mapCalls (pgtableMap window alloc) m s pgtable calls).2 = (fun s => (alloc s).1)^[n] s := by
  induction calls with
  | nil => exact fun _ _ => ⟨0, Nat.le_refl 0, rfl⟩
  | cons c calls ih =>
      intro m s
      obtain ⟨n, hn, he⟩ := pgtableMap_allocs window alloc m s pgtable c.va c.pa c.attr
      obtain ⟨k, hk, hrest⟩ := ih (pgtableMap window alloc m s pgtable c.va c.pa c.attr).1
        (pgtableMap window alloc m s pgtable c.va c.pa c.attr).2
      refine ⟨k + n, by rw [List.length_cons]; omega, ?_⟩
      rw [mapCalls_cons, hrest, he, Function.iterate_add_apply]

/-- The table pages of a run are among the first results of the allocator. -/
theorem tablePages_suffix (m : Mem) (s : σ) (pgtable : Word) (calls : List MapCall) :
    tablePages window alloc m s pgtable calls <:+
      ((fun s => (logged alloc s).1)^[3 * calls.length] (s, [])).2 := by
  obtain ⟨n, hn, he⟩ := mapCalls_allocs window (logged alloc) pgtable calls m (s, [])
  obtain ⟨k, hk⟩ : ∃ k, 3 * calls.length = k + n := ⟨3 * calls.length - n, by omega⟩
  rw [tablePages, he, hk, Function.iterate_add_apply]
  exact log_iterate (fun _ => rfl) k _

end Logged

/-! ### What the entries are after a run -/

/-- The value of an inner entry, by the first call that came through it. -/
def LinkedBy (first : Option MapCall) (e : Word) : Prop :=
  match first with
  | none => e = 0
  | some c => ∃ q, PageAligned q ∧ e = q ||| c.attr

/-- Leaves have the value of the last call for their page; an inner entry has a
table and the attributes of the first call that came through it. -/
structure History (calls : List MapCall) (A : List (BitVec 9) → Word) : Prop where
  leaf : ∀ va, A (pathOf va) = ((lastCall va calls).map fun c => c.pa ||| c.attr).getD 0
  inner : ∀ va k, 0 < k → k < 4 → LinkedBy (firstCall (48 - 9 * k) va calls) (A (upperPath va k))

section History

variable {calls : List MapCall} {c : MapCall} {A A' : List (BitVec 9) → Word} {va : Word}

/-- The call that decides a page is one of the calls made. -/
theorem lastCall_mem (h : lastCall va calls = some c) : c ∈ calls :=
  List.mem_reverse.mp (List.mem_of_find?_eq_some h)

/-- The call that decides a page is for an address on that very page. -/
theorem lastCall_same (h : lastCall va calls = some c) : SameFrom PTE_OFFSET c.va va := by
  unfold lastCall at h
  have hfound := List.find?_some h
  exact of_decide_eq_true hfound

/-- A further call decides a page when it is for that page, and otherwise leaves the decision to
the calls before it. -/
theorem lastCall_append : lastCall va (calls ++ [c]) =
    if SameFrom PTE_OFFSET c.va va then some c else lastCall va calls := by
  unfold lastCall
  rw [List.reverse_append, List.reverse_singleton, List.singleton_append, List.find?_cons]
  by_cases h : SameFrom PTE_OFFSET c.va va
  · simp [h]
  · simp [h]

/-- The first call to reach an entry stays the first: a later one counts only where no earlier call
has reached it. -/
theorem firstCall_append {lo : Nat} : firstCall lo va (calls ++ [c]) =
    (firstCall lo va calls).or (if SameFrom lo c.va va then some c else none) := by
  unfold firstCall
  rw [List.find?_append]
  by_cases h : SameFrom lo c.va va
  · simp [h]
  · simp [h]

/-- One more call keeps the account of who wrote which entry: a leaf has the value of the last call
for its page, and an inner entry the attributes of the first call through it. -/
theorem History.call (h : History calls A) (hv : ∀ c ∈ calls, c.Tagged)
    (he : Effect c.va c.pa c.attr A A') : History (calls ++ [c]) A' := by
  have hne : ∀ va k, k < 4 → upperPath va k ≠ pathOf c.va := by
    intro va k hk e
    have := congrArg List.length e
    rw [upperPath_length] at this
    simp [pathOf] at this
    omega
  refine ⟨fun va => ?_, fun va k h0 h4 => ?_⟩
  · rw [lastCall_append]
    have hsame := sameFrom_iff c.va va 4 (by decide)
    by_cases hva : SameFrom PTE_OFFSET c.va va
    · have hpath : pathOf c.va = pathOf va := hsame.mp hva
      rw [if_pos hva, ← hpath, he.leaf]
      rfl
    · have hpath : pathOf va ≠ pathOf c.va := fun e => hva (hsame.mpr e.symm)
      rw [if_neg hva, he.keep _ hpath fun hm => pathOf_not_inner hm.1]
      exact h.leaf va
  · rw [firstCall_append]
    have hin := h.inner va k h0 h4
    have hsame := sameFrom_iff c.va va k (by omega)
    cases hf : firstCall (48 - 9 * k) va calls with
    | some c' =>
        -- The entry is in use, so the call keeps it.
        rw [hf] at hin
        obtain ⟨q, hq, hA⟩ := hin
        have hmem : c' ∈ calls := List.mem_of_find?_eq_some hf
        have hnz : A (upperPath va k) ≠ 0 := by
          rw [hA]
          exact or_attr_ne_zero (hv c' hmem).present
        rw [he.keep _ (hne va k h4) fun hm => hnz hm.2]
        exact ⟨q, hq, hA⟩
    | none =>
        rw [hf] at hin
        by_cases hva : SameFrom (48 - 9 * k) c.va va
        · have hpath := hsame.mp hva
          rw [if_pos hva]
          exact he.link _ (mem_innerPaths.mpr ⟨k, h0, h4, hpath.symm⟩) hin
        · rw [if_neg hva, he.keep _ (hne va k h4)]
          · exact hin
          · rintro ⟨hm, -⟩
            obtain ⟨j, -, -, e⟩ := mem_innerPaths.mp hm
            obtain rfl : k = j := by
              have := congrArg List.length e
              rwa [upperPath_length, upperPath_length] at this
            exact hva (hsame.mpr e.symm)

end History

end SumiOS
