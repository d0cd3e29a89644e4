import SumiOS.Proofs.PageTable.Lookup

/-!
# `SumiOS.Proofs.PageTable.Writable`: effective permissions

A page is effectively writable when the bit RW is set in all four entries on its
walk. The leaf has the attributes of the last call for the page, but each inner
entry has those of the first call that came through it
(`SumiOS.Proofs.PageTable.Map`). So the permission of a page depends on up to
four calls, and `effectivelyWritable_iff` says which.
-/

set_option autoImplicit false

namespace SumiOS

open Lib

/-! ### The bit RW -/

/-- The bit RW is set. -/
def HasRW (e : Word) : Prop := e &&& PAGE_ATTR_RW = PAGE_ATTR_RW

instance (e : Word) : Decidable (HasRW e) := inferInstanceAs (Decidable (_ = _))

section HasRW

variable {p attr : Word}

/-- The write attribute is bit 1 of the entry. -/
theorem hasRW_iff {e : Word} : HasRW e ↔ e.getLsbD 1 = true := by
  have hbit : e &&& PAGE_ATTR_RW = if e.getLsbD 1 then PAGE_ATTR_RW else 0 :=
    BitVec.and_twoPow e 1
  unfold HasRW
  rw [hbit]
  by_cases h : e.getLsbD 1 = true
  · simp [h]
  · simp only [h]
    decide

/-- An entry made of an address and attributes allows writing when one of them has the bit. -/
theorem hasRW_or : HasRW (p ||| attr) ↔ HasRW p ∨ HasRW attr := by
  simp only [hasRW_iff, BitVec.getLsbD_or, Bool.or_eq_true]

/-- The address in an entry does not set the bit. -/
theorem PageAligned.not_hasRW (h : PageAligned p) : ¬ HasRW p := by
  have hmask : PAGE_MASK.getLsbD 1 = false := by decide
  rw [hasRW_iff, ← h, BitVec.getLsbD_and, hmask, Bool.and_false]
  decide

end HasRW

/-! ### The entries on a walk -/

/-- The four entries on the walk of an address. -/
def walkEntries (window : Word) (m : Mem) (pgtable va : Word) : List Word :=
  let pgd := pgtable
  let pud := nextTable window m pgd (pgdEntry va)
  let pmd := nextTable window m pud (pudEntry va)
  let pte := nextTable window m pmd (pmdEntry va)
  [m.read64 (entryAddr window pgd (pgdEntry va)), m.read64 (entryAddr window pud (pudEntry va)),
    m.read64 (entryAddr window pmd (pmdEntry va)), m.read64 (entryAddr window pte (pteEntry va))]

/-- The bit RW is set in the entries of all four levels. -/
def EffectivelyWritable (window : Word) (m : Mem) (pgtable va : Word) : Prop :=
  ∀ e ∈ walkEntries window m pgtable va, HasRW e

section Walk

variable {window : Word} {top : BitVec 9 → Prop} {base : Word → Prop} {log : List Word} {m : Mem}
  {T : List (BitVec 9) → Option Word} {pgtable va : Word}

/-- An inner entry that is in use gives the table below it. -/
theorem Tables.next_eq (hT : Tables window top base log m T) {π : List (BitVec 9)} {i : BitVec 9}
    {p : Word} (hp : T π = some p) (hlen : π.length + 1 < 4) (hu : Under top (i :: π))
    (hne : entries window m T (i :: π) ≠ 0) :
    T (i :: π) = some (nextTable window m p (i.setWidth 64)) := by
  have hlink := hT.laid.link π p i hp hlen hu
  rw [entries_some hp] at hne
  rw [tableChild, if_neg hne] at hlink
  exact hlink.symm

/-- When the inner entries are in use, the walk reads the entries of the tree. -/
theorem walkEntries_eq (hT : Tables window top base log m T) (hroot : T [] = some pgtable)
    (htop : top (indexOf PGD_OFFSET va))
    (hne : ∀ π ∈ innerPaths va, entries window m T π ≠ 0) :
    walkEntries window m pgtable va =
      (innerPaths va ++ [pathOf va]).map (entries window m T) := by
  have hu₁ : Under top [indexOf PGD_OFFSET va] := under_singleton htop
  have hu₂ := hu₁.cons (i := indexOf PUD_OFFSET va) (by simp)
  have hu₃ := hu₂.cons (i := indexOf PMD_OFFSET va) (by simp)
  have hpud := hT.next_eq hroot (by simp) hu₁ (hne _ (by simp [innerPaths]))
  have hpmd := hT.next_eq hpud (by simp) hu₂ (hne _ (by simp [innerPaths]))
  have hpte := hT.next_eq hpmd (by simp) hu₃ (hne _ (by simp [innerPaths]))
  simp only [innerPaths, pathOf, List.cons_append, List.nil_append, List.map_cons, List.map_nil,
    entries_some hroot, entries_some hpud, entries_some hpmd, entries_some hpte]
  simp only [walkEntries, pgdEntry_eq, pudEntry_eq, pmdEntry_eq, pteEntry_eq]
  rfl

end Walk

/-! ### The permissions of a run -/

/-- The first calls that came through the three inner entries of an address all
have the bit RW. -/
def UpperWritable (calls : List MapCall) (va : Word) : Prop :=
  ∀ lo ∈ [PGD_OFFSET, PUD_OFFSET, PMD_OFFSET], ∀ c ∈ firstCall lo va calls, HasRW c.attr

instance (calls : List MapCall) (va : Word) : Decidable (UpperWritable calls va) :=
  inferInstanceAs (Decidable (∀ lo ∈ _, ∀ c ∈ firstCall lo va calls, _))

section Run

variable {window : Word} {top : BitVec 9 → Prop} {base : Word → Prop} {log : List Word} {m : Mem}
  {T : List (BitVec 9) → Option Word} {A : List (BitVec 9) → Word} {pgtable va : Word}
  {calls : List MapCall} {c : MapCall}

/-- Addresses that agree from a bit on agree from every higher bit on, so that a page of a region
shares the region's tables. -/
theorem sameFrom_of_le {lo lo' : Nat} {va va' : Word} (hle : lo ≤ lo') (hlo : lo' ≤ 48)
    (h : SameFrom lo va va') : SameFrom lo' va va' := by
  apply BitVec.eq_of_getLsbD_eq
  intro i hi
  have hlt : lo' - lo + i < 48 - lo := by omega
  have hbit := congrArg (fun x => x.getLsbD (lo' - lo + i)) h
  simp only [BitVec.getLsbD_extractLsb', hlt, hi, decide_true, Bool.true_and] at hbit ⊢
  rwa [show lo + (lo' - lo + i) = lo' + i from by omega] at hbit

/-- Above a page that was mapped, some call came first. -/
theorem firstCall_of_lastCall (h : lastCall va calls = some c) (lo : Nat) (hle : PTE_OFFSET ≤ lo)
    (hlo : lo ≤ 48) : ∃ c', firstCall lo va calls = some c' ∧ c' ∈ calls := by
  have hsome : (firstCall lo va calls).isSome := by
    rw [firstCall, List.find?_isSome]
    exact ⟨c, lastCall_mem h, decide_eq_true (sameFrom_of_le hle hlo (lastCall_same h))⟩
  obtain ⟨c', hc'⟩ := Option.isSome_iff_exists.mp hsome
  exact ⟨c', hc', List.mem_of_find?_eq_some hc'⟩

/-- The inner entries above a page that was mapped have the attributes of the
first calls. -/
theorem History.upper (h : History calls A) (hc : lastCall va calls = some c) {k : Nat}
    (h0 : 0 < k) (h4 : k < 4) :
    ∃ c' q, firstCall (48 - 9 * k) va calls = some c' ∧ c' ∈ calls ∧ PageAligned q ∧
      A (upperPath va k) = q ||| c'.attr := by
  obtain ⟨c', hfirst, hmem⟩ := firstCall_of_lastCall hc (48 - 9 * k)
    (by unfold PTE_OFFSET; omega) (by omega)
  have hin := h.inner va k h0 h4
  rw [hfirst] at hin
  obtain ⟨q, hq, hA⟩ := hin
  exact ⟨c', q, hfirst, hmem, hq, hA⟩

/-- The effective permission of a page that was mapped: the first calls on its
three inner entries must have the bit RW, and its own entry must have it. The
tree may have been changed elsewhere after the run. -/
theorem effectivelyWritable_iff (hT : Tables window top base log m T)
    (hroot : T [] = some pgtable) (htop : top (indexOf PGD_OFFSET va))
    (hist : History calls A) (hA : ∀ π ∈ innerPaths va ++ [pathOf va], entries window m T π = A π)
    (htagged : ∀ c ∈ calls, c.Tagged) (hc : lastCall va calls = some c) :
    EffectivelyWritable window m pgtable va ↔
      UpperWritable calls va ∧ (HasRW c.pa ∨ HasRW c.attr) := by
  have hinner : ∀ k, 0 < k → k < 4 → upperPath va k ∈ innerPaths va := fun k h0 h4 =>
    mem_innerPaths.mpr ⟨k, h0, h4, rfl⟩
  have hne : ∀ π ∈ innerPaths va, entries window m T π ≠ 0 := by
    intro π hπ
    obtain ⟨k, h0, h4, rfl⟩ := mem_innerPaths.mp hπ
    obtain ⟨c', q, -, hmem, -, he⟩ := hist.upper hc h0 h4
    rw [hA _ (List.mem_append_left _ hπ), he]
    exact or_attr_ne_zero (htagged c' hmem).present
  have hleaf : A (pathOf va) = c.pa ||| c.attr := by
    rw [hist.leaf, hc]
    rfl
  -- An inner entry has the bit exactly when its first call does.
  have hupper : ∀ k, 0 < k → k < 4 →
      (HasRW (A (upperPath va k)) ↔ ∀ c' ∈ firstCall (48 - 9 * k) va calls, HasRW c'.attr) := by
    intro k h0 h4
    obtain ⟨c', q, hfirst, -, hq, he⟩ := hist.upper hc h0 h4
    rw [he, hfirst, hasRW_or]
    simp [hq.not_hasRW]
  unfold EffectivelyWritable UpperWritable
  rw [walkEntries_eq hT hroot htop hne]
  have hmap : (innerPaths va ++ [pathOf va]).map (entries window m T) =
      (innerPaths va ++ [pathOf va]).map A := List.map_congr_left hA
  have hpaths : innerPaths va = [upperPath va 1, upperPath va 2, upperPath va 3] := rfl
  rw [hmap, hpaths]
  simp only [List.cons_append, List.nil_append, List.map_cons, List.map_nil, List.forall_mem_cons,
    hleaf, hasRW_or, hupper 1 (by decide) (by decide), hupper 2 (by decide) (by decide),
    hupper 3 (by decide) (by decide)]
  show _ ∧ _ ∧ _ ∧ _ ∧ _ ↔ (_ ∧ _ ∧ _ ∧ _) ∧ _
  simp only [List.not_mem_nil, false_imp_iff, implies_true, and_true, and_assoc]
  rfl

end Run

end SumiOS
