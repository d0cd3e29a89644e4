import SumiOS.Proofs.Init.Setup

/-!
# `SumiOS.Proofs.Init.Pages`: what the linear allocator hands out

The results of any number of page allocations, on any areas. Nothing is asked of
the memory map but that its available entries end below `2 ^ 52`: they need not be
in order, disjoint, aligned or nonempty, and the allocations may fail.

`InEntry` says that the cursor is in or behind an entry, in front of whose end all
that is left of the current area lies. One allocation keeps it
(`InEntry.alloc`), and its result is a page of that entry in front of the new cursor.
`linearResults_inside` puts the results of a run together.
-/

set_option autoImplicit false

namespace SumiOS

open Lib

/-- The results of `n` allocations of a page. -/
def linearResults : Nat → LinearAlloc → List Word
  | 0, _ => []
  | n + 1, la =>
      let r := mmInitPhysAllocLinear la PAGE_SIZE
      r.2 :: linearResults n r.1

/-- The page at `c` lies in the entry. -/
def MmapEntry.HoldsPage (e : MmapEntry) (c : Word) : Prop :=
  e.addr.toNat ≤ c.toNat ∧ c.toNat + 4096 ≤ e.stop

/-- The areas are available entries, and the current one is the rest of an entry
from the cursor on. -/
structure InEntry (entries : List MmapEntry) (la : LinearAlloc) : Prop where
  areas : ∀ i < la.physMmAreaNum, ∃ e ∈ entries, e.Available ∧
    la.physMmAreaArr i = ⟨e.addr, e.addr + e.len⟩
  idx : la.physMmAreaIdx ≤ la.physMmAreaNum
  cursor : ∃ e ∈ entries, e.Available ∧ e.addr.toNat ≤ la.mmAllocStart.toNat ∧
    la.mmAllocStart.toNat ≤ e.stop ∧ la.mmAllocEnd.toNat = e.stop

/-- Which areas the allocator may be given: their ends are addresses of memory. -/
def EndsBelow (bound : Nat) (entries : List MmapEntry) : Prop :=
  ∀ e ∈ entries, e.Available → e.stop < bound

section

variable {entries : List MmapEntry} {first : Word} {la la' : LinearAlloc}

/-- Entries that end below a bound end below every larger one. -/
theorem EndsBelow.mono {bound bound' : Nat} (h : EndsBelow bound entries) (hle : bound ≤ bound') :
    EndsBelow bound' entries :=
  fun e he havail => (h e he havail).trans_le hle

/-- The bound on memory maps leaves room for the rounding up to pages in a word. -/
theorem endsBelow_of_bounded (hstop : ∀ e ∈ entries, e.stop ≤ 2 ^ 46) : EndsBelow (2 ^ 64 - 4096) entries :=
  fun e he _ => (hstop e he).trans_lt (by decide)

/-- A page fits in front of the end of the area: the check does not wrap around. -/
theorem InEntry.room (h : InEntry entries la) (hends : EndsBelow (2 ^ 64 - 4096) entries)
    (hroom : PAGE_SIZE + la.mmAllocStart ≤ la.mmAllocEnd) :
    ∃ e ∈ entries, e.Available ∧ e.HoldsPage la.mmAllocStart ∧ la.mmAllocEnd.toNat = e.stop ∧
      (la.mmAllocStart + PAGE_SIZE).toNat = la.mmAllocStart.toNat + 4096 := by
  obtain ⟨e, he, havail, haddr, hle, hend⟩ := h.cursor
  have hbound := hends e he havail
  have hsize : PAGE_SIZE.toNat = 4096 := rfl
  have hnat : (la.mmAllocStart + PAGE_SIZE).toNat = la.mmAllocStart.toNat + 4096 := by
    rw [BitVec.toNat_add, hsize]
    omega
  have hfits := BitVec.le_def.mp hroom
  rw [BitVec.add_comm, hnat, hend] at hfits
  exact ⟨e, he, havail, ⟨haddr, hfits⟩, hend, hnat⟩

/-- A successful allocation: its page lies in an entry, and the cursor is behind it. -/
theorem InEntry.advance (h : InEntry entries la) (hends : EndsBelow (2 ^ 64 - 4096) entries)
    (hroom : PAGE_SIZE + la.mmAllocStart ≤ la.mmAllocEnd) (hadv : Advance la la')
    (hidx : la'.physMmAreaIdx ≤ la.physMmAreaNum) (hsame : SameAreas la la') :
    InEntry entries la' ∧ la.mmAllocStart.toNat + 4096 ≤ la'.mmAllocStart.toNat := by
  obtain ⟨e, he, havail, hpage, hend, hnat⟩ := h.room hends hroom
  have hareas : ∀ i < la'.physMmAreaNum, ∃ e ∈ entries, e.Available ∧
      la'.physMmAreaArr i = ⟨e.addr, e.addr + e.len⟩ := by
    rw [hsame.arr, hsame.num]
    exact h.areas
  have hlow : e.addr.toNat ≤ la.mmAllocStart.toNat := hpage.1
  have hhigh : la.mmAllocStart.toNat + 4096 ≤ e.stop := hpage.2
  rw [← hsame.num] at hidx
  cases hadv with
  | ahead hs he' _ =>
      -- The cursor moves by a page inside its entry.
      rw [← hs] at hnat
      exact ⟨⟨hareas, hidx, e, he, havail, by omega, by omega, by rw [he', hend]⟩, by omega⟩
  | slide i hi hge hs he' =>
      obtain ⟨e₂, he₂, havail₂, harea⟩ := h.areas i hi
      -- The cursor goes on to the start of another area, which lies behind the old end.
      have hbound := hends e₂ he₂ havail₂
      have hge := BitVec.le_def.mp hge
      rw [harea] at hs he' hge
      refine ⟨⟨hareas, hidx, e₂, he₂, havail₂, by rw [hs], ?_, ?_⟩, ?_⟩
      · rw [hs]
        exact Nat.le_add_right _ _
      · rw [he']
        exact MmapEntry.stop_toNat (by omega)
      · rw [hs]
        omega

/-- A failed allocation leaves the cursor in its entry, or at the end of it. -/
theorem InEntry.stuck (h : InEntry entries la) (hends : EndsBelow (2 ^ 64 - 4096) entries)
    (hstuck : Stuck la la') (hidx : la'.physMmAreaIdx ≤ la.physMmAreaNum)
    (hsame : SameAreas la la') :
    InEntry entries la' ∧ la.mmAllocStart.toNat ≤ la'.mmAllocStart.toNat := by
  have hareas : ∀ i < la'.physMmAreaNum, ∃ e ∈ entries, e.Available ∧
      la'.physMmAreaArr i = ⟨e.addr, e.addr + e.len⟩ := by
    rw [hsame.arr, hsame.num]
    exact h.areas
  rw [← hsame.num] at hidx
  cases hstuck with
  | same hs he' => exact ⟨⟨hareas, hidx, by rw [hs, he']; exact h.cursor⟩, by rw [hs]⟩
  | spent hroom hs he' =>
      obtain ⟨e, he, havail, hpage, hend, hnat⟩ := h.room hends hroom
      have hlow : e.addr.toNat ≤ la.mmAllocStart.toNat := hpage.1
      have hhigh : la.mmAllocStart.toNat + 4096 ≤ e.stop := hpage.2
      rw [← hs] at hnat
      exact ⟨⟨hareas, hidx, e, he, havail, by omega, by omega, by rw [he', hend]⟩, by omega⟩

/-- One allocation: it fails, or its page lies in an entry in front of the cursor. -/
theorem InEntry.alloc (h : InEntry entries la) (hends : EndsBelow (2 ^ 64 - 4096) entries) :
    let r := mmInitPhysAllocLinear la PAGE_SIZE
    InEntry entries r.1 ∧ la.mmAllocStart.toNat ≤ r.1.mmAllocStart.toNat ∧ (r.2 = 0 ∨
      r.2 = la.mmAllocStart ∧ (∃ e ∈ entries, e.Available ∧ e.HoldsPage r.2) ∧
      r.2.toNat + 4096 ≤ r.1.mmAllocStart.toNat) := by
  obtain ⟨hidx, hcase⟩ := allocLinear_cases h.idx
  have hsame := allocLinear_same la PAGE_SIZE
  -- The record of the results is no part of the invariant.
  have hrecord : ∀ {log}, InEntry entries (allocLinear la PAGE_SIZE).1 →
      InEntry entries { (allocLinear la PAGE_SIZE).1 with returned := log } :=
    fun hI => ⟨hI.areas, hI.idx, hI.cursor⟩
  rcases hcase with ⟨hzero, hstuck⟩ | ⟨hchunk, hroom, hadv⟩
  · obtain ⟨hI, hle⟩ := h.stuck hends hstuck hidx hsame
    exact ⟨hrecord hI, hle, Or.inl hzero⟩
  · obtain ⟨hI, hle⟩ := h.advance hends hroom hadv hidx hsame
    obtain ⟨e, he, havail, hpage, -⟩ := h.room hends hroom
    refine ⟨hrecord hI, (Nat.le_add_right _ _).trans hle, Or.inr ⟨hchunk, ⟨e, he, havail, ?_⟩, ?_⟩⟩
    · show e.HoldsPage (allocLinear la PAGE_SIZE).2
      rwa [hchunk]
    · show (allocLinear la PAGE_SIZE).2.toNat + 4096 ≤ (allocLinear la PAGE_SIZE).1.mmAllocStart.toNat
      rwa [hchunk]

/-- The results that are not NULL, from any cursor on: they rise by a page or more,
the first one is at or behind the cursor, and each lies in an entry. -/
theorem InEntry.results (h : InEntry entries la) (hends : EndsBelow (2 ^ 64 - 4096) entries) (n : Nat) :
    let cs := (linearResults n la).filter (· ≠ 0)
    cs.Pairwise (fun c c' => c.toNat + 4096 ≤ c'.toNat) ∧
      (∀ c ∈ cs, la.mmAllocStart.toNat ≤ c.toNat) ∧
      ∀ c ∈ cs, ∃ e ∈ entries, e.Available ∧ e.HoldsPage c := by
  induction n generalizing la with
  | zero => exact ⟨List.Pairwise.nil, by simp [linearResults], by simp [linearResults]⟩
  | succ n ih =>
      obtain ⟨hI, hle, hcase⟩ := h.alloc hends
      obtain ⟨hpair, hahead, hin⟩ := ih hI
      have hbehind : ∀ c ∈ (linearResults n (mmInitPhysAllocLinear la PAGE_SIZE).1).filter (· ≠ 0),
          la.mmAllocStart.toNat ≤ c.toNat := fun c hc => hle.trans (hahead c hc)
      show List.Pairwise _ (List.filter _ ((mmInitPhysAllocLinear la PAGE_SIZE).2 :: _)) ∧
        (∀ c ∈ List.filter _ ((mmInitPhysAllocLinear la PAGE_SIZE).2 :: _), _) ∧
        ∀ c ∈ List.filter _ ((mmInitPhysAllocLinear la PAGE_SIZE).2 :: _), _
      by_cases hzero : (mmInitPhysAllocLinear la PAGE_SIZE).2 = 0
      · rw [List.filter_cons_of_neg (by simpa using hzero)]
        exact ⟨hpair, hbehind, hin⟩
      · obtain ⟨hchunk, hpage, hnext⟩ := hcase.resolve_left hzero
        rw [List.filter_cons_of_pos (by simpa using hzero)]
        refine ⟨List.pairwise_cons.mpr ⟨fun c hc => hnext.trans (hahead c hc), hpair⟩, ?_, ?_⟩
        · exact List.forall_mem_cons.mpr ⟨by rw [hchunk], hbehind⟩
        · exact List.forall_mem_cons.mpr ⟨hpage, hin⟩

/-- Without a matching area the cursor is at `-1`, and the check of the size wraps
around to a value above the end. -/
theorem linearResults_idle (hs : la.mmAllocStart = -1) (he : la.mmAllocEnd = 0) (n : Nat) :
    ∀ c ∈ linearResults n la, c = 0 := by
  induction n generalizing la with
  | zero => simp [linearResults]
  | succ n ih =>
      have hfail : allocLinear la PAGE_SIZE = (la, 0) := by
        rw [allocLinear, if_neg (by decide)]
        dsimp only
        rw [hs, he, if_pos (by decide)]
      refine List.forall_mem_cons.mpr ⟨congrArg Prod.snd hfail, ih ?_ ?_⟩
      · show (allocLinear la PAGE_SIZE).1.mmAllocStart = -1
        rw [hfail, hs]
      · show (allocLinear la PAGE_SIZE).1.mmAllocEnd = 0
        rw [hfail, he]

/-- After the loop over the areas, the cursor is in an entry, if one matches. -/
theorem Scanned.inEntry (h : Scanned first entries la) (hends : EndsBelow (2 ^ 64 - 4096) entries)
    (hin : ∃ e ∈ entries, e.Available ∧ e.Holds first.toNat) :
    InEntry entries la ∧ la.mmAllocStart = first := by
  obtain ⟨hs, e, he, havail, hholds, hend⟩ := h.cursor hin
  have hbound := hends e he havail
  have hhigh : first.toNat < e.stop := hholds.2
  refine ⟨⟨h.areas, by rw [h.idx]; exact Nat.zero_le _, e, he, havail, ?_, ?_, ?_⟩, hs⟩
  · rw [hs]
    exact hholds.1
  · rw [hs]
    omega
  · rw [hend]
    exact MmapEntry.stop_toNat (by omega)

end

/-- The linear allocator hands out no memory twice and none outside the available
areas. The areas are the available entries of any list; the page allocations are as
many as one likes. -/
theorem linearResults_inside (first : Word) (entries : List MmapEntry)
    (hfit : entries.countP (fun e => decide e.Available) ≤ PHYS_MM_SEGS_NUM_MAX)
    (hends : EndsBelow (2 ^ 52) entries) :
    ∃ la, entries.foldlM (scanEntry first) LinearAlloc.static = some la ∧ ∀ n,
      let cs := (linearResults n la).filter (· ≠ 0)
      cs.Pairwise (fun c c' => c.toNat + 4096 ≤ c'.toNat) ∧
        (∀ c ∈ cs, first.toNat ≤ c.toNat) ∧
        (∀ c ∈ cs, ∃ e ∈ entries, e.Available ∧ e.HoldsPage c) ∧
        ((∀ e ∈ entries, e.Available → ¬ e.Holds first.toNat) →
          ∀ c ∈ linearResults n la, c = 0) := by
  have hsome := (foldlM_scanEntry_isSome first entries LinearAlloc.static (Nat.zero_le _)).mpr (by
    show 0 + _ ≤ _
    omega)
  obtain ⟨la, hscan⟩ := Option.isSome_iff_exists.mp hsome
  have hends : EndsBelow (2 ^ 64 - 4096) entries := hends.mono (by decide)
  have hdone := scanned_entries (fun e he ha => (hends e he ha).trans (by decide)) hscan
  refine ⟨la, hscan, fun n => ?_⟩
  by_cases hin : ∃ e ∈ entries, e.Available ∧ e.Holds first.toNat
  · -- The cursor starts in an available entry, and slides from area to area.
    obtain ⟨hI, hs⟩ := hdone.inEntry hends hin
    obtain ⟨hpair, hahead, hpages⟩ := hI.results hends n
    rw [hs] at hahead
    refine ⟨hpair, hahead, hpages, fun hno => ?_⟩
    obtain ⟨e, he, havail, hholds⟩ := hin
    exact absurd hholds (hno e he havail)
  · -- No entry holds the first free byte: the cursor stays at 0, and every call fails.
    have hno : ∀ e ∈ entries, e.Available → ¬ e.Holds first.toNat :=
      fun e he havail hholds => hin ⟨e, he, havail, hholds⟩
    obtain ⟨hs, he⟩ := hdone.idle hno
    have hnull := linearResults_idle hs he n
    have hnil : (linearResults n la).filter (· ≠ 0) = [] :=
      List.filter_eq_nil_iff.mpr fun c hc => by simpa using hnull c hc
    simp only [hnil]
    exact ⟨List.Pairwise.nil, by simp, by simp, fun _ => hnull⟩

/-- Two overlapping areas and a third one behind a hole. Two pages come from the first area and
one from the third, and then there is none. -/
theorem linearResults_inside_two :
    let entries : List MmapEntry :=
      [⟨0x1000, 0x2000, 1⟩, ⟨0x6000, 0x1000, 2⟩, ⟨0x2000, 0x3000, 1⟩, ⟨0x8000, 0x2000, 1⟩]
    ∃ la, entries.foldlM (scanEntry 0x1000) LinearAlloc.static = some la ∧
      linearResults 5 la = [0x1000, 0x2000, 0x8000, 0, 0] ∧
      ([0x1000, 0x2000, 0x8000] : List Word).Pairwise (fun c c' => c.toNat + 4096 ≤ c'.toNat) ∧
      ∀ c ∈ ([0x1000, 0x2000, 0x8000] : List Word), ∃ e ∈ entries, e.Available ∧ e.HoldsPage c := by
  intro entries
  have hends : EndsBelow (2 ^ 52) entries := by
    intro e he _
    simp only [entries, List.mem_cons, List.not_mem_nil, or_false] at he
    obtain rfl | rfl | rfl | rfl := he <;> decide
  obtain ⟨la, hscan, hall⟩ := linearResults_inside 0x1000 entries (by decide) hends
  have hpages : (entries.foldlM (scanEntry 0x1000) LinearAlloc.static).map (linearResults 5)
      = some [0x1000, 0x2000, 0x8000, 0, 0] := by decide
  rw [hscan, Option.map_some, Option.some.injEq] at hpages
  have hfilter : (linearResults 5 la).filter (· ≠ 0) = [0x1000, 0x2000, 0x8000] := by
    rw [hpages]
    decide
  obtain ⟨hapart, -, hinside, -⟩ := hall 5
  rw [hfilter] at hapart hinside
  exact ⟨la, hscan, hpages, hapart, hinside⟩

end SumiOS
