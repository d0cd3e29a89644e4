import SumiOS.Boot
import SumiOS.Proofs.PageTable.Lookup

/-!
# `SumiOS.Proofs.PageTable.Exhausted`: mapping without memory

The mapping functions do not look at the result of their allocator. When it fails,
its result (0 for the linear allocators, -1 for `mm_phys_alloc`) is written into
the entry and cleared as if it were a page. `newTables` records what a call does to
its upper levels, and `MapsSoundly` is what one expects of that.

A call in which an allocation fails never meets it, whatever the tables hold: the
cleared bytes are no page that the call was given (`not_mapsSoundly_of_fails`). A call
in which none fails always does, on a tree of tables and with fresh pages
(`mapsSoundly_of_fresh`).
-/

set_option autoImplicit false

namespace SumiOS

open Lib

/-! ### What a call does to its upper levels -/

/-- A table that one level links: the result of the allocator, the first of the
4096 bytes that are cleared, and the entry as the level leaves it. -/
structure NewTable where
  page : Word
  cleared : Word
  entry : Word

section

variable {σ : Type} (window : Word) (alloc : σ → σ × Word)

/-- The table that a level links, if its entry is empty. -/
def levelTables (m : Mem) (s : σ) (table i attr : Word) : List NewTable :=
  let e := entryAddr window table i
  if m.read64 e = 0 then
    let page := (alloc s).2
    [⟨page, (m.write64 e page).read64 e + window,
      (ensureTable window alloc m s table i attr).1.read64 e⟩]
  else []

/-- The tables that a call of a mapping function links. -/
def newTables (m : Mem) (s : σ) (pgtable va attr : Word) : List NewTable :=
  let r₁ := ensureTable window alloc m s pgtable (pgdEntry va) attr
  let pud := nextTable window r₁.1 pgtable (pgdEntry va)
  let r₂ := ensureTable window alloc r₁.1 r₁.2 pud (pudEntry va) attr
  let pmd := nextTable window r₂.1 pud (pudEntry va)
  levelTables window alloc m s pgtable (pgdEntry va) attr ++
    levelTables window alloc r₁.1 r₁.2 pud (pudEntry va) attr ++
    levelTables window alloc r₂.1 r₂.2 pmd (pmdEntry va) attr

end

/-- An allocation of the call fails. -/
def Fails (bad : Word) (new : List NewTable) : Prop := ∃ t ∈ new, t.page = bad

/-- The leaf that the walk comes to, 0 when it meets an empty entry. -/
def leafOf (window : Word) (m : Mem) (pgtable va : Word) : Word :=
  (pgtableWalk window m pgtable va).getD 0

/-- What a call should do, with `bad` for the result of an allocation that fails:
the entries it installs refer to pages it was given, it clears only such pages,
and it leaves the translation of every other page alone. -/
structure MapsSoundly (window bad : Word) (new : List NewTable) (m m' : Mem)
    (pgtable va : Word) : Prop where
  installs : ∀ t ∈ new, t.entry ≠ 0 →
    ∃ t' ∈ new, t'.page ≠ bad ∧ t.entry &&& PAGE_MASK = t'.page
  clears : ∀ t ∈ new, ∃ t' ∈ new, t'.page ≠ bad ∧ ∀ i < 4096,
    (t.cleared + BitVec.ofNat 64 i - (t'.page + window)).toNat < 4096
  keeps : ∀ va', ¬ SameFrom PTE_OFFSET va' va →
    leafOf window m' pgtable va' = leafOf window m pgtable va'

section

variable {σ : Type} {window bad : Word} {alloc : σ → σ × Word} {m : Mem} {s : σ}
  {table i pgtable va pa attr : Word} {t : NewTable}

/-- Where the entry is in use already, a level creates no table. -/
theorem levelTables_used (h : m.read64 (entryAddr window table i) ≠ 0) :
    levelTables window alloc m s table i attr = [] := if_neg h

/-- What a level clears is its result, taken as a page. -/
theorem levelTables_empty (h : m.read64 (entryAddr window table i) = 0) :
    levelTables window alloc m s table i attr =
      [⟨(alloc s).2, (alloc s).2 + window,
        (ensureTable window alloc m s table i attr).1.read64 (entryAddr window table i)⟩] := by
  have hread : (m.write64 (entryAddr window table i) (alloc s).2).read64 (entryAddr window table i)
      = (alloc s).2 := read64_write64_self
  refine (if_pos h).trans ?_
  rw [hread]

/-- A table that a level creates is cleared at its own address in the window. -/
theorem levelTables_cleared (ht : t ∈ levelTables window alloc m s table i attr) :
    t.cleared = t.page + window := by
  by_cases hz : m.read64 (entryAddr window table i) = 0
  · rw [levelTables_empty hz, List.mem_singleton] at ht
    rw [ht]
  · rw [levelTables_used hz] at ht
    exact absurd ht List.not_mem_nil

/-- So are all tables of a call, whichever levels they were created for. -/
theorem newTables_cleared (ht : t ∈ newTables window alloc m s pgtable va attr) :
    t.cleared = t.page + window := by
  rcases List.mem_append.mp ht with ht | ht
  · rcases List.mem_append.mp ht with ht | ht
    · exact levelTables_cleared ht
    · exact levelTables_cleared ht
  · exact levelTables_cleared ht

/-- The tables of the three levels, from the states that the call comes through. -/
theorem Walked.newTables_eq {r₁ r₂ r₃ : Mem × σ} {pud pmd pte : Word}
    (hw : Walked window alloc m s pgtable va attr r₁ r₂ r₃ pud pmd pte) :
    newTables window alloc m s pgtable va attr =
      levelTables window alloc m s pgtable (pgdEntry va) attr ++
        levelTables window alloc r₁.1 r₁.2 pud (pudEntry va) attr ++
        levelTables window alloc r₂.1 r₂.2 pmd (pmdEntry va) attr := by
  obtain ⟨rfl, rfl, rfl, rfl, rfl, rfl⟩ := hw
  rfl

/-- The same number of bytes inside a page are that page. -/
theorem page_eq_of_covers {p q : Word}
    (h : ∀ i < 4096, (p + window + BitVec.ofNat 64 i - (q + window)).toNat < 4096) : p = q := by
  have hfirst := h 0 (by decide)
  have hlast := h 4095 (by decide)
  bv_omega

/-- A call in which an allocation fails clears memory outside the pages it was given. -/
theorem not_mapsSoundly_of_fails {m' : Mem}
    (hfails : Fails bad (newTables window alloc m s pgtable va attr)) :
    ¬ MapsSoundly window bad (newTables window alloc m s pgtable va attr) m m' pgtable va := by
  intro hsound
  obtain ⟨t, ht, hbad⟩ := hfails
  obtain ⟨t', -, hne, hcovers⟩ := hsound.clears t ht
  rw [newTables_cleared ht, hbad] at hcovers
  exact hne (page_eq_of_covers hcovers).symm

/-! ### Calls in which no allocation fails -/

/-- The record of the results changes nothing about the tables that a level creates. -/
theorem levelTables_logged (log : List Word) :
    levelTables window (logged alloc) m (s, log) table i attr
      = levelTables window alloc m s table i attr := by
  obtain ⟨hmem, -⟩ := ensureTable_logged window alloc m (s, log) table i attr
  simp only [levelTables, hmem, logged]

/-- The tables that a call creates do not depend on whether a log is kept. -/
theorem newTables_logged (log : List Word) :
    newTables window (logged alloc) m (s, log) pgtable va attr
      = newTables window alloc m s pgtable va attr := by
  have hlevel : ∀ (m : Mem) (s : σ × List Word) (table i : Word),
      levelTables window (logged alloc) m s table i attr
        = levelTables window alloc m s.1 table i attr := fun m s table i => levelTables_logged s.2
  simp only [newTables, hlevel, ensureTable_logged]

variable {logOf : σ → List Word} {base : Word → Prop} {T : List (BitVec 9) → Option Word}
  {π : List (BitVec 9)} {p : Word} {k : BitVec 9}

/-- With a fresh page, the entry of a level refers to that page and the page is empty, which is
what a level owes to the next one. -/
theorem levelTables_entry (hlog : ∀ s, logOf (alloc s).1 = (alloc s).2 :: logOf s)
    (hattr : attr &&& PAGE_MASK = 0) (hT : Tables window (fun _ => True) base (logOf s) m T)
    (hp : T π = some p) {r : Mem × σ}
    (hr : ensureTable window alloc m s p (k.setWidth 64) attr = r) (hfresh : Fresh base (logOf r.2))
    (ht : t ∈ levelTables window alloc m s p (k.setWidth 64) attr) :
    t.entry &&& PAGE_MASK = t.page := by
  by_cases hz : view window m p k = 0
  · rw [levelTables_empty hz, List.mem_singleton] at ht
    have hlogr : logOf r.2 = (alloc s).2 :: logOf s := by
      rw [← hr, ensureTable_empty hz, ← hlog]
    rw [hlogr] at hfresh
    have hq := hfresh.aligned _ List.mem_cons_self
    have hne : p ≠ (alloc s).2 := by
      rintro rfl
      rcases hT.used π _ hp with hb | hm
      · exact hfresh.new _ List.mem_cons_self hb
      · exact (List.nodup_cons.mp hfresh.nodup).1 hm
    obtain ⟨hwrite, -, -⟩ := view_ensureTable window attr hz rfl (hT.aligned π p hp) hq hne
    subst ht
    show view window _ p k &&& PAGE_MASK = (alloc s).2
    rw [hwrite, hq.or_and hattr]
  · rw [levelTables_used hz] at ht
    exact absurd ht List.not_mem_nil

/-- On a tree of tables, a call whose pages are fresh is sound if none of them is the
result of a failure. -/
theorem mapsSoundly_of_log (hlog : ∀ s, logOf (alloc s).1 = (alloc s).2 :: logOf s)
    (hattr : attr &&& PAGE_MASK = 0) (hP : attr &&& PAGE_ATTR_P = PAGE_ATTR_P)
    (hT : Tables window (fun _ => True) base (logOf s) m T) (hroot : T [] = some pgtable)
    (hfresh : Fresh base (logOf (pgtableMap window alloc m s pgtable va pa attr).2))
    (hok : ¬ Fails bad (newTables window alloc m s pgtable va attr)) :
    MapsSoundly window bad (newTables window alloc m s pgtable va attr) m
      (pgtableMap window alloc m s pgtable va pa attr).1 pgtable va := by
  have hgiven : ∀ t ∈ newTables window alloc m s pgtable va attr, t.page ≠ bad :=
    fun t ht hbad => hok ⟨t, ht, hbad⟩
  refine ⟨fun t ht _ => ⟨t, ht, hgiven t ht, ?_⟩, fun t ht => ⟨t, ht, hgiven t ht, fun i hi => ?_⟩,
    fun va' hother => ?_⟩
  · obtain ⟨r₁, r₂, r₃, pud, pmd, pte, hw, heq⟩ :=
      pgtableMap_walked window alloc m s pgtable va pa attr
    rw [heq] at hfresh
    obtain ⟨T₁, T₂, T₃, ⟨hT₁, hT₂, -⟩, -, ⟨hpud, hpmd, -⟩, -⟩ :=
      hw.levels hlog hattr hP hT hroot trivial hfresh
    obtain ⟨-, hl₂, hl₃⟩ := hw.logs hlog
    rw [hw.newTables_eq, pgdEntry_eq, pudEntry_eq, pmdEntry_eq] at ht
    obtain ⟨hfirst, -, hsecond, -, hthird, -⟩ := hw
    rw [pgdEntry_eq] at hfirst
    rw [pudEntry_eq] at hsecond
    rw [pmdEntry_eq] at hthird
    -- The table is new on one of the three levels, and its entry was written there.
    rcases List.mem_append.mp ht with ht | ht
    · rcases List.mem_append.mp ht with ht | ht
      · exact levelTables_entry hlog hattr hT hroot hfirst (hfresh.suffix (hl₂.trans hl₃)) ht
      · exact levelTables_entry hlog hattr hT₁ hpud hsecond (hfresh.suffix hl₃) ht
    · exact levelTables_entry hlog hattr hT₂ hpmd hthird hfresh ht
  · rw [newTables_cleared ht]
    -- The bytes that are cleared are those of the page itself.
    bv_omega
  · obtain ⟨T', hT', hsub, heffect⟩ := pgtableMap_spec hlog hattr hP hT hroot trivial rfl hfresh
    have hne : pathOf va' ≠ pathOf va := fun e => hother ((sameFrom_iff va' va 4 (by decide)).mpr e)
    unfold leafOf
    rw [pgtableWalk_getD hT' (hsub _ _ hroot) trivial, pgtableWalk_getD hT hroot trivial]
    exact heffect.keep _ hne fun hmem => pathOf_not_inner hmem.1

/-- The same for any allocator, by its record: what counts is that the pages of this one call are
fresh. -/
theorem mapsSoundly_of_fresh (hattr : attr &&& PAGE_MASK = 0)
    (hP : attr &&& PAGE_ATTR_P = PAGE_ATTR_P)
    (hT : Tables window (fun _ => True) base [] m T) (hroot : T [] = some pgtable)
    (hfresh : Fresh base (tablePages window alloc m s pgtable [⟨va, pa, attr⟩]))
    (hok : ¬ Fails bad (newTables window alloc m s pgtable va attr)) :
    MapsSoundly window bad (newTables window alloc m s pgtable va attr) m
      (pgtableMap window alloc m s pgtable va pa attr).1 pgtable va := by
  rw [← newTables_logged []] at hok ⊢
  rw [← (pgtableMap_logged window alloc m (s, []) pgtable va pa attr).1]
  exact mapsSoundly_of_log (fun _ => rfl) hattr hP hT hroot hfresh hok

end

/-- When a call that leaves the memory `m'` is sound: never when an allocation fails,
always when none does and the tables are a tree and the pages fresh. -/
structure SoundUnlessFails {σ : Type} (window bad : Word) (alloc : σ → σ × Word) (m m' : Mem)
    (s : σ) (pgtable va pa attr : Word) : Prop where
  unsound : Fails bad (newTables window alloc m s pgtable va attr) →
    ¬ MapsSoundly window bad (newTables window alloc m s pgtable va attr) m m' pgtable va
  sound : ¬ Fails bad (newTables window alloc m s pgtable va attr) →
    attr &&& PAGE_MASK = 0 → attr &&& PAGE_ATTR_P = PAGE_ATTR_P →
    ∀ base T, Tables window (fun _ => True) base [] m T → T [] = some pgtable →
      Fresh base (tablePages window alloc m s pgtable [⟨va, pa, attr⟩]) →
      MapsSoundly window bad (newTables window alloc m s pgtable va attr) m m' pgtable va

end SumiOS
