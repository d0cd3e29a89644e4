import SumiOS.Proofs.PageTable.Map

/-!
# `SumiOS.Proofs.PageTable.Installs`: the tables that a call installs

A mapping call fills empty upper-level entries. `mapInstalls` lists what it puts there: the
page that the allocator returned, the page that the call clears, and the value of the entry
after it. The pages are what `logged` records (`pgtableMap_installs`).

The entry drops the low 12 bits of the page when it is followed. So an entry leads back to
its page only when the page is aligned, and when all pages are aligned and fresh, it does
(`mapInstalls_spec`).
-/

set_option autoImplicit false

namespace SumiOS

open Lib

/-- A table that was installed: the page that the allocator returned, the page that was
cleared, and the entry. -/
structure TableInstall where
  page : Word
  cleared : Word
  entry : Word

/-- The table that the walk finds behind the entry. -/
def TableInstall.table (x : TableInstall) : Word := x.entry &&& PAGE_MASK

/-- The address lies in the 4096 bytes of that table. -/
def TableInstall.Covers (x : TableInstall) (a : Word) : Prop := (a - x.table).toNat < 4096

/-- Each entry leads to the page that was allocated and cleared, and no two tables overlap. -/
structure TablesApart (installs : List TableInstall) : Prop where
  exact : ∀ x ∈ installs, x.table = x.page ∧ x.table = x.cleared
  apart : installs.Pairwise fun x y => ∀ a, ¬ (x.Covers a ∧ y.Covers a)

section Installs

variable {σ : Type} (window : Word) (alloc : σ → σ × Word)

/-- What one level of a mapping call installs. -/
def levelInstalls (m : Mem) (s : σ) (table i attr : Word) : List TableInstall :=
  let e := entryAddr window table i
  if m.read64 e = 0 then
    [⟨(alloc s).2, (m.write64 e (alloc s).2).read64 e,
      (ensureTable window alloc m s table i attr).1.read64 e⟩]
  else []

/-- What a mapping call installs. -/
def mapInstalls (m : Mem) (s : σ) (pgtable va attr : Word) : List TableInstall :=
  let pgd := pgtable
  let r₁ := ensureTable window alloc m s pgd (pgdEntry va) attr
  let pud := nextTable window r₁.1 pgd (pgdEntry va)
  let r₂ := ensureTable window alloc r₁.1 r₁.2 pud (pudEntry va) attr
  let pmd := nextTable window r₂.1 pud (pudEntry va)
  levelInstalls window alloc m s pgd (pgdEntry va) attr ++
    (levelInstalls window alloc r₁.1 r₁.2 pud (pudEntry va) attr ++
      levelInstalls window alloc r₂.1 r₂.2 pmd (pmdEntry va) attr)

end Installs

section Record

variable {σ : Type} {window : Word} {alloc : σ → σ × Word} {m : Mem} {s : σ × List Word}
  {table i pgtable va attr : Word}

/-- What a level installs does not depend on whether a log is kept. -/
theorem levelInstalls_logged : levelInstalls window (logged alloc) m s table i attr =
    levelInstalls window alloc m s.1 table i attr := by
  unfold levelInstalls
  rw [(ensureTable_logged window alloc m s table i attr).1]
  rfl

/-- Neither does what a call installs, level by level. -/
theorem mapInstalls_logged : mapInstalls window (logged alloc) m s pgtable va attr =
    mapInstalls window alloc m s.1 pgtable va attr := by
  simp only [mapInstalls, levelInstalls_logged, ensureTable_logged]

/-- The record of a level gets the page that the level installs. -/
theorem ensureTable_installs : (ensureTable window (logged alloc) m s table i attr).2.2 =
    ((levelInstalls window alloc m s.1 table i attr).map TableInstall.page).reverse ++ s.2 := by
  unfold levelInstalls ensureTable
  by_cases h : m.read64 (entryAddr window table i) = 0
  · rw [if_pos h, if_pos h]
    rfl
  · rw [if_neg h, if_neg h]
    rfl

/-- The record of a call gets the pages that the call installs. -/
theorem pgtableMap_installs (window : Word) (alloc : σ → σ × Word) (m : Mem) (s : σ × List Word)
    (pgtable va pa attr : Word) : (pgtableMap window (logged alloc) m s pgtable va pa attr).2.2 =
    ((mapInstalls window alloc m s.1 pgtable va attr).map TableInstall.page).reverse ++ s.2 := by
  simp only [pgtableMap, mapInstalls, ensureTable_installs, ensureTable_logged, List.map_append,
    List.reverse_append, List.append_assoc]

/-- A record that the allocator's own log contains stays so over any number of allocations, as both
get the same result at their heads. -/
theorem logged_iterate {logOf : σ → List Word} (hlog : ∀ s, logOf (alloc s).1 = (alloc s).2 :: logOf s)
    (h : List.Sublist s.2 (logOf s.1)) (n : Nat) :
    List.Sublist ((fun s => (logged alloc s).1)^[n] s).2
      (logOf ((fun s => (logged alloc s).1)^[n] s).1) := by
  induction n with
  | zero => exact h
  | succ n ih =>
      rw [Function.iterate_succ_apply']
      generalize (fun s => (logged alloc s).1)^[n] s = s' at ih ⊢
      show List.Sublist ((alloc s'.1).2 :: s'.2) (logOf (alloc s'.1).1)
      rw [hlog]
      exact ih.cons_cons _

/-- The pages that a call installs are results of the allocator, in their order. -/
theorem mapInstalls_sublist {logOf : σ → List Word}
    (hlog : ∀ s, logOf (alloc s).1 = (alloc s).2 :: logOf s) (s : σ) (pa : Word) {tabs : List Word}
    (h : List.Sublist tabs (logOf s)) :
    List.Sublist (((mapInstalls window alloc m s pgtable va attr).map TableInstall.page).reverse ++ tabs)
      (logOf (pgtableMap window alloc m s pgtable va pa attr).2) := by
  obtain ⟨n, -, hn⟩ := pgtableMap_allocs window (logged alloc) m (s, tabs) pgtable va pa attr
  have hpages := pgtableMap_installs window alloc m (s, tabs) pgtable va pa attr
  have hstate := (pgtableMap_logged window alloc m (s, tabs) pgtable va pa attr).2
  dsimp only at hpages hstate
  rw [← hpages, ← hstate, hn]
  exact logged_iterate hlog h n

end Record

/-! ### Aligned pages -/

section Aligned

variable {σ : Type} {window : Word} {alloc : σ → σ × Word} {logOf : σ → List Word}
  {top : BitVec 9 → Prop} {base : Word → Prop} {m : Mem} {s : σ}
  {T : List (BitVec 9) → Option Word} {π : List (BitVec 9)} {p pgtable va attr : Word} {i : BitVec 9}

/-- The page that is cleared is the one that the allocator returned. -/
theorem levelInstalls_cleared {table j : Word} :
    ∀ x ∈ levelInstalls window alloc m s table j attr, x.cleared = x.page := by
  unfold levelInstalls
  dsimp only
  split
  · exact List.forall_mem_singleton.mpr read64_write64_self
  · exact fun x hx => absurd hx List.not_mem_nil

/-- A level below a table of the tree installs its page, when it is aligned and fresh. -/
theorem levelInstalls_spec (hlog : ∀ s, logOf (alloc s).1 = (alloc s).2 :: logOf s)
    (hattr : attr &&& PAGE_MASK = 0) (hT : Tables window top base (logOf s) m T) (hp : T π = some p)
    {r : Mem × σ} (hr : ensureTable window alloc m s p (i.setWidth 64) attr = r)
    (hfresh : Fresh base (logOf r.2)) :
    ∀ x ∈ levelInstalls window alloc m s p (i.setWidth 64) attr, x.table = x.page := by
  unfold levelInstalls
  dsimp only
  split
  · rename_i hz
    have hz : view window m p i = 0 := hz
    refine List.forall_mem_singleton.mpr ?_
    rw [ensureTable_newLog hlog hz hr] at hfresh
    have hq := hfresh.aligned _ List.mem_cons_self
    -- The new page is none of the tables, so clearing it leaves the entry alone.
    have hne : p ≠ (alloc s).2 := fun he => hT.ne_new hfresh π (he ▸ hp)
    exact (nextTable_new hattr hz rfl (hT.aligned π p hp) hq hne).1
  · exact fun x hx => absurd hx List.not_mem_nil

/-- A call on a tree whose pages are aligned and fresh installs these pages. -/
theorem mapInstalls_spec (hlog : ∀ s, logOf (alloc s).1 = (alloc s).2 :: logOf s)
    (hattr : attr &&& PAGE_MASK = 0) (hP : attr &&& PAGE_ATTR_P = PAGE_ATTR_P)
    (hT : Tables window top base (logOf s) m T) (hroot : T [] = some pgtable)
    (htop : top (indexOf PGD_OFFSET va)) (pa : Word)
    (hfresh : Fresh base (logOf (pgtableMap window alloc m s pgtable va pa attr).2)) :
    ∀ x ∈ mapInstalls window alloc m s pgtable va attr, x.table = x.page := by
  obtain ⟨r₁, r₂, r₃, pud, pmd, pte, hw, heq⟩ :=
    pgtableMap_walked window alloc m s pgtable va pa attr
  rw [heq] at hfresh
  have hfresh : Fresh base (logOf r₃.2) := hfresh
  obtain ⟨-, hl₂, hl₃⟩ := hw.logs hlog
  obtain ⟨T₁, T₂, T₃, ⟨hT₁, hT₂, -⟩, -, ⟨hpud, hpmd, -⟩, -⟩ :=
    hw.levels hlog hattr hP hT hroot htop hfresh
  obtain ⟨hfirst, htoPud, hsecond, htoPmd, hthird, -⟩ := hw
  have hlist : mapInstalls window alloc m s pgtable va attr =
      levelInstalls window alloc m s pgtable (pgdEntry va) attr ++
        (levelInstalls window alloc r₁.1 r₁.2 pud (pudEntry va) attr ++
          levelInstalls window alloc r₂.1 r₂.2 pmd (pmdEntry va) attr) := by
    simp only [mapInstalls, hfirst, htoPud, hsecond, htoPmd]
  rw [pgdEntry_eq] at hfirst
  rw [pudEntry_eq] at hsecond
  rw [pmdEntry_eq] at hthird
  rw [hlist, pgdEntry_eq, pudEntry_eq, pmdEntry_eq]
  refine List.forall_mem_append.mpr ⟨?_, List.forall_mem_append.mpr ⟨?_, ?_⟩⟩
  · exact levelInstalls_spec hlog hattr hT hroot hfirst (hfresh.suffix (hl₂.trans hl₃))
  · exact levelInstalls_spec hlog hattr hT₁ hpud hsecond (hfresh.suffix hl₃)
  · exact levelInstalls_spec hlog hattr hT₂ hpmd hthird hfresh

/-- The same with a list of the table pages so far, whatever else the allocator returned. -/
theorem mapInstalls_tree {tabs : List Word} (alloc : σ → σ × Word) (s : σ) (pa : Word)
    (hattr : attr &&& PAGE_MASK = 0) (hP : attr &&& PAGE_ATTR_P = PAGE_ATTR_P)
    (hT : Tables window top base tabs m T) (hroot : T [] = some pgtable)
    (htop : top (indexOf PGD_OFFSET va)) :
    let installs := mapInstalls window alloc m s pgtable va attr
    let tabs' := (installs.map TableInstall.page).reverse ++ tabs
    Fresh base tabs' → (∀ x ∈ installs, x.table = x.page) ∧
      ∃ T', Tables window top base tabs' (pgtableMap window alloc m s pgtable va pa attr).1 T' ∧
        T' [] = some pgtable := by
  intro installs tabs' hfresh
  have hlog : ∀ s : σ × List Word, (logged alloc s).1.2 = (logged alloc s).2 :: s.2 := fun _ => rfl
  have hpages : (pgtableMap window (logged alloc) m (s, tabs) pgtable va pa attr).2.2 = tabs' :=
    pgtableMap_installs window alloc m (s, tabs) pgtable va pa attr
  have hmem := (pgtableMap_logged window alloc m (s, tabs) pgtable va pa attr).1
  have hsame : mapInstalls window (logged alloc) m (s, tabs) pgtable va attr = installs :=
    mapInstalls_logged
  rw [← hpages] at hfresh ⊢
  obtain ⟨T', hT', hsub, -⟩ := pgtableMap_spec hlog hattr hP hT hroot htop rfl hfresh
  rw [hmem] at hT'
  rw [← hsame]
  exact ⟨mapInstalls_spec hlog hattr hP hT hroot htop pa hfresh, T', hT', hsub _ _ hroot⟩

/-- Every table that is installed is the one that was cleared. -/
theorem mapInstalls_cleared : ∀ x ∈ mapInstalls window alloc m s pgtable va attr,
    x.cleared = x.page :=
  List.forall_mem_append.mpr ⟨levelInstalls_cleared, List.forall_mem_append.mpr
    ⟨levelInstalls_cleared, levelInstalls_cleared⟩⟩

/-- A level whose entry is empty installs the next page, and leads to it. -/
theorem levelInstalls_empty {q : Word} (hattr : attr &&& PAGE_MASK = 0)
    (hz : view window m p i = 0) (hq : (alloc s).2 = q) (hp : PageAligned p) (hqa : PageAligned q)
    (hne : p ≠ q) :
    let r := ensureTable window alloc m s p (i.setWidth 64) attr
    (levelInstalls window alloc m s p (i.setWidth 64) attr).map TableInstall.page = [q] ∧
      r.2 = (alloc s).1 ∧ nextTable window r.1 p (i.setWidth 64) = q ∧ ∀ j, view window r.1 q j = 0 := by
  intro r
  obtain ⟨hnext, hempty⟩ := nextTable_new hattr hz hq hp hqa hne
  have hread : m.read64 (entryAddr window p (i.setWidth 64)) = 0 := hz
  refine ⟨?_, ?_, hnext, hempty⟩
  · rw [levelInstalls, if_pos hread, ← hq]
    rfl
  · show (ensureTable window alloc m s p (i.setWidth 64) attr).2 = (alloc s).1
    rw [ensureTable_empty hz]

/-- Through an empty root entry a call installs three tables. The third page may be any. -/
theorem mapInstalls_empty {q₁ q₂ : Word} (hattr : attr &&& PAGE_MASK = 0)
    (hz : view window m pgtable (indexOf PGD_OFFSET va) = 0) (hq₁ : (alloc s).2 = q₁)
    (hq₂ : (alloc (alloc s).1).2 = q₂) (hroot : PageAligned pgtable) (h₁ : PageAligned q₁)
    (h₂ : PageAligned q₂) (hne₁ : pgtable ≠ q₁) (hne₂ : q₁ ≠ q₂) :
    (mapInstalls window alloc m s pgtable va attr).map TableInstall.page =
      [q₁, q₂, (alloc (alloc (alloc s).1).1).2] := by
  obtain ⟨hpage₁, hstate₁, hnext₁, hempty₁⟩ := levelInstalls_empty hattr hz hq₁ hroot h₁ hne₁
  rw [← hstate₁] at hq₂
  obtain ⟨hpage₂, hstate₂, hnext₂, hempty₂⟩ :=
    levelInstalls_empty hattr (hempty₁ (indexOf PUD_OFFSET va)) hq₂ h₁ h₂ hne₂
  rw [← pgdEntry_eq] at hpage₁ hstate₁ hnext₁ hpage₂ hstate₂ hnext₂ hempty₂
  rw [← pudEntry_eq] at hpage₂ hstate₂ hnext₂ hempty₂
  simp only [mapInstalls, List.map_append, hnext₁, hnext₂, hpage₁, hpage₂]
  have hread := hempty₂ (indexOf PMD_OFFSET va)
  rw [view, ← pmdEntry_eq] at hread
  rw [levelInstalls, if_pos hread, hstate₂, hstate₁]
  rfl

/-- An entry that leads to its page has an aligned page. -/
theorem TableInstall.aligned {x : TableInstall} (h : x.table = x.page) : PageAligned x.page := by
  rw [← h]
  exact pageAligned_and x.entry

end Aligned

end SumiOS
