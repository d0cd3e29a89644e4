import SumiOS.Proofs.PageTable.Count

/-!
# `SumiOS.Proofs.PageTable.Derefs`: the tables that a call dereferences

A mapping call reads and writes tables through the window. `mapDerefs` lists them, by
their physical addresses and in the order of the code, and `getPaDerefs` does the same for
a lookup. Outside of these pages a call changes nothing (`pgtableMap_frame`).

A mapping call dereferences what a lookup would have dereferenced before it, and the pages
that it allocates (`mem_mapDerefs`).
-/

set_option autoImplicit false

namespace SumiOS

open Lib

section Derefs

variable {σ : Type} (window : Word) (alloc : σ → σ × Word)

/-- One level of a mapping call: the table, and the new table when it is cleared. -/
def levelDerefs (m : Mem) (s : σ) (table i : Word) : List Word :=
  let e := entryAddr window table i
  if m.read64 e = 0 then [table, (m.write64 e (alloc s).2).read64 e] else [table]

/-- The tables that a mapping call dereferences. -/
def mapDerefs (m : Mem) (s : σ) (pgtable va attr : Word) : List Word :=
  let pgd := pgtable
  let r₁ := ensureTable window alloc m s pgd (pgdEntry va) attr
  let pud := nextTable window r₁.1 pgd (pgdEntry va)
  let r₂ := ensureTable window alloc r₁.1 r₁.2 pud (pudEntry va) attr
  let pmd := nextTable window r₂.1 pud (pudEntry va)
  let r₃ := ensureTable window alloc r₂.1 r₂.2 pmd (pmdEntry va) attr
  let pte := nextTable window r₃.1 pmd (pmdEntry va)
  levelDerefs window alloc m s pgd (pgdEntry va) ++
    (levelDerefs window alloc r₁.1 r₁.2 pud (pudEntry va) ++
      (levelDerefs window alloc r₂.1 r₂.2 pmd (pmdEntry va) ++ [pte]))

/-- The tables that a lookup dereferences. -/
def getPaDerefs (m : Mem) (pgtable va : Word) : List Word :=
  let pgd := pgtable
  pgd ::
    if m.read64 (entryAddr window pgd (pgdEntry va)) = 0 then []
    else
      let pud := nextTable window m pgd (pgdEntry va)
      pud ::
        if m.read64 (entryAddr window pud (pudEntry va)) = 0 then []
        else
          let pmd := nextTable window m pud (pudEntry va)
          pmd ::
            if m.read64 (entryAddr window pmd (pmdEntry va)) = 0 then []
            else [nextTable window m pmd (pmdEntry va)]

/-! ### The levels as a recursion -/

/-- The levels of a mapping call, and the table that they come to. -/
def ensureTables (attr : Word) : List (BitVec 9) → Mem → σ → Word → (Mem × σ) × Word
  | [], m, s, table => ((m, s), table)
  | i :: is, m, s, table =>
      let r := ensureTable window alloc m s table (i.setWidth 64) attr
      ensureTables attr is r.1 r.2 (nextTable window r.1 table (i.setWidth 64))

def ensureTablesDerefs (attr : Word) : List (BitVec 9) → Mem → σ → Word → List Word
  | [], _, _, table => [table]
  | i :: is, m, s, table =>
      let r := ensureTable window alloc m s table (i.setWidth 64) attr
      levelDerefs window alloc m s table (i.setWidth 64) ++
        ensureTablesDerefs attr is r.1 r.2 (nextTable window r.1 table (i.setWidth 64))

def walkDerefs (m : Mem) : List (BitVec 9) → Word → List Word
  | [], table => [table]
  | i :: is, table =>
      table ::
        if view window m table i = 0 then []
        else walkDerefs m is (nextTable window m table (i.setWidth 64))

end Derefs

/-- The indices of the inner tables, the one of the root first. -/
def innerIndices (va : Word) : List (BitVec 9) :=
  [indexOf PGD_OFFSET va, indexOf PUD_OFFSET va, indexOf PMD_OFFSET va]

section Levels

variable {σ : Type} {window : Word} {alloc : σ → σ × Word} {logOf : σ → List Word}
  {top : BitVec 9 → Prop} {base : Word → Prop} {log : List Word} {m : Mem} {s : σ}
  {T : List (BitVec 9) → Option Word} {π is : List (BitVec 9)} {i : BitVec 9}
  {p x pgtable va pa attr a v : Word}

/-- A mapping call is the recursion over the three inner indices followed by the write of the leaf
entry. -/
theorem pgtableMap_eq : pgtableMap window alloc m s pgtable va pa attr =
    let r := ensureTables window alloc attr (innerIndices va) m s pgtable
    (r.1.1.write64 (entryAddr window r.2 ((indexOf PTE_OFFSET va).setWidth 64)) (pa ||| attr), r.1.2) := by
  rw [← pteEntry_eq]
  simp only [innerIndices, ensureTables, ← pgdEntry_eq, ← pudEntry_eq, ← pmdEntry_eq]
  rfl

/-- The tables that a mapping call dereferences are those that the recursion over the inner indices
meets. -/
theorem mapDerefs_eq : mapDerefs window alloc m s pgtable va attr =
    ensureTablesDerefs window alloc attr (innerIndices va) m s pgtable := by
  simp only [innerIndices, ensureTablesDerefs, ← pgdEntry_eq, ← pudEntry_eq, ← pmdEntry_eq]
  rfl

/-- The tables that a lookup dereferences are those of the walk over the inner indices. -/
theorem getPaDerefs_eq : getPaDerefs window m pgtable va =
    walkDerefs window m (innerIndices va) pgtable := by
  simp only [innerIndices, walkDerefs, view, ← pgdEntry_eq, ← pudEntry_eq, ← pmdEntry_eq]
  rfl

/-- A call begins with the root, so the root must be reached for any call to be made. -/
theorem root_mem_mapDerefs : pgtable ∈ mapDerefs window alloc m s pgtable va attr := by
  refine List.mem_append_left _ ?_
  unfold levelDerefs
  dsimp only
  split
  · exact List.mem_cons_self
  · exact List.mem_cons_self

/-! ### Nothing else is written -/

/-- The address is not in the page of the table. -/
def OffPage (window table a : Word) : Prop := 4096 ≤ (a - (table + window)).toNat

/-- An entry lies in the page of its table. -/
theorem write64_offPage (h : OffPage window p a) :
    m.write64 (entryAddr window p (i.setWidth 64)) v a = m a := by
  have hi := i.isLt
  refine if_neg ?_
  unfold OffPage entryAddr at *
  bv_omega

/-- The entries of a table are a matter of its page. -/
theorem view_congr {m' : Mem} (hsame : ∀ a, ¬ OffPage window p a → m' a = m a) :
    view window m' p i = view window m p i := by
  refine read64_congr fun j hj => hsame _ ?_
  have hi := i.isLt
  unfold OffPage entryAddr
  bv_omega

/-- A tree of tables is a matter of their pages. -/
theorem Tables.congr {base : Word → Prop} {top : BitVec 9 → Prop} {log : List Word} {m' : Mem}
    {T : List (BitVec 9) → Option Word} (hT : Tables window top base log m T)
    (hsame : ∀ π p, T π = some p → ∀ a, ¬ OffPage window p a → m' a = m a) :
    Tables window top base log m' T ∧ entries window m' T = entries window m T := by
  have hview : ∀ π p i, T π = some p → view window m' p i = view window m p i :=
    fun π p i hp => view_congr (hsame π p hp)
  exact ⟨⟨hT.laid.congr hview, hT.aligned, hT.used⟩, entryAt_congr hview⟩

/-- Clearing a table changes no byte that is off its page. -/
theorem memset_offPage (h : OffPage window p a) : m.memset (p + window) 0 PAGE_SIZE.toNat a = m a := by
  have hsize : PAGE_SIZE.toNat = 4096 := rfl
  rw [hsize, memset_apply (by decide), if_neg (Nat.not_lt.mpr h)]

/-- One level of a mapping call changes no byte that is off the pages it dereferences. -/
theorem ensureTable_frame (h : ∀ x ∈ levelDerefs window alloc m s p (i.setWidth 64), OffPage window x a) :
    (ensureTable window alloc m s p (i.setWidth 64) attr).1 a = m a := by
  by_cases hz : view window m p i = 0
  · have hderefs : levelDerefs window alloc m s p (i.setWidth 64) =
        [p, (m.write64 (entryAddr window p (i.setWidth 64)) (alloc s).2).read64
          (entryAddr window p (i.setWidth 64))] := if_pos hz
    rw [hderefs, List.forall_mem_cons] at h
    obtain ⟨htable, hnew⟩ := h
    have hnew := hnew _ List.mem_cons_self
    rw [ensureTable_empty hz]
    dsimp only
    rw [write64_offPage htable, memset_offPage hnew, write64_offPage htable]
  · rw [ensureTable_used hz]

/-- The table that the levels come to is itself among the dereferenced ones. -/
theorem mem_ensureTablesDerefs_last (is : List (BitVec 9)) (m : Mem) (s : σ) (p : Word) :
    (ensureTables window alloc attr is m s p).2 ∈ ensureTablesDerefs window alloc attr is m s p := by
  induction is generalizing m s p with
  | nil => exact List.mem_cons_self
  | cons i is ih => exact List.mem_append_right _ (ih _ _ _)

/-- Nor do all levels together, by induction on the indices. -/
theorem ensureTables_frame (h : ∀ x ∈ ensureTablesDerefs window alloc attr is m s p, OffPage window x a) :
    (ensureTables window alloc attr is m s p).1.1 a = m a := by
  induction is generalizing m s p with
  | nil => rfl
  | cons i is ih =>
      rw [ensureTablesDerefs, List.forall_mem_append] at h
      obtain ⟨hlevel, hrest⟩ := h
      rw [ensureTables]
      exact (ih hrest).trans (ensureTable_frame hlevel)

/-- A call writes nothing outside of the tables that it dereferences. -/
theorem pgtableMap_frame (h : ∀ x ∈ mapDerefs window alloc m s pgtable va attr, OffPage window x a) :
    (pgtableMap window alloc m s pgtable va pa attr).1 a = m a := by
  rw [mapDerefs_eq] at h
  rw [pgtableMap_eq]
  dsimp only
  rw [write64_offPage (h _ (mem_ensureTablesDerefs_last ..))]
  exact ensureTables_frame h

/-! ### The new tables -/

/-- The levels of a call only add to the log of handed-out pages. -/
theorem ensureTables_log (hlog : ∀ s, logOf (alloc s).1 = (alloc s).2 :: logOf s)
    (is : List (BitVec 9)) (m : Mem) (s : σ) (p : Word) :
    logOf s <:+ logOf (ensureTables window alloc attr is m s p).1.2 := by
  induction is generalizing m s p with
  | nil => exact List.suffix_refl _
  | cons i is ih => exact (ensureTable_log hlog rfl).trans (ih _ _ _)

/-- Below an empty table there is nothing to walk through. -/
theorem walkDerefs_empty (h : ∀ j, view window m p j = 0) : walkDerefs window m is p = [p] := by
  cases is with
  | nil => rfl
  | cons i is => rw [walkDerefs, if_pos (h i)]

/-- A level whose entry is empty dereferences its table and the new one. -/
theorem levelDerefs_empty (hz : view window m p i = 0) :
    levelDerefs window alloc m s p (i.setWidth 64) = [p, (alloc s).2] := by
  have hread : (m.write64 (entryAddr window p (i.setWidth 64)) (alloc s).2).read64
      (entryAddr window p (i.setWidth 64)) = (alloc s).2 := read64_write64_self
  rw [levelDerefs, hread]
  exact if_pos hz

/-- Where the entry is in use already, a level dereferences its own table and no new one. -/
theorem levelDerefs_used (hz : view window m p i ≠ 0) :
    levelDerefs window alloc m s p (i.setWidth 64) = [p] := if_neg hz

/-- The levels dereference the tables on the walk and those they allocate. A new table is
dereferenced twice, once to clear it and once to go on in it, and its page is the one the log has
got. -/
theorem mem_ensureTablesDerefs (hlog : ∀ s, logOf (alloc s).1 = (alloc s).2 :: logOf s)
    (hattr : attr &&& PAGE_MASK = 0) (hP : attr &&& PAGE_ATTR_P = PAGE_ATTR_P)
    (hT : Tables window top base (logOf s) m T) (hp : T π = some p) (hlen : π.length + is.length < 4)
    (hu : Under top (is.reverse ++ π))
    (hfresh : Fresh base (logOf (ensureTables window alloc attr is m s p).1.2)) :
    ∃ new, logOf (ensureTables window alloc attr is m s p).1.2 = new ++ logOf s ∧
      ∀ x, x ∈ ensureTablesDerefs window alloc attr is m s p ↔
        x ∈ walkDerefs window m is p ∨ x ∈ new := by
  induction is generalizing m s T π p with
  | nil => exact ⟨[], rfl, fun x => (or_iff_left List.not_mem_nil).symm⟩
  | cons i is ih =>
      rw [List.reverse_cons, List.append_assoc, List.singleton_append] at hu
      rw [List.length_cons] at hlen
      have hui : Under top (i :: π) := hu.of_append
      -- One level, and the levels below it from the table that it found or made.
      have hlevel : Fresh base (logOf (ensureTable window alloc m s p (i.setWidth 64) attr).2) :=
        hfresh.suffix (ensureTables_log hlog is _ _ _)
      obtain ⟨T', hT', -, hnext, -⟩ :=
        ensureTable_spec hlog hattr hP hT hp (by omega) hui rfl hlevel
      obtain ⟨new, hnew, hmem⟩ := ih hT' hnext (by rw [List.length_cons]; omega) hu hfresh
      rw [ensureTables, ensureTablesDerefs, hnew]
      by_cases hz : view window m p i = 0
      · -- The new table is empty, so the walk ended here before.
        have hlogs := ensureTable_newLog hlog hz
          (rfl : _ = ensureTable window alloc m s p (i.setWidth 64) attr)
        rw [hlogs] at hlevel
        have hq := hlevel.aligned _ List.mem_cons_self
        have hne : p ≠ (alloc s).2 := fun he => hT.ne_new hlevel π (he ▸ hp)
        obtain ⟨htable, hempty⟩ := nextTable_new hattr hz rfl (hT.aligned π p hp) hq hne
        rw [htable, walkDerefs_empty hempty] at hmem
        refine ⟨new ++ [(alloc s).2], by rw [hlogs]; simp, fun x => ?_⟩
        rw [List.mem_append, htable, hmem x, levelDerefs_empty hz, walkDerefs, if_pos hz]
        simp only [List.mem_append, List.mem_cons, List.not_mem_nil, or_false]
        tauto
      · rw [ensureTable_used hz] at hmem ⊢
        refine ⟨new, rfl, fun x => ?_⟩
        rw [List.mem_append, hmem x, levelDerefs_used hz, List.mem_singleton, walkDerefs, if_neg hz,
          List.mem_cons]
        exact or_assoc.symm

/-- The inner path of an address lies under the top entry of that address, and the tables that are
asked about are those. -/
theorem under_innerIndices (htop : top (indexOf PGD_OFFSET va)) :
    Under top ((innerIndices va).reverse ++ []) :=
  ((under_singleton htop).cons (List.cons_ne_nil _ _)).cons (List.cons_ne_nil _ _)

/-- A mapping call dereferences what a lookup of its address would have dereferenced, and the
pages that it allocates. -/
theorem mem_mapDerefs (hlog : ∀ s, logOf (alloc s).1 = (alloc s).2 :: logOf s)
    (hattr : attr &&& PAGE_MASK = 0) (hP : attr &&& PAGE_ATTR_P = PAGE_ATTR_P)
    (hT : Tables window top base (logOf s) m T) (hroot : T [] = some pgtable)
    (htop : top (indexOf PGD_OFFSET va))
    (hfresh : Fresh base (logOf (pgtableMap window alloc m s pgtable va pa attr).2)) :
    ∃ new, logOf (pgtableMap window alloc m s pgtable va pa attr).2 = new ++ logOf s ∧
      ∀ x, x ∈ mapDerefs window alloc m s pgtable va attr ↔
        x ∈ getPaDerefs window m pgtable va ∨ x ∈ new := by
  have hu := under_innerIndices htop
  rw [pgtableMap_eq] at hfresh ⊢
  rw [mapDerefs_eq, getPaDerefs_eq]
  exact mem_ensureTablesDerefs hlog hattr hP hT hroot (by simp [innerIndices]) hu hfresh

/-! ### The walk in the tree -/

/-- The tables on a path, the first one apart: the induction over the indices uses it to step from
a table to the next. -/
theorem exists_take_succ {i : BitVec 9} {is : List (BitVec 9)} (hp : T π = some p) :
    (∃ k ≤ (i :: is).length, T (((i :: is).take k).reverse ++ π) = some x) ↔
      x = p ∨ ∃ k ≤ is.length, T ((is.take k).reverse ++ i :: π) = some x := by
  have hpath : ∀ k, ((i :: is).take (k + 1)).reverse ++ π = (is.take k).reverse ++ i :: π := by
    intro k
    rw [List.take_succ_cons, List.reverse_cons, List.append_assoc, List.singleton_append]
  constructor
  · intro ⟨k, hk, hx⟩
    cases k with
    | zero =>
        rw [List.take_zero, List.reverse_nil, List.nil_append, hp] at hx
        exact Or.inl (Option.some.inj hx).symm
    | succ k =>
        rw [hpath] at hx
        exact Or.inr ⟨k, by simpa using hk, hx⟩
  · rintro (rfl | ⟨k, hk, hx⟩)
    · exact ⟨0, Nat.zero_le _, hp⟩
    · exact ⟨k + 1, by simpa using hk, by rw [hpath]; exact hx⟩

/-- A walk dereferences the tables on its path, as far as there are any, by induction on the
indices that are still ahead. -/
theorem mem_walkDerefs (hT : Tables window top base log m T) (hp : T π = some p)
    (hlen : π.length + is.length < 4) (hu : Under top (is.reverse ++ π)) :
    x ∈ walkDerefs window m is p ↔ ∃ k ≤ is.length, T ((is.take k).reverse ++ π) = some x := by
  induction is generalizing π p with
  | nil =>
      -- At the last level the walk reads the table it stands at and no more.
      rw [walkDerefs, List.mem_singleton]
      constructor
      · rintro rfl
        exact ⟨0, Nat.le_refl 0, hp⟩
      · intro ⟨k, hk, hx⟩
        rw [List.take_nil, List.reverse_nil, List.nil_append, hp] at hx
        exact (Option.some.inj hx).symm
  | cons i is ih =>
      rw [List.reverse_cons, List.append_assoc, List.singleton_append] at hu
      rw [List.length_cons] at hlen
      have hui : Under top (i :: π) := hu.of_append
      have hlink := hT.laid.link π p i hp (by omega) hui
      rw [exists_take_succ hp, walkDerefs, List.mem_cons]
      refine or_congr_right ?_
      by_cases hz : view window m p i = 0
      · -- The entry is empty, so there is no table further down.
        rw [tableChild, if_pos hz] at hlink
        rw [if_pos hz]
        refine iff_of_false List.not_mem_nil ?_
        rintro ⟨k, hk, hx⟩
        rw [hT.laid.orphan_append hlink.symm] at hx
        exact absurd hx (by simp)
      · rw [tableChild, if_neg hz] at hlink
        rw [if_neg hz]
        exact ih hlink.symm (by rw [List.length_cons]; omega) hu

/-- A lookup dereferences the tables at the paths of its address down to the last
table there is. -/
theorem mem_getPaDerefs (hT : Tables window top base log m T) (hroot : T [] = some pgtable)
    (htop : top (indexOf PGD_OFFSET va)) :
    x ∈ getPaDerefs window m pgtable va ↔ ∃ k < 4, T (upperPath va k) = some x := by
  have hu := under_innerIndices htop
  have hpath : ∀ k < 4, ((innerIndices va).take k).reverse ++ [] = upperPath va k := by
    intro k hk
    match k with
    | 0 | 1 | 2 | 3 => rfl
  rw [getPaDerefs_eq, mem_walkDerefs hT hroot (by simp [innerIndices]) hu]
  constructor
  · intro ⟨k, hk, hx⟩
    have hk : k < 4 := Nat.lt_succ_of_le hk
    exact ⟨k, hk, by rw [← hpath k hk]; exact hx⟩
  · intro ⟨k, hk, hx⟩
    exact ⟨k, Nat.le_of_lt_succ hk, by rw [hpath k hk]; exact hx⟩

/-- A run of calls writes nothing outside of the old tables and the pages it allocates. -/
theorem mapCalls_frame (hlog : ∀ s, logOf (alloc s).1 = (alloc s).2 :: logOf s)
    (calls : List MapCall) (hcalls : ∀ c ∈ calls, c.Tagged ∧ top (indexOf PGD_OFFSET c.va))
    (hT : Tables window top base (logOf s) m T) (hroot : T [] = some pgtable)
    (hfresh : Fresh base (logOf (mapCalls (pgtableMap window alloc) m s pgtable calls).2))
    (hoff : ∀ x, base x ∨ x ∈ logOf (mapCalls (pgtableMap window alloc) m s pgtable calls).2 →
      OffPage window x a) :
    (mapCalls (pgtableMap window alloc) m s pgtable calls).1 a = m a := by
  induction calls generalizing m s T with
  | nil => rfl
  | cons c calls ih =>
      obtain ⟨⟨⟨hattr, hP⟩, htop⟩, hcalls⟩ := List.forall_mem_cons.mp hcalls
      rw [mapCalls_cons] at hfresh hoff ⊢
      obtain ⟨r, hr⟩ : ∃ r, pgtableMap window alloc m s pgtable c.va c.pa c.attr = r := ⟨_, rfl⟩
      rw [hr] at hfresh hoff ⊢
      have hlogs : logOf r.2 <:+ logOf (mapCalls (pgtableMap window alloc) r.1 r.2 pgtable calls).2 :=
        mapCalls_log hlog calls
      have hfirst := hfresh.suffix hlogs
      obtain ⟨T', hT', hsub, -⟩ := pgtableMap_spec hlog hattr hP hT hroot htop hr hfirst
      rw [ih hcalls hT' (hsub _ _ hroot) hfresh hoff, ← hr]
      -- A call writes to the tables on its walk and to those that it allocates.
      refine pgtableMap_frame fun x hx => hoff x ?_
      rw [← hr] at hfirst
      obtain ⟨new, hnew, hmem⟩ := mem_mapDerefs hlog hattr hP hT hroot htop hfirst
      rw [hr] at hnew
      have hlater : ∀ x ∈ new ++ logOf s,
          x ∈ logOf (mapCalls (pgtableMap window alloc) r.1 r.2 pgtable calls).2 := by
        rw [← hnew]
        exact fun x hx => hlogs.subset hx
      cases (hmem x).mp hx with
      | inl hwalk =>
          obtain ⟨k, -, hk⟩ := (mem_getPaDerefs hT hroot htop).mp hwalk
          exact (hT.used _ _ hk).imp_right fun h => hlater x (List.mem_append_right _ h)
      | inr hmem => exact Or.inr (hlater x (List.mem_append_left _ hmem))

end Levels

end SumiOS
