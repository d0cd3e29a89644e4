import SumiOS.Proofs.Boot.Demand
import SumiOS.Proofs.PageTable.Derefs

/-!
# `SumiOS.Proofs.Boot.Layout`: where the tables of a run lie

`boot_mm_alloc` hands out one page after the other. The call that comes first through a root
entry allocates the three tables of its walk, so the second of them is right behind the first
(`Neighbours`). A run of `boot_pgtable_map` that succeeds leaves a tree of tables with this
property (`bootRun`), and it writes nothing outside of its tables (`mapCalls_frame`).

There are less than `2 ^ 28` paths for a table, so a run never allocates more pages
(`demand_le_paths`). With the root and the first page at fixed addresses, all tables of any run are
in one stretch of memory (`highRun`).
-/

set_option autoImplicit false

namespace SumiOS

open Lib

/-! ### One call through an empty root entry -/

/-- Through an empty root entry a call comes to the next two pages of the allocator. -/
theorem Walked.empty {σ : Type} {window : Word} {alloc : σ → σ × Word} {logOf : σ → List Word}
    {base : Word → Prop} {m : Mem} {s : σ} {pgtable va attr pud pmd pte : Word} {r₁ r₂ r₃ : Mem × σ}
    (hlog : ∀ s, logOf (alloc s).1 = (alloc s).2 :: logOf s) (hattr : attr &&& PAGE_MASK = 0)
    (hw : Walked window alloc m s pgtable va attr r₁ r₂ r₃ pud pmd pte)
    (hz : view window m pgtable (indexOf PGD_OFFSET va) = 0) (hroot : PageAligned pgtable)
    (hfresh : Fresh base (logOf r₃.2)) (hbase : base pgtable) :
    pud = (alloc s).2 ∧ pmd = (alloc (alloc s).1).2 ∧ [pmd, pud] ++ logOf s <:+ logOf r₃.2 := by
  obtain ⟨-, hl₂, hl₃⟩ := hw.logs hlog
  obtain ⟨hfirst, htoPud, hsecond, htoPmd, -, -⟩ := hw
  rw [pgdEntry_eq] at hfirst htoPud
  rw [pudEntry_eq] at hsecond htoPmd
  -- The page of the first level.
  have hstate₁ : r₁.2 = (alloc s).1 := by rw [← hfirst, ensureTable_empty hz]
  have hfresh₁ := hfresh.suffix (hl₂.trans hl₃)
  rw [hstate₁, hlog] at hfresh₁
  have h₁ := hfresh₁.aligned _ List.mem_cons_self
  have hne₁ : pgtable ≠ (alloc s).2 := fun he => hfresh₁.new _ List.mem_cons_self (he ▸ hbase)
  obtain ⟨hnext₁, hempty₁⟩ := nextTable_new hattr hz rfl hroot h₁ hne₁
  rw [hfirst] at hnext₁ hempty₁
  obtain rfl : pud = (alloc s).2 := htoPud.symm.trans hnext₁
  -- It is empty, so the second level gets the page behind it.
  have hz₂ := hempty₁ (indexOf PUD_OFFSET va)
  have hstate₂ : r₂.2 = (alloc (alloc s).1).1 := by rw [← hsecond, ensureTable_empty hz₂, hstate₁]
  rw [hstate₂, hlog, hlog] at hl₃
  have hfresh₂ := hfresh.suffix hl₃
  have h₂ := hfresh₂.aligned _ List.mem_cons_self
  have hne₂ : (alloc s).2 ≠ (alloc (alloc s).1).2 := fun he =>
    (List.nodup_cons.mp hfresh₂.nodup).1 (he ▸ List.mem_cons_self)
  have hq₂ : (alloc r₁.2).2 = (alloc (alloc s).1).2 := by rw [hstate₁]
  obtain ⟨hnext₂, -⟩ := nextTable_new hattr hz₂ hq₂ h₁ h₂ hne₂
  rw [hsecond] at hnext₂
  obtain rfl : pmd = (alloc (alloc s).1).2 := htoPmd.symm.trans hnext₂
  exact ⟨rfl, rfl, hl₃⟩

/-! ### A run on a zero root -/

/-- Behind the first table below a root entry there is the second table of the call that came
first through the entry. -/
def Neighbours (calls : List MapCall) (T : List (BitVec 9) → Option Word) : Prop :=
  ∀ va c, firstCall PGD_OFFSET va calls = some c → ∃ p, T [indexOf PGD_OFFSET va] = some p ∧
    T [indexOf PUD_OFFSET c.va, indexOf PGD_OFFSET va] = some (p + PAGE_SIZE)

section Run

variable {m : Mem} {b : BootMm} {root : Word} {calls : List MapCall}

/-- Two allocations in a row give two pages in a row, when neither of them fails. -/
theorem bootMmAlloc_next (h : (bootMmAlloc b PAGE_SIZE).2 ≠ 0)
    (h' : (bootMmAlloc (bootMmAlloc b PAGE_SIZE).1 PAGE_SIZE).2 ≠ 0) :
    (bootMmAlloc (bootMmAlloc b PAGE_SIZE).1 PAGE_SIZE).2 = (bootMmAlloc b PAGE_SIZE).2 + PAGE_SIZE := by
  have hok : ∀ b : BootMm, (bootMmAlloc b PAGE_SIZE).2 ≠ 0 →
      ¬ PAGE_SIZE + b.bootMemAllocStart ≥ b.bootMemTotal := by
    intro b hne hfull
    rw [bootMmAlloc_fail hfull] at hne
    exact hne rfl
  rw [bootMmAlloc_ok (hok _ h'), bootMmAlloc_ok (hok _ h)]

/-- One more call of the mapping function keeps the tables neighbours: the tables that it creates
come out of the allocator one after the other, each behind the one it belongs to. -/
theorem Neighbours.call {T : List (BitVec 9) → Option Word} {c : MapCall}
    (h : Neighbours calls T) (hrun : MapRun 0 (· = root) root calls b.returned m T)
    (htagged : ∀ c ∈ calls, c.Tagged) (hc : c.Tagged) {r : Mem × BootMm}
    (hr : bootPgtableMap m b root c.va c.pa c.attr = r) (hfresh : Fresh (· = root) r.2.returned)
    (hok : 0 ∉ r.2.returned) :
    ∃ T', MapRun 0 (· = root) root (calls ++ [c]) r.2.returned r.1 T' ∧ Neighbours (calls ++ [c]) T' := by
  rw [bootPgtableMap_eq] at hr
  obtain ⟨r₁, r₂, r₃, pud, pmd, pte, hw, heq⟩ :=
    pgtableMap_walked 0 (fun b => bootMmAlloc b PAGE_SIZE) m b root c.va c.pa c.attr
  obtain rfl := heq.symm.trans hr
  obtain ⟨T', hT', hsub, heffect, hpud, hpmd⟩ := hw.spec bootMmAlloc_returned hc.low hc.present
    hrun.tables hrun.rooted trivial hfresh c.pa
  refine ⟨T', ⟨hT', hsub _ _ hrun.rooted, hrun.history.call htagged heffect⟩, fun va c' hfirst => ?_⟩
  rw [firstCall_append] at hfirst
  cases hold : firstCall PGD_OFFSET va calls with
  | some c₀ =>
      rw [hold, Option.some_or, Option.some.injEq] at hfirst
      subst hfirst
      obtain ⟨p, hp, hnext⟩ := h va c₀ hold
      exact ⟨p, hsub _ _ hp, hsub _ _ hnext⟩
  | none =>
      -- The call is the first one through the root entry, which was empty before.
      rw [hold, Option.none_or] at hfirst
      by_cases hsame : SameFrom PGD_OFFSET c.va va
      · rw [if_pos hsame, Option.some.injEq] at hfirst
        subst hfirst
        have hpath : indexOf PGD_OFFSET c.va = indexOf PGD_OFFSET va := by
          have hupper := (sameFrom_iff c.va va 1 (by decide)).mp hsame
          exact (List.cons.inj hupper).1
        have hempty := hrun.history.inner va 1 (by decide) (by decide)
        rw [show 48 - 9 * 1 = PGD_OFFSET from rfl, hold] at hempty
        have hz : view 0 m root (indexOf PGD_OFFSET c.va) = 0 := by
          rw [hpath, ← entries_some hrun.rooted]
          exact hempty
        obtain ⟨rfl, rfl, hpages⟩ := hw.empty bootMmAlloc_returned hc.low hz
          (hrun.tables.aligned _ _ hrun.rooted) hfresh rfl
        have hne : ∀ q ∈ [(bootMmAlloc (bootMmAlloc b PAGE_SIZE).1 PAGE_SIZE).2,
            (bootMmAlloc b PAGE_SIZE).2], q ≠ 0 := by
          rintro q hq rfl
          exact hok (hpages.subset (List.mem_append_left _ hq))
        rw [bootMmAlloc_next (hne _ (by simp)) (hne _ (by simp))] at hpmd
        exact ⟨_, hpath ▸ hpud, hpath ▸ hpmd⟩
      · rw [if_neg hsame] at hfirst
        exact absurd hfirst (by simp)

/-- A run that succeeds leaves a tree whose first tables are neighbours. The induction adds a call
at the end, and each call allocates its new tables in a row. -/
theorem bootRun (hroot : PageAligned root) (hzero : ∀ i, view 0 m root i = 0)
    (htagged : ∀ c ∈ calls, c.Tagged)
    (hfresh : Fresh (· = root) (mapCalls bootPgtableMap m b root calls).2.returned)
    (hok : 0 ∉ (mapCalls bootPgtableMap m b root calls).2.returned) :
    ∃ T, MapRun 0 (· = root) root calls (mapCalls bootPgtableMap m b root calls).2.returned
      (mapCalls bootPgtableMap m b root calls).1 T ∧ Neighbours calls T := by
  induction calls using List.reverseRecOn with
  | nil =>
      refine ⟨_, mapRun_nil hroot hzero (Or.inl rfl), fun va c hfirst => ?_⟩
      exact absurd hfirst (by simp [firstCall])
  | append_singleton calls c ih =>
      have hcalls : ∀ c ∈ calls, c.Tagged := fun c' h => htagged c' (by simp [h])
      rw [mapCalls_append] at hfresh hok ⊢
      generalize mapCalls bootPgtableMap m b root calls = r at hfresh hok ih ⊢
      have hlogs : r.2.returned <:+ (bootPgtableMap r.1 r.2 root c.va c.pa c.attr).2.returned :=
        pgtableMap_log bootMmAlloc_returned
      obtain ⟨T, hrun, hnext⟩ := ih hcalls (hfresh.suffix hlogs) fun hz => hok (hlogs.subset hz)
      exact hnext.call hrun hcalls (htagged c (by simp)) rfl hfresh hok

end Run

/-! ### How many tables there can be -/

/-- All indices of a table. -/
def indices : List (BitVec 9) := (List.range 512).map (BitVec.ofNat 9)

/-- The list of indices is the list of all indices. -/
theorem mem_indices (i : BitVec 9) : i ∈ indices :=
  List.mem_map.mpr ⟨i.toNat, List.mem_range.mpr i.isLt, BitVec.ofNat_toNat 9 i⟩

/-- The paths of up to three indices. -/
def pathsOver {α : Type} (is : List α) : List (List α) :=
  is.map (fun i => [i]) ++ (is.flatMap fun i => is.map fun j => [j, i]) ++
    is.flatMap fun i => is.flatMap fun j => is.map fun k => [k, j, i]

/-- The number of paths of one, two or three indices over a list, which bounds the number of inner
tables. -/
theorem pathsOver_length {α : Type} (is : List α) : (pathsOver is).length =
    is.length + is.length * is.length + is.length * (is.length * is.length) := by
  simp only [pathsOver, List.length_append, List.length_flatMap, List.length_map, List.map_const',
    List.sum_replicate_nat]

/-- No run needs more tables than there are paths of one, two and three indices, whatever addresses
it maps. -/
theorem demand_le_paths (calls : List MapCall) :
    demand [] (calls.map fun c => innerPaths c.va) ≤ 2 ^ 9 + 2 ^ 18 + 2 ^ 27 := by
  have hlength : (pathsOver indices).length = 2 ^ 9 + 2 ^ 18 + 2 ^ 27 := by
    rw [pathsOver_length, indices, List.length_map, List.length_range]
    rfl
  rw [← hlength]
  refine (demand_le_filter fun step hstep => ?_).trans
    (List.length_filter_le (fun π => decide (π ∉ [])) (pathsOver indices))
  obtain ⟨c, -, rfl⟩ := List.mem_map.mp hstep
  refine ⟨by simp [innerPaths], fun π hπ => ?_⟩
  simp only [innerPaths, List.mem_cons, List.not_mem_nil, or_false] at hπ
  simp only [pathsOver, List.mem_append, List.mem_map, List.mem_flatMap]
  rcases hπ with rfl | rfl | rfl
  · exact Or.inl (Or.inl ⟨_, mem_indices _, rfl⟩)
  · exact Or.inl (Or.inr ⟨_, mem_indices _, _, mem_indices _, rfl⟩)
  · exact Or.inr ⟨_, mem_indices _, _, mem_indices _, _, mem_indices _, rfl⟩

/-! ### A run high up in memory -/

/-- The root of a table high up in memory. -/
def highRoot : Word := 0xa000000000000000

/-- Memory with a zero page at `highRoot`, and `fill` everywhere else. -/
def highMem (fill : BitVec 8) : Mem := fun a => if (a - highRoot).toNat < 4096 then 0 else fill

/-- All memory from the page behind the root on. -/
def highStart : BootMm := BootMm.start (-1) (highRoot + PAGE_SIZE)

/-- The page is the root, or one of those that a run may allocate behind it. -/
def High (q : Word) : Prop := ∃ r < 2 ^ 39 + 2 ^ 32, q.toNat = 160 * 2 ^ 56 + r

section High

variable {calls : List MapCall} {fill : BitVec 8}

/-- The root page itself is one of the pages at which such a run may put its tables. -/
theorem highRoot_high : High highRoot := ⟨0, by decide, rfl⟩

/-- It begins on a page. -/
theorem highRoot_aligned : PageAligned highRoot := by decide

/-- The bytes of an entry are in the page of its table. -/
theorem entry_in_page (p : Word) (i : BitVec 9) {k : Nat} (hk : k < 8) :
    (entryAddr 0 p (i.setWidth 64) + BitVec.ofNat 64 k - p).toNat < 4096 := by
  have hi := i.isLt
  unfold entryAddr
  bv_omega

/-- Its entries are all empty, whatever the rest of memory holds. -/
theorem highMem_zero (i : BitVec 9) : view 0 (highMem fill) highRoot i = 0 := by
  rw [view, read64_fill fun k hk => if_pos (entry_in_page highRoot i hk), ofBytes_zero]

/-- Allocations from there on: as many as all tables together can need succeed, and give pages high
up in memory, apart from the root. -/
theorem highAllocs {n : Nat} (hn : n ≤ 2 ^ 9 + 2 ^ 18 + 2 ^ 27) :
    0 ∉ (bootAllocs n highStart).returned ∧ ∀ q ∈ (bootAllocs n highStart).returned,
      PageAligned q ∧ q ≠ highRoot ∧ High q := by
  have hfirst : highStart.bootMemAllocStart.toNat = 160 * 2 ^ 56 + 4096 := rfl
  have htotal : highStart.bootMemTotal.toNat = 2 ^ 64 - 1 := rfl
  obtain ⟨hok, -, hcursor⟩ := returned_of_enough (b := highStart) (by decide) List.not_mem_nil n
    (by rw [hfirst, htotal]; omega)
  refine ⟨hok, ?_⟩
  have hbump : Bumped (highRoot + PAGE_SIZE) (bootAllocs n highStart) :=
    (bumped_start (-1) (by decide)).allocs n
  obtain ⟨limit, hle, hlimit, -, hrisen⟩ := hbump.risen hok
  have hend : limit = 160 * 2 ^ 56 + 4096 + 4096 * n := by
    rw [hlimit, hfirst, BitVec.toNat_ofNat] at hcursor
    omega
  intro q hq
  obtain ⟨hfrom, hto⟩ := hrisen.between q hq
  have hroot : highRoot.toNat = 160 * 2 ^ 56 := rfl
  have hbegin : (highRoot + PAGE_SIZE).toNat = 160 * 2 ^ 56 + 4096 := rfl
  refine ⟨hrisen.aligned q hq, ?_, q.toNat - 160 * 2 ^ 56, by omega, by omega⟩
  rintro rfl
  omega

/-- Every run succeeds there, with all its tables in one stretch of memory high up, whatever the
rest of memory is filled with. -/
theorem highRun (fill : BitVec 8) (htagged : ∀ c ∈ calls, c.Tagged) :
    let r := mapCalls bootPgtableMap (highMem fill) highStart highRoot calls
    Fresh (· = highRoot) r.2.returned ∧ 0 ∉ r.2.returned ∧ ∀ q ∈ r.2.returned, High q := by
  intro r
  obtain ⟨hok, hpages⟩ := highAllocs (demand_le_paths calls)
  generalize hn : demand [] (calls.map fun c => innerPaths c.va) = n at hok hpages
  have hbump : Bumped (highRoot + PAGE_SIZE) (bootAllocs n highStart) :=
    (bumped_start (-1) (by decide)).allocs n
  obtain ⟨limit, -, -, -, hrisen⟩ := hbump.risen hok
  have hfresh : Fresh (· = highRoot) (bootAllocs n highStart).returned :=
    ⟨hrisen.nodup, hrisen.aligned, fun q hq => (hpages q hq).2.1⟩
  have hnil : MapRun 0 (· = highRoot) highRoot [] highStart.returned (highMem fill) _ :=
    mapRun_nil highRoot_aligned highMem_zero (Or.inl rfl)
  have hstate : r.2 = bootAllocs n highStart :=
    mapCalls_count bootMmAlloc_returned calls (fun c hc => ⟨htagged c hc, trivial⟩) hnil.tables
      hnil.rooted (hnil.history.inUse (by simp)) hn.symm (Or.inr hfresh)
  rw [hstate]
  exact ⟨hfresh, hok, fun q hq => (hpages q hq).2.2⟩

end High

end SumiOS
