import SumiOS.MmInit
import SumiOS.Proofs.Buddy.Run
import SumiOS.Proofs.PageTable.Map

/-!
# `SumiOS.Proofs.PageTable.Lookup`: runs of calls and the walk

`MapRun` collects what is known after any run of calls on a zero root: the
tables form a tree, and its entries have the history of the calls.
`mapRun_of_fresh` proves it by induction on the calls. The walk reads the
entries of the tree (`pgtableWalk_eq`), so the walk and the two lookups of the
kernel see a finite map, which is `IsMap`.
-/

set_option autoImplicit false

namespace SumiOS

open Lib

/-! ### The walk -/

/-- The four-level walk: the entry of the last level, `none` when it meets an
empty entry before. -/
def pgtableWalk (window : Word) (m : Mem) (pgtable va : Word) : Option Word :=
  let pgd := pgtable
  if m.read64 (entryAddr window pgd (pgdEntry va)) = 0 then none
  else
    let pud := nextTable window m pgd (pgdEntry va)
    if m.read64 (entryAddr window pud (pudEntry va)) = 0 then none
    else
      let pmd := nextTable window m pud (pudEntry va)
      if m.read64 (entryAddr window pmd (pmdEntry va)) = 0 then none
      else
        let pte := nextTable window m pmd (pmdEntry va)
        some (m.read64 (entryAddr window pte (pteEntry va)))

/-- What the lookups of the kernel make of the walk. -/
def lookupOf (va : Word) : Option Word → Word
  | none => -1
  | some e => if e &&& PAGE_MASK = 0 && !kernelVaIsPhysZero va then -1 else e &&& PAGE_MASK

section Walk

variable {window : Word} {top : BitVec 9 → Prop} {base : Word → Prop} {log : List Word} {m : Mem}
  {T : List (BitVec 9) → Option Word} {pgtable va : Word}

/-- The lookups walk, and then look at the last entry. -/
theorem pgtableGetPa_eq (window : Word) (m : Mem) (pgtable va : Word) :
    pgtableGetPa window m pgtable va = lookupOf va (pgtableWalk window m pgtable va) := by
  simp only [pgtableGetPa, pgtableWalk]
  split
  · rfl
  · split
    · rfl
    · split
      · rfl
      · rfl

/-- The walk of the code is a walk in the store, from the root over the three inner indices, with
the leaf read at the end. -/
theorem pgtableWalk_eq_walkTo (window : Word) (m : Mem) (pgtable va : Word) :
    pgtableWalk window m pgtable va =
      (walkTo tableChild (view window m) pgtable
        [indexOf PMD_OFFSET va, indexOf PUD_OFFSET va, indexOf PGD_OFFSET va]).map
        fun p => view window m p (indexOf PTE_OFFSET va) := by
  have hstep : ∀ (p : Word) (i : BitVec 9), tableChild (view window m p i) =
      if m.read64 (entryAddr window p (i.setWidth 64)) = 0 then none
      else some (nextTable window m p (i.setWidth 64)) := fun _ _ => rfl
  simp only [pgtableWalk, walkTo, Option.bind_some, hstep, pgdEntry_eq, pudEntry_eq, pmdEntry_eq,
    pteEntry_eq]
  split
  · rfl
  · rw [Option.bind_some]
    split
    · rfl
    · rw [Option.bind_some]
      split
      · rfl
      · rfl

/-- The walk finds the entry of the tree, provided that the tables on its path are there. -/
theorem pgtableWalk_eq (hT : Tables window top base log m T) (hroot : T [] = some pgtable)
    (htop : top (indexOf PGD_OFFSET va)) :
    pgtableWalk window m pgtable va =
      (T [indexOf PMD_OFFSET va, indexOf PUD_OFFSET va, indexOf PGD_OFFSET va]).map
        fun p => view window m p (indexOf PTE_OFFSET va) := by
  have hu : Under top [indexOf PMD_OFFSET va, indexOf PUD_OFFSET va, indexOf PGD_OFFSET va] :=
    ((under_singleton htop).cons (List.cons_ne_nil _ _)).cons (List.cons_ne_nil _ _)
  rw [pgtableWalk_eq_walkTo, hT.laid.walkTo_eq hroot (by simp) hu]

/-- A walk that does not come to a last entry finds zero in the tree. -/
theorem pgtableWalk_getD (hT : Tables window top base log m T) (hroot : T [] = some pgtable)
    (htop : top (indexOf PGD_OFFSET va)) :
    (pgtableWalk window m pgtable va).getD 0 = entries window m T (pathOf va) := by
  rw [pgtableWalk_eq hT hroot htop]
  cases hp : T [indexOf PMD_OFFSET va, indexOf PUD_OFFSET va, indexOf PGD_OFFSET va] with
  | none => exact (entries_none hp).symm
  | some p => exact (entries_some hp).symm

end Walk

/-! ### Runs on a zero root -/

/-- What is known after a run of calls. `log` are the pages that were allocated. -/
structure MapRun (window : Word) (base : Word → Prop) (root : Word) (calls : List MapCall)
    (log : List Word) (m : Mem) (T : List (BitVec 9) → Option Word) : Prop where
  tables : Tables window (fun _ => True) base log m T
  rooted : T [] = some root
  history : History calls (entries window m T)

section MapRun

variable {σ : Type} {window root : Word} {alloc : σ → σ × Word}
  {base : Word → Prop} {calls : List MapCall} {log : List Word} {m : Mem} {s : σ}
  {T : List (BitVec 9) → Option Word}

/-- Before the first call, the root is the only table, and it is zero. -/
theorem mapRun_nil (hroot : PageAligned root) (hzero : ∀ i, view window m root i = 0)
    (hused : base root ∨ root ∈ log) :
    MapRun window base root [] log m (fun π => if π = [] then some root else none) := by
  have hnone : ∀ (i : BitVec 9) π, (if i :: π = [] then some root else none : Option Word) = none :=
    fun i π => if_neg (List.cons_ne_nil i π)
  have hentry : ∀ π, entries window m (fun π => if π = [] then some root else none) π = 0 := by
    intro π
    match π with
    | [] => rfl
    | [i] => exact (entries_some rfl).trans (hzero i)
    | i :: j :: π => exact entries_none (hnone j π)
  have honly : ∀ {π p}, (if π = [] then some root else none : Option Word) = some p →
      π = ([] : List (BitVec 9)) ∧ p = root := by
    intro π p h
    by_cases hπ : π = []
    · rw [if_pos hπ] at h
      exact ⟨hπ, (Option.some.inj h).symm⟩
    · rw [if_neg hπ] at h
      exact absurd h (by simp)
  -- The tree of tables, their addresses, and the entries, which are all empty.
  refine ⟨⟨⟨?_, ?_, ?_, ?_⟩, ?_, ?_⟩, rfl, ?_, ?_⟩
  · intro π π' p h h'
    rw [(honly h).1, (honly h').1]
  · intro π p i h _ _
    rw [(honly h).2, hzero, hnone]
    rfl
  · exact fun π i _ => hnone i π
  · intro π hlen
    exact if_neg fun h => by
      rw [h] at hlen
      exact absurd hlen (by decide)
  · intro π p h
    rw [(honly h).2]
    exact hroot
  · intro π p h
    rw [(honly h).2]
    exact hused
  · exact fun va => hentry _
  · exact fun va k _ _ => hentry _

/-- After every run whose allocations are fresh, the tables are a tree with the
history of the calls. -/
theorem mapRun_of_fresh (logOf : σ → List Word) (hlog : ∀ s, logOf (alloc s).1 = (alloc s).2 :: logOf s)
    (h : MapRun window base root [] (logOf s) m T) (htagged : ∀ c ∈ calls, c.Tagged)
    (hfresh : Fresh base (logOf (mapCalls (pgtableMap window alloc) m s root calls).2)) :
    ∃ T, MapRun window base root calls
      (logOf (mapCalls (pgtableMap window alloc) m s root calls).2)
      (mapCalls (pgtableMap window alloc) m s root calls).1 T := by
  -- Induction from the last call: the log of a run grows at its front.
  induction calls using List.reverseRecOn with
  | nil => exact ⟨T, h⟩
  | append_singleton calls c ih =>
      have hc := htagged c (by simp)
      have hcalls : ∀ c ∈ calls, c.Tagged := fun c' h => htagged c' (by simp [h])
      rw [mapCalls_append] at hfresh ⊢
      obtain ⟨T, hrun⟩ := ih hcalls (hfresh.suffix (pgtableMap_log hlog))
      obtain ⟨T', hT', hsub, heffect⟩ := pgtableMap_spec hlog hc.low hc.present hrun.tables
        hrun.rooted trivial rfl hfresh
      exact ⟨T', hT', hsub _ _ hrun.rooted, hrun.history.call hcalls heffect⟩

/-- A run on a zero root whose table pages are fresh. -/
theorem mapRun_of_tablePages (hroot : PageAligned root) (hzero : ∀ i, view window m root i = 0)
    (htagged : ∀ c ∈ calls, c.Tagged)
    (hfresh : Fresh (· = root) (tablePages window alloc m s root calls)) :
    ∃ T, MapRun window (· = root) root calls (tablePages window alloc m s root calls)
      (mapCalls (pgtableMap window alloc) m s root calls).1 T := by
  rw [← mapCalls_logged window alloc root calls m (s, [])]
  have hstart : MapRun window (· = root) root [] [] m _ := mapRun_nil hroot hzero (Or.inl rfl)
  exact mapRun_of_fresh Prod.snd (fun _ => rfl) hstart htagged hfresh

end MapRun

/-- After a run on any tree, a leaf has the value of the last call for its page, or its
old one. -/
theorem mapCalls_leaf {σ : Type} {window root : Word} {alloc : σ → σ × Word}
    {base : Word → Prop} {top : BitVec 9 → Prop} {calls : List MapCall} {m : Mem} {s : σ}
    {T : List (BitVec 9) → Option Word} (logOf : σ → List Word)
    (hlog : ∀ s, logOf (alloc s).1 = (alloc s).2 :: logOf s)
    (htagged : ∀ c ∈ calls, c.Tagged) (htop : ∀ c ∈ calls, top (indexOf PGD_OFFSET c.va))
    (hT : Tables window top base (logOf s) m T) (hroot : T [] = some root)
    (hfresh : Fresh base (logOf (mapCalls (pgtableMap window alloc) m s root calls).2)) :
    ∃ T', Tables window top base (logOf (mapCalls (pgtableMap window alloc) m s root calls).2)
        (mapCalls (pgtableMap window alloc) m s root calls).1 T' ∧ T' [] = some root ∧
      ∀ va, entries window (mapCalls (pgtableMap window alloc) m s root calls).1 T' (pathOf va) =
        ((lastCall va calls).map fun c => c.pa ||| c.attr).getD (entries window m T (pathOf va)) := by
  induction calls using List.reverseRecOn with
  | nil => exact ⟨T, hT, hroot, fun va => rfl⟩
  | append_singleton calls c ih =>
      have hc := htagged c (by simp)
      rw [mapCalls_append] at hfresh ⊢
      -- The last call writes its own leaf and keeps the others.
      obtain ⟨T₁, hT₁, hroot₁, hleaf⟩ := ih (fun c' h => htagged c' (by simp [h]))
        (fun c' h => htop c' (by simp [h])) (hfresh.suffix (pgtableMap_log hlog))
      obtain ⟨T', hT', hsub, heffect⟩ := pgtableMap_spec hlog hc.low hc.present hT₁ hroot₁
        (htop c (by simp)) rfl hfresh
      refine ⟨T', hT', hsub _ _ hroot₁, fun va => ?_⟩
      rw [lastCall_append]
      have hsame := sameFrom_iff c.va va 4 (by decide)
      by_cases hva : SameFrom PTE_OFFSET c.va va
      · have hpath : pathOf c.va = pathOf va := hsame.mp hva
        rw [if_pos hva, ← hpath, heffect.leaf]
        rfl
      · have hpath : pathOf va ≠ pathOf c.va := fun e => hva (hsame.mpr e.symm)
        rw [if_neg hva, heffect.keep _ hpath fun hm => pathOf_not_inner hm.1]
        exact hleaf va

/-! ### A page table is a finite map -/

/-- The walk and the lookup of a table see the last call for each page. -/
structure IsMap (calls : List MapCall) (walk : Word → Option Word) (lookup : Word → Word) :
    Prop where
  mapped : ∀ va c, lastCall va calls = some c → walk va = some (c.pa ||| c.attr)
  unmapped : ∀ va, lastCall va calls = none → walk va = none ∨ walk va = some 0
  found : ∀ va c, lastCall va calls = some c → c.pa ≠ 0 → lookup va = c.pa
  missing : ∀ va, lastCall va calls = none → kernelVaIsPhysZero va = false → lookup va = -1

/-- After a run, the walk and the lookup see the finite map that the calls describe: for each
address the last call for its page decides, and an address that no call is for is not found. -/
theorem MapRun.isMap {window root : Word} {base : Word → Prop} {calls : List MapCall}
    {log : List Word} {m : Mem} {T : List (BitVec 9) → Option Word}
    (h : MapRun window base root calls log m T)
    (hvalid : ∀ c ∈ calls, c.Valid) :
    IsMap calls (pgtableWalk window m root) (pgtableGetPa window m root) := by
  -- The walk ends at the leaf, which holds what the last call for the page wrote.
  have hleaf : ∀ va, (pgtableWalk window m root va).getD 0 =
      ((lastCall va calls).map fun c => c.pa ||| c.attr).getD 0 := by
    intro va
    rw [pgtableWalk_getD h.tables h.rooted trivial]
    exact h.history.leaf va
  have hmapped : ∀ va c, lastCall va calls = some c →
      pgtableWalk window m root va = some (c.pa ||| c.attr) := by
    intro va c hc
    have hva := hleaf va
    -- A written entry is present, and so it is not empty.
    have hne : c.pa ||| c.attr ≠ 0 := or_attr_ne_zero (hvalid c (lastCall_mem hc)).present
    rw [hc, Option.map_some, Option.getD_some] at hva
    cases hw : pgtableWalk window m root va with
    | none =>
        rw [hw, Option.getD_none] at hva
        exact absurd hva.symm hne
    | some e =>
        rw [hw, Option.getD_some] at hva
        rw [hva]
  have hunmapped : ∀ va, lastCall va calls = none →
      pgtableWalk window m root va = none ∨ pgtableWalk window m root va = some 0 := by
    intro va hc
    have hva := hleaf va
    rw [hc, Option.map_none, Option.getD_none] at hva
    cases hw : pgtableWalk window m root va with
    | none => exact Or.inl rfl
    | some e =>
        rw [hw, Option.getD_some] at hva
        exact Or.inr (congrArg some hva)
  refine ⟨hmapped, hunmapped, fun va c hc hpa => ?_, fun va hc hva => ?_⟩
  · have hv := hvalid c (lastCall_mem hc)
    rw [pgtableGetPa_eq, hmapped va c hc, lookupOf, hv.aligned.or_and hv.low]
    exact if_neg (by simp [show ¬ c.pa = 0#64 from hpa])
  · rw [pgtableGetPa_eq]
    rcases hunmapped va hc with h | h
    · rw [h]
      rfl
    · rw [h]
      simp [lookupOf, hva]

/-- Both mapping functions of the kernel make the table a finite map, for every run of calls on a
zero root whose pages are fresh: walk and lookup find what the last call for a page has put there,
and nothing else. -/
theorem pgtableMap_isMap (calls : List MapCall) (hvalid : ∀ c ∈ calls, c.Valid) (m : Mem)
    (root : Word) (hroot : PageAligned root)
    (hzero : ∀ i, view KERNEL_DIRECT_MAPPING_AREA m root i = 0) :
    (∀ la, Fresh (· = root) (tablePages KERNEL_DIRECT_MAPPING_AREA
        (fun la => mmInitPhysAllocLinear la PAGE_SIZE) m la root calls) →
      let m' := (mapCalls mmInitPgtableMap m la root calls).1
      IsMap calls (pgtableWalk KERNEL_DIRECT_MAPPING_AREA m' root) (mmInitPgtableGetPa m' root)) ∧
    (∀ b, Fresh (· = root) (tablePages KERNEL_DIRECT_MAPPING_AREA mmPhysAllocPage m b root calls) →
      let m' := (mapCalls mmPgtableMap m b root calls).1
      IsMap calls (pgtableWalk KERNEL_DIRECT_MAPPING_AREA m' root) (mmPgtableGetVaPte m' root)) := by
  constructor
  · intro la hfresh
    obtain ⟨T, hrun⟩ := mapRun_of_tablePages hroot hzero (fun c h => (hvalid c h).toTagged) hfresh
    exact hrun.isMap hvalid
  · intro b hfresh
    obtain ⟨T, hrun⟩ := mapRun_of_tablePages hroot hzero (fun c h => (hvalid c h).toTagged) hfresh
    exact hrun.isMap hvalid

/-- Two pages with different tables below the root, mapped with a linear
allocator and with a buddy system of eight frames. -/
theorem pgtableMap_isMap_two :
    let calls : List MapCall := [⟨0x7000, 0x5000, 3⟩, ⟨0x8000000000, 0, 1⟩]
    let la : LinearAlloc := { LinearAlloc.static with mmAllocStart := 0x1000, mmAllocEnd := 0x9000 }
    let b := freeRange (fun _ => true) cleared 1 8
    let m : Mem := fun _ => 0
    (∀ c ∈ calls, c.Valid) ∧
      IsMap calls
        (pgtableWalk KERNEL_DIRECT_MAPPING_AREA (mapCalls mmInitPgtableMap m la 0x10000 calls).1
          0x10000)
        (mmInitPgtableGetPa (mapCalls mmInitPgtableMap m la 0x10000 calls).1 0x10000) ∧
      IsMap calls
        (pgtableWalk KERNEL_DIRECT_MAPPING_AREA (mapCalls mmPgtableMap m b 0x10000 calls).1 0x10000)
        (mmPgtableGetVaPte (mapCalls mmPgtableMap m b 0x10000 calls).1 0x10000) := by
  intro calls la b m
  have hvalid : ∀ c ∈ calls, c.Valid := by decide
  have hzero : ∀ i, view KERNEL_DIRECT_MAPPING_AREA m 0x10000 i = 0 := by
    intro i
    show ofBytes (fun _ => 0) = 0
    rfl
  have hmap := pgtableMap_isMap calls hvalid m 0x10000 (by decide) hzero
  -- Both allocators hand out the frames from 1 on.
  have hpages : Fresh (· = 0x10000) [0x6000, 0x5000, 0x4000, 0x3000, 0x2000, 0x1000] :=
    ⟨by decide, by simp [PageAligned, PAGE_MASK, PAGE_SIZE, PAGE_SHIFT], by simp⟩
  refine ⟨hvalid, hmap.1 la (hpages.suffix ?_), hmap.2 b (hpages.suffix ?_)⟩
  · have hlog : ((fun s => (logged (fun la => mmInitPhysAllocLinear la PAGE_SIZE) s).1)^[3 *
        calls.length] (la, [])).2 = [0x6000, 0x5000, 0x4000, 0x3000, 0x2000, 0x1000] := by decide
    rw [← hlog]
    exact tablePages_suffix _ _ m la 0x10000 calls
  · have hlog : ((fun s => (logged mmPhysAllocPage s).1)^[3 * calls.length] (b, [])).2
        = [0x6000, 0x5000, 0x4000, 0x3000, 0x2000, 0x1000] := by decide
    rw [← hlog]
    exact tablePages_suffix _ _ m b 0x10000 calls

end SumiOS
