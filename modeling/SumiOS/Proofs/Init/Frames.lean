import SumiOS.Proofs.Buddy.Ascending
import SumiOS.Proofs.Init.Linear
import SumiOS.Proofs.List.Sequences

/-!
# `SumiOS.Proofs.Init.Frames`: the frame loops over the memory map

The three loops of `mm_pages_allocator_init` over the frames of the memory map
visit the same frames (`visitsOf`), in ascending order. They visit all frames of an
entry, unless the entry ends at `2 ^ 64`: its end is then 0, and the loop does not
start. `freedFrames` are the frames that the last loop frees, and
`beforeFree_untouched` says that the buddy system is empty before it.
-/

set_option autoImplicit false

namespace SumiOS

open Lib

/-! ### The memory map -/

/-- The address lies in the entry. -/
def MmapEntry.Holds (e : MmapEntry) (a : Nat) : Prop :=
  e.addr.toNat ≤ a ∧ a < e.addr.toNat + e.len.toNat

/-- The end of the entry. -/
def MmapEntry.stop (e : MmapEntry) : Nat := e.addr.toNat + e.len.toNat

/-- A memory map: page-aligned entries that end at most at `bound`, pairwise
disjoint and in ascending order. -/
structure MemoryMap (bound : Nat) (entries : List MmapEntry) : Prop where
  addrs : ∀ e ∈ entries, PageAligned e.addr
  lens : ∀ e ∈ entries, PageAligned e.len
  bounded : ∀ e ∈ entries, e.stop ≤ bound
  ascending : entries.Pairwise fun e e' => e.addr ≤ e'.addr
  disjoint : entries.Pairwise fun e e' => ∀ a, ¬ (e.Holds a ∧ e'.Holds a)

/-- A memory map below a bound is one below any larger bound. -/
theorem MemoryMap.mono {bound bound' : Nat} {entries : List MmapEntry} (h : MemoryMap bound entries)
    (hle : bound ≤ bound') : MemoryMap bound' entries :=
  ⟨h.addrs, h.lens, fun e he => (h.bounded e he).trans hle, h.ascending, h.disjoint⟩

/-- Entries of which each one ends in front of the next ones are in ascending order and
disjoint. -/
theorem MemoryMap.of_stops {bound : Nat} {entries : List MmapEntry}
    (haddrs : ∀ e ∈ entries, PageAligned e.addr) (hlens : ∀ e ∈ entries, PageAligned e.len)
    (hbounded : ∀ e ∈ entries, e.stop ≤ bound)
    (hstops : entries.Pairwise fun e e' => e.stop ≤ e'.addr.toNat) : MemoryMap bound entries where
  addrs := haddrs
  lens := hlens
  bounded := hbounded
  ascending := by
    refine hstops.imp fun {e e'} h => ?_
    rw [BitVec.le_def]
    unfold MmapEntry.stop at h
    omega
  disjoint := by
    refine hstops.imp fun {e e'} h a hboth => ?_
    obtain ⟨⟨-, hlt⟩, hle, -⟩ := hboth
    unfold MmapEntry.stop at h
    omega

/-- An entry holds its first address, unless it is empty. -/
theorem MmapEntry.holds_addr {e : MmapEntry} (h : e.len ≠ 0) : e.Holds e.addr.toNat := by
  have hpos : e.len.toNat ≠ 0 := fun hzero => h (BitVec.eq_of_toNat_eq hzero)
  unfold MmapEntry.Holds
  omega

/-- An address lies in one of disjoint entries only. -/
theorem entry_unique_of_disjoint {entries : List MmapEntry}
    (hdisj : entries.Pairwise fun e e' => ∀ a, ¬ (e.Holds a ∧ e'.Holds a)) {e e' : MmapEntry}
    {a : Nat} (he : e ∈ entries) (he' : e' ∈ entries) (h : e.Holds a) (h' : e'.Holds a) : e = e' := by
  by_contra hne
  have hsymm : Std.Symm fun e e' : MmapEntry => ∀ a, ¬ (e.Holds a ∧ e'.Holds a) :=
    ⟨fun _ _ hd a ha => hd a ha.symm⟩
  exact hdisj.forall he he' hne a ⟨h, h'⟩

/-- The frames of an entry that the loops visit. -/
def entryFrames (e : MmapEntry) : List Word :=
  if e.stop < 2 ^ 64 then (List.range (e.len.toNat / 4096)).map (pageAfter e.addr) else []

/-- What the loops visit. -/
def visitsOf (entries : List MmapEntry) : List (MmapEntry × Word) :=
  entries.flatMap fun e => (entryFrames e).map (e, ·)

section Visits

variable {bound : Nat} {entries : List MmapEntry} {e : MmapEntry} {v : MmapEntry × Word}

/-- A frame loop that goes on for `n` rounds and then stops visits the first `n` pages. The fuel
has to be more than that, because the last round is the one that finds the end. -/
theorem framesFrom_eq {stop : Word} (n : Nat) : ∀ (fuel : Nat) (pa : Word), n < fuel →
    (∀ i < n, pageAfter pa i < stop) → ¬ pageAfter pa n < stop →
    framesFrom stop fuel pa = some ((List.range n).map (pageAfter pa)) := by
  induction n with
  | zero =>
      intro fuel pa hfuel _ hend
      obtain ⟨fuel, rfl⟩ := Nat.exists_eq_succ_of_ne_zero hfuel.ne'
      rw [pageAfter_zero] at hend
      exact if_neg hend
  | succ n ih =>
      intro fuel pa hfuel hmore hend
      obtain ⟨fuel, rfl⟩ := Nat.exists_eq_succ_of_ne_zero (Nat.ne_zero_of_lt hfuel)
      have hfirst := hmore 0 (Nat.succ_pos n)
      rw [pageAfter_zero] at hfirst
      have hrest := ih fuel (pa + PAGE_SIZE) (by omega)
        (fun i hi => by rw [pageAfter_succ]; exact hmore (i + 1) (by omega))
        (by rw [pageAfter_succ]; exact hend)
      rw [framesFrom, if_pos hfirst, hrest, List.range_succ_eq_map, List.map_cons, List.map_map,
        pageAfter_zero]
      refine congrArg (fun l => some (pa :: l)) (List.map_congr_left fun i _ => ?_)
      exact pageAfter_succ i

/-- The loops over an entry end, and visit its frames. An entry that ends at the top of the address
space is the exception: its end has wrapped around to 0, and nothing of it is visited. -/
theorem frameVisits_eq (haddr : PageAligned e.addr) (hlen : PageAligned e.len)
    (hstop : e.stop ≤ 2 ^ 64) : frameVisits e = some (entryFrames e) := by
  have hmod := haddr.toNat_mod
  have hmodl := hlen.toNat_mod
  have hlt := e.len.isLt
  rw [frameVisits, entryFrames]
  unfold MmapEntry.stop at hstop ⊢
  by_cases hend : e.addr.toNat + e.len.toNat < 2 ^ 64
  · have hnat : (e.addr + e.len).toNat = e.addr.toNat + e.len.toNat := by
      rw [BitVec.toNat_add]
      omega
    rw [if_pos hend]
    refine framesFrom_eq _ _ _ (by omega) (fun i hi => ?_) ?_
    · rw [BitVec.lt_def, hnat, pageAfter_toNat (by omega)]
      omega
    · rw [BitVec.lt_def, hnat, pageAfter_toNat (by omega)]
      omega
  · -- The end of the entry is 0.
    have hzero : e.addr + e.len = 0 := by
      apply BitVec.eq_of_toNat_eq
      rw [BitVec.toNat_add]
      show _ = 0
      omega
    rw [if_neg hend, hzero]
    exact framesFrom_eq 0 _ _ (by omega) (fun i hi => absurd hi (Nat.not_lt_zero i)) BitVec.not_lt_zero

/-- When no entry ends behind `2 ^ 64` and all are made of pages, the loops over the frames end,
and they visit `visitsOf`. -/
theorem allVisits_eq (haddr : ∀ e ∈ entries, PageAligned e.addr)
    (hlen : ∀ e ∈ entries, PageAligned e.len) (hstop : ∀ e ∈ entries, e.stop ≤ 2 ^ 64) :
    allVisits entries = some (visitsOf entries) := by
  induction entries with
  | nil => rfl
  | cons e es ih =>
      have hrest := ih (fun e' h => haddr e' (List.mem_cons_of_mem e h))
        (fun e' h => hlen e' (List.mem_cons_of_mem e h))
        (fun e' h => hstop e' (List.mem_cons_of_mem e h))
      have hfirst := frameVisits_eq (haddr e List.mem_cons_self) (hlen e List.mem_cons_self)
        (hstop e List.mem_cons_self)
      rw [allVisits, hfirst, hrest]
      rfl

end Visits

/-! ### The frames that are freed -/

/-- The frame lies in the entry. -/
def MmapEntry.HasFrame (e : MmapEntry) (x : Int) : Prop :=
  (e.addr.toNat : Int) ≤ 4096 * x ∧ 4096 * x < e.stop

/-- The page structs that the last loop frees when it visits these addresses, in its order. -/
def freedPages (visits : List (MmapEntry × Word)) (mmAllocEnd : Word) : List Int :=
  (visits.filter fun v =>
    decide (v.2 ≥ mmAllocEnd ∧ v.1.type = MULTIBOOT_MEMORY_AVAILABLE)).map fun v => pageOf v.2

/-- The frames that the last loop frees, in its order. -/
def freedFrames (entries : List MmapEntry) (mmAllocEnd : Word) : List Int :=
  ((visitsOf entries).filter fun v =>
    decide (v.2 ≥ mmAllocEnd ∧ v.1.type = MULTIBOOT_MEMORY_AVAILABLE)).map fun v => pageOf v.2

section Freed

variable {bound : Nat} {entries : List MmapEntry} {e : MmapEntry} {v : MmapEntry × Word} {x : Int}
  {mmAllocEnd : Word}

/-- The frame of an address is its quotient by the page size, as a number that may be subtracted
from. -/
theorem pageOf_eq (start : Word) : pageOf start = ((start.toNat / 4096 : Nat) : Int) := by
  rw [pageOf, frameIdx, BitVec.toNat_udiv]
  rfl

/-- The visited frames of an entry, by their indices: those that it has, provided that it does not
end at the top of the address space. -/
theorem mem_entryFrames (haddr : PageAligned e.addr) (hlen : PageAligned e.len) :
    (∃ w ∈ entryFrames e, pageOf w = x ∧ w.toNat = 4096 * x) ↔
      e.stop < 2 ^ 64 ∧ e.HasFrame x := by
  have hmod := haddr.toNat_mod
  have hmodl := hlen.toNat_mod
  unfold entryFrames MmapEntry.HasFrame
  by_cases hend : e.stop < 2 ^ 64
  · simp only [hend, if_true, true_and, List.mem_map, List.mem_range]
    unfold MmapEntry.stop at hend ⊢
    constructor
    · rintro ⟨w, ⟨i, hi, rfl⟩, -, hx⟩
      rw [pageAfter_toNat (by omega)] at hx
      omega
    · rintro ⟨hle, hlt⟩
      obtain ⟨i, hi⟩ : ∃ i : Nat, 4096 * x = e.addr.toNat + 4096 * i :=
        ⟨((4096 * x - e.addr.toNat) / 4096).toNat, by omega⟩
      have hnat : (pageAfter e.addr i).toNat = e.addr.toNat + 4096 * i :=
        pageAfter_toNat (by omega)
      refine ⟨_, ⟨i, by omega, rfl⟩, ?_, by omega⟩
      rw [pageOf_eq, hnat]
      omega
  · rw [if_neg hend]
    exact iff_of_false (fun ⟨_, hw, _⟩ => absurd hw List.not_mem_nil) fun h => hend h.1

/-- Visited frames are page-aligned, so each is its frame number times the size of a page. -/
theorem entryFrames_aligned (haddr : PageAligned e.addr) {w : Word} (hw : w ∈ entryFrames e) :
    w.toNat = 4096 * pageOf w := by
  have hw' : PageAligned w := by
    unfold entryFrames at hw
    split at hw
    · obtain ⟨i, -, rfl⟩ := List.mem_map.mp hw
      exact haddr.pageAfter i
    · exact absurd hw List.not_mem_nil
  have hmod := hw'.toNat_mod
  rw [pageOf_eq]
  omega

/-- What the loops visit, by the indices of the frames: an entry is visited at each of its frames,
unless it ends at the top of the address space. -/
theorem mem_visitsOf (hmap : MemoryMap bound entries) :
    (∃ w, (e, w) ∈ visitsOf entries ∧ pageOf w = x ∧ w.toNat = 4096 * x) ↔
      e ∈ entries ∧ e.stop < 2 ^ 64 ∧ e.HasFrame x := by
  have hvisit : ∀ w, (e, w) ∈ visitsOf entries ↔ e ∈ entries ∧ w ∈ entryFrames e := by
    intro w
    simp only [visitsOf, List.mem_flatMap, List.mem_map, Prod.mk.injEq]
    constructor
    · rintro ⟨e', he', w', hw', rfl, rfl⟩
      exact ⟨he', hw'⟩
    · rintro ⟨he, hw⟩
      exact ⟨e, he, w, hw, rfl, rfl⟩
  simp only [hvisit]
  constructor
  · rintro ⟨w, ⟨he, hw⟩, hx⟩
    exact ⟨he, (mem_entryFrames (hmap.addrs e he) (hmap.lens e he)).mp ⟨w, hw, hx⟩⟩
  · rintro ⟨he, hx⟩
    obtain ⟨w, hw, hx⟩ := (mem_entryFrames (hmap.addrs e he) (hmap.lens e he)).mpr hx
    exact ⟨w, ⟨he, hw⟩, hx⟩

/-- The addresses visited are those of whole frames, so they can be recovered from the frame
numbers. -/
theorem visitsOf_aligned (hmap : MemoryMap bound entries) (hv : v ∈ visitsOf entries) :
    v.2.toNat = 4096 * pageOf v.2 := by
  simp only [visitsOf, List.mem_flatMap, List.mem_map] at hv
  obtain ⟨e, he, w, hw, rfl⟩ := hv
  exact entryFrames_aligned (hmap.addrs e he) hw

/-- A frame is freed when it is available, behind `mm_alloc_end`, and in an entry whose end has not
wrapped around. -/
theorem mem_freedFrames (hmap : MemoryMap bound entries) :
    x ∈ freedFrames entries mmAllocEnd ↔
      ∃ e ∈ entries, e.type = MULTIBOOT_MEMORY_AVAILABLE ∧ e.stop < 2 ^ 64 ∧ e.HasFrame x ∧
        mmAllocEnd.toNat ≤ 4096 * x := by
  simp only [freedFrames, List.mem_map, List.mem_filter, decide_eq_true_eq]
  constructor
  · rintro ⟨⟨e, w⟩, ⟨hv, hge, hty⟩, hx⟩
    have hnat := visitsOf_aligned hmap hv
    have hge : mmAllocEnd.toNat ≤ w.toNat := BitVec.le_def.mp hge
    simp only at hx hnat
    rw [hx] at hnat
    obtain ⟨he, hstop, hframe⟩ := (mem_visitsOf hmap).mp ⟨w, hv, hx, hnat⟩
    exact ⟨e, he, hty, hstop, hframe, by omega⟩
  · rintro ⟨e, he, hty, hstop, hframe, hge⟩
    obtain ⟨w, hv, hx, hnat⟩ := (mem_visitsOf hmap).mpr ⟨he, hstop, hframe⟩
    have hle : mmAllocEnd.toNat ≤ w.toNat := by omega
    exact ⟨(e, w), ⟨hv, BitVec.le_def.mpr hle, hty⟩, hx⟩

/-- The frames are visited in ascending order: inside an entry the next frame is one page further,
and the entries themselves are ascending and disjoint. -/
theorem visitsOf_sorted (hmap : MemoryMap bound entries) :
    (visitsOf entries).Pairwise fun v v' => pageOf v.2 < pageOf v'.2 := by
  refine List.pairwise_flatMap.mpr ⟨fun e he => ?_, ?_⟩
  · have hmodl := (hmap.lens e he).toNat_mod
    unfold entryFrames
    split
    · rename_i hend
      unfold MmapEntry.stop at hend
      -- Inside an entry, the next frame is one page further.
      have hmono : ∀ i ∈ List.range (e.len.toNat / 4096), ∀ j ∈ List.range (e.len.toNat / 4096),
          i < j → pageOf (pageAfter e.addr i) < pageOf (pageAfter e.addr j) := by
        intro i hi j hj hij
        rw [List.mem_range] at hi hj
        rw [pageOf_eq, pageOf_eq, pageAfter_toNat (by omega), pageAfter_toNat (by omega)]
        omega
      rw [List.map_map, List.pairwise_map]
      exact List.pairwise_lt_range.imp_of_mem fun hi hj hij => hmono _ hi _ hj hij
    · exact List.Pairwise.nil
  · -- A frame of a later entry is not in front of the earlier one, and not in it.
    refine (hmap.ascending.and hmap.disjoint).imp_of_mem fun {e e'} he he' hpair => ?_
    obtain ⟨hle, hdisj⟩ := hpair
    have hle := BitVec.le_def.mp hle
    rintro _ hv _ hv'
    obtain ⟨w, hw, rfl⟩ := List.mem_map.mp hv
    obtain ⟨w', hw', rfl⟩ := List.mem_map.mp hv'
    have hnat := entryFrames_aligned (hmap.addrs e he) hw
    have hnat' := entryFrames_aligned (hmap.addrs e' he') hw'
    obtain ⟨-, hin⟩ := (mem_entryFrames (hmap.addrs e he) (hmap.lens e he)).mp ⟨w, hw, rfl, hnat⟩
    obtain ⟨-, hin'⟩ :=
      (mem_entryFrames (hmap.addrs e' he') (hmap.lens e' he')).mp ⟨w', hw', rfl, hnat'⟩
    have hnot := hdisj w'.toNat
    show pageOf w < pageOf w'
    unfold MmapEntry.HasFrame MmapEntry.stop at hin hin'
    unfold MmapEntry.Holds at hnot
    omega

/-- The frames are freed in strictly ascending order, none of them twice, because the entries are
ascending and disjoint. -/
theorem freedFrames_sorted (hmap : MemoryMap bound entries) :
    (freedFrames entries mmAllocEnd).Pairwise (· < ·) :=
  List.pairwise_map.mpr ((visitsOf_sorted hmap).filter _)

/-- The last loop frees these page structs, one after the other; visits of other entries, or in
front of `mm_alloc_end`, do nothing. -/
theorem foldl_freePages (visits : List (MmapEntry × Word)) (mem : Mem) (kernPgtable : Word)
    (b : Buddy) :
    visits.foldl (freeFrame mem kernPgtable mmAllocEnd) b =
      freeFrames (pageMapped mem kernPgtable) b (freedPages visits mmAllocEnd) := by
  unfold freedPages freeFrames
  induction visits generalizing b with
  | nil => rfl
  | cons v vs ih =>
      rw [List.foldl_cons, List.filter_cons, ih]
      by_cases h : v.2 ≥ mmAllocEnd ∧ v.1.type = MULTIBOOT_MEMORY_AVAILABLE
      · rw [if_pos (decide_eq_true h), List.map_cons, List.foldl_cons, freeFrame, if_pos h]
      · rw [if_neg (by simpa using h), freeFrame, if_neg h]

/-- The last loop frees the frames of `freedFrames` one after the other, and does nothing for the
other visits. -/
theorem foldl_freeFrame (mem : Mem) (kernPgtable : Word) (b : Buddy) :
    (visitsOf entries).foldl (freeFrame mem kernPgtable mmAllocEnd) b =
      freeFrames (pageMapped mem kernPgtable) b (freedFrames entries mmAllocEnd) :=
  foldl_freePages (visitsOf entries) mem kernPgtable b

end Freed

/-! ### The state before frames are freed -/

section Before

variable {bootMemAllocStart kernPgtable : Word} {entries : List MmapEntry}
  {visits : List (MmapEntry × Word)} {mem : Mem} {b : Buddy} {st : InitState}

/-- The page structs that the loop initializes. -/
def initPages (b : Buddy) (visits : List (MmapEntry × Word)) : Buddy :=
  visits.foldl (fun b v => initPage b (pageOf v.2) v.1.type) b

/-- Backing a page with memory does not touch the buddy system. -/
theorem backPage_buddy (st : InitState) (p : Word) : (backPage kernPgtable st p).buddy = st.buddy := by
  unfold backPage
  split
  · rfl
  · rfl

/-- The loop over the page structs does to the buddy system what initialising the struct of each
visited frame does. -/
theorem foldl_initFrame_buddy (st : InitState) :
    (visits.foldl (initFrame kernPgtable) st).buddy = initPages st.buddy visits := by
  induction visits generalizing st with
  | nil => rfl
  | cons v vs ih =>
      have hfirst : (initFrame kernPgtable st v).buddy =
          initPage st.buddy (pageOf v.2) v.1.type := by
        rw [initFrame, backPage_buddy]
      rw [List.foldl_cons, ih, hfirst]
      rfl

/-- The loop over the direct mapping area does not touch the buddy system. -/
theorem foldl_mapDirect_buddy (st : InitState) :
    (visits.foldl (fun st v => mapDirect kernPgtable st v.2) st).buddy = st.buddy := by
  induction visits generalizing st with
  | nil => rfl
  | cons v vs ih => rw [List.foldl_cons, ih, mapDirect]

/-- No page struct reads as free after the initialization, when those that were
not visited do not. -/
theorem initPages_isFree {x : Int} (h : (∀ v ∈ visits, pageOf v.2 ≠ x) → (b.pages x).isFree = false) :
    ((initPages b visits).pages x).isFree = false := by
  induction visits generalizing b with
  | nil => exact h fun v hv => absurd hv List.not_mem_nil
  | cons v vs ih =>
      refine ih fun hvs => ?_
      by_cases hx : x = pageOf v.2
      · simp [initPage, hx]
      · simp only [initPage, Function.update_of_ne hx]
        exact h (List.forall_mem_cons.mpr ⟨fun e => hx e.symm, hvs⟩)

/-- `freelist_init` makes all lists empty, whatever their heads held before. -/
theorem freelistInit_empty (b : Buddy) : ∀ k < MAX_PAGE_ORDER,
    IsRing (freelistInit b).links (freelist k) [] := by
  intro k hk
  exact (freelistInit_represents b).ring (freelist k) (List.mem_map_of_mem (List.mem_range.mpr hk))

/-- Before frames are freed, no page struct reads as free, and the lists are
empty. -/
theorem beforeFree_untouched {mapped : Int → Bool} {xs : List Int}
    (h : beforeFree bootMemAllocStart kernPgtable entries visits mem b = some st)
    (houtside : ∀ x, (∀ v ∈ visits, pageOf v.2 ≠ x) → (b.pages x).isFree = false)
    (hmapped : ∀ x ∈ xs, mapped x = true) : Untouched mapped st.buddy xs := by
  rw [beforeFree, Option.map_eq_some_iff] at h
  obtain ⟨la, -, rfl⟩ := h
  refine ⟨hmapped, fun x => ?_, freelistInit_empty _⟩
  show ((visits.foldl (initFrame kernPgtable) _).buddy.pages x).isFree = false
  rw [foldl_initFrame_buddy, foldl_mapDirect_buddy]
  exact initPages_isFree (houtside x)

end Before

end SumiOS
