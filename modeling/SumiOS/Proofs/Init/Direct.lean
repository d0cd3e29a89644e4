import SumiOS.Proofs.Init.Mapping

/-!
# `SumiOS.Proofs.Init.Direct`: the direct mapping after its loop

The loop maps the addresses `addr`, `addr + PAGE_SIZE`, … of every entry, and puts them
into the leaves as they are. With entries at any byte address, an entry visits at
most one address of a frame (`MmapEntry.visitIn`), and the last entry that visits a frame
decides its leaf (`lastCall_visits`). The low bits of that address end up next to the
attributes, and frames that no entry visits keep the leaf that they had.

`directMapped_iff` turns this into a condition on the memory map.
-/

set_option autoImplicit false

namespace SumiOS

open Lib

/-! ### The visits of the loop -/

/-- The address of the frame `f` at which an entry would visit it. -/
def MmapEntry.visitIn (e : MmapEntry) (f : Nat) : Nat := 4096 * f + e.addr.toNat % 4096

/-- The loop over the entry visits the frame. -/
def MmapEntry.Visits (e : MmapEntry) (f : Nat) : Prop := e.Holds (e.visitIn f)

instance (e : MmapEntry) (f : Nat) : Decidable (e.Visits f) :=
  inferInstanceAs (Decidable (_ ∧ _))

/-- The last entry that visits the frame. -/
def lastVisitor (entries : List MmapEntry) (f : Nat) : Option MmapEntry :=
  entries.reverse.find? fun e => e.Visits f

/-- The call of the loop for an address. -/
def directCall (pa : Word) : MapCall :=
  ⟨physToKernelDirectMappingAddr pa, pa, PAGE_ATTR_RW ||| PAGE_ATTR_P⟩

/-- The attributes of the call lie in the low twelve bits, and the present bit is one of them. -/
theorem directCall_tagged (pa : Word) : (directCall pa).Tagged where
  low := show (PAGE_ATTR_RW ||| PAGE_ATTR_P) &&& PAGE_MASK = 0 by decide
  present := show (PAGE_ATTR_RW ||| PAGE_ATTR_P) &&& PAGE_ATTR_P = PAGE_ATTR_P by decide

/-- The addresses that the loop visits in an entry. -/
def byteVisits (e : MmapEntry) : List Word :=
  (List.range ((e.len.toNat + 4095) / 4096)).map (pageAfter e.addr)

/-- The calls of the loop. -/
def callsOf (visits : List (MmapEntry × Word)) : List MapCall := visits.map fun v => directCall v.2

section Visits

variable {e : MmapEntry} {entries : List MmapEntry} {pa x : Word}

/-- The loop over an entry ends, and visits an address in every page size from its start on. -/
theorem frameVisits_bytes (hstop : e.stop ≤ 2 ^ 46) : frameVisits e = some (byteVisits e) := by
  unfold MmapEntry.stop at hstop
  have hnat : (e.addr + e.len).toNat = e.addr.toNat + e.len.toNat := by
    rw [BitVec.toNat_add]
    omega
  refine framesFrom_eq _ _ _ (by omega) (fun i hi => ?_) ?_
  · rw [BitVec.lt_def, hnat, pageAfter_toNat (by omega)]
    omega
  · rw [BitVec.lt_def, hnat, pageAfter_toNat (by omega)]
    omega

/-- In a bounded map the loop visits each entry from its first byte on, a page at a time, wherever
the entry starts. -/
theorem allVisits_bytes (hstop : ∀ e ∈ entries, e.stop ≤ 2 ^ 46) :
    allVisits entries = some (entries.flatMap fun e => (byteVisits e).map (e, ·)) := by
  induction entries with
  | nil => rfl
  | cons e es ih =>
      obtain ⟨hfirst, hrest⟩ := List.forall_mem_cons.mp hstop
      rw [allVisits, frameVisits_bytes hfirst, ih hrest]
      rfl

/-- An entry visits the addresses of its frames that have the same place in their page as its
start, one in each. -/
theorem mem_byteVisits (hstop : e.stop < 2 ^ 64) :
    pa ∈ byteVisits e ↔ e.Visits (pa.toNat / 4096) ∧ pa.toNat = e.visitIn (pa.toNat / 4096) := by
  unfold MmapEntry.stop at hstop
  unfold byteVisits MmapEntry.Visits MmapEntry.Holds MmapEntry.visitIn
  rw [List.mem_map]
  constructor
  · intro h
    obtain ⟨i, hi, rfl⟩ := h
    have hlt := List.mem_range.mp hi
    rw [pageAfter_toNat (by omega)]
    omega
  · intro h
    refine ⟨pa.toNat / 4096 - e.addr.toNat / 4096, List.mem_range.mpr (by omega), ?_⟩
    apply BitVec.eq_of_toNat_eq
    rw [pageAfter_toNat (by omega)]
    omega

/-- The visited addresses are addresses of the entries, so a bound on the ends of the entries is
one on them. -/
theorem visits_below {visits : List (MmapEntry × Word)} {bound : Nat}
    (hstop : ∀ e ∈ entries, e.stop ≤ 2 ^ 46) (hbound : ∀ e ∈ entries, e.stop ≤ bound)
    (hvisits : allVisits entries = some visits) : ∀ v ∈ visits, v.2.toNat < bound := by
  intro v hv
  rw [allVisits_bytes hstop, Option.some.injEq] at hvisits
  rw [← hvisits] at hv
  obtain ⟨e, he, hmem⟩ := List.mem_flatMap.mp hv
  obtain ⟨pa, hpa, rfl⟩ := List.mem_map.mp hmem
  obtain ⟨⟨-, hhigh⟩, heq⟩ := (mem_byteVisits ((hstop e he).trans_lt (by decide))).mp hpa
  have hle := hbound e he
  unfold MmapEntry.stop at hle
  show pa.toNat < _
  omega

/-- All visited addresses are below the bound of the map. -/
theorem visits_lt {visits : List (MmapEntry × Word)} (hstop : ∀ e ∈ entries, e.stop ≤ 2 ^ 46)
    (hvisits : allVisits entries = some visits) : ∀ v ∈ visits, v.2.toNat < 2 ^ 46 :=
  visits_below hstop hstop hvisits

/-- The direct mapping address of a bounded address, as a number: nothing wraps around. -/
theorem physToKernelDirectMappingAddr_toNat (h : x.toNat < 2 ^ 46) :
    (physToKernelDirectMappingAddr x).toNat = KERNEL_DIRECT_MAPPING_AREA.toNat + x.toNat := by
  have hdm : KERNEL_DIRECT_MAPPING_AREA.toNat = 18446612682070032384 := rfl
  rw [physToKernelDirectMappingAddr, BitVec.toNat_add]
  omega

/-- Pages of the direct mapping area are told apart by their frames. -/
theorem sameFrom_direct (hpa : pa.toNat < 2 ^ 46) (hx : x.toNat < 2 ^ 46) :
    SameFrom PTE_OFFSET (physToKernelDirectMappingAddr pa) (physToKernelDirectMappingAddr x) ↔
      pa.toNat / 4096 = x.toNat / 4096 := by
  have hdm : KERNEL_DIRECT_MAPPING_AREA.toNat = 18446612682070032384 := rfl
  rw [sameFrom_iff_nat, physToKernelDirectMappingAddr_toNat hpa,
    physToKernelDirectMappingAddr_toNat hx, PTE_OFFSET]
  omega

/-- The last call of a list whose calls for the page are all the same. -/
theorem lastCall_eq_of_unique {calls : List MapCall} {c : MapCall} {va : Word} (hc : c ∈ calls)
    (hsame : SameFrom PTE_OFFSET c.va va)
    (hunique : ∀ c' ∈ calls, SameFrom PTE_OFFSET c'.va va → c' = c) :
    lastCall va calls = some c := by
  cases hlast : lastCall va calls with
  | none =>
      have hnone := List.find?_eq_none.mp hlast c (List.mem_reverse.mpr hc)
      exact absurd (decide_eq_true hsame) hnone
  | some c' => rw [hunique c' (lastCall_mem hlast) (lastCall_same hlast)]

/-- The calls of one entry: at most one for each frame, namely when the entry visits the frame, at
the address that has the same place in its page as the start of the entry. -/
theorem lastCall_entry (hstop : e.stop ≤ 2 ^ 46) (hx : x.toNat < 2 ^ 46) :
    lastCall (physToKernelDirectMappingAddr x) ((byteVisits e).map directCall) =
      if e.Visits (x.toNat / 4096) then
        some (directCall (BitVec.ofNat 64 (e.visitIn (x.toNat / 4096)))) else none := by
  have hstop64 : e.stop < 2 ^ 64 := hstop.trans_lt (by decide)
  have hlt : ∀ pa ∈ byteVisits e, pa.toNat < 2 ^ 46 := by
    intro pa hpa
    obtain ⟨⟨-, hhigh⟩, heq⟩ := (mem_byteVisits hstop64).mp hpa
    unfold MmapEntry.stop at hstop
    omega
  by_cases hv : e.Visits (x.toNat / 4096)
  · rw [if_pos hv]
    -- The one visit to the frame, as a number and as a word.
    have hvisit : e.visitIn (x.toNat / 4096) < 2 ^ 46 := by
      unfold MmapEntry.stop at hstop
      exact hv.2.trans_le hstop
    have hnat : (BitVec.ofNat 64 (e.visitIn (x.toNat / 4096))).toNat = e.visitIn (x.toNat / 4096) := by
      rw [BitVec.toNat_ofNat]
      omega
    have hframe : e.visitIn (x.toNat / 4096) / 4096 = x.toNat / 4096 := by
      unfold MmapEntry.visitIn
      omega
    refine lastCall_eq_of_unique (List.mem_map_of_mem ?_) ?_ fun c hc hsame => ?_
    · rw [mem_byteVisits hstop64, hnat, hframe]
      exact ⟨hv, rfl⟩
    · refine (sameFrom_direct (by omega) hx).mpr ?_
      rw [hnat, hframe]
    · obtain ⟨pa, hpa, rfl⟩ := List.mem_map.mp hc
      -- Another call for the same page is one for the same frame, and so the same visit.
      have hpaframe := (sameFrom_direct (hlt pa hpa) hx).mp hsame
      have heq := ((mem_byteVisits hstop64).mp hpa).2
      rw [hpaframe] at heq
      rw [show pa = BitVec.ofNat 64 (e.visitIn (x.toNat / 4096)) from
        BitVec.eq_of_toNat_eq (heq.trans hnat.symm)]
  · rw [if_neg hv]
    refine List.find?_eq_none.mpr fun c hc hsame => hv ?_
    obtain ⟨pa, hpa, rfl⟩ := List.mem_map.mp (List.mem_reverse.mp hc)
    have hframe := (sameFrom_direct (hlt pa hpa) hx).mp (of_decide_eq_true hsame)
    rw [← hframe]
    exact ((mem_byteVisits hstop64).mp hpa).1

/-- The last entry that visits a frame makes the last call for it. The induction is on the entries,
from the last one on, since a later call for the same page decides. -/
theorem lastCall_visits (hstop : ∀ e ∈ entries, e.stop ≤ 2 ^ 46) (hx : x.toNat < 2 ^ 46) :
    lastCall (physToKernelDirectMappingAddr x)
        (callsOf (entries.flatMap fun e => (byteVisits e).map (e, ·))) =
      (lastVisitor entries (x.toNat / 4096)).map fun e =>
        directCall (BitVec.ofNat 64 (e.visitIn (x.toNat / 4096))) := by
  induction entries with
  | nil => rfl
  | cons e es ih =>
      obtain ⟨hfirst, hrest⟩ := List.forall_mem_cons.mp hstop
      have hcalls : callsOf ((e :: es).flatMap fun e => (byteVisits e).map (e, ·)) =
          (byteVisits e).map directCall ++
            callsOf (es.flatMap fun e => (byteVisits e).map (e, ·)) := by
        rw [List.flatMap_cons, callsOf, List.map_append, List.map_map]
        rfl
      have hlast := lastCall_entry hfirst hx
      have ih := ih hrest
      unfold lastCall at hlast ih ⊢
      unfold lastVisitor at ih ⊢
      rw [hcalls, List.reverse_append, List.find?_append, ih, hlast, List.reverse_cons,
        List.find?_append]
      cases es.reverse.find? fun e => e.Visits (x.toNat / 4096) with
      | some e' => rfl
      | none =>
          by_cases hv : e.Visits (x.toNat / 4096)
          · simp [hv]
          · simp [hv]

end Visits

/-! ### The leaves -/

/-- The leaf has the frame of `x` and exactly the two attributes. -/
def ExactLeaf (leaf x : Word) : Prop :=
  leaf &&& PAGE_MASK = x &&& PAGE_MASK ∧ leaf &&& ~~~PAGE_MASK = PAGE_ATTR_P ||| PAGE_ATTR_RW

/-- The walk of the direct mapping address of `x` comes to such a leaf. -/
def ExactAt (mem : Mem) (root x : Word) : Prop :=
  ∃ leaf, pgtableWalk KERNEL_DIRECT_MAPPING_AREA mem root (physToKernelDirectMappingAddr x)
      = some leaf ∧ ExactLeaf leaf x

/-- The direct mapping is right for all bytes of all entries. -/
def DirectMapped (entries : List MmapEntry) (mem : Mem) (root : Word) : Prop :=
  ∀ e ∈ entries, ∀ x : Word, e.Holds x.toNat → ExactAt mem root x

/-- For every byte of an entry: the last entry that visits its frame starts within the
first four bytes of a page. If none does, the page was mapped right before. -/
def VisitedLow (entries : List MmapEntry) (mem : Mem) (root : Word) : Prop :=
  ∀ e ∈ entries, ∀ x : Word, e.Holds x.toNat →
    match lastVisitor entries (x.toNat / 4096) with
    | some e' => e'.addr.toNat % 4096 ≤ 3
    | none => ExactAt mem root x

/-- Entries that start at pages are visited at the start of each of their frames. -/
theorem visitedLow_of_aligned {entries : List MmapEntry} (haddrs : ∀ e ∈ entries, PageAligned e.addr)
    (mem : Mem) (root : Word) : VisitedLow entries mem root := by
  intro e he x hx
  cases hlast : lastVisitor entries (x.toNat / 4096) with
  | some e' =>
      have he' : e' ∈ entries := List.mem_reverse.mp (List.mem_of_find?_eq_some hlast)
      have hmod := (haddrs e' he').toNat_mod
      show e'.addr.toNat % 4096 ≤ 3
      omega
  | none =>
      -- The entry of `x` visits its frame.
      have hvisits : e.Visits (x.toNat / 4096) := by
        have hmod := (haddrs e he).toNat_mod
        unfold MmapEntry.Visits MmapEntry.visitIn
        unfold MmapEntry.Holds at hx ⊢
        omega
      have hnone := List.find?_eq_none.mp hlast e (List.mem_reverse.mpr he)
      exact absurd (decide_eq_true hvisits) hnone

section Leaves

variable {mem : Mem} {root x : Word} {base : Word → Prop} {log : List Word}
  {T : List (BitVec 9) → Option Word} {entries : List MmapEntry}
  {visits : List (MmapEntry × Word)}

/-- What the walk finds is a matter of the leaf in the tree: the walk of the source reaches the
leaf whenever the tables of the path are there, and reads a zero word otherwise. -/
theorem exactAt_iff (hT : Tables KERNEL_DIRECT_MAPPING_AREA (· ≠ 0) base log mem T)
    (hroot : T [] = some root) (hx : x.toNat < 2 ^ 46) :
    ExactAt mem root x ↔ ExactLeaf (SumiOS.entries KERNEL_DIRECT_MAPPING_AREA mem T
      (pathOf (physToKernelDirectMappingAddr x))) x := by
  have hwalk := pgtableWalk_getD hT hroot (direct_pgd_ne_zero hx)
  unfold ExactAt
  cases hw : pgtableWalk KERNEL_DIRECT_MAPPING_AREA mem root (physToKernelDirectMappingAddr x) with
  | none =>
      rw [hw, Option.getD_none] at hwalk
      rw [← hwalk]
      exact iff_of_false (fun ⟨_, h, _⟩ => absurd h (by simp)) fun h => absurd h.2 (by decide)
  | some e =>
      rw [hw, Option.getD_some] at hwalk
      rw [← hwalk]
      constructor
      · intro h
        obtain ⟨leaf, he, hexact⟩ := h
        rw [Option.some.inj he]
        exact hexact
      · exact fun h => ⟨e, rfl, h⟩

/-- The low bits of an address, and its page. -/
theorem and_not_mask_toNat (y : Word) : (y &&& ~~~PAGE_MASK).toNat = y.toNat % 4096 := by
  have hmask : ~~~PAGE_MASK = 0xfff := by decide
  rw [hmask, BitVec.toNat_and]
  exact Nat.and_two_pow_sub_one_eq_mod y.toNat 12

/-- A leaf for an address of a page has the right low bits exactly when the address is one
of the first four of the page. -/
theorem low_bits_iff (pa : Word) :
    (pa ||| (PAGE_ATTR_RW ||| PAGE_ATTR_P)) &&& ~~~PAGE_MASK = PAGE_ATTR_P ||| PAGE_ATTR_RW ↔
      pa.toNat % 4096 ≤ 3 := by
  have hlow : (pa ||| (PAGE_ATTR_RW ||| PAGE_ATTR_P)) &&& ~~~PAGE_MASK =
      (pa &&& ~~~PAGE_MASK) ||| 3 := by
    have hthree : (PAGE_ATTR_RW ||| PAGE_ATTR_P) &&& ~~~PAGE_MASK = 3 := by decide
    rw [BitVec.and_comm, BitVec.and_or_distrib_left, BitVec.and_comm _ pa,
      BitVec.and_comm _ (PAGE_ATTR_RW ||| PAGE_ATTR_P), hthree]
  have hattr : PAGE_ATTR_P ||| PAGE_ATTR_RW = 3 := by decide
  rw [hlow, hattr, ← and_not_mask_toNat]
  generalize pa &&& ~~~PAGE_MASK = y
  constructor
  · intro h
    have hle : y.toNat ≤ y.toNat ||| (3 : Word).toNat := Nat.left_le_or
    rw [← BitVec.toNat_or, h] at hle
    exact hle
  · intro h
    have hsmall : y = 0 ∨ y = 1 ∨ y = 2 ∨ y = 3 := by bv_omega
    rcases hsmall with rfl | rfl | rfl | rfl <;> decide

/-- The attributes are no part of the frame: masking them off again gives the page of
the address. -/
theorem or_attr_and_mask (pa : Word) :
    (pa ||| (PAGE_ATTR_RW ||| PAGE_ATTR_P)) &&& PAGE_MASK = pa &&& PAGE_MASK := by
  have hzero : PAGE_MASK &&& (PAGE_ATTR_RW ||| PAGE_ATTR_P) = 0 := by decide
  calc (pa ||| (PAGE_ATTR_RW ||| PAGE_ATTR_P)) &&& PAGE_MASK
      = PAGE_MASK &&& pa ||| PAGE_MASK &&& (PAGE_ATTR_RW ||| PAGE_ATTR_P) := by
        rw [BitVec.and_comm, BitVec.and_or_distrib_left]
    _ = PAGE_MASK &&& pa := by rw [hzero]; exact BitVec.or_zero
    _ = pa &&& PAGE_MASK := BitVec.and_comm ..

/-- A round of the loop is its mapping call, and the buddy system stays. -/
theorem mapDirect_eq (root : Word) (st : InitState) (pa : Word) :
    mapDirect root st pa = ⟨(mmInitPgtableMap st.mem st.la root (directCall pa).va (directCall pa).pa
        (directCall pa).attr).1, (mmInitPgtableMap st.mem st.la root (directCall pa).va
          (directCall pa).pa (directCall pa).attr).2, st.buddy⟩ := rfl

/-- The loop is a run of mapping calls, one for each visit, and the linear allocator is what these
calls leave. -/
theorem mapDirects_eq (visits : List (MmapEntry × Word)) (root : Word) (st : InitState) :
    (visits.foldl (fun st v => mapDirect root st v.2) st).mem
        = (mapCalls mmInitPgtableMap st.mem st.la root (callsOf visits)).1 ∧
      (visits.foldl (fun st v => mapDirect root st v.2) st).la
        = (mapCalls mmInitPgtableMap st.mem st.la root (callsOf visits)).2 := by
  induction visits generalizing st with
  | nil => exact ⟨rfl, rfl⟩
  | cons v vs ih =>
      have hrest := ih (mapDirect root st v.2)
      rw [mapDirect_eq] at hrest
      rw [List.foldl_cons, callsOf, List.map_cons, mapCalls_cons, mapDirect_eq]
      exact hrest

/-- The leaf of the last visit is right exactly when the visit is at most 3 bytes into its
frame: the attributes are P and RW. -/
theorem exactLeaf_visit {e : MmapEntry} (hstop : e.stop ≤ 2 ^ 46) (hvisit : e.Visits (x.toNat / 4096)) :
    ExactLeaf (BitVec.ofNat 64 (e.visitIn (x.toNat / 4096)) ||| (PAGE_ATTR_RW ||| PAGE_ATTR_P)) x ↔
      e.addr.toNat % 4096 ≤ 3 := by
  have hbound := hvisit.2.trans_le hstop
  have hnat : (BitVec.ofNat 64 (e.visitIn (x.toNat / 4096))).toNat = e.visitIn (x.toNat / 4096) := by
    rw [BitVec.toNat_ofNat]
    omega
  have hpage : (BitVec.ofNat 64 (e.visitIn (x.toNat / 4096)) |||
      (PAGE_ATTR_RW ||| PAGE_ATTR_P)) &&& PAGE_MASK = x &&& PAGE_MASK := by
    rw [or_attr_and_mask]
    apply BitVec.eq_of_toNat_eq
    rw [toNat_and_mask, toNat_and_mask, hnat]
    unfold MmapEntry.visitIn
    omega
  have hmod : e.visitIn (x.toNat / 4096) % 4096 = e.addr.toNat % 4096 := by
    unfold MmapEntry.visitIn
    omega
  rw [ExactLeaf, and_iff_right hpage, low_bits_iff, hnat, hmod]

/-- After the loop, the direct mapping is right exactly when the map is visited low. -/
theorem directMapped_iff_visitedLow (st : InitState) (hstop : ∀ e ∈ entries, e.stop ≤ 2 ^ 46)
    (hvisits : allVisits entries = some visits)
    (hT : Tables KERNEL_DIRECT_MAPPING_AREA (· ≠ 0) base st.la.returned st.mem T)
    (hroot : T [] = some root)
    (hfresh : Fresh base (visits.foldl (fun st v => mapDirect root st v.2) st).la.returned) :
    DirectMapped entries (visits.foldl (fun st v => mapDirect root st v.2) st).mem root ↔
      VisitedLow entries st.mem root := by
  have hlt := visits_lt hstop hvisits
  rw [allVisits_bytes hstop, Option.some.injEq] at hvisits
  rw [(mapDirects_eq visits root st).2] at hfresh
  rw [(mapDirects_eq visits root st).1]
  rw [mmInitPgtableMap_eq] at hfresh ⊢
  have htagged : ∀ c ∈ callsOf visits, c.Tagged := by
    intro c hc
    obtain ⟨v, -, rfl⟩ := List.mem_map.mp hc
    exact directCall_tagged v.2
  obtain ⟨T', hT', hroot', hleaf⟩ := mapCalls_leaf LinearAlloc.returned
    mmInitPhysAllocLinear_returned htagged (fun c hc => by
      obtain ⟨v, hv, rfl⟩ := List.mem_map.mp hc
      exact direct_pgd_ne_zero (hlt v hv)) hT hroot hfresh
  refine forall_congr' fun e => forall_congr' fun he => forall_congr' fun x => forall_congr' fun hx => ?_
  have hx46 : x.toNat < 2 ^ 46 := hx.2.trans_le (hstop e he)
  rw [exactAt_iff hT' hroot' hx46, hleaf, ← hvisits, lastCall_visits hstop hx46]
  -- The last visit of a page decides its entry; a page without one keeps what it had.
  cases hlast : lastVisitor entries (x.toNat / 4096) with
  | none => exact (exactAt_iff hT hroot hx46).symm
  | some e' =>
      have hvis := List.find?_some hlast
      have hvis : e'.Visits (x.toNat / 4096) := of_decide_eq_true hvis
      have he' : e' ∈ entries := List.mem_reverse.mp (List.mem_of_find?_eq_some hlast)
      exact exactLeaf_visit (hstop e' he') hvis

end Leaves

/-- The loop ends on every memory map, and when its tables are fresh pages, the direct
mapping is right for all bytes of all entries exactly when the map is visited low. -/
theorem directMapped_iff (entries : List MmapEntry) (hstop : ∀ e ∈ entries, e.stop ≤ 2 ^ 46)
    (st : InitState) (root : Word) (base : Word → Prop) (T : List (BitVec 9) → Option Word)
    (hT : Tables KERNEL_DIRECT_MAPPING_AREA (· ≠ 0) base st.la.returned st.mem T)
    (hroot : T [] = some root) :
    ∃ visits, allVisits entries = some visits ∧
      let st' := visits.foldl (fun st v => mapDirect root st v.2) st
      (Fresh base st'.la.returned →
        (DirectMapped entries st'.mem root ↔ VisitedLow entries st.mem root)) :=
  ⟨_, allVisits_bytes hstop, fun hfresh =>
    directMapped_iff_visitedLow st hstop (allVisits_bytes hstop) hT hroot hfresh⟩

/-! ### Two small maps -/

/-- In a map of which all frames lie in one region of 2 MB, the loop needs three tables, which
are fresh when they fit into the first area. -/
theorem directLoop_few (entries : List MmapEntry)
    (haddrs : ∀ e ∈ entries, e.Available → PageAligned e.addr)
    (hstop : ∀ e ∈ entries, e.stop ≤ 2 ^ 46)
    (hin : ∃ e ∈ entries, e.Available ∧ e.Holds (0x800000 : Word).toNat)
    (hscan : ∃ la, entries.foldlM (scanEntry 0x800000) LinearAlloc.static = some la ∧
      ∀ n ≤ 3, 0 ∉ (linearAllocs n la).returned)
    (hvisits : ∃ v vs, entries.flatMap (fun e => (byteVisits e).map (e, ·)) = v :: vs ∧
      ∀ w ∈ v :: vs, w.2.toNat < 2 ^ 46 ∧ innerPaths (physToKernelDirectMappingAddr w.2) =
        innerPaths (physToKernelDirectMappingAddr v.2)) :
    ∃ la T visits, entries.foldlM (scanEntry 0x800000) LinearAlloc.static = some la ∧
      allVisits entries = some visits ∧
      Tables KERNEL_DIRECT_MAPPING_AREA (· ≠ 0) (fun q => q.toNat < (0x800000 : Word).toNat)
        la.returned (fun _ => 0) T ∧
      T [] = some 0x1000 ∧
      0 ∉ (visits.foldl (fun st v => mapDirect 0x1000 st v.2) ⟨fun _ => 0, la, cleared⟩).la.returned ∧
      Fresh (fun q => q.toNat < (0x800000 : Word).toNat)
        (visits.foldl (fun st v => mapDirect 0x1000 st v.2) ⟨fun _ => 0, la, cleared⟩).la.returned := by
  obtain ⟨la, hscan, hfew⟩ := hscan
  obtain ⟨v, vs, hvisits, hregion⟩ := hvisits
  obtain ⟨hinv, hlog⟩ := linearInv_scanned haddrs hstop (by decide) hin hscan
  obtain ⟨T, hT, hroot⟩ := zeroTables
  have hstart := KernelTables.mapping (P := fun _ => True) ⟨T, hT, hroot⟩ hinv hlog
    fun _ _ _ _ _ => trivial
  -- All visits are in one region, so the loop takes at most three pages for tables.
  obtain ⟨n, hn, hla⟩ := KernelMapping.mapDirects_few ⟨fun _ => 0, la, cleared⟩ hstart hregion hfew
  have hmapped := KernelMapping.mapDirects ⟨fun _ => 0, la, cleared⟩ (fun w hw => (hregion w hw).1)
    (fun _ _ _ _ _ _ => trivial) hstart
  have hok := hfew n hn
  rw [← hla] at hok
  refine ⟨la, T, v :: vs, hscan, ?_, ?_, hroot, hok, (hmapped.linear.cursor hok).risen.fresh fun _ hq => hq⟩
  · rw [allVisits_bytes hstop, hvisits]
  · rw [hlog]
    exact hT

/-- Eight frames, 3072 bytes of the ninth one, and 1024 bytes of the tenth one. -/
def partMap : List MmapEntry :=
  [⟨0x800000, 0x8000, 1⟩, ⟨0x808000, 0xc00, 1⟩, ⟨0x809000, 0x400, 2⟩]

/-- In this map every entry starts at a page, and its parts of frames are mapped as well. -/
theorem directMapped_iff_partMap :
    ∃ la visits, partMap.foldlM (scanEntry 0x800000) LinearAlloc.static = some la ∧
      allVisits partMap = some visits ∧
      let st := visits.foldl (fun st v => mapDirect 0x1000 st v.2) ⟨fun _ => 0, la, cleared⟩
      0 ∉ st.la.returned ∧ DirectMapped partMap st.mem 0x1000 := by
  obtain ⟨la, T, visits, hscan, hvisits, hT, hroot, hok, hfresh⟩ :=
    directLoop_few partMap (by decide) (by decide)
      ⟨⟨0x800000, 0x8000, 1⟩, List.mem_cons_self, rfl, by decide, by decide⟩ ⟨_, rfl, by decide⟩
      ⟨_, _, rfl, by decide⟩
  obtain ⟨visits', hvisits', hiff⟩ := directMapped_iff partMap (by decide)
    ⟨fun _ => 0, la, cleared⟩ 0x1000 _ T hT hroot
  obtain rfl : visits = visits' := Option.some.inj (hvisits.symm.trans hvisits')
  exact ⟨la, visits, hscan, hvisits, hok, (hiff hfresh).mpr (visitedLow_of_aligned (by decide) _ _)⟩

/-- Eight frames, and a ninth one whose last 1024 bytes are another entry. -/
def sharedMap : List MmapEntry :=
  [⟨0x800000, 0x8000, 1⟩, ⟨0x808000, 0xc00, 1⟩, ⟨0x808c00, 0x400, 2⟩]

/-- The entries of the map with the shared frame are bounded. -/
theorem sharedMap_stop : ∀ e ∈ sharedMap, e.stop ≤ 2 ^ 46 := by decide

/-- The entry at the end of the ninth frame is the last one that visits it. -/
theorem sharedMap_not_visitedLow (mem : Mem) (root : Word) : ¬ VisitedLow sharedMap mem root := by
  intro h
  have hlow := h ⟨0x808000, 0xc00, 1⟩ (by decide) 0x808000 ⟨by decide, by decide⟩
  have hlast : lastVisitor sharedMap ((0x808000 : Word).toNat / 4096) =
      some ⟨0x808c00, 0x400, 2⟩ := by decide
  rw [hlast] at hlow
  have hlow : (0x808c00 : Word).toNat % 4096 ≤ 3 := hlow
  exact absurd hlow (by decide)

/-- The first byte of the ninth frame is mapped with bits of the address of the entry behind it
among its attributes, because that entry visits the frame last and starts in the middle of it. -/
theorem not_directMapped_sharedMap :
    ∃ la visits, sharedMap.foldlM (scanEntry 0x800000) LinearAlloc.static = some la ∧
      allVisits sharedMap = some visits ∧
      let st := visits.foldl (fun st v => mapDirect 0x1000 st v.2) ⟨fun _ => 0, la, cleared⟩
      0 ∉ st.la.returned ∧ ¬ DirectMapped sharedMap st.mem 0x1000 := by
  obtain ⟨la, T, visits, hscan, hvisits, hT, hroot, hok, hfresh⟩ :=
    directLoop_few sharedMap (by decide) sharedMap_stop
      ⟨⟨0x800000, 0x8000, 1⟩, List.mem_cons_self, rfl, by decide, by decide⟩ ⟨_, rfl, by decide⟩
      ⟨_, _, rfl, by decide⟩
  have hiff := directMapped_iff_visitedLow ⟨fun _ => 0, la, cleared⟩ sharedMap_stop hvisits hT hroot
    hfresh
  have hnot : ¬ DirectMapped sharedMap (visits.foldl (fun st v => mapDirect 0x1000 st v.2)
      ⟨fun _ => 0, la, cleared⟩).mem 0x1000 := by
    rw [hiff]
    exact sharedMap_not_visitedLow _ _
  exact ⟨la, visits, hscan, hvisits, hok, hnot⟩

end SumiOS
