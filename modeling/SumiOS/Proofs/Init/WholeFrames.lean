import SumiOS.Proofs.Init.AreaEnds

/-!
# `SumiOS.Proofs.Init.WholeFrames`: the frames that the free loop frees

The free loop rounds the address that it visits down to a frame, and compares it with
`mm_alloc_end` as it is. With entries at any byte address, a frame at the edge of an
entry is freed although the entry holds a part of it only, and two entries that share a
frame free it twice.

`mm_alloc_end` is never strictly inside an area (`EndState`): it is the end of one, and
the areas do not overlap. So an entry is visited from its start on, or not at all, and
what the loop frees depends on the entries that start at or behind `mm_alloc_end`.
`freesWhole_iff` says which maps are freed in whole frames. Its proof goes down in the
memory map: a partial frame at the start of an entry must be completed by the entry in
front of it, which cannot visit the frame, and so starts at an unaligned address itself.
-/

set_option autoImplicit false

namespace SumiOS

open Lib

/-- The page structs `pages` are freed once each, and their frames lie in available
entries and not below `mm_alloc_end`. -/
structure FreesWhole (entries : List MmapEntry) (pages : List Int) (mmAllocEnd : Word) : Prop where
  once : pages.Nodup
  inside : ∀ x ∈ pages, ∀ a : Nat, 4096 * x ≤ a → (a : Int) < 4096 * (x + 1) →
    ∃ e ∈ entries, e.Available ∧ e.Holds a
  above : ∀ x ∈ pages, (mmAllocEnd.toNat : Int) ≤ 4096 * x

/-- The nonempty available entries from `mm_alloc_end` on start and end on a page
boundary. One that ends elsewhere is followed by an available entry up to the top of the
address space, which no loop visits. -/
def WholeEntries (entries : List MmapEntry) (mmAllocEnd : Word) : Prop :=
  ∀ e ∈ entries, e.Available → e.len ≠ 0 → mmAllocEnd ≤ e.addr → e.stop < 2 ^ 64 →
    4096 ∣ e.addr.toNat ∧ (4096 ∣ e.stop ∨
      ∃ e' ∈ entries, e'.Available ∧ e'.addr.toNat = e.stop ∧ e'.stop = 2 ^ 64)

section Map

variable {entries : List MmapEntry} {e : MmapEntry} {visits : List (MmapEntry × Word)}

/-! ### The pages that an entry frees -/

/-- What the loops visit in an entry. -/
def entryVisits (e : MmapEntry) : List Word := if e.stop < 2 ^ 64 then byteVisits e else []

/-- The page structs that the last loop frees in an entry. -/
def entryPages (mmAllocEnd : Word) (e : MmapEntry) : List Int :=
  ((entryVisits e).filter fun pa =>
    decide (pa ≥ mmAllocEnd ∧ e.type = MULTIBOOT_MEMORY_AVAILABLE)).map pageOf

/-- What the loops visit, when they end, for entries that may end at the top of the
address space. -/
theorem allVisits_some (hbounded : ∀ e ∈ entries, e.stop ≤ 2 ^ 64)
    (hvisits : allVisits entries = some visits) :
    visits = entries.flatMap fun e => (entryVisits e).map (e, ·) := by
  induction entries generalizing visits with
  | nil => exact (Option.some.inj hvisits).symm
  | cons e es ih =>
      obtain ⟨hfirst, hrest⟩ := List.forall_mem_cons.mp hbounded
      rw [allVisits] at hvisits
      cases hframes : frameVisits e with
      | none => simp [hframes] at hvisits
      | some frames =>
          cases hes : allVisits es with
          | none => simp [hframes, hes] at hvisits
          | some rest =>
              rw [hframes, hes, Option.some.injEq] at hvisits
              have hentry : frames = entryVisits e := by
                unfold entryVisits
                rcases frameVisits_cases hfirst hframes with ⟨hlt, h⟩ | ⟨htop, h⟩
                · rw [if_pos hlt, h]
                · rw [if_neg (by omega), h]
              rw [List.flatMap_cons, ← hvisits, hentry, ih hrest hes]

/-- The page structs that are freed are those of the entries, one entry after the other. -/
theorem freedPages_eq (hbounded : ∀ e ∈ entries, e.stop ≤ 2 ^ 64)
    (hvisits : allVisits entries = some visits) (mmAllocEnd : Word) :
    freedPages visits mmAllocEnd = entries.flatMap (entryPages mmAllocEnd) := by
  rw [allVisits_some hbounded hvisits, freedPages, List.filter_flatMap, List.map_flatMap]
  refine congrArg (fun f => entries.flatMap f) (funext fun e => ?_)
  rw [entryPages, List.filter_map, List.map_map]
  rfl

/-- An entry frees a frame when it is available, does not end at the top, and visits the frame at
or behind `mm_alloc_end`. -/
theorem mem_entryPages {mmAllocEnd : Word} {x : Int} :
    x ∈ entryPages mmAllocEnd e ↔ e.Available ∧ e.stop < 2 ^ 64 ∧
      ∃ f : Nat, x = f ∧ e.Visits f ∧ mmAllocEnd.toNat ≤ e.visitIn f := by
  unfold entryPages entryVisits
  by_cases hstop : e.stop < 2 ^ 64
  · simp only [hstop, if_true, List.mem_map, List.mem_filter, decide_eq_true_eq, true_and,
      mem_byteVisits hstop]
    constructor
    · rintro ⟨pa, ⟨⟨hvisit, hpa⟩, hge, havail⟩, rfl⟩
      refine ⟨havail, _, pageOf_eq pa, hvisit, ?_⟩
      rw [← hpa]
      exact BitVec.le_def.mp hge
    · rintro ⟨havail, f, rfl, hvisit, hge⟩
      have hlt : e.visitIn f < 2 ^ 64 := hvisit.2.trans hstop
      have hnat : (BitVec.ofNat 64 (e.visitIn f)).toNat = e.visitIn f := by
        rw [BitVec.toNat_ofNat]
        exact Nat.mod_eq_of_lt hlt
      have hframe : e.visitIn f / 4096 = f := by
        unfold MmapEntry.visitIn
        omega
      refine ⟨BitVec.ofNat 64 (e.visitIn f), ⟨⟨?_, ?_⟩, ?_, havail⟩, ?_⟩
      · rwa [hnat, hframe]
      · rw [hnat, hframe]
      · exact BitVec.le_def.mpr (by rwa [hnat])
      · rw [pageOf_eq, hnat, hframe]
  · simp only [hstop, if_false, false_and, and_false, iff_false]
    exact fun h => absurd h List.not_mem_nil

/-- An entry visits a frame at most once, as its visits are a page apart. -/
theorem entryPages_nodup (mmAllocEnd : Word) (e : MmapEntry) : (entryPages mmAllocEnd e).Nodup := by
  unfold entryPages entryVisits
  refine List.pairwise_map.mpr (List.Pairwise.filter _ ?_)
  split
  · rename_i hstop
    unfold MmapEntry.stop at hstop
    refine List.pairwise_map.mpr (List.pairwise_lt_range.imp_of_mem fun hi hj hij => ?_)
    rw [List.mem_range] at hi hj
    rw [pageOf_eq, pageOf_eq, pageAfter_toNat (by omega), pageAfter_toNat (by omega)]
    omega
  · exact List.Pairwise.nil

/-! ### Partial frames -/

section Partial

variable {mmAllocEnd : Word}

/-- An entry that the free loop starts to visit at its start. -/
structure Freed (entries : List MmapEntry) (mmAllocEnd : Word) (e : MmapEntry) : Prop where
  mem : e ∈ entries
  avail : e.Available
  nonempty : e.len ≠ 0
  start : mmAllocEnd ≤ e.addr
  below : e.stop < 2 ^ 64

/-- A frame that such an entry visits is among the freed ones. -/
theorem Freed.mem_pages (h : Freed entries mmAllocEnd e) {f : Nat} (hvisit : e.Visits f)
    (hge : mmAllocEnd.toNat ≤ e.visitIn f) :
    (f : Int) ∈ entries.flatMap (entryPages mmAllocEnd) :=
  List.mem_flatMap.mpr ⟨e, h.mem, mem_entryPages.mpr ⟨h.avail, h.below, f, rfl, hvisit, hge⟩⟩

/-- What is freed comes from such an entry, since `mm_alloc_end` is in none: an entry lies behind
it as a whole or in front of it. -/
theorem freed_of_mem (entries : List MmapEntry) {x : Int}
    (hclear : ∀ e ∈ entries, e.Available → ¬ (e.addr < mmAllocEnd ∧ mmAllocEnd < e.addr + e.len))
    (hx : x ∈ entries.flatMap (entryPages mmAllocEnd)) :
    ∃ e, Freed entries mmAllocEnd e ∧ ∃ f : Nat, x = f ∧ e.Visits f ∧
      mmAllocEnd.toNat ≤ e.visitIn f := by
  obtain ⟨e, he, hmem⟩ := List.mem_flatMap.mp hx
  obtain ⟨havail, hstop, f, rfl, hvisit, hge⟩ := mem_entryPages.mp hmem
  have hholds : e.addr.toNat ≤ e.visitIn f ∧ e.visitIn f < e.stop := hvisit
  refine ⟨e, ⟨he, havail, ?_, ?_, hstop⟩, f, rfl, hvisit, hge⟩
  · intro h0
    have hzero : e.len.toNat = 0 := by rw [h0]; rfl
    unfold MmapEntry.stop at hholds
    omega
  · by_contra hlt
    refine hclear e he havail ⟨BitVec.not_le.mp hlt, ?_⟩
    rw [BitVec.lt_def, MmapEntry.stop_toNat hstop]
    omega

/-- Two entries do not free the same frame when no frame is freed twice. -/
theorem entry_unique_of_freed (honce : (entries.flatMap (entryPages mmAllocEnd)).Nodup)
    {e e' : MmapEntry} (he : e ∈ entries) (he' : e' ∈ entries) {x : Int}
    (hx : x ∈ entryPages mmAllocEnd e) (hx' : x ∈ entryPages mmAllocEnd e') : e = e' := by
  by_contra hne
  obtain ⟨-, hpair⟩ := List.nodup_flatMap.mp honce
  have hsymm : Std.Symm (Function.onFun List.Disjoint (entryPages mmAllocEnd)) :=
    ⟨fun _ _ h _ hx hx' => h hx' hx⟩
  exact hpair.forall he he' hne hx hx'

/-- The frame at the start of such an entry is freed. -/
theorem Freed.first_page (h : Freed entries mmAllocEnd e) :
    ((e.addr.toNat / 4096 : Nat) : Int) ∈ entryPages mmAllocEnd e := by
  have hfirst : e.visitIn (e.addr.toNat / 4096) = e.addr.toNat := by
    unfold MmapEntry.visitIn
    omega
  refine mem_entryPages.mpr ⟨h.avail, h.below, _, rfl, ?_, ?_⟩
  · rw [MmapEntry.Visits, hfirst]
    exact MmapEntry.holds_addr h.nonempty
  · rw [hfirst]
    exact BitVec.le_def.mp h.start

/-- So is a partial frame at its end, when it starts on a page boundary. -/
theorem Freed.last_page (h : Freed entries mmAllocEnd e) (hdvd : 4096 ∣ e.addr.toNat)
    (hpart : ¬ 4096 ∣ e.stop) : ((e.stop / 4096 : Nat) : Int) ∈ entryPages mmAllocEnd e := by
  have hlen : e.addr.toNat < e.stop := (MmapEntry.holds_addr h.nonempty).2
  have hlast : e.visitIn (e.stop / 4096) = 4096 * (e.stop / 4096) := by
    unfold MmapEntry.visitIn
    omega
  refine mem_entryPages.mpr ⟨h.avail, h.below, _, rfl, ?_, ?_⟩
  · rw [MmapEntry.Visits, hlast]
    exact ⟨by omega, show _ < e.stop by omega⟩
  · have hstart := BitVec.le_def.mp h.start
    rw [hlast]
    omega

/-- The entry with the byte in front of another one ends there. -/
theorem stop_eq_of_holds (hmap : ByteMap entries) {e₁ : MmapEntry} (he₁ : e₁ ∈ entries)
    (he : e ∈ entries) (hne : e.len ≠ 0) (hpos : 0 < e.addr.toNat)
    (hbyte : e₁.Holds (e.addr.toNat - 1)) : e₁.stop = e.addr.toNat := by
  obtain ⟨hlow, hhigh⟩ : e₁.addr.toNat ≤ e.addr.toNat - 1 ∧ e.addr.toNat - 1 < e₁.stop := hbyte
  by_contra hother
  have hsame := entry_unique_of_disjoint hmap.disjoint he₁ he (a := e.addr.toNat)
    ⟨by omega, show e.addr.toNat < e₁.stop by omega⟩ (MmapEntry.holds_addr hne)
  rw [hsame] at hlow
  omega

/-- When the frame at the start is behind `mm_alloc_end`, that entry is freed from its start. -/
theorem freed_of_stop
    (hclear : ∀ e ∈ entries, e.Available → ¬ (e.addr < mmAllocEnd ∧ mmAllocEnd < e.addr + e.len))
    {e₁ : MmapEntry} (he₁ : e₁ ∈ entries) (havail : e₁.Available) (hends : e₁.stop = e.addr.toNat)
    (hlt : e₁.addr.toNat < e.addr.toNat) (habove : mmAllocEnd.toNat < e.addr.toNat) :
    Freed entries mmAllocEnd e₁ := by
  have hbound := e.addr.isLt
  refine ⟨he₁, havail, fun h0 => ?_, ?_, by omega⟩
  · have hzero : e₁.len.toNat = 0 := by rw [h0]; rfl
    unfold MmapEntry.stop at hends
    omega
  · by_contra hstart
    refine hclear e₁ he₁ havail ⟨BitVec.not_le.mp hstart, ?_⟩
    rw [BitVec.lt_def, MmapEntry.stop_toNat (by omega), hends]
    exact habove

/-- When only whole frames are freed, the entries start on page boundaries. The induction
is on the start of the entry. If it is inside a frame, the entry in front of it completes
that frame. That one starts on a page boundary, so it frees the frame as well. -/
theorem FreesWhole.start_dvd (hmap : ByteMap entries)
    (hclear : ∀ e ∈ entries, e.Available → ¬ (e.addr < mmAllocEnd ∧ mmAllocEnd < e.addr + e.len))
    (hW : FreesWhole entries (entries.flatMap (entryPages mmAllocEnd)) mmAllocEnd) (n : Nat) :
    ∀ e, Freed entries mmAllocEnd e → e.addr.toNat = n → 4096 ∣ n := by
  induction n using Nat.strong_induction_on with
  | _ n ih =>
      rintro e he rfl
      by_contra hpart
      have hmem := List.mem_flatMap.mpr ⟨e, he.mem, he.first_page⟩
      have habove := hW.above _ hmem
      -- The byte in front of the entry is in the same frame.
      obtain ⟨e₁, he₁, havail₁, hbyte⟩ := hW.inside _ hmem (e.addr.toNat - 1) (by omega) (by omega)
      have hends := stop_eq_of_holds hmap he₁ he.mem he.nonempty (by omega) hbyte
      have hlt₁ : e₁.addr.toNat < e.addr.toNat := by
        have hlow := hbyte.1
        omega
      have hfreed₁ := freed_of_stop hclear he₁ havail₁ hends hlt₁ (by omega)
      -- So both entries free the frame.
      have hpage₁ := hfreed₁.last_page (ih _ hlt₁ e₁ hfreed₁ rfl) (by rwa [hends])
      rw [hends] at hpage₁
      have hsame := entry_unique_of_freed hW.once he₁ he.mem hpage₁ he.first_page
      rw [hsame] at hlt₁
      exact lt_irrefl _ hlt₁

/-- When only whole frames are freed, the entries end on page boundaries, or where an
entry begins that no loop visits. -/
theorem FreesWhole.stop_dvd (hmap : ByteMap entries)
    (hclear : ∀ e ∈ entries, e.Available → ¬ (e.addr < mmAllocEnd ∧ mmAllocEnd < e.addr + e.len))
    (hW : FreesWhole entries (entries.flatMap (entryPages mmAllocEnd)) mmAllocEnd)
    (he : Freed entries mmAllocEnd e) : 4096 ∣ e.stop ∨
      ∃ e' ∈ entries, e'.Available ∧ e'.addr.toNat = e.stop ∧ e'.stop = 2 ^ 64 := by
  by_cases hpart : 4096 ∣ e.stop
  · exact Or.inl hpart
  · right
    have hdvd := FreesWhole.start_dvd hmap hclear hW _ e he rfl
    have hlen : e.addr.toNat < e.stop := (MmapEntry.holds_addr he.nonempty).2
    have hstart := BitVec.le_def.mp he.start
    have hmem := List.mem_flatMap.mpr ⟨e, he.mem, he.last_page hdvd hpart⟩
    -- The byte behind the entry is in the same frame, and it is the first one of its entry.
    obtain ⟨e₂, he₂, havail₂, hbyte⟩ := hW.inside _ hmem e.stop (by omega) (by omega)
    have hhigh : e.stop < e₂.stop := hbyte.2
    have hfirst : e₂.addr.toNat = e.stop := by
      have hlow := hbyte.1
      by_contra hne
      have hsame := entry_unique_of_disjoint hmap.disjoint he₂ he.mem
        (a := max e₂.addr.toNat e.addr.toNat) ⟨le_max_left _ _, show _ < e₂.stop by omega⟩
        ⟨le_max_right _ _, show _ < e.stop by omega⟩
      rw [hsame] at hhigh
      omega
    refine ⟨e₂, he₂, havail₂, hfirst, ?_⟩
    by_contra htop
    have hbound := hmap.bounded e₂ he₂
    have hfreed₂ : Freed entries mmAllocEnd e₂ := by
      refine ⟨he₂, havail₂, fun h0 => ?_, BitVec.le_def.mpr (by omega), by omega⟩
      have hzero : e₂.len.toNat = 0 := by rw [h0]; rfl
      have hend : e₂.stop = e₂.addr.toNat + e₂.len.toNat := rfl
      omega
    have hdvd₂ := FreesWhole.start_dvd hmap hclear hW _ e₂ hfreed₂ rfl
    rw [hfirst] at hdvd₂
    exact hpart hdvd₂

/-- Entries on page boundaries are freed in whole frames, each once, because the entries are
disjoint. The remainder of an entry that ends inside a page must belong to available memory as
well. -/
theorem WholeEntries.freesWhole (hmap : ByteMap entries)
    (hclear : ∀ e ∈ entries, e.Available → ¬ (e.addr < mmAllocEnd ∧ mmAllocEnd < e.addr + e.len))
    (hE : WholeEntries entries mmAllocEnd) :
    FreesWhole entries (entries.flatMap (entryPages mmAllocEnd)) mmAllocEnd := by
  -- An entry that starts on a page boundary visits the first byte of every frame.
  have hvisitIn : ∀ e : MmapEntry, 4096 ∣ e.addr.toNat → ∀ f, e.visitIn f = 4096 * f := by
    intro e hdvd f
    unfold MmapEntry.visitIn
    omega
  refine ⟨?_, fun x hx a hlow hhigh => ?_, fun x hx => ?_⟩
  · refine List.nodup_flatMap.mpr ⟨fun e _ => entryPages_nodup mmAllocEnd e, ?_⟩
    refine hmap.disjoint.imp_of_mem fun {e e'} he he' hdisj x hx hx' => ?_
    obtain ⟨g, hg, f, rfl, hvisit, -⟩ := freed_of_mem [e] (fun e₁ h₁ =>
      hclear e₁ (by rw [List.mem_singleton.mp h₁]; exact he)) (by simpa using hx)
    obtain ⟨g', hg', f', hf', hvisit', -⟩ := freed_of_mem [e'] (fun e₁ h₁ =>
      hclear e₁ (by rw [List.mem_singleton.mp h₁]; exact he')) (by simpa using hx')
    obtain rfl := List.mem_singleton.mp hg.mem
    obtain rfl := List.mem_singleton.mp hg'.mem
    obtain rfl : f = f' := by exact_mod_cast hf'
    unfold MmapEntry.Visits at hvisit hvisit'
    rw [hvisitIn g (hE g he hg.avail hg.nonempty hg.start hg.below).1] at hvisit
    rw [hvisitIn g' (hE g' he' hg'.avail hg'.nonempty hg'.start hg'.below).1] at hvisit'
    exact hdisj _ ⟨hvisit, hvisit'⟩
  · obtain ⟨e, he, f, rfl, hvisit, hge⟩ := freed_of_mem entries hclear hx
    obtain ⟨hstart, hstop⟩ := hE e he.mem he.avail he.nonempty he.start he.below
    unfold MmapEntry.Visits at hvisit
    rw [hvisitIn e hstart] at hvisit hge
    obtain ⟨hfirst, hlast⟩ : e.addr.toNat ≤ 4096 * f ∧ 4096 * f < e.stop := hvisit
    by_cases hin : a < e.stop
    · exact ⟨e, he.mem, he.avail, by omega, hin⟩
    · rcases hstop with hstop | ⟨e', he', havail', hnext, htop⟩
      · omega
      · have hbelow := he.below
        exact ⟨e', he', havail', by omega, show a < e'.stop by omega⟩
  · obtain ⟨e, he, f, rfl, hvisit, hge⟩ := freed_of_mem entries hclear hx
    rw [hvisitIn e (hE e he.mem he.avail he.nonempty he.start he.below).1] at hge
    exact_mod_cast hge

end Partial

end Map

/-- The free loop frees whole frames of available memory, once each and none below
`mm_alloc_end`, exactly when the available entries from there on consist of whole frames. -/
theorem freesWhole_iff (bootMemAllocStart kernPgtable : Word) (entries : List MmapEntry) (mem : Mem)
    (b : Buddy) (st : InitState) (hmap : ByteMap entries)
    (h : mmPagesAllocatorInit bootMemAllocStart kernPgtable entries mem b = some st) :
    ∃ visits st₀, allVisits entries = some visits ∧
      beforeFree bootMemAllocStart kernPgtable entries visits mem b = some st₀ ∧
      st.la = st₀.la ∧ st.buddy = freeFrames (pageMapped st₀.mem kernPgtable) st₀.buddy
        (freedPages visits st.la.mmAllocEnd) ∧
      (FreesWhole entries (freedPages visits st.la.mmAllocEnd) st.la.mmAllocEnd ↔
        WholeEntries entries st.la.mmAllocEnd) := by
  rw [mmPagesAllocatorInit] at h
  cases hvisits : allVisits entries with
  | none => simp [hvisits] at h
  | some visits =>
      rw [hvisits] at h
      obtain ⟨st₀, hbefore, rfl⟩ := Option.map_eq_some_iff.mp h
      refine ⟨visits, st₀, rfl, hbefore, rfl, foldl_freePages visits st₀.mem kernPgtable st₀.buddy, ?_⟩
      have hclear : ∀ e ∈ entries, e.Available →
          ¬ (e.addr < st₀.la.mmAllocEnd ∧ st₀.la.mmAllocEnd < e.addr + e.len) :=
        fun e he havail => hmap.mmAllocEnd_clear hbefore he havail
      show FreesWhole entries (freedPages visits st₀.la.mmAllocEnd) st₀.la.mmAllocEnd ↔ _
      rw [freedPages_eq hmap.bounded hvisits]
      constructor
      · intro hW e he havail hne hstart hbelow
        have hfreed : Freed entries st₀.la.mmAllocEnd e := ⟨he, havail, hne, hstart, hbelow⟩
        exact ⟨hW.start_dvd hmap hclear _ e hfreed rfl, hW.stop_dvd hmap hclear hfreed⟩
      · exact fun hE => hE.freesWhole hmap hclear

/-! ### A frame that is available in part -/

/-- The map with the shared frame has entries at any byte, in order and apart. -/
theorem sharedMap_byteMap : ByteMap sharedMap := byteMap_of_stops (by decide) (by decide)

/-- The initialization needs at most seven of the eight frames at the start, so that no allocation
fails and the ninth frame, which is shared by two entries, is one of those that are freed. -/
theorem sharedMap_init :
    ∃ visits st, allVisits sharedMap = some visits ∧
      mmPagesAllocatorInit 0x800000 0x1000 sharedMap (fun _ => 0) cleared = some st ∧
      0 ∉ st.la.returned ∧ st.la.mmAllocEnd = 0x808000 := by
  obtain ⟨la, hscan, hfew⟩ : ∃ la,
      sharedMap.foldlM (scanEntry 0x800000) LinearAlloc.static = some la ∧ ∀ n ≤ 7,
        0 ∉ (linearAllocs n la).returned ∧ (linearAllocs n la).mmAllocEnd = 0x808000 :=
    ⟨_, rfl, by decide⟩
  obtain ⟨v, vs, hvisits, hlt, hregion, hstructs⟩ : ∃ v vs,
      sharedMap.flatMap (fun e => (byteVisits e).map (e, ·)) = v :: vs ∧
      (∀ w ∈ v :: vs, w.2.toNat < 2 ^ 46) ∧
      (∀ w ∈ v :: vs, innerPaths (physToKernelDirectMappingAddr w.2) =
        innerPaths (physToKernelDirectMappingAddr v.2)) ∧
      ∀ w ∈ v :: vs, pathOf (structVa w) = pathOf (structVa v) :=
    ⟨_, _, rfl, by decide, by decide, by decide⟩
  have hall : allVisits sharedMap = some (v :: vs) := by
    rw [allVisits_bytes sharedMap_stop, hvisits]
  obtain ⟨st₀, hbefore⟩ : ∃ st₀,
      beforeFree 0x800000 0x1000 sharedMap (v :: vs) (fun _ => 0) cleared = some st₀ := by
    rw [beforeFree, hscan]
    exact ⟨_, rfl⟩
  -- All frames share their tables and the page of their structs, so seven pages are enough.
  obtain ⟨n, hn, hcount⟩ := beforeFree_few (by decide) sharedMap_stop (by decide)
    ⟨⟨0x800000, 0x8000, 1⟩, List.mem_cons_self, rfl, by decide, by decide⟩
    zeroTables hlt hregion hstructs hscan (fun n hn => (hfew n hn).1) hbefore
  have hend := hfew n hn
  rw [← hcount] at hend
  have hst : ∃ st, mmPagesAllocatorInit 0x800000 0x1000 sharedMap (fun _ => 0) cleared = some st ∧
      st.la = st₀.la := by
    rw [mmPagesAllocatorInit, hall]
    dsimp only
    rw [hbefore]
    exact ⟨_, rfl, rfl⟩
  obtain ⟨st, hst, hla⟩ := hst
  exact ⟨v :: vs, st, hall, hst, by rw [hla]; exact hend⟩

/-- With `fullMap`, the last four frames are freed, and no others: the first eight lie below
`mm_alloc_end`, and those in between are reserved. -/
theorem freesWhole_iff_fullMap :
    ∃ st, mmPagesAllocatorInit 0x800000 0x1000 fullMap (fun _ => 0) cleared = some st ∧
      ∃ visits, allVisits fullMap = some visits ∧
        freedPages visits st.la.mmAllocEnd = [0x83c, 0x83d, 0x83e, 0x83f] ∧
        FreesWhole fullMap (freedPages visits st.la.mmAllocEnd) st.la.mmAllocEnd := by
  obtain ⟨st, hst, -, hend⟩ := fullMap_run
  obtain ⟨visits, st₀, hvisits, -, -, -, hiff⟩ := freesWhole_iff 0x800000 0x1000 fullMap (fun _ => 0)
    cleared st (byteMap_of_stops (by decide) (by decide)) hst
  have hfreed : freedPages visits st.la.mmAllocEnd = [0x83c, 0x83d, 0x83e, 0x83f] := by
    rw [allVisits_eq fullMap_memoryMap.addrs fullMap_memoryMap.lens fun e he =>
      (fullMap_memoryMap.bounded e he).trans (by decide), Option.some.injEq] at hvisits
    rw [← hvisits, hend]
    decide
  refine ⟨st, hst, visits, hvisits, hfreed, hiff.mpr ?_⟩
  rw [hend]
  unfold WholeEntries
  decide

/-- The ninth frame is freed, and its last 1024 bytes are reserved: the entry that visits it ends
inside the frame, and the loop looks at its first byte only. -/
theorem not_freesWhole_sharedMap :
    ByteMap sharedMap ∧ ∃ visits st, allVisits sharedMap = some visits ∧
      mmPagesAllocatorInit 0x800000 0x1000 sharedMap (fun _ => 0) cleared = some st ∧
      0 ∉ st.la.returned ∧
      ¬ FreesWhole sharedMap (freedPages visits st.la.mmAllocEnd) st.la.mmAllocEnd := by
  obtain ⟨visits, st, hvisits, hst, hok, hend⟩ := sharedMap_init
  refine ⟨sharedMap_byteMap, visits, st, hvisits, hst, hok, fun hW => ?_⟩
  rw [hend, freedPages_eq sharedMap_byteMap.bounded hvisits] at hW
  have hfreed : Freed sharedMap 0x808000 ⟨0x808000, 0xc00, 1⟩ :=
    ⟨by decide, rfl, by decide, by decide, by decide⟩
  have hmem := hfreed.mem_pages (f := 0x808) ⟨by decide, by decide⟩ (by decide)
  obtain ⟨e, he, havail, hlow, hhigh⟩ := hW.inside _ hmem 0x808c00 (by decide) (by decide)
  have hnone : ∀ e ∈ sharedMap, e.Available → e.addr.toNat ≤ 0x808c00 → ¬ 0x808c00 < e.stop := by
    decide
  exact hnone e he havail hlow hhigh

end SumiOS
