import SumiOS.Proofs.Kernel.Image

/-!
# `SumiOS.Proofs.Kernel.InitLive`: the memory map that the loops read

The loops of `mm_init` write to the tables that were there and to the pages that they allocate.
As long as these are not where the information of the boot loader is, each round reads what
was there at the start, and the loops do what `mmInit` does with a map that stays as it is
(`mmInitLive_eq`).

The booting stage is before that. What the boot loader wrote outside of `.boot.data`, of the
screen, of the program's own bytes and of the pages of the booting stage is what `mm_init`
reads (`mmInitLive_loader`).
-/

set_option autoImplicit false

namespace SumiOS

open Lib Ports

/-! ### What is read -/

/-- The bytes of an MMAP tag with `n` entries. -/
def MmapByte (t : Word) (n : Nat) (x : Word) : Prop := ∃ k < 16 + 24 * n, x = t + BitVec.ofNat 64 k

section Reads

variable {m m' : Mem} {t a mbi : Word} {n tags : Nat} {w w' : TagWalk} {P : Word → Prop}

/-- A 32-bit read depends on its four bytes only. -/
theorem SameBytes.read32 (h : SameBytes P m m') (ha : ∀ j < 4, P (a + BitVec.ofNat 64 j)) :
    m.read32 a = m'.read32 a := read32_congr fun j hj => h _ (ha j hj)

/-- A 64-bit read depends on its eight bytes only. -/
theorem SameBytes.read64 (h : SameBytes P m m') (ha : ∀ j < 8, P (a + BitVec.ofNat 64 j)) :
    m.read64 a = m'.read64 a := read64_congr fun j hj => h _ (ha j hj)

/-- The bytes of a field lie in the tag when the field ends in it. -/
theorem MmapByte.field {i j : Nat} (hi : i + j < 16 + 24 * n) :
    MmapByte t n (t + BitVec.ofNat 64 i + BitVec.ofNat 64 j) :=
  ⟨i + j, hi, by rw [BitVec.add_assoc, BitVec.ofNat_add]⟩

/-- The header of an MMAP tag, its entry size and version included, is read from the bytes of the
tag. -/
theorem SameBytes.readTagMmap (h : SameBytes (MmapByte t n) m m') :
    readTagMmap m t = readTagMmap m' t := by
  have hfield : ∀ i ≤ 12, m.read32 (t + BitVec.ofNat 64 i) = m'.read32 (t + BitVec.ofNat 64 i) :=
    fun i hi => h.read32 fun j hj => MmapByte.field (by omega)
  have hfirst : m.read32 t = m'.read32 t := by simpa using hfield 0 (by decide)
  have hsecond : m.read32 (t + 4) = m'.read32 (t + 4) := hfield 4 (by decide)
  have hthird : m.read32 (t + 8) = m'.read32 (t + 8) := hfield 8 (by decide)
  have hlast : m.read32 (t + 12) = m'.read32 (t + 12) := hfield 12 (by decide)
  rw [SumiOS.readTagMmap, SumiOS.readTagMmap, readTag, readTag, hfirst, hsecond, hthird, hlast]

/-- Type and size of a tag are read from its first eight bytes. -/
theorem SameBytes.readTag (h : SameBytes (MmapByte t n) m m') : readTag m t = readTag m' t :=
  congrArg MultibootTagMmap.toMultibootTag h.readTagMmap

/-- Every entry of the map is read from the bytes of the tag, since the entries lie behind its
header one after the other. -/
theorem SameBytes.readMmapEntry (h : SameBytes (MmapByte t n) m m') (ha : a ∈ entryAddrs t 24 n) :
    readMmapEntry m a = readMmapEntry m' a := by
  obtain ⟨i, hi, rfl⟩ := List.mem_map.mp ha
  have hlt := List.mem_range.mp hi
  have hfield : ∀ k j, k + j < 24 → MmapByte t n
      (t + BitVec.ofNat 64 (16 + i * 24) + BitVec.ofNat 64 k + BitVec.ofNat 64 j) := by
    intro k j hk
    rw [BitVec.add_assoc t, ← BitVec.ofNat_add]
    exact MmapByte.field (by omega)
  have haddr : m.read64 (t + BitVec.ofNat 64 (16 + i * 24)) =
      m'.read64 (t + BitVec.ofNat 64 (16 + i * 24)) :=
    h.read64 fun j hj => by simpa using hfield 0 j (by omega)
  have hlen : m.read64 (t + BitVec.ofNat 64 (16 + i * 24) + 8) =
      m'.read64 (t + BitVec.ofNat 64 (16 + i * 24) + 8) :=
    h.read64 fun j hj => hfield 8 j (by omega)
  have htype : m.read32 (t + BitVec.ofNat 64 (16 + i * 24) + 16) =
      m'.read32 (t + BitVec.ofNat 64 (16 + i * 24) + 16) :=
    h.read32 fun j hj => hfield 16 j (by omega)
  rw [SumiOS.readMmapEntry, SumiOS.readMmapEntry, haddr, hlen, htype]

/-- So the whole list of entries is the same in two memories that agree on the bytes of the tag. -/
theorem SameBytes.mapEntries (h : SameBytes (MmapByte t n) m m') :
    mapEntries m t 24 n = mapEntries m' t 24 n :=
  List.map_congr_left fun _ ha => h.readMmapEntry ha

end Reads

/-! ### The loops -/

section Loops

variable {info : Mem} {t a : Word} {n : Nat} {body : InitState → Word → Word → InitState}
  {step : InitState → MmapEntry × Word → InitState}

/-- The map is still there. -/
def MapKept (info : Mem) (t : Word) (n : Nat) (st : InitState) : Prop :=
  SameBytes (MmapByte t n) (physMem st.mem) info

/-- A body that does `step` with the entry that is there, when the map is there before and after. -/
def Follows (info : Mem) (t : Word) (n : Nat) (body : InitState → Word → Word → InitState)
    (step : InitState → MmapEntry × Word → InitState) : Prop :=
  ∀ a ∈ entryAddrs t 24 n, ∀ st pa, MapKept info t n st →
    MapKept info t n (step st (readMmapEntry info a, pa)) →
      body st a pa = step st (readMmapEntry info a, pa)

/-- The loop over the frames of an entry, while its rounds keep the map. -/
theorem frameLoopLive_eq (hbody : Follows info t n body step) (ha : a ∈ entryAddrs t 24 n)
    {fuel : Nat} {pa : Word} {frames : List Word} {st : InitState}
    (hframes : framesFrom ((readMmapEntry info a).addr + (readMmapEntry info a).len) fuel pa
      = some frames)
    (hkept : ∀ pre, pre <+: frames →
      MapKept info t n (pre.foldl (fun st pa => step st (readMmapEntry info a, pa)) st)) :
    frameLoopLive body a fuel pa st
      = some (frames.foldl (fun st pa => step st (readMmapEntry info a, pa)) st) := by
  induction fuel generalizing pa frames st with
  | zero => cases hframes
  | succ fuel ih =>
      have hst : MapKept info t n st := hkept [] List.nil_prefix
      rw [frameLoopLive, hst.readMmapEntry ha]
      rw [framesFrom] at hframes
      by_cases hmore : pa < (readMmapEntry info a).addr + (readMmapEntry info a).len
      · rw [if_pos hmore] at hframes ⊢
        obtain ⟨rest, hrest, rfl⟩ := Option.map_eq_some_iff.mp hframes
        have hround := hbody a ha st pa hst (hkept [pa] ⟨rest, rfl⟩)
        rw [hround]
        exact ih hrest fun pre hpre => hkept (pa :: pre) (List.cons_prefix_cons.mpr ⟨rfl, hpre⟩)
      · rw [if_neg hmore] at hframes ⊢
        cases hframes
        rfl

/-- A loop that reads each entry from memory as it goes does what the loop over the list of entries
does, provided the map is kept up to each of its rounds. -/
theorem entryLoopLive_eq (hbody : Follows info t n body step) {fuel : Nat} {i : Word}
    {values : List Word} {visits : List (MmapEntry × Word)} {st : InitState}
    (hvalues : counterValues ((readTag info t).size.setWidth 64) fuel i = some values)
    (haddrs : ∀ j ∈ values, t + j ∈ entryAddrs t 24 n)
    (hvisits : allVisits ((values.map (t + ·)).map (readMmapEntry info)) = some visits)
    (hkept : ∀ pre, pre <+: visits → MapKept info t n (pre.foldl step st)) :
    entryLoopLive body t fuel i st = some (visits.foldl step st) := by
  induction fuel generalizing i values visits st with
  | zero => cases hvalues
  | succ fuel ih =>
      have hst : MapKept info t n st := hkept [] List.nil_prefix
      rw [entryLoopLive, hst.readTag]
      rw [counterValues] at hvalues
      by_cases hmore : i < (readTag info t).size.setWidth 64
      · rw [if_pos hmore] at hvalues ⊢
        obtain ⟨rest, hrest, rfl⟩ := Option.map_eq_some_iff.mp hvalues
        obtain ⟨ha, hothers⟩ := List.forall_mem_cons.mp haddrs
        rw [List.map_cons, List.map_cons, allVisits] at hvisits
        cases hframes : frameVisits (readMmapEntry info (t + i)) with
        | none =>
            rw [hframes] at hvisits
            cases hvisits
        | some frames =>
            cases hlater : allVisits ((rest.map (t + ·)).map (readMmapEntry info)) with
            | none =>
                rw [hframes, hlater] at hvisits
                cases hvisits
            | some later =>
                rw [hframes, hlater] at hvisits
                obtain rfl : frames.map (readMmapEntry info (t + i), ·) ++ later = visits :=
                  Option.some.inj hvisits
                -- The rounds of this entry are the first ones.
                have hfirst : frameLoopLive body (t + i) (2 ^ 52 + 1)
                    (readMmapEntry info (t + i)).addr st = some ((frames.map (readMmapEntry info (t + i), ·)).foldl step st) := by
                  rw [List.foldl_map]
                  refine frameLoopLive_eq hbody ha hframes fun pre hpre => ?_
                  have hround := hkept (pre.map (readMmapEntry info (t + i), ·))
                    ((hpre.map _).trans (List.prefix_append _ _))
                  rwa [List.foldl_map] at hround
                dsimp only
                rw [hst.readMmapEntry ha, hfirst, List.foldl_append]
                refine ih hrest hothers hlater fun pre hpre => ?_
                rw [← List.foldl_append]
                exact hkept _ ((List.prefix_append_right_inj _).mpr hpre)
      · rw [if_neg hmore] at hvalues ⊢
        cases hvalues
        cases hvisits
        rfl

/-- A loop over the entries, while its rounds keep the map. -/
theorem entryLoopLive_run (hmap : WellFormedMmap info t 24 n) (hfits : StrideFits 24 n)
    (hbody : Follows info t n body step) {visits : List (MmapEntry × Word)} {st : InitState}
    (hvisits : allVisits (mapEntries info t 24 n) = some visits)
    (hkept : ∀ pre, pre <+: visits → MapKept info t n (pre.foldl step st)) :
    entryLoopLive body t (n + 1) (BitVec.ofNat 64 TAG_MMAP_SIZE) st
      = some (visits.foldl step st) := by
  obtain ⟨values, hvalues, haddrs⟩ := wideCounter hmap hfits
  rw [mapEntries, ← haddrs] at hvisits
  refine entryLoopLive_eq hbody hvalues (fun j hj => ?_) hvisits hkept
  rw [← haddrs]
  exact List.mem_map_of_mem hj

/-! ### The bodies -/

variable {kernPgtable : Word}

/-- The body of the first loop, which maps the direct mapping area, follows its counterpart on
lists. -/
theorem follows_mapDirect : Follows info t n (mapDirectLive kernPgtable)
    fun st v => mapDirect kernPgtable st v.2 := fun _ _ _ _ _ _ => rfl

/-- The type is read when the struct has its space. -/
theorem follows_initFrame : Follows info t n (initFrameLive kernPgtable) (initFrame kernPgtable) := by
  intro a ha st pa _ hafter
  have hread : readMmapEntry (physMem (backPage kernPgtable st (pageVa (frameIdx pa))).mem) a
      = readMmapEntry info a := SameBytes.readMmapEntry hafter ha
  rw [initFrameLive, initFrame, hread]

/-- `freeFrame` on the state of the loops. -/
def freeStep (kernPgtable : Word) (st : InitState) (v : MmapEntry × Word) : InitState :=
  { st with buddy := freeFrame st.mem kernPgtable st.la.mmAllocEnd st.buddy v }

/-- The body of the last loop, which frees the frames, follows its counterpart on lists. -/
theorem follows_freeFrame : Follows info t n (freeFrameLive kernPgtable) (freeStep kernPgtable) := by
  intro a ha st pa hbefore _
  rw [freeFrameLive, freeStep, SameBytes.readMmapEntry hbefore ha]

/-- The loop that frees touches the buddy system alone, memory and tables stay as the earlier loops
left them. -/
theorem foldl_freeStep (vs : List (MmapEntry × Word)) (st : InitState) :
    vs.foldl (freeStep kernPgtable) st
      = { st with buddy := vs.foldl (freeFrame st.mem kernPgtable st.la.mmAllocEnd) st.buddy } := by
  induction vs generalizing st with
  | nil => rfl
  | cons v vs ih => rw [List.foldl_cons, ih, freeStep, List.foldl_cons]

end Loops

/-! ### `mm_init` -/

section Init

variable {mbi bootMemAllocStart kernPgtable t : Word} {base : Word → Prop} {entries : List MmapEntry}
  {tags n : Nat} {s s₁ : Kmem} {la : LinearAlloc} {st st₁ st₂ : InitState}

/-- No round of the loops that build the tables writes to the map: they write to tables only, which
are pages of the two stages, and the information lies apart from all of them. -/
theorem Prepared.mapKept (hprep : Prepared entries bootMemAllocStart kernPgtable base s)
    (hscan : entries.foldlM (scanEntry bootMemAllocStart) LinearAlloc.static = some la)
    (hfirst : (visitsOf entries).foldl (fun st v => mapDirect kernPgtable st v.2) ⟨s.mem, la, s.buddy⟩
      = st₁) (hsecond : (visitsOf entries).foldl (initFrame kernPgtable) st₁ = st₂)
    (hok : 0 ∉ st₂.la.returned)
    (hapart : ∀ x, MmapByte t n x → ∀ q, BootPage base st₂.la q → pageOf x ≠ pageOf q)
    (pre : List (MmapEntry × Word)) (hpre : pre <+: visitsOf entries) :
    MapKept (physMem s.mem) t n
        (pre.foldl (fun st v => mapDirect kernPgtable st v.2) ⟨s.mem, la, s.buddy⟩) ∧
      MapKept (physMem s.mem) t n (pre.foldl (initFrame kernPgtable) st₁) := by
  have hbase : ∀ q, base q → q.toNat < bootMemAllocStart.toNat := fun q hq => (hprep.below q hq).2
  have hlow : ∀ v ∈ visitsOf entries, v.2.toNat < 2 ^ 46 := fun v hv => visitsOf_lt hprep.map hv
  have hdirect : ∀ v ∈ visitsOf entries, ∀ st, TreeMapping bootMemAllocStart kernPgtable base
      (fun _ _ => True) st.mem st.la → Extends bootMemAllocStart kernPgtable base (fun _ => True) st
        (mapDirect kernPgtable st v.2) :=
    fun v hv st hst => extends_mapDirect hbase (hlow v hv) (fun _ _ _ _ => trivial) hst
  have hstruct : ∀ v ∈ visitsOf entries, ∀ st, TreeMapping bootMemAllocStart kernPgtable base
      (fun _ _ => True) st.mem st.la → Extends bootMemAllocStart kernPgtable base (fun _ => True) st
        (initFrame kernPgtable st v) :=
    fun v hv st hst => extends_initFrame hbase (hlow v hv) (fun _ _ _ _ _ => trivial) hst
  have hbegin : TreeMapping bootMemAllocStart kernPgtable base (fun _ _ => True) s.mem la :=
    (hprep.mapping hscan).mono fun _ _ => trivial
  have hextends : Extends bootMemAllocStart kernPgtable base (fun _ => True)
      ⟨s.mem, la, s.buddy⟩ st₁ := by
    rw [← hfirst]
    exact Extends.foldl hdirect hbegin
  have hmore := Extends.foldl hstruct hextends.mapping
  rw [hsecond] at hmore
  -- The pages of the first loop are among those that are there in the end.
  have hoff : ∀ x, MmapByte t n x → ∀ q, base q ∨ q ∈ st₂.la.returned →
      OffPage KERNEL_DIRECT_MAPPING_AREA q (physToKernelDirectMappingAddr x) := by
    intro x hx q hq
    have haligned : PageAligned q :=
      hq.elim (fun hb => (hprep.below q hb).1) ((hmore.mapping.linear.cursor hok).risen.aligned q)
    rw [offPage_iff haligned, frameOf_direct]
    exact hapart x hx q hq
  have hnull : 0 ∉ st₁.la.returned := fun hz => hok (hmore.log.subset hz)
  have hkept : ∀ x, MmapByte t n x → st₁.mem (physToKernelDirectMappingAddr x)
      = s.mem (physToKernelDirectMappingAddr x) := fun x hx =>
    hextends.frame hnull _ fun q hq => hoff x hx q (hq.imp_right fun hm => hmore.log.subset hm)
  constructor
  · intro x hx
    show InitState.mem _ _ = InitState.mem ⟨s.mem, la, s.buddy⟩ _
    refine Extends.foldl_prefix hdirect hbegin hpre ?_ ?_
    · rw [hfirst]
      exact hnull
    · intro q hq
      rw [hfirst] at hq
      exact hoff x hx q (hq.imp_right fun hm => hmore.log.subset hm)
  · intro x hx
    refine (Extends.foldl_prefix hstruct hextends.mapping hpre ?_ ?_).trans (hkept x hx)
    · rw [hsecond]
      exact hok
    · intro q hq
      rw [hsecond] at hq
      exact hoff x hx q hq

/-- So the loops read what was there at the start, and the initialization that reads memory as it
goes is the one that is given the list of entries. -/
theorem initFromTagLive_eq (hmap : WellFormedMmap (physMem s.mem) t 24 n) (hfits : StrideFits 24 n)
    (hprep : Prepared (mapEntries (physMem s.mem) t 24 n) bootMemAllocStart kernPgtable base s)
    (h : mmPagesAllocatorInit bootMemAllocStart kernPgtable (mapEntries (physMem s.mem) t 24 n) s.mem
      s.buddy = some st) (hok : 0 ∉ st.la.returned)
    (hapart : ∀ x, MmapByte t n x → ∀ q, BootPage base st.la q → pageOf x ≠ pageOf q) :
    initFromTagLive t bootMemAllocStart kernPgtable (n + 1) s.mem s.buddy = some st := by
  have hvisits : allVisits (mapEntries (physMem s.mem) t 24 n)
      = some (visitsOf (mapEntries (physMem s.mem) t 24 n)) :=
    allVisits_eq hprep.map.addrs hprep.map.lens
      fun e he => (hprep.map.bounded e he).trans (by decide)
  rw [mmPagesAllocatorInit, hvisits] at h
  obtain ⟨st₀, hbefore, rfl⟩ := Option.map_eq_some_iff.mp h
  rw [beforeFree, Option.map_eq_some_iff] at hbefore
  obtain ⟨la, hscan, rfl⟩ := hbefore
  obtain ⟨st₁, hfirst⟩ : ∃ st₁, (visitsOf (mapEntries (physMem s.mem) t 24 n)).foldl
    (fun st v => mapDirect kernPgtable st v.2) ⟨s.mem, la, s.buddy⟩ = st₁ := ⟨_, rfl⟩
  obtain ⟨st₂, hsecond⟩ : ∃ st₂, (visitsOf (mapEntries (physMem s.mem) t 24 n)).foldl
    (initFrame kernPgtable) st₁ = st₂ := ⟨_, rfl⟩
  dsimp only at hok hapart ⊢
  rw [hfirst, hsecond] at hok hapart ⊢
  have hkept := hprep.mapKept hscan hfirst hsecond hok hapart
  have hmapped : entryLoopLive (mapDirectLive kernPgtable) t (n + 1) (BitVec.ofNat 64 TAG_MMAP_SIZE)
      ⟨s.mem, la, s.buddy⟩ = some st₁ := by
    rw [entryLoopLive_run hmap hfits follows_mapDirect hvisits fun pre hpre => (hkept pre hpre).1,
      hfirst]
  have hinit : entryLoopLive (initFrameLive kernPgtable) t (n + 1) (BitVec.ofNat 64 TAG_MMAP_SIZE) st₁
      = some st₂ := by
    rw [entryLoopLive_run hmap hfits follows_initFrame hvisits fun pre hpre => (hkept pre hpre).2,
      hsecond]
  -- The last loop writes to page structs only.
  have hfree : entryLoopLive (freeFrameLive kernPgtable) t (n + 1) (BitVec.ofNat 64 TAG_MMAP_SIZE)
      { st₂ with buddy := freelistInit st₂.buddy } = some _ :=
    entryLoopLive_run hmap hfits follows_freeFrame hvisits fun pre hpre => by
      have hend := (hkept _ (List.prefix_refl _)).2
      rw [hsecond] at hend
      rw [foldl_freeStep]
      exact hend
  rw [foldl_freeStep] at hfree
  simp only [initFromTagLive, areaLoop_run hmap hfits, hscan, Option.map_some, Option.bind_eq_bind,
    Option.bind_some, hmapped, hinit, hfree]
  rfl

/-- `mm_init` reads its map from the memory that it writes to, and when no table is where the map
is, it does what it would do with a copy of the map. -/
theorem mmInitLive_eq (hinfo : BootInfo (physMem s.mem) mbi tags t n)
    (hprep : Prepared (mapEntries (physMem s.mem) t 24 n) bootMemAllocStart kernPgtable base s)
    (hinit : mmInit (physMem s.mem) mbi bootMemAllocStart kernPgtable tags (n + 1) s = some (la, s₁))
    (hok : 0 ∉ la.returned)
    (hapart : ∀ x, MmapByte t n x → ∀ q, BootPage base la q → pageOf x ≠ pageOf q) :
    mmInitLive mbi bootMemAllocStart kernPgtable tags (n + 1) s = some (la, s₁) := by
  rw [mmInit_eq hinfo, Option.map_eq_some_iff] at hinit
  obtain ⟨st, hst, heq⟩ := hinit
  obtain ⟨rfl, rfl⟩ := Prod.mk.inj heq
  obtain ⟨w, hwalk, rfl⟩ := hinfo.found
  simp only [mmInitLive, hwalk, Option.bind_eq_bind, Option.bind_some, if_neg hinfo.ne_zero,
    initFromTagLive_eq hinfo.map hinfo.fits hprep hst hok hapart]
  rfl

end Init

/-! ### The memory of the boot loader -/

section Walk

variable {m m' : Mem} {t mbi : Word} {n tags : Nat} {w : TagWalk} {reads : List Word}

/-- The bytes that `mm_init` reads: those of the fields that the walk over the tags looks at, and
the memory map. -/
def InfoByte (w : TagWalk) (n : Nat) (x : Word) : Prop :=
  (∃ a ∈ w.reads, ∃ j < 4, x = a + BitVec.ofNat 64 j) ∨ MmapByte w.mmapInfo n x

/-- The walk over the tags goes the same way in two memories that agree on all the
fields it reads. -/
theorem tagLoop_same (hsame : ∀ a ∈ w.reads, m.read32 a = m'.read32 a) {fuel : Nat}
    (h : tagLoop m fuel ⟨t, 0, reads⟩ = some w) : tagLoop m' fuel ⟨t, 0, reads⟩ = some w := by
  induction fuel generalizing t reads with
  | zero => cases h
  | succ fuel ih =>
      by_cases hpass : Passes m t
      · -- Of a tag that it passes, the walk reads the type and the size.
        rw [tagLoop_pass hpass] at h
        have htype : (readTag m t).type = (readTag m' t).type :=
          hsame t (tagLoop_reads h t (by simp))
        have hsize : (readTag m t).size = (readTag m' t).size :=
          hsame (t + 4) (tagLoop_reads h (t + 4) (by simp))
        have hnext : nextTag m t = nextTag m' t := by
          rw [nextTag, nextTag, tagStride, tagStride, hsize]
        have hpass' : Passes m' t := by
          rw [Passes, ← htype]
          exact hpass
        rw [tagLoop_pass hpass', ← hnext]
        exact ih h
      · obtain ⟨mmapInfo, hstop⟩ := tagLoop_stop hpass fuel reads
        obtain rfl : w = ⟨t, mmapInfo, t :: reads⟩ := Option.some.inj (h.symm.trans hstop)
        have htype : (readTag m t).type = (readTag m' t).type := hsame t List.mem_cons_self
        -- The walk stops at the end tag, or at the memory map.
        by_cases hend : (readTag m t).type = MULTIBOOT_TAG_TYPE_END
        · rw [tagLoop_end hend] at h
          rw [tagLoop_end (htype ▸ hend), h]
        · have hmmap : (readTag m t).type = MULTIBOOT_TAG_TYPE_MMAP := by
            by_contra hno
            exact hpass ⟨hend, fun hyes => absurd hyes hno⟩
          have hne : t ≠ 0 := fun hzero => hpass ⟨hend, fun _ => hzero⟩
          rw [tagLoop_mmap hmmap hne] at h
          rw [tagLoop_mmap (htype ▸ hmmap) hne, h]

/-- The information is found in every memory with the same bytes, at the same place and with as
many entries. -/
theorem BootInfo.of_same (hinfo : BootInfo m mbi tags w.mmapInfo n)
    (hwalk : tagLoop m tags (TagWalk.start mbi) = some w) (h : SameBytes (InfoByte w n) m m') :
    BootInfo m' mbi tags w.mmapInfo n where
  found := ⟨w, tagLoop_same (fun a ha => h.read32 fun j hj => Or.inl ⟨a, ha, j, hj, rfl⟩) hwalk, rfl⟩
  ne_zero := hinfo.ne_zero
  map := by
    have hmap := hinfo.map
    have htag := SameBytes.readTagMmap (n := n) fun x hx => h x (Or.inr hx)
    constructor
    · rw [← htag]
      exact hmap.type
    · rw [← htag]
      exact hmap.size_eq
    · exact hmap.aligned
    · exact hmap.least
    · rw [← htag]
      exact hmap.size
  fits := hinfo.fits

end Walk

section Loader

variable {δ : Type} {bus : Bus δ} {bootStack eax ebx : BitVec 32} {image : KernelImage} {mem : Mem}
  {bootStart rsp mbi x : Word} {dev : Machine δ} {e : Entered} {b : BootState δ} {s s₁ : Kmem}
  {w : TagWalk} {tags n : Nat} {la : LinearAlloc} {own : Word → Prop}

/-- What the boot loader wrote stays there, outside of `.boot.data`, of the screen and of the
pages of the booting stage. -/
theorem LoadedImage.memory (h : LoadedImage bootStack image mem)
    (hup : bringUp bus bootStack bootStart image mem eax ebx rsp dev = some (e, .main mbi b))
    (hboot : 0 ∉ b.mm.returned) (hdata : 61440 ≤ (x - bootStack.setWidth 64).toNat)
    (hscreen : ¬ OnScreen x) (hapart : ∀ q ∈ b.mm.returned, pageOf x ≠ pageOf q) : b.mem x = mem x := by
  obtain ⟨hstart, hstage, -⟩ := h.bringUp_inv hup
  obtain ⟨-, -, hpages⟩ := h.bootPages hup hboot
  have hoff : ∀ q ∈ b.mm.returned, OffPage 0 q x := by
    intro q hq
    have hzero : physToKernelDirectMappingAddr x - (q + KERNEL_DIRECT_MAPPING_AREA)
        = x - (q + 0) := by
      rw [physToKernelDirectMappingAddr]
      bv_omega
    have hdirect := (offPage_iff (x := physToKernelDirectMappingAddr x) (hpages q hq).1).mpr (by
      rw [frameOf_direct]
      exact hapart q hq)
    rw [OffPage, hzero] at hdirect
    exact hdirect
  rw [bootMmPgtableInit_offPages h.placed (align_aligned _) hstage hboot hoff]
  obtain ⟨e', hstart', -, -, -, hleft⟩ := start_left h.data mem eax ebx
  rw [hstart, Option.some.injEq] at hstart'
  subst hstart'
  exact hleft.other x hdata hscreen

end Loader

end SumiOS
