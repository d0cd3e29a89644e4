import SumiOS.Proofs.Init.AreaEnds
import SumiOS.Proofs.Init.Tags

/-!
# `SumiOS.Proofs.Init.Decode`: the memory map of the boot loader

The memory map is an MMAP tag: after a header of 16 bytes it has `n` entries, each of
`entry_size` bytes. The four loops over the entries do not look at `entry_size`. They go on
by the size of the struct that they were compiled with, and the counter of the first loop is
an `int`, which is extended with its sign when it is added to an address.

`decodesMap_iff` says when they read the map that the boot loader wrote. The loops are
brought into one form first: the values of the counter (`counterValues`), and a fold over
the entries at these values (`areaLoop_eq`, `entryLoop_eq`). `initFromTag_eq` is for the
whole of the four loops: they do to the entries in the tag what `mmPagesAllocatorInit` does
to a list of entries.
-/

set_option autoImplicit false

namespace SumiOS

open Lib

/-! ### The values of a counter -/

/-- The values of the counter of an entry loop, a number of `w` bits. -/
def counterValues {w : Nat} (size : BitVec w) : Nat → BitVec w → Option (List (BitVec w))
  | 0, _ => none
  | n + 1, i =>
      if i < size then
        (counterValues size n (i + BitVec.ofNat w MMAP_ENTRY_SIZE)).map (i :: ·)
      else some []

/-- The counter after `j` rounds. -/
def counterAfter {w : Nat} (i : BitVec w) (j : Nat) : BitVec w := i + BitVec.ofNat w (24 * j)

section Counter

variable {w : Nat} {size i : BitVec w}

/-- Before the first round the counter has its start value. -/
theorem counterAfter_zero (i : BitVec w) : counterAfter i 0 = i := BitVec.add_zero i

/-- A round adds the size of an entry, at the width of the counter. -/
theorem counterAfter_succ (i : BitVec w) (j : Nat) :
    counterAfter (i + BitVec.ofNat w MMAP_ENTRY_SIZE) j = counterAfter i (j + 1) := by
  unfold counterAfter
  rw [BitVec.add_assoc, ← BitVec.ofNat_add]
  exact congrArg (fun k => i + BitVec.ofNat w k) (by unfold MMAP_ENTRY_SIZE; omega)

/-- A loop that ends has gone on as long as the counter was below the size. -/
theorem counterValues_some {fuel : Nat} : ∀ {i : BitVec w} {values : List (BitVec w)},
    counterValues size fuel i = some values →
    ∃ k, values = (List.range k).map (counterAfter i) ∧ (∀ j < k, counterAfter i j < size) ∧
      ¬ counterAfter i k < size := by
  induction fuel with
  | zero => exact fun h => nomatch h
  | succ fuel ih =>
      intro i values h
      rw [counterValues] at h
      by_cases hmore : i < size
      · rw [if_pos hmore] at h
        obtain ⟨rest, hrest, rfl⟩ := Option.map_eq_some_iff.mp h
        obtain ⟨k, rfl, hbelow, hend⟩ := ih hrest
        refine ⟨k + 1, ?_, fun j hj => ?_, by rwa [counterAfter_succ] at hend⟩
        · rw [List.range_succ_eq_map, List.map_cons, List.map_map, counterAfter_zero]
          exact congrArg (i :: ·) (List.map_congr_left fun j _ => counterAfter_succ i j)
        · cases j with
          | zero => rwa [counterAfter_zero]
          | succ j =>
              have hj' := hbelow j (by omega)
              rwa [counterAfter_succ] at hj'
      · rw [if_neg hmore] at h
        obtain rfl := Option.some.inj h
        exact ⟨0, rfl, fun j hj => absurd hj (Nat.not_lt_zero j), by rwa [counterAfter_zero]⟩

/-- A loop whose counter comes to the size after `k` rounds ends there, and its values are the `k`
offsets at which the entries begin. The counter does not wrap around on the way, at whatever width
it is kept. -/
theorem counterValues_full (size : BitVec w) (k : Nat) : ∀ {i : BitVec w},
    i.toNat + 24 * k = size.toNat →
    counterValues size (k + 1) i = some ((List.range k).map (counterAfter i)) := by
  induction k with
  | zero =>
      intro i h
      have hend : ¬ i < size := by
        rw [BitVec.lt_def]
        omega
      rw [counterValues, if_neg hend]
      rfl
  | succ k ih =>
      intro i h
      have hmore : i < size := by
        rw [BitVec.lt_def]
        omega
      have hstep : (i + BitVec.ofNat w MMAP_ENTRY_SIZE).toNat = i.toNat + 24 := by
        have hlt := size.isLt
        rw [BitVec.toNat_add, BitVec.toNat_ofNat, Nat.add_mod_mod, MMAP_ENTRY_SIZE]
        exact Nat.mod_eq_of_lt (by omega)
      rw [counterValues, if_pos hmore, ih (by omega), List.range_succ_eq_map, List.map_cons,
        List.map_map, counterAfter_zero]
      exact congrArg (fun l => some (i :: l)) (List.map_congr_left fun j _ => counterAfter_succ i j)

end Counter

/-! ### The loops as folds -/

section Loops

variable {m : Mem} {t first : Word}

/-- The area loop is a fold over the entries at the values of its counter. -/
theorem areaLoop_eq (fuel : Nat) : ∀ (i : BitVec 32) (la : LinearAlloc),
    areaLoop m t first fuel i la = (counterValues (readTag m t).size fuel i).bind fun values =>
      let addrs := values.map fun i => t + i.signExtend 64
      ((addrs.map (readMmapEntry m)).foldlM (scanEntry first) la).map (·, addrs) := by
  induction fuel with
  | zero => exact fun _ _ => rfl
  | succ fuel ih =>
      intro i la
      rw [areaLoop, counterValues]
      by_cases hmore : i < (readTag m t).size
      · simp only [hmore, if_true, Option.bind_map, Function.comp_def, List.map_cons,
          List.foldlM_cons]
        cases hbody : scanEntry first la (readMmapEntry m (t + i.signExtend 64)) with
        | none => simp
        | some la' =>
            simp only [ih]
            cases counterValues (readTag m t).size fuel (i + BitVec.ofNat 32 MMAP_ENTRY_SIZE) with
            | none => rfl
            | some values => simp [Function.comp_def]
      · simp only [hmore, if_false]
        rfl

/-- The other loops are folds, too: first over the values of the counter, and for each of them over
what the frame loop visits. They end when the counter and all frame loops do. -/
theorem entryLoop_eq {σ : Type} {body : σ → MmapEntry → Option σ} (fuel : Nat) :
    ∀ (i : Word) (st : σ), entryLoop body m t fuel i st =
      (counterValues ((readTag m t).size.setWidth 64) fuel i).bind fun values =>
        let addrs := values.map (t + ·)
        ((addrs.map (readMmapEntry m)).foldlM body st).map (·, addrs) := by
  induction fuel with
  | zero => exact fun _ _ => rfl
  | succ fuel ih =>
      intro i st
      rw [entryLoop, counterValues]
      by_cases hmore : i < (readTag m t).size.setWidth 64
      · simp only [hmore, if_true, Option.bind_map, Function.comp_def, List.map_cons,
          List.foldlM_cons]
        cases hbody : body st (readMmapEntry m (t + i)) with
        | none => simp
        | some st' =>
            simp only [ih]
            cases counterValues ((readTag m t).size.setWidth 64) fuel
                (i + BitVec.ofNat 64 MMAP_ENTRY_SIZE) with
            | none => rfl
            | some values => simp [Function.comp_def]
      · simp only [hmore, if_false]
        rfl

end Loops

/-! ### The map that the boot loader wrote -/

/-- An MMAP tag with `n` entries of `entrySize` bytes. -/
structure WellFormedMmap (m : Mem) (t : Word) (entrySize n : Nat) : Prop where
  type : (readTagMmap m t).type = MULTIBOOT_TAG_TYPE_MMAP
  size_eq : (readTagMmap m t).entrySize.toNat = entrySize
  aligned : 8 ∣ entrySize
  least : 24 ≤ entrySize
  size : (readTagMmap m t).size.toNat = 16 + n * entrySize

/-- Where the entries are. -/
def entryAddrs (t : Word) (entrySize n : Nat) : List Word :=
  (List.range n).map fun i => t + BitVec.ofNat 64 (16 + i * entrySize)

/-- The entries of the map. -/
def mapEntries (m : Mem) (t : Word) (entrySize n : Nat) : List MmapEntry :=
  (entryAddrs t entrySize n).map (readMmapEntry m)

/-- The loops read the map: each of them visits the entries, in their order, and the area
loop puts the available ones into the slots of the array. The other loops are for any body
that comes to its end on the entries. -/
structure DecodesMap (m : Mem) (t first : Word) (entrySize n : Nat) : Prop where
  areas : ∃ fuel la,
    areaLoop m t first fuel (BitVec.ofNat 32 TAG_MMAP_SIZE) LinearAlloc.static
      = some (la, entryAddrs t entrySize n) ∧
    (List.range la.physMmAreaNum).map la.physMmAreaArr = availableAreas (mapEntries m t entrySize n)
  others : ∀ {σ : Type} (body : σ → MmapEntry → Option σ) (st st' : σ),
    (mapEntries m t entrySize n).foldlM body st = some st' →
    ∃ fuel, entryLoop body m t fuel (BitVec.ofNat 64 TAG_MMAP_SIZE) st
      = some (st', entryAddrs t entrySize n)

/-- The entries are where the loops look for them: there are none, or they have the size of
the struct and lie below `2 ^ 31`. -/
def StrideFits (entrySize n : Nat) : Prop := n = 0 ∨ entrySize = 24 ∧ 16 + 24 * (n - 1) < 2 ^ 31

instance (entrySize n : Nat) : Decidable (StrideFits entrySize n) :=
  inferInstanceAs (Decidable (_ ∨ _))

section Decode

variable {m : Mem} {t first : Word} {entrySize n : Nat}

/-- The counter of the area loop as a number. -/
theorem areaCounter_toNat {j : Nat} (h : 16 + 24 * j < 2 ^ 32) :
    (counterAfter (BitVec.ofNat 32 TAG_MMAP_SIZE) j).toNat = 16 + 24 * j := by
  rw [counterAfter, ← BitVec.ofNat_add, BitVec.toNat_ofNat]
  exact Nat.mod_eq_of_lt h

/-- An offset below `2 ^ 32` is the extension of a counter only below `2 ^ 31`. -/
theorem signExtend_eq_ofNat {x : BitVec 32} {k : Nat} (hk : k < 2 ^ 32) :
    x.signExtend 64 = BitVec.ofNat 64 k ↔ x.toNat = k ∧ k < 2 ^ 31 := by
  have hx := x.isLt
  rw [← BitVec.toNat_inj, BitVec.toNat_signExtend, BitVec.toNat_ofNat, BitVec.toNat_setWidth,
    BitVec.msb_eq_decide]
  by_cases hsign : 2 ^ 31 ≤ x.toNat
  · simp only [hsign, decide_true, if_true]
    omega
  · simp only [hsign, decide_false]
    simp only [Bool.false_eq_true, if_false]
    omega

/-- The n entries take the rest of the tag. -/
theorem WellFormedMmap.offset_lt (hmap : WellFormedMmap m t entrySize n) {j : Nat} (hj : j ≤ n) :
    16 + j * entrySize < 2 ^ 32 := by
  have hlt := (readTagMmap m t).size.isLt
  have hle : j * entrySize ≤ n * entrySize := Nat.mul_le_mul_right entrySize hj
  have hsize := hmap.size
  omega

/-- With entries of the size of the struct, the counters come to the size of the tag. -/
theorem StrideFits.total (hfits : StrideFits entrySize n) : n * entrySize = 24 * n := by
  cases hfits with
  | inl hzero => rw [hzero, Nat.zero_mul, Nat.mul_zero]
  | inr hfits => rw [hfits.1, Nat.mul_comm]

/-- Then the counters of the area loop are the offsets of the entries. Its counter is an `int`, so
the offsets are widened with their sign when they are added to the address of the tag. -/
theorem areaCounter_run (hmap : WellFormedMmap m t entrySize n) (hfits : StrideFits entrySize n) :
    ∃ values, counterValues (readTag m t).size (n + 1) (BitVec.ofNat 32 TAG_MMAP_SIZE)
        = some values ∧ (values.map fun i => t + i.signExtend 64) = entryAddrs t entrySize n := by
  have hsize : (readTag m t).size.toNat = 16 + n * entrySize := hmap.size
  have htotal := hfits.total
  have hfirst : (BitVec.ofNat 32 TAG_MMAP_SIZE).toNat + 24 * n = (readTag m t).size.toNat := by
    have hheader : (BitVec.ofNat 32 TAG_MMAP_SIZE).toNat = 16 := rfl
    omega
  have hfull := counterValues_full _ n hfirst
  refine ⟨_, hfull, ?_⟩
  rw [List.map_map]
  refine List.map_congr_left fun j hj => ?_
  rw [List.mem_range] at hj
  have hoffset : 16 + j * entrySize = 16 + 24 * j ∧ 16 + 24 * j < 2 ^ 31 := by
    cases hfits with
    | inl hzero => omega
    | inr hfits => rw [hfits.1]; omega
  have hcounter := areaCounter_toNat (j := j) (by omega)
  have hsign := (signExtend_eq_ofNat (x := counterAfter (BitVec.ofNat 32 TAG_MMAP_SIZE) j)
    (k := 16 + j * entrySize) (by omega)).mpr ⟨by omega, by omega⟩
  show t + (counterAfter (BitVec.ofNat 32 TAG_MMAP_SIZE) j).signExtend 64 = _
  rw [hsign]

/-- The area loop visits the entries exactly when they are where it looks for them. -/
theorem areaCounter_iff (hmap : WellFormedMmap m t entrySize n) :
    (∃ fuel values, counterValues (readTag m t).size fuel (BitVec.ofNat 32 TAG_MMAP_SIZE)
        = some values ∧ (values.map fun i => t + i.signExtend 64) = entryAddrs t entrySize n) ↔
      StrideFits entrySize n := by
  have hsize : (readTag m t).size.toNat = 16 + n * entrySize := hmap.size
  have hleast := hmap.least
  constructor
  · rintro ⟨fuel, values, hvalues, haddrs⟩
    obtain ⟨k, rfl, -, hend⟩ := counterValues_some hvalues
    obtain rfl : k = n := by
      have hlength := congrArg List.length haddrs
      simpa [entryAddrs] using hlength
    -- Every counter is the offset of its entry.
    have hat : ∀ j < k, (counterAfter (BitVec.ofNat 32 TAG_MMAP_SIZE) j).toNat = 16 + j * entrySize ∧
        16 + j * entrySize < 2 ^ 31 := by
      intro j hj
      have hget := congrArg (fun l => l[j]?) haddrs
      simp only [entryAddrs, List.getElem?_map, List.getElem?_range hj, Option.map_some,
        Option.some.injEq, BitVec.add_right_inj] at hget
      exact (signExtend_eq_ofNat (hmap.offset_lt (Nat.le_of_lt hj))).mp hget
    by_cases hzero : k = 0
    · exact Or.inl hzero
    · have hsecond : (counterAfter (BitVec.ofNat 32 TAG_MMAP_SIZE) 1).toNat = 40 :=
        areaCounter_toNat (by decide)
      have hentry : entrySize = 24 := by
        by_cases hone : k = 1
        · subst hone
          rw [BitVec.lt_def, hsecond] at hend
          omega
        · have h1 := (hat 1 (by omega)).1
          omega
      have hlast := (hat (k - 1) (by omega)).2
      subst hentry
      exact Or.inr ⟨rfl, by omega⟩
  · exact fun hfits => ⟨_, areaCounter_run hmap hfits⟩

/-- Then the counters of the other loops are the offsets of the entries, too. -/
theorem wideCounter (hmap : WellFormedMmap m t entrySize n) (hfits : StrideFits entrySize n) :
    ∃ values, counterValues ((readTag m t).size.setWidth 64) (n + 1) (BitVec.ofNat 64 TAG_MMAP_SIZE)
        = some values ∧ values.map (t + ·) = entryAddrs t entrySize n := by
  have hsize : (readTag m t).size.toNat = 16 + n * entrySize := hmap.size
  have hlt := hmap.offset_lt (Nat.le_refl n)
  have htotal := hfits.total
  have hfirst : (BitVec.ofNat 64 TAG_MMAP_SIZE).toNat + 24 * n
      = ((readTag m t).size.setWidth 64).toNat := by
    have hheader : (BitVec.ofNat 64 TAG_MMAP_SIZE).toNat = 16 := rfl
    rw [BitVec.toNat_setWidth, hsize, Nat.mod_eq_of_lt (by omega)]
    omega
  have hfull := counterValues_full _ n hfirst
  refine ⟨_, hfull, ?_⟩
  rw [List.map_map]
  refine List.map_congr_left fun j hj => ?_
  rw [List.mem_range] at hj
  have hoffset : 16 + j * entrySize = TAG_MMAP_SIZE + 24 * j := by
    unfold TAG_MMAP_SIZE
    cases hfits with
    | inl hzero => omega
    | inr hfits => rw [hfits.1]; omega
  rw [hoffset, BitVec.ofNat_add]
  rfl

/-- The area loop, when it ends, has scanned the entries at the values of its counter. -/
theorem areaLoop_some {fuel : Nat} {i : BitVec 32} {la la' : LinearAlloc} {addrs : List Word}
    (h : areaLoop m t first fuel i la = some (la', addrs)) :
    ∃ values, counterValues (readTag m t).size fuel i = some values ∧
      (values.map fun i => t + i.signExtend 64) = addrs ∧
      (addrs.map (readMmapEntry m)).foldlM (scanEntry first) la = some la' := by
  rw [areaLoop_eq] at h
  obtain ⟨values, hvalues, hfold⟩ := Option.bind_eq_some_iff.mp h
  obtain ⟨la₁, hscan, heq⟩ := Option.map_eq_some_iff.mp hfold
  obtain ⟨rfl, rfl⟩ := Prod.mk.inj heq
  exact ⟨values, hvalues, rfl, hscan⟩

/-- The area loop on entries that it finds is the scan of the list of these entries. -/
theorem areaLoop_run (hmap : WellFormedMmap m t entrySize n) (hfits : StrideFits entrySize n)
    (la : LinearAlloc) :
    areaLoop m t first (n + 1) (BitVec.ofNat 32 TAG_MMAP_SIZE) la
      = ((mapEntries m t entrySize n).foldlM (scanEntry first) la).map
          (·, entryAddrs t entrySize n) := by
  obtain ⟨values, hvalues, haddrs⟩ := areaCounter_run hmap hfits
  rw [areaLoop_eq, hvalues, Option.bind_some, haddrs]
  rfl

/-- The other loops on entries that they find are folds over the list of these entries. -/
theorem entryLoop_run {σ : Type} (hmap : WellFormedMmap m t entrySize n)
    (hfits : StrideFits entrySize n) (body : σ → MmapEntry → Option σ) (st : σ) :
    entryLoop body m t (n + 1) (BitVec.ofNat 64 TAG_MMAP_SIZE) st
      = ((mapEntries m t entrySize n).foldlM body st).map (·, entryAddrs t entrySize n) := by
  obtain ⟨values, hvalues, haddrs⟩ := wideCounter hmap hfits
  rw [entryLoop_eq, hvalues, Option.bind_some, haddrs]
  rfl

/-- The loops read the map exactly when the entries are where they look for them, 24 bytes apart,
and no more of them are available than the array has slots. -/
theorem decodesMap_iff (hmap : WellFormedMmap m t entrySize n) :
    DecodesMap m t first entrySize n ↔ StrideFits entrySize n ∧
      (availableEntries (mapEntries m t entrySize n)).length ≤ PHYS_MM_SEGS_NUM_MAX := by
  have hroom := foldlM_scanEntry_isSome first (mapEntries m t entrySize n) LinearAlloc.static
    (Nat.zero_le _)
  have hcount : LinearAlloc.static.physMmAreaNum
      + (mapEntries m t entrySize n).countP (fun e => decide e.Available)
      = (availableEntries (mapEntries m t entrySize n)).length := by
    rw [availableEntries, ← List.countP_eq_length_filter]
    exact Nat.zero_add _
  rw [hcount] at hroom
  constructor
  · rintro ⟨⟨fuel, la, hloop, -⟩, -⟩
    obtain ⟨values, hvalues, haddrs, hscan⟩ := areaLoop_some hloop
    refine ⟨(areaCounter_iff hmap).mp ⟨fuel, values, hvalues, haddrs⟩, hroom.mp ?_⟩
    rw [mapEntries, hscan]
    rfl
  · rintro ⟨hfits, hslots⟩
    constructor
    · obtain ⟨la, hla⟩ := Option.isSome_iff_exists.mp (hroom.mpr hslots)
      refine ⟨n + 1, la, by rw [areaLoop_run hmap hfits, hla]; rfl, ?_⟩
      exact (foldlM_scanEntry_areas hla).1
    · intro σ body st st' hbody
      exact ⟨n + 1, by rw [entryLoop_run hmap hfits, hbody]; rfl⟩

/-- A map of two entries of 24 bytes: reserved memory up to 1 MB, and 15 MB of memory. -/
def plainMap : Mem := infoAt 0x10000
  [80, 0, 6, 64, 24, 0, 0xa0000, 0, 0x60000, 0, 2, 0, 0x100000, 0, 0xf00000, 0, 1, 0, 0, 8]

/-- The loops read the two entries of a map whose entries have the size that they step by, and both
fit into the array. -/
theorem decodesMap_iff_plainMap : WellFormedMmap plainMap 0x10008 24 2 ∧
    DecodesMap plainMap 0x10008 0x800000 24 2 := by
  have hmap : WellFormedMmap plainMap 0x10008 24 2 :=
    ⟨by decide, by decide, by decide, by decide, by decide⟩
  exact ⟨hmap, (decodesMap_iff hmap).mpr ⟨by decide, by decide⟩⟩

/-- A map of one entry of 32 bytes, 15 MB of memory. -/
def wideMap : Mem := infoAt 0x10000
  [64, 0, 6, 48, 32, 0, 0x100000, 0, 0xf00000, 0, 1, 0, 0, 0, 0, 8]

/-- The loops take the last bytes of the entry for another one, since they step by the size of
their own struct and not by that of the tag. -/
theorem not_decodesMap_wideMap : WellFormedMmap wideMap 0x10008 32 1 ∧
    ¬ DecodesMap wideMap 0x10008 0x800000 32 1 := by
  have hmap : WellFormedMmap wideMap 0x10008 32 1 :=
    ⟨by decide, by decide, by decide, by decide, by decide⟩
  refine ⟨hmap, fun hdecodes => ?_⟩
  obtain ⟨fuel, la, hloop, -⟩ := hdecodes.areas
  obtain ⟨values, hvalues, haddrs, -⟩ := areaLoop_some hloop
  exact absurd ((areaCounter_iff hmap).mp ⟨fuel, values, hvalues, haddrs⟩) (by decide)

/-! ### The whole of the loops -/

/-- The loop over the entries with a frame loop in it is a loop over all frames. -/
theorem foldlM_frameVisits {σ : Type} (f : σ → MmapEntry × Word → σ) :
    ∀ (entries : List MmapEntry) (st : σ),
      entries.foldlM (fun st e => (frameVisits e).map fun frames =>
          frames.foldl (fun st pa => f st (e, pa)) st) st
        = (allVisits entries).map fun visits => visits.foldl f st
  | [], _ => rfl
  | e :: es, st => by
      rw [List.foldlM_cons, allVisits]
      cases frameVisits e with
      | none => rfl
      | some frames =>
          show (es.foldlM _ _) = _
          rw [foldlM_frameVisits f es]
          cases allVisits es with
          | none => rfl
          | some rest =>
              simp only [Option.map_some, List.foldl_append, List.foldl_map]

/-- On a map that they find, the loops do what `mmPagesAllocatorInit` does on the list of its
entries. -/
theorem initFromTag_eq (hmap : WellFormedMmap m t entrySize n) (hfits : StrideFits entrySize n)
    (kernPgtable : Word) (mem : Mem) (b : Buddy) :
    initFromTag m t first kernPgtable (n + 1) mem b
      = mmPagesAllocatorInit first kernPgtable (mapEntries m t entrySize n) mem b := by
  have hmapped : ∀ st, (mapEntries m t entrySize n).foldlM (mapEntry kernPgtable) st
      = (allVisits (mapEntries m t entrySize n)).map
          fun visits => visits.foldl (fun st v => mapDirect kernPgtable st v.2) st :=
    foldlM_frameVisits (fun st v => mapDirect kernPgtable st v.2) _
  have hinit : ∀ st, (mapEntries m t entrySize n).foldlM (initEntry kernPgtable) st
      = (allVisits (mapEntries m t entrySize n)).map
          fun visits => visits.foldl (initFrame kernPgtable) st :=
    foldlM_frameVisits (initFrame kernPgtable) _
  have hfree : ∀ mem mmAllocEnd b,
      (mapEntries m t entrySize n).foldlM (freeEntry mem kernPgtable mmAllocEnd) b
        = (allVisits (mapEntries m t entrySize n)).map
            fun visits => visits.foldl (freeFrame mem kernPgtable mmAllocEnd) b :=
    fun mem mmAllocEnd => foldlM_frameVisits (freeFrame mem kernPgtable mmAllocEnd) _
  unfold initFromTag mmPagesAllocatorInit beforeFree
  simp only [areaLoop_run hmap hfits, entryLoop_run hmap hfits, hmapped, hinit, hfree]
  cases (mapEntries m t entrySize n).foldlM (scanEntry first) LinearAlloc.static with
  | none => cases allVisits (mapEntries m t entrySize n) <;> rfl
  | some la =>
      cases allVisits (mapEntries m t entrySize n) with
      | none => rfl
      | some visits => rfl

end Decode

end SumiOS
