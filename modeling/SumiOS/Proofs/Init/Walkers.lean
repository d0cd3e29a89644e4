import SumiOS.Proofs.Boot.Layout
import SumiOS.Proofs.Init.Usable

/-!
# `SumiOS.Proofs.Init.Walkers`: three walkers over one page table

`boot_get_pgtable_map_pa` of the booting stage and the two lookups of the kernel walk the
same tables. The lookups of the kernel clear the attributes of an entry before they follow
it, as the mapping functions do. `boot_get_pgtable_map_pa` does not: for an entry `p | attr` it
takes `p | attr` for the address of the next table. The attributes contain P, so it
reads between two entries, and up to a page too far.

Where it reads below the root is known: the tables of the two upper levels are next to each
other (`Neighbours`), and the word that it reads lies on two entries of these two pages
(`MapRun.readBetween`). When neither of them is in use, the word is 0 and the result is `-1`
(`MapRun.bootGet_clear`). Otherwise the word is put together from parts of two entries.
With all tables high up in memory it does not point to a table, and the result is what
happens to be in memory there (`highRun_bootGet`). So the walkers agree on an address only in
the cases of `walkersAgree_iff`.
-/

set_option autoImplicit false

namespace SumiOS

open Lib

/-! ### The lookups of the kernel -/

section Kernel

variable {m : Mem} {root va : Word} {calls : List MapCall} {log : List Word}
  {T : List (BitVec 9) → Option Word}

/-- In the direct mapping area the lookup of the kernel sees the same table. -/
theorem pgtableGetPa_directMem :
    pgtableGetPa KERNEL_DIRECT_MAPPING_AREA (directMem m) root va = pgtableGetPa 0 m root va := by
  rw [pgtableGetPa_eq, pgtableGetPa_eq, pgtableWalk_eq_walkTo, pgtableWalk_eq_walkTo,
    view_directMem]

end Kernel

/-! ### What the walkers agree on -/

/-- The three walkers agree on an address with the calls that built the table. -/
structure AgreeAt (calls : List MapCall) (m : Mem) (root va : Word) : Prop where
  mapped : ∀ c, lastCall va calls = some c → c.pa ≠ 0 →
    bootGetPgtableMapPa m root va &&& PAGE_MASK = c.pa ∧
      mmInitPgtableGetPa (directMem m) root va = c.pa ∧
      mmPgtableGetVaPte (directMem m) root va = c.pa
  unmapped : lastCall va calls = none → kernelVaIsPhysZero va = false →
    (bootGetPgtableMapPa m root va = -1 ∨ bootGetPgtableMapPa m root va = 0) ∧
      mmInitPgtableGetPa (directMem m) root va = -1 ∧ mmPgtableGetVaPte (directMem m) root va = -1

/-- The walkers agree on an address in every table that the calls build from a zero root,
when no allocation fails. -/
def WalkersAgree (calls : List MapCall) (va : Word) : Prop :=
  ∀ (m : Mem) (total start root : Word), PageAligned start → PageAligned root →
    (∀ i, view 0 m root i = 0) →
    let r := mapCalls bootPgtableMap m (BootMm.start total start) root calls
    0 ∉ r.2.returned → root ∉ r.2.returned → AgreeAt calls r.1 root va

/-- The paths of the inner entries that the calls use. -/
def usedPaths (calls : List MapCall) : List (List (BitVec 9)) :=
  calls.flatMap fun c => innerPaths c.va

/-- The path of word `j` of the two pages of the first two tables below a root entry, where
`va₀` is the address that came first through the entry. -/
def wordPath (va va₀ : Word) (j : Nat) : List (BitVec 9) :=
  if j < 512 then [BitVec.ofNat 9 j, indexOf PGD_OFFSET va]
  else [BitVec.ofNat 9 (j - 512), indexOf PUD_OFFSET va₀, indexOf PGD_OFFSET va]

/-- The first one of the two words that a read of the PUD entry meets, when the table is
taken to be at `p | attr`. -/
def wordOf (attr va : Word) : Nat := attr.toNat / 8 + (indexOf PUD_OFFSET va).toNat

/-- The two words that the read meets are not in use. -/
def ReadsUnused (calls : List MapCall) (va : Word) : Prop :=
  match firstCall PGD_OFFSET va calls with
  | none => True
  | some c => ∀ j ∈ [wordOf c.attr va, wordOf c.attr va + 1], wordPath va c.va j ∉ usedPaths calls

/-- An address of which nothing is required. -/
def Exempt (calls : List MapCall) (va : Word) : Prop :=
  match lastCall va calls with
  | none => kernelVaIsPhysZero va = true
  | some c => c.pa = 0

/-- An address that is not mapped, or mapped to the page that `-1` is in. -/
def LooksUnmapped (calls : List MapCall) (va : Word) : Prop :=
  match lastCall va calls with
  | none => True
  | some c => c.pa = -1 &&& PAGE_MASK

instance (calls : List MapCall) (va : Word) : Decidable (ReadsUnused calls va) :=
  match h : firstCall PGD_OFFSET va calls with
  | none => isTrue (by rw [ReadsUnused, h]; trivial)
  | some c =>
      have : Decidable (∀ j ∈ [wordOf c.attr va, wordOf c.attr va + 1],
          wordPath va c.va j ∉ usedPaths calls) := inferInstance
      decidable_of_iff _ (by rw [ReadsUnused, h])

instance (calls : List MapCall) (va : Word) : Decidable (Exempt calls va) :=
  match h : lastCall va calls with
  | none => decidable_of_iff (kernelVaIsPhysZero va = true) (by rw [Exempt, h])
  | some c => decidable_of_iff (c.pa = 0) (by rw [Exempt, h])

instance (calls : List MapCall) (va : Word) : Decidable (LooksUnmapped calls va) :=
  match h : lastCall va calls with
  | none => isTrue (by rw [LooksUnmapped, h]; trivial)
  | some c => decidable_of_iff (c.pa = -1 &&& PAGE_MASK) (by rw [LooksUnmapped, h])

/-! ### Between two entries -/

section Entries

variable {p attr : Word}

/-- The attributes of an entry as a number: less than a page, and odd because the present bit is
one of them. -/
theorem attr_toNat (hlow : attr &&& PAGE_MASK = 0) (hP : attr &&& PAGE_ATTR_P = PAGE_ATTR_P) :
    attr.toNat < 4096 ∧ attr.toNat % 2 = 1 := by
  constructor
  · have hmask := toNat_and_mask attr
    rw [hlow] at hmask
    have hzero : (0 : Word).toNat = 0 := rfl
    omega
  · have hbit := congrArg BitVec.toNat hP
    have hone : PAGE_ATTR_P.toNat = 1 := rfl
    rw [BitVec.toNat_and, hone, Nat.and_one_is_mod] at hbit
    exact hbit

/-- An entry is its page plus its attributes, as the two have no bit in common. -/
theorem or_attr_eq (hp : PageAligned p) (hlow : attr &&& PAGE_MASK = 0) : p ||| attr = p + attr := by
  have hdisjoint : p &&& attr = 0 := by
    calc p &&& attr = p &&& PAGE_MASK &&& attr := by rw [hp]
      _ = p &&& (attr &&& PAGE_MASK) := by rw [BitVec.and_assoc, BitVec.and_comm PAGE_MASK]
      _ = 0 := by rw [hlow]; exact BitVec.and_zero
  exact (BitVec.add_eq_or_of_and_eq_zero _ _ hdisjoint).symm

/-- The same as a number, without wrapping around, because the attributes stay below the
next page. -/
theorem or_attr_toNat (hp : PageAligned p) (hlow : attr &&& PAGE_MASK = 0) :
    (p ||| attr).toNat = p.toNat + attr.toNat := by
  have hmod := hp.toNat_mod
  have hmask := toNat_and_mask attr
  rw [hlow] at hmask
  have hzero : (0 : Word).toNat = 0 := rfl
  rw [or_attr_eq hp hlow, BitVec.toNat_add]
  omega

/-- Entry `j` of a table is its word `j`. -/
theorem entryAddr_ofNat {j : Nat} (hj : j < 512) :
    entryAddr 0 p ((BitVec.ofNat 9 j).setWidth 64) = p + BitVec.ofNat 64 (8 * j) := by
  unfold entryAddr
  bv_omega

/-- Where the PUD entry of an address is read, when the table is taken to be at `p | attr`. -/
theorem entryAddr_between {va : Word} (hp : PageAligned p) (hlow : attr &&& PAGE_MASK = 0) :
    entryAddr 0 (p ||| attr) (pudEntry va) =
      p + BitVec.ofNat 64 (8 * wordOf attr va) + BitVec.ofNat 64 (attr.toNat % 8) := by
  have hi := (indexOf PUD_OFFSET va).isLt
  rw [or_attr_eq hp hlow, pudEntry_eq, entryAddr, wordOf]
  bv_omega

/-- Three indices are those of an address, so that every path of two or three inner entries is one
that a call can go through. -/
theorem exists_va (g k l : BitVec 9) :
    ∃ va, indexOf PGD_OFFSET va = g ∧ indexOf PUD_OFFSET va = k ∧ indexOf PMD_OFFSET va = l := by
  refine ⟨(g ++ k ++ l ++ 0#21).setWidth 64, ?_, ?_, ?_⟩
  · apply BitVec.eq_of_getLsbD_eq
    intro i hi
    have hlast : ¬ 39 + i < 21 ∧ ¬ 39 + i - 21 < 9 ∧ ¬ 39 + i - 21 - 9 < 9 ∧
        39 + i - 21 - 9 - 9 = i := by omega
    have hwidth : 39 + i < 64 := by omega
    simp only [indexOf, PGD_OFFSET, BitVec.getLsbD_extractLsb', BitVec.getLsbD_setWidth,
      BitVec.getLsbD_append]
    simp [hlast, hwidth, hi]
  · apply BitVec.eq_of_getLsbD_eq
    intro i hi
    have hmiddle : ¬ 30 + i < 21 ∧ ¬ 30 + i - 21 < 9 ∧ 30 + i - 21 - 9 < 9 ∧
        30 + i - 21 - 9 = i := by omega
    have hwidth : 30 + i < 64 := by omega
    simp only [indexOf, PUD_OFFSET, BitVec.getLsbD_extractLsb', BitVec.getLsbD_setWidth,
      BitVec.getLsbD_append]
    simp [hmiddle, hwidth, hi]
  · apply BitVec.eq_of_getLsbD_eq
    intro i hi
    have hwidth : 21 + i < 64 := by omega
    simp only [indexOf, PMD_OFFSET, BitVec.getLsbD_extractLsb', BitVec.getLsbD_setWidth,
      BitVec.getLsbD_append]
    simp [hwidth, hi]

end Entries

/-! ### The words of the first two tables -/

section Words

variable {m : Mem} {root : Word} {calls : List MapCall} {log : List Word}
  {T : List (BitVec 9) → Option Word} {va p : Word} {c : MapCall} {j : Nat}

/-- A word of the first two tables is an entry of the tree: words up to 511 lie in the first table,
and the others in the table behind it. -/
theorem Neighbours.word (hnext : Neighbours calls T) (hc : firstCall PGD_OFFSET va calls = some c)
    (hp : T [indexOf PGD_OFFSET va] = some p) (hj : j < 1024) :
    m.read64 (p + BitVec.ofNat 64 (8 * j)) = entries 0 m T (wordPath va c.va j) := by
  obtain ⟨p', hp', hpmd⟩ := hnext va c hc
  obtain rfl : p' = p := Option.some.inj (hp'.symm.trans hp)
  unfold wordPath
  by_cases hlow : j < 512
  · rw [if_pos hlow, entries_some hp, view, entryAddr_ofNat hlow]
  · have hplace : p' + BitVec.ofNat 64 (8 * j) = p' + PAGE_SIZE + BitVec.ofNat 64 (8 * (j - 512)) := by
      have hsize : PAGE_SIZE = 4096 := rfl
      rw [hsize]
      bv_omega
    rw [if_neg hlow, entries_some hpmd, view, entryAddr_ofNat (by omega), hplace]

/-- The path of a word is that of an inner entry, of the second or the third level, so that runs
say what it is. -/
theorem wordPath_inner (va va₀ : Word) (j : Nat) : ∃ va', wordPath va va₀ j ∈ innerPaths va' := by
  unfold wordPath
  by_cases hlow : j < 512
  · obtain ⟨va', hg, hk, -⟩ := exists_va (indexOf PGD_OFFSET va) (BitVec.ofNat 9 j) 0
    refine ⟨va', ?_⟩
    rw [if_pos hlow]
    simp [innerPaths, hg, hk]
  · obtain ⟨va', hg, hk, hl⟩ := exists_va (indexOf PGD_OFFSET va) (indexOf PUD_OFFSET va₀)
      (BitVec.ofNat 9 (j - 512))
    refine ⟨va', ?_⟩
    rw [if_neg hlow]
    simp [innerPaths, hg, hk, hl]

/-- What an inner entry is: 0, or the page of a table with attributes. -/
def IsEntry (table : Word → Prop) (e : Word) : Prop :=
  e = 0 ∨ ∃ q attr, table q ∧ PageAligned q ∧ attr &&& PAGE_MASK = 0 ∧
    attr &&& PAGE_ATTR_P = PAGE_ATTR_P ∧ e = q ||| attr

/-- The inner entries of a run are zero, or refer to a table of the tree with attributes beside it,
which is the root or a page that was allocated. -/
theorem MapRun.isEntry (hrun : MapRun 0 (· = root) root calls log m T)
    (htagged : ∀ c ∈ calls, c.Tagged) {π : List (BitVec 9)} (hπ : π ∈ innerPaths va) :
    IsEntry (fun q => q = root ∨ q ∈ log) (entries 0 m T π) := by
  obtain ⟨k, hpos, hk, rfl⟩ := mem_innerPaths.mp hπ
  have hentry := hrun.history.inner va k hpos hk
  cases hc : firstCall (48 - 9 * k) va calls with
  | none =>
      rw [hc] at hentry
      exact Or.inl hentry
  | some c =>
      rw [hc] at hentry
      obtain ⟨q, hq, he⟩ := hentry
      have hcall := htagged c (List.mem_of_find?_eq_some hc)
      refine Or.inr ⟨q, c.attr, ?_, hq, hcall.low, hcall.present, he⟩
      -- The entry refers to a table of the tree.
      obtain ⟨k, rfl⟩ : ∃ k', k = k' + 1 := ⟨k - 1, by omega⟩
      cases hp : T (upperPath va k) with
      | none =>
          rw [upperPath, entries_none hp] at he
          exact absurd he.symm (or_attr_ne_zero hcall.present)
      | some p =>
          have hlink := hrun.tables.laid.link _ p (indexOf (39 - 9 * k) va) hp
            (by rw [upperPath_length]; omega) fun _ _ => trivial
          rw [upperPath, entries_some hp] at he
          rw [he, tableChild, if_neg (or_attr_ne_zero hcall.present), hq.or_and hcall.low] at hlink
          exact hrun.tables.used _ q hlink.symm

/-- Where the walk of the booting stage starts: at an entry that the first call made. -/
theorem MapRun.rootEntry (hrun : MapRun 0 (· = root) root calls log m T)
    (htagged : ∀ c ∈ calls, c.Tagged) (hc : firstCall PGD_OFFSET va calls = some c) :
    ∃ p, T [indexOf PGD_OFFSET va] = some p ∧ PageAligned p ∧
      m.read64 (entryAddr 0 root (pgdEntry va)) = p ||| c.attr := by
  have hcall := htagged c (List.mem_of_find?_eq_some hc)
  have hentry := hrun.history.inner va 1 (by decide) (by decide)
  rw [show 48 - 9 * 1 = PGD_OFFSET from rfl, hc] at hentry
  obtain ⟨p, hp, he⟩ := hentry
  rw [upperPath, upperPath, entries_some hrun.rooted] at he
  have hlink := hrun.tables.laid.link [] root (indexOf PGD_OFFSET va) hrun.rooted (by decide)
    fun _ _ => trivial
  rw [show indexOf (39 - 9 * 0) va = indexOf PGD_OFFSET va from rfl] at he
  rw [he, tableChild, if_neg (or_attr_ne_zero hcall.present), hp.or_and hcall.low] at hlink
  refine ⟨p, hlink.symm, hp, ?_⟩
  rw [pgdEntry_eq]
  exact he

/-- What the walk reads next lies on two words of the first two tables. -/
theorem MapRun.readBetween (hrun : MapRun 0 (· = root) root calls log m T)
    (htagged : ∀ c ∈ calls, c.Tagged) (hnext : Neighbours calls T)
    (hc : firstCall PGD_OFFSET va calls = some c) :
    let s := c.attr.toNat % 8
    ∃ e x y, (m.read64 (entryAddr 0 root (pgdEntry va)) = e ∧ e ≠ 0) ∧
      (IsEntry (fun q => q = root ∨ q ∈ log) x ∧ IsEntry (fun q => q = root ∨ q ∈ log) y) ∧
      (x ≠ 0 ↔ wordPath va c.va (wordOf c.attr va) ∈ usedPaths calls) ∧
      (y ≠ 0 ↔ wordPath va c.va (wordOf c.attr va + 1) ∈ usedPaths calls) ∧
      (m.read64 (entryAddr 0 e (pudEntry va))).toNat =
        x.toNat / 2 ^ (8 * s) + y.toNat % 2 ^ (8 * s) * 2 ^ (64 - 8 * s) := by
  intro s
  have hcall := htagged c (List.mem_of_find?_eq_some hc)
  obtain ⟨p, hp, haligned, hroot⟩ := hrun.rootEntry htagged hc
  have hlt := (attr_toNat hcall.low hcall.present).1
  have hindex := (indexOf PUD_OFFSET va).isLt
  have hw : wordOf c.attr va < 1023 := by
    unfold wordOf
    omega
  -- Both words are inner entries of the tree.
  have hword : ∀ j < 1024, IsEntry (fun q => q = root ∨ q ∈ log) (m.read64 (p + BitVec.ofNat 64 (8 * j))) ∧
      (m.read64 (p + BitVec.ofNat 64 (8 * j)) ≠ 0 ↔ wordPath va c.va j ∈ usedPaths calls) := by
    intro j hj
    obtain ⟨va', hin⟩ := wordPath_inner va c.va j
    have hused : InUse (fun _ => True) (usedPaths calls) (entries 0 m T) := hrun.history.inUse htagged
    rw [hnext.word hc hp hj]
    exact ⟨hrun.isEntry htagged hin, hused va' trivial _ hin⟩
  obtain ⟨hx, hxused⟩ := hword (wordOf c.attr va) (by omega)
  obtain ⟨hy, hyused⟩ := hword (wordOf c.attr va + 1) (by omega)
  refine ⟨p ||| c.attr, _, _, ⟨hroot, or_attr_ne_zero hcall.present⟩, ⟨hx, hy⟩, hxused, hyused, ?_⟩
  have hplace : p + BitVec.ofNat 64 (8 * wordOf c.attr va) + 8
      = p + BitVec.ofNat 64 (8 * (wordOf c.attr va + 1)) := by bv_omega
  rw [entryAddr_between haligned hcall.low, read64_unaligned_toNat (by omega), hplace]

/-- Between two words that are not in use, the walk ends: the address of the table that it takes
without masking off the attributes is a few bytes too high, so that its read meets two words, and
when neither is in use it reads zero. -/
theorem MapRun.bootGet_clear (hrun : MapRun 0 (· = root) root calls log m T)
    (htagged : ∀ c ∈ calls, c.Tagged) (hnext : Neighbours calls T) (h : ReadsUnused calls va) :
    bootGetPgtableMapPa m root va = -1 := by
  unfold ReadsUnused at h
  cases hc : firstCall PGD_OFFSET va calls with
  | none =>
      have hentry := hrun.history.inner va 1 (by decide) (by decide)
      rw [show 48 - 9 * 1 = PGD_OFFSET from rfl, hc, upperPath, upperPath,
        entries_some hrun.rooted] at hentry
      rw [bootGetPgtableMapPa, pgdEntry_eq]
      exact if_pos hentry
  | some c =>
      rw [hc] at h
      obtain ⟨hfirst, hsecond⟩ : wordPath va c.va (wordOf c.attr va) ∉ usedPaths calls ∧
          wordPath va c.va (wordOf c.attr va + 1) ∉ usedPaths calls := by simpa using h
      obtain ⟨e, x, y, ⟨hroot, hne⟩, -, hx, hy, hread⟩ := hrun.readBetween htagged hnext hc
      obtain rfl : x = 0 := not_not.mp (mt hx.mp hfirst)
      obtain rfl : y = 0 := not_not.mp (mt hy.mp hsecond)
      have hzero : m.read64 (entryAddr 0 e (pudEntry va)) = 0 := by
        apply BitVec.eq_of_toNat_eq
        rw [hread]
        simp
      rw [bootGetPgtableMapPa, hroot, if_neg hne]
      exact if_pos hzero

end Words

/-! ### High up in memory -/

/-- The address is not where the tables of a run high up in memory are. -/
def Far (a : Word) : Prop := a.toNat / 2 ^ 40 ≠ 0xa00000

/-- A value between two entries that refer to tables up there is not such an entry itself:
the byte that tells them is in another place. -/
theorem between_far {x y d s : Nat} (hs : s < 8) (hodd : s % 2 = 1) (hd : d < 4096)
    (hx : x = 0 ∨ ∃ r < 2 ^ 39 + 2 ^ 33, r % 2 = 1 ∧ x = 160 * 2 ^ 56 + r)
    (hy : y = 0 ∨ ∃ r < 2 ^ 39 + 2 ^ 33, r % 2 = 1 ∧ y = 160 * 2 ^ 56 + r) (hne : x ≠ 0 ∨ y ≠ 0) :
    x / 2 ^ (8 * s) + y % 2 ^ (8 * s) * 2 ^ (64 - 8 * s) ≠ 0 ∧
      (x / 2 ^ (8 * s) + y % 2 ^ (8 * s) * 2 ^ (64 - 8 * s) + d) % 2 ^ 64 / 2 ^ 40 ≠ 0xa00000 := by
  -- The value has the upper bytes of one word, and over them the lower ones of the next.
  obtain rfl | rfl | rfl | rfl : s = 1 ∨ s = 3 ∨ s = 5 ∨ s = 7 := by omega
  · -- The byte on top is the lowest one of the second word, which is odd.
    simp only [show 8 * 1 = 8 from rfl, show 64 - 8 = 56 from rfl]
    rcases hx with rfl | ⟨r, hr, hrodd, rfl⟩ <;> rcases hy with rfl | ⟨t, ht, htodd, rfl⟩
    · omega
    · omega
    · omega
    · omega
  · -- The three bytes on top are the lowest ones of the second word.
    simp only [show 8 * 3 = 24 from rfl, show 64 - 24 = 40 from rfl]
    rcases hx with rfl | ⟨r, hr, hrodd, rfl⟩ <;> rcases hy with rfl | ⟨t, ht, htodd, rfl⟩
    · omega
    · omega
    · omega
    · omega
  · -- The byte on top is the fifth one of the second word, at most `0x80`.
    simp only [show 8 * 5 = 40 from rfl, show 64 - 40 = 24 from rfl]
    rcases hx with rfl | ⟨r, hr, hrodd, rfl⟩ <;> rcases hy with rfl | ⟨t, ht, htodd, rfl⟩
    · omega
    · omega
    · omega
    · omega
  · -- The byte on top is the seventh one of the second word, which is 0.
    simp only [show 8 * 7 = 56 from rfl, show 64 - 56 = 8 from rfl]
    rcases hx with rfl | ⟨r, hr, hrodd, rfl⟩ <;> rcases hy with rfl | ⟨t, ht, htodd, rfl⟩
    · omega
    · omega
    · omega
    · omega

section High

variable {calls : List MapCall} {fill : BitVec 8} {va v q a e : Word}

/-- An address that is not where the tables of such a run lie is outside of each of their pages. -/
theorem Far.le_sub (h : Far a) (hq : High q) : 4096 ≤ (a - q).toNat := by
  obtain ⟨r, hr, hq⟩ := hq
  have ha := a.isLt
  unfold Far at h
  rw [BitVec.toNat_sub, hq]
  omega

/-- So a write there changes none of the tables, and clearing a table does not change what is
there. -/
theorem Far.offPage (h : Far a) (hq : High q) : OffPage 0 q a := by
  have hwindow : q + 0 = q := BitVec.add_zero q
  rw [OffPage, hwindow]
  exact h.le_sub hq

/-- An entry that refers to a table up there. -/
theorem IsEntry.high (h : IsEntry High e) :
    e.toNat = 0 ∨ ∃ r < 2 ^ 39 + 2 ^ 33, r % 2 = 1 ∧ e.toNat = 160 * 2 ^ 56 + r := by
  cases h with
  | inl hzero => exact Or.inl (congrArg BitVec.toNat hzero)
  | inr hentry =>
      obtain ⟨q, attr, ⟨r, hr, hnat⟩, hq, hlow, hP, rfl⟩ := hentry
      obtain ⟨hlt, hodd⟩ := attr_toNat hlow hP
      have hmod := hq.toNat_mod
      rw [or_attr_toNat hq hlow, hnat]
      exact Or.inr ⟨r + attr.toNat, by omega, by omega, by omega⟩

/-- A run leaves the memory far from its tables as it was. -/
theorem highRun_frame (htagged : ∀ c ∈ calls, c.Tagged) (ha : Far a) :
    (mapCalls bootPgtableMap (highMem fill) highStart highRoot calls).1 a = fill := by
  obtain ⟨hfresh, -, hhigh⟩ := highRun fill htagged
  have hnil : MapRun 0 (· = highRoot) highRoot [] highStart.returned (highMem fill) _ :=
    mapRun_nil highRoot_aligned highMem_zero (Or.inl rfl)
  have hframe := mapCalls_frame bootMmAlloc_returned calls (fun c hc => ⟨htagged c hc, trivial⟩)
    hnil.tables hnil.rooted hfresh (a := a) fun x hx => ha.offPage (hx.elim (· ▸ highRoot_high) (hhigh x))
  exact hframe.trans (if_neg (Nat.not_lt.mpr (ha.le_sub highRoot_high)))

/-- So a table that is far from them is full of the old bytes. -/
theorem highRun_read (fill : BitVec 8) (htagged : ∀ c ∈ calls, c.Tagged)
    (hfar : ∀ d < 4096, Far (v + BitVec.ofNat 64 d)) (i : BitVec 9) :
    (mapCalls bootPgtableMap (highMem fill) highStart highRoot calls).1.read64
      (entryAddr 0 v (i.setWidth 64)) = ofBytes fun _ => fill := by
  refine read64_fill fun k hk => highRun_frame htagged ?_
  have hi := i.isLt
  have hplace : entryAddr 0 v (i.setWidth 64) + BitVec.ofNat 64 k
      = v + BitVec.ofNat 64 (8 * i.toNat + k) := by
    unfold entryAddr
    bv_omega
  rw [hplace]
  exact hfar _ (by omega)

/-- When a word in use is read, the walk goes on far from the tables. -/
theorem highRun_between (fill : BitVec 8) (htagged : ∀ c ∈ calls, c.Tagged) (h : ¬ ReadsUnused calls va) :
    let m := (mapCalls bootPgtableMap (highMem fill) highStart highRoot calls).1
    ∃ e v, (m.read64 (entryAddr 0 highRoot (pgdEntry va)) = e ∧ e ≠ 0) ∧
      (m.read64 (entryAddr 0 e (pudEntry va)) = v ∧ v ≠ 0) ∧
      ∀ d < 4096, Far (v + BitVec.ofNat 64 d) := by
  intro m
  obtain ⟨hfresh, hok, hhigh⟩ := highRun fill htagged
  obtain ⟨T, hrun, hnext⟩ := bootRun highRoot_aligned highMem_zero htagged hfresh hok
  unfold ReadsUnused at h
  cases hc : firstCall PGD_OFFSET va calls with
  | none =>
      rw [hc] at h
      exact absurd trivial h
  | some c =>
      rw [hc] at h
      obtain ⟨e, x, y, hroot, ⟨hx, hy⟩, hxused, hyused, hread⟩ := hrun.readBetween htagged hnext hc
      have hcall := htagged c (List.mem_of_find?_eq_some hc)
      obtain ⟨-, hodd⟩ := attr_toNat hcall.low hcall.present
      -- The tables all lie high, so that the words between their entries point far from them.
      have hentry : ∀ {e}, IsEntry (fun q => q = highRoot ∨ q ∈ _) e → IsEntry High e :=
        fun he => he.imp_right fun ⟨q, attr, hq, hrest⟩ =>
          ⟨q, attr, hq.elim (· ▸ highRoot_high) (hhigh q), hrest⟩
      -- One of the two entries that are read across is in use.
      have hused : x.toNat ≠ 0 ∨ y.toNat ≠ 0 := by
        by_contra hnone
        push Not at hnone
        refine h fun j hj => ?_
        rcases List.mem_pair.mp hj with rfl | rfl
        · exact mt hxused.mpr (not_not.mpr (BitVec.eq_of_toNat_eq hnone.1))
        · exact mt hyused.mpr (not_not.mpr (BitVec.eq_of_toNat_eq hnone.2))
      have hfar := fun d (hd : d < 4096) =>
        between_far (Nat.mod_lt c.attr.toNat (show 8 > 0 by decide)) (by omega) hd
          (hentry hx).high (hentry hy).high hused
      refine ⟨e, _, hroot, ⟨rfl, fun hzero => ?_⟩, fun d hd => ?_⟩
      · have hnat := congrArg BitVec.toNat hzero
        rw [hread] at hnat
        exact (hfar 0 (by decide)).1 hnat
      · have hsmall : d % 2 ^ 64 = d := Nat.mod_eq_of_lt (by omega)
        rw [Far, BitVec.toNat_add, BitVec.toNat_ofNat, hsmall, hread]
        exact (hfar d hd).2

/-- The walk of the booting stage behind two entries. -/
theorem bootGet_eq {m : Mem} {root : Word} (hroot : m.read64 (entryAddr 0 root (pgdEntry va)) = e)
    (he : e ≠ 0) (hread : m.read64 (entryAddr 0 e (pudEntry va)) = v) (hv : v ≠ 0) :
    bootGetPgtableMapPa m root va =
      if m.read64 (entryAddr 0 v (pmdEntry va)) = 0 then -1
      else m.read64 (entryAddr 0 (m.read64 (entryAddr 0 v (pmdEntry va))) (pteEntry va)) := by
  simp only [bootGetPgtableMapPa, hroot, if_neg he, hread, if_neg hv]

/-- Then the result is up to what is in memory there: with the tables high up, two memories that
differ far away from all of them give two different results for the same calls. -/
theorem highRun_bootGet (htagged : ∀ c ∈ calls, c.Tagged) (h : ¬ ReadsUnused calls va) :
    bootGetPgtableMapPa (mapCalls bootPgtableMap (highMem 0) highStart highRoot calls).1 highRoot va
        = -1 ∧
      bootGetPgtableMapPa (mapCalls bootPgtableMap (highMem 1) highStart highRoot calls).1 highRoot va
        = 0x0101010101010101 := by
  constructor
  · obtain ⟨e, v, ⟨hroot, he⟩, ⟨hread, hv⟩, hfar⟩ := highRun_between 0 htagged h
    have hnone := highRun_read 0 htagged hfar (indexOf PMD_OFFSET va)
    rw [← pmdEntry_eq, ofBytes_zero] at hnone
    rw [bootGet_eq hroot he hread hv]
    exact if_pos hnone
  · obtain ⟨e, v, ⟨hroot, he⟩, ⟨hread, hv⟩, hfar⟩ := highRun_between 1 htagged h
    have hones : (ofBytes fun _ => 1) = 0x0101010101010101 := by decide
    have hfirst := highRun_read 1 htagged hfar (indexOf PMD_OFFSET va)
    have hfar' : ∀ d < 4096, Far (0x0101010101010101 + BitVec.ofNat 64 d) := by
      intro d hd
      rw [Far, BitVec.toNat_add, BitVec.toNat_ofNat]
      have hnat : (0x0101010101010101 : Word).toNat = 0x0101010101010101 := rfl
      omega
    have hsecond := highRun_read 1 htagged hfar' (indexOf PTE_OFFSET va)
    rw [← pmdEntry_eq, hones] at hfirst
    rw [← pteEntry_eq, hones] at hsecond
    rw [bootGet_eq hroot he hread hv, hfirst, if_neg (by decide)]
    exact hsecond

end High

/-! ### When the walkers agree -/

section Agree

variable {calls : List MapCall} {va : Word}

/-- The lookups of the kernel are right in every table that the calls build. -/
theorem kernelWalkers_agree {m : Mem} {root : Word} {log : List Word}
    {T : List (BitVec 9) → Option Word} (hrun : MapRun 0 (· = root) root calls log m T)
    (hvalid : ∀ c ∈ calls, c.Valid) :
    IsMap calls (pgtableWalk 0 m root) (mmInitPgtableGetPa (directMem m) root) ∧
      IsMap calls (pgtableWalk 0 m root) (mmPgtableGetVaPte (directMem m) root) := by
  have hmap := hrun.isMap hvalid
  have hlookup : pgtableGetPa KERNEL_DIRECT_MAPPING_AREA (directMem m) root = pgtableGetPa 0 m root :=
    funext fun _ => pgtableGetPa_directMem
  rw [← hlookup] at hmap
  exact ⟨hmap, hmap⟩

/-- A run of the booting stage that succeeds has fresh pages. -/
theorem bootRun_fresh {m : Mem} {total start root : Word} (hstart : PageAligned start)
    (hok : 0 ∉ (mapCalls bootPgtableMap m (BootMm.start total start) root calls).2.returned)
    (hroot : root ∉ (mapCalls bootPgtableMap m (BootMm.start total start) root calls).2.returned) :
    Fresh (· = root) (mapCalls bootPgtableMap m (BootMm.start total start) root calls).2.returned := by
  obtain ⟨n, -, hn⟩ := bootPgtableMap_allocs m (BootMm.start total start) root calls
  rw [hn] at hok hroot ⊢
  obtain ⟨limit, -, -, -, hrisen⟩ := ((bumped_start total hstart).allocs n).risen hok
  refine ⟨hrisen.nodup, hrisen.aligned, ?_⟩
  rintro q hq rfl
  exact hroot hq

/-- What the walk of the booting stage may give when the walkers agree. -/
def RightResult (calls : List MapCall) (va result : Word) : Prop :=
  match lastCall va calls with
  | none => result = -1 ∨ result = 0
  | some c => result &&& PAGE_MASK = c.pa

/-- Where the walkers agree and the address is not exempt, the unmasked walk of the booting stage
gives the right result. -/
theorem AgreeAt.right {m : Mem} {root : Word} (h : AgreeAt calls m root va) (hreq : ¬ Exempt calls va) :
    RightResult calls va (bootGetPgtableMapPa m root va) := by
  unfold Exempt at hreq
  unfold RightResult
  cases hlast : lastCall va calls with
  | none =>
      rw [hlast] at hreq
      exact (h.unmapped hlast (Bool.eq_false_iff.mpr hreq)).1
  | some c =>
      rw [hlast] at hreq
      exact (h.mapped c hlast hreq).1

/-- The result `-1` is right when the address looks unmapped. -/
theorem rightResult_missing : RightResult calls va (-1) ↔ LooksUnmapped calls va := by
  unfold RightResult LooksUnmapped
  cases lastCall va calls with
  | none => exact iff_of_true (Or.inl rfl) trivial
  | some c => exact eq_comm

/-- The two results of runs high up in memory are not both right. -/
theorem not_rightResult_high (h : RightResult calls va (-1))
    (h' : RightResult calls va 0x0101010101010101) : False := by
  unfold RightResult at h h'
  cases hlast : lastCall va calls with
  | none =>
      rw [hlast] at h'
      exact absurd h' (by decide)
  | some c =>
      rw [hlast] at h h'
      exact absurd (h.trans h'.symm) (by decide)

/-- The walkers agree on an address when nothing is required of it, or when the walk of the
booting stage reads two words that are not in use and `-1` is right, and in no other case. -/
theorem walkersAgree_iff (calls : List MapCall) (hvalid : ∀ c ∈ calls, c.Valid) (va : Word) :
    WalkersAgree calls va ↔
      Exempt calls va ∨ (ReadsUnused calls va ∧ LooksUnmapped calls va) := by
  have htagged : ∀ c ∈ calls, c.Tagged := fun c hc => (hvalid c hc).toTagged
  constructor
  · intro h
    by_cases hreq : Exempt calls va
    · exact Or.inl hreq
    · -- Both fillings of the memory give runs that the walkers have to agree on.
      have hhigh : ∀ fill, RightResult calls va (bootGetPgtableMapPa
          (mapCalls bootPgtableMap (highMem fill) highStart highRoot calls).1 highRoot va) := by
        intro fill
        obtain ⟨hfresh, hok, -⟩ := highRun fill htagged
        have hagree := h (highMem fill) (-1) (highRoot + PAGE_SIZE) highRoot (by decide)
          highRoot_aligned highMem_zero hok fun hroot => hfresh.new _ hroot rfl
        exact hagree.right hreq
      by_cases hused : ReadsUnused calls va
      · obtain ⟨hfresh, hok, -⟩ := highRun 0 htagged
        obtain ⟨T, hrun, hnext⟩ := bootRun highRoot_aligned highMem_zero htagged hfresh hok
        have hright := hhigh 0
        rw [hrun.bootGet_clear htagged hnext hused] at hright
        exact Or.inr ⟨hused, rightResult_missing.mp hright⟩
      · -- The walk reads a word of a page that holds no table, and the fillings differ there.
        obtain ⟨hzeros, hones⟩ := highRun_bootGet htagged hused
        exact (not_rightResult_high (hzeros ▸ hhigh 0) (hones ▸ hhigh 1)).elim
  · intro h m total start root hstart hroot hzero r hok hnew
    obtain ⟨T, hrun, hnext⟩ := bootRun hroot hzero htagged (bootRun_fresh hstart hok hnew) hok
    obtain ⟨hinit, hkern⟩ := kernelWalkers_agree hrun hvalid
    -- The other two walkers are always right, so only this one matters.
    have hboot : ¬ Exempt calls va → RightResult calls va (bootGetPgtableMapPa r.1 root va) := by
      intro hreq
      obtain ⟨hused, hmissing⟩ := h.resolve_left hreq
      rw [hrun.bootGet_clear htagged hnext hused]
      exact rightResult_missing.mpr hmissing
    refine ⟨fun c hlast hpa => ⟨?_, hinit.found va c hlast hpa, hkern.found va c hlast hpa⟩,
      fun hlast hva => ⟨?_, hinit.missing va hlast hva, hkern.missing va hlast hva⟩⟩
    · have hright := hboot (by rw [Exempt, hlast]; exact hpa)
      rw [RightResult, hlast] at hright
      exact hright
    · have hright := hboot (by rw [Exempt, hlast]; exact Bool.eq_false_iff.mp hva)
      rw [RightResult, hlast] at hright
      exact hright

/-- With one page of the kernel image mapped, the walkers agree on an address with another
PUD entry, but not on the page. -/
theorem walkersAgree_iff_kernelPage :
    let calls : List MapCall := [⟨0xffffffff81000000, 0x100000, 3⟩]
    (∀ c ∈ calls, c.Valid) ∧ WalkersAgree calls 0xffffff8140000000 ∧
      ¬ WalkersAgree calls 0xffffffff81000000 := by
  intro calls
  have hvalid : ∀ c ∈ calls, c.Valid := by decide
  refine ⟨hvalid, ?_, ?_⟩
  · rw [walkersAgree_iff calls hvalid]
    exact Or.inr (by decide)
  · rw [walkersAgree_iff calls hvalid]
    decide

/-- An entry that refers to a table in the first 16 MB is a small number itself, since the
attributes are in its low bits. -/
theorem IsEntry.low {table : Word → Prop} {e : Word} (h : IsEntry table e)
    (htable : ∀ q, table q → q.toNat < 2 ^ 24) : e.toNat < 2 ^ 24 := by
  cases h with
  | inl hzero =>
      rw [hzero]
      decide
  | inr hentry =>
      obtain ⟨q, attr, hq, haligned, hlow, hP, rfl⟩ := hentry
      have hlt := (attr_toNat hlow hP).1
      have hmod := haligned.toNat_mod
      have hsmall := htable q hq
      rw [or_attr_toNat haligned hlow]
      omega

/-- With the attributes P and RW and all tables in the first 16 MB, the upper bytes of the
first word are 0. When the second word is not in use, the walk finds nothing. -/
theorem MapRun.bootGet_low {m : Mem} {root : Word} {log : List Word}
    {T : List (BitVec 9) → Option Word} {c : MapCall} (hrun : MapRun 0 (· = root) root calls log m T)
    (htagged : ∀ c ∈ calls, c.Tagged) (hnext : Neighbours calls T)
    (hc : firstCall PGD_OFFSET va calls = some c) (hattr : c.attr.toNat % 8 = 3)
    (hlow : ∀ q ∈ root :: log, q.toNat < 2 ^ 24)
    (hunused : wordPath va c.va (wordOf c.attr va + 1) ∉ usedPaths calls) :
    bootGetPgtableMapPa m root va = -1 := by
  obtain ⟨e, x, y, ⟨hroot, he⟩, ⟨hx, -⟩, -, hyused, hread⟩ := hrun.readBetween htagged hnext hc
  have hxlow := hx.low fun q hq => hlow q (List.mem_cons.mpr hq)
  obtain rfl : y = 0 := not_not.mp (mt hyused.mp hunused)
  have hempty : m.read64 (entryAddr 0 e (pudEntry va)) = 0 := by
    apply BitVec.eq_of_toNat_eq
    rw [hread, hattr, Nat.div_eq_of_lt hxlow]
    simp
  rw [bootGetPgtableMapPa, hroot, if_neg he]
  exact if_pos hempty

/-- The pages of three allocations from 2 MB on. -/
theorem bootAllocs_three {n : Nat} (hn : n ≤ 3) :
    (bootAllocs n (BootMm.start 0x2000000 0x201000)).returned ⊆ [0x203000, 0x202000, 0x201000] := by
  have hall : (bootAllocs 3 (BootMm.start 0x2000000 0x201000)).returned =
      [0x203000, 0x202000, 0x201000] := by decide
  obtain ⟨k, hk⟩ : ∃ k, 3 = k + n := ⟨3 - n, by omega⟩
  rw [← hall, hk, bootAllocs, bootAllocs, Function.iterate_add_apply]
  exact (log_iterate bootMmAlloc_returned k _).subset

/-- Zero memory has a zero page everywhere. -/
theorem view_zeroMem (root : Word) (i : BitVec 9) : view 0 (fun _ => 0) root i = 0 := by
  rw [view, read64_fill fun _ _ => rfl, ofBytes_zero]

/-- One page mapped in zero memory, with a root at 2 MB and the tables behind it. -/
theorem bootGet_onePage {c : MapCall} (hc : c.Tagged) (hattr : c.attr.toNat % 8 = 3)
    (hunused : wordPath c.va c.va (wordOf c.attr c.va + 1) ∉ usedPaths [c]) {r : Mem × BootMm}
    (hr : mapCalls bootPgtableMap (fun _ => 0) (BootMm.start 0x2000000 0x201000) 0x200000 [c] = r) :
    (0 ∉ r.2.returned ∧ 0x200000 ∉ r.2.returned) ∧
      bootGetPgtableMapPa r.1 0x200000 c.va = -1 := by
  have htagged : ∀ c' ∈ [c], c'.Tagged := List.forall_mem_singleton.mpr hc
  have hpages : r.2.returned ⊆ [0x203000, 0x202000, 0x201000] := by
    obtain ⟨n, hn, hstate⟩ := bootPgtableMap_allocs (fun _ => 0) (BootMm.start 0x2000000 0x201000)
      0x200000 [c]
    rw [← hr, hstate]
    exact bootAllocs_three hn
  have hok : 0 ∉ r.2.returned := fun hz => absurd (hpages hz) (by simp)
  have hnew : 0x200000 ∉ r.2.returned := fun hz => absurd (hpages hz) (by simp)
  subst hr
  obtain ⟨T, hrun, hnext⟩ := bootRun (by decide) (view_zeroMem _) htagged
    (bootRun_fresh (by decide) hok hnew) hok
  have hfirst : firstCall PGD_OFFSET c.va [c] = some c := by
    rw [firstCall, List.find?_cons_of_pos]
    exact decide_eq_true rfl
  refine ⟨⟨hok, hnew⟩, hrun.bootGet_low htagged hnext hfirst hattr (fun q hq => ?_) hunused⟩
  have hlist := List.cons_subset_cons 0x200000 hpages hq
  simp only [List.mem_cons, List.not_mem_nil, or_false] at hlist
  rcases hlist with rfl | rfl | rfl | rfl <;> simp

/-- So the walkers do not agree on it: the walk of the booting stage finds nothing where the page
has been mapped. -/
theorem not_agree_onePage {c : MapCall} (hc : c.Valid) (hattr : c.attr.toNat % 8 = 3)
    (hunused : wordPath c.va c.va (wordOf c.attr c.va + 1) ∉ usedPaths [c]) (hpa : c.pa ≠ 0)
    (hlast : c.pa ≠ -1 &&& PAGE_MASK) : ¬ WalkersAgree [c] c.va := by
  intro hagree
  obtain ⟨⟨hok, hnew⟩, hmissing⟩ := bootGet_onePage hc.toTagged hattr hunused rfl
  have hmapped : lastCall c.va [c] = some c := by
    rw [lastCall, List.reverse_singleton, List.find?_cons_of_pos]
    exact decide_eq_true rfl
  have hresult := hagree (fun _ => 0) 0x2000000 0x201000 0x200000 (by decide) (by decide)
    (view_zeroMem _) hok hnew
  have hright := (hresult.mapped c hmapped hpa).1
  rw [hmissing] at hright
  exact hlast hright.symm

/-- With one page of the kernel image mapped, the walk of the booting stage reads zero bytes
behind the address of the second table, and does not find the page. -/
theorem not_walkersAgree_kernelPage :
    let va : Word := 0xffffffff81000000
    let r := mapCalls bootPgtableMap (fun _ => 0) (BootMm.start 0x2000000 0x201000) 0x200000
      [⟨va, 0x100000, 3⟩]
    (0 ∉ r.2.returned ∧ 0x200000 ∉ r.2.returned) ∧ bootGetPgtableMapPa r.1 0x200000 va = -1 ∧
      ¬ ∀ calls : List MapCall, (∀ c ∈ calls, c.Valid) → ∀ va, WalkersAgree calls va := by
  intro va r
  have hvalid : MapCall.Valid ⟨va, 0x100000, 3⟩ := by decide
  have hunused : wordPath va va (wordOf 3 va + 1) ∉ usedPaths [⟨va, 0x100000, 3⟩] := by decide
  obtain ⟨hreturned, hmissing⟩ := bootGet_onePage hvalid.toTagged rfl hunused (r := r) rfl
  refine ⟨hreturned, hmissing, fun hall => ?_⟩
  exact not_agree_onePage hvalid rfl hunused (by decide) (by decide)
    (hall _ (List.forall_mem_singleton.mpr hvalid) va)

end Agree

end SumiOS
