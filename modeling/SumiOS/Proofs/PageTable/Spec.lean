import SumiOS.PageTable
import SumiOS.Lib.Trie

/-!
# `SumiOS.Proofs.PageTable.Spec`: page tables as trees

`view` reads memory as a store of tables with 512 entries, one for each index of
nine bits. Page-aligned tables do not meet, so a write of an entry changes the
view at one place, and clearing a page empties one table. These are the only
facts about addresses; everything after `view_write` and `view_memset` is about
the store.

`ensureTable` and `pgtableMap` are then edits of the tree of
`SumiOS.Lib.Trie`. `Tables` is their invariant. `pgtableMap_spec` says what a call
does to the entries: the empty inner entries on the path of the address get a
new table, the leaf gets its value, and nothing else changes.
-/

set_option autoImplicit false

namespace SumiOS

open Lib

/-! ### Indices and addresses -/

/-- The address of a page. -/
def PageAligned (p : Word) : Prop := p &&& PAGE_MASK = p

instance (p : Word) : Decidable (PageAligned p) := inferInstanceAs (Decidable (_ = _))

/-- The nine bits of an address that index the tables of one level. -/
def indexOf (offset : Nat) (va : Word) : BitVec 9 := va.extractLsb' offset 9

/-- The indices of an address, the one of the last level first. -/
def pathOf (va : Word) : List (BitVec 9) :=
  [indexOf PTE_OFFSET va, indexOf PMD_OFFSET va, indexOf PUD_OFFSET va, indexOf PGD_OFFSET va]

/-- The nine-bit index that the macros of the source cut out of a virtual address is `indexOf`,
widened to the word the table entry is addressed with. -/
theorem ptEntry_eq (offset : Nat) (va : Word) :
    ptEntry offset va = (indexOf offset va).setWidth 64 := by
  apply BitVec.eq_of_toNat_eq
  have hmask : PT_ENTRY_MASK.toNat = 2 ^ 9 - 1 := rfl
  have hlt : va.toNat >>> offset % 2 ^ 9 < 2 ^ 64 := by omega
  simp only [ptEntry, indexOf, BitVec.toNat_and, BitVec.toNat_ushiftRight, hmask,
    BitVec.toNat_setWidth, BitVec.extractLsb'_toNat, Nat.and_two_pow_sub_one_eq_mod]
  exact (Nat.mod_eq_of_lt hlt).symm

/-- A page-aligned word is a multiple of 4096 as a number, the form in which `omega` can use the
alignment. -/
theorem PageAligned.toNat_mod {p : Word} (h : PageAligned p) : p.toNat % 4096 = 0 := by
  have hlow : p &&& 0xfff = 0 := by
    have hmask : PAGE_MASK &&& 0xfff = 0 := by decide
    calc p &&& 0xfff = p &&& PAGE_MASK &&& 0xfff := by rw [h]
      _ = p &&& 0 := by rw [BitVec.and_assoc, hmask]
      _ = 0 := BitVec.and_zero
  have hnat := congrArg BitVec.toNat hlow
  rw [BitVec.toNat_and] at hnat
  have hmod : p.toNat &&& 0xfff = p.toNat % 2 ^ 12 := Nat.and_two_pow_sub_one_eq_mod p.toNat 12
  exact hmod.symm.trans hnat

/-- Page alignment in numbers: the low twelve bits of the word are clear exactly when its value is
a multiple of 4096. -/
theorem pageAligned_iff {p : Word} : PageAligned p ↔ p.toNat % 4096 = 0 := by
  refine ⟨PageAligned.toNat_mod, fun h => ?_⟩
  have hlow : p &&& 0xfff = 0 := by
    apply BitVec.eq_of_toNat_eq
    have hmod : p.toNat &&& 0xfff = p.toNat % 2 ^ 12 := Nat.and_two_pow_sub_one_eq_mod p.toNat 12
    rw [BitVec.toNat_and]
    exact hmod.trans h
  have hsplit : (0xfff : Word) ||| PAGE_MASK = -1 := by decide
  calc p &&& PAGE_MASK = (p &&& 0xfff) ||| (p &&& PAGE_MASK) := by rw [hlow]; exact BitVec.zero_or.symm
    _ = p &&& (0xfff ||| PAGE_MASK) := BitVec.and_or_distrib_left.symm
    _ = p := by rw [hsplit]; exact BitVec.and_allOnes

/-- Masking with `PAGE_MASK`, as the walks do with every entry they follow, leaves a page-aligned
address whatever attributes the entry carried. -/
theorem pageAligned_and (x : Word) : PageAligned (x &&& PAGE_MASK) := by
  unfold PageAligned
  rw [BitVec.and_assoc, BitVec.and_self]

/-- The page that an address lies in, as a number: masking takes away what the address is beyond a
multiple of 4096. -/
theorem toNat_and_mask (x : Word) : (x &&& PAGE_MASK).toNat = x.toNat - x.toNat % 4096 := by
  have hmod := (pageAligned_and x).toNat_mod
  have hle : (x &&& PAGE_MASK).toNat ≤ x.toNat := by
    rw [BitVec.toNat_and]
    exact Nat.and_le_left
  have hlow : (x &&& 0xfff).toNat = x.toNat % 4096 := by
    rw [BitVec.toNat_and]
    exact Nat.and_two_pow_sub_one_eq_mod x.toNat 12
  -- The two parts of the address have no bit in common, so their sum is the address.
  have hsplit : (x &&& PAGE_MASK) + (x &&& 0xfff) = x := by
    have hdisjoint : (x &&& PAGE_MASK) &&& (x &&& 0xfff) = 0 := by
      have hmask : PAGE_MASK &&& 0xfff = 0 := by decide
      calc (x &&& PAGE_MASK) &&& (x &&& 0xfff) = x &&& x &&& (PAGE_MASK &&& 0xfff) := by ac_rfl
        _ = 0 := by rw [hmask]; exact BitVec.and_zero
    have hall : PAGE_MASK ||| 0xfff = -1 := by decide
    rw [BitVec.add_eq_or_of_and_eq_zero _ _ hdisjoint, ← BitVec.and_or_distrib_left, hall]
    exact BitVec.and_allOnes
  have hsum := congrArg BitVec.toNat hsplit
  rw [BitVec.toNat_add, hlow] at hsum
  omega

/-- An entry gives back the page it was made from. -/
theorem PageAligned.or_and {p attr : Word} (hp : PageAligned p) (ha : attr &&& PAGE_MASK = 0) :
    (p ||| attr) &&& PAGE_MASK = p := by
  have hdist : (p ||| attr) &&& PAGE_MASK = (p &&& PAGE_MASK) ||| (attr &&& PAGE_MASK) := by
    rw [BitVec.and_comm, BitVec.and_or_distrib_left, BitVec.and_comm PAGE_MASK p,
      BitVec.and_comm PAGE_MASK attr]
  rw [hdist, hp, ha]
  exact BitVec.or_zero

/-- An attribute with the bit P makes an entry nonzero. -/
theorem or_attr_ne_zero {p attr : Word} (ha : attr &&& PAGE_ATTR_P = PAGE_ATTR_P) :
    p ||| attr ≠ 0 := by
  intro h
  have hattr : attr = 0 := (BitVec.or_eq_zero_iff.mp h).2
  rw [hattr] at ha
  exact absurd ha (by decide)

/-- Different entries of page-aligned tables do not meet: in one table they are 8 bytes apart, and
in two tables in different pages. -/
theorem entry_sep {window p p' : Word} {i i' : BitVec 9} (hp : PageAligned p)
    (hp' : PageAligned p') (hne : (p', i') ≠ (p, i)) :
    SepBytes (entryAddr window p (i.setWidth 64)) 8 (entryAddr window p' (i'.setWidth 64)) 8 := by
  have h1 := hp.toNat_mod
  have h2 := hp'.toNat_mod
  have hi := i.isLt
  have hi' := i'.isLt
  have hdiff : p.toNat ≠ p'.toNat ∨ i.toNat ≠ i'.toNat := by
    by_contra hall
    push Not at hall
    exact hne (Prod.ext (BitVec.eq_of_toNat_eq hall.1.symm) (BitVec.eq_of_toNat_eq hall.2.symm))
  unfold SepBytes entryAddr
  constructor <;> bv_omega

/-- A page does not meet the entries of another one. -/
theorem page_sep {window p q : Word} {i : BitVec 9} (hp : PageAligned p) (hq : PageAligned q)
    (hne : p ≠ q) : SepBytes (q + window) 4096 (entryAddr window p (i.setWidth 64)) 8 := by
  have h1 := hp.toNat_mod
  have h2 := hq.toNat_mod
  have hi := i.isLt
  have hdiff : p.toNat ≠ q.toNat := fun h => hne (BitVec.eq_of_toNat_eq h)
  unfold SepBytes entryAddr
  constructor <;> bv_omega

/-! ### Pages in a row -/

/-- The address of page `i` behind `x`. -/
def pageAfter (x : Word) (i : Nat) : Word := x + BitVec.ofNat 64 (4096 * i)

/-- The number of pages from one address to another. -/
def pagesTo (a b : Word) : Nat := (b.toNat - a.toNat) / 4096

/-- The pages from `x` on that fit into so many bytes. -/
def areaPages (x : Word) (room : Nat) : List Word := (List.range (room / 4096)).map (pageAfter x)

section Pages

variable {x a b : Word}

/-- The page at distance zero is the page itself, the start of every induction over an area. -/
@[simp]
theorem pageAfter_zero : pageAfter x 0 = x := BitVec.add_zero x

/-- Stepping once and then `i` pages further is stepping `i + 1` pages, which is how the mapping
loops advance. -/
theorem pageAfter_succ (i : Nat) : pageAfter (x + PAGE_SIZE) i = pageAfter x (i + 1) := by
  unfold pageAfter
  rw [Nat.mul_add, Nat.add_comm, BitVec.ofNat_add, ← BitVec.add_assoc]
  rfl

/-- As long as the area does not wrap around the address space, the `i`-th page lies `4096 * i`
bytes behind the first. -/
theorem pageAfter_toNat {i : Nat} (h : x.toNat + 4096 * i < 2 ^ 64) :
    (pageAfter x i).toNat = x.toNat + 4096 * i := by
  unfold pageAfter
  rw [BitVec.toNat_add, BitVec.toNat_ofNat]
  omega

/-- Every page of an area that begins on a page boundary begins on one as well. -/
theorem PageAligned.pageAfter (h : PageAligned x) (i : Nat) : PageAligned (pageAfter x i) := by
  rw [pageAligned_iff, SumiOS.pageAfter, BitVec.toNat_add, BitVec.toNat_ofNat]
  have := h.toNat_mod
  omega

/-- An area between two page boundaries is covered by its whole pages: counting them off from `a`
ends exactly at `b`. -/
theorem pageAfter_pagesTo (ha : PageAligned a) (hb : PageAligned b) (h : a ≤ b) :
    pageAfter a (pagesTo a b) = b := by
  have hle := BitVec.le_def.mp h
  have hma := ha.toNat_mod
  have hmb := hb.toNat_mod
  have hlt := b.isLt
  have hdiv : 4096 * pagesTo a b = b.toNat - a.toNat := by
    unfold pagesTo
    omega
  apply BitVec.eq_of_toNat_eq
  rw [pageAfter_toNat (by omega), hdiv]
  omega

/-- A remainder of less than a page yields no page, the case in which the linear allocator leaves
an area. -/
theorem areaPages_nil {room : Nat} (h : room < 4096) : areaPages x room = [] := by
  rw [areaPages, Nat.div_eq_of_lt h]
  rfl

/-- With room for at least a page, the first page of an area is handed out and the rest of the area
begins one page later. -/
theorem areaPages_cons {room : Nat} (h : 4096 ≤ room) :
    areaPages x room = x :: areaPages (x + PAGE_SIZE) (room - 4096) := by
  have hcount : room / 4096 = (room - 4096) / 4096 + 1 := by omega
  rw [areaPages, areaPages, hcount, List.range_succ_eq_map, List.map_cons, List.map_map, pageAfter_zero]
  refine congrArg (x :: ·) (List.map_congr_left fun i _ => ?_)
  exact (pageAfter_succ i).symm

/-- The pages of an area lie in it as a whole, the last one included. -/
theorem mem_areaPages {room : Nat} {p : Word} (hfit : x.toNat + room < 2 ^ 64)
    (hp : p ∈ areaPages x room) : x.toNat ≤ p.toNat ∧ p.toNat + 4096 ≤ x.toNat + room := by
  obtain ⟨i, hi, rfl⟩ := List.mem_map.mp hp
  have hlt := List.mem_range.mp hi
  rw [pageAfter_toNat (by omega)]
  omega

/-- The pages in front of the last one are below the end. -/
theorem pageAfter_lt (h : a ≤ b) {i : Nat} (hi : i < pagesTo a b) :
    pageAfter a i < b := by
  have hle := BitVec.le_def.mp h
  have hlt := b.isLt
  unfold pagesTo at hi
  rw [BitVec.lt_def, pageAfter_toNat (by omega)]
  omega

end Pages

/-! ### Memory as a store of tables -/

/-- The table an entry refers to. -/
def tableChild (e : Word) : Option Word := if e = 0 then none else some (e &&& PAGE_MASK)

/-- The entries of all tables. -/
def view (window : Word) (m : Mem) (p : Word) (i : BitVec 9) : Word :=
  m.read64 (entryAddr window p (i.setWidth 64))

section View

variable {window p p' q v : Word} {i i' : BitVec 9} {m : Mem}

/-- An empty entry leads to no table, so the tree ends there. -/
theorem tableChild_zero : tableChild 0 = none := rfl

/-- Reading an entry back after the write of the same entry of the same table yields what was
written. -/
theorem view_write_self : view window (m.write64 (entryAddr window p (i.setWidth 64)) v) p i = v :=
  read64_write64_self

/-- Frame rule of an entry write: every other entry of every page-aligned table is untouched,
because two different entries never share a byte. -/
theorem view_write (hp : PageAligned p) (hp' : PageAligned p') (hne : (p', i') ≠ (p, i)) :
    view window (m.write64 (entryAddr window p (i.setWidth 64)) v) p' i' = view window m p' i' :=
  read64_write64_of_sep (entry_sep hp hp' hne)

/-- A page cleared by `memset` reads as an empty table, whichever entry is looked at. -/
theorem view_memset_self :
    view window (m.memset (q + window) 0 PAGE_SIZE.toNat) q i = 0 := by
  have hi := i.isLt
  have hsize : PAGE_SIZE.toNat = 4096 := rfl
  rw [hsize]
  refine read64_memset_zero (by decide) ?_
  unfold entryAddr
  bv_omega

/-- Frame rule of `memset`: clearing one page leaves the entries of every other page-aligned table
as they were. -/
theorem view_memset (hp : PageAligned p) (hq : PageAligned q) (hne : p ≠ q) :
    view window (m.memset (q + window) 0 PAGE_SIZE.toNat) p i = view window m p i :=
  read64_memset_of_sep (by decide) (by decide) (page_sep hp hq hne)

end View

/-! ### One level -/

/-- The tables below a root, and the pages they use: old ones from `base`, and
pages that were allocated (`log`). -/
structure Tables (window : Word) (top : BitVec 9 → Prop) (base : Word → Prop) (log : List Word)
    (m : Mem) (T : List (BitVec 9) → Option Word) : Prop where
  laid : Laid tableChild 4 top (view window m) T
  aligned : ∀ π p, T π = some p → PageAligned p
  used : ∀ π p, T π = some p → base p ∨ p ∈ log

/-- The pages that were allocated are page-aligned, different from each other
and not among the old ones. -/
structure Fresh (base : Word → Prop) (log : List Word) : Prop where
  nodup : log.Nodup
  aligned : ∀ q ∈ log, PageAligned q
  new : ∀ q ∈ log, ¬ base q

/-- Freshness of a log passes to every earlier log, so that it need only be assumed of the log at
the end of the calls. -/
theorem Fresh.suffix {base : Word → Prop} {log log' : List Word} (h : Fresh base log')
    (hs : log <:+ log') : Fresh base log :=
  ⟨h.nodup.sublist hs.sublist, fun q hq => h.aligned q (hs.subset hq),
    fun q hq => h.new q (hs.subset hq)⟩

/-- The results of an allocator that only moves up: different pages from `first`
on, all of them below `limit`. -/
structure Risen (first limit : Nat) (log : List Word) : Prop where
  nodup : log.Nodup
  aligned : ∀ q ∈ log, PageAligned q
  between : ∀ q ∈ log, first ≤ q.toNat ∧ q.toNat < limit

/-- The empty log has risen within any bounds, the base of the induction over the allocations. -/
theorem risen_nil (first limit : Nat) : Risen first limit [] :=
  ⟨List.nodup_nil, fun _ hq => absurd hq List.not_mem_nil, fun _ hq => absurd hq List.not_mem_nil⟩

/-- The next result is the page at the limit, which moves up behind it, so that it is different
from all results before it. -/
theorem Risen.push {first limit limit' : Nat} {log : List Word} {q : Word}
    (h : Risen first limit log) (hq : PageAligned q) (hfirst : first ≤ q.toNat)
    (hle : limit ≤ q.toNat) (hlt : q.toNat < limit') : Risen first limit' (q :: log) where
  nodup := by
    refine List.nodup_cons.mpr ⟨fun hmem => ?_, h.nodup⟩
    have hbelow := (h.between q hmem).2
    omega
  aligned := List.forall_mem_cons.mpr ⟨hq, h.aligned⟩
  between := by
    refine List.forall_mem_cons.mpr ⟨⟨hfirst, hlt⟩, fun r hr => ?_⟩
    have hold := h.between r hr
    omega

/-- Such results are fresh when the old pages are in front of the first one. -/
theorem Risen.fresh {first limit : Nat} {log : List Word} {base : Word → Prop}
    (h : Risen first limit log) (hbase : ∀ q, base q → q.toNat < first) : Fresh base log where
  nodup := h.nodup
  aligned := h.aligned
  new q hq hb := by
    have hfirst := (h.between q hq).1
    have hbelow := hbase q hb
    omega

/-- The entries of the tree, by paths. -/
def entries (window : Word) (m : Mem) (T : List (BitVec 9) → Option Word) :
    List (BitVec 9) → Word :=
  entryAt 0 (view window m) T

/-- Writing an entry of the root hides what is below it. -/
theorem Tables.hide {window : Word} {top : BitVec 9 → Prop} {base : Word → Prop} {log : List Word}
    {m : Mem} {T : List (BitVec 9) → Option Word} {root : Word}
    (h : Tables window top base log m T) (hroot : T [] = some root) (i : BitVec 9) (v : Word) :
    let m' := m.write64 (entryAddr window root (i.setWidth 64)) v
    Tables window (fun j => top j ∧ j ≠ i) base log m' T ∧
      ∀ π, π ≠ [i] → entries window m' T π = entries window m T π := by
  obtain ⟨hlaid, hent⟩ := h.laid.hide hroot fun π p j hp hne =>
    view_write (v := v) (h.aligned _ _ hroot) (h.aligned π p hp) hne
  exact ⟨⟨hlaid, h.aligned, h.used⟩, hent⟩

section Level

variable {σ : Type} {window : Word} {alloc : σ → σ × Word} {logOf : σ → List Word}
  {top : BitVec 9 → Prop} {base : Word → Prop} {m : Mem} {s : σ}
  {T : List (BitVec 9) → Option Word} {π : List (BitVec 9)} {p attr : Word} {i : BitVec 9}

/-- The entry at a path is read from the table that the path without its last index leads to. -/
theorem entries_some (hp : T π = some p) :
    entries window m T (i :: π) = view window m p i := entryAt_some hp

/-- Where no table hangs at a path, every entry below it reads as empty. -/
theorem entries_none (hp : T π = none) : entries window m T (i :: π) = 0 := entryAt_none hp

/-- A level whose entry is in use is left alone. -/
theorem ensureTable_used (h : view window m p i ≠ 0) :
    ensureTable window alloc m s p (i.setWidth 64) attr = (m, s) := if_neg h

/-- A level whose entry is empty gets a new table. -/
theorem ensureTable_empty (h : view window m p i = 0) :
    ensureTable window alloc m s p (i.setWidth 64) attr =
      let e := entryAddr window p (i.setWidth 64)
      let q := (alloc s).2
      let m := m.write64 e q
      let m := m.memset (m.read64 e + window) 0 PAGE_SIZE.toNat
      (m.write64 e (m.read64 e ||| attr), (alloc s).1) := if_pos h

/-- The store after a new table was linked: its entry is in the parent, the table itself is empty,
and every other entry is kept. -/
theorem view_ensureTable (window attr : Word) {q : Word} (h : view window m p i = 0) (hq : (alloc s).2 = q)
    (hp : PageAligned p) (hqa : PageAligned q) (hne : p ≠ q) :
    let m' := (ensureTable window alloc m s p (i.setWidth 64) attr).1
    view window m' p i = q ||| attr ∧ (∀ j, view window m' q j = 0) ∧
      ∀ p' j, PageAligned p' → p' ≠ q → (p', j) ≠ (p, i) →
        view window m' p' j = view window m p' j := by
  rw [ensureTable_empty h, hq]
  have hread : ∀ m : Mem, (m.write64 (entryAddr window p (i.setWidth 64)) q).read64
      (entryAddr window p (i.setWidth 64)) = q := fun m => read64_write64_self
  -- The entry keeps the address of the new page while that page is cleared.
  have hkeep : ((m.write64 (entryAddr window p (i.setWidth 64)) q).memset (q + window) 0
      PAGE_SIZE.toNat).read64 (entryAddr window p (i.setWidth 64)) = q :=
    (view_memset (i := i) hp hqa hne).trans view_write_self
  simp only [hread, hkeep]
  refine ⟨view_write_self, fun j => ?_, fun p' j hp' hne' hpath => ?_⟩
  · rw [view_write hp hqa fun he => hne (Prod.mk.inj he).1.symm]
    exact view_memset_self
  · rw [view_write hp hp' hpath, view_memset hp' hqa hne', view_write hp hp' hpath]

/-- A level allocates at most one page, when its entry is empty. -/
theorem ensureTable_allocs (window : Word) (alloc : σ → σ × Word) (m : Mem) (s : σ)
    (p i attr : Word) :
    ∃ n ≤ 1, (ensureTable window alloc m s p i attr).2 = (fun s => (alloc s).1)^[n] s := by
  by_cases hz : m.read64 (entryAddr window p i) = 0
  · refine ⟨1, Nat.le_refl 1, ?_⟩
    rw [ensureTable, if_pos hz]
    rfl
  · refine ⟨0, Nat.zero_le 1, ?_⟩
    rw [ensureTable, if_neg hz]
    rfl

/-- The log of an allocator grows at its front. -/
theorem log_iterate (hlog : ∀ s, logOf (alloc s).1 = (alloc s).2 :: logOf s) (n : Nat) (s : σ) :
    logOf s <:+ logOf ((fun s => (alloc s).1)^[n] s) := by
  induction n with
  | zero => exact List.suffix_refl _
  | succ n ih =>
      rw [Function.iterate_succ_apply', hlog]
      exact ih.trans (List.suffix_cons _ _)

/-- Making sure of a table only ever adds to the log of handed-out pages. -/
theorem ensureTable_log (hlog : ∀ s, logOf (alloc s).1 = (alloc s).2 :: logOf s) {p i attr : Word}
    {r : Mem × σ} (hr : ensureTable window alloc m s p i attr = r) :
    logOf s <:+ logOf r.2 := by
  obtain ⟨n, -, hn⟩ := ensureTable_allocs window alloc m s p i attr
  rw [← hr, hn]
  exact log_iterate hlog n s

/-- When the entry is empty, exactly one page is taken from the allocator, and it is the one
recorded at the head of the log. -/
theorem ensureTable_newLog (hlog : ∀ s, logOf (alloc s).1 = (alloc s).2 :: logOf s)
    (hz : view window m p i = 0) {r : Mem × σ}
    (hr : ensureTable window alloc m s p (i.setWidth 64) attr = r) :
    logOf r.2 = (alloc s).2 :: logOf s := by
  rw [← hr, ensureTable_empty hz, ← hlog]

/-- Behind an empty entry the walk comes to the new table, which is empty. -/
theorem nextTable_new {q : Word} (hattr : attr &&& PAGE_MASK = 0) (hz : view window m p i = 0)
    (hq : (alloc s).2 = q) (hp : PageAligned p) (hqa : PageAligned q) (hne : p ≠ q) :
    let m' := (ensureTable window alloc m s p (i.setWidth 64) attr).1
    nextTable window m' p (i.setWidth 64) = q ∧ ∀ j, view window m' q j = 0 := by
  intro m'
  obtain ⟨hwrite, hempty, -⟩ := view_ensureTable window attr hz hq hp hqa hne
  have hnext : view window m' p i &&& PAGE_MASK = q := by rw [hwrite, hqa.or_and hattr]
  exact ⟨hnext, hempty⟩

/-- A fresh page is none of the tables, as each of them is an old one or one of the log. -/
theorem Tables.ne_new {log : List Word} {q : Word} (hT : Tables window top base log m T)
    (hfresh : Fresh base (q :: log)) (π : List (BitVec 9)) : T π ≠ some q := by
  intro he
  cases hT.used π q he with
  | inl hb => exact hfresh.new q List.mem_cons_self hb
  | inr hm => exact (List.nodup_cons.mp hfresh.nodup).1 hm

/-- The tree after an empty entry got a new table: the page was not a table before and has been
cleared, so it hangs at one place and all its entries are empty. -/
theorem Tables.grow {log : List Word} {q : Word} (hT : Tables window top base log m T)
    (hattr : attr &&& PAGE_MASK = 0) (hP : attr &&& PAGE_ATTR_P = PAGE_ATTR_P)
    (hp : T π = some p) (hlen : π.length + 1 < 4) (hnone : T (i :: π) = none)
    (hz : view window m p i = 0) (hq : (alloc s).2 = q) (hfresh : Fresh base (q :: log)) :
    let m' := (ensureTable window alloc m s p (i.setWidth 64) attr).1
    let T' := Function.update T (i :: π) (some q)
    Tables window top base (q :: log) m' T' ∧
      entries window m' T' = Function.update (entries window m T) (i :: π) (q ||| attr) := by
  have hqa := hfresh.aligned q List.mem_cons_self
  have hnew := hT.ne_new hfresh
  have hne : p ≠ q := fun he => hnew π (he ▸ hp)
  obtain ⟨hwrite, hempty, hkeep⟩ := view_ensureTable window attr hz hq (hT.aligned π p hp) hqa hne
  -- The new page is none of the tables so far, so all their other entries stay.
  have hother : ∀ π' p' j, T π' = some p' → (p', j) ≠ (p, i) → _ := fun π' p' j hp' hpath =>
    hkeep p' j (hT.aligned π' p' hp') (fun he => hnew π' (he ▸ hp')) hpath
  have hchild : tableChild (q ||| attr) = some q := by
    rw [tableChild, if_neg (or_attr_ne_zero hP), hqa.or_and hattr]
  refine ⟨⟨hT.laid.grow_laid hp hnone hwrite hempty hother tableChild_zero hlen hnew hchild,
    fun π' p' hp' => ?_, fun π' p' hp' => ?_⟩, hT.laid.grow_entryAt hp hnone hwrite hempty hother⟩
  · by_cases he : π' = i :: π
    · rw [he, Function.update_self, Option.some.injEq] at hp'
      exact hp' ▸ hqa
    · rw [Function.update_of_ne he] at hp'
      exact hT.aligned π' p' hp'
  · by_cases he : π' = i :: π
    · rw [he, Function.update_self, Option.some.injEq] at hp'
      exact Or.inr (hp' ▸ List.mem_cons_self)
    · rw [Function.update_of_ne he] at hp'
      exact (hT.used π' p' hp').imp_right (List.mem_cons_of_mem _)

/-- One level: afterwards there is a table below the entry. It is the old one, or
a new one behind an entry with the attributes of this call. -/
theorem ensureTable_spec (hlog : ∀ s, logOf (alloc s).1 = (alloc s).2 :: logOf s)
    (hattr : attr &&& PAGE_MASK = 0) (hP : attr &&& PAGE_ATTR_P = PAGE_ATTR_P)
    (hT : Tables window top base (logOf s) m T)
    (hp : T π = some p) (hlen : π.length + 1 < 4) (hu : Under top (i :: π)) {r : Mem × σ}
    (hr : ensureTable window alloc m s p (i.setWidth 64) attr = r)
    (hfresh : Fresh base (logOf r.2)) :
    ∃ T', Tables window top base (logOf r.2) r.1 T' ∧
      (∀ π' p', T π' = some p' → T' π' = some p') ∧
      T' (i :: π) = some (nextTable window r.1 p (i.setWidth 64)) ∧
      entries window r.1 T' = Function.update (entries window m T) (i :: π)
        (if entries window m T (i :: π) = 0 then nextTable window r.1 p (i.setWidth 64) ||| attr
          else entries window m T (i :: π)) := by
  have hentry : entries window m T (i :: π) = view window m p i := entries_some hp
  have hlink := hT.laid.link π p i hp hlen hu
  by_cases hz : view window m p i = 0
  · -- The new page is none of the tables.
    rw [tableChild, if_pos hz] at hlink
    rw [ensureTable_newLog hlog hz hr] at hfresh ⊢
    have hqa := hfresh.aligned _ List.mem_cons_self
    have hne : p ≠ (alloc s).2 := fun he => hT.ne_new hfresh π (he ▸ hp)
    obtain ⟨hnext, -⟩ := nextTable_new hattr hz rfl (hT.aligned π p hp) hqa hne
    obtain ⟨hT', hent⟩ := hT.grow hattr hP hp hlen hlink.symm hz rfl hfresh
    rw [hr] at hnext hT' hent
    refine ⟨_, hT', fun π' p' => update_keeps hlink.symm, ?_, ?_⟩
    · rw [Function.update_self, hnext]
    · rw [hentry, if_pos hz, hnext]
      exact hent
  · -- The entry is in use, and nothing changes.
    rw [tableChild, if_neg hz] at hlink
    rw [ensureTable_used hz] at hr
    subst hr
    refine ⟨T, hT, fun _ _ h => h, hlink.symm, ?_⟩
    rw [hentry, if_neg hz, ← hentry, Function.update_eq_self]

end Level

/-! ### A whole call -/

/-- The paths of the three inner entries that the walk of an address reads. -/
def innerPaths (va : Word) : List (List (BitVec 9)) :=
  [[indexOf PGD_OFFSET va],
    [indexOf PUD_OFFSET va, indexOf PGD_OFFSET va],
    [indexOf PMD_OFFSET va, indexOf PUD_OFFSET va, indexOf PGD_OFFSET va]]

/-- What a call does to the entries. Empty inner entries of the walk get a
table, with the attributes of the call. The leaf gets its value. Nothing else
changes. -/
structure Effect (va pa attr : Word) (A A' : List (BitVec 9) → Word) : Prop where
  leaf : A' (pathOf va) = pa ||| attr
  link : ∀ π ∈ innerPaths va, A π = 0 → ∃ q, PageAligned q ∧ A' π = q ||| attr
  keep : ∀ π, π ≠ pathOf va → ¬ (π ∈ innerPaths va ∧ A π = 0) → A' π = A π

/-- The entries after one level. -/
def linkEntry (q attr : Word) (π : List (BitVec 9)) (A : List (BitVec 9) → Word) :
    List (BitVec 9) → Word :=
  Function.update A π (if A π = 0 then q ||| attr else A π)

section Call

variable {va pa attr q : Word} {π π' : List (BitVec 9)} {A : List (BitVec 9) → Word}

/-- Linking a table at one path changes the abstract entry of no other path. -/
theorem linkEntry_other (h : π' ≠ π) : linkEntry q attr π A π' = A π' :=
  Function.update_of_ne h _ _

/-- At its own path, linking fills an empty entry with the new table and its attributes and keeps
an entry that is already there. -/
theorem linkEntry_self : linkEntry q attr π A π = if A π = 0 then q ||| attr else A π :=
  Function.update_self ..

/-- Three levels and the leaf, put together: each level fills its entry if that is empty, and the
leaf entry gets the page and the attributes, so that all other entries keep their values. -/
theorem effect_of_links (va pa attr : Word) (A : List (BitVec 9) → Word) {q₁ q₂ q₃ : Word}
    {p₁ p₂ p₃ : List (BitVec 9)}
    (hpaths : innerPaths va = [p₁, p₂, p₃])
    (h₁ : PageAligned q₁) (h₂ : PageAligned q₂) (h₃ : PageAligned q₃) :
    Effect va pa attr A
      (Function.update (linkEntry q₃ attr p₃ (linkEntry q₂ attr p₂ (linkEntry q₁ attr p₁ A)))
        (pathOf va) (pa ||| attr)) := by
  -- The paths have different lengths.
  simp only [innerPaths, List.cons.injEq, and_true] at hpaths
  obtain ⟨rfl, rfl, rfl⟩ := hpaths
  have hne : ∀ {π π' : List (BitVec 9)}, π.length ≠ π'.length → π ≠ π' := fun h e =>
    h (congrArg List.length e)
  refine ⟨Function.update_self .., fun π hπ hzero => ?_, fun π hleaf hkeep => ?_⟩
  · simp only [innerPaths, List.mem_cons, List.not_mem_nil, or_false] at hπ
    rcases hπ with rfl | rfl | rfl
    · refine ⟨q₁, h₁, ?_⟩
      rw [Function.update_of_ne (hne (by simp [pathOf])), linkEntry_other (hne (by simp)),
        linkEntry_other (hne (by simp)), linkEntry_self, if_pos hzero]
    · refine ⟨q₂, h₂, ?_⟩
      rw [Function.update_of_ne (hne (by simp [pathOf])), linkEntry_other (hne (by simp)),
        linkEntry_self, linkEntry_other (hne (by simp)), if_pos hzero]
    · refine ⟨q₃, h₃, ?_⟩
      rw [Function.update_of_ne (hne (by simp [pathOf])), linkEntry_self,
        linkEntry_other (hne (by simp)), linkEntry_other (hne (by simp)), if_pos hzero]
  · have hstay : ∀ q' p' A', (p' ∈ innerPaths va) → A' π = A π →
        linkEntry q' attr p' A' π = A π := by
      intro q' p' A' hp' hA
      by_cases e : π = p'
      · subst e
        rw [linkEntry_self, hA, if_neg fun hz => hkeep ⟨hp', hz⟩]
      · rw [linkEntry_other e, hA]
    rw [Function.update_of_ne hleaf]
    exact hstay _ _ _ (by simp [innerPaths]) (hstay _ _ _ (by simp [innerPaths])
      (hstay _ _ _ (by simp [innerPaths]) rfl))

variable {σ : Type} {window : Word} {alloc : σ → σ × Word} {logOf : σ → List Word}
  {top : BitVec 9 → Prop} {base : Word → Prop} {m : Mem} {s : σ}
  {T : List (BitVec 9) → Option Word} {pgtable : Word}

/-- The states and tables that a call comes through, level by level. -/
structure Walked (window : Word) (alloc : σ → σ × Word) (m : Mem) (s : σ)
    (pgtable va attr : Word) (r₁ r₂ r₃ : Mem × σ) (pud pmd pte : Word) : Prop where
  first : ensureTable window alloc m s pgtable (pgdEntry va) attr = r₁
  toPud : nextTable window r₁.1 pgtable (pgdEntry va) = pud
  second : ensureTable window alloc r₁.1 r₁.2 pud (pudEntry va) attr = r₂
  toPmd : nextTable window r₂.1 pud (pudEntry va) = pmd
  third : ensureTable window alloc r₂.1 r₂.2 pmd (pmdEntry va) attr = r₃
  toPte : nextTable window r₃.1 pmd (pmdEntry va) = pte

/-- The mapper of the source is three steps down through the inner tables followed by one write of
the leaf entry; every later fact about it starts from this decomposition. -/
theorem pgtableMap_walked (window : Word) (alloc : σ → σ × Word) (m : Mem) (s : σ)
    (pgtable va pa attr : Word) :
    ∃ r₁ r₂ r₃ pud pmd pte, Walked window alloc m s pgtable va attr r₁ r₂ r₃ pud pmd pte ∧
      pgtableMap window alloc m s pgtable va pa attr =
        (r₃.1.write64 (entryAddr window pte (pteEntry va)) (pa ||| attr), r₃.2) :=
  ⟨_, _, _, _, _, _, ⟨rfl, rfl, rfl, rfl, rfl, rfl⟩, rfl⟩

/-- The topmost index macro, `PGD_ENTRY`, as the bits 39 to 47 of the address. -/
theorem pgdEntry_eq : pgdEntry va = (indexOf PGD_OFFSET va).setWidth 64 := ptEntry_eq _ _
/-- The second index macro, `PUD_ENTRY`, as the bits 30 to 38 of the address. -/
theorem pudEntry_eq : pudEntry va = (indexOf PUD_OFFSET va).setWidth 64 := ptEntry_eq _ _
/-- The third index macro, `PMD_ENTRY`, as the bits 21 to 29 of the address. -/
theorem pmdEntry_eq : pmdEntry va = (indexOf PMD_OFFSET va).setWidth 64 := ptEntry_eq _ _
/-- The last index macro, `PTE_ENTRY`, as the bits 12 to 20 of the address. -/
theorem pteEntry_eq : pteEntry va = (indexOf PTE_OFFSET va).setWidth 64 := ptEntry_eq _ _

/-- The allocator's log of a call grows at its front. -/
theorem Walked.logs {r₁ r₂ r₃ : Mem × σ} {pud pmd pte : Word}
    (hlog : ∀ s, logOf (alloc s).1 = (alloc s).2 :: logOf s)
    (hw : Walked window alloc m s pgtable va attr r₁ r₂ r₃ pud pmd pte) :
    logOf s <:+ logOf r₁.2 ∧ logOf r₁.2 <:+ logOf r₂.2 ∧ logOf r₂.2 <:+ logOf r₃.2 :=
  ⟨ensureTable_log hlog hw.first, ensureTable_log hlog hw.second, ensureTable_log hlog hw.third⟩

/-- A call allocates at most three pages, one for each inner level, and the allocator is otherwise
left alone. -/
theorem pgtableMap_allocs (window : Word) (alloc : σ → σ × Word) (m : Mem) (s : σ)
    (pgtable va pa attr : Word) :
    ∃ n ≤ 3, (pgtableMap window alloc m s pgtable va pa attr).2 = (fun s => (alloc s).1)^[n] s := by
  obtain ⟨r₁, r₂, r₃, pud, pmd, pte, hw, heq⟩ :=
    pgtableMap_walked window alloc m s pgtable va pa attr
  obtain ⟨n₁, h₁, e₁⟩ := ensureTable_allocs window alloc m s pgtable (pgdEntry va) attr
  obtain ⟨n₂, h₂, e₂⟩ := ensureTable_allocs window alloc r₁.1 r₁.2 pud (pudEntry va) attr
  obtain ⟨n₃, h₃, e₃⟩ := ensureTable_allocs window alloc r₂.1 r₂.2 pmd (pmdEntry va) attr
  rw [hw.first] at e₁
  rw [hw.second, e₁] at e₂
  rw [hw.third, e₂] at e₃
  refine ⟨n₃ + (n₂ + n₁), by omega, ?_⟩
  rw [heq, Function.iterate_add_apply, Function.iterate_add_apply]
  exact e₃

/-- A whole call of the mapper only adds pages to the log, at most one for each inner level. -/
theorem pgtableMap_log (hlog : ∀ s, logOf (alloc s).1 = (alloc s).2 :: logOf s) :
    logOf s <:+ logOf (pgtableMap window alloc m s pgtable va pa attr).2 := by
  obtain ⟨n, -, hn⟩ := pgtableMap_allocs window alloc m s pgtable va pa attr
  rw [hn]
  exact log_iterate hlog n s

/-- Level by level, each table of a call is found where the level before left it. -/
theorem Walked.levels {r₁ r₂ r₃ : Mem × σ} {pud pmd pte : Word}
    (hlog : ∀ s, logOf (alloc s).1 = (alloc s).2 :: logOf s)
    (hattr : attr &&& PAGE_MASK = 0) (hP : attr &&& PAGE_ATTR_P = PAGE_ATTR_P)
    (hT : Tables window top base (logOf s) m T) (hroot : T [] = some pgtable)
    (htop : top (indexOf PGD_OFFSET va))
    (hw : Walked window alloc m s pgtable va attr r₁ r₂ r₃ pud pmd pte)
    (hfresh : Fresh base (logOf r₃.2)) :
    ∃ T₁ T₂ T₃, (Tables window top base (logOf r₁.2) r₁.1 T₁ ∧
        Tables window top base (logOf r₂.2) r₂.1 T₂ ∧ Tables window top base (logOf r₃.2) r₃.1 T₃) ∧
      ((∀ π p, T π = some p → T₁ π = some p) ∧ (∀ π p, T₁ π = some p → T₂ π = some p) ∧
        ∀ π p, T₂ π = some p → T₃ π = some p) ∧
      (T₁ [indexOf PGD_OFFSET va] = some pud ∧
        T₂ [indexOf PUD_OFFSET va, indexOf PGD_OFFSET va] = some pmd ∧
        T₃ [indexOf PMD_OFFSET va, indexOf PUD_OFFSET va, indexOf PGD_OFFSET va] = some pte) ∧
      entries window r₁.1 T₁ = linkEntry pud attr [indexOf PGD_OFFSET va] (entries window m T) ∧
      entries window r₂.1 T₂ = linkEntry pmd attr [indexOf PUD_OFFSET va, indexOf PGD_OFFSET va]
        (entries window r₁.1 T₁) ∧
      entries window r₃.1 T₃ = linkEntry pte attr
        [indexOf PMD_OFFSET va, indexOf PUD_OFFSET va, indexOf PGD_OFFSET va]
        (entries window r₂.1 T₂) := by
  obtain ⟨-, hl₂, hl₃⟩ := hw.logs hlog
  obtain ⟨hfirst, htoPud, hsecond, htoPmd, hthird, htoPte⟩ := hw
  rw [pgdEntry_eq] at hfirst htoPud
  rw [pudEntry_eq] at hsecond htoPmd
  rw [pmdEntry_eq] at hthird htoPte
  -- What a level leaves is what the next one starts from.
  have hu₁ : Under top [indexOf PGD_OFFSET va] := under_singleton htop
  obtain ⟨T₁, hT₁, hsub₁, hpud, hent₁⟩ := ensureTable_spec hlog hattr hP hT hroot (by decide) hu₁
    hfirst (hfresh.suffix (hl₂.trans hl₃))
  rw [htoPud] at hpud hent₁
  have hu₂ := hu₁.cons (i := indexOf PUD_OFFSET va) (by simp)
  obtain ⟨T₂, hT₂, hsub₂, hpmd, hent₂⟩ := ensureTable_spec hlog hattr hP hT₁ hpud (by simp) hu₂
    hsecond (hfresh.suffix hl₃)
  rw [htoPmd] at hpmd hent₂
  have hu₃ := hu₂.cons (i := indexOf PMD_OFFSET va) (by simp)
  obtain ⟨T₃, hT₃, hsub₃, hpte, hent₃⟩ := ensureTable_spec hlog hattr hP hT₂ hpmd (by simp) hu₃
    hthird hfresh
  rw [htoPte] at hpte hent₃
  exact ⟨T₁, T₂, T₃, ⟨hT₁, hT₂, hT₃⟩, ⟨hsub₁, hsub₂, hsub₃⟩, ⟨hpud, hpmd, hpte⟩, hent₁, hent₂, hent₃⟩

/-- One call, with the tables that it comes through: the three steps down leave a tree in which the
last table hangs at the inner path of the address, and the write of the leaf does the rest. -/
theorem Walked.spec {r₁ r₂ r₃ : Mem × σ} {pud pmd pte : Word}
    (hlog : ∀ s, logOf (alloc s).1 = (alloc s).2 :: logOf s)
    (hattr : attr &&& PAGE_MASK = 0) (hP : attr &&& PAGE_ATTR_P = PAGE_ATTR_P)
    (hT : Tables window top base (logOf s) m T) (hroot : T [] = some pgtable)
    (htop : top (indexOf PGD_OFFSET va))
    (hw : Walked window alloc m s pgtable va attr r₁ r₂ r₃ pud pmd pte)
    (hfresh : Fresh base (logOf r₃.2)) (pa : Word) :
    let m' := r₃.1.write64 (entryAddr window pte (pteEntry va)) (pa ||| attr)
    ∃ T', Tables window top base (logOf r₃.2) m' T' ∧
      (∀ π p, T π = some p → T' π = some p) ∧
      Effect va pa attr (entries window m T) (entries window m' T') ∧
      T' [indexOf PGD_OFFSET va] = some pud ∧
      T' [indexOf PUD_OFFSET va, indexOf PGD_OFFSET va] = some pmd := by
  obtain ⟨T₁, T₂, T₃, ⟨hT₁, hT₂, hT₃⟩, ⟨hsub₁, hsub₂, hsub₃⟩, ⟨hpud, hpmd, hpte⟩, hent₁, hent₂,
    hent₃⟩ := hw.levels hlog hattr hP hT hroot htop hfresh
  rw [pteEntry_eq]
  obtain ⟨hlaid, hent⟩ := hT₃.laid.set (0 : Word) hpte rfl
    (view_write_self (v := pa ||| attr)) fun π' p' j hp' hne =>
      view_write (hT₃.aligned _ _ hpte) (hT₃.aligned π' p' hp') hne
  refine ⟨T₃, ⟨hlaid, hT₃.aligned, hT₃.used⟩, fun π p hp => hsub₃ π p (hsub₂ π p (hsub₁ π p hp)),
    ?_, hsub₃ _ _ (hsub₂ _ _ hpud), hsub₃ _ _ hpmd⟩
  have hlinks := effect_of_links va pa attr (entries window m T) rfl (hT₁.aligned _ _ hpud)
    (hT₂.aligned _ _ hpmd) (hT₃.aligned _ _ hpte)
  rw [← hent₁, ← hent₂, ← hent₃] at hlinks
  show Effect va pa attr _ (entryAt 0 _ T₃)
  rw [hent]
  exact hlinks

/-- One call of a mapping function. The pages it allocated are the new ones of
the log; that they are fresh is a condition on the log after the call. -/
theorem pgtableMap_spec (hlog : ∀ s, logOf (alloc s).1 = (alloc s).2 :: logOf s)
    (hattr : attr &&& PAGE_MASK = 0) (hP : attr &&& PAGE_ATTR_P = PAGE_ATTR_P)
    (hT : Tables window top base (logOf s) m T) (hroot : T [] = some pgtable)
    (htop : top (indexOf PGD_OFFSET va)) {r : Mem × σ}
    (hr : pgtableMap window alloc m s pgtable va pa attr = r) (hfresh : Fresh base (logOf r.2)) :
    ∃ T', Tables window top base (logOf r.2) r.1 T' ∧
      (∀ π p, T π = some p → T' π = some p) ∧
      Effect va pa attr (entries window m T) (entries window r.1 T') := by
  obtain ⟨r₁, r₂, r₃, pud, pmd, pte, hw, heq⟩ :=
    pgtableMap_walked window alloc m s pgtable va pa attr
  obtain rfl := heq.symm.trans hr
  obtain ⟨T', hT', hsub, heffect, -⟩ := hw.spec hlog hattr hP hT hroot htop hfresh pa
  exact ⟨T', hT', hsub, heffect⟩

/-- A call whose inner entries are all in use allocates nothing: on each of the three levels the
table is found where the entry refers to. -/
theorem pgtableMap_used (hT : Tables window top base (logOf s) m T) (hroot : T [] = some pgtable)
    (htop : top (indexOf PGD_OFFSET va))
    (hused : ∀ π ∈ innerPaths va, entries window m T π ≠ 0) :
    (pgtableMap window alloc m s pgtable va pa attr).2 = s := by
  have hlevel : ∀ {i : BitVec 9} {π : List (BitVec 9)} {p : Word}, T π = some p → π.length + 1 < 4 →
      Under top (i :: π) → entries window m T (i :: π) ≠ 0 →
      ensureTable window alloc m s p (i.setWidth 64) attr = (m, s) ∧
        T (i :: π) = some (nextTable window m p (i.setWidth 64)) := by
    intro i π p hp hlen hu hne
    rw [entries_some hp] at hne
    have hlink := hT.laid.link π p i hp hlen hu
    rw [tableChild, if_neg hne] at hlink
    exact ⟨ensureTable_used hne, hlink.symm⟩
  simp only [innerPaths, List.forall_mem_cons, List.not_mem_nil, false_imp_iff, implies_true,
    and_true] at hused
  obtain ⟨h₁, h₂, h₃⟩ := hused
  have hu₁ : Under top [indexOf PGD_OFFSET va] := under_singleton htop
  have hu₂ := hu₁.cons (i := indexOf PUD_OFFSET va) (by simp)
  have hu₃ := hu₂.cons (i := indexOf PMD_OFFSET va) (by simp)
  obtain ⟨hfirst, hpud⟩ := hlevel hroot (by decide) hu₁ h₁
  obtain ⟨hsecond, hpmd⟩ := hlevel hpud (by simp) hu₂ h₂
  obtain ⟨hthird, -⟩ := hlevel hpmd (by simp) hu₃ h₃
  simp only [pgtableMap, pgdEntry_eq, pudEntry_eq, pmdEntry_eq, hfirst, hsecond, hthird]

end Call

end SumiOS
