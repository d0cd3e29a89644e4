import SumiOS.Multiboot
import Mathlib.Logic.Relation

/-!
# `SumiOS.Proofs.Init.Tags`: the walk over the multiboot tags

The walk goes from tag to tag by the sizes that it reads, and it does not know where the
information block ends. `walkSafe_iff` says when it stays inside and ends: every tag that it
comes to has to lie in the block, and the size of every tag that it passes has to be one that
does not round up to 0 in 32 bits. In a block that is a sequence of tags up to an END tag this
is the case, and the walk stops at the first MMAP tag (`TagChain.walk`).

The loop goes on as long as `Passes` holds. What one round does is in `tagLoop_stop` and
`tagLoop_pass`, and the rest follows from these two.
-/

set_option autoImplicit false

namespace SumiOS

open Lib

/-! ### One round -/

/-- The walk goes on behind the tag. A tag at the address 0 is never taken for the memory
map, because the walk tells by NULL whether it has found one. -/
def Passes (m : Mem) (tags : Word) : Prop :=
  (readTag m tags).type ≠ MULTIBOOT_TAG_TYPE_END ∧
    ((readTag m tags).type = MULTIBOOT_TAG_TYPE_MMAP → tags = 0)

instance (m : Mem) (tags : Word) : Decidable (Passes m tags) :=
  inferInstanceAs (Decidable (_ ∧ _))

/-- Where the walk goes from a tag. -/
def nextTag (m : Mem) (tags : Word) : Word := tags + (tagStride m tags).setWidth 64

section Round

variable {m : Mem} {t : Word} {reads : List Word} {n : Nat}

/-- A tag that is passed costs two reads, and the walk goes on at the next one. -/
theorem tagLoop_pass (h : Passes m t) :
    tagLoop m (n + 1) ⟨t, 0, reads⟩ = tagLoop m n ⟨nextTag m t, 0, (t + 4) :: t :: reads⟩ := by
  obtain ⟨hend, hmmap⟩ := h
  rw [tagLoop, if_neg hend]
  by_cases htype : (readTag m t).type = MULTIBOOT_TAG_TYPE_MMAP
  · have hzero := hmmap htype
    subst hzero
    simp only [htype, if_true, ne_eq, not_true_eq_false, if_false, nextTag]
  · simp only [htype, if_false, ne_eq, not_true_eq_false, nextTag]

/-- At the END tag the walk stops, without having found a memory map. -/
theorem tagLoop_end (h : (readTag m t).type = MULTIBOOT_TAG_TYPE_END) :
    tagLoop m (n + 1) ⟨t, 0, reads⟩ = some ⟨t, 0, t :: reads⟩ := by
  rw [tagLoop, if_pos h]

/-- At an MMAP tag that is not at NULL the walk stops, and the tag is its result. -/
theorem tagLoop_mmap (h : (readTag m t).type = MULTIBOOT_TAG_TYPE_MMAP) (ht : t ≠ 0) :
    tagLoop m (n + 1) ⟨t, 0, reads⟩ = some ⟨t, t, t :: reads⟩ := by
  have hend : (readTag m t).type ≠ MULTIBOOT_TAG_TYPE_END := by
    rw [h]
    decide
  rw [tagLoop, if_neg hend]
  simp only [h, if_true, ne_eq, ht, not_false_eq_true]

/-- The walk stops at a tag that it does not pass. It has read the type of the tag only. -/
theorem tagLoop_stop (h : ¬ Passes m t) (n : Nat) (reads : List Word) :
    ∃ mmapInfo, tagLoop m (n + 1) ⟨t, 0, reads⟩ = some ⟨t, mmapInfo, t :: reads⟩ := by
  by_cases hend : (readTag m t).type = MULTIBOOT_TAG_TYPE_END
  · exact ⟨0, tagLoop_end hend⟩
  · have hmmap : (readTag m t).type = MULTIBOOT_TAG_TYPE_MMAP ∧ t ≠ 0 := by
      by_contra hno
      exact h ⟨hend, fun htype => by_contra fun ht => hno ⟨htype, ht⟩⟩
    exact ⟨t, tagLoop_mmap hmmap.1 hmmap.2⟩

/-- The last three bits cleared: rounding down to a multiple of 8, which the source does to the
size of a tag after adding 7. -/
theorem and_not_seven (x : BitVec 32) : (x &&& ~~~(7 : BitVec 32)).toNat = x.toNat / 8 * 8 := by
  have hshift : x &&& ~~~(7 : BitVec 32) = (x >>> 3) <<< 3 := by
    have hmask : ~~~(7 : BitVec 32) = BitVec.allOnes 32 <<< 3 := by decide
    rw [hmask]
    ext i hi
    simp only [BitVec.getElem_and, BitVec.getElem_shiftLeft, BitVec.getElem_ushiftRight,
      BitVec.getElem_allOnes]
    by_cases h : i < 3
    · simp [h]
    · simp only [h, decide_false, Bool.not_false, Bool.true_and, Bool.and_true]
      rw [show 3 + (i - 3) = i by omega, BitVec.getLsbD_eq_getElem]
  have hlt := x.isLt
  rw [hshift, BitVec.toNat_shiftLeft, BitVec.toNat_ushiftRight, Nat.shiftLeft_eq,
    Nat.shiftRight_eq_div_pow]
  omega

/-- The stride as a number: the sum wraps around before it is rounded. -/
theorem tagStride_toNat :
    (tagStride m t).toNat = ((readTag m t).size.toNat + 7) % 2 ^ 32 / 8 * 8 := by
  have hseven : (7 : BitVec 32).toNat = 7 := rfl
  rw [tagStride, and_not_seven, BitVec.toNat_add, hseven]

/-- The sizes that round up to 0: the size 0, and the last seven. -/
theorem tagStride_pos :
    0 < (tagStride m t).toNat ↔ (readTag m t).size ≠ 0 ∧ (readTag m t).size ≤ 0xfffffff8 := by
  have hlt := (readTag m t).size.isLt
  have hbound : (0xfffffff8 : BitVec 32).toNat = 0xfffffff8 := rfl
  have hzero : (readTag m t).size ≠ 0 ↔ (readTag m t).size.toNat ≠ 0 :=
    not_congr BitVec.toNat_inj.symm
  rw [tagStride_toNat, hzero, BitVec.le_def, hbound]
  omega

end Round

/-! ### The whole walk -/

/-- The `n` bytes at `a` lie in the information block at `mbi`. The size of the block is its
first field. -/
def InBlock (m : Mem) (mbi a : Word) (n : Nat) : Prop := (a - mbi).toNat + n ≤ (m.read32 mbi).toNat

instance (m : Mem) (mbi a : Word) (n : Nat) : Decidable (InBlock m mbi a n) :=
  inferInstanceAs (Decidable (_ ≤ _))

/-- The walk ends, and no field of a tag that it reads is outside the block. -/
def WalkSafe (m : Mem) (mbi : Word) : Prop :=
  ∃ fuel w, tagLoop m fuel (TagWalk.start mbi) = some w ∧ ∀ a ∈ w.reads, InBlock m mbi a 4

/-- The walk passes the one tag and comes to the other. -/
def TagStep (m : Mem) (t t' : Word) : Prop := Passes m t ∧ nextTag m t = t'

/-- The walk comes to the tag. -/
def ComesTo (m : Mem) (mbi t : Word) : Prop := Relation.ReflTransGen (TagStep m) (mbi + 8) t

/-- A tag that does not lead the walk astray: it is in the block, and if the walk passes it,
its size is one that moves the walk on. -/
def LeadsOn (m : Mem) (mbi t : Word) : Prop :=
  InBlock m mbi t 4 ∧
    (Passes m t → InBlock m mbi (t + 4) 4 ∧
      (readTag m t).size ≠ 0 ∧ (readTag m t).size ≤ 0xfffffff8)

section Walk

variable {m : Mem} {mbi t t' : Word} {w : TagWalk} {reads : List Word}

/-- The reads of the rounds before are kept, so that all reads of the walk are in its result. -/
theorem tagLoop_reads : ∀ {fuel : Nat} {t : Word} {reads : List Word},
    tagLoop m fuel ⟨t, 0, reads⟩ = some w → ∀ a ∈ reads, a ∈ w.reads
  | 0, _, _, h => nomatch h
  | fuel + 1, t, reads, h => by
      intro a ha
      by_cases hpass : Passes m t
      · rw [tagLoop_pass hpass] at h
        exact tagLoop_reads h a (List.mem_cons_of_mem _ (List.mem_cons_of_mem _ ha))
      · obtain ⟨mmapInfo, hstop⟩ := tagLoop_stop hpass fuel reads
        obtain rfl := Option.some.inj (hstop.symm.trans h)
        exact List.mem_cons_of_mem _ ha

/-- A tag that the walk passes without moving on holds it forever. -/
theorem tagLoop_stuck (hpass : Passes m t) (hnext : nextTag m t = t) :
    ∀ (fuel : Nat) (reads : List Word), tagLoop m fuel ⟨t, 0, reads⟩ = none
  | 0, _ => rfl
  | fuel + 1, reads => by rw [tagLoop_pass hpass, hnext, tagLoop_stuck hpass hnext fuel]

/-- A stride of 0 leaves the walk where it is. -/
theorem nextTag_eq_self (h : ¬ 0 < (tagStride m t).toNat) : nextTag m t = t := by
  have hzero : tagStride m t = 0 := BitVec.eq_of_toNat_eq (Nat.eq_zero_of_not_pos h)
  rw [nextTag, hzero]
  exact BitVec.add_zero t

/-- A walk that ends has read the fields of every tag that it came to, and it has moved on
from every tag that it passed. -/
theorem tagLoop_comesTo : ∀ {fuel : Nat} {t : Word} {reads : List Word},
    tagLoop m fuel ⟨t, 0, reads⟩ = some w → Relation.ReflTransGen (TagStep m) t t' →
    t' ∈ w.reads ∧ (Passes m t' → t' + 4 ∈ w.reads ∧ 0 < (tagStride m t').toNat)
  | 0, _, _, h, _ => nomatch h
  | fuel + 1, t, reads, h, hcomes => by
      by_cases hpass : Passes m t
      · cases hcomes.cases_head with
        | inl heq =>
            subst heq
            -- A tag of size 0 would keep the walk where it is, and then it does not end.
            have hmoves : 0 < (tagStride m t).toNat := by
              by_contra hzero
              rw [tagLoop_stuck hpass (nextTag_eq_self hzero)] at h
              exact nomatch h
            rw [tagLoop_pass hpass] at h
            have hreads := tagLoop_reads h
            exact ⟨hreads t (by simp), fun _ => ⟨hreads (t + 4) (by simp), hmoves⟩⟩
        | inr hstep =>
            obtain ⟨_, ⟨_, rfl⟩, hrest⟩ := hstep
            rw [tagLoop_pass hpass] at h
            exact tagLoop_comesTo h hrest
      · -- The walk stops at `t`, so it comes to no other tag.
        obtain ⟨mmapInfo, hstop⟩ := tagLoop_stop hpass fuel reads
        obtain rfl := Option.some.inj (hstop.symm.trans h)
        have heq : t' = t := by
          cases hcomes.cases_head with
          | inl heq => exact heq.symm
          | inr hstep => exact absurd hstep.choose_spec.1.1 hpass
        subst heq
        exact ⟨List.mem_cons_self, fun h => absurd h hpass⟩

/-- Where the next tag is in the block, when the walk cannot leave it by one stride. -/
theorem nextTag_offset (h : InBlock m mbi t 4) :
    (nextTag m t - mbi).toNat = (t - mbi).toNat + (tagStride m t).toNat := by
  have hstride := (tagStride m t).isLt
  have htotal := (m.read32 mbi).isLt
  have hwide : ((tagStride m t).setWidth 64).toNat = (tagStride m t).toNat := by
    rw [BitVec.toNat_setWidth]
    omega
  unfold InBlock at h
  unfold nextTag
  bv_omega

/-- A walk all of whose tags lead it on ends. The rest of the block gets shorter with every
tag. -/
theorem tagLoop_ends (rest : Nat) : ∀ (t : Word) (reads : List Word),
    (m.read32 mbi).toNat ≤ (t - mbi).toNat + rest →
    (∀ t', Relation.ReflTransGen (TagStep m) t t' → LeadsOn m mbi t') →
    ∃ w, tagLoop m (rest + 1) ⟨t, 0, reads⟩ = some w ∧
      ∀ a ∈ w.reads, a ∈ reads ∨ InBlock m mbi a 4 := by
  induction rest with
  | zero =>
      intro t reads hrest hleads
      have hin := (hleads t Relation.ReflTransGen.refl).1
      -- The place is behind the end, but a place in the block is before it.
      unfold InBlock at hin
      omega
  | succ rest ih =>
      intro t reads hrest hleads
      have hlead := hleads t Relation.ReflTransGen.refl
      by_cases hpass : Passes m t
      · obtain ⟨hsize, hmoves⟩ := hlead.2 hpass
        -- The stride is positive, so the rest of the block is shorter behind the tag.
        have hpos := tagStride_pos.mpr hmoves
        have hoffset := nextTag_offset hlead.1
        obtain ⟨w, hw, hreads⟩ := ih (nextTag m t) ((t + 4) :: t :: reads) (by omega)
          fun t' ht' => hleads t' (Relation.ReflTransGen.head ⟨hpass, rfl⟩ ht')
        refine ⟨w, by rw [tagLoop_pass hpass, hw], fun a ha => ?_⟩
        cases hreads a ha with
        | inl hmem =>
            simp only [List.mem_cons] at hmem
            rcases hmem with rfl | rfl | hmem
            · exact Or.inr hsize
            · exact Or.inr hlead.1
            · exact Or.inl hmem
        | inr hin => exact Or.inr hin
      · obtain ⟨mmapInfo, hstop⟩ := tagLoop_stop hpass (rest + 1) reads
        refine ⟨_, hstop, fun a ha => ?_⟩
        cases List.mem_cons.mp ha with
        | inl heq =>
            subst heq
            exact Or.inr hlead.1
        | inr hmem => exact Or.inl hmem

/-- The walk is safe exactly when every tag that it comes to leads it on. -/
theorem walkSafe_iff : WalkSafe m mbi ↔ ∀ t, ComesTo m mbi t → LeadsOn m mbi t := by
  constructor
  · rintro ⟨fuel, w, hw, hreads⟩ t hcomes
    obtain ⟨htype, hpassed⟩ := tagLoop_comesTo hw hcomes
    refine ⟨hreads t htype, fun hpass => ?_⟩
    obtain ⟨hsize, hpos⟩ := hpassed hpass
    exact ⟨hreads _ hsize, tagStride_pos.mp hpos⟩
  · intro hleads
    obtain ⟨w, hw, hreads⟩ := tagLoop_ends (m.read32 mbi).toNat (mbi + 8) []
      (by omega) hleads
    exact ⟨_, w, hw, fun a ha => (hreads a ha).resolve_left List.not_mem_nil⟩

end Walk

/-! ### A sequence of tags -/

/-- The bytes from a tag to the next one: tags are at multiples of 8. -/
def tagSpace (size : BitVec 32) : Nat := (size.toNat + 7) / 8 * 8

/-- The tags from `t` on are in the block, one behind the other, and the last one is an END
tag. -/
inductive TagChain (m : Mem) (mbi : Word) : Word → List Word → Prop
  | last {t : Word} : InBlock m mbi t 8 → (readTag m t).type = MULTIBOOT_TAG_TYPE_END →
      TagChain m mbi t [t]
  | tag {t : Word} {tags : List Word} : InBlock m mbi t (tagSpace (readTag m t).size) →
      (readTag m t).type ≠ MULTIBOOT_TAG_TYPE_END → 8 ≤ (readTag m t).size.toNat →
      TagChain m mbi (t + BitVec.ofNat 64 (tagSpace (readTag m t).size)) tags →
      TagChain m mbi t (t :: tags)

/-- The information block is a sequence of tags behind its two fields, and it does not go
over the top of the address space. -/
structure WellFormedInfo (m : Mem) (mbi : Word) (tags : List Word) : Prop where
  fits : mbi.toNat + (m.read32 mbi).toNat ≤ 2 ^ 64
  chain : TagChain m mbi (mbi + 8) tags

/-- The walk has stopped at the first MMAP tag, or at the last tag when there is none. -/
def StopsAtMmap (m : Mem) (tags : List Word) (w : TagWalk) : Prop :=
  match tags.find? fun t => (readTag m t).type == MULTIBOOT_TAG_TYPE_MMAP with
  | some t => w.tags = t ∧ w.mmapInfo = t
  | none => tags.getLast? = some w.tags ∧ w.mmapInfo = 0

section Chain

variable {m : Mem} {mbi t : Word} {tags reads : List Word}

/-- A chain of tags has at least its END tag. -/
theorem TagChain.ne_nil (h : TagChain m mbi t tags) : tags ≠ [] := by
  cases h <;> exact List.cons_ne_nil _ _

/-- In a block, the stride of a tag is the space of the tag. -/
theorem tagStride_eq_space (h : InBlock m mbi t (tagSpace (readTag m t).size)) :
    (tagStride m t).toNat = tagSpace (readTag m t).size := by
  have htotal := (m.read32 mbi).isLt
  have hsize := (readTag m t).size.isLt
  unfold InBlock tagSpace at h
  rw [tagStride_toNat, tagSpace]
  omega

/-- Fewer bytes at the same address are in the block as well. -/
theorem InBlock.mono {a : Word} {n k : Nat} (h : InBlock m mbi a n) (hk : k ≤ n) :
    InBlock m mbi a k := by
  unfold InBlock at *
  omega

/-- The second field of a tag is in the block when the first eight bytes of the tag are. -/
theorem InBlock.size (h : InBlock m mbi t 8) : InBlock m mbi (t + 4) 4 := by
  have htotal := (m.read32 mbi).isLt
  unfold InBlock at *
  bv_omega

/-- NULL is not behind the first bytes of a block. -/
theorem InBlock.ne_zero (h : InBlock m mbi t 8) (hfits : mbi.toNat + (m.read32 mbi).toNat ≤ 2 ^ 64)
    (hbehind : 8 ≤ (t - mbi).toNat) : t ≠ 0 := by
  rintro rfl
  unfold InBlock at h
  bv_omega

/-- One more read in the block: a logged address is one from before, or the new one, which lies in
the block. -/
theorem InBlock.push (h : InBlock m mbi t 4) {log : List Word} {a : Word} (ha : a ∈ t :: log) :
    a ∈ log ∨ InBlock m mbi a 4 := by
  cases List.mem_cons.mp ha with
  | inl heq => exact Or.inr (heq ▸ h)
  | inr hmem => exact Or.inl hmem

/-- Behind a tag of a sequence there is the next one. -/
theorem nextTag_eq_space (h : InBlock m mbi t (tagSpace (readTag m t).size)) :
    nextTag m t = t + BitVec.ofNat 64 (tagSpace (readTag m t).size) := by
  rw [nextTag, ← tagStride_eq_space h]
  exact congrArg (t + ·) (BitVec.ofNat_toNat 64 (tagStride m t)).symm

/-- The walk over a sequence of tags, with the tags that it has read. -/
theorem TagChain.walk (hfits : mbi.toNat + (m.read32 mbi).toNat ≤ 2 ^ 64)
    (h : TagChain m mbi t tags) : 8 ≤ (t - mbi).toNat → ∀ reads : List Word,
    ∃ w, tagLoop m tags.length ⟨t, 0, reads⟩ = some w ∧ StopsAtMmap m tags w ∧
      ∀ a ∈ w.reads, a ∈ reads ∨ InBlock m mbi a 4 := by
  induction h with
  | @last t hin hend =>
      -- The end tag is read, and is no memory map.
      intro _ reads
      have hno : ((readTag m t).type == MULTIBOOT_TAG_TYPE_MMAP) = false := by
        rw [hend]
        rfl
      refine ⟨_, tagLoop_end hend, ?_, fun a ha => InBlock.push (hin.mono (show 4 ≤ 8 by decide)) ha⟩
      simp [StopsAtMmap, hno]
  | @tag t tags hin hend hsize hrest ih =>
      intro hbehind reads
      have hspace : 8 ≤ tagSpace (readTag m t).size := by
        unfold tagSpace
        omega
      have hin8 := hin.mono hspace
      have hin4 : InBlock m mbi t 4 := hin8.mono (by decide)
      by_cases htype : (readTag m t).type = MULTIBOOT_TAG_TYPE_MMAP
      · -- The walk stops at the memory map.
        refine ⟨_, tagLoop_mmap htype (hin8.ne_zero hfits hbehind), ?_, fun a ha => InBlock.push hin4 ha⟩
        simp [StopsAtMmap, htype]
      · -- The tag is passed, and the stride leads to the rest of the sequence.
        have hpass : Passes m t := ⟨hend, fun h => absurd h htype⟩
        have hnext := nextTag_eq_space hin
        have hoffset := nextTag_offset hin4
        rw [hnext] at hoffset
        obtain ⟨w, hw, hstops, hreads⟩ := ih (by omega) ((t + 4) :: t :: reads)
        refine ⟨w, ?_, ?_, fun a ha => ?_⟩
        · rw [List.length_cons, tagLoop_pass hpass, hnext, hw]
        · have hno : ((readTag m t).type == MULTIBOOT_TAG_TYPE_MMAP) = false :=
            beq_eq_false_iff_ne.mpr htype
          have hlast : (t :: tags).getLast? = tags.getLast? :=
            List.getLast?_cons_of_ne_nil hrest.ne_nil
          simpa only [StopsAtMmap, List.find?_cons, hno, hlast] using hstops
        · cases hreads a ha with
          | inl hmem =>
              cases InBlock.push hin8.size hmem with
              | inl htag => exact InBlock.push hin4 htag
              | inr hblock => exact Or.inr hblock
          | inr hblock => exact Or.inr hblock

end Chain

/-- The walk is safe on exactly the blocks whose tags lead it on. These are not all of them.
On a sequence of tags up to an END tag it is safe, and it stops at the first MMAP tag, or at
the END tag when there is none. -/
theorem tagWalk_safe (m : Mem) (mbi : Word) :
    (WalkSafe m mbi ↔ ∀ t, ComesTo m mbi t → LeadsOn m mbi t) ∧
    ∀ tags, WellFormedInfo m mbi tags → WalkSafe m mbi ∧
      ∃ fuel w, tagLoop m fuel (TagWalk.start mbi) = some w ∧ StopsAtMmap m tags w := by
  refine ⟨walkSafe_iff, fun tags hinfo => ?_⟩
  have hfirst : 8 ≤ (mbi + 8 - mbi).toNat := by bv_omega
  obtain ⟨w, hw, hstops, hreads⟩ := hinfo.chain.walk hinfo.fits hfirst []
  have hin : ∀ a ∈ w.reads, InBlock m mbi a 4 := fun a ha =>
    (hreads a ha).resolve_left List.not_mem_nil
  exact ⟨⟨_, w, hw, hin⟩, _, w, hw, hstops⟩

/-! ### Information blocks -/

/-- Memory with the words `ws` at `mbi`. -/
def infoAt (mbi : Word) (ws : List Nat) : Mem := fun a =>
  let i := (a - mbi).toNat
  BitVec.ofNat 8 (ws.getD (i / 4) 0 >>> (8 * (i % 4)))

/-- Basic memory information, a memory map without entries, and the END tag. -/
def plainInfo : Mem := infoAt 0x10000 [48, 0, 4, 16, 640, 0, 6, 16, 24, 0, 0, 8]

/-- The walk on a block of three tags stops at the memory map, which is the second of them, and
reads nothing outside of the block. -/
theorem tagWalk_safe_plainInfo : WellFormedInfo plainInfo 0x10000 [0x10008, 0x10018, 0x10028] ∧
    WalkSafe plainInfo 0x10000 ∧ ∃ fuel w, tagLoop plainInfo fuel (TagWalk.start 0x10000) = some w ∧
      StopsAtMmap plainInfo [0x10008, 0x10018, 0x10028] w := by
  have hinfo : WellFormedInfo plainInfo 0x10000 [0x10008, 0x10018, 0x10028] := by
    refine ⟨by decide, ?_⟩
    refine TagChain.tag (by decide) (by decide) (by decide) ?_
    refine TagChain.tag (by decide) (by decide) (by decide) ?_
    exact TagChain.last (by decide) (by decide)
  exact ⟨hinfo, (tagWalk_safe plainInfo 0x10000).2 _ hinfo⟩

/-- The first tag has the size 0. -/
def zeroInfo : Mem := infoAt 0x10000 [24, 0, 1, 0, 0, 8]

/-- The END tag is missing. -/
def openInfo : Mem := infoAt 0x10000 [16, 0, 1, 8]

/-- The walk does not end on a tag of the size 0, which leads to itself, and leaves a block without
an END tag, which nothing keeps it in. -/
theorem not_walkSafe : (∀ fuel, tagLoop zeroInfo fuel (TagWalk.start 0x10000) = none) ∧
    ¬ WalkSafe zeroInfo 0x10000 ∧ ¬ WalkSafe openInfo 0x10000 := by
  have hstuck : ∀ fuel, tagLoop zeroInfo fuel (TagWalk.start 0x10000) = none := fun fuel =>
    tagLoop_stuck (t := 0x10008) (by decide) (by decide) fuel []
  refine ⟨hstuck, ?_, fun hsafe => ?_⟩
  · rintro ⟨fuel, w, hw, _⟩
    exact nomatch (hstuck fuel).symm.trans hw
  · have hcomes : ComesTo openInfo 0x10000 0x10010 := .single ⟨by decide, by decide⟩
    exact absurd (walkSafe_iff.mp hsafe _ hcomes).1 (by decide)

end SumiOS
