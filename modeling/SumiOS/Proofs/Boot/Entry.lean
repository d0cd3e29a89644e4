import SumiOS.Proofs.Boot.Screen
import SumiOS.Proofs.PageTable.Lookup
import SumiOS.Proofs.PageTable.Writable

/-!
# `SumiOS.Proofs.Boot.Entry`: the page table of `boot.S`

The 15 pages of `.boot.data` are 15360 cells of 32 bits from `boot_stack` on. `CellsFilled` says
which words are in them, and that all other memory is as it was. Each loop over the tables is
a change of these words (`CellsFilled.pteLoop`, `CellsFilled.ptLoop`). The screen is in front of
these pages, so what `boot.S` does to it is a matter of its own, and the memory that the whole
code leaves is the one of `Left`.

`start_identity` then follows the walk through these cells: the page table maps the first
20 MB to themselves and nothing else, and the words of the boot loader come back from the
stack. Outside of `.boot.data` and of the screen, which is cleared and has its first letters,
no memory is changed.
-/

set_option autoImplicit false

namespace SumiOS

open Lib

/-- Where the linker script puts `.boot.data`: on a page, behind the first megabyte and below
4 GB. -/
structure BootDataPlaced (bootStack : BitVec 32) : Prop where
  aligned : bootStack.toNat % 4096 = 0
  behind : 0x100000 ≤ bootStack.toNat
  below : bootStack.toNat + 61440 ≤ 2 ^ 32

/-- The cells of `.boot.data` hold the words `f`, and the other bytes are those of `m`. -/
structure CellsFilled (bootStack : BitVec 32) (m m' : Mem) (f : Nat → BitVec 32) : Prop where
  cells : ∀ i < 15360, cell m' (bootStack.setWidth 64) i = f i
  other : ∀ x, 61440 ≤ (x - bootStack.setWidth 64).toNat → m' x = m x

/-- The address of a cell in a register. -/
def cellReg (bootStack : BitVec 32) (i : Nat) : BitVec 32 := bootStack + BitVec.ofNat 32 (4 * i)

section

variable {s : BitVec 32} {m m' : Mem} {f : Nat → BitVec 32} {i n k fuel : Nat}
  {v eax ebx : BitVec 32}

/-- The cells of `.boot.data` lie below 4 GB, so their 32-bit addresses are their 64-bit addresses:
no cell wraps around. -/
theorem cellReg_setWidth (hs : BootDataPlaced s) (hi : i < 15360) :
    (cellReg s i).setWidth 64 = cellAddr (s.setWidth 64) i := by
  have hbelow := hs.below
  unfold cellReg cellAddr
  bv_omega

/-- A store to one cell changes that word and no other, inside `.boot.data` or out of it. -/
theorem CellsFilled.store (h : CellsFilled s m m' f) (hs : BootDataPlaced s) (hi : i < 15360) :
    CellsFilled s m (store m' (cellReg s i) v) (Function.update f i v) where
  cells := by
    intro j hj
    rw [SumiOS.store, cellReg_setWidth hs hi, cell_write32 (by omega) (by omega), h.cells j hj]
    by_cases hji : j = i
    · simp [hji]
    · simp [hji]
  other := by
    intro x hx
    rw [SumiOS.store, cellReg_setWidth hs hi, write32_apply_of_le, h.other x hx]
    unfold cellAddr
    bv_omega

/-- A load from a cell yields the word that it was filled with. -/
theorem CellsFilled.load (h : CellsFilled s m m' f) (hs : BootDataPlaced s) (hi : i < 15360) :
    load m' (cellReg s i) = f i := by
  rw [SumiOS.load, cellReg_setWidth hs hi]
  exact h.cells i hi

/-- The words after `n` rounds of `.pte_loop`, from the cell `i` on. -/
def pteCells (f : Nat → BitVec 32) (i n : Nat) (ebx : BitVec 32) : Nat → BitVec 32 := fun j =>
  if i ≤ j ∧ j < i + 2 * n ∧ (j - i) % 2 = 0 then ebx + BitVec.ofNat 32 (4096 * ((j - i) / 2))
  else f j

/-- The first round, and the others: after the store of the first entry the remaining rounds start
an entry further, with the next frame. -/
theorem pteCells_succ : pteCells (Function.update f i ebx) (i + 2) n (ebx + 0x1000)
    = pteCells f i (n + 1) ebx := by
  funext j
  by_cases hfirst : j = i
  · have hin : i ≤ i ∧ i < i + 2 * (n + 1) ∧ (i - i) % 2 = 0 := by omega
    have hout : ¬ (i + 2 ≤ i ∧ i < i + 2 + 2 * n ∧ (i - (i + 2)) % 2 = 0) := by omega
    rw [hfirst, pteCells, pteCells, if_pos hin, if_neg hout, Function.update_self, Nat.sub_self]
    exact (BitVec.add_zero ebx).symm
  · rw [pteCells, pteCells, Function.update_of_ne hfirst]
    by_cases hin : i + 2 ≤ j ∧ j < i + 2 + 2 * n ∧ (j - (i + 2)) % 2 = 0
    · have hin' : i ≤ j ∧ j < i + 2 * (n + 1) ∧ (j - i) % 2 = 0 := by omega
      rw [if_pos hin, if_pos hin']
      have hstep : 4096 * ((j - i) / 2) = 4096 + 4096 * ((j - (i + 2)) / 2) := by omega
      rw [hstep, BitVec.ofNat_add, ← BitVec.add_assoc]
      rfl
    · have hout : ¬ (i ≤ j ∧ j < i + 2 * (n + 1) ∧ (j - i) % 2 = 0) := by omega
      rw [if_neg hin, if_neg hout]

/-- Adding 8 to the register, as the loops over the tables do, moves on by one entry, which is two
cells. -/
theorem cellReg_succ : cellReg s i + 8 = cellReg s (i + 2) := by
  unfold cellReg
  bv_omega

/-- The rest of `.pte_loop`, when `n` rounds are left: it ends, and fills the remaining entries of
its table with consecutive frames. The induction is on the rounds, the counter of the source runs
up to 512. -/
theorem CellsFilled.pteLoop (hs : BootDataPlaced s) (h : CellsFilled s m m' f) (hk : k + n = 512)
    (hn : 0 < n) (hfuel : n ≤ fuel) (hi : i + 2 * n ≤ 15360) :
    ∃ m'', pteLoop fuel m' ebx (cellReg s i) (BitVec.ofNat 32 k)
        = some (m'', ebx + BitVec.ofNat 32 (4096 * n), cellReg s (i + 2 * n)) ∧
      CellsFilled s m m'' (pteCells f i n ebx) := by
  induction n generalizing k i ebx m' f fuel with
  | zero => omega
  | succ n ih =>
      obtain ⟨fuel, rfl⟩ := Nat.exists_eq_succ_of_ne_zero (show fuel ≠ 0 by omega)
      have hstored := h.store hs (i := i) (v := ebx) (by omega)
      have hcount : BitVec.ofNat 32 k + 1 = BitVec.ofNat 32 (k + 1) := (BitVec.ofNat_add k 1).symm
      rw [SumiOS.pteLoop, hcount, cellReg_succ]
      by_cases hlast : n = 0
      · -- The last entry of this table: the counter reaches 512 and the loop ends.
        have hend : BitVec.ofNat 32 (k + 1) = 512 := by
          rw [show k + 1 = 512 by omega]
          rfl
        rw [if_neg (by simp [hend])]
        refine ⟨_, by rw [hlast]; rfl, ?_⟩
        have hcells : pteCells f i (n + 1) ebx = Function.update f i ebx := by
          rw [← pteCells_succ, hlast]
          funext j
          exact if_neg (by omega)
        rwa [hcells]
      · -- More entries follow, one page and one entry further on.
        have hmore : BitVec.ofNat 32 (k + 1) ≠ 512 := by bv_omega
        have hrest : ∃ m'', SumiOS.pteLoop fuel (SumiOS.store m' (cellReg s i) ebx) (ebx + 0x1000)
              (cellReg s (i + 2)) (BitVec.ofNat 32 (k + 1))
            = some (m'', ebx + 0x1000 + BitVec.ofNat 32 (4096 * n), cellReg s (i + 2 + 2 * n)) ∧
            CellsFilled s m m'' (pteCells (Function.update f i ebx) (i + 2) n (ebx + 0x1000)) :=
          ih hstored (by omega) (by omega) (by omega) (by omega)
        obtain ⟨m'', hloop, hfilled⟩ := hrest
        have hframe : ebx + 0x1000 + BitVec.ofNat 32 (4096 * n)
            = ebx + BitVec.ofNat 32 (4096 * (n + 1)) := by bv_omega
        have hindex : i + 2 + 2 * n = i + 2 * (n + 1) := by omega
        rw [if_pos hmore, hloop, hframe, hindex]
        exact ⟨m'', rfl, pteCells_succ ▸ hfilled⟩

/-- The words after the last `n` rounds of `.pt_loop`. -/
def ptCells (s : BitVec 32) (f : Nat → BitVec 32) : Nat → Nat → Nat → BitVec 32
  | 0, _ => f
  | n + 1, t =>
      let f := Function.update f 2045 (cellReg s (5120 + 1024 * t))
      let f := Function.update f (4096 + 2 * t) (cellReg s (5120 + 1024 * t) ||| tableAttr)
      ptCells s (pteCells f (5120 + 1024 * t) 512 (tableAttr + BitVec.ofNat 32 (4096 * (512 * t)))) n
        (t + 1)

/-- The rest of `.pt_loop`, when `n` tables are left: it ends, with all their entries filled. Each
round is one `.pte_loop`, and the test behind it compares with the end of the tables. -/
theorem CellsFilled.ptLoop {t : Nat} (hs : BootDataPlaced s) (h : CellsFilled s m m' f) (ht : t + n = 10)
    (hn : 0 < n) (hfuel : n ≤ fuel) :
    ∃ m'', ptLoop (bootPageTableEnd s) (cellReg s 2046) fuel m' (cellReg s (4096 + 2 * t))
          (tableAttr + BitVec.ofNat 32 (4096 * (512 * t))) (cellReg s (5120 + 1024 * t)) = some m'' ∧
      CellsFilled s m m'' (ptCells s f n t) := by
  induction n generalizing t m' f fuel with
  | zero => omega
  | succ n ih =>
      obtain ⟨fuel, rfl⟩ := Nat.exists_eq_succ_of_ne_zero (show fuel ≠ 0 by omega)
      have hslot : cellReg s 2046 - 4 = cellReg s 2045 := by
        unfold cellReg
        bv_omega
      have hpushed := h.store hs (i := 2045) (v := cellReg s (5120 + 1024 * t)) (by decide)
      have hentry := hpushed.store hs (i := 4096 + 2 * t)
        (v := cellReg s (5120 + 1024 * t) ||| tableAttr) (by omega)
      have hpopped := hentry.load hs (i := 2045) (by decide)
      rw [Function.update_of_ne (by omega), Function.update_self] at hpopped
      -- The inner loop, with the registers that it is entered with.
      have htable : ∃ m₁, SumiOS.pteLoop registerBound
            (SumiOS.store (SumiOS.store m' (cellReg s 2045) (cellReg s (5120 + 1024 * t)))
              (cellReg s (4096 + 2 * t)) (cellReg s (5120 + 1024 * t) ||| tableAttr))
            (tableAttr + BitVec.ofNat 32 (4096 * (512 * t))) (cellReg s (5120 + 1024 * t)) 0
          = some (m₁, tableAttr + BitVec.ofNat 32 (4096 * (512 * t)) + BitVec.ofNat 32 (4096 * 512),
              cellReg s (5120 + 1024 * t + 2 * 512)) ∧ CellsFilled s m m₁ _ :=
        hentry.pteLoop hs (k := 0) (by decide) (by decide) (by unfold registerBound; omega) (by omega)
      obtain ⟨m₁, hloop, hfilled⟩ := htable
      have hframe : tableAttr + BitVec.ofNat 32 (4096 * (512 * t)) + BitVec.ofNat 32 (4096 * 512)
          = tableAttr + BitVec.ofNat 32 (4096 * (512 * (t + 1))) := by bv_omega
      have hnext : 5120 + 1024 * t + 2 * 512 = 5120 + 1024 * (t + 1) := by omega
      have heax : cellReg s (4096 + 2 * t) + 8 = cellReg s (4096 + 2 * (t + 1)) := cellReg_succ
      simp only [SumiOS.ptLoop, hslot, hpopped, hloop, Option.bind_some, hframe, hnext, heax]
      by_cases hlast : n = 0
      · have hend : cellReg s (5120 + 1024 * (t + 1)) = bootPageTableEnd s := by
          rw [show t = 9 by omega]
          rfl
        rw [if_neg (not_not_intro hend), hlast]
        exact ⟨m₁, rfl, hfilled⟩
      · have hmore : cellReg s (5120 + 1024 * (t + 1)) ≠ bootPageTableEnd s := by
          unfold cellReg bootPageTableEnd
          bv_omega
        rw [if_pos hmore]
        exact ih hfilled (by omega) (by omega) (by omega)

/-! ### The words that are left -/

/-- The rounds of `.pte_loop` touch the lower halves of their own entries only, every other word is
the one from before. -/
theorem pteCells_of_not {j : Nat} (h : ¬ (i ≤ j ∧ j < i + 2 * n ∧ (j - i) % 2 = 0)) :
    pteCells f i n ebx j = f j := if_neg h

/-- The words that `.pt_loop` leaves alone: all but its stack slot, the remaining entries of the
table above and the remaining page tables. -/
theorem ptCells_other {t j : Nat} (ht : t + n = 10) (hslot : j ≠ 2045)
    (hpmd : ¬ (4096 + 2 * t ≤ j ∧ j < 4116 ∧ j % 2 = 0))
    (hpt : ¬ (5120 + 1024 * t ≤ j ∧ j < 15360 ∧ j % 2 = 0)) : ptCells s f n t j = f j := by
  induction n generalizing t f with
  | zero => rfl
  | succ n ih =>
      rw [ptCells, ih (by omega) (by omega) (by omega), pteCells_of_not (by omega),
        Function.update_of_ne (by omega), Function.update_of_ne hslot]

/-- The entries of the page tables: the `q`-th entry maps the frame `q`, as each table goes on
where the one before it has ended. -/
theorem ptCells_pt {t q : Nat} (ht : t + n = 10) (hq : 512 * t ≤ q) (hend : q < 5120) :
    ptCells s f n t (5120 + 2 * q) = tableAttr + BitVec.ofNat 32 (4096 * q) := by
  induction n generalizing t f with
  | zero => omega
  | succ n ih =>
      rw [ptCells]
      by_cases hhere : q < 512 * (t + 1)
      · have hin : 5120 + 1024 * t ≤ 5120 + 2 * q ∧ 5120 + 2 * q < 5120 + 1024 * t + 2 * 512 ∧
            (5120 + 2 * q - (5120 + 1024 * t)) % 2 = 0 := by omega
        have hsum : 4096 * (512 * t) + 4096 * ((5120 + 2 * q - (5120 + 1024 * t)) / 2)
            = 4096 * q := by omega
        rw [ptCells_other (by omega) (by omega) (by omega) (by omega), pteCells, if_pos hin,
          BitVec.add_assoc, ← BitVec.ofNat_add, hsum]
      · exact ih (by omega) (by omega)

/-- The entries of the table above them: each refers to its page table, which follow each other. -/
theorem ptCells_pmd {t q : Nat} (ht : t + n = 10) (hq : t ≤ q) (hend : q < 10) :
    ptCells s f n t (4096 + 2 * q) = cellReg s (5120 + 1024 * q) ||| tableAttr := by
  induction n generalizing t f with
  | zero => omega
  | succ n ih =>
      rw [ptCells]
      by_cases hhere : q = t
      · rw [hhere, ptCells_other (by omega) (by omega) (by omega) (by omega),
          pteCells_of_not (by omega), Function.update_self]
      · exact ih (by omega) (by omega)

/-- The memory with the words of the boot loader on the stack. -/
def pushedWords (s : BitVec 32) (m : Mem) (eax ebx : BitVec 32) : Mem :=
  store (store (store m (cellReg s 2047) ebx) (cellReg s 2046) eax) (cellReg s 2045) 0

/-- Its words, when those of `.boot.data` were `f`. -/
def pushedCells (eax ebx : BitVec 32) (f : Nat → BitVec 32) : Nat → BitVec 32 :=
  Function.update (Function.update (Function.update f 2047 ebx) 2046 eax) 2045 0

/-- The memory in front of the loops over the tables. -/
def upperTables (s : BitVec 32) (m : Mem) : Mem :=
  store (store m (cellReg s 2048) (cellReg s 3072 ||| tableAttr)) (cellReg s 3072)
    (cellReg s 4096 ||| tableAttr)

/-- Its words. -/
def upperCells (s eax ebx : BitVec 32) (f : Nat → BitVec 32) : Nat → BitVec 32 :=
  Function.update
    (Function.update (pushedCells eax ebx f) 2048 (cellReg s 3072 ||| tableAttr))
    3072 (cellReg s 4096 ||| tableAttr)

/-- The words of `.boot.data` in the end. -/
def words (s eax ebx : BitVec 32) (m : Mem) : Nat → BitVec 32 :=
  ptCells s (upperCells s eax ebx fun i => cell m (s.setWidth 64) i) 10 0

/-- The memory that `start` leaves: the words of `.boot.data`, the screen, and the rest, which is
as it was. -/
structure Left (s eax ebx : BitVec 32) (m m' : Mem) : Prop where
  cells : ∀ i < 15360, cell m' (s.setWidth 64) i = words s eax ebx m i
  screen : ∀ i < 2000, halfCell m' videoMem i = screenCells i
  other : ∀ x, 61440 ≤ (x - s.setWidth 64).toNat → ¬ OnScreen x → m' x = m x

/-- The screen is in front of `.boot.data`, so clearing it changes no table. -/
theorem BootDataPlaced.off_screen (hs : BootDataPlaced s) {x : Word} (hx : OnScreen x) :
    61440 ≤ (x - s.setWidth 64).toNat := by
  have hbehind := hs.behind
  have hbelow := hs.below
  unfold OnScreen videoMem at hx
  bv_omega

/-- The three pushes at the start put the multiboot2 information, the magic number and a zero into
the top of the boot stack. -/
theorem pushedWords_filled (hs : BootDataPlaced s) (m : Mem) (eax ebx : BitVec 32) :
    CellsFilled s m (pushedWords s m eax ebx)
      (pushedCells eax ebx fun i => cell m (s.setWidth 64) i) := by
  have h₀ : CellsFilled s m m fun i => cell m (s.setWidth 64) i := ⟨fun _ _ => rfl, fun _ _ => rfl⟩
  have h₁ := h₀.store hs (i := 2047) (v := ebx) (by decide)
  have h₂ := h₁.store hs (i := 2046) (v := eax) (by decide)
  exact h₂.store hs (i := 2045) (v := 0) (by decide)

/-- What is written to the screen does not touch the words that were pushed. -/
theorem upperTables_filled (hs : BootDataPlaced s) {m₁ : Mem}
    (hscreen : ScreenFilled (pushedWords s m eax ebx) m₁ screenCells) :
    CellsFilled s m₁ (upperTables s m₁) (upperCells s eax ebx fun i => cell m (s.setWidth 64) i) := by
  have hpushed : CellsFilled s m₁ m₁ (pushedCells eax ebx fun i => cell m (s.setWidth 64) i) := by
    refine ⟨fun i hi => ?_, fun _ _ => rfl⟩
    rw [← (pushedWords_filled hs m eax ebx).cells i hi]
    refine read32_congr fun j hj => hscreen.other _ fun hx => ?_
    -- A byte of a cell is in `.boot.data`.
    have hoff := hs.off_screen hx
    unfold cellAddr at hoff
    bv_omega
  have hroot := hpushed.store hs (i := 2048) (v := cellReg s 3072 ||| tableAttr) (by decide)
  exact hroot.store hs (i := 3072) (v := cellReg s 4096 ||| tableAttr) (by decide)

/-- The labels and the stack pointer as cells of `.boot.data`, so that the whole function is one
chain of stores and loops over cells. -/
theorem start_eq (s : BitVec 32) (m : Mem) (eax ebx : BitVec 32) :
    start s m eax ebx = (clsLoop registerBound (pushedWords s m eax ebx) 0).bind fun m₁ =>
      (ptLoop (bootPageTableEnd s) (cellReg s 2046) registerBound (upperTables s (printLetters m₁))
          (cellReg s 4096) tableAttr (cellReg s 5120)).map fun m' =>
        ⟨m', cellReg s 2048, load m' (cellReg s 2046), load m' (cellReg s 2047)⟩ := by
  have hpush₁ : bootStackTop s - 4 = cellReg s 2047 := by
    unfold bootStackTop cellReg
    bv_omega
  have hpush₂ : bootStackTop s - 8 = cellReg s 2046 := by
    unfold bootStackTop cellReg
    bv_omega
  have hpush₃ : bootStackTop s - 12 = cellReg s 2045 := by
    unfold bootStackTop cellReg
    bv_omega
  have hpop : cellReg s 2046 + 4 = cellReg s 2047 := by
    unfold cellReg
    bv_omega
  have hpgd : bootPageTablePgd s = cellReg s 2048 := rfl
  have hpud : bootPageTablePud s = cellReg s 3072 := rfl
  have hpmd : bootPageTablePmd s = cellReg s 4096 := rfl
  have hpt : bootPageTablePt s = cellReg s 5120 := rfl
  simp only [start, hpush₁, hpush₂, hpush₃, hpop, hpgd, hpud, hpmd, hpt, upperTables, pushedWords]

/-- What `start` leaves: it ends, with the two values of the boot loader in registers and the root
of the new tables in `cr3`, and memory is as `Left` says. -/
theorem start_left (hs : BootDataPlaced s) (m : Mem) (eax ebx : BitVec 32) :
    ∃ e, start s m eax ebx = some e ∧ e.edi = eax ∧ e.esi = ebx ∧ e.cr3 = cellReg s 2048 ∧
      Left s eax ebx m e.mem := by
  obtain ⟨m₁, hcls, hscreen⟩ := screen_filled (pushedWords s m eax ebx)
  have hloop : ∃ m', SumiOS.ptLoop (bootPageTableEnd s) (cellReg s 2046) registerBound
      (upperTables s (printLetters m₁)) (cellReg s 4096) tableAttr (cellReg s 5120) = some m' ∧
      CellsFilled s (printLetters m₁) m' (words s eax ebx m) := by
    have hend := (upperTables_filled hs hscreen).ptLoop hs (n := 10) (t := 0) rfl (by decide)
      (show 10 ≤ registerBound by unfold registerBound; omega)
    simpa [words] using hend
  obtain ⟨m', hloop, hfilled⟩ := hloop
  -- The loops leave the two words on the stack alone.
  have hmagic : load m' (cellReg s 2046) = eax := by
    rw [hfilled.load hs (by decide), words, ptCells_other rfl (by decide) (by decide) (by decide)]
    rfl
  have hinfo : load m' (cellReg s 2047) = ebx := by
    rw [hfilled.load hs (by decide), words, ptCells_other rfl (by decide) (by decide) (by decide)]
    rfl
  refine ⟨⟨m', cellReg s 2048, eax, ebx⟩, ?_, rfl, rfl, rfl, hfilled.cells, fun i hi => ?_,
    fun x hx hoff => ?_⟩
  · rw [start_eq, hcls, Option.bind_some, hloop, Option.map_some, hmagic, hinfo]
  · -- A cell of the screen has two bytes.
    have hbyte : ∀ x, OnScreen x → m' x = printLetters m₁ x := fun x hx =>
      hfilled.other x (hs.off_screen hx)
    rw [← hscreen.cells i hi]
    refine read16_congr (hbyte _ ?_) (hbyte _ ?_)
    · unfold OnScreen halfAddr
      bv_omega
    · unfold OnScreen halfAddr
      bv_omega
  · exact (hfilled.other x hx).trans
      ((hscreen.other x hoff).trans ((pushedWords_filled hs m eax ebx).other x hx))

end

/-! ### The walk -/

section

variable {s : BitVec 32} {m m' : Mem} {c : Nat} {i : BitVec 9}
  {eax ebx : BitVec 32}

/-- The words for the tables are zero before. -/
def ZeroTables (s : BitVec 32) (m : Mem) : Prop :=
  ∀ k, 8192 ≤ k → k < 61440 → m (s.setWidth 64 + BitVec.ofNat 64 k) = 0

/-- In numbers: under `ZeroTables` the words from the cell 2048 on, which become the tables, all
read as zero. -/
theorem ZeroTables.cell (h : ZeroTables s m) {j : Nat} (hj : 2048 ≤ j) (hend : j < 15360) :
    cell m (s.setWidth 64) j = 0 := by
  have hbyte : ∀ k < 4, m (cellAddr (s.setWidth 64) j + BitVec.ofNat 64 k) = 0 := by
    intro k hk
    have hz := h (4 * j + k) (by omega) (by omega)
    rwa [BitVec.ofNat_add, ← BitVec.add_assoc] at hz
  rw [Lib.cell, read32_eq, hbyte 3 (by decide), hbyte 2 (by decide), hbyte 1 (by decide),
    hbyte 0 (by decide)]
  rfl

/-- An entry of a table is a cell, when the next cell is zero. -/
theorem Left.view (h : Left s eax ebx m m') (hend : c + 2 * i.toNat + 1 < 15360)
    (hhigh : words s eax ebx m (c + 2 * i.toNat + 1) = 0) :
    view 0 m' (cellAddr (s.setWidth 64) c) i
      = (words s eax ebx m (c + 2 * i.toNat)).setWidth 64 := by
  have hplace : entryAddr 0 (cellAddr (s.setWidth 64) c) (i.setWidth 64)
      = cellAddr (s.setWidth 64) (c + 2 * i.toNat) := by
    have hi := i.isLt
    unfold entryAddr cellAddr
    bv_omega
  rw [SumiOS.view, hplace, read64_cells (by rw [h.cells _ hend, hhigh]), h.cells _ (by omega)]

/-- A cell at the start of a page is a page. -/
theorem cellAddr_aligned (hs : BootDataPlaced s) (hc : c % 1024 = 0) :
    PageAligned (cellAddr (s.setWidth 64) c) := by
  have haligned := hs.aligned
  have hbelow := hs.below
  rw [pageAligned_iff]
  unfold cellAddr
  bv_omega

/-- An entry for a table, in 64 bits: a table of `.boot.data` lies below 4 GB, so widening keeps
its address. -/
theorem tableEntry_eq (hs : BootDataPlaced s) (hend : c < 15360) :
    (cellReg s c ||| tableAttr).setWidth 64
      = cellAddr (s.setWidth 64) c ||| (PAGE_ATTR_P ||| PAGE_ATTR_RW) := by
  rw [BitVec.setWidth_or, cellReg_setWidth hs hend]
  rfl

/-- The upper half of an entry, and an entry that is not set. -/
theorem words_zero (hz : ZeroTables s m) {j : Nat} (hj : 2048 ≤ j) (hend : j < 15360)
    (hunset : j % 2 = 1 ∨ j ≠ 2048 ∧ j ≠ 3072 ∧ j < 5120 ∧ ¬ (4096 ≤ j ∧ j < 4116)) :
    words s eax ebx m j = 0 := by
  rw [words, ptCells_other rfl (by omega) (by omega) (by omega), upperCells, pushedCells,
    Function.update_of_ne (by omega), Function.update_of_ne (by omega),
    Function.update_of_ne (by omega), Function.update_of_ne (by omega),
    Function.update_of_ne (by omega), hz.cell hj hend]

/-- In the end the first entry of the topmost table points to the PUD table behind it. -/
theorem words_pgd : words s eax ebx m 2048 = cellReg s 3072 ||| tableAttr := by
  rw [words, ptCells_other rfl (by decide) (by decide) (by decide)]
  rfl

/-- The first entry of the PUD table points to the PMD table. -/
theorem words_pud : words s eax ebx m 3072 = cellReg s 4096 ||| tableAttr := by
  rw [words, ptCells_other rfl (by decide) (by decide) (by decide)]
  rfl

/-- The first ten entries of the PMD table point to the ten page tables, one for every 2 MB. -/
theorem words_pmd {t : Nat} (ht : t < 10) :
    words s eax ebx m (4096 + 2 * t) = cellReg s (5120 + 1024 * t) ||| tableAttr :=
  ptCells_pmd rfl (Nat.zero_le t) ht

/-- The entries of the page tables map the first 20 MB one to one, entry `q` the page with that
number. -/
theorem words_pt {q : Nat} (hq : q < 5120) :
    words s eax ebx m (5120 + 2 * q) = tableAttr + BitVec.ofNat 32 (4096 * q) :=
  ptCells_pt rfl (by omega) hq

/-- The entry for the table at a cell. -/
def tableEntry (s : BitVec 32) (c : Nat) : Word :=
  cellAddr (s.setWidth 64) c ||| (PAGE_ATTR_P ||| PAGE_ATTR_RW)

/-- The tables below `boot_page_table_pud`. -/
structure LowTables (s : BitVec 32) (m : Mem) : Prop where
  pud : ∀ i, SumiOS.view 0 m (cellAddr (s.setWidth 64) 3072) i
    = if i.toNat = 0 then tableEntry s 4096 else 0
  pmd : ∀ i, SumiOS.view 0 m (cellAddr (s.setWidth 64) 4096) i
    = if i.toNat < 10 then tableEntry s (5120 + 1024 * i.toNat) else 0
  pt : ∀ t < 10, ∀ i, SumiOS.view 0 m (cellAddr (s.setWidth 64) (5120 + 1024 * t)) i
    = BitVec.ofNat 64 (4096 * (512 * t + i.toNat) + 3)

/-- Of the root, only the first entry is in use. -/
theorem Left.root (h : Left s eax ebx m m') (hs : BootDataPlaced s)
    (hz : ZeroTables s m) (i : BitVec 9) :
    SumiOS.view 0 m' (cellAddr (s.setWidth 64) 2048) i
      = if i.toNat = 0 then tableEntry s 3072 else 0 := by
  have hi := i.isLt
  rw [h.view (by omega) (words_zero hz (by omega) (by omega) (by omega))]
  by_cases h0 : i.toNat = 0
  · rw [if_pos h0, h0, words_pgd, tableEntry_eq hs (by decide)]
    rfl
  · rw [if_neg h0, words_zero hz (by omega) (by omega) (by omega)]
    rfl

/-- The loops fill the tables below the root, and the entries that they leave out are zero. -/
theorem Left.lowTables (h : Left s eax ebx m m') (hs : BootDataPlaced s)
    (hz : ZeroTables s m) : LowTables s m' where
  pud := by
    intro i
    have hi := i.isLt
    rw [h.view (by omega) (words_zero hz (by omega) (by omega) (by omega))]
    -- Entry 0 leads to the only table of the middle level; the others stay zero.
    by_cases h0 : i.toNat = 0
    · rw [if_pos h0, h0, words_pud, tableEntry_eq hs (by decide)]
      rfl
    · rw [if_neg h0, words_zero hz (by omega) (by omega) (by omega)]
      rfl
  pmd := by
    intro i
    have hi := i.isLt
    rw [h.view (by omega) (words_zero hz (by omega) (by omega) (by omega))]
    -- Ten of the entries lead to page tables.
    by_cases hin : i.toNat < 10
    · rw [if_pos hin, words_pmd hin, tableEntry_eq hs (by omega)]
      rfl
    · rw [if_neg hin, words_zero hz (by omega) (by omega) (by omega)]
      rfl
  pt := by
    intro t ht i
    have hi := i.isLt
    have hindex : 5120 + 1024 * t + 2 * i.toNat = 5120 + 2 * (512 * t + i.toNat) := by omega
    rw [h.view (by omega) (words_zero hz (by omega) (by omega) (by omega)), hindex,
      words_pt (by omega)]
    have hattr : tableAttr = 3 := by decide
    rw [hattr]
    bv_omega

/-! ### The walk -/

/-- An entry with its attributes is never empty, so the walks of the boot stage go through it and
create nothing. -/
theorem tableEntry_ne_zero (c : Nat) : tableEntry s c ≠ 0 := or_attr_ne_zero (by decide)

/-- Every entry that `start` writes allows writing. -/
theorem tableEntry_hasRW (c : Nat) : HasRW (tableEntry s c) := hasRW_or.mpr (.inr (by decide))

/-- Masking an entry off its attributes gives back the address of the table, which begins on a
page. -/
theorem tableEntry_and (hs : BootDataPlaced s) (hc : c % 1024 = 0) :
    tableEntry s c &&& PAGE_MASK = cellAddr (s.setWidth 64) c :=
  (cellAddr_aligned hs hc).or_and (by decide)

/-- An index of an address as a number: nine bits from the offset of its level on. -/
theorem indexOf_toNat (offset : Nat) (va : Word) :
    (indexOf offset va).toNat = va.toNat / 2 ^ offset % 512 := by
  rw [indexOf, BitVec.extractLsb'_toNat, Nat.shiftRight_eq_div_pow]

/-- A walk whose inner entries are in use comes to the leaf, whatever is in it. -/
theorem pgtableWalk_of_entries {window root va e₁ e₂ e₃ e₄ : Word}
    (h : walkEntries window m root va = [e₁, e₂, e₃, e₄]) (h₁ : e₁ ≠ 0) (h₂ : e₂ ≠ 0)
    (h₃ : e₃ ≠ 0) : pgtableWalk window m root va = some e₄ := by
  simp only [walkEntries, List.cons.injEq, and_true] at h
  obtain ⟨hpgd, hpud, hpmd, hpte⟩ := h
  simp only [pgtableWalk, hpgd, hpud, hpmd, hpte, if_neg h₁, if_neg h₂, if_neg h₃]

section Low

variable {root va : Word} (h : LowTables s m) (hs : BootDataPlaced s)
  (hroot : SumiOS.view 0 m root 0 = tableEntry s 3072)

include h hs hroot

/-- The entries on the way to a page of the first 20 MB, through a root whose first entry is
that of `boot_page_table_pud`. -/
theorem LowTables.walkEntries_eq (hva : va.toNat % 2 ^ 48 < 0x1400000) :
    walkEntries 0 m root va = [tableEntry s 3072, tableEntry s 4096,
      tableEntry s (5120 + 1024 * (va.toNat / 2 ^ 21 % 512)),
      BitVec.ofNat 64 (va.toNat % 2 ^ 48 / 4096 * 4096 + 3)] := by
  have hpgd : indexOf PGD_OFFSET va = 0 := by
    apply BitVec.eq_of_toNat_eq
    rw [indexOf_toNat]
    show va.toNat / 2 ^ 39 % 512 = 0
    omega
  have hpud : (indexOf PUD_OFFSET va).toNat = 0 := by
    rw [indexOf_toNat]
    show va.toNat / 2 ^ 30 % 512 = 0
    omega
  have hpmd : (indexOf PMD_OFFSET va).toNat = va.toNat / 2 ^ 21 % 512 := indexOf_toNat _ _
  have hpte : (indexOf PTE_OFFSET va).toNat = va.toNat / 2 ^ 12 % 512 := indexOf_toNat _ _
  have hin : va.toNat / 2 ^ 21 % 512 < 10 := by omega
  have hplace : 4096 * (512 * (va.toNat / 2 ^ 21 % 512) + va.toNat / 2 ^ 12 % 512)
      = va.toNat % 2 ^ 48 / 4096 * 4096 := by omega
  -- The entry of each level, and the table that it leads to.
  have hentry₁ : m.read64 (entryAddr 0 root (pgdEntry va)) = tableEntry s 3072 := by
    rw [pgdEntry_eq, hpgd]
    exact hroot
  have htable₁ : nextTable 0 m root (pgdEntry va) = cellAddr (s.setWidth 64) 3072 := by
    rw [nextTable, hentry₁, tableEntry_and hs rfl]
  have hentry₂ : m.read64 (entryAddr 0 (cellAddr (s.setWidth 64) 3072) (pudEntry va))
      = tableEntry s 4096 := by
    rw [pudEntry_eq]
    exact (h.pud _).trans (if_pos hpud)
  have htable₂ : nextTable 0 m (cellAddr (s.setWidth 64) 3072) (pudEntry va)
      = cellAddr (s.setWidth 64) 4096 := by
    rw [nextTable, hentry₂, tableEntry_and hs rfl]
  have hentry₃ : m.read64 (entryAddr 0 (cellAddr (s.setWidth 64) 4096) (pmdEntry va))
      = tableEntry s (5120 + 1024 * (va.toNat / 2 ^ 21 % 512)) := by
    rw [pmdEntry_eq, ← hpmd]
    exact (h.pmd _).trans (if_pos (by rw [hpmd]; exact hin))
  have htable₃ : nextTable 0 m (cellAddr (s.setWidth 64) 4096) (pmdEntry va)
      = cellAddr (s.setWidth 64) (5120 + 1024 * (va.toNat / 2 ^ 21 % 512)) := by
    rw [nextTable, hentry₃, tableEntry_and hs (by omega)]
  have hentry₄ : m.read64 (entryAddr 0 (cellAddr (s.setWidth 64)
      (5120 + 1024 * (va.toNat / 2 ^ 21 % 512))) (pteEntry va))
      = BitVec.ofNat 64 (va.toNat % 2 ^ 48 / 4096 * 4096 + 3) := by
    rw [pteEntry_eq, ← hplace, ← hpte]
    exact h.pt _ hin _
  simp only [walkEntries, hentry₁, htable₁, hentry₂, htable₂, hentry₃, htable₃, hentry₄]

/-- The first 20 MB are mapped to themselves, at every address whose low 48 bits lie there. -/
theorem LowTables.walk_low (hva : va.toNat % 2 ^ 48 < 0x1400000) :
    pgtableWalk 0 m root va = some (BitVec.ofNat 64 (va.toNat % 2 ^ 48 / 4096 * 4096 + 3)) :=
  pgtableWalk_of_entries (h.walkEntries_eq hs hroot hva) (tableEntry_ne_zero _)
    (tableEntry_ne_zero _) (tableEntry_ne_zero _)

/-- The first 20 MB are writable, as all entries on the path allow it. -/
theorem LowTables.writable (hva : va.toNat % 2 ^ 48 < 0x1400000) :
    EffectivelyWritable 0 m root va := by
  have hleaf : HasRW (BitVec.ofNat 64 (va.toNat % 2 ^ 48 / 4096 * 4096 + 3)) := by
    rw [hasRW_iff, BitVec.getLsbD_ofNat, decide_eq_true (by decide), Bool.true_and,
      Nat.testBit_eq_decide_div_mod_eq]
    exact decide_eq_true (by omega)
  rw [EffectivelyWritable, h.walkEntries_eq hs hroot hva]
  simp only [List.forall_mem_cons, tableEntry_hasRW, true_and]
  exact ⟨hleaf, fun e he => absurd he List.not_mem_nil⟩

/-- Behind the first 20 MB, up to the second root entry, nothing is mapped. -/
theorem LowTables.walk_high (hva : 0x1400000 ≤ va.toNat % 2 ^ 48)
    (htop : va.toNat % 2 ^ 48 < 2 ^ 39) : pgtableWalk 0 m root va = none := by
  have hpgd : indexOf PGD_OFFSET va = 0 := by
    apply BitVec.eq_of_toNat_eq
    rw [indexOf_toNat]
    show va.toNat / 2 ^ 39 % 512 = 0
    omega
  have hentry₁ : m.read64 (entryAddr 0 root (pgdEntry va)) = tableEntry s 3072 := by
    rw [pgdEntry_eq, hpgd]
    exact hroot
  have htable₁ : nextTable 0 m root (pgdEntry va) = cellAddr (s.setWidth 64) 3072 := by
    rw [nextTable, hentry₁, tableEntry_and hs rfl]
  simp only [pgtableWalk, hentry₁, htable₁, if_neg (tableEntry_ne_zero _)]
  -- In the first gigabyte the walk gets as far as the middle level, elsewhere it ends before.
  by_cases hu : va.toNat / 2 ^ 30 % 512 = 0
  · have hentry₂ : m.read64 (entryAddr 0 (cellAddr (s.setWidth 64) 3072) (pudEntry va))
        = tableEntry s 4096 := by
      rw [pudEntry_eq]
      exact (h.pud _).trans (if_pos ((indexOf_toNat _ _).trans hu))
    have htable₂ : nextTable 0 m (cellAddr (s.setWidth 64) 3072) (pudEntry va)
        = cellAddr (s.setWidth 64) 4096 := by
      rw [nextTable, hentry₂, tableEntry_and hs rfl]
    have hentry₃ : m.read64 (entryAddr 0 (cellAddr (s.setWidth 64) 4096) (pmdEntry va)) = 0 := by
      rw [pmdEntry_eq]
      refine (h.pmd _).trans (if_neg ?_)
      rw [indexOf_toNat]
      show ¬ va.toNat / 2 ^ 21 % 512 < 10
      omega
    simp only [hentry₂, htable₂, hentry₃, if_neg (tableEntry_ne_zero _), if_true]
  · have hentry₂ : m.read64 (entryAddr 0 (cellAddr (s.setWidth 64) 3072) (pudEntry va)) = 0 := by
      rw [pudEntry_eq]
      refine (h.pud _).trans (if_neg ?_)
      rw [indexOf_toNat]
      exact hu
    rw [if_pos hentry₂]

end Low

end

/-- The code of `boot.S` ends. Its page table maps the first 20 MB to themselves, writable,
and no other address; the two words of the boot loader are handed on; the screen is cleared
and has its eight letters; and the memory outside of `.boot.data` and of the screen is as it
was. -/
theorem start_identity (bootStack : BitVec 32) (hs : BootDataPlaced bootStack) (m : Mem)
    (hz : ZeroTables bootStack m) (eax ebx : BitVec 32) :
    ∃ e, start bootStack m eax ebx = some e ∧ e.edi = eax ∧ e.esi = ebx ∧
      (∀ va, pgtableWalk 0 e.mem (e.cr3.setWidth 64) va =
        if va.toNat % 2 ^ 48 < 0x1400000 then
          some (BitVec.ofNat 64 (va.toNat % 2 ^ 48 / 4096 * 4096 + 3))
        else none) ∧
      (∀ va, va.toNat % 2 ^ 48 < 0x1400000 →
        EffectivelyWritable 0 e.mem (e.cr3.setWidth 64) va) ∧
      (∀ i < 2000, halfCell e.mem videoMem i = screenCells i) ∧
      ∀ x, 61440 ≤ (x - bootStack.setWidth 64).toNat → ¬ OnScreen x → e.mem x = m x := by
  obtain ⟨e, hstart, hedi, hesi, hcr3, hleft⟩ := start_left hs m eax ebx
  have hlow := hleft.lowTables hs hz
  have hroot := hleft.root hs hz
  have hcr3 : e.cr3.setWidth 64 = cellAddr (bootStack.setWidth 64) 2048 := by
    rw [hcr3]
    exact cellReg_setWidth hs (by decide)
  refine ⟨e, hstart, hedi, hesi, fun va => ?_, fun va hva => ?_, hleft.screen, hleft.other⟩
  all_goals rw [hcr3]
  swap
  · exact hlow.writable hs (hroot 0) hva
  -- Twenty megabytes are mapped. Above them the walk ends below root entry 0, or at the root.
  by_cases hva : va.toNat % 2 ^ 48 < 0x1400000
  · rw [if_pos hva]
    exact hlow.walk_low hs (hroot 0) hva
  · rw [if_neg hva]
    by_cases htop : va.toNat % 2 ^ 48 < 2 ^ 39
    · exact hlow.walk_high hs (hroot 0) (Nat.le_of_not_lt hva) htop
    · -- The other entries of the root are zero.
      have hzero := hroot (indexOf PGD_OFFSET va)
      rw [if_neg (by rw [indexOf_toNat]; show ¬ va.toNat / 2 ^ 39 % 512 = 0; omega)] at hzero
      rw [pgtableWalk, pgdEntry_eq]
      exact if_pos hzero

/-- With `.boot.data` in the second page of the image: the information of the boot loader at
`0x9500` is kept, an address in the second megabyte is mapped, and the first letter is on the
screen. -/
theorem start_identity_one :
    ∃ e, start 0x101000 (fun _ => 0) 0x36d76289 0x9500 = some e ∧ e.esi = 0x9500 ∧
      pgtableWalk 0 e.mem (e.cr3.setWidth 64) 0x123456 = some 0x123003 ∧
      halfCell e.mem videoMem 0 = 0x2F61 ∧ e.mem 0x9500 = 0 := by
  obtain ⟨e, hstart, -, hesi, hwalk, -, hscreen, hother⟩ := start_identity 0x101000
    ⟨by decide, by decide, by decide⟩ (fun _ => 0) (fun _ _ _ => rfl) 0x36d76289 0x9500
  exact ⟨e, hstart, hesi, (hwalk 0x123456).trans (by decide), hscreen 0 (by decide),
    hother 0x9500 (by decide) (by decide)⟩

end SumiOS
