import SumiOS.Lib.Block
import Mathlib.Data.List.Chain
import Mathlib.Data.List.Pairwise
import Mathlib.Data.Nat.BitIndices

/-!
# `SumiOS.Lib.Counter`: tiling an ascending list of frames

`carry` adds a block to a stack of blocks, the newest first, as a binary
counter adds one: while the top of the stack is the block directly in front and
has the same order, the two become one block of the next order, up to the order
`cap`. `tiles` feeds it the frames of an ascending list, one by one.

* `Stack` is the invariant of the stack: the blocks do not overlap, and two
  adjacent ones have decreasing orders (or both have the largest order).
* `covers_carry` and `covers_tilesFrom`: the tiles cover the frames of the list
  and nothing else.
* `Stack.exists_gap`: a tile whose distance to a block is the size of that
  block, and which is not the one `carry` would take, has a frame behind it
  that no tile covers.
* `Contig` and `Aligned`: the tiles of one contiguous run of frames are
  adjacent, and aligned relative to the first frame.
* `Contig.eq_layFrom_digits`: the orders of these tiles, from the first frame
  on, are the binary digits of the length of the run.
-/

set_option autoImplicit false

namespace Lib

/-- Add the block `c`, behind all blocks of the stack. -/
def carry (cap : Nat) (c : Block) : List Block → List Block
  | [] => [c]
  | d :: ds =>
      if c.order < cap ∧ d.order = c.order ∧ d.start + 2 ^ d.order = c.start then
        carry cap ⟨d.start, c.order + 1⟩ ds
      else c :: d :: ds

/-- The stack after the frames of `xs` were added to `ds`. -/
def tilesFrom (cap : Nat) (ds : List Block) (xs : List Int) : List Block :=
  xs.foldl (fun ds x => carry cap ⟨x, 0⟩ ds) ds

/-- The tiles of an ascending list of frames. -/
def tiles (cap : Nat) (xs : List Int) : List Block := tilesFrom cap [] xs

/-- Some block of the stack contains the frame. -/
def Covers (ds : List Block) (y : Int) : Prop := ∃ d ∈ ds, y ∈ d.frames

/-- What holds of a block `c` and the next older block `d`. -/
def Behind (cap : Nat) (c d : Block) : Prop :=
  d.start + 2 ^ d.order ≤ c.start ∧
    (d.start + 2 ^ d.order = c.start → c.order < d.order ∨ d.order = cap)

/-- The invariant of the stack, all of whose blocks end at or before `e`. -/
structure Stack (cap : Nat) (ds : List Block) (e : Int) : Prop where
  chain : ds.IsChain (Behind cap)
  order_le : ∀ d ∈ ds, d.order ≤ cap
  top : ∀ d ∈ ds.head?, d.start + 2 ^ d.order ≤ e

section Carry

variable {cap : Nat} {c d : Block} {ds : List Block} {e y : Int}

/-- A block meets a neighbour of its own size in front of it, and the two carry over into one block
of the next order. -/
theorem carry_merge (h : c.order < cap) (hd : d.order = c.order)
    (ha : d.start + 2 ^ d.order = c.start) :
    carry cap c (d :: ds) = carry cap ⟨d.start, c.order + 1⟩ ds := if_pos ⟨h, hd, ha⟩

/-- Otherwise nothing carries, and the block is put on top of the stack as it is. -/
theorem carry_stop (h : ¬ (c.order < cap ∧ d.order = c.order ∧ d.start + 2 ^ d.order = c.start)) :
    carry cap c (d :: ds) = c :: d :: ds := if_neg h

/-- The empty stack satisfies the invariant, with whatever end. -/
theorem stack_nil (cap : Nat) (e : Int) : Stack cap [] e where
  chain := .nil
  order_le _ hd := absurd hd List.not_mem_nil
  top d hd := by simp at hd

/-- Without its top the stack still satisfies the invariant, and ends where the top began. -/
theorem Stack.tail (h : Stack cap (d :: ds) e) : Stack cap ds d.start where
  chain := h.chain.tail
  order_le b hb := h.order_le b (List.mem_cons_of_mem _ hb)
  top b hb := by
    have hc := h.chain
    rw [List.isChain_cons] at hc
    exact (hc.1 b hb).1

/-- Every block of the stack ends at or before `e`. -/
theorem Stack.end_le (h : Stack cap ds e) : ∀ d ∈ ds, d.start + 2 ^ d.order ≤ e := by
  induction ds generalizing e with
  | nil => exact fun d hd => absurd hd List.not_mem_nil
  | cons b ds ih =>
      have hb := h.top b rfl
      intro d hd
      rcases List.mem_cons.mp hd with rfl | hd
      · exact hb
      · have := ih h.tail d hd
        have := Block.two_pow_pos b.order
        omega

/-- The blocks of the stack do not overlap, because each lies behind all the older ones. -/
theorem Stack.apart (h : Stack cap ds e) : ds.Pairwise Block.Apart := by
  induction ds generalizing e with
  | nil => exact List.Pairwise.nil
  | cons b ds ih =>
      exact List.pairwise_cons.mpr ⟨fun d hd => Or.inr (h.tail.end_le d hd), ih h.tail⟩

/-- Two blocks of the stack with the same start are the same block. -/
theorem Stack.eq_of_start (h : Stack cap ds e) {c d : Block} (hc : c ∈ ds) (hd : d ∈ ds)
    (he : c.start = d.start) : c = d := by
  by_contra hne
  have hap := h.apart.forall hc hd hne
  exact Block.not_apart_of_start_mem (he ▸ c.start_mem) hap

/-- What the stack covers after a block was added: the frames of the block and those from before.
Carrying merges blocks and loses no frame. -/
theorem covers_carry : Covers (carry cap c ds) y ↔ y ∈ c.frames ∨ Covers ds y := by
  induction ds generalizing c with
  | nil => simp [carry, Covers]
  | cons d ds ih =>
      by_cases h : c.order < cap ∧ d.order = c.order ∧ d.start + 2 ^ d.order = c.start
      · obtain ⟨h1, h2, h3⟩ := h
        have hd : Block.mk d.start c.order = d := by rw [← h2]
        have hc : Block.mk (d.start + 2 ^ c.order) c.order = c := by rw [← h2, h3, h2]
        have hcons : Covers (d :: ds) y ↔ y ∈ d.frames ∨ Covers ds y := by simp [Covers]
        rw [carry_merge h1 h2 h3, ih, Block.frames_succ, hd, hc, hcons, Set.mem_union]
        tauto
      · rw [carry_stop h]
        simp [Covers]

/-- Adding a block keeps the stack, when the block is behind it and not larger
than an adjacent top. -/
theorem Stack.carry (h : Stack cap ds c.start) (hcap : c.order ≤ cap)
    (htop : ∀ d ∈ ds.head?, d.start + 2 ^ d.order = c.start → c.order ≤ d.order) :
    Stack cap (carry cap c ds) (c.start + 2 ^ c.order) := by
  induction ds generalizing c with
  | nil =>
      refine ⟨.singleton c, fun d hd => ?_, fun d hd => ?_⟩
      · rw [List.mem_singleton.mp hd]
        exact hcap
      · rw [Option.mem_some.mp hd]
  | cons d ds ih =>
      by_cases hm : c.order < cap ∧ d.order = c.order ∧ d.start + 2 ^ d.order = c.start
      · obtain ⟨h1, h2, h3⟩ := hm
        -- The merged block ends where the added one does.
        have hend : c.start + 2 ^ c.order = d.start + 2 ^ (c.order + 1) := by
          rw [← h3, h2, Block.two_pow_succ]
          omega
        rw [carry_merge h1 h2 h3, hend]
        refine ih (c := ⟨d.start, c.order + 1⟩) h.tail h1 fun b hb hadj => ?_
        have hc := h.chain
        rw [List.isChain_cons] at hc
        rcases (hc.1 b hb).2 hadj with hlt | hb
        · show c.order + 1 ≤ b.order
          omega
        · show c.order + 1 ≤ b.order
          omega
      · rw [carry_stop hm]
        refine ⟨?_, fun b hb => ?_, fun b hb => ?_⟩
        · rw [List.isChain_cons_cons]
          refine ⟨⟨h.top d rfl, fun hadj => ?_⟩, h.chain⟩
          -- An adjacent top that was not merged is larger.
          have := htop d rfl hadj
          have := h.order_le d List.mem_cons_self
          omega
        · rcases List.mem_cons.mp hb with rfl | hb
          · exact hcap
          · exact h.order_le b hb
        · rw [Option.mem_some.mp hb]

/-- Adding a frame behind all blocks keeps the stack in order, whatever it is merged with. -/
theorem Stack.push (h : Stack cap ds e) {x : Int} (hex : e ≤ x) :
    Stack cap (Lib.carry cap ⟨x, 0⟩ ds) (x + 1) := by
  have hx : Stack cap ds x := ⟨h.chain, h.order_le, fun d hd => (h.top d hd).trans hex⟩
  have h' := Stack.carry (c := ⟨x, 0⟩) hx (Nat.zero_le cap) fun d _ _ => Nat.zero_le d.order
  simpa using h'

/-- What the stack covers after the frames of a list were added. -/
theorem covers_tilesFrom (xs : List Int) (ds : List Block) :
    Covers (tilesFrom cap ds xs) y ↔ y ∈ xs ∨ Covers ds y := by
  induction xs generalizing ds with
  | nil => simp [tilesFrom]
  | cons x xs ih =>
      have hx : y ∈ (Block.mk x 0).frames ↔ y = x := by
        rw [Block.mem_mk, pow_zero]
        omega
      show Covers (tilesFrom cap (Lib.carry cap ⟨x, 0⟩ ds) xs) y ↔ _
      rw [ih, covers_carry, hx, List.mem_cons]
      tauto

/-! ### The gap behind a tile at the wrong distance -/

/-- When the frames from a tile `f` to the end of the top `g` are all covered,
they are fewer than twice those of `f`: the tiles between have smaller and
smaller orders. -/
theorem Stack.span_le {f g : Block} (h : Stack cap (g :: ds) e) (hf : f ∈ g :: ds)
    (hcap : f.order < cap)
    (hcov : ∀ y, f.start ≤ y → y < g.start + 2 ^ g.order → Covers (g :: ds) y) :
    g.order ≤ f.order ∧
      g.start + 2 ^ g.order - f.start ≤ 2 ^ (f.order + 1) - 2 ^ g.order := by
  induction ds generalizing g e with
  | nil =>
      obtain rfl := List.mem_singleton.mp hf
      exact ⟨Nat.le_refl _, by rw [Block.two_pow_succ]; omega⟩
  | cons g' ds ih =>
      rcases List.mem_cons.mp hf with rfl | hf
      · exact ⟨Nat.le_refl _, by rw [Block.two_pow_succ]; omega⟩
      · have hg := Block.two_pow_pos g.order
        have hg' := Block.two_pow_pos g'.order
        have hle : g'.start + 2 ^ g'.order ≤ g.start := h.tail.top g' rfl
        have hfend := h.tail.end_le f hf
        have hfpos := Block.two_pow_pos f.order
        -- Below the start of `g`, it is the rest of the stack that covers.
        have hcov' : ∀ y, f.start ≤ y → y < g.start → Covers (g' :: ds) y := by
          intro y h1 h2
          obtain ⟨b, hb, hy⟩ := hcov y h1 (by omega)
          rcases List.mem_cons.mp hb with rfl | hb
          · rw [Block.mem_frames] at hy
            omega
          · exact ⟨b, hb, hy⟩
        obtain ⟨hord, hspan⟩ := ih h.tail hf fun y h1 h2 => hcov' y h1 (by omega)
        have hadj : g'.start + 2 ^ g'.order = g.start := by
          by_contra hne
          have hf' : f.start ≤ g'.start + 2 ^ g'.order := by
            have := (Stack.end_le (e := g'.start + 2 ^ g'.order)
              ⟨h.tail.chain, h.tail.order_le, fun b hb => by
                rw [Option.mem_some.mp hb]⟩) f hf
            omega
          obtain ⟨b, hb, hy⟩ := hcov' (g'.start + 2 ^ g'.order) hf' (by omega)
          have hend := (Stack.end_le (e := g'.start + 2 ^ g'.order)
            ⟨h.tail.chain, h.tail.order_le, fun b hb => by rw [Option.mem_some.mp hb]⟩) b hb
          rw [Block.mem_frames] at hy
          omega
        have hc := h.chain
        rw [List.isChain_cons_cons] at hc
        have hlt : g.order < g'.order := by
          rcases hc.1.2 hadj with hlt | heq
          · exact hlt
          · omega
        have hpow := Block.two_pow_le (Nat.succ_le_of_lt hlt)
        rw [Nat.succ_eq_add_one, Block.two_pow_succ] at hpow
        exact ⟨by omega, by omega⟩

/-- A tile `f` at distance `2 ^ o` in front of `p` that is not the top of order
`o` adjacent to `p` has an uncovered frame between itself and `p`. -/
theorem Stack.exists_gap {f : Block} {p : Int} {o : Nat} (h : Stack cap ds p) (ho : o < cap)
    (hf : f ∈ ds) (hdist : f.start = p - 2 ^ o)
    (hnot : ∀ d ∈ ds.head?, ¬ (d.order = o ∧ d.start + 2 ^ d.order = p)) :
    ∃ y, f.start ≤ y ∧ y < p ∧ ¬ Covers ds y := by
  by_contra hall
  push Not at hall
  cases ds with
  | nil => exact absurd hf List.not_mem_nil
  | cons g ds =>
      have hgpos := Block.two_pow_pos g.order
      have hg := h.top g rfl
      -- The top ends at `p`: its end would be an uncovered frame otherwise.
      have hgp : g.start + 2 ^ g.order = p := by
        by_contra hne
        have hself : Stack cap (g :: ds) (g.start + 2 ^ g.order) :=
          ⟨h.chain, h.order_le, fun b hb => by rw [Option.mem_some.mp hb]⟩
        have hfend := hself.end_le f hf
        have hfpos := Block.two_pow_pos f.order
        obtain ⟨b, hb, hy⟩ := hall (g.start + 2 ^ g.order) (by omega) (by omega)
        have := hself.end_le b hb
        rw [Block.mem_frames] at hy
        omega
      rcases List.mem_cons.mp hf with rfl | hf'
      · refine hnot f rfl ⟨Block.two_pow_inj ?_, hgp⟩
        omega
      · have hfle := h.tail.end_le f hf'
        have hfo : f.order < o := by
          rw [← Block.two_pow_lt_iff]
          omega
        obtain ⟨-, hspan⟩ := h.span_le hf (by omega) fun y h1 h2 => hall y h1 (by omega)
        have := Block.two_pow_le (Nat.succ_le_of_lt hfo)
        rw [Nat.succ_eq_add_one] at this
        omega

end Carry

/-! ### Lists without a merge across a gap -/

/-- The block on top of the stack, if it can still grow, is not at a distance
of its own size behind the start of another one. -/
def TopFits (cap : Nat) : List Block → Prop
  | [] => True
  | c :: ds => c.order < cap → ∀ d ∈ ds, d.start ≠ c.start - 2 ^ c.order

/-- The top fits after every frame that is added. -/
def Separated (cap : Nat) : List Block → List Int → Prop
  | _, [] => True
  | ds, x :: xs => TopFits cap (carry cap ⟨x, 0⟩ ds) ∧ Separated cap (carry cap ⟨x, 0⟩ ds) xs

instance TopFits.decidable (cap : Nat) : ∀ ds : List Block, Decidable (TopFits cap ds)
  | [] => isTrue trivial
  | c :: ds =>
      inferInstanceAs (Decidable (c.order < cap → ∀ d ∈ ds, d.start ≠ c.start - 2 ^ c.order))

instance Separated.decidable (cap : Nat) :
    ∀ (ds : List Block) (xs : List Int), Decidable (Separated cap ds xs)
  | _, [] => isTrue trivial
  | ds, x :: xs =>
      have := Separated.decidable cap (carry cap ⟨x, 0⟩ ds) xs
      inferInstanceAs (Decidable (_ ∧ _))

/-- The result of `carry`: a top that ends where the added block ends, over the
part of the stack that it was not merged with, and not adjacent to a top of its
own order there. -/
theorem carry_eq_cons (cap : Nat) (c : Block) (ds : List Block) :
    ∃ t rest, carry cap c ds = t :: rest ∧ rest <:+ ds ∧
      t.start + 2 ^ t.order = c.start + 2 ^ c.order ∧
      ∀ d ∈ rest.head?,
        ¬ (t.order < cap ∧ d.order = t.order ∧ d.start + 2 ^ d.order = t.start) := by
  induction ds generalizing c with
  | nil => exact ⟨c, [], rfl, List.suffix_refl _, rfl, fun d hd => by simp at hd⟩
  | cons d ds ih =>
      by_cases h : c.order < cap ∧ d.order = c.order ∧ d.start + 2 ^ d.order = c.start
      · obtain ⟨h1, h2, h3⟩ := h
        obtain ⟨t, rest, ht, hsuf, hend, hstop⟩ := ih ⟨d.start, c.order + 1⟩
        refine ⟨t, rest, (carry_merge h1 h2 h3).trans ht,
          hsuf.trans (List.suffix_cons d ds), hend.trans ?_, hstop⟩
        show d.start + 2 ^ (c.order + 1) = _
        rw [← h3, h2, Block.two_pow_succ]
        omega
      · refine ⟨c, d :: ds, carry_stop h, List.suffix_refl _, rfl, fun b hb => ?_⟩
        obtain rfl := Option.mem_some.mp hb
        exact h

/-! ### One contiguous run -/

/-- The blocks of the stack fill the frames from `s` to `e`. -/
def Contig (s : Int) : Int → List Block → Prop
  | e, [] => e = s
  | e, d :: ds => d.start + 2 ^ d.order = e ∧ Contig s d.start ds

/-- Relative to `s`, a block below the largest order is the first half of a
block of the next order. -/
def Aligned (cap : Nat) (s : Int) (d : Block) : Prop :=
  (d.order < cap → (2 : Int) ^ (d.order + 1) ∣ d.start - s) ∧
    (2 : Int) ^ d.order ∣ d.start - s

section Contig

variable {cap : Nat} {s e : Int} {c : Block} {ds : List Block}

/-- A contiguous stack ends no earlier than it starts. -/
theorem Contig.le : ∀ {ds : List Block} {e : Int}, Contig s e ds → s ≤ e
  | [], e, h => le_of_eq h.symm
  | d :: ds, e, h => by
      have := h.2.le
      have := Block.two_pow_pos d.order
      have := h.1
      omega

/-- A contiguous stack covers the frames from `s` to `e`, all of them and no others, by induction
on its blocks. -/
theorem Contig.covers_iff {y : Int} :
    ∀ {ds : List Block} {e : Int}, Contig s e ds → (Covers ds y ↔ s ≤ y ∧ y < e)
  | [], e, h => by
      have he : e = s := h
      exact iff_of_false (fun ⟨d, hd, _⟩ => absurd hd List.not_mem_nil) (by omega)
  | d :: ds, e, h => by
      have hrest := h.2.covers_iff (y := y)
      have hend := h.1
      have hle := h.2.le
      have hpos := Block.two_pow_pos d.order
      have hcons : Covers (d :: ds) y ↔ y ∈ d.frames ∨ Covers ds y := by simp [Covers]
      rw [hcons, hrest, Block.mem_frames]
      omega

/-- Adding a block where the stack ends keeps the stack contiguous, however far the carry goes. -/
theorem Contig.carry (h : Contig s c.start ds) :
    Contig s (c.start + 2 ^ c.order) (carry cap c ds) := by
  induction ds generalizing c with
  | nil => exact ⟨rfl, h⟩
  | cons d ds ih =>
      by_cases hm : c.order < cap ∧ d.order = c.order ∧ d.start + 2 ^ d.order = c.start
      · obtain ⟨h1, h2, h3⟩ := hm
        have hend : c.start + 2 ^ c.order = d.start + 2 ^ (c.order + 1) := by
          rw [← h3, h2, Block.two_pow_succ]
          omega
        rw [carry_merge h1 h2 h3, hend]
        exact ih (c := ⟨d.start, c.order + 1⟩) h.2
      · rw [carry_stop hm]
        exact ⟨rfl, h⟩

/-- The tiles of a contiguous run are aligned relative to its start. The induction is on the stack:
each carry doubles a block whose start is a multiple of its size, so the sum starts at a multiple
of the doubled size. -/
theorem Contig.aligned_carry (h : Contig s c.start ds) (hst : Stack cap ds c.start)
    (hal : ∀ d ∈ ds, Aligned cap s d) (hc : (2 : Int) ^ c.order ∣ c.start - s)
    (htop : ∀ d ∈ ds.head?, c.order ≤ d.order) :
    ∀ d ∈ Lib.carry cap c ds, Aligned cap s d := by
  induction ds generalizing c with
  | nil =>
      have hs : c.start = s := h
      intro d hd
      obtain rfl := List.mem_singleton.mp hd
      exact ⟨fun _ => by simp [hs], hc⟩
  | cons d ds ih =>
      have hd := hal d List.mem_cons_self
      by_cases hm : c.order < cap ∧ d.order = c.order ∧ d.start + 2 ^ d.order = c.start
      · obtain ⟨h1, h2, h3⟩ := hm
        rw [carry_merge h1 h2 h3]
        refine ih (c := ⟨d.start, c.order + 1⟩) h.2 hst.tail
          (fun b hb => hal b (List.mem_cons_of_mem _ hb)) ?_ fun b hb => ?_
        · have := hd.1 (by omega)
          rwa [h2] at this
        · have hchain := hst.chain
          rw [List.isChain_cons] at hchain
          have hadj : b.start + 2 ^ b.order = d.start := by
            cases ds with
            | nil => simp at hb
            | cons b' ds =>
                obtain rfl := Option.mem_some.mp hb
                exact h.2.1
          show c.order + 1 ≤ b.order
          rcases (hchain.1 b hb).2 hadj with hlt | heq <;> omega
      · rw [carry_stop hm]
        intro b hb
        rcases List.mem_cons.mp hb with rfl | hb
        · refine ⟨fun hlt => ?_, hc⟩
          -- The adjacent top has a larger order, so both its start and its size
          -- are multiples of the next order.
          have hle := htop d rfl
          have hlt' : b.order + 1 ≤ d.order := by
            have hne : d.order ≠ b.order := fun e => hm ⟨hlt, e, h.1⟩
            omega
          have h1 := (pow_dvd_pow (2 : Int) hlt').trans hd.2
          have h2 := pow_dvd_pow (2 : Int) hlt'
          have heq : b.start - s = (d.start - s) + 2 ^ d.order := by
            have := h.1
            omega
          rw [heq]
          exact Int.dvd_add h1 h2
        · exact hal b hb

/-- The top of a contiguous stack fits: if another block started in front of it at the distance of
its own size, there would be a frame between the two that no block covers. -/
theorem Contig.topFits {x : Int} (h : Contig s x ds) (hst : Stack cap ds x) :
    TopFits cap (Lib.carry cap ⟨x, 0⟩ ds) := by
  have hst' := hst.push (le_refl x)
  have h' : Contig s (x + 2 ^ 0) (Lib.carry cap ⟨x, 0⟩ ds) := Contig.carry (c := ⟨x, 0⟩) h
  obtain ⟨t, rest, ht, -, -, hstop⟩ := carry_eq_cons cap ⟨x, 0⟩ ds
  rw [ht] at hst' h' ⊢
  intro hlt f hf hdist
  obtain ⟨y, hy1, hy2, hy3⟩ := hst'.tail.exists_gap hlt hf hdist
    fun d hd hd' => hstop d hd ⟨hlt, hd'⟩
  -- The frames up to the top are covered, from `s` on.
  have hs : s ≤ f.start := ((h'.2.covers_iff).mp ⟨f, hf, f.start_mem⟩).1
  exact hy3 (h'.2.covers_iff.mpr ⟨by omega, hy2⟩)

/-- The frames `s, …, s + n - 1` leave a contiguous, aligned stack, and fit. -/
theorem contig_run (n : Nat) :
    ∀ {ds : List Block} {x : Int}, Contig s x ds → Stack cap ds x →
      (∀ d ∈ ds, Aligned cap s d) →
      Separated cap ds ((List.range n).map fun i : Nat => x + (i : Int)) ∧
        Contig s (x + n) (tilesFrom cap ds ((List.range n).map fun i : Nat => x + (i : Int))) ∧
        ∀ d ∈ tilesFrom cap ds ((List.range n).map fun i : Nat => x + (i : Int)), Aligned cap s d := by
  induction n with
  | zero =>
      intro ds x h _ hal
      exact ⟨trivial, by simpa [tilesFrom] using h, by simpa [tilesFrom] using hal⟩
  | succ n ih =>
      intro ds x h hst hal
      -- The first frame is added, and the others are a run from the next one on.
      have hlist : (List.range (n + 1)).map (fun i : Nat => x + (i : Int))
          = x :: (List.range n).map fun i : Nat => x + 1 + (i : Int) := by
        rw [List.range_succ_eq_map, List.map_cons, List.map_map]
        refine congrArg₂ List.cons (by simp) (List.map_congr_left fun i _ => ?_)
        simp only [Function.comp, Nat.cast_succ]
        omega
      have h' : Contig s (x + 1) (Lib.carry cap ⟨x, 0⟩ ds) := by
        simpa using Contig.carry (c := ⟨x, 0⟩) h
      have hal' : ∀ d ∈ Lib.carry cap ⟨x, 0⟩ ds, Aligned cap s d :=
        Contig.aligned_carry (c := ⟨x, 0⟩) h hst hal (by simp) fun d _ => Nat.zero_le d.order
      obtain ⟨h1, h2, h3⟩ := ih h' (hst.push (le_refl x)) hal'
      rw [hlist]
      refine ⟨⟨h.topFits hst, h1⟩, ?_, h3⟩
      have hx : x + ((n + 1 : Nat) : Int) = x + 1 + n := by
        rw [Nat.cast_succ]
        omega
      rw [hx]
      exact h2

end Contig

/-! ### The digits of a length -/

/-- Blocks of the given orders, one behind the other from `s` on. -/
def layFrom (s : Int) : List Nat → List Block
  | [] => []
  | k :: ks => ⟨s, k⟩ :: layFrom (s + 2 ^ k) ks

/-- The orders of the blocks that make up `n` frames, the largest first: as many
of order `cap` as fit, then one for each set bit of the rest. -/
def digits (cap n : Nat) : List Nat :=
  List.replicate (n / 2 ^ cap) cap ++ (n % 2 ^ cap).bitIndices.reverse

/-- The number of frames in blocks of the given orders. -/
def frameCount (ks : List Nat) : Nat := (ks.map (2 ^ ·)).sum

section Digits

variable {cap : Nat} {s e : Int} {ds : List Block}

/-- No blocks make up no frames. -/
@[simp] theorem frameCount_nil : frameCount [] = 0 := rfl

/-- The first block adds the frames of its order to those of the rest. -/
@[simp] theorem frameCount_cons (k : Nat) (ks : List Nat) :
    frameCount (k :: ks) = 2 ^ k + frameCount ks := by
  simp [frameCount]

/-- The frames of two lists of blocks add up. -/
@[simp] theorem frameCount_append (as bs : List Nat) :
    frameCount (as ++ bs) = frameCount as + frameCount bs := by
  simp [frameCount]

/-- Equal blocks make up a multiple of the frames of one. -/
@[simp] theorem frameCount_replicate (m k : Nat) :
    frameCount (List.replicate m k) = m * 2 ^ k := by
  simp [frameCount]

/-- Laying out two lists of blocks one behind the other: the second starts where the frames of the
first end. -/
theorem layFrom_append (as bs : List Nat) :
    layFrom s (as ++ bs) = layFrom s as ++ layFrom (s + frameCount as) bs := by
  induction as generalizing s with
  | nil => simp [layFrom]
  | cons k ks ih =>
      have hsum : s + 2 ^ k + (frameCount ks : Int) = s + (frameCount (k :: ks) : Int) := by
        push_cast [frameCount_cons]
        omega
      simp only [List.cons_append, layFrom, ih, hsum]

/-- A contiguous stack ends where its blocks, laid out one behind the other from `s` on, end. So
its length determines how many frames it has. -/
theorem Contig.end_eq : ∀ {ds : List Block} {e : Int}, Contig s e ds →
    e = s + frameCount (ds.map Block.order).reverse
  | [], e, h => by
      have he : e = s := h
      simp [he]
  | d :: ds, e, h => by
      have hrest := h.2.end_eq
      have hend := h.1
      simp only [List.map_cons, List.reverse_cons, frameCount_append, frameCount_cons,
        frameCount_nil]
      push_cast
      omega

/-- A contiguous stack, from its oldest block on, is determined by the orders. -/
theorem Contig.eq_layFrom : ∀ {ds : List Block} {e : Int}, Contig s e ds →
    ds.reverse = layFrom s (ds.map Block.order).reverse
  | [], _, _ => rfl
  | d :: ds, e, h => by
      have hstart : s + (frameCount (ds.map Block.order).reverse : Int) = d.start :=
        h.2.end_eq.symm
      simp only [List.map_cons, List.reverse_cons, layFrom_append, hstart, layFrom]
      rw [h.2.eq_layFrom]

/-- Orders that grow up to `cap`, and are `cap` from there on: the growing part
comes apart. -/
theorem exists_growing_part {ks : List Nat} (hchain : ks.IsChain fun a b => a < b ∨ b = cap)
    (hle : ∀ k ∈ ks, k ≤ cap) :
    ∃ bs m, ks = bs ++ List.replicate m cap ∧ bs.IsChain (· < ·) ∧ ∀ b ∈ bs, b < cap := by
  induction ks with
  | nil => exact ⟨[], 0, rfl, .nil, fun b hb => absurd hb List.not_mem_nil⟩
  | cons a ks ih =>
      rw [List.isChain_cons] at hchain
      obtain ⟨bs, m, rfl, hsort, hlt⟩ := ih hchain.2 fun k hk => hle k (List.mem_cons_of_mem _ hk)
      cases Nat.lt_or_eq_of_le (hle a List.mem_cons_self) with
      | inl ha =>
          refine ⟨a :: bs, m, rfl, List.isChain_cons.mpr ⟨fun b hb => ?_, hsort⟩, ?_⟩
          · have hmem : b ∈ bs := List.mem_of_mem_head? hb
            have hhead : b ∈ (bs ++ List.replicate m cap).head? := by
              rw [List.head?_append, Option.mem_def.mp hb]
              rfl
            exact (hchain.1 b hhead).resolve_right (hlt b hmem).ne
          · simpa using ⟨ha, hlt⟩
      | inr ha =>
          -- Nothing larger follows, so nothing grows.
          cases bs with
          | nil => exact ⟨[], m + 1, by simp [ha, List.replicate_succ], .nil, by simp⟩
          | cons b bs =>
              have hb := hlt b List.mem_cons_self
              rcases hchain.1 b rfl with h | h <;> omega

/-- A growing list of orders below `cap` is the list of the bits of its count,
which is below `2 ^ cap`. -/
theorem bitIndices_frameCount {bs : List Nat} (hsort : bs.IsChain (· < ·))
    (hlt : ∀ b ∈ bs, b < cap) :
    (frameCount bs).bitIndices = bs ∧ frameCount bs < 2 ^ cap := by
  have hbits : (frameCount bs).bitIndices = bs := Nat.bitIndices_sum_map_two_pow hsort.sortedLT
  refine ⟨hbits, Nat.lt_pow_two_of_testBit _ fun i hi => ?_⟩
  rw [Bool.eq_false_iff]
  intro h
  rw [← Nat.mem_bitIndices, hbits] at h
  exact absurd (hlt i h) (Nat.not_lt.mpr hi)

/-- Such orders are the digits of their count, the smallest first. -/
theorem eq_digits {ks : List Nat} (hchain : ks.IsChain fun a b => a < b ∨ b = cap)
    (hle : ∀ k ∈ ks, k ≤ cap) : ks.reverse = digits cap (frameCount ks) := by
  obtain ⟨bs, m, rfl, hsort, hlt⟩ := exists_growing_part hchain hle
  obtain ⟨hbits, hcount⟩ := bitIndices_frameCount hsort hlt
  have hdiv : (frameCount bs + m * 2 ^ cap) / 2 ^ cap = m := by
    rw [Nat.add_mul_div_right _ _ (Nat.two_pow_pos cap), Nat.div_eq_of_lt hcount, Nat.zero_add]
  have hmod : (frameCount bs + m * 2 ^ cap) % 2 ^ cap = frameCount bs := by
    rw [Nat.add_mul_mod_self_right, Nat.mod_eq_of_lt hcount]
  rw [List.reverse_append, List.reverse_replicate, digits, frameCount_append,
    frameCount_replicate, hdiv, hmod, hbits]

/-- In a contiguous stack the next older block is larger, or of order `cap`. -/
theorem Contig.isChain_order (h : Contig s e ds) (hst : Stack cap ds e) :
    (ds.map Block.order).IsChain fun a b => a < b ∨ b = cap := by
  induction ds generalizing e with
  | nil => exact .nil
  | cons d ds ih =>
      rw [List.map_cons, List.isChain_cons]
      refine ⟨fun k hk => ?_, ih h.2 hst.tail⟩
      cases ds with
      | nil => simp at hk
      | cons d' ds =>
          obtain rfl : d'.order = k := Option.mem_some.mp hk
          have hchain := hst.chain
          rw [List.isChain_cons] at hchain
          exact (hchain.1 d' rfl).2 h.2.1

/-- A contiguous stack ends where it is filled to. -/
theorem Contig.stack {e' : Int} (h : Contig s e ds) (hst : Stack cap ds e') : Stack cap ds e where
  chain := hst.chain
  order_le := hst.order_le
  top d hd := by
    cases ds with
    | nil => simp at hd
    | cons d' ds =>
        obtain rfl : d' = d := Option.mem_some.mp hd
        exact h.1.le

/-- A contiguous stack that fills `n` frames from `s` on is made of the blocks of
the digits of `n`. -/
theorem Contig.eq_layFrom_digits {n : Nat} (h : Contig s (s + n) ds)
    (hst : Stack cap ds (s + n)) : ds.reverse = layFrom s (digits cap n) := by
  have hcount : frameCount (ds.map Block.order) = n := by
    have hend := h.end_eq
    rw [frameCount, List.map_reverse, List.sum_reverse, ← frameCount] at hend
    omega
  have horders := eq_digits (h.isChain_order hst) (by simpa using hst.order_le)
  rw [hcount] at horders
  rw [h.eq_layFrom, horders]

end Digits

end Lib
