import SumiOS.Proofs.Kernel.Run

/-!
# `SumiOS.Proofs.Kernel.Kept`: the contents of what clients hold

A byte that a client holds changes by writes of clients only: `kmalloc` writes to blocks that
its cache takes, which nobody held (`Heap.Simulates.kept`), and `mm_pgtable_map` writes to
tables (`Kernel.Inv.map`). So after a run, the byte has the value of the last write to it
(`Kernel.Inv.run_keeps`).
-/

set_option autoImplicit false

namespace SumiOS

open Lib

/-- What a step writes to `x`, if it is a write. -/
def writeOf (x : Word) : KernelOp → Option (BitVec 8)
  | .client (.write a v) => if a = x then some v else none
  | _ => none

/-- What the clients wrote to `x` last. -/
def lastWrite (x : Word) (ops : List KernelOp) : Option (BitVec 8) :=
  ops.reverse.findSome? (writeOf x)

section Kept

variable {ram : Set Int} {base : Word → Prop} {kernPgtable : Word} {walk : Word → Word}
  {k k' : Kernel} {P : Pool} {s s' : Kmem} {as : List Answer} {tables : List Word} {a : Answer}
  {r : Region} {x y sz : Word} {op : KernelOp} {ops : List KernelOp}

/-- The last write to a byte is among the later steps, or else the first step itself. -/
theorem lastWrite_cons : lastWrite x (op :: ops) = (lastWrite x ops).or (writeOf x op) := by
  rw [lastWrite, List.reverse_cons, List.findSome?_append, List.findSome?_singleton]
  rfl

/-- The size of an object is a matter of its cache. -/
theorem Answer.region_congr (hsizes : ∀ i, (s'.kmemCacheList i).objSize = (s.kmemCacheList i).objSize) :
    a.region s' = a.region s := by
  cases a with
  | object sz obj => simp only [Answer.region, hsizes]
  | block order p => rfl

/-- `kmalloc` writes to blocks that nobody held: the links go into the block that the cache has
just taken, and what a client holds lies in other blocks or in objects that are in use. -/
theorem Heap.Simulates.kept (hs : Heap.Simulates ram ⟨s, as ++ tables.map tableAnswer⟩ P)
    (ha : a ∈ as) (hr : a.region s = some r) (hx : r.Holds x)
    (hmalloc : SumiOS.kmalloc s sz = some (s', y)) : s'.mem x = s.mem x := by
  obtain ⟨P', s₁, y₁, -, hmalloc₁, hs'⟩ := hs.kmalloc sz
  obtain ⟨rfl, rfl⟩ := Prod.mk.inj (Option.some.inj (hmalloc.symm.trans hmalloc₁))
  obtain ⟨c, hc, hframe⟩ := hs.held_frame ha hr hx
  obtain ⟨new, hnew, hkeep⟩ := (kmalloc_grows hs.inv hmalloc).frame
  refine hkeep x fun q hq hholds => ?_
  -- The new blocks are apart from those that were held or in a cache.
  have hslubs : P'.slubs = new ++ P.slubs := by
    rw [← hs'.inv.slubs, ← hs.inv.slubs]
    exact hnew
  have hphys := hs'.inv.physical_slub (hslubs ▸ List.mem_append_left _ hq : q ∈ P'.slubs)
  have hout := hs'.inv.blockInv.tidy.outApart
  have hheld : heldBlocks (.object sz y :: (as ++ tables.map tableAnswer))
      = heldBlocks as ++ tables.map tableBlock := heldBlocks_append as tables
  rw [Pool.out, hheld, hslubs, List.map_append] at hout
  obtain ⟨-, hcaches, hblocks⟩ := List.pairwise_append.mp hout
  obtain ⟨-, -, hold⟩ := List.pairwise_append.mp hcaches
  have hnewBlock := List.mem_map_of_mem (f := fun q => slubBlock q.1 q.2) hq
  have happart : c.Apart (slubBlock q.1 q.2) := by
    cases List.mem_append.mp hc with
    | inl h => exact hblocks c (List.mem_append_left _ h) _ (List.mem_append_left _ hnewBlock)
    | inr h => exact Block.apart_comm.mp (hold _ hnewBlock c h)
  rw [Block.apart_iff_disjoint] at happart
  exact Set.disjoint_left.mp happart hframe (frameOf_mem hphys hholds)

/-- In a step, a client keeps what it holds, and a byte of it changes by a write only. -/
theorem Kernel.Inv.step_keeps (hI : k.Inv ram base kernPgtable walk)
    (hbase : ∀ q, base q → PageAligned q ∧ pageOf q ∉ ram) (hstep : k.step kernPgtable op = some k')
    (hok : -1 ∉ k'.tables) (hr : r ∈ k.heap.held) (hx : r.Holds x) :
    r ∈ k'.heap.held ∧ k'.heap.kmem.mem x = (writeOf x op).getD (k.heap.kmem.mem x) := by
  have hI' := hI.step hbase hstep hok
  obtain ⟨P, hs⟩ := hI.heap
  obtain ⟨a, ha, hregion⟩ := List.mem_filterMap.mp hr
  cases op with
  | client op =>
      obtain ⟨h, hheap, rfl⟩ := Option.map_eq_some_iff.mp hstep
      cases op with
      | kmalloc sz =>
          rw [Heap.step, Option.map_eq_some_iff] at hheap
          obtain ⟨⟨s', y⟩, hmalloc, rfl⟩ := hheap
          have hsizes := (kmalloc_grows hs.inv hmalloc).sizes
          refine ⟨List.mem_filterMap.mpr ⟨a, List.mem_cons_of_mem _ ha, ?_⟩, ?_⟩
          · rw [Answer.region_congr hsizes]
            exact hregion
          · exact hs.kept ha hregion hx hmalloc
      | allocPages order =>
          rw [Heap.step, Option.some.injEq] at hheap
          subst hheap
          exact ⟨List.mem_filterMap.mpr ⟨a, List.mem_cons_of_mem _ ha, hregion⟩, rfl⟩
      | write b v =>
          rw [Heap.step] at hheap
          split at hheap
          · rw [Option.some.injEq] at hheap
            subst hheap
            refine ⟨hr, ?_⟩
            show Function.update k.heap.kmem.mem b v x = (if b = x then some v else none).getD _
            by_cases e : b = x
            · rw [e, Function.update_self, if_pos rfl]
              rfl
            · rw [Function.update_of_ne (Ne.symm e), if_neg e]
              rfl
          · cases hheap
  | map c =>
      rw [Kernel.step] at hstep
      split at hstep
      · rename_i hc
        rw [Option.some.injEq] at hstep
        subst hstep
        refine ⟨hr, ?_⟩
        -- The byte lies in no table, old or new.
        have hapart := (hI'.held (fun q hq => (hbase q hq).2) (r := r) hr hx).2
        exact (hI.map hbase hc.1 hok).2 x hapart
      · cases hstep

/-- In a run, a client keeps what it holds, and its bytes have the values that clients wrote
last. -/
theorem Kernel.Inv.run_keeps (hI : k.Inv ram base kernPgtable walk)
    (hbase : ∀ q, base q → PageAligned q ∧ pageOf q ∉ ram)
    (hrun : Lib.run (Kernel.step kernPgtable) k ops = some k') (hok : -1 ∉ k'.tables)
    (hr : r ∈ k.heap.held) (hx : r.Holds x) :
    r ∈ k'.heap.held ∧ k'.heap.kmem.mem x = (lastWrite x ops).getD (k.heap.kmem.mem x) := by
  induction ops generalizing k with
  | nil =>
      rw [Lib.run, Option.some.injEq] at hrun
      subst hrun
      exact ⟨hr, rfl⟩
  | cons op ops ih =>
      obtain ⟨k₁, hstep, hrest⟩ := run_cons.mp hrun
      have hok₁ : -1 ∉ k₁.tables := fun h => hok ((Kernel.run_tables hrest).subset h)
      obtain ⟨hr₁, hmem₁⟩ := hI.step_keeps hbase hstep hok₁ hr hx
      obtain ⟨hr', hmem'⟩ := ih (hI.step hbase hstep hok₁) hrest hr₁
      refine ⟨hr', ?_⟩
      rw [hmem', hmem₁, lastWrite_cons]
      cases lastWrite x ops with
      | none => rfl
      | some v => rfl

end Kept

end SumiOS
