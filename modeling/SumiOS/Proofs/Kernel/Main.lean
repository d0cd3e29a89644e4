import Mathlib.Tactic.IntervalCases
import SumiOS.Proofs.Kernel.Enough
import SumiOS.Proofs.Print.Numbers

/-!
# `SumiOS.Proofs.Kernel.Main`: the loop of `main`

The loop asks `kmalloc` for objects of all sizes in turn and prints each of them. `mainLine` is
the line of a round (`mainRound_emits`). `mainLoop_eq` is the loop from any state of the
allocators on: it comes to its end, and its calls are those of a client. So the objects share
no byte, and when there is none left of a size, the rest of the lines of that size say so
(`main_prints`).
-/

set_option autoImplicit false

namespace SumiOS

open Lib

/-! ### The text -/

/-- The line of a round. -/
def mainLine (i : Nat) (obj : Word) : List (BitVec 8) :=
  "[allocate time: ".toList.map chr ++ (decimal i ++ ("] get object at 0x".toList.map chr ++
    ((numeral 16 obj.toNat).map digitChr ++ [chr '\n'])))

/-- What the rounds from `i` on print for their objects. -/
def mainText : Nat → List Word → List (BitVec 8)
  | _, [] => []
  | i, obj :: objs => mainLine i obj ++ mainText (i + 1) objs

/-- The calls of `n` rounds from `i` on. -/
def mainCalls : Nat → Nat → List ClientOp
  | _, 0 => []
  | i, n + 1 => .kmalloc (mainSize i) :: mainCalls (i + 1) n

/-- Their answers, the latest first. -/
def mainAnswers : Nat → List Word → List Answer
  | _, [] => []
  | i, obj :: objs => mainAnswers (i + 1) objs ++ [.object (mainSize i) obj]

/-- The parts of the format. -/
def mainPieces (i : Nat) (obj : Word) : List Piece :=
  ("[allocate time: ".toList.map chr).map .lit ++ (.conv .ulong (BitVec.ofNat 64 i) ::
    (("] get object at ".toList.map chr).map .lit ++ [.conv .ptr obj, .lit (chr '\n')]))

section Main

variable {ram : Set Int} {P : Pool} {h : Heap} {i j n : Nat} {obj : Word} {m : Mem}

/-- Characters of the format are put as they are. -/
theorem rendering_lits (cs : List (BitVec 8)) (ps : List Piece) {ds : List (BitVec 8)}
    (hps : Emits (fun _ put => rendering put m ps) ds) :
    Emits (fun _ put => rendering put m (cs.map .lit ++ ps)) (cs ++ ds) := by
  intro κ put k
  induction cs generalizing k with
  | nil => exact hps κ put k
  | cons c cs ih => exact ih (put k c)

/-- A directive puts what its function puts, and behind it comes what the rest of the format asks
for. -/
theorem rendering_conv {d : Conv} {v : BitVec d.width} {ps : List Piece} {cs ds : List (BitVec 8)}
    (hd : Emits (fun _ put => d.render put m v) cs) (hps : Emits (fun _ put => rendering put m ps) ds) :
    Emits (fun _ put => rendering put m (.conv d v :: ps)) (cs ++ ds) := hd.bind hps

/-- A round prints its line: the format has two directives, of which the first prints the number of
the round and the second the address that `kmalloc` returned. -/
theorem mainRound_emits (hi : i < 2 ^ 63) (obj : Word) (m : Mem) :
    Emits (fun _ put k => (printf put m (arrayAt (mainFormat ++ [0])) (mainArgs i obj)
      (mainFormat.length + 1) k).map Printf.out) (mainLine i obj) := by
  have hformat : formatOf (mainPieces i obj) = mainFormat := rfl
  have hok : ∀ p ∈ mainPieces i obj, p.Ok := by
    have hlits : ∀ cs : List (BitVec 8), (∀ c ∈ cs, c ≠ 0 ∧ c ≠ chr '%') →
        ∀ p ∈ cs.map Piece.lit, p.Ok := by
      intro cs hcs p hp
      obtain ⟨c, hc, rfl⟩ := List.mem_map.mp hp
      exact hcs c hc
    refine List.forall_mem_append.mpr ⟨hlits _ (by decide), List.forall_mem_cons.mpr ⟨trivial, ?_⟩⟩
    refine List.forall_mem_append.mpr ⟨hlits _ (by decide), List.forall_mem_cons.mpr ⟨trivial, ?_⟩⟩
    exact List.forall_mem_singleton.mpr ⟨by decide, by decide⟩
  have hparse : parse mainFormat = (mainPieces i obj).map Piece.action := by
    rw [← hformat, parse_formatOf hok]
  have hdirectives : directives ((mainPieces i obj).map Piece.action) = [.ulong, .ptr] := rfl
  have hargs : Passed (mainArgs i obj) (mainPieces i obj) 0 :=
    ⟨BitVec.setWidth_eq _, BitVec.setWidth_eq _, trivial⟩
  -- The two arguments.
  have hnat : (BitVec.ofNat 64 i).toInt = i := by
    rw [BitVec.toInt_ofNat', Int.bmod_def]
    omega
  have hnum : Emits (fun _ put => Conv.render put m .ulong (BitVec.ofNat 64 i)) (decimal i) := by
    have hemits := printnum_emits (n := BitVec.ofNat 64 i) fun hmin => by
      rw [hmin] at hnat
      have hneg : (BitVec.intMin 64).toInt = -2 ^ 63 := by decide
      omega
    rwa [hnat] at hemits
  have hptr : Emits (fun _ put => Conv.render put m .ptr obj)
      ([chr '0', chr 'x'] ++ (numeral 16 obj.toNat).map digitChr) := by
    have hprefix : NulTerminated (arrayAt ([chr '0', chr 'x'] ++ [0])) 0 [chr '0', chr 'x'] :=
      nulTerminated_arrayAt (by decide)
    exact (printstr_emits hprefix (by decide)).bind (printhex_emits obj)
  have hline : Emits (fun _ put => rendering put m (mainPieces i obj)) (mainLine i obj) := by
    have hlast : Emits (fun _ put => rendering put m [.lit (chr '\n')]) [chr '\n'] := fun _ _ _ => rfl
    have hall := rendering_lits ("[allocate time: ".toList.map chr) _
      (rendering_conv hnum (rendering_lits ("] get object at ".toList.map chr) _
        (rendering_conv hptr hlast)))
    exact hall
  intro κ put k
  have hterminated : NulTerminated (arrayAt (mainFormat ++ [0])) 0 mainFormat :=
    nulTerminated_arrayAt (by decide)
  have hrun := printf_eq put m (mainArgs i obj) hterminated (Nat.lt_succ_self _) k
  have hchar : Conv.char ∉ directives ((mainPieces i obj).map Piece.action) := by
    rw [hdirectives]
    decide
  have hrender : rendering put m (mainPieces i obj) k = .ok ((mainLine i obj).foldl put k) :=
    hline κ put k
  rw [hparse, perform_pieces hchar hargs, hrender] at hrun
  obtain ⟨r, hr, hseen⟩ := map_eq_ok.mp hrun
  have hout : r.out = (mainLine i obj).foldl put k :=
    congrArg (fun t : Nat × Nat × κ => t.2.2) hseen
  show (printf put m _ _ (mainFormat.length + 1) k).map Printf.out = _
  rw [hr, ← hout]
  rfl

/-! ### The loop -/

/-- The cache of a round: the sizes go round the ten caches, one after the other. -/
theorem mainSize_spec (i : Nat) : mainSize i ≤ KMALLOC_MAX_CACHE_SIZE ∧
    slubIndex (mainSize i) = some (i % 10) := by
  have hlt : i % 10 < 10 := Nat.mod_lt i (by decide)
  rw [mainSize]
  generalize i % 10 = c at hlt
  interval_cases c <;> exact ⟨by decide, by decide⟩

/-- The loop from round `i` on, in any state of the allocators: it comes to its end and prints
a line for each object. In the rounds of a cache that is out of objects, these are NULL. -/
theorem mainLoop_eq (hs : h.Simulates ram P) (hnull : ∀ q ∈ ram, slubAddr q ≠ 0)
    (hrounds : i + n ≤ MAIN_ROUNDS) :
    ∃ objs s', objs.length = n ∧
      run Heap.step h (mainCalls i n) = some ⟨s', mainAnswers i objs ++ h.answers⟩ ∧
      (∀ (κ : Type) (put : κ → BitVec 8 → κ) (k : κ),
        mainLoop put i n h.kmem k = .ok (s', (mainText i objs).foldl put k)) ∧
      (∀ c, OutOfObjects h.kmem c → ∀ j obj, objs[j]? = some obj → (i + j) % 10 = c → obj = 0) ∧
      ∀ j j' obj, j ≤ j' → (i + j) % 10 = (i + j') % 10 → objs[j]? = some 0 → objs[j']? = some obj →
        obj = 0 := by
  induction n generalizing i h P with
  | zero =>
      refine ⟨[], h.kmem, rfl, rfl, fun κ put k => rfl, ?_, ?_⟩
      · intro c _ j obj hj
        cases hj
      · intro j j' obj _ _ hj
        cases hj
  | succ n ih =>
      obtain ⟨hsz, hindex⟩ := mainSize_spec i
      obtain ⟨P', s, x, -, hx, hs'⟩ := hs.kmalloc (mainSize i)
      have hstep : h.step (.kmalloc (mainSize i)) = some ⟨s, .object (mainSize i) x :: h.answers⟩ := by
        rw [Heap.step, hx]
        rfl
      have hcache : ∀ j, (i + j) % 10 < NR_KOBJECT_SIZE_TYPE := fun j => Nat.mod_lt _ (by decide)
      obtain ⟨objs, s', hlen, hrun, hprint, hout, hfinal⟩ := ih hs' (i := i + 1) (by omega)
      -- What the first round says about the others.
      have hfirst : OutOfObjects h.kmem (i % 10) → x = 0 := by
        intro hempty
        obtain ⟨s'', hx'⟩ := (hs.kmalloc_null_iff hnull hsz hindex).mpr hempty
        exact (Prod.mk.inj (Option.some.inj (hx.symm.trans hx'))).2
      have hlater : ∀ c < NR_KOBJECT_SIZE_TYPE, OutOfObjects h.kmem c → ∀ j obj,
          objs[j]? = some obj → (i + (j + 1)) % 10 = c → obj = 0 := by
        intro c hc hempty j obj hj hmod
        refine hout c (hs.step_outOf hstep hc hempty) j obj hj ?_
        rw [← hmod]
        congr 1
        omega
      refine ⟨x :: objs, s', congrArg Nat.succ hlen, ?_, fun κ put k => ?_, ?_, ?_⟩
      · rw [mainCalls, Lib.run, hstep, Option.bind_some, hrun, mainAnswers, List.append_assoc]
        rfl
      · have hi : i < 2 ^ 63 := by
          unfold MAIN_ROUNDS at hrounds
          omega
        obtain ⟨r, hr, hout⟩ := map_eq_ok.mp (mainRound_emits hi x s.mem κ put k)
        have hrest := hprint κ put r.out
        rw [mainLoop, hx]
        show (printf put s.mem _ _ _ k >>= fun r => mainLoop put (i + 1) n s r.out) = _
        rw [hr]
        show mainLoop put (i + 1) n s r.out = _
        rw [hrest, hout, mainText, List.foldl_append]
      · intro c hempty j obj hj hmod
        cases j with
        | zero =>
            obtain rfl : x = obj := Option.some.inj hj
            rw [← hmod] at hempty
            exact hfirst hempty
        | succ j => exact hlater c (hmod ▸ hcache (j + 1)) hempty j obj hj hmod
      · intro j j' obj hle hmod hj hj'
        cases j' with
        | zero =>
            obtain rfl := Nat.le_zero.mp hle
            exact (Option.some.inj (hj.symm.trans hj')).symm
        | succ j' =>
            cases j with
            | zero =>
                obtain rfl : x = 0 := Option.some.inj hj
                have hempty := (hs.kmalloc_null_iff hnull hsz hindex).mp ⟨s, hx⟩
                exact hlater _ (hcache 0) hempty j' obj hj' hmod.symm
            | succ j =>
                refine hfinal j j' obj (Nat.le_of_succ_le_succ hle) ?_ hj hj'
                have hshift : ∀ j, i + 1 + j = i + (j + 1) := fun j => by omega
                rw [hshift, hshift]
                exact hmod

end Main

end SumiOS
