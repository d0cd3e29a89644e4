import SumiOS.Proofs.Print.Digits

/-!
# `SumiOS.Proofs.Print.Format`: what `kprintf` makes of a format

A format is parsed into actions: characters that are put, and directives that take an
argument (`parse`). What follows a `%` and is no directive does nothing. `printf_eq` says
that the loop of `kprintf`, with its status and its jump back, does these actions one
after the other, on every format, and that it reads the format up to its first NUL.

`Piece` is a part of a format that is written as it should be, with the argument of its
directive, and `rendering` is what it asks for. `perform_pieces` compares the two: they
differ at `%c` only, which has no defined behaviour. `interpretsExactly_iff` is the result.
-/

set_option autoImplicit false

namespace SumiOS

open Lib

/-! ### Directives -/

/-- The directives of `kprintf`. -/
inductive Conv
  | char
  | string
  | int
  | uint
  | hex
  | ptr
  | long
  | ulong
  | longHex
deriving DecidableEq

namespace Conv

/-- What stands behind the `%`. -/
def chars : Conv → List (BitVec 8)
  | .char => [chr 'c']
  | .string => [chr 's']
  | .int => [chr 'd']
  | .uint => [chr 'u']
  | .hex => [chr 'x']
  | .ptr => [chr 'p']
  | .long => [chr 'l', chr 'd']
  | .ulong => [chr 'l', chr 'u']
  | .longHex => [chr 'l', chr 'x']

/-- The width of the argument. -/
def width : Conv → Nat
  | .char => 8
  | .int | .uint | .hex => 32
  | .string | .ptr | .long | .ulong | .longHex => 64

variable {κ : Type} (put : κ → BitVec 8 → κ) (m : Mem)

/-- What the directive asks for. -/
def render : (d : Conv) → BitVec d.width → κ → Except Fault κ
  | .char, v, k => .ok (put k v)
  | .string, v, k => printstr put (strAt m v) k
  | .int, v, k => printnum put (v.signExtend 64) k
  | .uint, v, k => printnum put (v.setWidth 64) k
  | .hex, v, k => printhex put (v.setWidth 64) k
  | .ptr, v, k => printstr put (arrayAt [chr '0', chr 'x', 0]) k >>= printhex put v
  | .long, v, k => printnum put v k
  | .ulong, v, k => printnum put v k
  | .longHex, v, k => printhex put v k

/-- What the code does with the slot of its argument. -/
def perform (d : Conv) (w : Word) (k : κ) : Except Fault κ :=
  if d = .char then .error .undefined else d.render put m (w.setWidth d.width) k

end Conv

/-! ### Formats -/

/-- What `kprintf` does at a place of the format. -/
inductive Action
  | lit (ch : BitVec 8)
  | conv (d : Conv)
deriving DecidableEq

/-- The directive of one character. -/
def shortConv (ch : BitVec 8) : Option Conv :=
  if ch = chr 'c' then some .char
  else if ch = chr 's' then some .string
  else if ch = chr 'd' then some .int
  else if ch = chr 'u' then some .uint
  else if ch = chr 'x' then some .hex
  else if ch = chr 'p' then some .ptr
  else none

/-- The directive of `l` and one more character. -/
def longConv (ch : BitVec 8) : Option Conv :=
  if ch = chr 'd' then some .long
  else if ch = chr 'u' then some .ulong
  else if ch = chr 'x' then some .longHex
  else none

/-- The actions of a format, whatever its characters are. -/
def parse : List (BitVec 8) → List Action
  | [] => []
  | ch :: cs =>
      if ch ≠ chr '%' then .lit ch :: parse cs
      else
        match cs with
        | [] => []
        | ch :: cs =>
            if ch = chr 'l' then
              match cs with
              | [] => []
              | ch :: cs => ((longConv ch).map Action.conv).toList ++ parse cs
            else ((shortConv ch).map Action.conv).toList ++ parse cs
termination_by structural cs => cs

/-- The directives among the actions. -/
def directives (as : List Action) : List Conv :=
  as.filterMap fun a => match a with
    | .lit _ => none
    | .conv d => some d

/-- Do the actions from slot `j` of the arguments on. -/
def perform {κ : Type} (put : κ → BitVec 8 → κ) (m : Mem) (args : Nat → Word) :
    List Action → Nat → κ → Except Fault (Nat × κ)
  | [], j, k => .ok (j, k)
  | .lit ch :: as, j, k => perform put m args as j (put k ch)
  | .conv d :: as, j, k => do
      let k ← d.perform put m (args j) k
      perform put m args as (j + 1) k

/-- A part of a well-formed format: a character, or a directive with its argument. -/
inductive Piece
  | lit (ch : BitVec 8)
  | conv (d : Conv) (arg : BitVec d.width)

namespace Piece

/-- How the part is written. -/
def chars : Piece → List (BitVec 8)
  | .lit ch => [ch]
  | .conv d _ => chr '%' :: d.chars

/-- A literal is no `%`, and no NUL. -/
def Ok : Piece → Prop
  | .lit ch => ch ≠ 0 ∧ ch ≠ chr '%'
  | .conv _ _ => True

def action : Piece → Action
  | .lit ch => .lit ch
  | .conv d _ => .conv d

end Piece

/-- The format that the parts make up. -/
def formatOf (ps : List Piece) : List (BitVec 8) := ps.flatMap Piece.chars

/-- What the parts ask for: the characters and the renderings of the arguments in order. -/
def rendering {κ : Type} (put : κ → BitVec 8 → κ) (m : Mem) : List Piece → κ → Except Fault κ
  | [], k => .ok k
  | .lit ch :: ps, k => rendering put m ps (put k ch)
  | .conv d v :: ps, k => d.render put m v k >>= rendering put m ps

/-- From slot `j` on, the slots hold the arguments of the directives. A slot has 64 bits, of
which a narrower argument takes the low ones. -/
def Passed (args : Nat → Word) : List Piece → Nat → Prop
  | [], _ => True
  | .lit _ :: ps, j => Passed args ps j
  | .conv d v :: ps, j => (args j).setWidth d.width = v ∧ Passed args ps (j + 1)

/-- What a caller sees of a run: the characters of the format that were read, the arguments
that were taken, and the output. -/
def Printf.seen {κ : Type} (s : Printf κ) : Nat × Nat × κ := (s.format, s.args, s.out)

/-- On the format `cs`, `kprintf` does what the parts of a well-formed format ask for and
takes one argument for each directive. On every format it returns, and reads no further
than the first NUL, provided that the `%s` arguments are strings. -/
structure InterpretsExactly (cs : List (BitVec 8)) : Prop where
  exact : ∀ ps : List Piece, (∀ p ∈ ps, p.Ok) → formatOf ps = cs →
    ∀ (κ : Type) (put : κ → BitVec 8 → κ) (m : Mem) (format : CStr) (args : Nat → Word)
      (rounds : Nat) (k : κ), NulTerminated format 0 cs → Passed args ps 0 → cs.length < rounds →
      (printf put m format args rounds k).map Printf.seen =
        (rendering put m ps k).map fun k => (cs.length + 1, (directives (ps.map Piece.action)).length, k)
  returns : ∀ (κ : Type) (put : κ → BitVec 8 → κ) (m : Mem) (format : CStr) (args : Nat → Word)
      (rounds : Nat) (k : κ), NulTerminated format 0 cs → cs.length < rounds →
      (∀ j, (directives (parse cs))[j]? = some .string →
        ∃ ds, Emits (fun _ put => printstr put (strAt m (args j))) ds) →
      ∃ r, printf put m format args rounds k = .ok r ∧ r.format = cs.length + 1

/-! ### The loop -/

section Loop

variable {κ : Type} {put : κ → BitVec 8 → κ} {m : Mem} {args : Nat → Word} {format : CStr}

/-- One case of the switch: the argument is taken and printed. -/
theorem vaArg_perform {d : Conv} (hd : d ≠ .char) (s : Printf κ) :
    vaArg args (fun w => d.render put m (w.setWidth d.width)) s
      = (d.perform put m (args s.args) s.out).map fun out => { s with args := s.args + 1, out := out } := by
  rw [vaArg, Conv.perform, if_neg hd]

/-- The switch behind `%`, as a lookup of the directive and what is done for it. A character that
stands for none prints nothing and takes no argument. -/
theorem symbol_eq (ch : BitVec 8) (s : Printf κ) :
    symbol put m args ch s = match shortConv ch with
      | none => .ok s
      | some d => (d.perform put m (args s.args) s.out).map fun out =>
          { s with args := s.args + 1, out := out } := by
  rw [symbol, shortConv]
  split_ifs
  · rfl
  · exact vaArg_perform (d := .string) (by decide) s
  · exact vaArg_perform (d := .int) (by decide) s
  · exact vaArg_perform (d := .uint) (by decide) s
  · exact vaArg_perform (d := .hex) (by decide) s
  · exact vaArg_perform (d := .ptr) (by decide) s
  · rfl

/-- The switch behind `%l`, as a lookup among the long directives; other characters print nothing
and take no argument. -/
theorem midSymbol_eq (ch : BitVec 8) (s : Printf κ) :
    midSymbol put args ch s = match longConv ch with
      | none => .ok s
      | some d => (d.perform put m (args s.args) s.out).map fun out =>
          { s with args := s.args + 1, out := out } := by
  rw [midSymbol, longConv]
  split_ifs
  · exact vaArg_perform (d := .long) (by decide) s
  · exact vaArg_perform (d := .ulong) (by decide) s
  · exact vaArg_perform (d := .longHex) (by decide) s
  · rfl

/-- A switch of `kprintf`, and the loop after it. `conv` is the directive that the switch
takes, and `as` are the actions of the rest of the format. -/
theorem switch_eq {s : Printf κ} {conv : Option Conv} {r : Except Fault (Printf κ)}
    {loop : Printf κ → Except Fault (Printf κ)} {as : List Action} {stop : Nat}
    (hr : r = match conv with
      | none => .ok s
      | some d => (d.perform put m (args s.args) s.out).map fun out =>
          { s with args := s.args + 1, out := out })
    (hloop : ∀ s' : Printf κ, s'.format = s.format → s'.status = .char →
      (loop s').map Printf.seen
        = (perform put m args as s'.args s'.out).map fun t => (stop, t.1, t.2)) :
    (r >>= fun s => loop { s with status := .char }).map Printf.seen
      = (perform put m args ((conv.map Action.conv).toList ++ as) s.args s.out).map fun t =>
          (stop, t.1, t.2) := by
  subst hr
  cases conv with
  | none => exact hloop { s with status := .char } rfl rfl
  | some d =>
      show _ = (d.perform put m (args s.args) s.out >>= perform put m args as (s.args + 1)).map _
      cases hd : d.perform put m (args s.args) s.out with
      | error e => simp only [hd]; rfl
      | ok k =>
          simp only [hd]
          exact hloop { s with args := s.args + 1, out := k, status := .char } rfl rfl

/-- One character of the format was read. -/
def Printf.advance (s : Printf κ) : Printf κ := { s with format := s.format + 1 }

section Read

variable {s : Printf κ} {ch : BitVec 8} (rounds : Nat) (hread : format s.format = some ch)

include hread

/-- At the NUL the loop ends, with the NUL counted as read. -/
theorem printfLoop_nul (h : ch = 0) :
    printfLoop put m format args (rounds + 1) s = .ok s.advance := by
  simp only [printfLoop, hread, if_pos h, Printf.advance]

/-- A character other than `%` is put out, and the loop goes on behind it. -/
theorem printfLoop_lit (h0 : ch ≠ 0) (h : ch ≠ chr '%') :
    printfLoop put m format args (rounds + 1) s
      = printfLoop put m format args rounds { s.advance with out := put s.out ch, status := .char } := by
  simp only [printfLoop, hread, if_neg h0, if_pos h, Printf.advance]

/-- A `%` is read and the character behind it decides, at the label `repeat` of the source. -/
theorem printfLoop_percent (h : ch = chr '%') :
    printfLoop put m format args (rounds + 1) s = printfRepeat put m format args rounds s.advance := by
  have h0 : ch ≠ 0 := by
    rw [h]
    decide
  simp only [printfLoop, hread, if_neg h0, if_neg (not_not.mpr h), Printf.advance]

/-- A `%` at the end of the format prints nothing and ends the call at the NUL. -/
theorem printfRepeat_nul (h : ch = 0) :
    printfRepeat put m format args (rounds + 1) s = .ok s.advance := by
  simp only [printfRepeat, hread, if_pos h, Printf.advance]

/-- After an `l`, the next character is looked up among the long directives, and the loop goes on
behind it. -/
theorem printfRepeat_mid (h0 : ch ≠ 0) (hs : s.status = .midSymbol) :
    printfRepeat put m format args (rounds + 1) s = (midSymbol put args ch s.advance >>= fun s =>
      printfLoop put m format args rounds { s with status := .char }) := by
  simp only [printfRepeat, hread, if_neg h0, if_pos hs, Printf.advance]

/-- The first `l` behind a `%` is only remembered, and the next character is looked at. -/
theorem printfRepeat_long (h : ch = chr 'l') (hs : s.status = .char) :
    printfRepeat put m format args (rounds + 1) s
      = printfRepeat put m format args rounds { s.advance with status := .midSymbol } := by
  have h0 : ch ≠ 0 := by
    rw [h]
    decide
  have hmid : ¬ s.status = .midSymbol := by simp [hs]
  simp only [printfRepeat, hread, if_neg h0, if_neg hmid, if_pos h, Printf.advance]

/-- Any other character is looked up among the short directives. -/
theorem printfRepeat_short (h0 : ch ≠ 0) (h : ch ≠ chr 'l') (hs : s.status = .char) :
    printfRepeat put m format args (rounds + 1) s = (symbol put m args ch s.advance >>= fun s =>
      printfLoop put m format args rounds { s with status := .char }) := by
  have hmid : ¬ s.status = .midSymbol := by simp [hs]
  simp only [printfRepeat, hread, if_neg h0, if_neg hmid, if_neg h, Printf.advance]

/-- From the label on, with the status of `%l`. -/
theorem printfRepeat_mid_eq {as : List Action} {stop : Nat} (h0 : ch ≠ 0)
    (hs : s.status = .midSymbol)
    (hloop : ∀ s' : Printf κ, s'.format = s.format + 1 → s'.status = .char →
      (printfLoop put m format args rounds s').map Printf.seen
        = (perform put m args as s'.args s'.out).map fun t => (stop, t.1, t.2)) :
    (printfRepeat put m format args (rounds + 1) s).map Printf.seen
      = (perform put m args (((longConv ch).map Action.conv).toList ++ as) s.args s.out).map fun t =>
          (stop, t.1, t.2) := by
  rw [printfRepeat_mid rounds hread h0 hs]
  exact switch_eq (s := s.advance) (midSymbol_eq ch s.advance) hloop

/-- From the label on, after a `%`: the directive is done with the next argument, and then whatever
the loop does behind it. -/
theorem printfRepeat_short_eq {as : List Action} {stop : Nat} (h0 : ch ≠ 0) (h : ch ≠ chr 'l')
    (hs : s.status = .char)
    (hloop : ∀ s' : Printf κ, s'.format = s.format + 1 → s'.status = .char →
      (printfLoop put m format args rounds s').map Printf.seen
        = (perform put m args as s'.args s'.out).map fun t => (stop, t.1, t.2)) :
    (printfRepeat put m format args (rounds + 1) s).map Printf.seen
      = (perform put m args (((shortConv ch).map Action.conv).toList ++ as) s.args s.out).map fun t =>
          (stop, t.1, t.2) := by
  rw [printfRepeat_short rounds hread h0 h hs]
  exact switch_eq (s := s.advance) (symbol_eq ch s.advance) hloop

end Read

/-- The loop of `kprintf` does the actions of the rest of the format. Each character takes
one round. -/
theorem printfLoop_eq {cs : List (BitVec 8)} (spare : Nat) {s : Printf κ} (hs : s.status = .char)
    (hcs : NulTerminated format s.format cs) :
    (printfLoop put m format args (cs.length + spare + 1) s).map Printf.seen
      = (perform put m args (parse cs) s.args s.out).map fun t =>
          (s.format + cs.length + 1, t.1, t.2) := by
  fun_induction parse cs generalizing s with
  | case1 =>
      -- The end of the format.
      rw [printfLoop_nul _ hcs rfl]
      rfl
  | case2 ch cs hlit ih =>
      -- A character that is put.
      obtain ⟨h0, hread, hcs⟩ := hcs
      have hrounds : (ch :: cs).length + spare + 1 = cs.length + spare + 1 + 1 := by
        rw [List.length_cons]
        omega
      have hrest := ih (s := { s.advance with out := put s.out ch, status := .char }) rfl hcs
      rw [hrounds, printfLoop_lit _ hread h0 hlit, hrest, List.length_cons]
      simp only [Printf.advance, perform, Nat.add_assoc, Nat.add_comm 1]
  | case3 ch hpercent =>
      -- A `%` at the end.
      obtain ⟨-, hread, hnul⟩ := hcs
      have hrounds : [ch].length + spare + 1 = spare + 1 + 1 := by
        rw [List.length_singleton]
        omega
      rw [hrounds, printfLoop_percent _ hread (not_not.mp hpercent),
        printfRepeat_nul (s := s.advance) spare hnul rfl]
      rfl
  | case4 ch hpercent =>
      -- A `%l` at the end.
      obtain ⟨-, hread, -, hread', hnul⟩ := hcs
      have hrounds : [ch, chr 'l'].length + spare + 1 = spare + 1 + 1 + 1 := by
        rw [List.length_cons, List.length_singleton]
        omega
      rw [hrounds, printfLoop_percent _ hread (not_not.mp hpercent),
        printfRepeat_long (s := s.advance) (spare + 1) hread' rfl hs,
        printfRepeat_nul (s := { s.advance.advance with status := .midSymbol }) spare hnul rfl]
      rfl
  | case5 ch hpercent ch' cs ih =>
      -- The switch behind `%l`.
      obtain ⟨-, hread, -, hread', h0, hread'', hcs⟩ := hcs
      have hrounds : (ch :: chr 'l' :: ch' :: cs).length + spare + 1
          = cs.length + spare + 1 + 1 + 1 + 1 := by
        simp only [List.length_cons]
        omega
      rw [hrounds, printfLoop_percent _ hread (not_not.mp hpercent),
        printfRepeat_long (s := s.advance) _ hread' rfl hs]
      refine printfRepeat_mid_eq (s := { s.advance.advance with status := .midSymbol }) _ hread'' h0
        rfl fun s' hformat hstatus => ?_
      have hstop : s'.format + cs.length + 1
          = s.format + (ch :: chr 'l' :: ch' :: cs).length + 1 := by
        rw [hformat]
        simp only [Printf.advance, List.length_cons]
        omega
      rw [ih hstatus (by rw [hformat]; exact hcs), hstop]
  | case6 ch hpercent ch' cs hshort ih =>
      -- The switch behind `%`.
      obtain ⟨-, hread, h0, hread', hcs⟩ := hcs
      have hrounds : (ch :: ch' :: cs).length + spare + 1 = cs.length + spare + 1 + 1 + 1 := by
        simp only [List.length_cons]
        omega
      rw [hrounds, printfLoop_percent _ hread (not_not.mp hpercent)]
      refine printfRepeat_short_eq (s := s.advance) _ hread' h0 hshort hs fun s' hformat hstatus => ?_
      have hstop : s'.format + cs.length + 1 = s.format + (ch :: ch' :: cs).length + 1 := by
        rw [hformat]
        simp only [Printf.advance, List.length_cons]
        omega
      rw [ih hstatus (by rw [hformat]; exact hcs), hstop]

end Loop

/-! ### Every format -/

section Actions

variable {κ : Type} (put : κ → BitVec 8 → κ) (m : Mem) (args : Nat → Word)

/-- `kprintf` does the actions of its format, from its first argument on, and stops at the NUL. -/
theorem printf_eq {cs : List (BitVec 8)} {format : CStr} {rounds : Nat}
    (hcs : NulTerminated format 0 cs) (hrounds : cs.length < rounds) (k : κ) :
    (printf put m format args rounds k).map Printf.seen
      = (perform put m args (parse cs) 0 k).map fun t => (cs.length + 1, t.1, t.2) := by
  obtain ⟨spare, rfl⟩ := Nat.exists_eq_add_of_lt hrounds
  have hloop : (printf put m format args (cs.length + spare + 1) k).map Printf.seen
      = (perform put m args (parse cs) 0 k).map fun t => (0 + cs.length + 1, t.1, t.2) :=
    printfLoop_eq spare rfl hcs
  rw [Nat.zero_add] at hloop
  exact hloop

variable {m args}

/-- A directive with a defined behaviour returns: a number is always printed, and a string when it
is terminated; only `%c` is left out. -/
theorem Conv.perform_returns (d : Conv) (hd : d ≠ .char) {w : Word}
    (hs : d = .string → ∃ ds, Emits (fun _ put => printstr put (strAt m w)) ds) (k : κ) :
    ∃ k', d.perform put m w k = .ok k' := by
  rw [Conv.perform, if_neg hd]
  have hnum : ∀ n, ∃ k', printnum put n k = .ok k' := fun n =>
    (printnum_returns n).imp' _ fun _ h => h κ put k
  have hhex : ∀ n k, ∃ k', printhex put n k = .ok k' := fun n k => ⟨_, printhex_emits n κ put k⟩
  cases d with
  | char => exact absurd rfl hd
  | string =>
      obtain ⟨ds, hds⟩ := hs rfl
      have hw : w.setWidth Conv.string.width = w := BitVec.setWidth_eq w
      rw [hw]
      exact ⟨_, hds κ put k⟩
  | int => exact hnum _
  | uint => exact hnum _
  | hex => exact hhex _ k
  | ptr =>
      -- The `0x` is a string of the program.
      have hnonul : 0 ∉ [chr '0', chr 'x'] := by decide
      have hzerox := printstr_emits (nulTerminated_arrayAt hnonul) (by decide)
      exact ⟨_, (hzerox.bind (printhex_emits _)) κ put k⟩
  | long => exact hnum _
  | ulong => exact hnum _
  | longHex => exact hhex _ k

/-- Actions with a defined behaviour return, one after the other, provided that those which print a
string are given one. -/
theorem perform_returns {as : List Action} {j : Nat} (hchar : Conv.char ∉ directives as)
    (hs : ∀ i, (directives as)[i]? = some .string →
      ∃ ds, Emits (fun _ put => printstr put (strAt m (args (j + i)))) ds) (k : κ) :
    ∃ r, perform put m args as j k = .ok r := by
  induction as generalizing j k with
  | nil => exact ⟨_, rfl⟩
  | cons a as ih =>
      cases a with
      | lit ch => exact ih hchar hs (put k ch)
      | conv d =>
          have hdir : directives (.conv d :: as) = d :: directives as := rfl
          rw [hdir] at hchar hs
          rw [List.mem_cons, not_or] at hchar
          obtain ⟨k', hk'⟩ := d.perform_returns put (Ne.symm hchar.1)
            (fun h => hs 0 (by rw [h]; rfl)) k
          have hrest := ih (j := j + 1) hchar.2 (fun i hi => by
            rw [Nat.add_assoc, Nat.add_comm 1]
            exact hs (i + 1) hi) k'
          rw [Nat.add_zero] at hk'
          rw [perform, hk']
          exact hrest

variable {put}

/-- Actions with a `%c` do not return, wherever in the list it is, since what comes before it
cannot keep it from being reached except by not returning. -/
theorem perform_char {as : List Action} {j : Nat} {k : κ} {r : Nat × κ}
    (hchar : Conv.char ∈ directives as) : perform put m args as j k ≠ .ok r := by
  induction as generalizing j k with
  | nil => cases hchar
  | cons a as ih =>
      cases a with
      | lit ch => exact ih hchar
      | conv d =>
          have hdir : directives (.conv d :: as) = d :: directives as := rfl
          rw [hdir, List.mem_cons] at hchar
          rw [perform]
          by_cases hd : d = .char
          · rw [Conv.perform, if_pos hd]
            exact fun h => by cases h
          · have hmem := hchar.resolve_left (Ne.symm hd)
            cases d.perform put m (args j) k with
            | error e => exact fun h => by cases h
            | ok k' => exact ih hmem

/-! ### Well-formed formats -/

/-- A directive is parsed as it is written, whatever follows it, because no directive is the
beginning of another one. -/
theorem parse_conv (d : Conv) (cs : List (BitVec 8)) :
    parse (chr '%' :: (d.chars ++ cs)) = .conv d :: parse cs := by
  have hshort : ∀ ch, ch ≠ chr 'l' → parse (chr '%' :: ch :: cs)
      = ((shortConv ch).map Action.conv).toList ++ parse cs := by
    intro ch h
    rw [parse.eq_def]
    exact (if_neg (not_not.mpr rfl)).trans (if_neg h)
  have hlong : ∀ ch, parse (chr '%' :: chr 'l' :: ch :: cs)
      = ((longConv ch).map Action.conv).toList ++ parse cs := by
    intro ch
    rw [parse.eq_def]
    exact (if_neg (not_not.mpr rfl)).trans (if_pos rfl)
  cases d with
  | char => exact hshort (chr 'c') (by decide)
  | string => exact hshort (chr 's') (by decide)
  | int => exact hshort (chr 'd') (by decide)
  | uint => exact hshort (chr 'u') (by decide)
  | hex => exact hshort (chr 'x') (by decide)
  | ptr => exact hshort (chr 'p') (by decide)
  | long => exact hlong (chr 'd')
  | ulong => exact hlong (chr 'u')
  | longHex => exact hlong (chr 'x')

/-- A well-formed format is parsed into its parts, by induction on them: no part reads into the
next one. -/
theorem parse_formatOf {ps : List Piece} (hok : ∀ p ∈ ps, p.Ok) :
    parse (formatOf ps) = ps.map Piece.action := by
  induction ps with
  | nil => rfl
  | cons p ps ih =>
      rw [List.forall_mem_cons] at hok
      have hrest := ih hok.2
      have hsplit : formatOf (p :: ps) = p.chars ++ formatOf ps := List.flatMap_cons
      rw [hsplit, List.map_cons, ← hrest]
      cases p with
      | lit ch =>
          show parse (ch :: formatOf ps) = _
          rw [parse.eq_def]
          exact if_pos hok.1.2
      | conv d v => exact parse_conv d (formatOf ps)

/-- The parts of a format without `%c` are rendered, and each directive takes its argument. -/
theorem perform_pieces {ps : List Piece} {j : Nat} {k : κ}
    (hchar : Conv.char ∉ directives (ps.map Piece.action)) (hargs : Passed args ps j) :
    perform put m args (ps.map Piece.action) j k = (rendering put m ps k).map fun k =>
      (j + (directives (ps.map Piece.action)).length, k) := by
  induction ps generalizing j k with
  | nil => rfl
  | cons p ps ih =>
      cases p with
      | lit ch => exact ih hchar hargs
      | conv d v =>
          have hdir : directives ((Piece.conv d v :: ps).map Piece.action)
              = d :: directives (ps.map Piece.action) := rfl
          rw [hdir, List.mem_cons, not_or] at hchar
          obtain ⟨rfl, hargs⟩ := hargs
          rw [hdir, List.length_cons, Nat.add_comm _ 1, ← Nat.add_assoc]
          show (d.perform put m (args j) k >>= _)
            = Except.map _ (d.render put m ((args j).setWidth d.width) k >>= _)
          rw [Conv.perform, if_neg (Ne.symm hchar.1)]
          cases d.render put m ((args j).setWidth d.width) k with
          | error e => rfl
          | ok k' => exact ih hchar.2 hargs

end Actions

/-- `kprintf` interprets the formats that do not reach a `%c`, and no others. It takes the argument
of a `%c` as a `char`, for which the behaviour is undefined, and everything else is done as the
format asks for. -/
theorem interpretsExactly_iff {cs : List (BitVec 8)} (hcs : 0 ∉ cs) :
    InterpretsExactly cs ↔ Conv.char ∉ directives (parse cs) := by
  constructor
  · intro h hchar
    -- All arguments are pointers to an empty string, so nothing else stops the run.
    have hstring : ∃ ds, Emits (fun _ put => printstr put (strAt (fun _ => 0) 0)) ds :=
      ⟨[], printstr_emits (show strAt (fun _ => 0) 0 (0 : Nat) = some 0 from rfl) (by decide)⟩
    have hformat := nulTerminated_arrayAt hcs
    obtain ⟨r, hr, -⟩ := h.returns Unit (fun _ _ => ()) (fun _ => 0) _ (fun _ => 0) (cs.length + 1) ()
      hformat (Nat.lt_succ_self _) fun _ _ => hstring
    have hrun := printf_eq (fun _ _ => ()) (fun _ => 0) (fun _ => 0) hformat (Nat.lt_succ_self _) ()
    rw [hr] at hrun
    -- The run returned, so its actions did.
    obtain ⟨t, ht, -⟩ := map_eq_ok.mp hrun.symm
    exact perform_char hchar ht
  · intro hchar
    constructor
    · intro ps hok hps κ put m format args rounds k hformat hargs hrounds
      have hparse : parse cs = ps.map Piece.action := hps ▸ parse_formatOf hok
      rw [hparse] at hchar
      rw [printf_eq put m args hformat hrounds, hparse, perform_pieces hchar hargs, Nat.zero_add,
        map_map]
    · intro κ put m format args rounds k hformat hrounds hs
      have hrun := printf_eq put m args hformat hrounds k
      have hstrings : ∀ i, (directives (parse cs))[i]? = some .string →
          ∃ ds, Emits (fun _ put => printstr put (strAt m (args (0 + i)))) ds := by
        intro i hi
        rw [Nat.zero_add]
        exact hs i hi
      obtain ⟨t, ht⟩ := perform_returns put hchar hstrings k
      rw [ht] at hrun
      obtain ⟨r, hr, hseen⟩ := map_eq_ok.mp hrun
      exact ⟨r, hr, congrArg (fun t => t.1) hseen⟩

/-- `"%lu at %p"`, a format as `main` uses it: neither directive is a `%c`, so `kprintf` prints it
as it should. -/
theorem interpretsExactly_pointer :
    InterpretsExactly (['%', 'l', 'u', ' ', 'a', 't', ' ', '%', 'p'].map chr) :=
  (interpretsExactly_iff (by decide)).mpr (by decide)

/-- `"%c"` with the argument `'A'`: nothing is put, as the behaviour is undefined from the point on
where the argument is taken. -/
theorem not_interpretsExactly_char : ¬ InterpretsExactly (['%', 'c'].map chr) := by
  intro h
  have hnonul : 0 ∉ ['%', 'c'].map chr := by decide
  have hformat := nulTerminated_arrayAt hnonul
  have hparse : parse (['%', 'c'].map chr) = [.conv .char] := parse_conv .char []
  have hrun := h.exact [.conv .char (chr 'A')] (by simp [Piece.Ok]) rfl (List (BitVec 8))
    (fun k c => k ++ [c]) (fun _ => 0) _ (fun _ => 0x41) 3 [] hformat ⟨rfl, trivial⟩ (by decide)
  rw [printf_eq _ _ _ hformat (by decide), hparse] at hrun
  cases hrun

end SumiOS
