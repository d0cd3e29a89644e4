import SumiOS.Lib.ByteMem
import SumiOS.Tty
import SumiOS.Types

/-!
# `SumiOS.Print`: numbers, strings and formats on the console

`lib/print.c`, and the functions of `arch/x86/boot/tty_boot.c` that print strings and
numbers while booting. The bodies of the two copies are the same but for the function
that puts a character, so each is written once, over `put`; `kprintnum`, `kprinthex`,
`bootPrintnum` and the others are its instances.

A `const char *` is what its elements read as (`CStr`). `n_str` is the list of its
elements from `idx` on, so that `idx` is 30 less its length. The `va_list` is the list
of the 8-byte slots in which the arguments were passed, and the number of those that
were taken.

`va_start` and `va_end` do nothing here, and `kputs` is not used by the others.
-/

set_option autoImplicit false

namespace SumiOS

open Lib

/-- Why a function does not return: it reads or writes an array outside of its bounds, it
does what has no defined behaviour, or its loop does not end. -/
inductive Fault
  | outside
  | undefined
  | endless
deriving DecidableEq

/-- A character constant. -/
def chr (c : Char) : BitVec 8 := BitVec.ofNat 8 c.toNat

/-! ### Strings -/

/-- `str[i]` for a `const char *str`, `none` being outside of the array. -/
abbrev CStr := Int → Option (BitVec 8)

/-- A pointer to the first element of an array. -/
def arrayAt (cs : List (BitVec 8)) : CStr := fun i => if 0 ≤ i then cs[i.toNat]? else none

/-- A pointer into memory. -/
def strAt (m : Mem) (p : Word) : CStr := fun i => some (m (p + BitVec.ofInt 64 i))

section Put

variable {κ : Type} (put : κ → BitVec 8 → κ)

/-- The loop of `kprintstr`. The counter bounds the rounds. -/
def printstrLoop (str : CStr) : Nat → BitVec 32 → κ → Except Fault κ
  | 0, _, _ => .error .endless
  | rounds + 1, i, k =>
      match str i.toInt with
      | none => .error .outside
      | some ch => if ch = 0 then .ok k else printstrLoop str rounds (i + 1) (put k ch)

/-- The rounds of `kprintstr`: `i` is an `int`, and starts again after them. -/
def printstrRounds : Nat := 2 ^ 32

/-- `kprintstr` and `boot_printstr`. -/
def printstr (str : CStr) (k : κ) : Except Fault κ := printstrLoop put str printstrRounds 0 k

/-! ### Numbers -/

/-- The size of `n_str`. -/
def N_STR_SIZE : Nat := 30

/-- The loop that writes the digits of a number to `n_str`. There is no room at
`idx = 0`: the next write would be to `n_str[-1]`. -/
def digitLoop (digit : Word → BitVec 8) (next : Word → Word) :
    Nat → List (BitVec 8) → Word → Except Fault (List (BitVec 8))
  | 0, _, _ => .error .outside
  | idx + 1, nStr, n =>
      let nStr := digit n :: nStr
      let n := next n
      if n = 0 then .ok nStr else digitLoop digit next idx nStr n

/-- `(n % 10) + '0'`, as a `char`. -/
def numDigit (n : Word) : BitVec 8 := (n.srem 10 + (chr '0').setWidth 64).setWidth 8

/-- The digit that `kprinthex` writes. -/
def hexDigit (n : Word) : BitVec 8 :=
  let curr := n % 16
  if curr ≥ 10 then (curr - 10 + (chr 'a').setWidth 64).setWidth 8
  else (curr + (chr '0').setWidth 64).setWidth 8

/-- `kprintnum` and `boot_printnum`. -/
def printnum (n : Word) (k : κ) : Except Fault κ := do
  -- `n_str[--idx] = '\0'`.
  let nStr := [0]
  let idx := N_STR_SIZE - 1
  let (k, n) := if n.slt 0 then (put k (chr '-'), -n) else (k, n)
  let nStr ← digitLoop numDigit (·.sdiv 10) idx nStr n
  printstr put (arrayAt nStr) k

/-- `kprinthex` and `boot_printhex`. -/
def printhex (n : Word) (k : κ) : Except Fault κ := do
  let nStr := [0]
  let idx := N_STR_SIZE - 1
  let nStr ← digitLoop hexDigit (· / 16) idx nStr n
  printstr put (arrayAt nStr) k

/-! ### `kprintf` -/

/-- `PRINT_STATUS_CHAR` and `PRINT_STATUS_MID_SYMBOL`. -/
inductive PrintStatus
  | char
  | midSymbol
deriving DecidableEq

/-- The variables of `kprintf`: the index of the next character of the format, the number
of arguments that were taken, and `status`. `out` is where the characters go. -/
structure Printf (κ : Type) where
  format : Nat
  args : Nat
  status : PrintStatus
  out : κ

/-- Take the next argument, and print it. -/
def vaArg (args : Nat → Word) (print : Word → κ → Except Fault κ) (s : Printf κ) :
    Except Fault (Printf κ) :=
  (print (args s.args) s.out).map fun out => { s with args := s.args + 1, out := out }

/-- The directives behind `%l`. -/
def midSymbol (args : Nat → Word) (ch : BitVec 8) (s : Printf κ) : Except Fault (Printf κ) :=
  if ch = chr 'd' then vaArg args (printnum put) s
  else if ch = chr 'u' then vaArg args (printnum put) s
  else if ch = chr 'x' then vaArg args (printhex put) s
  else .ok s

/-- The directives behind `%`, but for `l`. A `char` argument is passed as an `int`, and
so `va_arg(args, char)` has no defined behaviour: the compiler of the `Makefile` puts a
trap there. -/
def symbol (m : Mem) (args : Nat → Word) (ch : BitVec 8) (s : Printf κ) : Except Fault (Printf κ) :=
  if ch = chr 'c' then .error .undefined
  else if ch = chr 's' then vaArg args (fun p => printstr put (strAt m p)) s
  else if ch = chr 'd' then vaArg args (fun w => printnum put ((w.setWidth 32).signExtend 64)) s
  else if ch = chr 'u' then vaArg args (fun w => printnum put ((w.setWidth 32).setWidth 64)) s
  else if ch = chr 'x' then vaArg args (fun w => printhex put ((w.setWidth 32).setWidth 64)) s
  else if ch = chr 'p' then
    vaArg args (fun w k => do
      let k ← printstr put (arrayAt [chr '0', chr 'x', 0]) k
      printhex put w k) s
  else .ok s

mutual

/-- The `while` loop of `kprintf`. The counter bounds the characters that are read. -/
def printfLoop (m : Mem) (format : CStr) (args : Nat → Word) :
    Nat → Printf κ → Except Fault (Printf κ)
  | 0, _ => .error .endless
  | rounds + 1, s =>
      match format s.format with
      | none => .error .outside
      | some ch =>
          let s := { s with format := s.format + 1 }
          if ch = 0 then .ok s
          else if ch ≠ chr '%' then
            printfLoop m format args rounds { s with out := put s.out ch, status := .char }
          else printfRepeat m format args rounds s

/-- The rest of its body, from the label `repeat` on. -/
def printfRepeat (m : Mem) (format : CStr) (args : Nat → Word) :
    Nat → Printf κ → Except Fault (Printf κ)
  | 0, _ => .error .endless
  | rounds + 1, s =>
      match format s.format with
      | none => .error .outside
      | some ch =>
          let s := { s with format := s.format + 1 }
          if ch = 0 then .ok s
          else if s.status = .midSymbol then do
            let s ← midSymbol put args ch s
            printfLoop m format args rounds { s with status := .char }
          else if ch = chr 'l' then
            printfRepeat m format args rounds { s with status := .midSymbol }
          else do
            let s ← symbol put m args ch s
            printfLoop m format args rounds { s with status := .char }

end

/-- `kprintf`. -/
def printf (m : Mem) (format : CStr) (args : Nat → Word) (rounds : Nat) (k : κ) :
    Except Fault (Printf κ) :=
  printfLoop put m format args rounds ⟨0, 0, .char, k⟩

end Put

/-! ### The two copies -/

def kprintstr (str : CStr) (c : Console) : Except Fault Console := printstr kputchar str c

def kprintnum (n : Word) (c : Console) : Except Fault Console := printnum kputchar n c

def kprinthex (n : Word) (c : Console) : Except Fault Console := printhex kputchar n c

def kprintf (m : Mem) (format : CStr) (args : Nat → Word) (rounds : Nat) (c : Console) :
    Except Fault Console :=
  (printf kputchar m format args rounds c).map (·.out)

def bootPrintstr (str : CStr) (c : Console) : Except Fault Console := printstr bootPutchar str c

def bootPrintnum (n : Word) (c : Console) : Except Fault Console := printnum bootPutchar n c

def bootPrinthex (n : Word) (c : Console) : Except Fault Console := printhex bootPutchar n c

end SumiOS
