import SumiOS.Multiboot
import SumiOS.Print
import SumiOS.Slub

/-!
# `SumiOS.Kernel`: the memory management as `main` uses it

`mm_init` from `mm/mm_init.c`, with the information of the boot loader, and the loop of
`kernel/main.c`, which asks for objects of all sizes and prints where they are. The other
calls of `main` are in `SumiOS.Tty` (`tty_init`) and `SumiOS.Interrupt` (`arch_init`).
-/

set_option autoImplicit false

namespace SumiOS

open Lib

/-! ### `mm_init` -/

/-- `mm_init`, with what it leaves of the linear allocator. The counters bound the rounds of
the walk over the tags and of the loops over the entries. `none` says that one of them does
not end or leaves the bounds of an array, or that there is no memory map: then the code
halts. -/
def mmInit (info : Mem) (mbi bootMemAllocStart kernPgtable : Word) (tags rounds : Nat) (s : Kmem) :
    Option (LinearAlloc × Kmem) := do
  let w ← tagLoop info tags (TagWalk.start mbi)
  if w.mmapInfo = 0 then none
  else
    let st ← initFromTag info w.mmapInfo bootMemAllocStart kernPgtable rounds s.mem s.buddy
    return (st.la, kmemCacheInit { s with buddy := st.buddy, mem := st.mem })

/-! ### The loop of `main` -/

/-- The rounds of the loop of `main`. -/
def MAIN_ROUNDS : Nat := 1145141919

/-- `0x10 << (i % 10)`. -/
def mainSize (i : Nat) : Word := 0x10 <<< (i % 10)

/-- The format of a round. -/
def mainFormat : List (BitVec 8) :=
  "[allocate time: %lu] get object at %p\n".toList.map chr

/-- The arguments of a round. -/
def mainArgs (i : Nat) (obj : Word) : Nat → Word
  | 0 => BitVec.ofNat 64 i
  | _ => obj

section

variable {κ : Type} (put : κ → BitVec 8 → κ)

/-- The loop of `main` from round `i` on, for `n` rounds. `put` puts a character on the
console. -/
def mainLoop : Nat → Nat → Kmem → κ → Except Fault (Kmem × κ)
  | _, 0, s, k => .ok (s, k)
  | i, n + 1, s, k =>
      match kmalloc s (mainSize i) with
      | none => .error .endless
      | some (s, obj) => do
          let r ← printf put s.mem (arrayAt (mainFormat ++ [0])) (mainArgs i obj)
            (mainFormat.length + 1) k
          mainLoop (i + 1) n s r.out

end

end SumiOS
