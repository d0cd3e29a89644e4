import SumiOS.Lib.ByteMem
import SumiOS.Types

/-!
# `SumiOS.String`: `memcpy`

`lib/string.c`. `memset` is `Mem.memset`, and nothing calls `strlen`.
-/

set_option autoImplicit false

namespace SumiOS

open Lib

/-- The loop of `memcpy`. The counter is `sz`. -/
def memcpyLoop : Nat → Word → Word → Mem → Mem
  | 0, _, _, m => m
  | sz + 1, dst, src, m => memcpyLoop sz (dst + 1) (src + 1) (Function.update m dst (m src))

/-- `memcpy`, which returns `dst`. -/
def memcpy (m : Mem) (dst src sz : Word) : Mem := memcpyLoop sz.toNat dst src m

end SumiOS
