import SumiOS.Lib.Monitor
import SumiOS.PageAlloc

/-!
# `SumiOS.Lock`: the spin lock of the free lists

`include/sumios/atomic.h` and `lock.h`, and what `alloc_pages` and `free_pages` of
`mm/page_alloc.c` do under `freelist_lock`.

A compare-and-swap is one step, and one round of a loop that spins is one step. `spinLock`
and `spinUnlock` are one round, with the condition under which the loop ends.
-/

set_option autoImplicit false

namespace SumiOS

open Lib

/-! ### `sumios/atomic.h` -/

/-- `atomic_t`. -/
abbrev AtomicT := BitVec 32

def atomicCompareAndSwap (word oldval newval : AtomicT) : AtomicT × Bool :=
  if word = oldval then (newval, true) else (word, false)

/-! ### `sumios/lock.h` -/

def LOCK_USED : AtomicT := 1
def LOCK_FREE : AtomicT := 0

/-- `spinlock_t`. -/
structure Spinlock where
  counter : AtomicT
deriving DecidableEq

def spinLockInit : Spinlock := ⟨LOCK_FREE⟩

/-- A round of `spin_lock`. -/
def spinLock (lock : Spinlock) : Spinlock × Bool :=
  let r := atomicCompareAndSwap lock.counter LOCK_FREE LOCK_USED
  (⟨r.1⟩, r.2)

/-- A round of `spin_unlock`. -/
def spinUnlock (lock : Spinlock) : Spinlock × Bool :=
  let r := atomicCompareAndSwap lock.counter LOCK_USED LOCK_FREE
  (⟨r.1⟩, r.2)

/-- `freelist_lock`. -/
def freelistLock : LockWord Spinlock where
  free := spinLockInit
  used := ⟨LOCK_USED⟩
  acquire := spinLock
  release := spinUnlock
  acquire_free := rfl
  acquire_used := rfl
  release_used := rfl

/-! ### `mm/page_alloc.c` -/

/-- A call of `alloc_pages` or `free_pages`. -/
inductive PageCall
  | alloc (order : Nat)
  | free (p : Option Int) (order : Nat)

/-- What the call does under the lock, and what it returns. -/
def PageCall.locked (mapped : Int → Bool) : PageCall → Buddy → Buddy × Option Int
  | .alloc order, b => allocPagesLocked b order
  | .free p order, b => (freePagesLocked mapped b p order, none)

end SumiOS
