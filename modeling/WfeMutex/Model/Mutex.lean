/-
  THE TWO LOCKS (`include/wfe_mutex/wfe_mutex.h`).

  `wfe_mutex_lock` keeps 0 (free) or 1 (held) in its word; `wfe_mutex_rwlock` keeps the top bit for
  a writer and the number of shared locks in the lower 31 bits.  Every function below is the
  header's, statement by statement, with three things made explicit: `debug` says whether the
  header was compiled with `WFE_MUTEX_DEBUG = 1` (otherwise the `sanity_check_*` functions are
  empty), `F` is the table that `wfe_mutex_get_features()` returns, and the memory orders are
  arguments of the operations as in the source.

  `LockCall` and `RwlockCall` collect the functions of each lock as calls with a Boolean result;
  a call of a `void` function answers `true`.
-/
import WfeMutex.Model.Detect

namespace WfeMutex

open Conc

/-- `1U << 31`. -/
def TOP_BIT : BitVec 32 := 1 <<< 31

section
variable (debug : Bool)

/-! ## The debug checks -/

def sanityCheckRdwrlockValue (value : BitVec 32) : Prog (atomics 32) Unit := do
  if debug then
    if value &&& TOP_BIT != 0 then
      -- if the top bit is set, all the lower bits are expected to be zero
      if value &&& ~~~TOP_BIT != 0 then
        printError "rdwrlock state inconsistent! Has write lock set and also shared mutex bits!\n"

def sanityCheckRdwrlockReadReadyValue (value : BitVec 32) : Prog (atomics 32) Unit := do
  if debug then
    if value &&& TOP_BIT != 0 then
      printError "rdwrlock state inconsistent! Expected no writer ownership!!\n"

def sanityCheckRdwrlockMutex : Prog (atomics 32) Unit := do
  if debug then
    let value ← atomicLoadN .seqCst
    sanityCheckRdwrlockValue debug value

def sanityCheckRdwrlockUnlockMutex : Prog (atomics 32) Unit := do
  if debug then
    -- the top bit must be set and the rest of the bits zero
    let value ← atomicLoadN .seqCst
    if value &&& TOP_BIT != 0 then
      if value &&& ~~~TOP_BIT != 0 then
        printError "rdwrlock state inconsistent! Has write lock set and also shared mutex bits!\n"
    else if value &&& ~~~TOP_BIT != 0 then
      printError "rdwrlock trying to write unlock. Wasn't unique locked and has shared readers!\n"
    else
      printError "rdwrlock trying to write unlock. Wasn't unique locked!\n"

def sanityCheckRdwrlockUnlockSharedMutex : Prog (atomics 32) Unit := do
  if debug then
    -- the top bit must not be set and the lower bits must not be zero
    let value ← atomicLoadN .seqCst
    if value &&& TOP_BIT != 0 then
      printError "rdwrlock trying to read unlock. Was unique locked!\n"
    else if value &&& ~~~TOP_BIT == 0 then
      printError "rdwrlock trying to read unlock. Wasn't read locked!\n"

def sanityCheckWrlockValue (value : BitVec 32) : Prog (atomics 32) Unit := do
  if debug then
    -- write lock values can only be 0 and 1
    if value &&& ~~~1 != 0 then
      printError "wrlock state inconsistent! Has invalid upper bits set!\n"

def sanityCheckWrlockMutex : Prog (atomics 32) Unit := do
  if debug then
    let value ← atomicLoadN .seqCst
    sanityCheckWrlockValue debug value

def sanityCheckWrlockUnlockMutex : Prog (atomics 32) Unit := do
  if debug then
    -- only the bottom bit must be set
    let value ← atomicLoadN .seqCst
    if value &&& ~~~1 != 0 then
      printError "wrlock state inconsistent! Has invalid upper bits set!\n"
    if value &&& 1 == 0 then
      printError "rdwrlock trying to write unlock. Wasn't unique locked!\n"

variable (F : Features)

/-! ## Exclusive acquisition

  The functions of `wfe_mutex_lock` and the write side of `wfe_mutex_rwlock` have the same text but
  for the value they exchange 0 for (`desired`) and the checks they make. -/

/-- `wfe_mutex_lock_lock`, `wfe_mutex_rwlock_wrlock`. -/
def exclusiveLock (check : Prog (atomics 32) Unit) (desired : BitVec 32) (lowPower : Bool) :
    Prog (atomics 32) Unit := do
  check
  -- try to CAS immediately
  let (exchanged, _) ← atomicCompareExchangeN 0 desired .acquire .acquire
  if exchanged then return ()
  .iter (fun _ => do
    F.waitForValueI32 0 lowPower
    check
    let (exchanged, _) ← atomicCompareExchangeN 0 desired .acquire .acquire
    if exchanged == false then return .again ()
    return .leave ()) ()

/-- `wfe_mutex_lock_trylock`, `wfe_mutex_rwlock_trylock`. -/
def exclusiveTrylock (check : Prog (atomics 32) Unit) (desired : BitVec 32) :
    Prog (atomics 32) Bool := do
  check
  let (exchanged, _) ← atomicCompareExchangeN 0 desired .acquire .acquire
  if exchanged then return true
  return false

/-- `wfe_mutex_lock_timedlock`, `wfe_mutex_rwlock_timedwrlock`. -/
def exclusiveTimedlock (check : Prog (atomics 32) Unit) (desired : BitVec 32)
    (nanoseconds : BitVec 64) (lowPower : Bool) : Prog (atomics 32) Bool := do
  check
  let (exchanged, _) ← atomicCompareExchangeN 0 desired .acquire .acquire
  if exchanged then return true
  .iter (fun _ => do
    -- if timed-out then early exit
    if !(← F.waitForValueTimeoutI32 F.toCycleScale 0 nanoseconds lowPower) then
      return .leave false
    check
    let (exchanged, _) ← atomicCompareExchangeN 0 desired .acquire .acquire
    if exchanged == false then return .again ()
    return .leave true) ()

/-- `wfe_mutex_lock_unlock`, `wfe_mutex_rwlock_unlock`: unlocking is just storing zero. -/
def exclusiveUnlock (check unlockCheck : Prog (atomics 32) Unit) : Prog (atomics 32) Unit := do
  check
  unlockCheck
  atomicStoreN 0 .release

/-! ## wfe_mutex_lock -/

def lockLock (lowPower : Bool) : Prog (atomics 32) Unit :=
  exclusiveLock F (sanityCheckWrlockMutex debug) 1 lowPower

def lockTrylock : Prog (atomics 32) Bool :=
  exclusiveTrylock (sanityCheckWrlockMutex debug) 1

def lockUnlock : Prog (atomics 32) Unit :=
  exclusiveUnlock (sanityCheckWrlockMutex debug) (sanityCheckWrlockUnlockMutex debug)

def lockTimedlock (nanoseconds : BitVec 64) (lowPower : Bool) : Prog (atomics 32) Bool :=
  exclusiveTimedlock F (sanityCheckWrlockMutex debug) 1 nanoseconds lowPower

/-! ## wfe_mutex_rwlock -/

def rwlockRdlock (lowPower : Bool) : Prog (atomics 32) Unit := do
  sanityCheckRdwrlockMutex debug
  -- uncontended: 0 to 1
  let (exchanged, expected) ← atomicCompareExchangeN 0 1 .acquire .acquire
  if exchanged then return ()
  -- read-only: the value the first exchange saw, without the writer's bit
  let expected := expected &&& ~~~TOP_BIT
  let (exchanged, _) ← atomicCompareExchangeN expected (expected + 1) .acquire .acquire
  if exchanged then return ()
  .iter (fun _ => do
    let expected ← F.waitForBitNotSetI32 31 lowPower
    sanityCheckRdwrlockValue debug expected
    sanityCheckRdwrlockReadReadyValue debug expected
    let (exchanged, _) ← atomicCompareExchangeN expected (expected + 1) .acquire .acquire
    if exchanged == false then return .again ()
    return .leave ()) ()

def rwlockWrlock (lowPower : Bool) : Prog (atomics 32) Unit :=
  exclusiveLock F (sanityCheckRdwrlockMutex debug) TOP_BIT lowPower

def rwlockTimedwrlock (nanoseconds : BitVec 64) (lowPower : Bool) : Prog (atomics 32) Bool :=
  exclusiveTimedlock F (sanityCheckRdwrlockMutex debug) TOP_BIT nanoseconds lowPower

def rwlockTrylock : Prog (atomics 32) Bool :=
  exclusiveTrylock (sanityCheckRdwrlockMutex debug) TOP_BIT

def rwlockTrylockShared : Prog (atomics 32) Bool := do
  sanityCheckRdwrlockMutex debug
  let expected := (← atomicLoadN .acquire) &&& ~~~TOP_BIT
  let (exchanged, _) ← atomicCompareExchangeN expected (expected + 1) .acquire .acquire
  if exchanged then return true
  return false

def rwlockUnlock : Prog (atomics 32) Unit :=
  exclusiveUnlock (sanityCheckRdwrlockMutex debug) (sanityCheckRdwrlockUnlockMutex debug)

def rwlockReadUnlock : Prog (atomics 32) Unit := do
  sanityCheckRdwrlockMutex debug
  sanityCheckRdwrlockUnlockSharedMutex debug
  let _ ← atomicFetchSub 1 .acquire
  return ()

end

/-! ## The functions of a lock as calls -/

/-- A call of a `void` function, answered `true` when it returns. -/
def returning (p : Prog (atomics 32) Unit) : Prog (atomics 32) Bool := do
  p
  return true

/-- The calls on a `wfe_mutex_lock`. -/
inductive LockCall where
  | lock (lowPower : Bool)
  | trylock
  | timedlock (nanoseconds : BitVec 64) (lowPower : Bool)
  | unlock
  deriving DecidableEq, Repr

/-- The calls on a `wfe_mutex_rwlock`. -/
inductive RwlockCall where
  | rdlock (lowPower : Bool)
  | wrlock (lowPower : Bool)
  | timedwrlock (nanoseconds : BitVec 64) (lowPower : Bool)
  | trylock
  | trylockShared
  | unlock
  | readUnlock
  deriving DecidableEq, Repr

def LockCall.prog (debug : Bool) (F : Features) : LockCall → Prog (atomics 32) Bool
  | .lock lowPower => returning (lockLock debug F lowPower)
  | .trylock => lockTrylock debug
  | .timedlock nanoseconds lowPower => lockTimedlock debug F nanoseconds lowPower
  | .unlock => returning (lockUnlock debug)

def RwlockCall.prog (debug : Bool) (F : Features) : RwlockCall → Prog (atomics 32) Bool
  | .rdlock lowPower => returning (rwlockRdlock debug F lowPower)
  | .wrlock lowPower => returning (rwlockWrlock debug F lowPower)
  | .timedwrlock nanoseconds lowPower => rwlockTimedwrlock debug F nanoseconds lowPower
  | .trylock => rwlockTrylock debug
  | .trylockShared => rwlockTrylockShared debug
  | .unlock => returning (rwlockUnlock debug)
  | .readUnlock => returning (rwlockReadUnlock debug)

end WfeMutex
