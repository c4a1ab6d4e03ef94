/-
  THE C++ CLASSES (`include/wfe_mutex/wfe_mutex.hpp`).

  `wfe_mutex::mutex<low_power>` and `wfe_mutex::shared_mutex<low_power>` each wrap one lock of
  `wfe_mutex.h`.  A member function is the C function it calls, with the template's `low_power`
  where that function asks for it.  `native_handle` returns the wrapped lock itself, so a program
  may mix member functions with C functions on one object; the sums `MutexUse` and
  `SharedMutexUse` are all the calls there are on such an object, `prog` what they do.
-/
import WfeMutex.Model.Mutex

namespace WfeMutex

open Conc

/-- The member functions of `mutex<low_power>`. -/
inductive MutexMember where
  | lock | unlock | tryLock
  deriving DecidableEq, Repr

/-- The member functions of `shared_mutex<low_power>`. -/
inductive SharedMutexMember where
  | lock | tryLock | unlock | lockShared | tryLockShared | unlockShared
  deriving DecidableEq, Repr

/-- A call on a `mutex`: a member function, or a C function on its `native_handle()`. -/
abbrev MutexUse := MutexMember ⊕ LockCall

/-- A call on a `shared_mutex`: a member function, or a C function on its `native_handle()`. -/
abbrev SharedMutexUse := SharedMutexMember ⊕ RwlockCall

section
variable (debug : Bool) (F : Features) (lowPower : Bool)

/-! ## mutex -/

def Mutex.lock : Prog (atomics 32) Unit := lockLock debug F lowPower

def Mutex.unlock : Prog (atomics 32) Unit := lockUnlock debug

def Mutex.tryLock : Prog (atomics 32) Bool := lockTrylock debug

def MutexUse.prog : MutexUse → Prog (atomics 32) Bool
  | .inl .lock => returning (Mutex.lock debug F lowPower)
  | .inl .unlock => returning (Mutex.unlock debug)
  | .inl .tryLock => Mutex.tryLock debug
  | .inr c => c.prog debug F

/-! ## shared_mutex -/

def SharedMutex.lock : Prog (atomics 32) Unit := rwlockWrlock debug F lowPower

def SharedMutex.tryLock : Prog (atomics 32) Bool := rwlockTrylock debug

def SharedMutex.unlock : Prog (atomics 32) Unit := rwlockUnlock debug

def SharedMutex.lockShared : Prog (atomics 32) Unit := rwlockRdlock debug F lowPower

def SharedMutex.tryLockShared : Prog (atomics 32) Bool := rwlockTrylockShared debug

def SharedMutex.unlockShared : Prog (atomics 32) Unit := rwlockReadUnlock debug

def SharedMutexUse.prog : SharedMutexUse → Prog (atomics 32) Bool
  | .inl .lock => returning (SharedMutex.lock debug F lowPower)
  | .inl .tryLock => SharedMutex.tryLock debug
  | .inl .unlock => returning (SharedMutex.unlock debug)
  | .inl .lockShared => returning (SharedMutex.lockShared debug F lowPower)
  | .inl .tryLockShared => SharedMutex.tryLockShared debug
  | .inl .unlockShared => returning (SharedMutex.unlockShared debug)
  | .inr c => c.prog debug F

end

end WfeMutex
