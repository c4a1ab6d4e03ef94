/-
  THE ATOMIC OPERATIONS of wfe_mutex.

  Every function of the library works on one memory word, a `uint8_t`, `uint16_t`, `uint32_t` or
  `uint64_t` behind the pointer it is given.  `Op w` lists the indivisible operations the sources
  perform on a word of `w` bits: the `__atomic_*` built-ins with their memory orders, the arming
  and waiting instructions of the three monitor extensions, `yield`/`pause`, and the read of the
  cycle counter.  Two operations have no answer, because the program never continues: `print_error`
  (`__builtin_unreachable` follows its write) and the trap of a division by zero.

  `Effect v o a v'` is the meaning of an operation on the word alone: at the value `v` the
  operation `o` may be answered by `a`, and leaves `v'`.  The compare-exchange is the strong one
  (the `weak` argument is `false` at every call in `wfe_mutex.h`), so it fails only on a
  different value, which it then reports.
-/
import WfeMutex.Conc.Spec
import WfeMutex.Conc.View

namespace WfeMutex

open Conc

/-- The instructions that arm a monitor without loading. -/
inductive ArmInsn where
  /-- `monitorx` with its extension and hint registers. -/
  | monitorx (extension hints : BitVec 32)
  | umonitor
  deriving DecidableEq, Repr

/-- The instructions a thread sleeps in, with the registers they read. -/
inductive WaitInsn where
  | wfe
  /-- `wfet`: the absolute deadline. -/
  | wfet (cyclesEnd : BitVec 64)
  /-- `mwaitx`: hints in `eax`, extensions in `ecx`, the relative timeout in `ebx` if any. -/
  | mwaitx (waitxHints waitxExtensions : BitVec 32) (cyclesRemaining : Option (BitVec 32))
  /-- `umwait`: the power state, and the absolute deadline in `edx:eax`. -/
  | umwait (powerState timeoutLower timeoutUpper : BitVec 32)
  deriving DecidableEq, Repr

/-- The indivisible operations on a word of `w` bits. -/
inductive Op (w : Nat) where
  /-- `__atomic_load_n`, `ldar*`. -/
  | loadN (mo : MemOrder)
  /-- `__atomic_store_n`. -/
  | storeN (value : BitVec w) (mo : MemOrder)
  /-- `__atomic_compare_exchange_n` with `weak = false`. -/
  | compareExchangeN (expected desired : BitVec w) (success failure : MemOrder)
  /-- `__atomic_fetch_sub`. -/
  | fetchSub (value : BitVec w) (mo : MemOrder)
  /-- `ldaxr*`/`ldaex*`: load-acquire that also arms the exclusive monitor. -/
  | loadExclusive
  | arm (insn : ArmInsn)
  | wait (insn : WaitInsn)
  | doYield
  /-- `read_cycle_counter`; `against` is the deadline the source compares the reading with, if
      the reading is made for a comparison. -/
  | readCycleCounter (against : Option (BitVec 64))
  | printError (msg : String)
  /-- Division by zero. -/
  | trap
  deriving DecidableEq, Repr

/-- What each operation answers. -/
@[reducible] def Op.Ans {w : Nat} : Op w → Type
  | .loadN _ | .fetchSub _ _ | .loadExclusive => BitVec w
  | .compareExchangeN _ _ _ _ => Bool × BitVec w
  | .storeN _ _ | .arm _ | .wait _ | .doYield => Unit
  | .readCycleCounter _ => BitVec 64
  | .printError _ | .trap => Empty

/-- The operations on one word of `w` bits, as a signature. -/
abbrev atomics (w : Nat) : Sig := ⟨Op w, Op.Ans⟩

section
variable {w : Nat}

/-- At the value `v`, the operation may be answered by `a` and leaves the value `v'`. -/
inductive Effect : BitVec w → (o : Op w) → o.Ans → BitVec w → Prop where
  | loadN (v : BitVec w) (mo : MemOrder) : Effect v (.loadN mo) v v
  | storeN (v x : BitVec w) (mo : MemOrder) : Effect v (.storeN x mo) () x
  | exchanged (e d : BitVec w) (s f : MemOrder) :
      Effect e (.compareExchangeN e d s f) (true, e) d
  | differs {v e : BitVec w} (d : BitVec w) (s f : MemOrder) (h : v ≠ e) :
      Effect v (.compareExchangeN e d s f) (false, v) v
  | fetchSub (v x : BitVec w) (mo : MemOrder) : Effect v (.fetchSub x mo) v (v - x)
  | loadExclusive (v : BitVec w) : Effect v .loadExclusive v v
  | arm (v : BitVec w) (i : ArmInsn) : Effect v (.arm i) () v
  | wait (v : BitVec w) (i : WaitInsn) : Effect v (.wait i) () v
  | doYield (v : BitVec w) : Effect v .doYield () v
  | readCycleCounter (v : BitVec w) (d : Option (BitVec 64)) (c : BitVec 64) :
      Effect v (.readCycleCounter d) c v

/-- Did the operation, answered so, write the word? -/
def Op.writes : (o : Op w) → o.Ans → Bool
  | .storeN _ _, _ | .fetchSub _ _, _ => true
  | .compareExchangeN _ _ _ _, a => a.1
  | _, _ => false

/-- The value an operation that only looks at the word saw there. -/
def Op.sees : (o : Op w) → o.Ans → Option (BitVec w)
  | .loadN _, a | .loadExclusive, a => some a
  | _, _ => none

/-- The operations a wait function performs: they never write the word or report an error. -/
def Op.quiet : Op w → Bool
  | .storeN _ _ | .fetchSub _ _ | .compareExchangeN _ _ _ _ | .printError _ => false
  | _ => true

theorem Op.writes_of_quiet {o : Op w} (h : o.quiet = true) (a : o.Ans) : o.writes a = false := by
  cases o <;> first | rfl | cases h

theorem Effect.eq_of_not_writes {v v' : BitVec w} {o : Op w} {a : o.Ans} (h : Effect v o a v')
    (ha : o.writes a = false) : v' = v := by
  cases h <;> first | rfl | cases ha

theorem Effect.sees {v v' x : BitVec w} {o : Op w} {a : o.Ans} (h : Effect v o a v')
    (hx : o.sees a = some x) : x = v := by
  cases h <;> cases hx <;> rfl

/-- An exchange happens at the expected value. -/
theorem Effect.exchange_of_eq {v e d : BitVec w} {s f : MemOrder} (h : v = e) :
    Effect v (.compareExchangeN e d s f) (true, v) d := by
  subst h
  exact .exchanged v d s f

/-- An exchange that happened found the expected value. -/
theorem Effect.exchanged_inv {v v' e d : BitVec w} {s f : MemOrder} {a : Bool × BitVec w}
    (h : Effect v (.compareExchangeN e d s f) a v') (ha : a.1 = true) : v = e ∧ v' = d := by
  cases h with
  | exchanged => exact ⟨rfl, rfl⟩
  | differs => cases ha

/-- An exchange that failed found another value, and reports it. -/
theorem Effect.differs_inv {v v' e d : BitVec w} {s f : MemOrder} {a : Bool × BitVec w}
    (h : Effect v (.compareExchangeN e d s f) a v') (ha : a.1 = false) :
    v ≠ e ∧ v' = v ∧ a.2 = v := by
  cases h with
  | exchanged => cases ha
  | differs _ _ _ hne => exact ⟨hne, rfl, rfl⟩

/-! ## The operations as programs -/

/-- The program of one operation. -/
def act (o : Op w) : Prog (atomics w) o.Ans := @Prog.perform (atomics w) o

def atomicLoadN (mo : MemOrder) : Prog (atomics w) (BitVec w) := act (.loadN mo)

def atomicStoreN (value : BitVec w) (mo : MemOrder) : Prog (atomics w) Unit :=
  act (.storeN value mo)

/-- Whether the exchange happened, and `expected` as the built-in leaves it. -/
def atomicCompareExchangeN (expected desired : BitVec w) (success failure : MemOrder) :
    Prog (atomics w) (Bool × BitVec w) :=
  act (.compareExchangeN expected desired success failure)

def atomicFetchSub (value : BitVec w) (mo : MemOrder) : Prog (atomics w) (BitVec w) :=
  act (.fetchSub value mo)

def loadExclusive : Prog (atomics w) (BitVec w) := act .loadExclusive

def armWith (insn : ArmInsn) : Prog (atomics w) Unit := act (.arm insn)

def waitIn (insn : WaitInsn) : Prog (atomics w) Unit := act (.wait insn)

def doYield : Prog (atomics w) Unit := act .doYield

def readCycleCounter : Prog (atomics w) (BitVec 64) := act (.readCycleCounter none)

/-- The reading in `read_cycle_counter() >= cycles_end`. -/
def readCycleCounterAgainst (cyclesEnd : BitVec 64) : Prog (atomics w) (BitVec 64) :=
  act (.readCycleCounter (some cyclesEnd))

/-- The message is written to stderr and the program does not continue. -/
def printError {α : Type} (msg : String) : Prog (atomics w) α :=
  (act (.printError msg)).bind fun a => a.elim

/-- A division by zero. -/
def trap {α : Type} : Prog (atomics w) α := (act .trap).bind fun a => a.elim

end

end WfeMutex
