import GnuRadio.Library.Fair

/-! The lock of `reader_writer_lock.hpp`. Each step is one atomic access of one thread. `lock()` and `unlock()` return the
    counter that they leave. -/

namespace GnuRadio.ReaderWriterLock

open Function

inductive LockType
  | read
  | write
  deriving DecidableEq

/-- What a lock adds to the counter. -/
def LockType.increment : LockType → Int
  | .read => 1
  | .write => -1

def LockType.other : LockType → LockType
  | .read => .write
  | .write => .read

/-- What a compare-exchange expects, after a read of the counter. -/
def LockType.expected (value : Int) : LockType → Int
  | .read => if value < 0 then 0 else value
  | .write => if value > 0 then 0 else value

/-- Where a thread stands: outside, or in `lock()` (`mayWait`) or `tryLock()`. -/
inductive Stage
  | outside
  | load (lockType : LockType) (mayWait : Bool)
  | compareExchange (lockType : LockType) (mayWait : Bool) (expected : Int)
  deriving DecidableEq

/-- A thread, with the number of locks of each type that it holds. -/
structure Thread where
  stage : Stage
  held : LockType → Nat

/-- One access inside a call. A compare-exchange that fails reads the counter. -/
def Thread.access (value : Int) (t : Thread) : Option (Int × Thread) :=
  match t.stage with
  | .outside => none
  | .load lockType mayWait => some (value, { t with stage := .compareExchange lockType mayWait (lockType.expected value) })
  | .compareExchange lockType mayWait expected =>
    if value = expected then
      some (expected + lockType.increment, ⟨.outside, update t.held lockType (t.held lockType + 1)⟩)
    else
      some (value, { t with stage := if mayWait then .compareExchange lockType mayWait (lockType.expected value) else .outside })

structure State (τ : Type) where
  activeReaderCount : Int
  threads : τ → Thread

/-- A thread releases only what it holds. -/
inductive Act (τ : Type)
  | call (i : τ) (lockType : LockType) (mayWait : Bool)
  | access (i : τ)
  | unlock (i : τ) (lockType : LockType)

section
variable {τ : Type} [DecidableEq τ]

def step (s : State τ) : Act τ → Option (State τ)
  | .call i lockType mayWait =>
    if (s.threads i).stage = .outside then
      some { s with threads := update s.threads i { s.threads i with stage := .load lockType mayWait } }
    else none
  | .access i =>
    ((s.threads i).access s.activeReaderCount).map fun (value, t) => ⟨value, update s.threads i t⟩
  | .unlock i lockType =>
    let t := s.threads i
    if t.stage = .outside ∧ 0 < t.held lockType then
      some ⟨s.activeReaderCount - lockType.increment,
        update s.threads i { t with held := update t.held lockType (t.held lockType - 1) }⟩
    else none

end

def system (τ : Type) [DecidableEq τ] : Transition.System (State τ) (Act τ) where
  start s := s = ⟨0, fun _ => ⟨.outside, fun _ => 0⟩⟩
  step := step

end GnuRadio.ReaderWriterLock
