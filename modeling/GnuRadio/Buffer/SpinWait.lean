import Mathlib.Data.UInt

/-! The waiting of a thread that may not block: `SpinWait` (WaitStrategy.hpp). What a spin does with the processor, a pause, a
    yield or a sleep, only takes time, and the readings of the clock show it. -/

namespace GnuRadio.SpinWait

/-- `YIELD_THRESHOLD` -/
structure Params where
  yieldThreshold : Int

/-- A call of `spinUntil()` as its surroundings answer it: what the condition gives at each test, the clock in milliseconds
    when the call begins, and after each spin. The clock does not go back. -/
structure Surroundings where
  condition : Nat → Bool
  start : Int
  tickCount : Nat → Int
  started : start ≤ tickCount 0
  forward : ∀ k, tickCount k ≤ tickCount (k + 1)

/-- The value that a call returned, and the last test of the condition that it made. -/
structure Answer where
  value : Bool
  lastTest : Nat
  deriving DecidableEq, Repr

variable (p : Params)

def nextSpinWillYield (count : Int) : Bool := p.yieldThreshold < count

def spinOnce (count : Int) : Int := if count = 2 ^ 31 - 1 then p.yieldThreshold else count + 1

/-- The spin counter of a call after the `k`-th spin. -/
def countAfter (k : Nat) : Int := (spinOnce p)^[k] 0

variable (w : Surroundings) (millisecondsTimeout : Int)

/-- The local `num`. -/
def startTime : Int := if millisecondsTimeout ≠ 0 ∧ millisecondsTimeout ≠ -1 then w.start else 0

/-- The loop before test `k`. It is given the number of tests that it may make. -/
def loop : Nat → Nat → Int → Option Answer
  | 0, _, _ => none
  | fuel + 1, k, count =>
    if w.condition k then some ⟨true, k⟩
    else if millisecondsTimeout = 0 then some ⟨false, k⟩
    else
      let count := spinOnce p count
      if millisecondsTimeout ≠ 1 ∧ nextSpinWillYield p count ∧
          millisecondsTimeout ≤ w.tickCount k - startTime w millisecondsTimeout then
        some ⟨false, k⟩
      else loop fuel (k + 1) count

def spinUntil (fuel : Nat) : Except String (Option Answer) :=
  if millisecondsTimeout < -1 then throw "Timeout value is out of range"
  else pure (loop p w millisecondsTimeout fuel 0 0)

/-- `spinUntil()` returns this answer. -/
def Returns (a : Answer) : Prop := ∃ fuel, spinUntil p w millisecondsTimeout fuel = .ok (some a)

/-- What a call promises of its timeout. -/
structure KeepsTimeout : Prop where
  returns_true : ∀ k, Returns p w millisecondsTimeout ⟨true, k⟩ → w.condition k = true
  returns_false : ∀ k, Returns p w millisecondsTimeout ⟨false, k⟩ →
    0 ≤ millisecondsTimeout ∧ w.condition k = false ∧ millisecondsTimeout ≤ w.tickCount k - w.start
  gives_up : 0 ≤ millisecondsTimeout → ∀ k, (∀ j ≤ k, w.condition j = false) →
    nextSpinWillYield p (countAfter p (k + 1)) = true → millisecondsTimeout ≤ w.tickCount k - w.start →
    ∃ j ≤ k, Returns p w millisecondsTimeout ⟨false, j⟩

/-- The condition is false up to test `k`, and after the spin there the counter has passed the threshold and the time is
    over as the loop reckons it. -/
def TimeIsOver (k : Nat) : Prop :=
  (∀ j ≤ k, w.condition j = false) ∧ nextSpinWillYield p (countAfter p (k + 1)) = true ∧
    millisecondsTimeout ≤ w.tickCount k - startTime w millisecondsTimeout

end GnuRadio.SpinWait
