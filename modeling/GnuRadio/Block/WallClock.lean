import GnuRadio.Library.Transition
import GnuRadio.Pmt.Conversion

/-! The samples that a free-running block paces by the clock: `computeWallClockSamples()` and the calls that set its times in
    BlockingSync.hpp. Times are counted in ticks of the clock, and the floating-point numbers between are the rational
    numbers they stand for. -/

namespace GnuRadio.WallClock

open Pmt (truncate)
open Transition (System)

/-- The ticks of the clock in a second, and the sample rate. -/
structure Pace where
  ticksPerSecond : ℚ
  sampleRate : ℚ
  ticks_pos : 0 < ticksPerSecond
  rate_pos : 0 < sampleRate

/-- `greatest` is the greatest reading of the clock by a call since the start, and `total` the samples that the calls
    returned. -/
structure State where
  startTime : Int
  lastUpdateTime : Int
  pausedAt : Option Int
  greatest : Int
  total : Nat

/-- A call of `syncSamples()`: what the clock reads, the size of the output, the size of a chunk, and what the processor
    makes of a number of samples that no `std::size_t` holds. -/
structure Sync where
  now : Int
  maxSamples : Nat
  chunkSize : Nat
  dropIfBehind : Bool
  outOfRange : UInt64

inductive Act
  | blockingSyncStart (now : Int)
  | blockingSyncResetTiming (now : Int)
  | syncSamples (call : Sync)
  /-- A tick of the timer while the block is paused. -/
  | tick (now : Int)

variable (p : Pace)

/-- The time counted so far, once a tick of a pause is adopted. -/
def State.countedTime (s : State) : Int :=
  match s.pausedAt with
  | some pausedAt => max s.lastUpdateTime pausedAt
  | none => s.lastUpdateTime

/-- The samples of a time in ticks, with a fraction. -/
def Pace.samplesOf (ticks : Int) : ℚ := ticks / p.ticksPerSecond * p.sampleRate

/-- `static_cast<std::size_t>` -/
def toSize (outOfRange : UInt64) (x : ℚ) : Nat :=
  if -1 < x ∧ x < 2 ^ 64 then (truncate x).toNat else outOfRange.toNat

/-- `std::chrono::duration_cast` of the time that samples last. -/
def Pace.ticksOf (nSamples : Nat) : Int := truncate (nSamples / p.sampleRate * p.ticksPerSecond)

def computeWallClockSamples (s : State) (call : Sync) : Nat × State :=
  let counted := s.countedTime
  let samplesNeeded := toSize call.outOfRange (p.samplesOf (call.now - counted))
  let nSamples := min samplesNeeded (min call.chunkSize call.maxSamples)
  let lastUpdateTime :=
    if call.dropIfBehind then call.now else if 0 < nSamples then counted + p.ticksOf nSamples else counted
  (nSamples, { s with lastUpdateTime := lastUpdateTime, pausedAt := none })

def step (s : State) : Act → State
  | .blockingSyncStart now => ⟨now, now, none, now, 0⟩
  | .blockingSyncResetTiming now => { s with lastUpdateTime := now, pausedAt := none, greatest := max s.greatest now }
  | .syncSamples call =>
    let (nSamples, t) := computeWallClockSamples p s call
    { t with greatest := max s.greatest call.now, total := s.total + nSamples }
  | .tick now => { s with pausedAt := some now }

/-- A run begins with a call of `blockingSyncStart()`. -/
def system : System State Act where
  start s := ∃ now, s = ⟨now, now, none, now, 0⟩
  step s a := some (step p s a)

/-- The samples returned since the start are no more than the clock has allowed. -/
def State.NotAhead (s : State) : Prop := s.total ≤ p.samplesOf (s.greatest - s.startTime)

/-! ### When the pacing is exact -/

/-- The samples that are due last a whole number of ticks, as many of them as a chunk and the output have room for. -/
def Sync.LastsWholeTicks (call : Sync) (counted : Int) : Prop :=
  ∃ k : Int, (min ⌊p.samplesOf (call.now - counted)⌋.toNat (min call.chunkSize call.maxSamples) : ℕ) / p.sampleRate *
    p.ticksPerSecond = k

/-- The clock has not gone back behind the time counted so far, by a whole sample or, where that time is dropped, at all; a
    `std::size_t` holds the samples that are due; and they last a whole number of ticks, unless time is dropped. -/
def Act.Exact (s : State) : Act → Prop
  | .blockingSyncStart _ | .tick _ => True
  | .blockingSyncResetTiming now => s.lastUpdateTime ≤ now
  | .syncSamples call =>
    p.samplesOf (call.now - s.countedTime) < 2 ^ 64 ∧
      if call.dropIfBehind then s.countedTime ≤ call.now
      else -1 < p.samplesOf (call.now - s.countedTime) ∧ call.LastsWholeTicks p s.countedTime

end GnuRadio.WallClock
