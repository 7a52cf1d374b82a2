import GnuRadio.Block.SampleLimits
import Mathlib.Algebra.BigOperators.Group.List.Basic

/-! What a work call reports, next to what it moves: `accountedStreamWork()`, `sanitiseProcessStatus()`,
    `computePerformedWork()` and the calls of `publishSamples()` and `consumeReaders()` in Block.hpp. -/

namespace GnuRadio.WorkReports

open WorkSize (Chunks inputSamplesToConsumeAdjustedWithStride)

/-- `work::Status` -/
inductive Status
  | error
  | insufficientOutputItems
  | insufficientInputItems
  | done
  | ok
  deriving DecidableEq, Repr

/-- The span of a stream port in a call. `requested` is what its `consume()` or `publish()` was called with, none where
    it was not called. -/
structure Span where
  isSync : Bool
  isConnected : Bool
  requested : Option Nat
  deriving DecidableEq, Repr

namespace Span

/-- What the span moves its port by when it is released, where `consumeReaders()` or `publishSamples()` was called with
    `nSamples`. -/
def nReleased (span : Span) (nSamples : Nat) : Nat := span.requested.getD (if span.isSync then nSamples else 0)

def isGating (span : Span) : Bool := span.isConnected && span.isSync

end Span

/-- What the block's function has done: a `processBulk()`, or a `processOne()` that was called for so many samples. -/
inductive Processing
  | processBulk (status : Status)
  | processOne (nSamples : Nat) (status : Status)
  deriving DecidableEq, Repr

/-- How a call goes on behind its skip. It finds the block stopped (before the skip), ends the stream with so many
    trailing samples, returns with no span of its own moved (it waits for samples or for room), or processes. -/
inductive Course
  | stopped
  | ends (trailing : Nat)
  | returns (noInput : Bool)
  | processes (processing : Processing)
  deriving DecidableEq, Repr

/-- A work call with its spans. `inputSkipBefore` is what the stride skips, `chunks` and `strideCounter` are those that
    `finaliseIO()` finds, and `isShuttingDown` the state that it finds. -/
structure Call where
  isSource : Bool
  inputs : List Span
  outputs : List Span
  inputSkipBefore : Nat
  resampledIn : Nat
  resampledOut : Nat
  chunks : Chunks
  strideCounter : Nat
  isShuttingDown : Bool
  course : Course
  deriving DecidableEq

/-- The least of a count and of what the connected synchronous spans were asked for. -/
def leastRequested (nSamples : Nat) (spans : List Span) : Nat :=
  spans.foldl (fun n span => if span.isGating then min n (span.requested.getD n) else n) nSamples

/-- The counts of `dispatchProcessing()`, and the status of the function. -/
def dispatchProcessing (call : Call) : Processing → Nat × Nat × Status
  | .processBulk status =>
    (leastRequested call.resampledIn call.inputs, leastRequested call.resampledOut call.outputs, status)
  | .processOne nSamples status =>
    if call.resampledIn ≠ call.resampledOut then (0, 0, .error) else (nSamples, nSamples, status)

/-- One side of `accountedStreamWork()` for a `processBulk()`. -/
def accountedBulk (processed : Nat) (spans : List Span) : Nat :=
  if spans.any Span.isGating then processed
  else ((spans.filter (·.isConnected)).map fun span => span.requested.getD 0).sum

def accountedStreamWork (call : Call) (processedIn processedOut : Nat) : Processing → Nat × Nat
  | .processBulk _ => (accountedBulk processedIn call.inputs, accountedBulk processedOut call.outputs)
  | .processOne _ _ => (processedIn, processedOut)

def sanitiseProcessStatus (status : Status) (processedIn processedOut : Nat) : Nat × Nat :=
  if status = .insufficientOutputItems ∨ status = .insufficientInputItems ∨ status = .error then (0, 0)
  else (processedIn, processedOut)

def computePerformedWork (status : Status) (processedIn processedOut : Nat) (isSource : Bool) : Nat :=
  if status ≠ .ok then 0 else if isSource then processedOut else processedIn

/-- `work::Result` with what the ports have moved by, port by port, and whether the call advances the progress sequence. -/
structure Report where
  consumed : List Nat
  published : List Nat
  performedWork : Nat
  status : Status
  advances : Bool
  deriving DecidableEq, Repr

/-- What `skipInputSamples()` moves a connected input by. -/
def nSkipped (call : Call) (span : Span) : Nat := if span.isSync then call.inputSkipBefore else 0

/-- What the connected inputs have moved by, where the skip is followed by a release with `nSamples`. -/
def consumed (call : Call) (release : Span → Nat) : List Nat :=
  (call.inputs.filter (·.isConnected)).map fun span => nSkipped call span + release span

def published (call : Call) (release : Span → Nat) : List Nat :=
  (call.outputs.filter (·.isConnected)).map release

/-- What `finaliseIO()` consumes of the inputs that are left to it. -/
def nConsumed (call : Call) (processedIn : Nat) : Nat :=
  let inputSamplesToConsume := (inputSamplesToConsumeAdjustedWithStride call.chunks call.strideCounter call.resampledIn).1
  if processedIn = 0 then 0 else if 0 < inputSamplesToConsume then inputSamplesToConsume else processedIn

/-- The end of `workInternal()`. Each synchronous span holds the samples that it is asked for here. -/
def process (call : Call) (processing : Processing) : Report :=
  let counts := dispatchProcessing call processing
  let accounted := accountedStreamWork call counts.1 counts.2.1 processing
  let processed := sanitiseProcessStatus counts.2.2 counts.1 counts.2.1
  let status := if call.isShuttingDown ∧ counts.2.2 ≠ .error then .done else counts.2.2
  let performedWork := computePerformedWork status accounted.1 accounted.2 call.isSource
  { consumed := consumed call (·.nReleased (nConsumed call (if call.isShuttingDown then 0 else processed.1)))
    published := published call (·.nReleased processed.2)
    performedWork
    status
    advances := 0 < performedWork || status == .done }

/-- `work()` -/
def work (call : Call) : Report :=
  match call.course with
  | .stopped => ⟨(call.inputs.filter (·.isConnected)).map fun _ => 0, published call fun _ => 0, 0, .done, false⟩
  | .ends trailing =>
    { consumed := consumed call (·.nReleased trailing)
      published := published call (·.nReleased 0)
      performedWork := 0
      status := .done
      advances := true }
  | .returns noInput =>
    { consumed := consumed call fun _ => 0
      published := published call fun _ => 0
      performedWork := 0
      status := if noInput then .insufficientInputItems else .insufficientOutputItems
      advances := false }
  | .processes processing => process call processing

end GnuRadio.WorkReports
