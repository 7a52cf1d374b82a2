import GnuRadio.Block.StreamEnd
import GnuRadio.LifeCycle

/-! The end of a block's stream: the branch of `workInternal()` that ends the block, `isDrainStalled()`,
    `isEpilogueWaitStalled()` and the epilogue in Block.hpp. A work call goes on access by access, and the blocks up- and
    downstream and the requests of any thread come in between. -/

namespace GnuRadio.Epilogue

open LifeCycle (isShuttingDown isValidTransition)
open Transition (System)
open WorkSize (Chunks SampleLimits computeSampleLimits greatest least unlimited)

/-- The calls in a row with nothing moved that end a wait. -/
def kStallLimit : Nat := 1024

/-- A stream input with the ring that it reads. `streamEnd` is the index of the first end-of-stream tag of the ring. -/
structure Input where
  isSync : Bool
  isOptional : Bool
  isConnected : Bool
  minSamples : Nat
  maxSamples : Nat
  bufferSize : Nat
  position : Nat
  available : Nat
  streamEnd : Option Nat
  available_le : available ≤ bufferSize
  bufferSize_lt : bufferSize < unlimited
  deriving DecidableEq

/-- A stream output with the ring that it writes. `read` is the position of the last of its readers, or the writer's own
    where it has none. -/
structure Output where
  isSync : Bool
  isOptional : Bool
  isConnected : Bool
  minSamples : Nat
  maxSamples : Nat
  bufferSize : Nat
  position : Nat
  read : Nat
  deriving DecidableEq

namespace Input

variable (p : Input)

/-- An optional input that is not connected asks for nothing, and has all that there can be. -/
def isOpen : Bool := p.isOptional && !p.isConnected

def minRequirement : Nat := if p.isOpen then 0 else p.minSamples

def nAvailable : Nat := if p.isOpen then unlimited else p.available

/-- `samples_to_eos_tag()` -/
def nBeforeEoS : Option Nat :=
  if p.isConnected then p.streamEnd.bind fun index => if p.position ≤ index then some (index - p.position) else none
  else none

/-- It holds samples in front of its end, and where it is asynchronous as many as a call needs. -/
def holdsSamples : Bool :=
  p.nBeforeEoS.any fun n => if p.isSync then 0 < n else n ≠ 0 && p.minSamples ≤ n

def isStillToCome : Bool := p.isConnected && p.nBeforeEoS.isNone

def isAsyncAtEnd : Bool := !p.isSync && p.nBeforeEoS.isSome && !p.holdsSamples

theorem left_le (n : Nat) : p.available - n ≤ p.bufferSize := (Nat.sub_le _ _).trans p.available_le

def consume (n : Nat) : Input :=
  { p with position := p.position + min n p.available, available := p.available - n, available_le := p.left_le n }

theorem arrived_le (n : Nat) : min (p.available + n) p.bufferSize ≤ p.bufferSize := Nat.min_le_right _ _

/-- The block upstream writes as many samples as the ring has room for. -/
def arrive (n : Nat) : Input :=
  { p with available := min (p.available + n) p.bufferSize, available_le := p.arrived_le n }

end Input

namespace Output

variable (p : Output)

def isOpen : Bool := p.isOptional && !p.isConnected

def minRequirement : Nat := if p.isOpen then 0 else p.minSamples

/-- `streamWriter().available()` -/
def room : Nat := p.bufferSize - (p.position - p.read)

def nAvailable : Nat := if p.isOpen then unlimited else p.room

/-- What is published leaves at once where no reader holds it back. -/
def publish (n : Nat) : Output :=
  let position := p.position + min n p.room
  { p with position := position, read := if p.isConnected then p.read else position }

end Output

/-- What a call asks for, and what the tags and the block itself limit it to. -/
structure Demand where
  requestedWork : Nat
  hasAnyTag : Bool
  nextTag : Nat
  mergedBlockLimit : Nat
  deriving DecidableEq, Repr

structure Watermark where
  moved : Nat
  room : Nat
  deriving DecidableEq, Repr

inductive Status
  | ok
  | insufficientInputItems
  | insufficientOutputItems
  | done
  | error
  deriving DecidableEq, Repr

/-- Where the thread stands that works on the block, before its next access. -/
inductive Stage
  | outside
  | limits
  | drainWait (limits : SampleLimits)
  | drainMark (limits : SampleLimits)
  | endTest (limits : SampleLimits) (drainStalled : Bool)
  | epilogue (drainStalled : Bool)
  | finish
  | process
  deriving DecidableEq

/-- What a call found in `isDrainStalled()`. -/
structure Reading where
  draining : Bool
  waiting : Bool
  /-- The positions of the connected inputs. -/
  inputs : List Nat
  /-- The positions of the outputs, with their room. -/
  outputs : List (Nat × Nat)
  deriving DecidableEq

/-- What the epilogue is handed: the trailing samples, and the samples in front of the nearest end of a synchronous input. -/
structure Handed where
  trailing : Nat
  shortestEnd : Option Nat
  deriving DecidableEq

/-- Of the history since the start, `readings` are those of the calls, the latest first, `stalls` the readings at each
    notification of a drain stall, and `handed` the calls of `processEpilogue()`; `stopOrDone` says that a thread has
    requested a stop, or that a call returned DONE before the stream ended. -/
structure State where
  state : LifeCycle.State
  chunks : Chunks
  strideCounter : Nat
  inputs : List Input
  outputs : List Output
  nDrainStalls : Nat
  drainMark : Watermark
  drainStallHeld : Bool
  nEpilogueWaits : Nat
  epilogueWaitMark : Watermark
  waitedOnOutput : Bool
  stage : Stage
  readings : List Reading
  stalls : List (List Reading)
  handed : List Handed
  stopOrDone : Bool

/-- The state after the accesses of `checkLifecycle()`, and whether the block has requested a stop. -/
def checkedState (childless : Bool) (state : LifeCycle.State) : LifeCycle.State × Bool :=
  let state := if state = .requestedPause then .paused else state
  let state := if state = .requestedStop then .stopped else state
  if childless && !isShuttingDown state then (.requestedStop, true) else (state, false)

/-- The watermark of what the call found. -/
def Reading.mark (r : Reading) : Watermark :=
  ⟨r.inputs.sum + (r.outputs.map Prod.fst).sum, (r.outputs.map Prod.snd).sum⟩

namespace State

variable (s : State)

/-! ### The limits of a call -/

def nextEosTag : Nat := least ((s.inputs.filter (·.isSync)).filterMap (·.nBeforeEoS))

def hasInputStillToCome : Bool := s.inputs.any (·.isStillToCome)

def holdsSamples : Bool := s.inputs.any (·.holdsSamples)

def maxSyncAvailableIn : Nat := least ((s.inputs.filter (·.isSync)).map (·.nAvailable))

def ports (d : Demand) : WorkSize.Ports where
  minSyncIn := greatest ((s.inputs.filter (·.isSync)).map (·.minRequirement))
  maxSyncIn := least ((s.inputs.filter (·.isSync)).map (·.maxSamples))
  maxSyncAvailableIn := s.maxSyncAvailableIn
  hasAsyncIn := s.inputs.any fun p => !p.isSync && p.minRequirement ≤ p.nAvailable
  minSyncOut := greatest ((s.outputs.filter (·.isSync)).map (·.minRequirement))
  maxSyncOut := least ((s.outputs.filter (·.isSync)).map (·.maxSamples))
  maxSyncAvailableOut := least ((s.outputs.filter (·.isSync)).map (·.nAvailable))
  hasAsyncOut := s.outputs.any fun p => !p.isSync && p.minRequirement ≤ p.nAvailable
  hasAnyTag := d.hasAnyTag
  nextTag := d.nextTag
  nextEosTag := s.nextEosTag
  asyncEoS := s.inputs.any (·.isAsyncAtEnd) && !s.holdsSamples && !s.hasInputStillToCome
  draining := s.holdsSamples && !s.hasInputStillToCome
  asyncOwed := s.inputs.any fun p => !p.isSync && (p.isStillToCome || p.holdsSamples)
  mergedBlockLimit := d.mergedBlockLimit

/-! ### Waiting and stalling -/

def drainWatermark : Watermark :=
  ⟨((s.inputs.filter (·.isConnected)).map (·.position)).sum + (s.outputs.map (·.position)).sum,
    (s.outputs.map (·.room)).sum⟩

def isWaitingOnOutput : Bool :=
  s.waitedOnOutput || s.outputs.any fun p =>
    p.isConnected && decide (p.room < max p.minSamples (if p.isSync then s.chunks.outputChunkSize else 1))

/-- What the call finds, for the history. -/
def reading (draining : Bool) : Reading where
  draining := draining
  waiting := s.isWaitingOnOutput
  inputs := (s.inputs.filter (·.isConnected)).map (·.position)
  outputs := s.outputs.map fun p => (p.position, p.room)

/-- `isEpilogueWaitStalled()` -/
def isEpilogueWaitStalled : Bool × State :=
  if s.drainWatermark ≠ s.epilogueWaitMark then
    (false, { s with epilogueWaitMark := s.drainWatermark, nEpilogueWaits := 0 })
  else (decide (kStallLimit ≤ s.nEpilogueWaits + 1), { s with nEpilogueWaits := s.nEpilogueWaits + 1 })

/-! ### The epilogue -/

def syncOutputs : List Output := s.outputs.filter fun p => p.isSync && p.isConnected

def ringOut : Nat := least (s.syncOutputs.map (·.bufferSize))

def freeOut : Nat := least (s.syncOutputs.map (·.room))

def trailing : Nat := if s.maxSyncAvailableIn = unlimited then 0 else s.maxSyncAvailableIn

/-- The room that the epilogue asks for. A number of samples of more than 64 bits wraps. -/
def requestedOut : Nat :=
  let nSamples :=
    if 0 < s.chunks.inputChunkSize then
      (s.trailing * s.chunks.outputChunkSize + s.chunks.inputChunkSize - 1) % 2 ^ 64 / s.chunks.inputChunkSize
    else s.trailing
  min (max nSamples s.chunks.outputChunkSize) s.ringOut

/-- The room that the epilogue takes, and the state with its waits counted. -/
def epilogueOutSize : Nat × State :=
  let (stalled, t) := if s.freeOut < s.requestedOut then s.isEpilogueWaitStalled else (false, s)
  if isShuttingDown s.state then (min s.requestedOut s.freeOut, s)
  else (if stalled then min s.requestedOut s.freeOut else s.requestedOut, t)

/-- `preparedStreamsStatus()` of the spans of the epilogue. -/
def preparedStreamsStatus (expectedIn expectedOut : Nat) : Status :=
  if s.syncOutputs.any fun p => decide (p.room < expectedOut) then .insufficientOutputItems
  else if s.inputs.any fun p => p.isConnected && p.isSync && decide (p.available < expectedIn) then .insufficientInputItems
  else .ok

/-- The samples in front of the nearest end of a connected synchronous input. -/
def shortestEnd : Option Nat := ((s.inputs.filter (·.isSync)).filterMap (·.nBeforeEoS)).min?

/-- The inputs and the outputs have moved on. -/
def move (consumed published : List Nat) : State :=
  { s with
    inputs := s.inputs.mapIdx fun i p => p.consume (consumed.getD i 0)
    outputs := s.outputs.mapIdx fun j p => p.publish (published.getD j 0) }

/-- The call returns. -/
def returns (status : Status) : State :=
  { s with stage := .outside, waitedOnOutput := decide (status = .insufficientOutputItems) }

/-- The epilogue waits for room, or it is handed what the synchronous inputs hold. -/
def runEpilogue (drainStalled : Bool) (consumed published : List Nat) : State :=
  let (outSize, t) := s.epilogueOutSize
  if s.freeOut < outSize then { t.returns .insufficientOutputItems with drainStallHeld := drainStalled }
  else if isShuttingDown s.state ∨ s.preparedStreamsStatus s.trailing outSize = .ok then
    { t.move consumed published with
      drainStallHeld := false, stage := .finish, handed := ⟨s.trailing, s.shortestEnd⟩ :: t.handed }
  else { t.returns (s.preparedStreamsStatus s.trailing outSize) with drainStallHeld := drainStalled }

/-! ### The other parts of a call -/

/-- `checkLifecycle()`: the block settles a pause and a stop that were requested. `childless` says that it ends with its readers
    and that none is left: it requests its own stop then. -/
def checkLifecycle (childless : Bool) : State :=
  let (state, requests) := checkedState childless s.state
  let t := { s with state := state, stopOrDone := s.stopOrDone || requests }
  if state = .stopped then t.returns .done else { t with stage := .limits }

/-- The call is sized, and the samples that its stride passes over are skipped. -/
def sizes (d : Demand) : State :=
  let (limits, strideCounter) := computeSampleLimits s.chunks s.strideCounter (s.ports d) d.requestedWork
  { s with
    strideCounter := strideCounter
    inputs := s.inputs.map fun p => if p.isSync && p.isConnected then p.consume limits.inputSkipBefore else p
    stage := .drainWait limits }

/-- Settings of a tag at the first sample have changed: the call is sized again. -/
def sizesAgain (d : Demand) : State :=
  let (limits, strideCounter) := computeSampleLimits s.chunks s.strideCounter (s.ports d) d.requestedWork
  { s with strideCounter := strideCounter, stage := .drainWait limits }

/-- `isDrainStalled()`, up to the watermark. A stall that is held is not looked for again. -/
def drainWait (limits : SampleLimits) : State :=
  if s.drainStallHeld then
    { s with readings := s.reading limits.draining :: s.readings, stage := .endTest limits true }
  else if !limits.draining || s.isWaitingOnOutput then
    { s with
      nDrainStalls := 0, drainMark := ⟨0, 0⟩, readings := s.reading limits.draining :: s.readings
      stage := .endTest limits false }
  else { s with stage := .drainMark limits }

/-- The rest of `isDrainStalled()`, and the notification of a stall. What the call has found before is that it drains and
    does not wait. -/
def countStall (limits : SampleLimits) : State :=
  let readings := { s.reading true with waiting := false } :: s.readings
  if s.drainWatermark ≠ s.drainMark then
    { s with drainMark := s.drainWatermark, nDrainStalls := 0, readings := readings, stage := .endTest limits false }
  else
    let stalled := decide (kStallLimit ≤ s.nDrainStalls + 1)
    { s with
      nDrainStalls := s.nDrainStalls + 1, readings := readings
      stalls := if stalled then readings :: s.stalls else s.stalls
      stage := .endTest limits stalled }

/-- The block ends, or the call goes on, or it returns for want of samples or of room. -/
def endTest (hasEpilogue : Bool) (limits : SampleLimits) (drainStalled : Bool) : State :=
  if limits.isEosPresent || isShuttingDown s.state || limits.asyncEoS || drainStalled then
    { s with stage := if hasEpilogue then .epilogue drainStalled else .finish }
  else if limits.resampledIn = 0 ∧ limits.resampledOut = 0 ∧ limits.hasAsyncIn = false ∧ limits.hasAsyncOut = false then
    s.returns (match limits.resampledStatus with
      | .ok => .ok
      | .insufficientInputItems => .insufficientInputItems
      | .insufficientOutputItems => .insufficientOutputItems)
  else { s with stage := .process }

/-- The processing function has returned, and `finaliseIO()` follows. -/
def finaliseIO (consumed published : List Nat) (status : Status) : State :=
  let status := if isShuttingDown s.state ∧ status ≠ .error then .done else status
  let t := (s.move consumed published).returns status
  if status = .done then { t with state := .stopped, stopOrDone := true }
  else if status = .error ∧ isShuttingDown s.state then { t with state := .stopped }
  else t

end State

inductive Act
  | arrive (i n : Nat)
  /-- Which end-of-stream tag is the first one in the ring of an input. -/
  | tags (i : Nat) (streamEnd : Option Nat)
  /-- The readers of an output go on. -/
  | read (j n : Nat)
  | settings (chunks : Chunks)
  | constrain (i minSamples maxSamples : Nat)
  | constrainOutput (j minSamples maxSamples : Nat)
  /-- Any thread requests a state of the run: a stop, a pause, or the end of one. -/
  | request (newState : LifeCycle.State)
  /-- The stopped block is reset and started. -/
  | restart
  | work (childless : Bool)
  | sizes (d : Demand)
  | sizesAgain (d : Demand)
  | drainWait
  | drainMark
  | endTest
  | epilogue (consumed published : List Nat)
  | finish
  | process (consumed published : List Nat) (status : Status)

def step (hasEpilogue : Bool) (s : State) : Act → Option State
  | .arrive i n => some { s with inputs := s.inputs.modify i (·.arrive n) }
  | .tags i streamEnd => some { s with inputs := s.inputs.modify i fun p => { p with streamEnd := streamEnd } }
  | .read j n =>
    some { s with outputs := s.outputs.modify j fun p => { p with read := p.read + min n (p.position - p.read) } }
  | .settings chunks => some { s with chunks := chunks }
  | .constrain i minSamples maxSamples =>
    some { s with inputs := s.inputs.modify i fun p => { p with minSamples := minSamples, maxSamples := maxSamples } }
  | .constrainOutput j minSamples maxSamples =>
    some { s with outputs := s.outputs.modify j fun p => { p with minSamples := minSamples, maxSamples := maxSamples } }
  | .request newState =>
    if isValidTransition s.state newState ∧ newState ≠ .initialised ∧ newState ≠ .error then
      some { s with state := newState, stopOrDone := s.stopOrDone || isShuttingDown newState }
    else none
  | .restart =>
    if s.stage = .outside ∧ s.state = .stopped then
      some { s with
        state := .running, nDrainStalls := 0, drainMark := ⟨0, 0⟩, drainStallHeld := false, nEpilogueWaits := 0
        epilogueWaitMark := ⟨0, 0⟩, readings := [], stalls := [], handed := [], stopOrDone := false }
    else none
  | .work childless => if s.stage = .outside then some (s.checkLifecycle childless) else none
  | .sizes d => if s.stage = .limits then some (s.sizes d) else none
  | .sizesAgain d =>
    match s.stage with
    | .drainWait _ => some (s.sizesAgain d)
    | _ => none
  | .drainWait =>
    match s.stage with
    | .drainWait limits => some (s.drainWait limits)
    | _ => none
  | .drainMark =>
    match s.stage with
    | .drainMark limits => some (s.countStall limits)
    | _ => none
  | .endTest =>
    match s.stage with
    | .endTest limits drainStalled => some (s.endTest hasEpilogue limits drainStalled)
    | _ => none
  | .epilogue consumed published =>
    match s.stage with
    | .epilogue drainStalled => some (s.runEpilogue drainStalled consumed published)
    | _ => none
  | .finish => if s.stage = .finish then some { s.returns .done with state := .stopped } else none
  | .process consumed published status =>
    if s.stage = .process then some (s.finaliseIO consumed published status) else none

/-- The runs of a block from a start on. -/
def system (hasEpilogue : Bool) : System State Act where
  start s := s.state = .running ∧ s.nDrainStalls = 0 ∧ s.drainMark = ⟨0, 0⟩ ∧ s.drainStallHeld = false ∧
    s.waitedOnOutput = false ∧ s.stage = .outside ∧ s.readings = [] ∧ s.stalls = [] ∧ s.handed = [] ∧ s.stopOrDone = false
  step := step hasEpilogue

/-! ### What a run keeps -/

/-- The call drained and did not wait on its outputs. -/
def Reading.Quiet (r : Reading) : Prop := r.draining = true ∧ r.waiting = false

/-- Quiet calls between which no position and no room has changed. -/
def Still (readings : List Reading) : Prop :=
  (∀ r ∈ readings, r.Quiet) ∧ ∀ r ∈ readings, ∀ r' ∈ readings, r.inputs = r'.inputs ∧ r.outputs = r'.outputs

/-- The epilogue runs at most once, and exactly once where the stream ended; it is handed all samples in front of the nearest
    end. A stall is notified at most once, after `kStallLimit` still calls, and no more than these pass before it; a call
    ends the block as stalled only after it, and ends it at once unless the epilogue waits for room. -/
structure State.EndsOnce (hasEpilogue : Bool) (s : State) : Prop where
  once : s.handed.length ≤ 1
  exactly : hasEpilogue = true → s.state = .stopped → s.stopOrDone = false → s.handed.length = 1
  whole : ∀ h ∈ s.handed, ∀ n, h.shortestEnd = some n → n ≤ h.trailing
  notified : s.stalls.length ≤ 1
  stalled : ∀ readings ∈ s.stalls, kStallLimit ≤ readings.length ∧ Still (readings.take kStallLimit)
  stalls : ∀ limits, s.stage = .endTest limits true ∨ s.stage = .epilogue true → s.stalls ≠ []
  bounded : ∀ n ≤ s.readings.length, Still (s.readings.take n) →
    n ≤ kStallLimit + 1 ∧ (n = kStallLimit + 1 → s.stalls ≠ [])
  ends : s.stalls ≠ [] → s.stage = .outside → s.state = .stopped ∨
    hasEpilogue = true ∧ s.drainStallHeld = true ∧ s.waitedOnOutput = true

/-- When the epilogue runs, every synchronous input holds the samples in front of the nearest end. -/
def Act.HoldsEnd (s : State) : Act → Prop
  | .epilogue _ _ => s.epilogueOutSize.1 ≤ s.freeOut → ∀ n, s.shortestEnd = some n →
    ∀ p ∈ s.inputs, p.isSync = true → p.isOpen = false → n ≤ p.available
  | _ => True

end GnuRadio.Epilogue
