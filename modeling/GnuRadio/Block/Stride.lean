import GnuRadio.Block.SampleLimits
import GnuRadio.Library.Transition

/-! A block with a stride: how far its work calls move the read positions of its synchronous inputs
    (`stageFirstSampleTagSettings()`, `workInternal()` and `finaliseIO()` in Block.hpp). One work call a step. -/

namespace GnuRadio.Stride

open WorkSize

/-- A connected synchronous input: its read position, and the samples that it has been given. -/
structure Input where
  position : Nat
  arrived : Nat
  deriving DecidableEq, Repr

/-- `starts` has the read positions at which `processBulk()` was handed its samples, call by call. -/
structure State where
  inputs : List Input
  strideCounter : Nat
  stopped : Bool
  starts : List (List Nat)
  deriving DecidableEq, Repr

/-- What the settings, the ports and the tags are when a call is sized. -/
structure Pass where
  chunks : Chunks
  ports : Ports
  deriving DecidableEq, Repr

/-- `staging` and `final` are the chunk sizes that `stageFirstSampleTagSettings()` and `finaliseIO()` find. `changed`: the
    tags at the first sample have changed the settings, and the call is sized once more. `ends`: a stop request or a
    stalled drain; `epilogue`: the samples that it consumes, none while it waits for room. `refused`: a span is shorter
    than it should be. `stops`: a stop has reached the block when `processBulk()` returns; `done`: it has returned `DONE`. -/
structure Call where
  requestedWork : Nat
  first : Pass
  staging : Chunks
  changed : Option Pass
  ends : Bool
  epilogue : Option Nat
  refused : Bool
  final : Chunks
  stops : Bool
  done : Bool
  deriving DecidableEq, Repr

def consume (inputs : List Input) (nSamples : Nat) : List Input :=
  inputs.map fun port => { port with position := port.position + nSamples }

/-- Inside a skip that is not finished nothing is staged. -/
def stageFirstSampleTagSettings (c : Chunks) (strideCounter : Nat) : Bool :=
  !(c.strideEnabled && decide c.isStrideActiveAndNotDefault && decide (0 < strideCounter))

/-- No pass finds samples that have not arrived. -/
def Pass.arrived (pass : Pass) (inputs : List Input) : Prop :=
  ∀ port ∈ inputs, port.position + pass.ports.maxSyncAvailableIn ≤ port.arrived

instance (pass : Pass) (inputs : List Input) : Decidable (pass.arrived inputs) :=
  inferInstanceAs (Decidable (∀ port ∈ inputs, _))

namespace State

variable (s : State) (call : Call)

/-- The first pass and the skip. -/
def skipped : State × SampleLimits :=
  let (limits, strideCounter) := computeSampleLimits call.first.chunks s.strideCounter call.first.ports call.requestedWork
  ({ s with
    inputs := consume s.inputs limits.inputSkipBefore
    strideCounter := strideCounter }, limits)

/-- The second pass, which skips nothing. -/
def sized (limits : SampleLimits) (pass : Pass) : State × SampleLimits :=
  if limits.hasAnyTag ∧ stageFirstSampleTagSettings call.staging s.strideCounter then
    let (limits, strideCounter) := computeSampleLimits pass.chunks s.strideCounter pass.ports call.requestedWork
    ({ s with strideCounter := strideCounter }, limits)
  else (s, limits)

/-- The end of the stream, which the epilogue may still put off. -/
def endOfStream : State :=
  match call.epilogue with
  | some nSamples => { s with inputs := consume s.inputs nSamples, stopped := true }
  | none => s

/-- `processBulk()` consumes no sample itself. -/
def process (resampledIn : Nat) : State :=
  let s := if 0 < resampledIn then { s with starts := s.starts ++ [s.inputs.map (·.position)] } else s
  if call.stops then { s with stopped := true }
  else if resampledIn = 0 then { s with stopped := call.done }
  else
    let (inputSamplesToConsume, strideCounter) :=
      inputSamplesToConsumeAdjustedWithStride call.final s.strideCounter resampledIn
    { s with
      inputs := consume s.inputs (if 0 < inputSamplesToConsume then inputSamplesToConsume else resampledIn)
      strideCounter := strideCounter
      stopped := call.done }

/-- A call after it is sized. -/
def perform (limits : SampleLimits) : State :=
  if limits.isEosPresent ∨ call.ends ∨ limits.asyncEoS then s.endOfStream call
  else if limits.resampledIn = 0 ∧ limits.resampledOut = 0 ∧ !limits.hasAsyncIn ∧ !limits.hasAsyncOut then s
  else if call.refused then s
  else s.process call limits.resampledIn

end State

def workInternal (s : State) (call : Call) : State :=
  let (s, limits) := s.skipped call
  match call.changed with
  | some pass =>
    let (s, limits) := s.sized call limits pass
    s.perform call limits
  | none => s.perform call limits

/-- The passes find what has arrived by then. -/
def arrivedInTime (s : State) (call : Call) : Prop :=
  call.first.arrived s.inputs ∧ ∀ pass ∈ call.changed, pass.arrived (s.skipped call).1.inputs

instance (s : State) (call : Call) : Decidable (arrivedInTime s call) := inferInstanceAs (Decidable (_ ∧ _))

/-- Samples arrive at an input, or the block is called. -/
inductive Act
  | arrive (input nSamples : Nat)
  | work (call : Call)
  deriving DecidableEq, Repr

def step (s : State) : Act → Option State
  | .arrive input nSamples =>
    some { s with inputs := s.inputs.modify input fun port => { port with arrived := port.arrived + nSamples } }
  | .work call => if !s.stopped ∧ arrivedInTime s call then some (workInternal s call) else none

def system (inputs : List Input) : Transition.System State Act where
  start s := s = { inputs := inputs, strideCounter := 0, stopped := false, starts := [] }
  step := step

/-- The stride is set, differs from the size of a chunk, and stays as it is. -/
def HasStride (stride : Nat) (c : Chunks) : Prop := c.strideEnabled ∧ c.stride = stride ∧ stride ≠ c.inputChunkSize

instance (stride : Nat) (c : Chunks) : Decidable (HasStride stride c) := inferInstanceAs (Decidable (_ ∧ _))

def Act.Strides (stride : Nat) : Act → Prop
  | .arrive _ _ => True
  | .work call =>
    HasStride stride call.first.chunks ∧ HasStride stride call.staging ∧ HasStride stride call.final ∧
      ∀ pass ∈ call.changed, HasStride stride pass.chunks

instance (stride : Nat) : (act : Act) → Decidable (act.Strides stride)
  | .arrive _ _ => .isTrue trivial
  | .work _ => inferInstanceAs (Decidable (_ ∧ _))

end GnuRadio.Stride
