import GnuRadio.Library.Transition
import Mathlib.Data.List.Sort

/-! The tags that a block with a `processOne()` publishes on its outputs: the default forwarder, the forward parameters,
    the block's own tags and the end-of-stream marker (`workInternal()`, `skipInputSamples()`, `forwardInputTags()`,
    `invokeProcessOneNonConst()` and `finaliseIO()` in Block.hpp; `InputSpan` and `OutputSpan` in Port.hpp). One work call
    a step. `μ` is the type of a `property_map`, and `ω` names the outputs. -/

namespace GnuRadio.OutputTags

variable {μ ω : Type}

structure Tag (μ : Type) where
  index : Nat
  map : μ
  deriving DecidableEq, Repr

/-- What the tags' maps go through. -/
structure PropertyMap (μ : Type) where
  empty : μ
  isEmpty : μ → Bool
  mergeForwardParams : μ → μ → μ
  filterAndSubstituteTag : μ → μ
  canonicalizeKeys : μ → μ
  isEndOfStream : μ → Bool
  eraseEndOfStream : μ → μ
  endOfStream : μ

/-- The arguments of the block's class, which supplies no `forwardTags()`, and the number of its stream input ports, of which
    a collection of ports is one. -/
structure Arguments where
  resampling : Bool
  stride : Bool
  noTagPropagation : Bool
  backwardTagPropagation : Bool
  allSynchronous : Bool
  constProcessOne : Bool
  nInputPorts : Nat
  deriving DecidableEq, Repr

namespace Arguments

def mapsTagsByChunkRatio (c : Arguments) : Bool := c.resampling

def keepsTagOffsets (c : Arguments) : Bool :=
  !c.resampling && !c.stride && c.allSynchronous && !c.noTagPropagation && !c.backwardTagPropagation

def hasWholeChunkTagWindow (c : Arguments) : Bool :=
  c.backwardTagPropagation || c.mapsTagsByChunkRatio || c.keepsTagOffsets

end Arguments

/-! ### Input spans -/

/-- A span of an input's samples, and the tags that it holds. -/
structure InputSpan (μ : Type) where
  rawTags : List (Tag μ)
  streamIndex : Nat
  isConnected : Bool
  isSync : Bool
  deriving DecidableEq, Repr

/-- `tags` are the tags in the ring that the input has not consumed. -/
structure Input (μ : Type) where
  isConnected : Bool
  isSync : Bool
  position : Nat
  tags : List (Tag μ)
  deriving DecidableEq, Repr

namespace Input

def get (port : Input μ) (nSamples : Nat) : InputSpan μ :=
  ⟨port.tags.takeWhile (·.index < port.position + nSamples), port.position, port.isConnected, port.isSync⟩

def getRemainingTags (port : Input μ) (lastIndex : Option Nat) : InputSpan μ :=
  ⟨port.tags.takeWhile fun tag => lastIndex.all (tag.index ≤ ·), port.position, port.isConnected, port.isSync⟩

/-- A span is released that consumes `nSamples`, and the tags before `nTagSamples`. -/
def consume (port : Input μ) (nSamples nTagSamples : Nat) : Input μ :=
  if port.isSync ∧ port.isConnected then
    { port with
      position := port.position + nSamples
      tags := port.tags.dropWhile (·.index < port.position + nTagSamples) }
  else port

/-- The samples to the first tag past the read position. -/
def nextTag (port : Input μ) : Option Nat :=
  if port.isSync ∧ port.isConnected then
    (port.tags.find? fun tag => port.position + 1 ≤ tag.index).map (·.index - port.position)
  else none

def nextEosTag (P : PropertyMap μ) (port : Input μ) : Option Nat :=
  if port.isSync ∧ port.isConnected then
    (port.tags.find? fun tag => port.position ≤ tag.index && P.isEndOfStream tag.map).map (·.index - port.position)
  else none

end Input

/-- The tags before a local index, each with its index relative to the span. -/
def InputSpan.tags (span : InputSpan μ) (untilLocalIndex : Nat) : List (Int × μ) :=
  (span.rawTags.takeWhile (·.index < span.streamIndex + untilLocalIndex)).map fun tag =>
    ((tag.index : Int) - span.streamIndex, tag.map)

/-! ### Output spans -/

/-- A reserved span of an output: `room` slots of its tag ring, and the samples requested to be published, none before the
    first request. -/
structure OutputSpan (μ : Type) where
  isConnected : Bool
  isSync : Bool
  streamIndex : Nat
  size : Nat
  room : Nat
  tags : List (Tag μ)
  tagsDropped : Nat
  nRequestedSamplesToPublish : Option Nat
  deriving DecidableEq, Repr

namespace OutputSpan

variable (P : PropertyMap μ) (span : OutputSpan μ)

def placeTag (tagData : μ) (tagOffset : Nat) : OutputSpan μ :=
  { span with tags := span.tags ++ [⟨span.streamIndex + tagOffset, P.canonicalizeKeys tagData⟩] }

/-- The last slot is held back for the end-of-stream marker. -/
def publishTag (tagData : μ) (tagOffset : Nat) : OutputSpan μ :=
  if !span.isConnected then span
  else if span.tags.length + 1 ≥ span.room then { span with tagsDropped := span.tagsDropped + 1 }
  else span.placeTag P tagData tagOffset

def publishEoSTag (tagData : μ) (tagOffset : Nat) : OutputSpan μ :=
  if !span.isConnected then span
  else if span.tags.length ≥ span.room then { span with tagsDropped := span.tagsDropped + 1 }
  else span.placeTag P tagData tagOffset

def publishAll (tags : List (Nat × μ)) : OutputSpan μ :=
  tags.foldl (fun span tag => span.publishTag P tag.2 tag.1) span

/-- The head of the span, but never before a tag already placed in it. -/
def publishForwardParams (forwardParams : μ) : OutputSpan μ :=
  span.publishTag P forwardParams ((span.tags.getLast?.map (·.index)).getD 0 - span.streamIndex)

def publishSamples (nSamples : Nat) : OutputSpan μ :=
  match span.nRequestedSamplesToPublish with
  | some _ => span
  | none => { span with nRequestedSamplesToPublish := some (if span.isSync then nSamples else 0) }

/-- The offsets at which `publishMergedByIndex()` publishes, in its order: a forwarded tag precedes a tag already there at
    the same index. -/
def mergedByIndex (last : Nat) : List (Nat × μ) → List (Nat × μ) → List (Nat × μ)
  | present, [] => present
  | present, (forwardedOffset, map) :: forwarded =>
    present.takeWhile (·.1 < min forwardedOffset last) ++ (min forwardedOffset last, map) ::
      mergedByIndex last (present.dropWhile (·.1 < min forwardedOffset last)) forwarded

def publishMergedByIndex (forwarded : List (Nat × μ)) : OutputSpan μ :=
  if !span.isConnected then span
  else
    let present := span.tags.map fun tag => (tag.index - span.streamIndex, tag.map)
    { span with tags := [] }.publishAll P (mergedByIndex (span.nRequestedSamplesToPublish.getD span.size) present forwarded)

end OutputSpan

/-- `ring` holds every tag that the output has ever published. -/
structure Output (μ : Type) where
  isConnected : Bool
  isSync : Bool
  position : Nat
  ring : List (Tag μ)
  deriving DecidableEq, Repr

namespace Output

variable (P : PropertyMap μ) (out : Output μ)

/-- The samples and the tag slots that a reservation gets: an asynchronous output reserves what it has. -/
def tryReserve (nSamples available room : Nat) : OutputSpan μ :=
  ⟨out.isConnected, out.isSync, out.position, if out.isSync then nSamples else available, room, [], 0, none⟩

/-- The span is destroyed. -/
def release (span : OutputSpan μ) : Output μ :=
  { out with
    position := out.position + span.nRequestedSamplesToPublish.getD 0
    ring := out.ring ++ span.tags }

/-- The marker is lost where the tag ring has no slot. -/
def publishEoSTag (tagData : μ) (fits : Bool) : Output μ :=
  if out.isConnected ∧ fits then { out with ring := out.ring ++ [⟨out.position, tagData⟩] } else out

end Output

/-! ### The forwarder -/

section Forward

variable [DecidableEq μ] (P : PropertyMap μ) (c : Arguments)

/-- The output index of an input index, by the sizes of an input and of an output chunk. -/
def outputIndexOf (chunks : Nat × Nat) (inputIndex : Nat) : Nat :=
  if c.resampling then if chunks.1 = 0 then inputIndex else inputIndex * chunks.2 / chunks.1 else inputIndex

def collect (chunks : Nat × Nat) (tag : Int × μ) : Option (Nat × μ) :=
  let map := P.filterAndSubstituteTag tag.2
  if P.isEmpty map then none
  else some (if c.backwardTagPropagation then 0 else outputIndexOf c chunks (max 0 tag.1).toNat, map)

/-- Tags that several inputs hold alike leave once; the first eight are compared. -/
def deduplicate : List (Int × μ) → List (Int × μ) → List (Int × μ)
  | _, [] => []
  | seen, tag :: tags =>
    if tag ∈ seen then deduplicate seen tags
    else tag :: deduplicate (if seen.length < 8 then seen ++ [tag] else seen) tags

/-- The offsets and maps that `forwardInputTags()` publishes, from the tags of a window. -/
def forwardedTags (chunks : Nat × Nat) (inputSpans : List (InputSpan μ)) (tagWindow : Nat) : List (Nat × μ) :=
  let tags := (inputSpans.filter fun span => span.isSync && span.isConnected).flatMap (·.tags tagWindow)
  if c.nInputPorts ≤ 1 then tags.filterMap (collect P c chunks)
  else ((deduplicate [] tags).filterMap (collect P c chunks)).mergeSort fun a b => a.1 ≤ b.1

def forwardInputTags (chunks : Nat × Nat) (inputSpans : List (InputSpan μ)) (processedIn : Nat)
    (tagWindowOverride : Option Nat) (out : OutputSpan μ) : OutputSpan μ :=
  if c.noTagPropagation then out
  else
    let forwarded := forwardedTags P c chunks inputSpans
      (tagWindowOverride.getD (if c.hasWholeChunkTagWindow then processedIn else 1))
    if forwarded = [] then out else out.publishMergedByIndex P forwarded

/-- The tags at or past each input's read position, in index order. -/
def remainingTags (inputSpans : List (InputSpan μ)) : List μ :=
  let tags := (inputSpans.filter fun span => span.isSync && span.isConnected).flatMap fun span =>
    span.rawTags.filter (span.streamIndex ≤ ·.index)
  let seen := if c.nInputPorts ≤ 1 then tags else tags.eraseDups
  let remaining := (seen.map fun tag => (⟨tag.index, P.eraseEndOfStream (P.filterAndSubstituteTag tag.map)⟩ : Tag μ)).filter
    fun tag => !P.isEmpty tag.map
  (remaining.mergeSort fun a b => a.index ≤ b.index).map (·.map)

def forwardRemainingInputTags (inputSpans : List (InputSpan μ)) (out : OutputSpan μ) : OutputSpan μ :=
  if c.noTagPropagation then out else out.publishAll P ((remainingTags P c inputSpans).map fun map => (0, map))

end Forward

/-! ### A work call -/

structure State (μ ω : Type) where
  inputs : List (Input μ)
  outputs : ω → Output μ
  pendingForwardParams : μ

/-- What the rings of an output have free when a span of it is reserved. -/
structure Free (ω : Type) where
  tags : ω → Nat
  samples : ω → Nat

/-- The samples of a chunk that `processOne()` runs over: all of them, or to the sample at which it has published a tag or
    has found the block to shut down. -/
inductive Loop (μ : Type)
  | completes
  | publishes (i : Nat) (tag : μ)
  | stops (i : Nat)
  deriving DecidableEq, Repr

namespace Loop

def processed (nSamplesToProcess : Nat) : Loop μ → Nat
  | completes => nSamplesToProcess
  | publishes i _ | stops i => min nSamplesToProcess (i + 1)

/-- The samples at which the loop may break. -/
def breaksBefore (nSamplesToProcess : Nat) : Loop μ → Bool
  | completes => true
  | publishes i _ | stops i => i < nSamplesToProcess

end Loop

/-- A chunk. `error`: the function throws, or the samples in and out differ; `done`: the loop has found the block to shut
    down; `shuttingDown`: it shuts down when the call ends, and `forwardParams` are those of the settings applied then;
    `changedForward`: of the tags past the first sample; `strideToConsume`: where a stride consumes other than the chunk. -/
structure Process (μ ω : Type) where
  processedIn : Nat
  minSyncIn : Nat
  free : Free ω
  loop : Loop μ
  error : Bool
  done : Bool
  shuttingDown : Bool
  strideToConsume : Nat
  changedForward : μ
  forwardParams : μ

/-- The call of a `processEpilogue()` that publishes no tag, with the samples it publishes on each output. -/
structure Epilogue (ω : Type) where
  trailing : Nat
  epilogueOutSize : Nat
  consumed : Nat
  published : ω → Nat
  free : Free ω

/-- `remaining`: the tags at the end are forwarded, and the parameters of their settings after them. -/
structure EndOfStream (μ ω : Type) where
  epilogue : Option (Epilogue ω)
  remaining : Option (μ × Free ω)
  eosFits : ω → Bool

inductive Outcome (μ ω : Type)
  | returns
  | process (call : Process μ ω)
  | endOfStream (call : EndOfStream μ ω)

/-- `forwardParams` are those of the settings that the call applies before it publishes them; `chunks` the sizes of an
    input and of an output chunk; and `skip` the samples that a stride passes over before the chunk. -/
structure Call (μ ω : Type) where
  forwardParams : μ
  chunks : Nat × Nat
  skip : Option (Nat × Free ω)
  outcome : Outcome μ ω

section Work

variable [DecidableEq μ] (P : PropertyMap μ) (c : Arguments)

/-- `applyChangedSettings()`, with the parameters that it forwards. -/
def State.applyChangedSettings (s : State μ ω) (forwardParams : μ) : State μ ω :=
  if c.noTagPropagation then s
  else { s with pendingForwardParams := P.mergeForwardParams s.pendingForwardParams forwardParams }

def publishPending (pending : μ) (out : OutputSpan μ) : OutputSpan μ :=
  if P.isEmpty pending then out else out.publishForwardParams P pending

def skipInputSamples (s : State μ ω) (chunks : Nat × Nat) (nSkip : Nat) (free : Free ω) : State μ ω :=
  let skipIn := s.inputs.map (·.get nSkip)
  { s with
    inputs := s.inputs.map (·.consume nSkip nSkip)
    outputs := fun o =>
      let skipOut := (s.outputs o).tryReserve 0 (free.samples o) (free.tags o)
      (s.outputs o).release ((forwardInputTags P c chunks skipIn nSkip (some nSkip) skipOut).publishSamples 0) }

def skipBeforeChunk (s : State μ ω) (chunks : Nat × Nat) : Option (Nat × Free ω) → State μ ω
  | some (nSkip, free) => skipInputSamples P c s chunks nSkip free
  | none => s

/-- The tags that a call hands on before `processOne()`. -/
def forwardBefore (s : State μ ω) (chunks : Nat × Nat) (call : Process μ ω) (o : ω) : OutputSpan μ :=
  let inputSpans := s.inputs.map (·.get call.processedIn)
  let out := (s.outputs o).tryReserve call.processedIn (call.free.samples o) (call.free.tags o)
  publishPending P s.pendingForwardParams
    (if c.mapsTagsByChunkRatio then out else forwardInputTags P c chunks inputSpans call.processedIn none out)

def invokeProcessOne (loop : Loop μ) (out : OutputSpan μ) : OutputSpan μ :=
  match loop with
  | .publishes i tag => out.publishTag P tag i
  | .completes | .stops _ => out

namespace Process

variable (call : Process μ ω)

def processedOut : Nat := if call.error then 0 else call.loop.processed call.processedIn

def nConsumed : Nat :=
  if call.shuttingDown ∨ call.processedOut = 0 then 0
  else if call.strideToConsume = 0 then call.processedOut
  else call.strideToConsume

def isDone : Bool := !call.error && (call.done || call.shuttingDown)

end Process

/-- A call that has processed no sample publishes none of the tags placed so far. -/
def finaliseSpan (chunks : Nat × Nat) (inputSpans : List (InputSpan μ)) (call : Process μ ω) (forwardParams : μ)
    (out : OutputSpan μ) : OutputSpan μ :=
  let out := if call.processedOut = 0 then { out with tags := [] } else out
  let out := out.publishSamples call.processedOut
  let out :=
    if c.mapsTagsByChunkRatio ∧ call.nConsumed ≠ 0 then
      publishPending P (if c.noTagPropagation then P.empty else call.changedForward)
        (forwardInputTags P c chunks inputSpans call.nConsumed none out)
    else out
  if call.isDone then
    let out := publishPending P forwardParams out
    out.publishEoSTag P P.endOfStream (out.nRequestedSamplesToPublish.getD 0)
  else out

/-- The parameters of a call that has processed no sample wait for the next call. -/
def finaliseIO (s : State μ ω) (chunks : Nat × Nat) (call : Process μ ω) (outputSpans : ω → OutputSpan μ) : State μ ω :=
  let inputSpans := s.inputs.map (·.get call.processedIn)
  let pending := if call.processedOut = 0 then s.pendingForwardParams else P.empty
  let forwardParams :=
    if call.shuttingDown ∧ !c.noTagPropagation then P.mergeForwardParams pending call.forwardParams else pending
  { inputs := s.inputs.map fun port =>
      if call.nConsumed = 0 then port
      else port.consume call.nConsumed (if c.hasWholeChunkTagWindow then call.nConsumed else 1)
    outputs := fun o => (s.outputs o).release (finaliseSpan P c chunks inputSpans call forwardParams (outputSpans o))
    pendingForwardParams := if call.isDone then P.empty else pending }

/-- A tag past what the epilogue publishes moves to the end of it. -/
def clipTags (out : OutputSpan μ) : OutputSpan μ :=
  { out with
    tags := out.tags.map fun tag =>
      { tag with index := min tag.index (out.streamIndex + out.nRequestedSamplesToPublish.getD 0) } }

def invokeProcessEpilogue (s : State μ ω) (chunks : Nat × Nat) (epilogue : Epilogue ω) : State μ ω :=
  let epilogueIn := s.inputs.map (·.get epilogue.trailing)
  { inputs := s.inputs.map (·.consume epilogue.consumed epilogue.trailing)
    outputs := fun o =>
      let out := (s.outputs o).tryReserve epilogue.epilogueOutSize (epilogue.free.samples o) (epilogue.free.tags o)
      let out := forwardInputTags P c chunks epilogueIn epilogue.trailing (some epilogue.trailing) out
      let out := publishPending P s.pendingForwardParams out
      (s.outputs o).release (clipTags { out with nRequestedSamplesToPublish := some (epilogue.published o) })
    pendingForwardParams := P.empty }

def forwardTagsAtEndOfStream (s : State μ ω) (forwardParams : μ) (free : Free ω) : State μ ω :=
  let endIndex := (s.inputs.filterMap fun port => (port.nextEosTag P).map (port.position + ·)).min?
  let endIn := s.inputs.map (·.getRemainingTags endIndex)
  let s := s.applyChangedSettings P c forwardParams
  { s with
    outputs := fun o =>
      let endOut := (s.outputs o).tryReserve 0 (free.samples o) (free.tags o)
      let out := publishPending P s.pendingForwardParams (forwardRemainingInputTags P c endIn endOut)
      (s.outputs o).release (out.publishSamples 0)
    pendingForwardParams := P.empty }

def atEndOfStream (s : State μ ω) (chunks : Nat × Nat) (call : EndOfStream μ ω) : State μ ω :=
  let s := match call.epilogue with
    | some epilogue => invokeProcessEpilogue P c s chunks epilogue
    | none => s
  let s := match call.remaining with
    | some (forwardParams, free) => forwardTagsAtEndOfStream P c s forwardParams free
    | none => s
  { s with outputs := fun o => (s.outputs o).publishEoSTag P.endOfStream (call.eosFits o) }

/-- The chunk ends at the next tag, unless that leaves fewer samples than an input's `min_samples` or a chunk, and at the
    end of the stream. -/
def withinLimits (s : State μ ω) (call : Call μ ω) (process : Process μ ω) : Bool :=
  let nSkip := (call.skip.map (·.1)).getD 0
  let nextTagAfterSkip := (s.inputs.filterMap Input.nextTag).min?.map (· - nSkip)
  let nextTagLimit := nextTagAfterSkip.filter (process.minSyncIn ≤ ·)
  let eosAfterSkip := (s.inputs.filterMap (·.nextEosTag P)).min?.map (· - nSkip)
  nextTagLimit.all (fun limit => process.processedIn ≤ max limit call.chunks.1) &&
    eosAfterSkip.all (process.processedIn ≤ ·)

/-- Only a stride skips samples, and only a `processOne()` that is not `const` breaks its loop. -/
def allowed (s : State μ ω) (call : Call μ ω) : Bool :=
  (call.skip.isNone || c.stride) &&
    match call.outcome with
    | .process process =>
      withinLimits P s call process && process.loop.breaksBefore process.processedIn &&
        (!c.constProcessOne || process.loop matches .completes)
    | _ => true

def workInternal (s : State μ ω) (call : Call μ ω) : State μ ω :=
  let s := (skipBeforeChunk P c s call.chunks call.skip).applyChangedSettings P c call.forwardParams
  match call.outcome with
  | .returns => s
  | .process process =>
    finaliseIO P c s call.chunks process fun o =>
      invokeProcessOne P process.loop (forwardBefore P c s call.chunks process o)
  | .endOfStream endOfStream => atEndOfStream P c s call.chunks endOfStream

/-- A tag arrives on an input, or the block is called. -/
inductive Act (μ ω : Type)
  | arrive (input : Nat) (tag : Tag μ)
  | work (call : Call μ ω)

def step (s : State μ ω) : Act μ ω → Option (State μ ω)
  | .arrive input tag => some { s with inputs := s.inputs.modify input fun port => { port with tags := port.tags ++ [tag] } }
  | .work call => if allowed P c s call then some (workInternal P c s call) else none

/-- A block that has published no tag, with its ports connected or not. -/
structure Starts (P : PropertyMap μ) (c : Arguments) (s : State μ ω) : Prop where
  inputs : ∀ port ∈ s.inputs, port.tags = [] ∧ (c.allSynchronous = true → port.isSync = true)
  outputs : ∀ o, (s.outputs o).ring = [] ∧ (c.allSynchronous = true → (s.outputs o).isSync = true)
  pendingForwardParams : s.pendingForwardParams = P.empty

def system (P : PropertyMap μ) (c : Arguments) (ω : Type) : Transition.System (State μ ω) (Act μ ω) where
  start := Starts P c
  step := step P c

end Work

end GnuRadio.OutputTags
