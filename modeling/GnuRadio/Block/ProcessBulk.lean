import GnuRadio.Block.OutputTags
import GnuRadio.Block.SampleLimits
import Mathlib.Data.Finset.Fold
import Mathlib.Data.Fintype.Basic

/-! The tags of a block with a `processBulk()`: what its work calls retire from its inputs and place on its outputs, for any
    samples that `processBulk()` consumes and publishes (`workInternal()`, `dispatchProcessing()` and `finaliseIO()` in
    Block.hpp; `~InputSpan()` in Port.hpp). One work call a step. -/

namespace GnuRadio.ProcessBulk

open OutputTags

variable {μ ω : Type}

inductive Status
  | ok
  | done
  | insufficientItems
  | error
  deriving DecidableEq, Repr

/-- What `processBulk()` does: the samples that it consumes of an input and publishes on an output itself, none where it
    leaves them to the block, and the tags that it publishes. -/
structure Choice (μ ω : Type) where
  status : Status
  consumed : Nat → Option Nat
  published : ω → Option Nat
  tags : ω → List (Nat × μ)

/-- The limits of a chunk and the stride. -/
structure Sizes where
  minSyncIn : Nat
  availableToProcess : Nat
  minSyncOut : Nat
  availableToPublish : Nat
  requestedWork : Nat
  stride : Nat
  deriving DecidableEq, Repr

/-- A chunk. `shuttingDown`: a stop has reached the block when `processBulk()` returns; the other fields are those of
    `OutputTags.Process`. -/
structure Process (μ ω : Type) where
  sizes : Sizes
  free : Free ω
  choice : Choice μ ω
  shuttingDown : Bool
  strideToConsume : Nat
  changedForward : μ
  forwardParams : μ

/-- The call of a `processEpilogue()`, with the samples and the tags that it publishes. -/
structure Epilogue (μ ω : Type) where
  trailing : Nat
  epilogueOutSize : Nat
  consumed : Nat
  published : ω → Nat
  tags : ω → List (Nat × μ)
  free : Free ω

structure EndOfStream (μ ω : Type) where
  epilogue : Option (Epilogue μ ω)
  remaining : Option (μ × Free ω)
  eosFits : ω → Bool

inductive Outcome (μ ω : Type)
  | returns
  | process (call : Process μ ω)
  | endOfStream (call : EndOfStream μ ω)

structure Call (μ ω : Type) where
  forwardParams : μ
  chunks : Nat × Nat
  skip : Option (Nat × Free ω)
  outcome : Outcome μ ω

/-! ### processBulk -/

namespace Process

variable (c : Arguments) (chunks : Nat × Nat) (inputs : List (Input μ)) (call : Process μ ω)

/-- The samples that the spans of a chunk hold. -/
def resampled : WorkSize.ResamplingResult :=
  WorkSize.computeResampling ⟨c.resampling, c.stride, chunks.1, chunks.2, call.sizes.stride⟩ call.sizes.minSyncIn
    call.sizes.availableToProcess call.sizes.minSyncOut call.sizes.availableToPublish call.sizes.requestedWork

/-- `sanitiseProcessStatus()` takes the counts of such a call. -/
def refused : Bool := call.choice.status = .insufficientItems || call.choice.status = .error

/-- The least that a synchronous input consumes. -/
def processedIn : Nat :=
  if call.refused || call.shuttingDown then 0
  else inputs.zipIdx.foldl (fun n port =>
    if port.1.isSync && port.1.isConnected then min n ((call.choice.consumed port.2).getD n) else n)
      (call.resampled c chunks).resampledIn

/-- The least that a synchronous output publishes. -/
def processedOut [Fintype ω] (outputs : ω → Output μ) : Nat :=
  if call.refused then 0
  else Finset.univ.fold min (call.resampled c chunks).resampledOut fun o =>
    if (outputs o).isSync && (outputs o).isConnected then
      (call.choice.published o).getD (call.resampled c chunks).resampledOut
    else (call.resampled c chunks).resampledOut

/-- The samples that a call consumes of a synchronous input. -/
def nConsumed (input : Nat) : Nat :=
  match call.choice.consumed input with
  | some nSamples => nSamples
  | none =>
    if call.processedIn c chunks inputs = 0 then 0
    else if call.strideToConsume = 0 then call.processedIn c chunks inputs
    else call.strideToConsume

/-- The window of the tags that are mapped by the chunk ratio. -/
def consumedIn : Option Nat :=
  (inputs.zipIdx.filterMap fun port =>
    if port.1.isSync && port.1.isConnected then some (call.nConsumed c chunks inputs port.2) else none).min?

def isDone : Bool := call.choice.status = .done || call.shuttingDown && !(call.choice.status = .error)

end Process

section Work

variable [DecidableEq μ] (P : PropertyMap μ) (c : Arguments)

/-- The tags that a call hands on before `processBulk()`. -/
def forwardBefore (s : State μ ω) (chunks : Nat × Nat) (call : Process μ ω) (o : ω) : OutputSpan μ :=
  let sizes := call.resampled c chunks
  let inputSpans := s.inputs.map (·.get sizes.resampledIn)
  let out := (s.outputs o).tryReserve sizes.resampledOut (call.free.samples o) (call.free.tags o)
  publishPending P s.pendingForwardParams
    (if c.mapsTagsByChunkRatio then out else forwardInputTags P c chunks inputSpans sizes.resampledIn none out)

def invokeProcessBulk (choice : Choice μ ω) (o : ω) (out : OutputSpan μ) : OutputSpan μ :=
  { out.publishAll P (choice.tags o) with nRequestedSamplesToPublish := choice.published o }

/-- The tags that a call hands on after `processBulk()`. -/
def forwardAfter (chunks : Nat × Nat) (inputSpans : List (InputSpan μ)) (consumedIn : Option Nat) (changedForward : μ)
    (out : OutputSpan μ) : OutputSpan μ :=
  if c.mapsTagsByChunkRatio ∧ consumedIn.getD 0 ≠ 0 then
    publishPending P (if c.noTagPropagation then P.empty else changedForward)
      (forwardInputTags P c chunks inputSpans (consumedIn.getD 0) none out)
  else out

/-- A call that publishes no sample publishes none of the tags placed so far. -/
def finaliseSpan (chunks : Nat × Nat) (inputSpans : List (InputSpan μ)) (consumedIn : Option Nat) (processedOut : Nat)
    (call : Process μ ω) (forwardParams : μ) (out : OutputSpan μ) : OutputSpan μ :=
  let out := if processedOut = 0 then { out with tags := [] } else out
  let out := forwardAfter P c chunks inputSpans consumedIn call.changedForward (out.publishSamples processedOut)
  if call.isDone then
    let out := publishPending P forwardParams out
    out.publishEoSTag P P.endOfStream (out.nRequestedSamplesToPublish.getD 0)
  else out

/-- The span that is released on an output. -/
def chunkSpan [Fintype ω] (s : State μ ω) (chunks : Nat × Nat) (call : Process μ ω) (o : ω) : OutputSpan μ :=
  let processedOut := call.processedOut c chunks s.outputs
  let pending := if processedOut = 0 then s.pendingForwardParams else P.empty
  let forwardParams :=
    if call.shuttingDown ∧ !c.noTagPropagation then P.mergeForwardParams pending call.forwardParams else pending
  finaliseSpan P c chunks (s.inputs.map (·.get (call.resampled c chunks).resampledIn)) (call.consumedIn c chunks s.inputs)
    processedOut call forwardParams (invokeProcessBulk P call.choice o (forwardBefore P c s chunks call o))

def process [Fintype ω] (s : State μ ω) (chunks : Nat × Nat) (call : Process μ ω) : State μ ω where
  inputs := s.inputs.mapIdx fun k port =>
    let nConsumed := call.nConsumed c chunks s.inputs k
    if nConsumed = 0 then port else port.consume nConsumed (if c.hasWholeChunkTagWindow then nConsumed else 1)
  outputs := fun o => (s.outputs o).release (chunkSpan P c s chunks call o)
  pendingForwardParams :=
    if call.isDone ∨ call.processedOut c chunks s.outputs ≠ 0 then P.empty else s.pendingForwardParams

/-! ### The end of the stream -/

def epilogueSpan (s : State μ ω) (chunks : Nat × Nat) (epilogue : Epilogue μ ω) (o : ω) : OutputSpan μ :=
  let epilogueIn := s.inputs.map (·.get epilogue.trailing)
  let out := (s.outputs o).tryReserve epilogue.epilogueOutSize (epilogue.free.samples o) (epilogue.free.tags o)
  let out := forwardInputTags P c chunks epilogueIn epilogue.trailing (some epilogue.trailing) out
  let out := (publishPending P s.pendingForwardParams out).publishAll P (epilogue.tags o)
  clipTags { out with nRequestedSamplesToPublish := some (epilogue.published o) }

def invokeProcessEpilogue (s : State μ ω) (chunks : Nat × Nat) (epilogue : Epilogue μ ω) : State μ ω where
  inputs := s.inputs.map (·.consume epilogue.consumed epilogue.trailing)
  outputs := fun o => (s.outputs o).release (epilogueSpan P c s chunks epilogue o)
  pendingForwardParams := P.empty

def epilogueBeforeEnd (s : State μ ω) (chunks : Nat × Nat) : Option (Epilogue μ ω) → State μ ω
  | some epilogue => invokeProcessEpilogue P c s chunks epilogue
  | none => s

def remainingAtEnd (s : State μ ω) : Option (μ × Free ω) → State μ ω
  | some (forwardParams, free) => forwardTagsAtEndOfStream P c s forwardParams free
  | none => s

def atEndOfStream (s : State μ ω) (chunks : Nat × Nat) (call : EndOfStream μ ω) : State μ ω :=
  let s := remainingAtEnd P c (epilogueBeforeEnd P c s chunks call.epilogue) call.remaining
  { s with outputs := fun o => (s.outputs o).publishEoSTag P.endOfStream (call.eosFits o) }

/-! ### A work call -/

/-- The state in which a call prepares its spans. -/
def prepared (s : State μ ω) (call : Call μ ω) : State μ ω :=
  (skipBeforeChunk P c s call.chunks call.skip).applyChangedSettings P c call.forwardParams

def workInternal [Fintype ω] (s : State μ ω) (call : Call μ ω) : State μ ω :=
  let s := prepared P c s call
  match call.outcome with
  | .returns => s
  | .process process => ProcessBulk.process P c s call.chunks process
  | .endOfStream endOfStream => atEndOfStream P c s call.chunks endOfStream

/-- A chunk ends at the next tag, unless that leaves too few samples, and at the end of the stream. -/
def withinLimits (s : State μ ω) (call : Call μ ω) (process : Process μ ω) : Prop :=
  let nSkip := (call.skip.map (·.1)).getD 0
  (∀ limit ∈ (s.inputs.filterMap Input.nextTag).min?, process.sizes.minSyncIn ≤ limit - nSkip →
    process.sizes.availableToProcess ≤ max (limit - nSkip) call.chunks.1) ∧
  ∀ limit ∈ (s.inputs.filterMap (·.nextEosTag P)).min?, process.sizes.availableToProcess ≤ limit - nSkip

instance (s : State μ ω) (call : Call μ ω) (process : Process μ ω) : Decidable (withinLimits P s call process) :=
  inferInstanceAs (Decidable ((∀ limit ∈ _, _ → _) ∧ ∀ limit ∈ _, _))

/-- `processBulk()` consumes no more than it is handed. -/
def withinSpans (s : State μ ω) (chunks : Nat × Nat) (process : Process μ ω) : Prop :=
  ∀ k < s.inputs.length, ∀ n ∈ process.choice.consumed k, n ≤ (process.resampled c chunks).resampledIn

instance (s : State μ ω) (chunks : Nat × Nat) (process : Process μ ω) : Decidable (withinSpans c s chunks process) :=
  inferInstanceAs (Decidable (∀ k < _, ∀ n ∈ _, _))

/-- Only a stride skips samples, or consumes less than the chunk. -/
def allowed (s : State μ ω) (call : Call μ ω) : Prop :=
  (call.skip.isNone ∨ c.stride) ∧
    match call.outcome with
    | .process process =>
      withinLimits P s call process ∧ withinSpans c s call.chunks process ∧ (process.strideToConsume = 0 ∨ c.stride) ∧
        process.strideToConsume ≤ (process.resampled c call.chunks).resampledIn
    | .returns | .endOfStream _ => True

instance (s : State μ ω) (call : Call μ ω) : Decidable (allowed P c s call) := by
  unfold allowed
  cases call.outcome <;> infer_instance

/-- A tag arrives on an input, or the block is called. -/
inductive Act (μ ω : Type)
  | arrive (input : Nat) (tag : Tag μ)
  | work (call : Call μ ω)

def step [Fintype ω] (s : State μ ω) : Act μ ω → Option (State μ ω)
  | .arrive input tag => some { s with inputs := s.inputs.modify input fun port => { port with tags := port.tags ++ [tag] } }
  | .work call => if allowed P c s call then some (workInternal P c s call) else none

/-- Runs from a state of the block. -/
def system [Fintype ω] (start : State μ ω) : Transition.System (State μ ω) (Act μ ω) where
  start s := s = start
  step := step P c

/-! ### What a call retires and hands on -/

/-- A part of a call that releases spans, with the states before and after it. -/
structure Phase (μ ω : Type) where
  chunks : Nat × Nat
  before : State μ ω
  after : State μ ω

/-- The tags that an input has given up, with their indices relative to its read position. -/
def retired (before after : Input μ) : List (Int × μ) :=
  (before.tags.take (before.tags.length - after.tags.length)).map fun tag => ((tag.index : Int) - before.position, tag.map)

def Phase.retired (phase : Phase μ ω) : List (Int × μ) :=
  (phase.before.inputs.zip phase.after.inputs).flatMap fun port => ProcessBulk.retired port.1 port.2

def phases [Fintype ω] (s : State μ ω) : Act μ ω → List (Phase μ ω)
  | .arrive _ _ => []
  | .work call =>
    let skipped := skipBeforeChunk P c s call.chunks call.skip
    let s' := prepared P c s call
    ⟨call.chunks, s, skipped⟩ ::
      match call.outcome with
      | .returns => []
      | .process process => [⟨call.chunks, s', ProcessBulk.process P c s' call.chunks process⟩]
      | .endOfStream endOfStream =>
        let after := epilogueBeforeEnd P c s' call.chunks endOfStream.epilogue
        [⟨call.chunks, s', after⟩, ⟨call.chunks, after, atEndOfStream P c s' call.chunks endOfStream⟩]

/-- Each tag that the inputs have given up is among those that the phase has put on every connected synchronous output, at
    its offset or at the end of what the span publishes. A map with no key has nothing to hand on. -/
def HandsOn (phase : Phase μ ω) : Prop :=
  ∀ o, (phase.before.outputs o).isConnected → (phase.before.outputs o).isSync → ∃ last, ∀ tag ∈ phase.retired,
    ∀ tag' ∈ collect P c phase.chunks tag,
      ⟨(phase.before.outputs o).position + min tag'.1 last, P.canonicalizeKeys tag'.2⟩ ∈
        (phase.after.outputs o).ring.drop (phase.before.outputs o).ring.length

/-- The span that a skip releases. -/
def skipSpan (s : State μ ω) (chunks : Nat × Nat) (skip : Nat × Free ω) (o : ω) : OutputSpan μ :=
  (forwardInputTags P c chunks (s.inputs.map (·.get skip.1)) skip.1 (some skip.1)
    ((s.outputs o).tryReserve 0 (skip.2.samples o) (skip.2.tags o))).publishSamples 0

/-- The span that the tags at the end of the stream leave in. -/
def remainingSpan (s : State μ ω) (remaining : μ × Free ω) (o : ω) : OutputSpan μ :=
  let endIndex := (s.inputs.filterMap fun port => (port.nextEosTag P).map (port.position + ·)).min?
  let endIn := s.inputs.map (·.getRemainingTags endIndex)
  let s := s.applyChangedSettings P c remaining.1
  let endOut := (s.outputs o).tryReserve 0 (remaining.2.samples o) (remaining.2.tags o)
  (publishPending P s.pendingForwardParams (forwardRemainingInputTags P c endIn endOut)).publishSamples 0

def fitsOutcome [Fintype ω] (s : State μ ω) (chunks : Nat × Nat) : Outcome μ ω → Prop
  | .returns => True
  | .process process => ∀ o, (chunkSpan P c s chunks process o).tagsDropped = 0
  | .endOfStream endOfStream =>
    (∀ epilogue ∈ endOfStream.epilogue, ∀ o, (epilogueSpan P c s chunks epilogue o).tagsDropped = 0) ∧
      ∀ remaining ∈ endOfStream.remaining, ∀ o,
        (remainingSpan P c (epilogueBeforeEnd P c s chunks endOfStream.epilogue) remaining o).tagsDropped = 0

instance [Fintype ω] (s : State μ ω) (chunks : Nat × Nat) : (outcome : Outcome μ ω) → Decidable (fitsOutcome P c s chunks outcome)
  | .returns => .isTrue trivial
  | .process _ => inferInstanceAs (Decidable (∀ _, _))
  | .endOfStream _ => inferInstanceAs (Decidable ((∀ epilogue ∈ _, _) ∧ ∀ remaining ∈ _, _))

/-- No reservation of the call is exhausted. -/
def Fits [Fintype ω] (s : State μ ω) : Act μ ω → Prop
  | .arrive _ _ => True
  | .work call =>
    (∀ skip ∈ call.skip, ∀ o, (skipSpan P c s call.chunks skip o).tagsDropped = 0) ∧
      fitsOutcome P c (prepared P c s call) call.chunks call.outcome

instance [Fintype ω] (s : State μ ω) : (act : Act μ ω) → Decidable (Fits P c s act)
  | .arrive _ _ => .isTrue trivial
  | .work _ => inferInstanceAs (Decidable ((∀ skip ∈ _, _) ∧ fitsOutcome ..))

/-- The tags that an input gives up with `nConsumed` samples. -/
def toRetire (nConsumed : Nat) (port : Input μ) : List (Tag μ) :=
  if nConsumed = 0 then []
  else port.tags.takeWhile (·.index < port.position + if c.hasWholeChunkTagWindow then nConsumed else 1)

/-- Some connected synchronous output gets no sample. -/
def publishesNothing (s : State μ ω) (chunks : Nat × Nat) (process : Process μ ω) : Prop :=
  process.refused ∨ (process.resampled c chunks).resampledOut = 0 ∨
    ∃ o, (s.outputs o).isSync ∧ (s.outputs o).isConnected ∧ process.choice.published o = some 0

/-- A chunk without samples out gives up no tag. With a chunk ratio, no input gives up a tag of samples that another one
    does not consume. -/
def keepsTags (s : State μ ω) (chunks : Nat × Nat) (process : Process μ ω) : Prop :=
  ∀ port ∈ s.inputs.zipIdx, port.1.isSync → port.1.isConnected →
    let retires := toRetire c (process.nConsumed c chunks s.inputs port.2) port.1
    if c.mapsTagsByChunkRatio then
      ∀ tag ∈ retires, ∀ other ∈ s.inputs.zipIdx, other.1.isSync → other.1.isConnected →
        let nConsumed := process.nConsumed c chunks s.inputs other.2
        nConsumed ≠ 0 ∧ tag.index < port.1.position + nConsumed
    else publishesNothing c s chunks process → retires = []

instance [Fintype ω] (s : State μ ω) (chunks : Nat × Nat) (process : Process μ ω) :
    Decidable (publishesNothing c s chunks process) := inferInstanceAs (Decidable (_ ∨ _ ∨ ∃ _, _))

instance [Fintype ω] (s : State μ ω) (chunks : Nat × Nat) (process : Process μ ω) :
    Decidable (keepsTags c s chunks process) := by
  unfold keepsTags
  infer_instance

def keepsOutcome (s : State μ ω) (chunks : Nat × Nat) : Outcome μ ω → Prop
  | .process process => keepsTags c s chunks process
  | .returns | .endOfStream _ => True

instance [Fintype ω] (s : State μ ω) (chunks : Nat × Nat) : (outcome : Outcome μ ω) → Decidable (keepsOutcome c s chunks outcome)
  | .process _ => inferInstanceAs (Decidable (keepsTags ..))
  | .returns | .endOfStream _ => .isTrue trivial

def KeepsTags (s : State μ ω) : Act μ ω → Prop
  | .arrive _ _ => True
  | .work call => keepsOutcome c (prepared P c s call) call.chunks call.outcome

instance [Fintype ω] (s : State μ ω) : (act : Act μ ω) → Decidable (KeepsTags P c s act)
  | .arrive _ _ => .isTrue trivial
  | .work _ => inferInstanceAs (Decidable (keepsOutcome ..))

end Work

end GnuRadio.ProcessBulk

/-! Where the tags of the inputs leave: runs of a block that takes and publishes whole chunks, in which every map carries a
    mark that tells whether it came from an input. -/

namespace GnuRadio.ProcessBulk

open OutputTags

variable {μ ω : Type}

/-- Maps with a mark, which goes with the map through the block. What the block makes itself has none. -/
def marked (P : PropertyMap μ) : PropertyMap (μ × Bool) where
  empty := (P.empty, false)
  isEmpty map := P.isEmpty map.1
  mergeForwardParams pending fresh := (P.mergeForwardParams pending.1 fresh.1, pending.2 || fresh.2)
  filterAndSubstituteTag map := (P.filterAndSubstituteTag map.1, map.2)
  canonicalizeKeys map := (P.canonicalizeKeys map.1, map.2)
  isEndOfStream map := P.isEndOfStream map.1
  eraseEndOfStream map := (P.eraseEndOfStream map.1, map.2)
  endOfStream := (P.endOfStream, false)

/-- The tags on an output that came from an input. -/
def handedOn (out : Output (μ × Bool)) : List (Tag (μ × Bool)) := out.ring.filter (·.map.2)

/-- A tag after the block's filter, at the output index of its input index. A map without a key does not leave. -/
def leaves (P : PropertyMap μ) (outputIndex : Nat → Nat) (tag : Tag μ) : Option (Tag μ) :=
  let map := P.filterAndSubstituteTag tag.map
  if P.isEmpty map then none else some ⟨outputIndex tag.index, P.canonicalizeKeys map⟩

/-- A tag at the end of the stream, without the key of the marker. -/
def leavesAtEnd (P : PropertyMap μ) (endIndex : Nat) (tag : Tag μ) : Option (Tag μ) :=
  let map := P.eraseEndOfStream (P.filterAndSubstituteTag tag.map)
  if P.isEmpty map then none else some ⟨endIndex, P.canonicalizeKeys map⟩

/-- A tag once the stream has ended: at the end from the input index `limit` on. -/
def leavesFinally (P : PropertyMap μ) (outputIndex : Nat → Nat) (limit endIndex : Nat) (tag : Tag μ) : Option (Tag μ) :=
  if tag.index < limit then leaves P (fun index => min (outputIndex index) endIndex) tag else leavesAtEnd P endIndex tag

/-- Not past the first end-of-stream marker that an input holds from the index `limit` on. -/
def inStream (P : PropertyMap μ) (limit : Nat) (arrived : List (Tag μ)) (tag : Tag μ) : Bool :=
  tag.index < limit ||
    arrived.all fun marker => marker.index < limit || !P.isEndOfStream marker.map || tag.index ≤ marker.index

/-- The tag that arrives on a connected synchronous input. -/
def arrives (s : State μ ω) : Act μ ω → List (Tag μ)
  | .arrive input tag => if s.inputs[input]?.any fun port => port.isSync && port.isConnected then [tag] else []
  | .work _ => []

/-! ### Whole chunks -/

/-- Fresh ports at the boundary of a chunk. -/
structure Begins (chunks : Nat × Nat) (start : State (μ × Bool) ω) : Prop where
  tags : ∀ port ∈ start.inputs, port.tags = []
  rings : ∀ o, (start.outputs o).ring = []
  pending : start.pendingForwardParams.2 = false
  position : ∃ m, (∀ port ∈ start.inputs, port.isSync → port.isConnected → port.position = m * chunks.1) ∧
    ∀ o, (start.outputs o).isSync → (start.outputs o).isConnected → (start.outputs o).position = m * chunks.2

section

variable (P : PropertyMap μ) (c : Arguments) (chunks : Nat × Nat)

/-- `processBulk()` consumes and publishes all that it is handed, or returns `INSUFFICIENT_*` and does neither. -/
def Process.Whole (call : Process (μ × Bool) ω) : Prop :=
  let sizes := call.resampled c chunks
  (call.choice.status = .ok ∧ (∀ k, (call.choice.consumed k).getD sizes.resampledIn = sizes.resampledIn) ∧
      (∀ o, (call.choice.published o).getD sizes.resampledOut = sizes.resampledOut) ∨
    call.choice.status = .insufficientItems ∧ (∀ k, (call.choice.consumed k).getD 0 = 0) ∧
      ∀ o, (call.choice.published o).getD 0 = 0) ∧
  call.shuttingDown = false ∧ (∀ o, ∀ tag ∈ call.choice.tags o, tag.2.2 = false) ∧ call.changedForward.2 = false

/-- A tag arrives before its sample is taken, in the order of the tags. -/
def arrivesInOrder (port : Input (μ × Bool)) (tag : Tag (μ × Bool)) : Prop :=
  tag.map.2 = true ∧ port.position ≤ tag.index ∧ ∀ present ∈ port.tags, present.index ≤ tag.index

/-- A step of a run with whole chunks of one size. -/
def Whole (s : State (μ × Bool) ω) : Act (μ × Bool) ω → Prop
  | .arrive input tag => ∀ port ∈ s.inputs[input]?, port.isSync → port.isConnected → arrivesInOrder port tag
  | .work call =>
    call.chunks = chunks ∧ call.forwardParams.2 = false ∧
      match call.outcome with
      | .returns => True
      | .process process => process.Whole c chunks
      | .endOfStream _ => False

/-- The call that ends the stream, with an epilogue or without. -/
structure Ends (endOfStream : EndOfStream (μ × Bool) ω) : Prop where
  remaining : ∃ remaining ∈ endOfStream.remaining, remaining.1.2 = false
  epilogue : ∀ epilogue ∈ endOfStream.epilogue, epilogue.consumed ≤ epilogue.trailing ∧
    (∀ o, epilogue.published o ≤ epilogue.epilogueOutSize) ∧ ∀ o, ∀ tag ∈ epilogue.tags o, tag.2.2 = false

/-- The samples that an epilogue is handed. -/
def EndOfStream.trailing (endOfStream : EndOfStream μ ω) : Nat := endOfStream.epilogue.elim 0 (·.trailing)

/-- A step that ends the stream and exhausts no reservation. -/
structure Final [DecidableEq μ] [Fintype ω] (s : State (μ × Bool) ω) (endOfStream : EndOfStream (μ × Bool) ω)
    (t : State (μ × Bool) ω) : Prop where
  ends : Ends endOfStream
  step : ∃ call : Call (μ × Bool) ω, call.outcome = .endOfStream endOfStream ∧ call.chunks = chunks ∧
    call.forwardParams.2 = false ∧ Fits (marked P) c s (.work call) ∧ step (marked P) c s (.work call) = some t

end

end GnuRadio.ProcessBulk
