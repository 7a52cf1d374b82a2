import GnuRadio.Block.SampleLimits
import Mathlib.Order.Lattice.Nat

/-! The tags that bound a work call: `getNextTagAndEosPosition()` and the port caches of a block whose stream inputs are all
    synchronous. -/

namespace GnuRadio.WorkSize

/-- A synchronous stream port as a work call finds it. -/
structure StreamPort where
  isOptional : Bool
  isConnected : Bool
  minSamples : Nat
  maxSamples : Nat
  available : Nat
  minSamples_lt : minSamples < 2 ^ 64
  maxSamples_lt : maxSamples < 2 ^ 64
  available_lt : available < 2 ^ 64

/-- An optional port that is not connected asks for nothing, and has all that there can be. -/
def StreamPort.minRequirement (p : StreamPort) : Nat := if p.isOptional && !p.isConnected then 0 else p.minSamples

def StreamPort.nAvailable (p : StreamPort) : Nat := if p.isOptional && !p.isConnected then unlimited else p.available

structure RingTag where
  index : Nat
  isEndOfStream : Bool
  index_lt : index < 2 ^ 64

/-- An input with the tags of its ring, which stand in the order of their positions, as `placeTag()` asserts. -/
structure StreamInput extends StreamPort where
  readPosition : Nat
  tags : List RingTag
  sorted : tags.Pairwise fun tag later => tag.index ≤ later.index

def defaultTagMatcher (readPosition : Nat) (tag : RingTag) : Bool := readPosition ≤ tag.index

def defaultEOSTagMatcher (readPosition : Nat) (tag : RingTag) : Bool := readPosition ≤ tag.index && tag.isEndOfStream

/-- The samples in front of the first tag of a ring that a matcher finds. -/
def StreamInput.nSamplesTo (p : StreamInput) (matcher : RingTag → Bool) : Option Nat :=
  if p.isConnected then (p.tags.find? matcher).map fun tag => tag.index - p.readPosition else none

/-- The tag after the one at position 0. -/
def StreamInput.nextTag (p : StreamInput) : Option Nat := p.nSamplesTo (defaultTagMatcher (p.readPosition + 1))

def StreamInput.nextEosTag (p : StreamInput) : Option Nat := p.nSamplesTo (defaultEOSTagMatcher p.readPosition)

/-- The least of the values, which is `unlimited` when there is none. -/
def least (values : List Nat) : Nat := values.foldr min unlimited

def greatest (values : List Nat) : Nat := values.foldr max 0

/-- A block with synchronous stream inputs only and no active stride. Only a block without stream ports has a limit of its
    own. -/
structure SyncBlock where
  chunks : ChunkSizes
  noStride : chunks.strideEnabled → ¬chunks.isStrideActiveAndNotDefault
  strideCounter : Nat
  inputs : List StreamInput
  outputs : List StreamPort
  hasAsyncOut : Bool
  mergedBlockLimit : Nat
  mergedBlockLimit_lt : mergedBlockLimit < 2 ^ 64
  mergedBlockLimit_eq : inputs ≠ [] → mergedBlockLimit = unlimited

namespace SyncBlock

variable (b : SyncBlock)

def minSyncIn : Nat := greatest (b.inputs.map (·.minRequirement))

def maxSyncIn : Nat := least (b.inputs.map (·.maxSamples))

def maxSyncAvailableIn : Nat := least (b.inputs.map (·.nAvailable))

def minSyncOut : Nat := greatest (b.outputs.map (·.minRequirement))

def maxSyncOut : Nat := least (b.outputs.map (·.maxSamples))

def maxSyncAvailableOut : Nat := least (b.outputs.map (·.nAvailable))

def nextTag : Nat := least (b.inputs.filterMap (·.nextTag))

def nextEosTag : Nat := least (b.inputs.filterMap (·.nextEosTag))

def hasInputStillToCome : Bool := b.inputs.any fun p => p.isConnected && p.nextEosTag.isNone

def holdsSamples : Bool := b.inputs.any fun p => p.nextEosTag.any (0 < ·)

def ports : Ports where
  minSyncIn := b.minSyncIn
  maxSyncIn := b.maxSyncIn
  maxSyncAvailableIn := b.maxSyncAvailableIn
  hasAsyncIn := false
  minSyncOut := b.minSyncOut
  maxSyncOut := b.maxSyncOut
  maxSyncAvailableOut := b.maxSyncAvailableOut
  hasAsyncOut := b.hasAsyncOut
  hasAnyTag := b.inputs.any fun p => p.isConnected && !p.tags.isEmpty
  nextTag := b.nextTag
  nextEosTag := b.nextEosTag
  asyncEoS := false
  draining := b.holdsSamples && !b.hasInputStillToCome
  asyncOwed := false
  mergedBlockLimit := b.mergedBlockLimit

def sampleLimits (requestedWork : Nat) : SampleLimits :=
  (computeSampleLimits b.chunks.toChunks b.strideCounter b.ports requestedWork).1

/-- A call processes a chunk. -/
def Processes (requestedWork : Nat) : Prop :=
  (b.sampleLimits requestedWork).resampledStatus = .ok ∧ 0 < (b.sampleLimits requestedWork).resampledIn ∧
    0 < (b.sampleLimits requestedWork).resampledOut

instance (requestedWork : Nat) : Decidable (b.Processes requestedWork) := inferInstanceAs (Decidable (_ ∧ _ ∧ _))

/-! ### The end of the stream -/

/-- The number of samples in front of the nearest end-of-stream tag in view. -/
def NearestEnd (nSamples : Nat) : Prop :=
  IsLeast {n | ∃ p ∈ b.inputs, p.isConnected ∧ ∃ tag ∈ p.tags, p.readPosition ≤ tag.index ∧ tag.isEndOfStream ∧
    n = tag.index - p.readPosition} nSamples

/-- A number of chunks, one at least, that `nSamples` hold and that reach the minima of the ports. -/
def Admits (nSamples k : Nat) : Prop :=
  1 ≤ k ∧ k * b.chunks.inputChunkSize ≤ nSamples ∧ b.minSyncIn ≤ k * b.chunks.inputChunkSize ∧
    b.minSyncOut ≤ k * b.chunks.outputChunkSize

/-- Every input holds the samples in front of the end, and every output has room for all their chunks. -/
def ReachesEnd (nSamples : Nat) : Prop :=
  (∀ p ∈ b.inputs, nSamples ≤ p.nAvailable) ∧
    ∀ p ∈ b.outputs, nSamples / b.chunks.inputChunkSize * b.chunks.outputChunkSize ≤ p.nAvailable

/-- The end is there exactly when no chunk is left in front of it, and otherwise the block processes one. -/
structure EndDecided (requestedWork : Nat) : Prop where
  exact : (b.sampleLimits requestedWork).isEosPresent ↔ ∃ nSamples, b.NearestEnd nSamples ∧ ¬∃ k, b.Admits nSamples k
  progress : ∀ nSamples, b.NearestEnd nSamples → b.ReachesEnd nSamples →
    (b.sampleLimits requestedWork).isEosPresent ∨ b.Processes requestedWork

/-- What the next tag leaves of a call: nothing less than a chunk, and nothing less than the ports need. -/
def tagLimit : Nat := max (if b.minSyncIn ≤ b.nextTag then b.nextTag else unlimited) b.chunks.inputChunkSize

/-- The most chunks of a call with `nSamples` in front of the end. -/
def chunksTo (nSamples : Nat) : Nat :=
  min (min (min b.maxSyncIn b.tagLimit) nSamples / b.chunks.inputChunkSize) (b.maxSyncOut / b.chunks.outputChunkSize)

/-- When the end is decided exactly: the minima agree with the whole chunks in front of the end, their product does not wrap
    below the minimum of the outputs, and neither the next tag nor a maximum of a port leaves less than the minima. -/
structure EndExact : Prop where
  noEnd : (∀ nSamples, ¬b.NearestEnd nSamples) →
    b.minSyncOut ≤ b.chunks.outputChunkSize * (unlimited / b.chunks.inputChunkSize) % 2 ^ 64
  wholeChunks : ∀ nSamples, b.NearestEnd nSamples → b.chunks.inputChunkSize ≤ nSamples → b.minSyncIn ≤ nSamples →
    b.minSyncIn ≤ nSamples / b.chunks.inputChunkSize * b.chunks.inputChunkSize ∨
      b.chunks.outputChunkSize * (nSamples / b.chunks.inputChunkSize) % 2 ^ 64 < b.minSyncOut
  unwrapped : ∀ nSamples, b.NearestEnd nSamples → (∃ k, b.Admits nSamples k) →
    b.minSyncOut ≤ b.chunks.outputChunkSize * (nSamples / b.chunks.inputChunkSize) % 2 ^ 64
  uncut : ∀ nSamples, b.NearestEnd nSamples → (∃ k, b.Admits nSamples k) → b.ReachesEnd nSamples →
    b.Admits nSamples (b.chunksTo nSamples)

/-! ### Ordinary tags -/

/-- None of the tags ends a stream. -/
def Ordinary : Prop := ∀ p ∈ b.inputs, ∀ tag ∈ p.tags, ¬tag.isEndOfStream

/-- The block with empty tag rings. -/
def withoutTags : SyncBlock :=
  { b with
    inputs := b.inputs.map fun p => { p with tags := [], sorted := .nil }
    mergedBlockLimit_eq := fun h => b.mergedBlockLimit_eq fun hnil => h (by rw [hnil, List.map_nil]) }

/-- The chunks that a call takes when no tag is in view. -/
def allChunks : Nat :=
  min (min (min b.maxSyncIn b.mergedBlockLimit) b.maxSyncAvailableIn / b.chunks.inputChunkSize)
    (min b.maxSyncOut b.maxSyncAvailableOut / b.chunks.outputChunkSize)

/-- The chunks up to the next tag, one at least. -/
def chunksToTag : Nat := max 1 (b.nextTag / b.chunks.inputChunkSize)

/-- The next tag is nearer than the minimum of the inputs, or it cuts nothing, or the chunks up to it reach the minima. -/
def TagAllows : Prop :=
  b.nextTag < b.minSyncIn ∨ b.allChunks ≤ b.chunksToTag ∨
    b.minSyncIn ≤ b.chunksToTag * b.chunks.inputChunkSize ∧ b.minSyncOut ≤ b.chunksToTag * b.chunks.outputChunkSize

end SyncBlock

end GnuRadio.WorkSize
