import Mathlib.Algebra.Ring.Nat
import Mathlib.Order.MinMax

/-! The size of a work call: `computeSampleLimits()`, `computeResampling()` and the counter of a stride in Block.hpp. -/

namespace GnuRadio.WorkSize

/-- `std::numeric_limits<std::size_t>::max()`, which stands for no limit, for no tag and for no requested work. -/
def unlimited : Nat := 2 ^ 64 - 1

/-- The sizes of an input and of an output chunk and the stride. `resampling` and `strideEnabled` are the arguments of the
    block's class. -/
structure Chunks where
  resampling : Bool
  strideEnabled : Bool
  inputChunkSize : Nat
  outputChunkSize : Nat
  stride : Nat
  deriving DecidableEq, Repr

def Chunks.isStrideActiveAndNotDefault (c : Chunks) : Prop := c.stride ≠ 0 ∧ c.stride ≠ c.inputChunkSize

instance (c : Chunks) : Decidable c.isStrideActiveAndNotDefault := inferInstanceAs (Decidable (_ ∧ _))

inductive Status
  | ok
  | insufficientInputItems
  | insufficientOutputItems
  deriving DecidableEq, Repr

structure ResamplingResult where
  resampledIn : Nat
  resampledOut : Nat
  status : Status
  deriving DecidableEq, Repr

/-- `std::clamp()`. -/
def clamp (v lo hi : Nat) : Nat := if v < lo then lo else if hi < v then hi else v

/-- As many samples in as out. -/
def withoutResampling (minSyncIn maxSyncIn minSyncOut maxSyncOut requestedWork : Nat) : ResamplingResult :=
  let maxSync := min maxSyncIn maxSyncOut
  if maxSync < minSyncIn then ⟨0, 0, .insufficientInputItems⟩
  else if maxSync < minSyncOut then ⟨0, 0, .insufficientOutputItems⟩
  else
    let resampled := clamp requestedWork (max minSyncIn minSyncOut) maxSync
    ⟨resampled, resampled, .ok⟩

/-- With a stride a call takes one chunk at most. -/
def nResamplingChunks (c : Chunks) (maxSyncIn maxSyncOut : Nat) : Nat :=
  if c.strideEnabled ∧ c.isStrideActiveAndNotDefault then
    if c.inputChunkSize ≤ maxSyncIn ∧ c.outputChunkSize ≤ maxSyncOut then 1 else 0
  else min (maxSyncIn / c.inputChunkSize) (maxSyncOut / c.outputChunkSize)

/-- The chunks that a call takes. -/
def inChunks (c : Chunks) (nChunks : Nat) : ResamplingResult :=
  ⟨nChunks * c.inputChunkSize, nChunks * c.outputChunkSize, .ok⟩

/-- Fewer chunks for the requested work, where that leaves what the ports need. -/
def withResampling (c : Chunks) (minSyncIn maxSyncIn minSyncOut maxSyncOut requestedWork : Nat) : ResamplingResult :=
  let nChunks := nResamplingChunks c maxSyncIn maxSyncOut
  if nChunks * c.inputChunkSize < minSyncIn then ⟨0, 0, .insufficientInputItems⟩
  else if nChunks * c.outputChunkSize < minSyncOut then ⟨0, 0, .insufficientOutputItems⟩
  else
    let minSync := max minSyncIn c.inputChunkSize
    let nChunks2 := min (clamp requestedWork minSync maxSyncIn / c.inputChunkSize) (maxSyncOut / c.outputChunkSize)
    if requestedWork < nChunks * c.inputChunkSize ∧ minSyncIn ≤ nChunks2 * c.inputChunkSize ∧
        minSyncOut ≤ nChunks2 * c.outputChunkSize then
      inChunks c nChunks2
    else inChunks c nChunks

def computeResampling (c : Chunks) (minSyncIn maxSyncIn minSyncOut maxSyncOut requestedWork : Nat) : ResamplingResult :=
  let requestedWork := if requestedWork = 0 then unlimited else requestedWork
  if !c.resampling ∨ c.inputChunkSize = 1 ∧ c.outputChunkSize = 1 then
    withoutResampling minSyncIn maxSyncIn minSyncOut maxSyncOut requestedWork
  else withResampling c minSyncIn maxSyncIn minSyncOut maxSyncOut requestedWork

/-- What the ports and the tags of a block allow when a call is sized. An `unlimited` tag is none. -/
structure Ports where
  minSyncIn : Nat
  maxSyncIn : Nat
  maxSyncAvailableIn : Nat
  hasAsyncIn : Bool
  minSyncOut : Nat
  maxSyncOut : Nat
  maxSyncAvailableOut : Nat
  hasAsyncOut : Bool
  hasAnyTag : Bool
  nextTag : Nat
  nextEosTag : Nat
  asyncEoS : Bool
  draining : Bool
  asyncOwed : Bool
  mergedBlockLimit : Nat
  deriving DecidableEq, Repr

structure SampleLimits where
  resampledIn : Nat
  resampledOut : Nat
  inputSkipBefore : Nat
  resampledStatus : Status
  hasAnyTag : Bool
  asyncEoS : Bool
  isEosPresent : Bool
  hasAsyncIn : Bool
  hasAsyncOut : Bool
  draining : Bool
  deriving DecidableEq, Repr

/-- What is skipped of the leftover stride, and what is left of it. -/
def inputSamplesToSkipBeforeNextChunk (c : Chunks) (strideCounter availableSamples : Nat) : Nat × Nat :=
  if c.strideEnabled ∧ c.isStrideActiveAndNotDefault ∧ 0 < strideCounter then
    let toSkip := min strideCounter availableSamples
    (toSkip, strideCounter - toSkip)
  else (0, strideCounter)

/-- What is consumed of a chunk, none without a stride, and the leftover stride. -/
def inputSamplesToConsumeAdjustedWithStride (c : Chunks) (strideCounter remainingSamples : Nat) : Nat × Nat :=
  if c.strideEnabled ∧ c.isStrideActiveAndNotDefault ∧ strideCounter = 0 ∧ 0 < remainingSamples then
    let toSkip := min c.stride remainingSamples
    (toSkip, c.stride - toSkip)
  else (0, strideCounter)

/-- The limits of a call, and the leftover stride after the samples to skip before it. -/
def computeSampleLimits (c : Chunks) (strideCounter : Nat) (ports : Ports) (requestedWork : Nat) : SampleLimits × Nat :=
  let skip := inputSamplesToSkipBeforeNextChunk c strideCounter (min ports.maxSyncAvailableIn ports.nextEosTag)
  let inputSkipBefore := skip.1
  let nextTagAfterSkip := ports.nextTag - inputSkipBefore
  let availAfterSkip := ports.maxSyncAvailableIn - inputSkipBefore
  let eosAfterSkip := ports.nextEosTag - inputSkipBefore
  let nextTagLimit := if ports.minSyncIn ≤ nextTagAfterSkip then nextTagAfterSkip else unlimited
  let ensureMinimalDecimation := if c.inputChunkSize ≤ nextTagLimit then nextTagLimit else c.inputChunkSize
  let availableToProcess := min (min (min (min ports.maxSyncIn ports.mergedBlockLimit) availAfterSkip) ensureMinimalDecimation)
    eosAfterSkip
  let availableToPublish := min ports.maxSyncOut ports.maxSyncAvailableOut
  let resampled := computeResampling c (min ports.minSyncIn ports.nextEosTag) availableToProcess ports.minSyncOut
    availableToPublish requestedWork
  -- a product of more than 64 bits wraps
  let publishedAtEos := c.outputChunkSize * (eosAfterSkip / c.inputChunkSize) % 2 ^ 64
  let isEosPresent := !ports.asyncOwed && (ports.nextEosTag = 0 ∨ eosAfterSkip < ports.minSyncIn ∨
    eosAfterSkip < c.inputChunkSize ∨ publishedAtEos < ports.minSyncOut)
  ({ resampledIn := resampled.resampledIn
     resampledOut := resampled.resampledOut
     inputSkipBefore := inputSkipBefore
     resampledStatus := resampled.status
     hasAnyTag := ports.hasAnyTag
     asyncEoS := ports.asyncEoS
     isEosPresent := isEosPresent
     hasAsyncIn := ports.hasAsyncIn
     hasAsyncOut := ports.hasAsyncOut
     draining := ports.draining }, skip.2)

/-! ### Facts about the size -/

variable {c : Chunks} {minSyncIn maxSyncIn minSyncOut maxSyncOut requestedWork : Nat}

theorem clamp_le {v lo hi : Nat} (h : lo ≤ hi) : clamp v lo hi ≤ hi := by
  unfold clamp
  split
  · exact h
  · split
    · exact le_rfl
    · omega

theorem withoutResampling_le :
    (withoutResampling minSyncIn maxSyncIn minSyncOut maxSyncOut requestedWork).resampledIn ≤ maxSyncIn := by
  unfold withoutResampling
  dsimp only
  split
  · exact Nat.zero_le _
  · split
    · exact Nat.zero_le _
    · exact (clamp_le (by omega)).trans (min_le_left _ _)

theorem withoutResampling_eq (minSyncIn maxSyncIn minSyncOut maxSyncOut requestedWork : Nat) :
    (withoutResampling minSyncIn maxSyncIn minSyncOut maxSyncOut requestedWork).resampledOut =
      (withoutResampling minSyncIn maxSyncIn minSyncOut maxSyncOut requestedWork).resampledIn := by
  unfold withoutResampling
  dsimp only
  split
  · rfl
  · split <;> rfl

theorem nResamplingChunks_le (c : Chunks) (maxSyncIn maxSyncOut : Nat) :
    nResamplingChunks c maxSyncIn maxSyncOut * c.inputChunkSize ≤ maxSyncIn := by
  unfold nResamplingChunks
  split
  · split
    · next h => rw [Nat.one_mul]; exact h.1
    · rw [Nat.zero_mul]; exact Nat.zero_le _
  · exact (Nat.mul_le_mul_right _ (min_le_left _ _)).trans (Nat.div_mul_le_self _ _)

theorem withResampling_le :
    (withResampling c minSyncIn maxSyncIn minSyncOut maxSyncOut requestedWork).resampledIn ≤ maxSyncIn := by
  have hchunks := nResamplingChunks_le c maxSyncIn maxSyncOut
  unfold withResampling
  dsimp only
  split
  · exact Nat.zero_le _
  · next hin =>
    split
    · exact Nat.zero_le _
    · split
      · next hwork =>
        have hone : c.inputChunkSize ≤ nResamplingChunks c maxSyncIn maxSyncOut * c.inputChunkSize := by
          refine Nat.le_mul_of_pos_left _ (Nat.pos_of_ne_zero fun hzero => ?_)
          have hlt := hwork.1
          rw [hzero, Nat.zero_mul] at hlt
          exact Nat.not_lt_zero _ hlt
        refine (Nat.mul_le_mul_right _ (min_le_left _ _)).trans ((Nat.div_mul_le_self _ _).trans (clamp_le ?_))
        exact max_le ((Nat.le_of_not_lt hin).trans hchunks) (hone.trans hchunks)
      · exact hchunks

/-- A call takes no more samples than there are. -/
theorem computeResampling_le :
    (computeResampling c minSyncIn maxSyncIn minSyncOut maxSyncOut requestedWork).resampledIn ≤ maxSyncIn := by
  unfold computeResampling
  dsimp only
  generalize (if requestedWork = 0 then unlimited else requestedWork) = work
  split
  · exact withoutResampling_le
  · exact withResampling_le

theorem withResampling_chunks (c : Chunks) (minSyncIn maxSyncIn minSyncOut maxSyncOut requestedWork : Nat) : ∃ n,
    (withResampling c minSyncIn maxSyncIn minSyncOut maxSyncOut requestedWork).resampledIn = n * c.inputChunkSize ∧
      (withResampling c minSyncIn maxSyncIn minSyncOut maxSyncOut requestedWork).resampledOut = n * c.outputChunkSize := by
  unfold withResampling
  dsimp only
  split
  · exact ⟨0, by rw [Nat.zero_mul], by rw [Nat.zero_mul]⟩
  · split
    · exact ⟨0, by rw [Nat.zero_mul], by rw [Nat.zero_mul]⟩
    · split
      · exact ⟨_, rfl, rfl⟩
      · exact ⟨_, rfl, rfl⟩

/-- A block that resamples takes whole chunks. -/
theorem computeResampling_chunks (h : c.resampling) : ∃ n,
    (computeResampling c minSyncIn maxSyncIn minSyncOut maxSyncOut requestedWork).resampledIn = n * c.inputChunkSize ∧
      (computeResampling c minSyncIn maxSyncIn minSyncOut maxSyncOut requestedWork).resampledOut = n * c.outputChunkSize := by
  unfold computeResampling
  dsimp only
  generalize (if requestedWork = 0 then unlimited else requestedWork) = work
  split
  · next hone =>
    obtain ⟨hin, hout⟩ := hone.resolve_left (by simp [h])
    refine ⟨(withoutResampling minSyncIn maxSyncIn minSyncOut maxSyncOut work).resampledIn, ?_, ?_⟩
    · rw [hin, Nat.mul_one]
    · rw [hout, Nat.mul_one]
      exact withoutResampling_eq ..
  · exact withResampling_chunks ..

/-- A block that does not resample takes as many samples as it publishes. -/
theorem computeResampling_eq (h : c.resampling = false) :
    (computeResampling c minSyncIn maxSyncIn minSyncOut maxSyncOut requestedWork).resampledOut =
      (computeResampling c minSyncIn maxSyncIn minSyncOut maxSyncOut requestedWork).resampledIn := by
  unfold computeResampling
  dsimp only
  rw [if_pos (Or.inl (by simp [h]))]
  exact withoutResampling_eq ..

end GnuRadio.WorkSize

/-! `computeResampling()` as the machine runs it: its products wrap at 64 bits, and `std::clamp()` is defined only where
    its bounds are in order. -/

namespace GnuRadio.WorkSize

/-- The chunk sizes that a block can have. They are constants, and one to one, where its class does not resample. -/
structure ChunkSizes extends Chunks where
  input_pos : 0 < inputChunkSize
  input_lt : inputChunkSize < 2 ^ 32
  output_pos : 0 < outputChunkSize
  output_lt : outputChunkSize < 2 ^ 32
  one_to_one : resampling = false → inputChunkSize = 1 ∧ outputChunkSize = 1

/-- The arguments of `computeResampling()` less the requested work. -/
structure Bounds where
  minSyncIn : Nat
  maxSyncIn : Nat
  minSyncOut : Nat
  maxSyncOut : Nat
  minSyncIn_lt : minSyncIn < 2 ^ 64
  maxSyncIn_lt : maxSyncIn < 2 ^ 64
  minSyncOut_lt : minSyncOut < 2 ^ 64
  maxSyncOut_lt : maxSyncOut < 2 ^ 64

/-- A number of chunks, one at least, that all bounds allow. With a stride a call takes one chunk at most. -/
structure Fits (c : Chunks) (b : Bounds) (n : Nat) : Prop where
  one_le : 1 ≤ n
  minIn : b.minSyncIn ≤ n * c.inputChunkSize
  maxIn : n * c.inputChunkSize ≤ b.maxSyncIn
  minOut : b.minSyncOut ≤ n * c.outputChunkSize
  maxOut : n * c.outputChunkSize ≤ b.maxSyncOut
  stride : c.strideEnabled → c.isStrideActiveAndNotDefault → ¬(c.inputChunkSize = 1 ∧ c.outputChunkSize = 1) → n ≤ 1

namespace Machine

/-- `std::clamp()`, which is undefined when its bounds are reversed. -/
def clamp (v lo hi : Nat) : Option Nat := if lo ≤ hi then some (WorkSize.clamp v lo hi) else none

/-- A product of `std::size_t`. -/
def times (a b : Nat) : Nat := a * b % 2 ^ 64

def withoutResampling (b : Bounds) (requestedWork : Nat) : Option ResamplingResult :=
  let maxSync := min b.maxSyncIn b.maxSyncOut
  if maxSync < b.minSyncIn then some ⟨0, 0, .insufficientInputItems⟩
  else if maxSync < b.minSyncOut then some ⟨0, 0, .insufficientOutputItems⟩
  else do
    let resampled ← clamp requestedWork (max b.minSyncIn b.minSyncOut) maxSync
    return ⟨resampled, resampled, .ok⟩

def inChunks (c : Chunks) (nChunks : Nat) : ResamplingResult :=
  ⟨times nChunks c.inputChunkSize, times nChunks c.outputChunkSize, .ok⟩

def withResampling (c : Chunks) (b : Bounds) (requestedWork : Nat) : Option ResamplingResult :=
  let nChunks := nResamplingChunks c b.maxSyncIn b.maxSyncOut
  if times nChunks c.inputChunkSize < b.minSyncIn then some ⟨0, 0, .insufficientInputItems⟩
  else if times nChunks c.outputChunkSize < b.minSyncOut then some ⟨0, 0, .insufficientOutputItems⟩
  else if requestedWork < times nChunks c.inputChunkSize then do
    let minSync := max b.minSyncIn c.inputChunkSize
    let requestedWork ← clamp requestedWork minSync b.maxSyncIn
    let nChunks2 := min (requestedWork / c.inputChunkSize) (b.maxSyncOut / c.outputChunkSize)
    if b.minSyncIn ≤ times nChunks2 c.inputChunkSize ∧ b.minSyncOut ≤ times nChunks2 c.outputChunkSize then
      return inChunks c nChunks2
    else return inChunks c nChunks
  else some (inChunks c nChunks)

def computeResampling (c : Chunks) (b : Bounds) (requestedWork : Nat) : Option ResamplingResult :=
  let requestedWork := if requestedWork = 0 then unlimited else requestedWork
  if !c.resampling ∨ c.inputChunkSize = 1 ∧ c.outputChunkSize = 1 then withoutResampling b requestedWork
  else withResampling c b requestedWork

end Machine

end GnuRadio.WorkSize
