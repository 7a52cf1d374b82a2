import GnuRadio.Buffer.CircularBuffer
import GnuRadio.Library.Heap
import Mathlib.Algebra.Ring.Nat

/-! `SegmentedBuffer` (SegmentedBuffer.hpp): slots in segments that the writer allocates when it first writes into them
    and frees once every reader has passed them, found through an index that doubles when the segments outnumber its
    entries. A segment has `2 ^ shift` slots. -/

namespace GnuRadio.SegmentedBuffer

open CircularBuffer (Reader SpanReleasePolicy WriterSpan)

variable {α ρ : Type}

/-! ### The storage -/

/-- `entries` is the ring of `length` pointers, `replaced` the index that this one replaced, until the writer frees it,
    and `replacedAt` the publish position at which it did. -/
structure SegmentIndex where
  length : Nat
  entries : Nat → Option Nat
  replaced : Option Nat
  replacedAt : Nat

namespace SegmentIndex

/-- The entry of a segment: the length is a power of two. -/
def entry (index : SegmentIndex) (segmentNumber : Nat) : Nat := segmentNumber &&& (index.length - 1)

def segment (index : SegmentIndex) (segmentNumber : Nat) : Option Nat := index.entries (index.entry segmentNumber)

def store (index : SegmentIndex) (segmentNumber : Nat) (segment : Option Nat) : SegmentIndex :=
  { index with entries := Function.update index.entries (index.entry segmentNumber) segment }

/-- The loop of `replaceIndex` over the allocated segments. -/
def copySegments (index current : SegmentIndex) (oldestSegment nextSegment : Nat) : SegmentIndex :=
  (List.range' oldestSegment (nextSegment - oldestSegment)).foldl (fun index n => index.store n (current.segment n))
    index

end SegmentIndex

def kInitialIndexLength : Nat := 4

def kSegmentSize (shift : Nat) : Nat := 2 ^ shift

def segmentNumber (shift position : Nat) : Nat := position >>> shift

def slotNumber (shift position : Nat) : Nat := position &&& (kSegmentSize shift - 1)

/-- What a `BufferImpl` allocates, with `_index`, `_nextSegment` and `_oldestSegment`. -/
structure Memory (α : Type) where
  segments : Heap (Nat → α)
  indexes : Heap SegmentIndex
  index : Option Nat
  nextSegment : Nat
  oldestSegment : Nat

namespace Memory

def empty : Memory α where
  segments := .empty
  indexes := .empty
  index := none
  nextSegment := 0
  oldestSegment := 0

/-- `*writerIndex()` -/
def current (m : Memory α) : Option SegmentIndex := m.index.bind m.indexes.get

/-- The segment that the index at `p` has for a position. -/
def segmentAt (shift : Nat) (m : Memory α) (p position : Nat) : Option Nat :=
  (m.indexes.get p).bind (·.segment (segmentNumber shift position))

def storeEntry (m : Memory α) (segmentNumber : Nat) (segment : Option Nat) : Option (Memory α) :=
  m.index.bind fun p => (m.indexes.modify p (·.store segmentNumber segment)).map fun indexes =>
    { m with indexes := indexes }

/-- `replaceIndex`, with the publish position at which it is called. -/
def replaceIndex (m : Memory α) (length publishCursor : Nat) : Option (Memory α) :=
  let index : SegmentIndex := ⟨length, fun _ => none, m.index, publishCursor⟩
  let install (index : SegmentIndex) : Memory α :=
    { m with indexes := (m.indexes.alloc index).1, index := some (m.indexes.alloc index).2 }
  match m.index with
  | none => some (install index)
  | some p => (m.indexes.get p).map fun current =>
    install (index.copySegments current m.oldestSegment m.nextSegment)

/-- The end of an iteration in `allocateThrough`: a segment of default values. -/
def allocateSegment [Inhabited α] (m : Memory α) : Option (Memory α) :=
  let (segments, segment) := m.segments.alloc fun _ => default
  (storeEntry { m with segments := segments } m.nextSegment (some segment)).map fun m =>
    { m with nextSegment := m.nextSegment + 1 }

/-- `freeSegment` where the entry held `segment`: a null pointer is not freed. -/
def deallocate (m : Memory α) : Option Nat → Option (Memory α)
  | none => some m
  | some segment => (m.segments.free segment).map fun segments => { m with segments := segments }

/-- `freeSegment(*index, _oldestSegment)`, and the increment of the loop around it. -/
def freeSegment (m : Memory α) : Option (Memory α) :=
  m.current.bind fun index => (m.storeEntry m.oldestSegment none).bind fun exchanged =>
    (exchanged.deallocate (index.segment m.oldestSegment)).map fun m =>
      { m with oldestSegment := m.oldestSegment + 1 }

/-- `freeIndex`, with the index that the freed one replaced. -/
def freeIndex (m : Memory α) (p : Nat) : Option (Memory α × Option Nat) :=
  (m.indexes.get p).bind fun index => (m.indexes.free p).map fun indexes =>
    ({ m with indexes := indexes }, index.replaced)

/-- `std::exchange(index->replaced, nullptr)` -/
def takeReplaced (m : Memory α) : Option (Memory α × Option Nat) :=
  m.index.bind fun p => (m.indexes.get p).bind fun index =>
    (m.indexes.modify p fun index => { index with replaced := none }).map fun indexes =>
      ({ m with indexes := indexes }, index.replaced)

/-- A write through the reference that `writableSlot` returns. -/
def writeSlot (shift : Nat) (m : Memory α) (position : Nat) (value : α) : Option (Memory α) :=
  m.index.bind fun p => (m.segmentAt shift p position).bind fun segment =>
    (m.segments.modify segment fun slots => Function.update slots (slotNumber shift position) value).map fun segments =>
      { m with segments := segments }

/-- The oldest segment lies wholly below a position. -/
def SegmentPassed (shift : Nat) (m : Memory α) (position : Nat) : Prop :=
  m.oldestSegment < m.nextSegment ∧ (m.oldestSegment + 1) <<< shift ≤ position

instance (shift : Nat) (m : Memory α) (position : Nat) : Decidable (m.SegmentPassed shift position) :=
  inferInstanceAs (Decidable (_ ∧ _))

/-- A position lies past the one at which the index replaced another, which is still there. -/
def ReplacedPassed (index : SegmentIndex) (position : Nat) : Prop :=
  index.replaced ≠ none ∧ index.replacedAt < position

instance (index : SegmentIndex) (position : Nat) : Decidable (ReplacedPassed index position) :=
  inferInstanceAs (Decidable (_ ∧ _))

/-- The segments that hold positions below `endPosition` are allocated. -/
def AllocatedThrough (shift : Nat) (m : Memory α) (endPosition : Nat) : Prop :=
  endPosition = 0 ∨ segmentNumber shift (endPosition - 1) < m.nextSegment

instance (shift : Nat) (m : Memory α) (endPosition : Nat) : Decidable (m.AllocatedThrough shift endPosition) :=
  inferInstanceAs (Decidable (_ ∨ _))

/-- The index has no free entry. -/
def IndexFull (m : Memory α) (index : SegmentIndex) : Prop := index.length ≤ m.nextSegment - m.oldestSegment

instance (m : Memory α) (index : SegmentIndex) : Decidable (m.IndexFull index) := inferInstanceAs (Decidable (_ ≤ _))

end Memory

/-- `BufferImpl` -/
structure BufferImpl (α ρ : Type) where
  claimStrategy : SingleProducerStrategy.Strategy ρ
  nAttachingReaders : Nat
  memory : Memory α

def BufferImpl.new : BufferImpl α ρ where
  claimStrategy := .init
  nAttachingReaders := 0
  memory := .empty

/-! ### The writer and the readers -/

/-- `Writer`: `nRequestedSamplesToPublish` is none while `publish` has not been called (`kNotPublished`). -/
structure Writer where
  nRequestedSamplesToPublish : Option Nat
  claimOffset : Nat
  claimSize : Nat
  instanceCount : Nat
  deriving DecidableEq, Repr

def Writer.new : Writer where
  nRequestedSamplesToPublish := some 0
  claimOffset := 0
  claimSize := 0
  instanceCount := 0

/-- `WriterSpan::publish` -/
def publish (span : WriterSpan) (w : Writer) (nSlotsToPublish : Nat) : Writer :=
  if span.isRefused then w
  else
    let alreadyRequested := w.nRequestedSamplesToPublish.getD 0
    let unpublished := w.claimSize - alreadyRequested
    { w with nRequestedSamplesToPublish := some (alreadyRequested + min nSlotsToPublish unpublished) }

/-- The request that the release of the last span finds; none where the policy aborts. -/
def requested (span : WriterSpan) (w : Writer) : Option Writer :=
  if w.nRequestedSamplesToPublish.isSome then some w
  else match span.policy with
    | .terminate => none
    | .processAll => some (publish span w w.claimSize)
    | .processNone => some (publish span w 0)

/-- What `~WriterSpan` leaves in the writer once the slots are published. -/
def Writer.published (w : Writer) : Writer :=
  { w with
    nRequestedSamplesToPublish := some 0
    claimOffset := w.claimOffset + w.nRequestedSamplesToPublish.getD 0
    claimSize := 0 }

/-- A span keeps the index it was created with, null where there was none. -/
structure ReaderSpan where
  index : Option Nat
  first : Nat
  size : Nat
  policy : SpanReleasePolicy
  deriving DecidableEq, Repr

/-- How many slots `get(nRequested)` hands out, and what it notes. -/
def get (publishCursor : Nat) (reader : Reader) (nRequested : Option Nat) : Reader × Nat :=
  let nSlots := nRequested.getD (reader.available publishCursor)
  match reader.nSamplesFirstGet with
  | none => ({ reader with nSamplesFirstGet := some nSlots, nSamplesConsumed := 0 }, nSlots)
  | some first => (reader, min nSlots first)

/-- How far the release of the last span takes the reader; none where it aborts. -/
def ReaderSpan.nConsumed (span : ReaderSpan) (publishCursor : Nat) (reader : Reader) : Option Nat :=
  match reader.nRequestedSamplesToConsume with
  | some n => some n
  | none =>
    match span.policy with
    | .terminate => none
    | .processAll =>
      match reader.nSamplesFirstGet with
      | some n => some (if n ≤ reader.available publishCursor then n else 0)
      | none => some 0
    | .processNone => some 0

end GnuRadio.SegmentedBuffer
