import GnuRadio.Buffer.SingleProducerStrategy
import GnuRadio.Library.Fifo

/-! `CircularBuffer` with a single producer (CircularBuffer.hpp): the storage, the writer with its spans and the
    readers with theirs. Each operation is one step here; SingleProducerStrategy.lean has the accesses inside them. -/

namespace GnuRadio.CircularBuffer

open SingleProducerStrategy (Strategy)

variable {α ρ : Type}

/-! ### The storage -/

/-- `_size` and `_isMmapAllocated`: with the double mapping the second half of the addresses shows the same cells as
    the first, without it `_data` has twice the cells and the writer copies. -/
structure Layout where
  size : Nat
  isMmapAllocated : Bool
  pos : 0 < size

def Layout.cell (l : Layout) (address : Nat) : Nat := if l.isMmapAllocated then address % l.size else address

/-- `BufferImpl`, with `_data` as a function of the cell. -/
structure BufferImpl (α ρ : Type) where
  data : Nat → α
  claimStrategy : Strategy ρ

namespace BufferImpl

def load (l : Layout) (b : BufferImpl α ρ) (address : Nat) : α := b.data (l.cell address)

def store (l : Layout) (b : BufferImpl α ρ) (address : Nat) (value : α) : BufferImpl α ρ :=
  { b with data := Function.update b.data (l.cell address) value }

/-- `std::copy_n`, and `std::memcpy` of ranges that do not overlap. -/
def copyN (l : Layout) (b : BufferImpl α ρ) (source : Nat) : Nat → Nat → BufferImpl α ρ
  | 0, _ => b
  | n + 1, target => copyN l (b.store l target (b.load l source)) (source + 1) n (target + 1)

/-- The part of `~WriterSpan` for a buffer without the double mapping: the published slots go to the other half, first
    those below the wrap point, then those above it. -/
def mirror (l : Layout) (b : BufferImpl α ρ) (index nRequested : Nat) : BufferImpl α ρ :=
  let nFirstHalf := min (l.size - index) nRequested
  let nSecondHalf := nRequested - nFirstHalf
  (b.copyN l index nFirstHalf (index + l.size)).copyN l l.size nSecondHalf 0

end BufferImpl

/-- What a span does on release with a claim or an acquisition that nobody has decided on. -/
inductive SpanReleasePolicy
  | terminate
  | processAll
  | processNone
  deriving DecidableEq, Repr

/-! ### The writer -/

/-- A `std::span` into `_data`, by its first address. -/
structure Span where
  first : Nat
  size : Nat
  deriving DecidableEq, Repr

/-- `Writer`: `nRequestedSamplesToPublish` is none while `publish` has not been called (`kNotPublished`). -/
structure Writer where
  nRequestedSamplesToPublish : Option Nat
  index : Nat
  offset : Nat
  internalSpan : Span
  instanceCount : Nat
  deriving DecidableEq, Repr

structure WriterSpan where
  isRefused : Bool
  policy : SpanReleasePolicy
  deriving DecidableEq, Repr

/-- `new_writer()` -/
def Writer.new : Writer where
  nRequestedSamplesToPublish := some 0
  index := 0
  offset := 0
  internalSpan := ⟨0, 0⟩
  instanceCount := 0

/-- `tryReserve`: inside a live reservation it is refused and leaves the writer's claim alone. -/
def Writer.tryReserve (l : Layout) (b : BufferImpl α ρ) (w : Writer) (nSamples : Nat) (policy : SpanReleasePolicy) :
    BufferImpl α ρ × Writer × WriterSpan :=
  let count := w.instanceCount + 1
  if 0 < w.instanceCount then (b, { w with instanceCount := count }, ⟨true, policy⟩)
  else
    let w := { w with nRequestedSamplesToPublish := none, instanceCount := count }
    if nSamples = 0 then (b, w, ⟨false, policy⟩)
    else match b.claimStrategy.tryNext l.size nSamples with
      | (strategy, some sequence) =>
        let index := calculateIndex l.size (sequence + l.size - nSamples)
        ({ b with claimStrategy := strategy },
          { w with index := index, offset := sequence - nSamples, internalSpan := ⟨index, nSamples⟩ }, ⟨false, policy⟩)
      | (strategy, none) => ({ b with claimStrategy := strategy }, w, ⟨false, policy⟩)

/-- `WriterSpan::publish`: more than the claim is clamped, a refused span does nothing. -/
def WriterSpan.publish (span : WriterSpan) (w : Writer) (nSamplesToPublish : Nat) : Writer :=
  if span.isRefused then w
  else
    let alreadyRequested := w.nRequestedSamplesToPublish.getD 0
    let unpublished := w.internalSpan.size - alreadyRequested
    { w with nRequestedSamplesToPublish := some (alreadyRequested + min nSamplesToPublish unpublished) }

/-- The request that the release of the last span finds: the policy decides where `publish` was not called; none
    where it aborts. -/
def WriterSpan.requested (span : WriterSpan) (w : Writer) : Option Writer :=
  if w.nRequestedSamplesToPublish.isSome then some w
  else match span.policy with
    | .terminate => none
    | .processAll => some (span.publish w w.internalSpan.size)
    | .processNone => some (span.publish w 0)

/-- The end of `~WriterSpan`: the published slots are mirrored and the cursors set. -/
def Writer.commit (l : Layout) (b : BufferImpl α ρ) (w : Writer) : BufferImpl α ρ × Writer :=
  let n := w.nRequestedSamplesToPublish.getD 0
  let b := if l.isMmapAllocated then b else b.mirror l w.index n
  ({ b with claimStrategy := b.claimStrategy.publish w.offset n },
    { w with nRequestedSamplesToPublish := some 0, offset := w.offset + n, internalSpan := ⟨0, 0⟩ })

/-- `~WriterSpan` -/
def WriterSpan.release (l : Layout) (b : BufferImpl α ρ) (span : WriterSpan) (w : Writer) :
    Option (BufferImpl α ρ × Writer) :=
  let w := { w with instanceCount := w.instanceCount - 1 }
  if span.isRefused then some (b, w)
  else if w.instanceCount = 0 then (span.requested w).map (Writer.commit l b)
  else some (b, w)

/-! ### The readers -/

/-- `Reader`: none stands for the largest `size_t`, "not set". -/
structure Reader where
  readIndexCached : Nat
  nSamplesFirstGet : Option Nat
  nRequestedSamplesToConsume : Option Nat
  nSamplesConsumed : Nat
  instanceCount : Nat
  deriving DecidableEq, Repr

structure ReaderSpan where
  index : Nat
  size : Nat
  policy : SpanReleasePolicy
  deriving DecidableEq, Repr

section

variable [DecidableEq ρ]

/-- The constructor of `Reader`, as a whole. -/
def addReader (s : Strategy ρ) (r : ρ) : Strategy ρ :=
  { s with readSequences :=
    { list := ⟨s.readSequences.list.version + 1, s.readSequences.list.sequences ++ [r]⟩
      value := Function.update s.readSequences.value r s.publishCursor } }.notifyReaderSetChanged

/-- The destructor of `Reader`, as a whole. -/
def removeReader (s : Strategy ρ) (r : ρ) : Strategy ρ :=
  { s with readSequences :=
    { s.readSequences with
      list := ⟨s.readSequences.list.version + 1, s.readSequences.list.sequences.filter (· ≠ r)⟩ }
  }.notifyReaderSetChanged

end

def Reader.new (publishCursor : Nat) : Reader where
  readIndexCached := publishCursor
  nSamplesFirstGet := none
  nRequestedSamplesToConsume := none
  nSamplesConsumed := 0
  instanceCount := 0

def Reader.available (publishCursor : Nat) (reader : Reader) : Nat := publishCursor - reader.readIndexCached

/-- `get(nRequested)`, all that is available where nothing is requested. The first span of an acquisition limits the
    later ones. -/
def Reader.get (l : Layout) (publishCursor : Nat) (reader : Reader) (nRequested : Option Nat)
    (policy : SpanReleasePolicy) : Reader × ReaderSpan :=
  let nSamples := nRequested.getD (reader.available publishCursor)
  let index := calculateIndex l.size reader.readIndexCached
  let reader := { reader with instanceCount := reader.instanceCount + 1 }
  match reader.nSamplesFirstGet with
  | none => ({ reader with nSamplesFirstGet := some nSamples, nSamplesConsumed := 0 }, ⟨index, nSamples, policy⟩)
  | some first => (reader, ⟨index, min nSamples first, policy⟩)

/-- `tryConsume`, and `consume` where nothing was requested before. -/
def Reader.tryConsume (reader : Reader) (nSamples : Nat) : Reader × Bool :=
  if reader.nRequestedSamplesToConsume.isSome then (reader, false)
  else if reader.nSamplesFirstGet.getD 0 < nSamples then (reader, false)
  else ({ reader with nRequestedSamplesToConsume := some nSamples }, true)

/-- How far the release of the last span takes the reader: what was requested, or what the policy says (`strict_check`
    refuses more than is available); none where it aborts. -/
def ReaderSpan.nConsumed (span : ReaderSpan) (publishCursor : Nat) (reader : Reader) : Option Nat :=
  match reader.nRequestedSamplesToConsume with
  | some n => some n
  | none =>
    match span.policy with
    | .terminate => none
    | .processAll =>
      match reader.nSamplesFirstGet with
      | some n => some (if n ≤ reader.available publishCursor then n else 0)
      | none => some 0
    | .processNone => some 0

/-- `performConsume` -/
def Reader.performConsume (reader : Reader) (n : Nat) : Reader :=
  { reader with
    readIndexCached := reader.readIndexCached + n
    nSamplesFirstGet := none
    nRequestedSamplesToConsume := none
    nSamplesConsumed := if n = 0 then reader.nSamplesConsumed else n }

/-! ### One writer and its readers -/

/-- A reader with its live spans. -/
structure Acquisition where
  reader : Reader
  spans : List ReaderSpan
  deriving DecidableEq, Repr

structure State (α ρ : Type) where
  buffer : BufferImpl α ρ
  writer : Writer
  writerSpans : List WriterSpan
  readers : ρ → Option Acquisition

/-- The calls. A live span is named by its place among those of its writer or reader. -/
inductive Act (α ρ : Type)
  | tryReserve (nSamples : Nat) (policy : SpanReleasePolicy)
  | reserve (nSamples : Nat) (policy : SpanReleasePolicy)
  | copyWriterSpan (k : Nat)
  | write (k i : Nat) (value : α)
  | publish (k nSamplesToPublish : Nat)
  | releaseWriterSpan (k : Nat)
  | attach (r : ρ)
  | detach (r : ρ)
  | available (r : ρ)
  | get (r : ρ) (nRequested : Option Nat) (policy : SpanReleasePolicy)
  | copyReaderSpan (r : ρ) (k : Nat)
  | read (r : ρ) (k i : Nat)
  | tryConsume (r : ρ) (nSamples : Nat)
  | releaseReaderSpan (r : ρ) (k : Nat)

namespace State

def publishCursor (s : State α ρ) : Nat := s.buffer.claimStrategy.publishCursor

variable [DecidableEq ρ]

def setReader (s : State α ρ) (r : ρ) (a : Option Acquisition) : State α ρ :=
  { s with readers := Function.update s.readers r a }

def tryReserve (l : Layout) (s : State α ρ) (nSamples : Nat) (policy : SpanReleasePolicy) : State α ρ :=
  let (buffer, writer, span) := s.writer.tryReserve l s.buffer nSamples policy
  { s with buffer := buffer, writer := writer, writerSpans := s.writerSpans ++ [span] }

/-- `~ReaderSpan` for the span at place `k`. -/
def releaseReaderSpan (s : State α ρ) (r : ρ) (k : Nat) (a : Acquisition) (span : ReaderSpan) : Option (State α ρ) :=
  let a : Acquisition :=
    ⟨{ a.reader with instanceCount := a.reader.instanceCount - 1 }, a.spans.eraseIdx k⟩
  if a.reader.instanceCount = 0 then
    (span.nConsumed s.publishCursor a.reader).map fun n =>
      let strategy := s.buffer.claimStrategy
      let sequences := strategy.readSequences
      { s with buffer := { s.buffer with claimStrategy := { strategy with
        readSequences := if n = 0 then sequences else sequences.setValue r (a.reader.readIndexCached + n) } }
      }.setReader r (some { a with reader := a.reader.performConsume n })
  else some (s.setReader r (some a))

end State

variable [DecidableEq ρ]

/-- A whole operation. `reserve` waits until there is room, so it has no next state where there is none; `get` asks for
    what is available at most; a reader is destroyed without live spans. -/
def step (l : Layout) (s : State α ρ) : Act α ρ → Option (State α ρ)
  | .tryReserve n policy => some (s.tryReserve l n policy)
  | .reserve n policy =>
    if s.writer.instanceCount = 0 ∧ 0 < n ∧ (s.buffer.claimStrategy.tryNext l.size n).2 = none then none
    else some (s.tryReserve l n policy)
  | .copyWriterSpan k => s.writerSpans[k]?.map fun span =>
    { s with
      writer := { s.writer with instanceCount := s.writer.instanceCount + 1 }
      writerSpans := s.writerSpans ++ [span] }
  | .write k i value => s.writerSpans[k]?.bind fun span =>
    if span.isRefused ∨ s.writer.internalSpan.size ≤ i then none
    else some { s with buffer := s.buffer.store l (s.writer.internalSpan.first + i) value }
  | .publish k n => s.writerSpans[k]?.map fun span => { s with writer := span.publish s.writer n }
  | .releaseWriterSpan k => s.writerSpans[k]?.bind fun span =>
    (span.release l s.buffer s.writer).map fun (buffer, writer) =>
      { s with buffer := buffer, writer := writer, writerSpans := s.writerSpans.eraseIdx k }
  | .attach r =>
    match s.readers r with
    | some _ => none
    | none =>
      some ({ s with buffer := { s.buffer with claimStrategy := addReader s.buffer.claimStrategy r } }.setReader r
        (some ⟨.new s.publishCursor, []⟩))
  | .detach r => (s.readers r).bind fun a =>
    if a.spans = [] then
      some ({ s with buffer := { s.buffer with claimStrategy := removeReader s.buffer.claimStrategy r } }.setReader r none)
    else none
  | .available r => (s.readers r).map fun _ => s
  | .get r nRequested policy => (s.readers r).bind fun a =>
    if nRequested.getD 0 ≤ a.reader.available s.publishCursor then
      let (reader, span) := a.reader.get l s.publishCursor nRequested policy
      some (s.setReader r (some ⟨reader, a.spans ++ [span]⟩))
    else none
  | .copyReaderSpan r k => (s.readers r).bind fun a => a.spans[k]?.map fun span =>
    s.setReader r (some ⟨{ a.reader with instanceCount := a.reader.instanceCount + 1 }, a.spans ++ [span]⟩)
  | .read r k i => (s.readers r).bind fun a => a.spans[k]?.bind fun span => if i < span.size then some s else none
  | .tryConsume r n => (s.readers r).bind fun a =>
    if a.spans = [] then none else some (s.setReader r (some { a with reader := (a.reader.tryConsume n).1 }))
  | .releaseReaderSpan r k => (s.readers r).bind fun a => a.spans[k]?.bind fun span => s.releaseReaderSpan r k a span

/-- A buffer as it is constructed, with a writer: `_data` holds default values. -/
def initial [Inhabited α] : State α ρ where
  buffer := { data := fun _ => default, claimStrategy := .init }
  writer := .new
  writerSpans := []
  readers _ := none

def system [Inhabited α] (l : Layout) : Transition.System (State α ρ) (Act α ρ) where
  start s := s = initial
  step := step l

end GnuRadio.CircularBuffer
