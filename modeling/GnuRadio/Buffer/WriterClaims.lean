import GnuRadio.Buffer.SegmentedBuffer
import GnuRadio.Library.SharedClaim

/-! The claims of one `Writer` (CircularBuffer.hpp, SegmentedBuffer.hpp) on any claim strategy, single or multi
    producer: what `tryNext` or `next` answers is part of the call, and what is published is an event. A span is live
    from its construction to its destruction, copies included. -/

namespace GnuRadio.WriterClaims

open CircularBuffer (SpanReleasePolicy WriterSpan)
open SharedClaim (Event)

/-! ### `CircularBuffer::Writer` -/

namespace Circular

open CircularBuffer (Writer)

/-- `tryReserve` and `reserve`, where the claim strategy answers with `sequence`. -/
def reserve (size : Nat) (w : Writer) (nSamples : Nat) (policy : SpanReleasePolicy) (sequence : Option Nat) :
    Writer × WriterSpan × List Event :=
  let count := w.instanceCount + 1
  if 0 < w.instanceCount then ({ w with instanceCount := count }, ⟨true, policy⟩, [])
  else
    let w := { w with nRequestedSamplesToPublish := none, instanceCount := count }
    if nSamples = 0 then (w, ⟨false, policy⟩, [])
    else match sequence with
      | some sequence =>
        let index := calculateIndex size (sequence + size - nSamples)
        ({ w with index := index, offset := sequence - nSamples, internalSpan := ⟨index, nSamples⟩ }, ⟨false, policy⟩,
          [.granted (sequence - nSamples) nSamples])
      | none => (w, ⟨false, policy⟩, [])

/-- The copy constructor of a span. -/
def copy (w : Writer) : Writer := { w with instanceCount := w.instanceCount + 1 }

/-- `WriterSpan::publish` -/
def publish (span : WriterSpan) (w : Writer) (nSamplesToPublish : Nat) : Writer × List Event :=
  (span.publish w nSamplesToPublish, if span.isRefused then [] else [.requested nSamplesToPublish])

/-- The request that `~WriterSpan` makes itself where nobody called `publish`; none where it aborts. -/
def requested (span : WriterSpan) (w : Writer) : Option (Writer × List Event) :=
  if w.nRequestedSamplesToPublish.isSome then some (w, [])
  else match span.policy with
    | .terminate => none
    | .processAll => some (publish span w w.internalSpan.size)
    | .processNone => some (publish span w 0)

/-- `~WriterSpan`: the last span of a claim publishes what was requested. -/
def release (span : WriterSpan) (w : Writer) : Option (Writer × List Event) :=
  let w := { w with instanceCount := w.instanceCount - 1 }
  if span.isRefused then some (w, [])
  else if w.instanceCount = 0 then (requested span w).map fun (w, es) =>
    let n := w.nRequestedSamplesToPublish.getD 0
    ({ w with nRequestedSamplesToPublish := some 0, offset := w.offset + n, internalSpan := ⟨0, 0⟩ },
      es ++ [.released w.offset n])
  else some (w, [])

end Circular

/-! ### `SegmentedBuffer::Writer` -/

namespace Segmented

open SegmentedBuffer (Writer)

/-- `claim`, where the claim strategy answers with `claimEnd`. -/
def claim (w : Writer) (nSlots : Nat) (policy : SpanReleasePolicy) (claimEnd : Option Nat) :
    Writer × WriterSpan × List Event :=
  let count := w.instanceCount + 1
  if 0 < w.instanceCount then ({ w with instanceCount := count }, ⟨true, policy⟩, [])
  else
    let w := { w with nRequestedSamplesToPublish := none, instanceCount := count }
    if nSlots = 0 then (w, ⟨false, policy⟩, [])
    else match claimEnd with
      | some claimEnd =>
        ({ w with claimOffset := claimEnd - nSlots, claimSize := nSlots }, ⟨false, policy⟩,
          [.granted (claimEnd - nSlots) nSlots])
      | none => (w, ⟨false, policy⟩, [])

/-- The copy constructor of a span. -/
def copy (w : Writer) : Writer := { w with instanceCount := w.instanceCount + 1 }

/-- `WriterSpan::publish` -/
def publish (span : WriterSpan) (w : Writer) (nSlotsToPublish : Nat) : Writer × List Event :=
  (SegmentedBuffer.publish span w nSlotsToPublish, if span.isRefused then [] else [.requested nSlotsToPublish])

/-- The request that `~WriterSpan` makes itself where nobody called `publish`; none where it aborts. -/
def requested (span : WriterSpan) (w : Writer) : Option (Writer × List Event) :=
  if w.nRequestedSamplesToPublish.isSome then some (w, [])
  else match span.policy with
    | .terminate => none
    | .processAll => some (publish span w w.claimSize)
    | .processNone => some (publish span w 0)

/-- `~WriterSpan`: the last span of a claim publishes what was requested. -/
def release (span : WriterSpan) (w : Writer) : Option (Writer × List Event) :=
  let w := { w with instanceCount := w.instanceCount - 1 }
  if span.isRefused ∨ w.instanceCount ≠ 0 then some (w, [])
  else (requested span w).map fun (w, es) =>
    (w.published, es ++ [.released w.claimOffset (w.nRequestedSamplesToPublish.getD 0)])

end Segmented

/-! ### Runs -/

/-- The calls of a writer with its spans, and the number of slots it holds claimed. -/
structure Calls (W : Type) where
  new : W
  instanceCount : W → Nat
  claimSize : W → Nat
  reserve : W → Nat → SpanReleasePolicy → Option Nat → W × WriterSpan × List Event
  copy : W → W
  publish : WriterSpan → W → Nat → W × List Event
  release : WriterSpan → W → Option (W × List Event)

def circularBuffer (size : Nat) : Calls CircularBuffer.Writer where
  new := .new
  instanceCount := (·.instanceCount)
  claimSize w := w.internalSpan.size
  reserve := Circular.reserve size
  copy := Circular.copy
  publish := Circular.publish
  release := Circular.release

def segmentedBuffer : Calls SegmentedBuffer.Writer where
  new := .new
  instanceCount := (·.instanceCount)
  claimSize := (·.claimSize)
  reserve := Segmented.claim
  copy := Segmented.copy
  publish := Segmented.publish
  release := Segmented.release

structure State (W : Type) where
  writer : W
  spans : List WriterSpan

/-- A live span is named by its place among those of the writer. -/
inductive Act
  | reserve (nSlots : Nat) (policy : SpanReleasePolicy) (claimEnd : Option Nat)
  | copy (k : Nat)
  | publish (k n : Nat)
  | release (k : Nat)
  deriving DecidableEq, Repr

/-- The state after a call, with what the call does to a claim. -/
def Calls.apply {W : Type} (c : Calls W) (s : State W) : Act → Option (State W × List Event)
  | .reserve n policy claimEnd =>
    let (writer, span, es) := c.reserve s.writer n policy claimEnd
    some (⟨writer, s.spans ++ [span]⟩, es)
  | .copy k => s.spans[k]?.map fun span => (⟨c.copy s.writer, s.spans ++ [span]⟩, [])
  | .publish k n => s.spans[k]?.map fun span =>
    let (writer, es) := c.publish span s.writer n
    (⟨writer, s.spans⟩, es)
  | .release k => s.spans[k]?.bind fun span => (c.release span s.writer).map fun (writer, es) =>
    (⟨writer, s.spans.eraseIdx k⟩, es)

def Calls.events {W : Type} (c : Calls W) (s : State W) (a : Act) : List Event := ((c.apply s a).map Prod.snd).getD []

def Calls.system {W : Type} (c : Calls W) : Transition.System (State W) Act where
  start s := s = ⟨c.new, []⟩
  step s a := (c.apply s a).map Prod.fst

end GnuRadio.WriterClaims
