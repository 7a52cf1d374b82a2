import GnuRadio.Buffer.SegmentedBuffer

/-! The tags of an output port (Port.hpp): its `OutputSpan`s, which reserve every free slot of the tag ring, and
    `publishTag()` and `publishEoSTag()` of the port itself. Readers attach to the stream ring and to the tag ring
    together. -/

namespace GnuRadio.OutputPort

open CircularBuffer (WriterSpan)
open SegmentedBuffer (Writer)

def kMaxTagBufferSize : Nat := 65536

def kTagRingReserve : Nat := 1

def tagRingSize (streamBufferSize : Nat) : Nat := min streamBufferSize kMaxTagBufferSize + kTagRingReserve

/-- `OutputSpan`, the fields about tags. -/
structure OutputSpan where
  tags : WriterSpan
  tagsPublished : Nat
  tagsDropped : Nat
  isConnected : Bool
  deriving DecidableEq, Repr

/-- `size` is the size of the tag ring, with its cursors and the positions of its readers. `spans` are those alive, in
    the order in which they were reserved. -/
structure Port where
  size : Nat
  publishCursor : Nat
  reserveCursor : Nat
  readers : List Nat
  tagWriter : Writer
  streamInstanceCount : Nat
  spans : List OutputSpan
  nTagsDropped : Nat
  nEoSTagsLost : Nat
  deriving DecidableEq, Repr

namespace OutputSpan

/-- `OutputSpan::publishTag`, where the reservation has `size` slots. -/
def publishTag (size : Nat) (span : OutputSpan) : OutputSpan :=
  if !span.isConnected then span
  else if size ≤ span.tagsPublished + 1 then { span with tagsDropped := span.tagsDropped + 1 }
  else { span with tagsPublished := span.tagsPublished + 1 }

/-- `OutputSpan::publishEoSTag` -/
def publishEoSTag (size : Nat) (span : OutputSpan) : OutputSpan :=
  if !span.isConnected then span
  else if size ≤ span.tagsPublished then { span with tagsDropped := span.tagsDropped + 1 }
  else { span with tagsPublished := span.tagsPublished + 1 }

end OutputSpan

namespace Port

/-- An output port whose rings were built for `streamBufferSize` samples. -/
def new (streamBufferSize : Nat) : Port where
  size := tagRingSize streamBufferSize
  publishCursor := 0
  reserveCursor := 0
  readers := []
  tagWriter := .new
  streamInstanceCount := 0
  spans := []
  nTagsDropped := 0
  nEoSTagsLost := 0

def isConnected (p : Port) : Bool := !p.readers.isEmpty

/-! ### The tag ring -/

/-- `getMinReaderCursor` -/
def minReaderCursor (p : Port) : Nat := p.readers.min?.getD p.reserveCursor

/-- `tagWriter().available()` -/
def available (p : Port) : Nat := remainingCapacity p.size p.reserveCursor p.minReaderCursor

def tryNext (p : Port) (nSlots : Nat) : Port × Option Nat :=
  if p.available < nSlots then (p, none)
  else ({ p with reserveCursor := p.reserveCursor + nSlots }, some (p.reserveCursor + nSlots))

/-- `Writer::claim` -/
def claim (p : Port) (nSlots : Nat) : Port × WriterSpan :=
  let count := p.tagWriter.instanceCount + 1
  if 0 < p.tagWriter.instanceCount then
    ({ p with tagWriter := { p.tagWriter with instanceCount := count } }, ⟨true, .processNone⟩)
  else
    let w := { p.tagWriter with nRequestedSamplesToPublish := none, instanceCount := count }
    if nSlots = 0 then ({ p with tagWriter := w }, ⟨false, .processNone⟩)
    else match p.tryNext nSlots with
      | (p, some claimEnd) =>
        ({ p with tagWriter := { w with claimOffset := claimEnd - nSlots, claimSize := nSlots } }, ⟨false, .processNone⟩)
      | (p, none) => ({ p with tagWriter := w }, ⟨false, .processNone⟩)

/-- `WriterSpan::size` -/
def spanSize (p : Port) (span : WriterSpan) : Nat := if span.isRefused then 0 else p.tagWriter.claimSize

/-- `WriterSpan::publish` -/
def publish (p : Port) (span : WriterSpan) (nSlots : Nat) : Port :=
  { p with tagWriter := SegmentedBuffer.publish span p.tagWriter nSlots }

/-- `~WriterSpan` under `SpanReleasePolicy::ProcessNone`. -/
def releaseTags (p : Port) (span : WriterSpan) : Port :=
  let w := { p.tagWriter with instanceCount := p.tagWriter.instanceCount - 1 }
  if span.isRefused ∨ w.instanceCount ≠ 0 then { p with tagWriter := w }
  else
    let w := if w.nRequestedSamplesToPublish.isSome then w else SegmentedBuffer.publish span w 0
    let sequence := w.claimOffset + w.nRequestedSamplesToPublish.getD 0
    { p with tagWriter := w.published, publishCursor := sequence, reserveCursor := sequence }

/-! ### The calls of a port -/

/-- `Port::reserve` and `Port::tryReserve` -/
def reserve (p : Port) : Port :=
  let (q, tags) := p.claim p.available
  { q with streamInstanceCount := q.streamInstanceCount + 1, spans := q.spans ++ [⟨tags, 0, 0, p.isConnected⟩] }

/-- A call of `publishTag` or `publishEoSTag` of a span. -/
def onSpan (p : Port) (k : Nat) (publish : Nat → OutputSpan → OutputSpan) : Option Port :=
  p.spans[k]?.map fun span => { p with spans := p.spans.set k (publish (p.spanSize span.tags) span) }

/-- The body of `~OutputSpan`: the last span of the stream publishes its tags. -/
def publishSpan (p : Port) (span : OutputSpan) : Port :=
  if p.streamInstanceCount = 1 then
    { p.publish span.tags span.tagsPublished with nTagsDropped := p.nTagsDropped + span.tagsDropped }
  else p

/-- `~OutputSpan`: its body, then its tags, then its base. -/
def release (p : Port) (k : Nat) : Option Port :=
  p.spans[k]?.map fun span =>
    let q := (p.publishSpan span).releaseTags span.tags
    { q with streamInstanceCount := q.streamInstanceCount - 1, spans := q.spans.eraseIdx k }

/-- One tag published of `nSlots` reserved ones, and what is counted where they are refused. -/
def publishReserved (p : Port) (nSlots : Nat) (refuse : Port → Port) : Port :=
  if p.isConnected then
    let (q, outTags) := p.claim nSlots
    let q := if q.spanSize outTags ≠ 0 then q.publish outTags 1 else refuse q
    q.releaseTags outTags
  else p

def countDropped (p : Port) : Port := { p with nTagsDropped := p.nTagsDropped + 1 }

def countLost (p : Port) : Port := { p with nEoSTagsLost := p.nEoSTagsLost + 1 }

/-- `Port::publishTag` -/
def publishTag (p : Port) : Port := p.publishReserved 2 countDropped

/-- `Port::publishEoSTag` -/
def publishEoSTag (p : Port) : Port := p.publishReserved 1 countLost

/-- A reader starts at the publish cursor. -/
def attach (p : Port) : Port := { p with readers := p.readers ++ [p.publishCursor] }

def consume (p : Port) (r n : Nat) : Option Port :=
  p.readers[r]?.bind fun position =>
    if position + n ≤ p.publishCursor then some { p with readers := p.readers.set r (position + n) } else none

end Port

/-- A span is named by its place among those alive, a reader by the order of attachment. -/
inductive Act
  | reserve
  | publishTag (k : Nat)
  | publishEoSTag (k : Nat)
  | release (k : Nat)
  | portPublishTag
  | portPublishEoSTag
  | attach
  | consume (r n : Nat)
  deriving DecidableEq, Repr

def Port.step (p : Port) : Act → Option Port
  | .reserve => some p.reserve
  | .publishTag k => p.onSpan k .publishTag
  | .publishEoSTag k => p.onSpan k .publishEoSTag
  | .release k => p.release k
  | .portPublishTag => some p.publishTag
  | .portPublishEoSTag => some p.publishEoSTag
  | .attach => some p.attach
  | .consume r n => p.consume r n

/-! ### What a run is watched for -/

/-- Beside the port: whether an end-of-stream marker has been published since the slowest reader last advanced, whether
    the span that holds the reservation got it when none had and holds none itself, and how many ordinary tags and
    markers were refused by the port and by the span that holds the reservation. -/
structure Watch where
  port : Port
  marked : Bool
  fresh : Bool
  nRefused : Nat
  nRefusedMarkers : Nat
  deriving DecidableEq, Repr

/-- The live span holds the reservation. -/
def Port.granted (p : Port) (k : Nat) : Bool := p.spans[k]?.any fun span => !span.tags.isRefused

/-- The connected span placed no tag in the step. -/
def refusedBy (p q : Port) (k : Nat) : Bool :=
  p.granted k && p.spans[k]?.any (·.isConnected) && p.spans[k]?.map (·.tagsPublished) == q.spans[k]?.map (·.tagsPublished)

/-- The span placed a tag in the step. -/
def placedBy (p q : Port) (k : Nat) : Bool := p.spans[k]?.map (·.tagsPublished) != q.spans[k]?.map (·.tagsPublished)

/-- A step with what it shows. -/
def Watch.see (w : Watch) (q : Port) : Act → Watch
  | .reserve => { w with port := q, fresh := if w.port.spans.isEmpty then !w.marked else w.fresh }
  | .publishTag k => { w with port := q, nRefused := w.nRefused + (refusedBy w.port q k).toNat }
  | .publishEoSTag k => { w with
      port := q
      marked := w.marked || placedBy w.port q k
      fresh := w.fresh && !placedBy w.port q k
      nRefusedMarkers := w.nRefusedMarkers + (refusedBy w.port q k).toNat }
  | .portPublishTag => { w with
      port := q
      nRefused := w.nRefused + (w.port.isConnected && w.port.publishCursor == q.publishCursor).toNat }
  | .portPublishEoSTag => { w with port := q, marked := w.marked || w.port.publishCursor != q.publishCursor }
  | .consume .. => { w with port := q, marked := w.marked && w.port.readers.min? == q.readers.min? }
  | .release _ | .attach => { w with port := q }

def Watch.new (streamBufferSize : Nat) : Watch := ⟨.new streamBufferSize, false, false, 0, 0⟩

/-- The runs of a port, watched. -/
def watched (streamBufferSize : Nat) : Transition.System Watch Act where
  start w := w = .new streamBufferSize
  step w a := (w.port.step a).map fun q => w.see q a

/-- The span that holds the reservation is released when no other is alive. -/
def ReleasedLast (w : Watch) : Act → Prop
  | .release k => w.port.granted k = true → w.port.spans.length = 1
  | _ => True

instance (w : Watch) : (a : Act) → Decidable (ReleasedLast w a)
  | .release k => inferInstanceAs (Decidable (w.port.granted k = true → w.port.spans.length = 1))
  | .reserve | .publishTag _ | .publishEoSTag _ | .portPublishTag | .portPublishEoSTag | .attach | .consume .. =>
    .isTrue trivial

/-- What the spans that hold the reservation have dropped and not yet added to the port's counter. -/
def Port.pendingDrops (p : Port) : Nat :=
  ((p.spans.filter fun span => !span.tags.isRefused).map (·.tagsDropped)).sum

end GnuRadio.OutputPort
