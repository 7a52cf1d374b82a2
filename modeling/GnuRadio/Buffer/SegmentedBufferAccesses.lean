import GnuRadio.Buffer.SegmentedBuffer

/-! The accesses inside the operations of a `SegmentedBuffer`: the writer, which claims, allocates, frees and publishes,
    next to readers that attach, take spans, consume and detach. A step is one access to what the two share, or one
    allocation or deallocation. -/

namespace GnuRadio.SegmentedBuffer

open SingleProducerStrategy (Strategy)
open CircularBuffer (Reader SpanReleasePolicy WriterSpan)

variable {α ρ : Type}

/-! ### The writer -/

/-- Where `getMinReaderCursor` stands; `found` is what it returns. -/
inductive MinReader (ρ : Type)
  | loadGeneration
  | loadSequences (generation : Nat)
  | readSequence (minimum : Option Nat) (next : ρ) (rest : List ρ)
  | found (minReader : Nat)
  deriving DecidableEq, Repr

/-- It starts on the snapshot. -/
def MinReader.ofSnapshot (s : Strategy ρ) : MinReader ρ :=
  match s.snapshotReadSequences with
  | [] => .found s.reserveCursor
  | r :: rest => .readSequence none r rest

/-- One access of `getMinReaderCursor`. -/
def MinReader.step (s : Strategy ρ) : MinReader ρ → Strategy ρ × MinReader ρ
  | .loadGeneration =>
    if s.snapshotGeneration = some s.readerGeneration then (s, .ofSnapshot s)
    else (s, .loadSequences s.readerGeneration)
  | .loadSequences generation =>
    let s := { s with
      snapshotReadSequences := s.readSequences.list.sequences
      snapshotGeneration := some generation }
    (s, .ofSnapshot s)
  | .readSequence minimum r rest =>
    let m := lower minimum (s.readSequences.value r)
    match rest with
    | [] => (s, .found m)
    | r' :: rest' => (s, .readSequence (some m) r' rest')
  | .found minReader => (s, .found minReader)

/-- What `allocateThrough` is called for: a write of the claim's slot `i`, or the publish on release. -/
inductive Use (α : Type)
  | write (i : Nat) (value : α)
  | publish
  deriving DecidableEq, Repr

/-- What goes on when `releasePassedSegments` returns. -/
inductive After (α : Type)
  | claim (nSlots : Nat) (mayWait : Bool) (policy : SpanReleasePolicy)
  | grow (use : Use α)
  deriving DecidableEq, Repr

/-- Where the writer stands: between two calls, in `claim`, in `allocateThrough` (at the head of the loop, after
    `releasePassedSegments`, before the new segment), or in `releasePassedSegments`. -/
inductive Pc (α ρ : Type)
  | idle
  | claim (nSlots : Nat) (mayWait : Bool) (policy : SpanReleasePolicy) (stage : MinReader ρ)
  | allocate (use : Use α)
  | grow (use : Use α)
  | append (use : Use α)
  | release (after : After α)
  | checkAttaching (after : After α)
  | getRemainingCapacity (after : After α) (stage : MinReader ρ)
  | loadReaders (after : After α)
  | readReaders (after : After α) (slowest : Nat) (rest : List ρ)
  | freeSegments (after : After α) (slowestReader : Nat)
  | freeIndexes (after : After α) (replaced : Option Nat)
  deriving DecidableEq, Repr

/-- A `Writer` with its live spans, and where it stands. -/
structure WriterThread (α ρ : Type) where
  writer : Writer
  spans : List WriterSpan
  pc : Pc α ρ

/-! ### The readers -/

/-- A constructed `Reader` with its live spans; `taking` is a span of `get` that has its size and not yet its index. -/
structure Handle where
  reader : Reader
  spans : List ReaderSpan
  taking : Option (Nat × SpanReleasePolicy)
  deriving DecidableEq, Repr

/-- Where a reader stands: not constructed, in its constructor (past the mark; `addSequences`, the generation, the mark,
    the cached read index), constructed, in its destructor, or gone. -/
inductive ReaderThread (ρ : Type)
  | absent
  | adding (stage : AddSequences ρ)
  | notifyAdded
  | unmark
  | cacheIndex
  | attached (handle : Handle)
  | removing (stage : RemoveSequence ρ)
  | notifyRemoved
  | destroyed
  deriving DecidableEq, Repr

/-- The buffer, while someone holds it: `useCount` counts the readers that do. `fault` records an access to memory that
    is not allocated, or a null pointer's. -/
structure State (α ρ : Type) where
  impl : BufferImpl α ρ
  writer : WriterThread α ρ
  readers : ρ → ReaderThread ρ
  useCount : Nat
  destroyed : Bool
  fault : Bool

namespace State

variable (shift : Nat)

def setPc (s : State α ρ) (pc : Pc α ρ) : State α ρ := { s with writer := { s.writer with pc := pc } }

def setMemory (s : State α ρ) (m : Memory α) : State α ρ := { s with impl := { s.impl with memory := m } }

def setStrategy (s : State α ρ) (strategy : Strategy ρ) : State α ρ :=
  { s with impl := { s.impl with claimStrategy := strategy } }

def publishCursor (s : State α ρ) : Nat := s.impl.claimStrategy.publishCursor

/-- The span that `claim` returns. -/
def pushSpan (s : State α ρ) (span : WriterSpan) : State α ρ :=
  { s with writer := { s.writer with
    writer := { s.writer.writer with instanceCount := s.writer.writer.instanceCount + 1 }
    spans := s.writer.spans ++ [span]
    pc := .idle } }

/-- `releasePassedSegments` returns. -/
def resume (s : State α ρ) : After α → State α ρ
  | .claim n w policy => if n = 0 then s.pushSpan ⟨false, policy⟩ else s.setPc (.claim n w policy .loadGeneration)
  | .grow use => s.setPc (.grow use)

/-- The position up to which `allocateThrough` allocates. -/
def endPosition (s : State α ρ) : Use α → Nat
  | .write i _ => s.writer.writer.claimOffset + i + 1
  | .publish => s.writer.writer.claimOffset + s.writer.writer.nRequestedSamplesToPublish.getD 0

/-- `allocateThrough` returns. -/
def allocated (s : State α ρ) : Use α → Option (State α ρ)
  | .write i value =>
    (s.impl.memory.writeSlot shift (s.writer.writer.claimOffset + i) value).map fun m => (s.setMemory m).setPc .idle
  | .publish =>
    let w := s.writer.writer
    let strategy := s.impl.claimStrategy.publish w.claimOffset (w.nRequestedSamplesToPublish.getD 0)
    some { s.setStrategy strategy with writer := ⟨w.published, s.writer.spans, .idle⟩ }

/-- The next access of the writer; none where it faults. The publish cursor is the writer's own, so it is still what
    `releasePassedSegments` read at its start. -/
def writerStep [Inhabited α] (size : Nat) (s : State α ρ) : Option (State α ρ) :=
  let m := s.impl.memory
  match s.writer.pc with
  | .idle => some s
  | .claim n w policy (.found minReader) =>
    let strategy := s.impl.claimStrategy
    if remainingCapacity size strategy.reserveCursor minReader < n then
      if w then some (s.setPc (.claim n w policy .loadGeneration)) else some (s.pushSpan ⟨false, policy⟩)
    else
      let claimEnd := strategy.reserveCursor + n
      let s := s.setStrategy { strategy with reserveCursor := claimEnd }
      some ({ s with writer := { s.writer with
        writer := { s.writer.writer with claimOffset := claimEnd - n, claimSize := n } } }.pushSpan ⟨false, policy⟩)
  | .claim n w policy stage =>
    let (strategy, stage) := stage.step s.impl.claimStrategy
    some ((s.setStrategy strategy).setPc (.claim n w policy stage))
  | .allocate use =>
    if m.AllocatedThrough shift (s.endPosition use) then s.allocated shift use
    else match m.index with
      | none => (m.replaceIndex kInitialIndexLength s.publishCursor).map fun m => (s.setMemory m).setPc (.append use)
      | some p => (m.indexes.get p).map fun index =>
        s.setPc (if m.IndexFull index then .release (.grow use) else .append use)
  | .grow use => m.current.bind fun index =>
    if m.IndexFull index then
      (m.replaceIndex (2 * index.length) s.publishCursor).map fun m => (s.setMemory m).setPc (.append use)
    else some (s.setPc (.append use))
  | .append use => m.allocateSegment.map fun m => (s.setMemory m).setPc (.allocate use)
  | .release after =>
    match m.index with
    | none => some (s.resume after)
    | some p => (m.indexes.get p).map fun index =>
      if m.SegmentPassed shift s.publishCursor ∨ Memory.ReplacedPassed index s.publishCursor then
        s.setPc (.checkAttaching after)
      else s.resume after
  | .checkAttaching after =>
    some (if s.impl.nAttachingReaders = 0 then s.setPc (.getRemainingCapacity after .loadGeneration) else s.resume after)
  | .getRemainingCapacity after (.found minReader) =>
    let reserveCursor := s.impl.claimStrategy.reserveCursor
    let remaining := remainingCapacity size reserveCursor minReader
    some (s.setPc
      (if 0 < remaining then .freeSegments after (min (reserveCursor - (size - remaining)) s.publishCursor)
        else .loadReaders after))
  | .getRemainingCapacity after stage =>
    let (strategy, stage) := stage.step s.impl.claimStrategy
    some ((s.setStrategy strategy).setPc (.getRemainingCapacity after stage))
  | .loadReaders after =>
    let strategy := s.impl.claimStrategy
    some (s.setPc (.readReaders after strategy.reserveCursor strategy.readSequences.list.sequences))
  | .readReaders after slowest [] => some (s.setPc (.freeSegments after (min slowest s.publishCursor)))
  | .readReaders after slowest (r :: rest) =>
    some (s.setPc (.readReaders after (min slowest (s.impl.claimStrategy.readSequences.value r)) rest))
  | .freeSegments after slowestReader =>
    if m.SegmentPassed shift slowestReader then m.freeSegment.map s.setMemory
    else m.current.bind fun index =>
      if Memory.ReplacedPassed index slowestReader then
        m.takeReplaced.map fun (m, replaced) => (s.setMemory m).setPc (.freeIndexes after replaced)
      else some (s.resume after)
  | .freeIndexes after none => some (s.resume after)
  | .freeIndexes after (some p) =>
    (m.freeIndex p).map fun (m, replaced) => (s.setMemory m).setPc (.freeIndexes after replaced)

/-! ### Steps -/

/-- The loops of `~BufferImpl`. -/
def freeAllSegments : Nat → Memory α → Option (Memory α)
  | 0, m => some m
  | k + 1, m => m.freeSegment.bind (freeAllSegments k)

def freeAllIndexes : Nat → Memory α → Option Nat → Option (Memory α)
  | _, m, none => some m
  | 0, _, some _ => none
  | k + 1, m, some p => (m.freeIndex p).bind fun (m, replaced) => freeAllIndexes k m replaced

/-- `~BufferImpl`: there are no more indexes than were ever allocated. -/
def destroy (m : Memory α) : Option (Memory α) :=
  match m.index with
  | none => some m
  | some p => (freeAllSegments (m.nextSegment - m.oldestSegment) m).bind fun m =>
    freeAllIndexes m.indexes.cells.length m (some p)

/-- A step of which one access may fault. -/
def orFault (s : State α ρ) : Option (State α ρ) → State α ρ
  | some t => t
  | none => { s with fault := true }

variable [DecidableEq ρ]

def setReader (s : State α ρ) (r : ρ) (thread : ReaderThread ρ) : State α ρ :=
  { s with readers := Function.update s.readers r thread }

def setReadSequences (s : State α ρ) (readSequences : ReadSequences ρ) : State α ρ :=
  s.setStrategy { s.impl.claimStrategy with readSequences := readSequences }

/-- One access of the constructor or the destructor of reader `r`. -/
def construct (s : State α ρ) (r : ρ) (spurious : Bool) : Option (State α ρ) :=
  let strategy := s.impl.claimStrategy
  match s.readers r with
  | .absent | .attached _ | .destroyed => none
  | .adding stage =>
    let (readSequences, stage) := stage.step strategy.publishCursor r spurious strategy.readSequences
    some ((s.setReadSequences readSequences).setReader r
      (match stage with
        | some stage => .adding stage
        | none => .notifyAdded))
  | .notifyAdded => some ((s.setStrategy strategy.notifyReaderSetChanged).setReader r .unmark)
  | .unmark =>
    some ({ s with impl := { s.impl with nAttachingReaders := s.impl.nAttachingReaders - 1 } }.setReader r .cacheIndex)
  | .cacheIndex => some (s.setReader r (.attached ⟨.new (strategy.readSequences.value r), [], none⟩))
  | .removing stage =>
    let (readSequences, stage) := stage.step r spurious strategy.readSequences
    some ((s.setReadSequences readSequences).setReader r
      (match stage with
        | some stage => .removing stage
        | none => .notifyRemoved))
  | .notifyRemoved =>
    some ({ s.setStrategy strategy.notifyReaderSetChanged with useCount := s.useCount - 1 }.setReader r .destroyed)

/-- `~ReaderSpan` for the span at place `k`. -/
def releaseReaderSpan (s : State α ρ) (r : ρ) (k : Nat) (h : Handle) (span : ReaderSpan) : Option (State α ρ) :=
  let reader := { h.reader with instanceCount := h.reader.instanceCount - 1 }
  let h : Handle := { h with reader := reader, spans := h.spans.eraseIdx k }
  if reader.instanceCount = 0 then
    (span.nConsumed s.publishCursor reader).map fun n =>
      let sequences := s.impl.claimStrategy.readSequences
      (s.setReadSequences (if n = 0 then sequences else sequences.setValue r (reader.readIndexCached + n))).setReader r
        (.attached { h with reader := reader.performConsume n })
  else some (s.setReader r (.attached h))

end State

/-- The calls of the writer and its next access in them, and the calls and accesses of the readers; `destroy` drops
    the buffer. A live span is named by its place among those of its writer or reader. -/
inductive Act (α ρ : Type)
  | reserve (nSlots : Nat) (mayWait : Bool) (policy : SpanReleasePolicy)
  | copyWriterSpan (k : Nat)
  | write (k i : Nat) (value : α)
  | publish (k nSlotsToPublish : Nat)
  | releaseWriterSpan (k : Nat)
  | writer
  | attach (r : ρ)
  | construct (r : ρ) (spurious : Bool)
  | get (r : ρ) (nRequested : Option Nat) (policy : SpanReleasePolicy)
  | loadIndex (r : ρ)
  | copyReaderSpan (r : ρ) (k : Nat)
  | tryConsume (r : ρ) (nSamples : Nat)
  | releaseReaderSpan (r : ρ) (k : Nat)
  | detach (r : ρ)
  | destroy
  deriving DecidableEq, Repr

namespace State

variable [Inhabited α] [DecidableEq ρ]

/-- A call of the writer, which is between two calls. -/
def writerCall (s : State α ρ) : Act α ρ → Option (State α ρ)
  | .reserve n w policy =>
    let writer := s.writer.writer
    if 0 < writer.instanceCount then some (s.pushSpan ⟨true, policy⟩)
    else some { s with writer := { s.writer with
      writer := { writer with nRequestedSamplesToPublish := none }
      pc := .release (.claim n w policy) } }
  | .copyWriterSpan k => s.writer.spans[k]?.map s.pushSpan
  | .write k i value => s.writer.spans[k]?.bind fun span =>
    if span.isRefused ∨ s.writer.writer.claimSize ≤ i then none else some (s.setPc (.allocate (.write i value)))
  | .publish k n => s.writer.spans[k]?.map fun span =>
    { s with writer := { s.writer with writer := SegmentedBuffer.publish span s.writer.writer n } }
  | .releaseWriterSpan k => s.writer.spans[k]?.bind fun span =>
    let writer := { s.writer.writer with instanceCount := s.writer.writer.instanceCount - 1 }
    let spans := s.writer.spans.eraseIdx k
    if span.isRefused ∨ 0 < writer.instanceCount then some { s with writer := ⟨writer, spans, .idle⟩ }
    else (requested span writer).map fun writer => { s with writer := ⟨writer, spans, .allocate .publish⟩ }
  | _ => none

/-- A call of the constructed reader `r`, or its next access. `get` asks for what is available at most; the destructor
    runs without live spans. -/
def readerCall (s : State α ρ) (r : ρ) (h : Handle) : Act α ρ → Option (State α ρ)
  | .get _ nRequested policy =>
    if h.taking = none ∧ nRequested.getD 0 ≤ h.reader.available s.publishCursor then
      let (reader, nSlots) := SegmentedBuffer.get s.publishCursor h.reader nRequested
      some (s.setReader r (.attached { h with reader := reader, taking := some (nSlots, policy) }))
    else none
  | .loadIndex _ => h.taking.map fun (nSlots, policy) =>
    s.setReader r (.attached
      { reader := { h.reader with instanceCount := h.reader.instanceCount + 1 }
        spans := h.spans ++ [⟨s.impl.memory.index, h.reader.readIndexCached, nSlots, policy⟩]
        taking := none })
  | .copyReaderSpan _ k => if h.taking = none then h.spans[k]?.map fun span =>
      s.setReader r (.attached { h with
        reader := { h.reader with instanceCount := h.reader.instanceCount + 1 }
        spans := h.spans ++ [span] })
    else none
  | .tryConsume _ n =>
    if h.taking = none ∧ h.spans ≠ [] then
      some (s.setReader r (.attached { h with reader := (h.reader.tryConsume n).1 }))
    else none
  | .releaseReaderSpan _ k => if h.taking = none then h.spans[k]?.bind (s.releaseReaderSpan r k h) else none
  | .detach _ => if h.taking = none ∧ h.spans = [] then some (s.setReader r (.removing .load)) else none
  | _ => none

end State

variable [Inhabited α] [DecidableEq ρ]

/-- A step. Nobody uses a buffer that has been destroyed, and a fault ends the run. -/
def step (size shift : Nat) (s : State α ρ) (a : Act α ρ) : Option (State α ρ) :=
  if s.fault ∨ s.destroyed then none
  else match a with
    | .reserve .. | .copyWriterSpan _ | .write .. | .publish .. | .releaseWriterSpan _ =>
      match s.writer.pc with
      | .idle => s.writerCall a
      | _ => none
    | .writer =>
      match s.writer.pc with
      | .idle => none
      | _ => some (s.orFault (s.writerStep shift size))
    | .attach r =>
      match s.readers r with
      | .absent => some ({ s with
          impl := { s.impl with nAttachingReaders := s.impl.nAttachingReaders + 1 }
          useCount := s.useCount + 1 }.setReader r (.adding .load))
      | _ => none
    | .construct r spurious => s.construct r spurious
    | .get r .. | .loadIndex r | .copyReaderSpan r _ | .tryConsume r _ | .releaseReaderSpan r _ | .detach r =>
      match s.readers r with
      | .attached h => s.readerCall r h a
      | _ => none
    | .destroy =>
      match s.writer.pc with
      | .idle =>
        if s.useCount = 0 ∧ s.writer.spans = [] then
          some (s.orFault ((State.destroy s.impl.memory).map fun m => { s.setMemory m with destroyed := true }))
        else none
      | _ => none

/-- A buffer as it is constructed, with a writer. -/
def initial : State α ρ where
  impl := .new
  writer := ⟨.new, [], .idle⟩
  readers _ := .absent
  useCount := 0
  destroyed := false
  fault := false

def system (size shift : Nat) : Transition.System (State α ρ) (Act α ρ) where
  start s := s = initial
  step := step size shift

end GnuRadio.SegmentedBuffer
