import GnuRadio.Buffer.CircularBuffer
import GnuRadio.LifeCycle

/-! Several `Writer` objects on one buffer with a single producer, each with its own spans, and `PortCache::primePort`
    on an input (Block.hpp), which makes one more for the length of a call. A call on a writer or a reader is the one of
    CircularBuffer.lean. -/

namespace GnuRadio.Writers

open CircularBuffer

variable {α ω ρ : Type}

/-- A `Writer` with its live spans; one that was moved from has no buffer. -/
structure Handle where
  writer : Writer
  hasBuffer : Bool
  spans : List WriterSpan
  deriving DecidableEq, Repr

namespace Handle

/-- `new_writer()` -/
def new : Handle := ⟨.new, true, []⟩

/-- `Writer(Writer&&)`: the new writer, which counts its own spans, and what is left of the other one. -/
def moveConstruct (other : Handle) : Handle × Handle :=
  (⟨{ other.writer with instanceCount := 0 }, other.hasBuffer, []⟩,
    ⟨{ Writer.new with instanceCount := other.writer.instanceCount }, false, other.spans⟩)

/-- `operator=(Writer&&)` swaps everything but the count of spans. -/
def moveAssign (self tmp : Handle) : Handle × Handle :=
  (⟨{ tmp.writer with instanceCount := self.writer.instanceCount }, tmp.hasBuffer, self.spans⟩,
    ⟨{ self.writer with instanceCount := tmp.writer.instanceCount }, self.hasBuffer, tmp.spans⟩)

end Handle

/-- `writerCount` is `_writer_count`. -/
structure State (α ω ρ : Type) where
  buffer : BufferImpl α ρ
  writers : ω → Option Handle
  readers : ρ → Option Acquisition
  writerCount : Nat

namespace State

def publishCursor (s : State α ω ρ) : Nat := s.buffer.claimStrategy.publishCursor

def reserveCursor (s : State α ω ρ) : Nat := s.buffer.claimStrategy.reserveCursor

/-- The buffer as one writer sees it. -/
def view (s : State α ω ρ) (writer : Writer) (spans : List WriterSpan) : CircularBuffer.State α ρ :=
  ⟨s.buffer, writer, spans, s.readers⟩

def setWriter [DecidableEq ω] (s : State α ω ρ) (w : ω) (h : Option Handle) : State α ω ρ :=
  { s with writers := Function.update s.writers w h }

end State

/-! ### Priming an input -/

/-- An input port on this buffer. -/
structure InputPort (ρ : Type) where
  name : String
  reader : ρ

/-- What `primePort` reads of the block: its state, where it has one, and its ports of the cache's kind. -/
structure PortCache (ρ : Type) where
  state : Option LifeCycle.State
  ports : List (InputPort ρ)

/-- `nPublished` is a difference of counts and may be negative. -/
inductive PrimePortError
  | notIdle
  | index (nPorts : Nat)
  | unexpected
  | unconnected (portName : String)
  | sampleCount (nPublished : Int)
  deriving DecidableEq, Repr

/-- The text of an error; a negative difference of unsigned counts shows what it wraps around to. -/
def PrimePortError.message (portIdx nSamples : Nat) : PrimePortError → String
  | .notIdle => s!"primePort({portIdx}, {nSamples}) - block must not be in RUNNING state"
  | .index nPorts => s!"primePort({portIdx}, {nSamples}) failed: portIdx out of range [0, {nPorts}]"
  | .unexpected => s!"primePort({portIdx}, {nSamples}) - unexpected failure"
  | .unconnected portName => s!"primePort({portIdx}, {nSamples}) - port {portIdx} ({portName}) is not connected"
  | .sampleCount nPublished =>
    s!"primePort({portIdx}, {nSamples}) - failed requested {nSamples} and got {nPublished % 18446744073709551616} samples"

/-- What `primePort` checks before it touches the port: none where there is nothing to do. An input is connected while
    its buffer has a writer. -/
def PortCache.check (c : PortCache ρ) (nWriters portIdx nSamples : Nat) :
    Except PrimePortError (Option (InputPort ρ)) :=
  if c.state = some .running then .error .notIdle
  else if nSamples = 0 then .ok none
  else if c.ports.length ≤ portIdx then .error (.index c.ports.length)
  else match c.ports[portIdx]? with
    | none => .error .unexpected
    | some port => if nWriters = 0 then .error (.unconnected port.name) else .ok (some port)

section

variable [Inhabited α]

/-- `publishSpan[i] = T{}` for each of the first `n`. -/
def fill (l : Layout) (first : Nat) (b : BufferImpl α ρ) : Nat → BufferImpl α ρ
  | 0 => b
  | n + 1 => (fill l first b n).store l (first + n) default

/-- The second writer and its span, from their construction to their end; none where the release aborts. -/
def prime (l : Layout) (b : BufferImpl α ρ) (nSamples : Nat) : Option (BufferImpl α ρ) :=
  let (b, writer, publishSpan) := Writer.new.tryReserve l b nSamples .processAll
  if writer.internalSpan.size < nSamples then (publishSpan.release l b writer).map Prod.fst
  else
    (publishSpan.release l (fill l writer.internalSpan.first b nSamples) (publishSpan.publish writer nSamples)).map
      Prod.fst

/-- `primePort` with its result. The error that a span too small sets is replaced by what the counts say. -/
def primePort (l : Layout) (s : State α ω ρ) (c : PortCache ρ) (portIdx nSamples : Nat) :
    Option (State α ω ρ × Except PrimePortError Nat) :=
  match c.check s.writerCount portIdx nSamples with
  | .error e => some (s, .error e)
  | .ok none => some (s, .ok nSamples)
  | .ok (some port) => (s.readers port.reader).bind fun a => (prime l s.buffer nSamples).map fun buffer =>
    let available (b : BufferImpl α ρ) : Int := b.claimStrategy.publishCursor - a.reader.readIndexCached
    let nPublished := available buffer - available s.buffer
    ({ s with buffer := buffer }, if nPublished ≠ nSamples then .error (.sampleCount nPublished) else .ok nSamples)

end

/-! ### The calls -/

/-- Which calls are a writer's and its spans'. -/
def ofWriter : CircularBuffer.Act α ρ → Bool
  | .tryReserve .. | .reserve .. | .copyWriterSpan _ | .write .. | .publish .. | .releaseWriterSpan _ => true
  | _ => false

inductive Act (α ω ρ : Type)
  | newWriter (w : ω)
  | moveConstruct (w other : ω)
  | moveAssign (w tmp : ω)
  | destroy (w : ω)
  | useWriter (w : ω) (call : CircularBuffer.Act α ρ)
  | useReader (call : CircularBuffer.Act α ρ)
  | primePort (c : PortCache ρ) (portIdx nSamples : Nat)

variable [DecidableEq ω] [DecidableEq ρ] [Inhabited α]

/-- A span points to its writer, so a writer is moved and destroyed without live spans; one without a buffer makes no
    reservation. -/
def step (l : Layout) (s : State α ω ρ) : Act α ω ρ → Option (State α ω ρ)
  | .newWriter w =>
    if s.writers w = none then some { s.setWriter w (some .new) with writerCount := s.writerCount + 1 } else none
  | .moveConstruct w other => (s.writers other).bind fun h =>
    if s.writers w = none ∧ h.spans = [] then
      some ((s.setWriter other (some h.moveConstruct.2)).setWriter w (some h.moveConstruct.1))
    else none
  | .moveAssign w tmp => (s.writers w).bind fun h => (s.writers tmp).bind fun h' =>
    if h.spans = [] ∧ h'.spans = [] then
      some ((s.setWriter tmp (some (h.moveAssign h').2)).setWriter w (some (h.moveAssign h').1))
    else none
  | .destroy w => (s.writers w).bind fun h =>
    if h.spans = [] then
      some { s.setWriter w none with writerCount := s.writerCount - if h.hasBuffer then 1 else 0 }
    else none
  | .useWriter w call => (s.writers w).bind fun h =>
    if h.hasBuffer ∧ ofWriter call then
      (CircularBuffer.step l (s.view h.writer h.spans) call).map fun t =>
        { s with buffer := t.buffer, readers := t.readers }.setWriter w (some ⟨t.writer, true, t.writerSpans⟩)
    else none
  | .useReader call =>
    if ofWriter call then none
    else (CircularBuffer.step l (s.view .new []) call).map fun t => { s with buffer := t.buffer, readers := t.readers }
  | .primePort c portIdx nSamples => (primePort l s c portIdx nSamples).map Prod.fst

def initial : State α ω ρ where
  buffer := { data := fun _ => default, claimStrategy := .init }
  writers _ := none
  readers _ := none
  writerCount := 0

def system (l : Layout) : Transition.System (State α ω ρ) (Act α ω ρ) where
  start s := s = initial
  step := step l

end GnuRadio.Writers
