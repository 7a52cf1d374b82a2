import GnuRadio.Buffer.Sequence
import GnuRadio.Library.Transition

/-! `SingleProducerStrategy` (ClaimStrategy.hpp): one producer claims slots against a snapshot of the readers that it
    takes again only when the reader generation has changed. First the operations as a whole, then the steps of a
    producer next to readers that attach, consume and detach, one atomic access a step. -/

namespace GnuRadio.SingleProducerStrategy

variable {ρ : Type}

/-- The fields. The snapshot, its generation (the largest `size_t` at first: none) and the reserve cursor belong to
    the producer; the cached pointer to a single reader is the head of a snapshot of one. -/
structure Strategy (ρ : Type) where
  readerGeneration : Nat
  snapshotGeneration : Option Nat
  snapshotReadSequences : List ρ
  publishCursor : Nat
  reserveCursor : Nat
  readSequences : ReadSequences ρ

namespace Strategy

def init : Strategy ρ where
  readerGeneration := 0
  snapshotGeneration := none
  snapshotReadSequences := []
  publishCursor := 0
  reserveCursor := 0
  readSequences := { list := { version := 0, sequences := [] }, value := fun _ => 0 }

def notifyReaderSetChanged (s : Strategy ρ) : Strategy ρ := { s with readerGeneration := s.readerGeneration + 1 }

def refreshReaderSnapshot (s : Strategy ρ) : Strategy ρ :=
  if s.snapshotGeneration = some s.readerGeneration then s
  else { s with
    snapshotReadSequences := s.readSequences.list.sequences
    snapshotGeneration := some s.readerGeneration }

/-- The minimum over the snapshot, or the reserve cursor: without readers nothing gates the writer. -/
def getMinReaderCursor (s : Strategy ρ) : Nat :=
  match s.snapshotReadSequences with
  | [] => s.reserveCursor
  | r :: rest =>
    rest.foldl (fun m r => lower (some m) (s.readSequences.value r)) (lower none (s.readSequences.value r))

def getRemainingCapacity (size : Nat) (s : Strategy ρ) : Nat :=
  remainingCapacity size s.reserveCursor s.getMinReaderCursor

def tryNext (size n : Nat) (s : Strategy ρ) : Strategy ρ × Option Nat :=
  let s := s.refreshReaderSnapshot
  if s.getRemainingCapacity size < n then (s, none)
  else ({ s with reserveCursor := s.reserveCursor + n }, some (s.reserveCursor + n))

def publish (offset n : Nat) (s : Strategy ρ) : Strategy ρ :=
  { s with publishCursor := offset + n, reserveCursor := offset + n }

end Strategy

/-! ### One access a step -/

/-- Where the producer stands: between two reservations, in `next` (`mayWait`) or `tryNext`, or with a reservation of
    `n` slots (none where it was refused). `offset` is the writer's own record of where its last span ended. -/
inductive Producer (ρ : Type)
  | idle
  | loadGeneration (n : Nat) (mayWait : Bool)
  | loadSequences (n : Nat) (mayWait : Bool) (generation : Nat)
  | readSequence (n : Nat) (mayWait : Bool) (minimum : Option Nat) (next : ρ) (rest : List ρ)
  | claim (n : Nat) (mayWait : Bool) (minReader : Nat)
  | reserved (n : Nat)
  deriving DecidableEq, Repr

/-- `getMinReaderCursor` starts on the snapshot. -/
def Producer.getMinReaderCursor (s : Strategy ρ) (n : Nat) (mayWait : Bool) : Producer ρ :=
  match s.snapshotReadSequences with
  | [] => .claim n mayWait s.reserveCursor
  | r :: rest => .readSequence n mayWait none r rest

/-- One access of the producer in a reservation. -/
def Producer.step (size : Nat) (s : Strategy ρ) : Producer ρ → Option (Strategy ρ × Producer ρ)
  | .idle | .reserved _ => none
  | .loadGeneration n w =>
    if s.snapshotGeneration = some s.readerGeneration then some (s, .getMinReaderCursor s n w)
    else some (s, .loadSequences n w s.readerGeneration)
  | .loadSequences n w generation =>
    let s := { s with
      snapshotReadSequences := s.readSequences.list.sequences
      snapshotGeneration := some generation }
    some (s, .getMinReaderCursor s n w)
  | .readSequence n w minimum r rest =>
    let m := lower minimum (s.readSequences.value r)
    match rest with
    | [] => some (s, .claim n w m)
    | r' :: rest' => some (s, .readSequence n w (some m) r' rest')
  | .claim n w minReader =>
    if remainingCapacity size s.reserveCursor minReader < n then
      some (s, if w then .loadGeneration n w else .reserved 0) -- next() spins, tryNext() returns nullopt
    else some ({ s with reserveCursor := s.reserveCursor + n }, .reserved n)

/-- The constructor of a `WriterSpan` with slots records where they start. -/
def Producer.offset (s : Strategy ρ) (offset : Nat) : Producer ρ → Nat
  | .reserved n => if n = 0 then offset else s.reserveCursor - n
  | _ => offset

/-- Where a `Reader` stands: not constructed, in its constructor (`addSequences`, the generation, the cached read
    index), constructed, or in its destructor. -/
inductive Reader (ρ : Type)
  | absent
  | adding (stage : AddSequences ρ)
  | notifyAdded
  | cacheIndex
  | attached
  | removing (stage : RemoveSequence ρ)
  | notifyRemoved
  | destroyed
  deriving DecidableEq, Repr

/-- The shared fields, the producer with the offset that its `Writer` remembers, and the readers with their
    `_readIndexCached`. -/
structure State (ρ : Type) where
  strategy : Strategy ρ
  producer : Producer ρ
  offset : Nat
  readers : ρ → Reader ρ
  readIndexCached : ρ → Nat

/-- `Writer::reserve` (`mayWait`) and `tryReserve`, the producer's next access in them, the release of the span after
    `publish(n)`, and the readers' calls and accesses. -/
inductive Act (ρ : Type)
  | reserve (nSamples : Nat) (mayWait : Bool)
  | produce
  | publish (n : Nat)
  | attach (r : ρ)
  | consume (r : ρ) (n : Nat)
  | detach (r : ρ)
  | construct (r : ρ) (spurious : Bool)
  deriving DecidableEq, Repr

section

variable [DecidableEq ρ]

def State.setReader (s : State ρ) (r : ρ) (p : Reader ρ) : State ρ :=
  { s with readers := Function.update s.readers r p }

/-- One access of the constructor or the destructor of reader `r`. -/
def Reader.step (s : State ρ) (r : ρ) (spurious : Bool) : Reader ρ → Option (State ρ)
  | .absent | .attached | .destroyed => none
  | .adding stage =>
    let (rs, stage') := stage.step s.strategy.publishCursor r spurious s.strategy.readSequences
    some ({ s with strategy := { s.strategy with readSequences := rs } }.setReader r
      (match stage' with
        | some stage' => .adding stage'
        | none => .notifyAdded))
  | .notifyAdded => some ({ s with strategy := s.strategy.notifyReaderSetChanged }.setReader r .cacheIndex)
  | .cacheIndex =>
    let cached := Function.update s.readIndexCached r (s.strategy.readSequences.value r)
    some ({ s with readIndexCached := cached }.setReader r .attached)
  | .removing stage =>
    let (rs, stage') := stage.step r spurious s.strategy.readSequences
    some ({ s with strategy := { s.strategy with readSequences := rs } }.setReader r
      (match stage' with
        | some stage' => .removing stage'
        | none => .notifyRemoved))
  | .notifyRemoved => some ({ s with strategy := s.strategy.notifyReaderSetChanged }.setReader r .destroyed)

/-- A step. The writer publishes at most what it reserved, the rest goes back; the release of a refused reservation
    publishes nothing. A reader consumes at most what it sees published. -/
def step (size : Nat) (s : State ρ) : Act ρ → Option (State ρ)
  | .reserve n w =>
    if s.producer = .idle ∧ n ≤ size then
      some { s with producer := if n = 0 then .reserved 0 else .loadGeneration n w }
    else none
  | .produce =>
    (s.producer.step size s.strategy).map fun (strategy, p) =>
      { s with strategy := strategy, producer := p, offset := p.offset strategy s.offset }
  | .publish k =>
    match s.producer with
    | .reserved n =>
      if k ≤ n then some { s with
        strategy := s.strategy.publish s.offset k
        producer := .idle
        offset := s.offset + k }
      else none
    | _ => none
  | .attach r => if s.readers r = .absent then some (s.setReader r (.adding .load)) else none
  | .consume r n =>
    if s.readers r = .attached ∧ n ≤ s.strategy.publishCursor - s.readIndexCached r then
      some { s with
        readIndexCached := Function.update s.readIndexCached r (s.readIndexCached r + n)
        strategy := { s.strategy with
          readSequences := s.strategy.readSequences.setValue r (s.readIndexCached r + n) } }
    else none
  | .detach r => if s.readers r = .attached then some (s.setReader r (.removing .load)) else none
  | .construct r spurious => (s.readers r).step s r spurious

end

def initial : State ρ where
  strategy := .init
  producer := .idle
  offset := 0
  readers _ := .absent
  readIndexCached _ := 0

def system [DecidableEq ρ] (size : Nat) : Transition.System (State ρ) (Act ρ) where
  start s := s = initial
  step := step size

end GnuRadio.SingleProducerStrategy
