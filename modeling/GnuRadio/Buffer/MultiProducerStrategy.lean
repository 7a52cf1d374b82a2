import GnuRadio.Buffer.Sequence
import GnuRadio.Library.Transition

/-! `MultiProducerStrategy` (ClaimStrategy.hpp): producers claim slots against a cached lower bound on the readers'
    positions and publish them by marking each slot, while readers attach, consume and detach. Each step is one
    atomic access of one thread. -/

namespace GnuRadio.MultiProducerStrategy

variable {ι ρ : Type}

/-- The shared fields. `_availableBuffer` starts at the largest `size_t` in each slot, which no position equals. -/
structure Strategy (ρ : Type) where
  availableBuffer : Nat → Option Nat
  cachedMinReaderCursor : Nat
  reserveCursor : Nat
  publishCursor : Nat
  readSequences : ReadSequences ρ

/-- `nextReserveCursor - minReader > _size` in unsigned arithmetic. -/
def exceeds (size nextReserveCursor minReader : Nat) : Prop :=
  nextReserveCursor < minReader ∨ minReader + size < nextReserveCursor

instance (size n m : Nat) : Decidable (exceeds size n m) := inferInstanceAs (Decidable (_ ∨ _))

/-- A minimum that `refreshMinReaderCursor` took: the publish cursor that it read first, the list that it read the
    minimum over, and the value it returns. -/
structure Minimum (ρ : Type) where
  publishCursor : Nat
  readSequences : List ρ
  minReader : Nat
  deriving DecidableEq, Repr

/-- Where a call of `refreshMinReaderCursor` stands. `minimum` is the minimum over the sequences read so far. -/
inductive Refresh (ρ : Type)
  | loadPublishCursor
  | loadSequences (publishCursor : Nat)
  | loadReserveCursor (publishCursor : Nat)
  | readSequence (publishCursor : Nat) (readSequences : List ρ) (minimum : Option Nat) (next : ρ) (rest : List ρ)
  | storeCached (minimum : Minimum ρ)
  deriving DecidableEq, Repr

/-- One access of `refreshMinReaderCursor`; the last one returns the minimum. -/
def Refresh.step (s : Strategy ρ) : Refresh ρ → Strategy ρ × (Refresh ρ ⊕ Minimum ρ)
  | .loadPublishCursor => (s, .inl (.loadSequences s.publishCursor))
  | .loadSequences p =>
    match s.readSequences.list.sequences with
    | [] => (s, .inl (.loadReserveCursor p)) -- no readers: nothing gates the writer
    | r :: rs => (s, .inl (.readSequence p (r :: rs) none r rs))
  | .loadReserveCursor p => (s, .inl (.storeCached ⟨p, [], s.reserveCursor⟩))
  | .readSequence p rs minimum r rest =>
    let m := lower minimum (s.readSequences.value r)
    match rest with
    | [] => (s, .inl (.storeCached ⟨p, rs, m⟩))
    | r' :: rest' => (s, .inl (.readSequence p rs (some m) r' rest'))
  | .storeCached m => ({ s with cachedMinReaderCursor := min m.minReader m.publishCursor }, .inr m)

/-- The bound that a claim was checked against: the cached one, or one that the claim took itself. -/
inductive Bound (ρ : Type)
  | cached (cachedMin : Nat)
  | fresh (minimum : Minimum ρ)
  deriving DecidableEq, Repr

def Bound.value : Bound ρ → Nat
  | .cached v => v
  | .fresh m => m.minReader

/-- Where a producer stands: outside every call, in `next` (`mayWait`) or `tryNext`, with a claim, in `publish`, or in
    `getRemainingCapacity`. -/
inductive Producer (ρ : Type)
  | idle
  | loadReserveCursor (n : Nat) (mayWait : Bool)
  | loadCached (n : Nat) (mayWait : Bool) (currentReserveCursor : Nat)
  | refresh (n : Nat) (mayWait : Bool) (currentReserveCursor : Nat) (stage : Refresh ρ)
  | compareAndSet (n : Nat) (mayWait : Bool) (currentReserveCursor : Nat) (bound : Bound ρ)
  | claimed (offset n : Nat)
  | storeSlot (offset n seq : Nat)
  | loadPublishCursor
  | scan (currentPublishCursor nextPublishCursor : Nat)
  | publishCompareAndSet (currentPublishCursor nextPublishCursor : Nat)
  | capacityRefresh (stage : Refresh ρ)
  | capacityLoad (minReader : Nat)
  | capacity (nFree : Nat)
  deriving DecidableEq, Repr

/-- One access of a producer inside a call. -/
def Producer.step (size : Nat) (s : Strategy ρ) : Producer ρ → Option (Strategy ρ × Producer ρ)
  | .idle | .claimed .. => none
  | .loadReserveCursor n w => some (s, .loadCached n w s.reserveCursor)
  | .loadCached n w current =>
    if exceeds size (current + n) s.cachedMinReaderCursor then some (s, .refresh n w current .loadPublishCursor)
    else some (s, .compareAndSet n w current (.cached s.cachedMinReaderCursor))
  | .refresh n w current stage =>
    match stage.step s with
    | (s', .inl stage') => some (s', .refresh n w current stage')
    | (s', .inr m) =>
      if exceeds size (current + n) m.minReader then
        some (s', if w then .loadReserveCursor n w else .idle) -- next() spins, tryNext() returns nullopt
      else some (s', .compareAndSet n w current (.fresh m))
  | .compareAndSet n w current _ =>
    if s.reserveCursor = current then some ({ s with reserveCursor := current + n }, .claimed current n)
    else some (s, .loadReserveCursor n w)
  | .storeSlot offset n seq =>
    some ({ s with availableBuffer := Function.update s.availableBuffer (calculateIndex size seq) (some seq) },
      if seq + 1 < offset + n then .storeSlot offset n (seq + 1) else .loadPublishCursor)
  | .loadPublishCursor => some (s, .scan s.publishCursor s.publishCursor)
  | .scan current next =>
    if next - current < size ∧ s.availableBuffer (calculateIndex size next) = some next then
      some (s, .scan current (next + 1))
    else some (s, if next = current then .idle else .publishCompareAndSet current next)
  | .publishCompareAndSet current next =>
    if s.publishCursor = current then some ({ s with publishCursor := next }, .idle)
    else some (s, .loadPublishCursor)
  | .capacityRefresh stage =>
    match stage.step s with
    | (s', .inl stage') => some (s', .capacityRefresh stage')
    | (s', .inr m) => some (s', .capacityLoad m.minReader)
  | .capacityLoad minReader => some (s, .capacity (remainingCapacity size s.reserveCursor minReader))
  | .capacity _ => some (s, .idle)

/-- `publish(offset, n)`, up to its first access. -/
def Producer.publish (offset n : Nat) : Producer ρ :=
  if n = 0 then .idle else .storeSlot offset n offset

/-- Where a `Reader` of the buffer stands: not constructed, in its constructor (`addSequences`, then
    `notifyReaderSetChanged`), constructed, or in its destructor. -/
inductive Reader (ρ : Type)
  | absent
  | adding (stage : AddSequences ρ)
  | notifyAdded (stage : Refresh ρ)
  | attached
  | removing (stage : RemoveSequence ρ)
  | notifyRemoved (stage : Refresh ρ)
  | destroyed
  deriving DecidableEq, Repr

/-- One access of the constructor or the destructor of reader `r`. -/
def Reader.step [DecidableEq ρ] (s : Strategy ρ) (r : ρ) (spurious : Bool) :
    Reader ρ → Option (Strategy ρ × Reader ρ)
  | .absent | .attached | .destroyed => none
  | .adding stage =>
    match stage.step s.publishCursor r spurious s.readSequences with
    | (rs, some stage') => some ({ s with readSequences := rs }, .adding stage')
    | (rs, none) => some ({ s with readSequences := rs }, .notifyAdded .loadPublishCursor)
  | .notifyAdded stage =>
    match stage.step s with
    | (s', .inl stage') => some (s', .notifyAdded stage')
    | (s', .inr _) => some (s', .attached)
  | .removing stage =>
    match stage.step r spurious s.readSequences with
    | (rs, some stage') => some ({ s with readSequences := rs }, .removing stage')
    | (rs, none) => some ({ s with readSequences := rs }, .notifyRemoved .loadPublishCursor)
  | .notifyRemoved stage =>
    match stage.step s with
    | (s', .inl stage') => some (s', .notifyRemoved stage')
    | (s', .inr _) => some (s', .destroyed)

structure State (ι ρ : Type) where
  strategy : Strategy ρ
  producers : ι → Producer ρ
  readers : ρ → Reader ρ

/-- A call that a thread makes, or its next access inside the call. -/
inductive Act (ι ρ : Type)
  | next (i : ι) (nSlotsToClaim : Nat)
  | tryNext (i : ι) (nSlotsToClaim : Nat)
  | getRemainingCapacity (i : ι)
  | publish (i : ι)
  | produce (i : ι)
  | attach (r : ρ)
  | consume (r : ρ) (n : Nat)
  | detach (r : ρ)
  | construct (r : ρ) (spurious : Bool)
  deriving DecidableEq, Repr

section

variable [DecidableEq ι] [DecidableEq ρ]

def State.setProducer (s : State ι ρ) (i : ι) (p : Producer ρ) : State ι ρ :=
  { s with producers := Function.update s.producers i p }

def State.setReader (s : State ι ρ) (r : ρ) (p : Reader ρ) : State ι ρ :=
  { s with readers := Function.update s.readers r p }

/-- A step. The claim sizes are those `next` and `tryNext` assert; a claim is published as a whole, and a reader
    consumes at most what is published. -/
def step (size : Nat) (s : State ι ρ) : Act ι ρ → Option (State ι ρ)
  | .next i n =>
    if s.producers i = .idle ∧ 0 < n ∧ n ≤ size then some (s.setProducer i (.loadReserveCursor n true)) else none
  | .tryNext i n =>
    if s.producers i = .idle ∧ 0 < n ∧ n ≤ size then some (s.setProducer i (.loadReserveCursor n false)) else none
  | .getRemainingCapacity i =>
    if s.producers i = .idle then some (s.setProducer i (.capacityRefresh .loadPublishCursor)) else none
  | .publish i =>
    match s.producers i with
    | .claimed offset n => some (s.setProducer i (.publish offset n))
    | _ => none
  | .produce i =>
    ((s.producers i).step size s.strategy).map fun (strategy, p) => { s with strategy := strategy }.setProducer i p
  | .attach r => if s.readers r = .absent then some (s.setReader r (.adding .load)) else none
  | .consume r n =>
    if s.readers r = .attached ∧ s.strategy.readSequences.value r + n ≤ s.strategy.publishCursor then
      some { s with strategy := { s.strategy with
        readSequences := s.strategy.readSequences.setValue r (s.strategy.readSequences.value r + n) } }
    else none
  | .detach r => if s.readers r = .attached then some (s.setReader r (.removing .load)) else none
  | .construct r spurious =>
    ((s.readers r).step s.strategy r spurious).map fun (strategy, p) => { s with strategy := strategy }.setReader r p

end

/-- A buffer that nobody uses yet. -/
def initial : State ι ρ where
  strategy := {
    availableBuffer := fun _ => none
    cachedMinReaderCursor := 0
    reserveCursor := 0
    publishCursor := 0
    readSequences := { list := { version := 0, sequences := [] }, value := fun _ => 0 } }
  producers _ := .idle
  readers _ := .absent

def system [DecidableEq ι] [DecidableEq ρ] (size : Nat) : Transition.System (State ι ρ) (Act ι ρ) where
  start s := s = initial
  step := step size

end GnuRadio.MultiProducerStrategy

/-! Refused calls of `MultiProducerStrategy::tryNext` (ClaimStrategy.hpp): a run in which each producer keeps the states
    that it has seen since its last call of `tryNext` began, and each call that returns `nullopt` is recorded. -/

namespace GnuRadio.MultiProducerStrategy

variable {ι ρ : Type}

/-- The slots that no reader of the list has still to read. -/
def Strategy.freeSlots (size : Nat) (s : Strategy ρ) : Nat :=
  s.readSequences.list.sequences.foldr
    (fun r free => min free (size - (s.reserveCursor - s.readSequences.value r))) size

/-- The call of `tryNext` that the next access of a producer refuses: its size, where the claim would end, and the
    minimum that it took. -/
def Producer.refusal (size : Nat) : Producer ρ → Option (Nat × Nat × Nat)
  | .refresh n false current (.storeCached m) =>
    if exceeds size (current + n) m.minReader then some (n, current + n, m.minReader) else none
  | _ => none

/-- What a call of `tryNext` that returned `nullopt` asked for, and the states from its begin to its end. -/
structure Refused (ι ρ : Type) where
  nSlotsToClaim : Nat
  moments : List (State ι ρ)

structure Watch (ι ρ : Type) where
  state : State ι ρ
  moments : ι → List (State ι ρ)
  refused : List (Refused ι ρ)

section
variable [DecidableEq ι] [DecidableEq ρ]

namespace Watch

/-- A call of `tryNext` begins with the state that its begin leaves. -/
def see (w : Watch ι ρ) (t : State ι ρ) : Act ι ρ → ι → List (State ι ρ)
  | .tryNext i _ => Function.update (fun j => w.moments j ++ [t]) i [t]
  | _ => fun j => w.moments j ++ [t]

def record (size : Nat) (w : Watch ι ρ) (t : State ι ρ) : Act ι ρ → List (Refused ι ρ)
  | .produce i =>
    match (w.state.producers i).refusal size with
    | some (n, _, _) => w.refused ++ [⟨n, w.moments i ++ [t]⟩]
    | none => w.refused
  | _ => w.refused

def step (size : Nat) (w : Watch ι ρ) (a : Act ι ρ) : Option (Watch ι ρ) :=
  (MultiProducerStrategy.step size w.state a).map fun t => ⟨t, w.see t a, w.record size t a⟩

end Watch

/-- A buffer that nobody uses yet. -/
def unwatched : Watch ι ρ := ⟨initial, fun _ => [], []⟩

def watched (size : Nat) : Transition.System (Watch ι ρ) (Act ι ρ) where
  start w := w = unwatched
  step := Watch.step size

/-- The call is refused for a minimum beyond the end of its claim: the positions are subtracted as unsigned numbers. -/
def Producer.passed (size : Nat) (p : Producer ρ) : Bool :=
  match p.refusal size with
  | some (_, nextReserveCursor, minReader) => decide (nextReserveCursor < minReader)
  | none => false

/-- No step refuses a call whose claim the readers have passed. -/
def NotPassed (size : Nat) (w : Watch ι ρ) : Act ι ρ → Prop
  | .produce i => (w.state.producers i).passed size = false
  | _ => True

instance (size : Nat) (w : Watch ι ρ) : (a : Act ι ρ) → Decidable (NotPassed size w a)
  | .produce i => inferInstanceAs (Decidable ((w.state.producers i).passed size = false))
  | .next .. | .tryNext .. | .getRemainingCapacity _ | .publish _ | .attach _ | .consume .. | .detach _
  | .construct .. => .isTrue trivial

end

end GnuRadio.MultiProducerStrategy
