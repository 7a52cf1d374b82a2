import GnuRadio.Library.Transition
import Mathlib.Algebra.Ring.Nat
import Mathlib.Data.List.Forall2
import Mathlib.Order.MinMax

/-! The tail that a block without an epilogue drops at the end of its stream: what each input was handed past its read
    position (`keepHandedPastRead()`, `skipInputSamples()` and `notifyDroppedTail()` in Block.hpp). One work call a step,
    and one step for a disconnect or a reconnect between calls. -/

namespace GnuRadio.DroppedTail

/-- The samples that a call was handed of an input. -/
structure Span where
  start : Nat
  size : Nat
  deriving DecidableEq, Repr

def Span.holds (span : Span) (index : Nat) : Bool := span.start ≤ index && index < span.start + span.size

/-- An input with its reader. `first` is the index that the reader began at, `arrived` the index that the samples end at,
    and `eosTags` the indices of the end-of-stream tags in the order of the tag ring. `spans` are the spans of this reader
    that calls were handed. -/
structure Input where
  isSync : Bool
  isConnected : Bool
  first : Nat
  position : Nat
  arrived : Nat
  eosTags : List Nat
  spans : List Span
  deriving DecidableEq, Repr

/-- What `processBulk()` is handed of an input, and what the call consumes of it. -/
structure Handed where
  size : Nat
  nConsumed : Nat
  deriving DecidableEq, Repr

/-- `nHandedPastRead` has an entry for each connected input, in port order. -/
structure State where
  inputs : List Input
  nHandedPastRead : List Nat
  deriving DecidableEq, Repr

namespace Input

variable (port : Input)

def available : Nat := port.arrived - port.position

/-- `samples_to_eos_tag()`, or all that the input holds. -/
def nHeld : Nat :=
  match port.eosTags.find? (port.position ≤ ·) with
  | some index => index - port.position
  | none => port.available

/-- Where the input ends. -/
def endIndex : Nat := port.position + port.nHeld

/-- What a skip passes over. -/
def nPassed (nSkip : Nat) : Nat := if port.isSync && port.isConnected then nSkip else 0

def consume (nSamples : Nat) : Input := { port with position := port.position + nSamples }

/-- A connected input holds the span that it is handed, and consumes no more than that. -/
def Fits (span : Handed) : Prop :=
  span.size ≤ (if port.isConnected then port.available else 0) ∧ span.nConsumed ≤ span.size

instance (span : Handed) : Decidable (port.Fits span) := inferInstanceAs (Decidable (_ ∧ _))

def take (span : Handed) : Input :=
  { port with position := port.position + span.nConsumed, spans := port.spans ++ [⟨port.position, span.size⟩] }

end Input

/-! ### The counts -/

/-- The end of `skipInputSamples()`. An input without an entry has none to lower. -/
def lowerHandedPastRead (nSkip : Nat) : List Input → List Nat → List Nat
  | port :: ports, count :: counts =>
    if port.isConnected then (count - port.nPassed nSkip) :: lowerHandedPastRead nSkip ports counts
    else lowerHandedPastRead nSkip ports (count :: counts)
  | _, counts => counts

/-- An input without an entry gets one. -/
def keepHandedPastRead : List Input → List Handed → List Nat → List Nat
  | port :: ports, span :: spans, counts =>
    if port.isConnected then
      max (span.size - span.nConsumed) (counts.headD 0 - span.nConsumed) :: keepHandedPastRead ports spans counts.tail
    else keepHandedPastRead ports spans counts
  | _, _, counts => counts

/-- The messages: an input's place among the ports and the samples that it drops, which the message holds in 32 bits. -/
def notifyDroppedTail : Nat → List Input → List Nat → List (Nat × Nat)
  | _, [], _ => []
  | place, port :: ports, counts =>
    if port.isConnected then
      if counts.headD 0 < port.nHeld then
        (place, (port.nHeld - counts.headD 0) % 2 ^ 32) :: notifyDroppedTail (place + 1) ports counts.tail
      else notifyDroppedTail (place + 1) ports counts.tail
    else notifyDroppedTail (place + 1) ports counts

/-! ### Calls -/

/-- A call skips, and it hands its samples to `processBulk()` unless it returns before or ends the stream. -/
structure Call where
  nSkip : Nat
  process : Option (List Handed)
  deriving DecidableEq, Repr

inductive Act
  | arrive (input nSamples : Nat)
  | endOfStream (input index : Nat)
  | work (call : Call)
  | disconnect (input : Nat)
  | reconnect (input position : Nat)
  deriving DecidableEq, Repr

namespace State

variable (s : State)

def modify (input : Nat) (f : Input → Input) : State := { s with inputs := s.inputs.modify input f }

def skip (nSkip : Nat) : State :=
  { inputs := s.inputs.map fun port => port.consume (port.nPassed nSkip)
    nHandedPastRead := lowerHandedPastRead nSkip s.inputs s.nHandedPastRead }

def process (spans : List Handed) : State :=
  { inputs := s.inputs.zipWith (fun port span => port.take span) spans
    nHandedPastRead := keepHandedPastRead s.inputs spans s.nHandedPastRead }

def disconnect (input : Nat) : State := s.modify input fun port => { port with isConnected := false }

/-- A new reader begins at the position of its buffer. -/
def reconnect (input position : Nat) : State :=
  s.modify input fun port =>
    { port with
      isConnected := true
      first := position
      position := position
      arrived := position
      eosTags := []
      spans := [] }

/-- What `notifyDroppedTail()` reports for an input, 0 when it sends no message. -/
def reported (input : Nat) : Nat := ((notifyDroppedTail 0 s.inputs s.nHandedPastRead).lookup input).getD 0

end State

/-- The reader holds what a skip passes over and each span. -/
def step (s : State) : Act → Option State
  | .arrive input nSamples =>
    some (s.modify input fun port => { port with arrived := port.arrived + nSamples })
  | .endOfStream input index => some (s.modify input fun port => { port with eosTags := port.eosTags ++ [index] })
  | .work call =>
    if ∀ port ∈ s.inputs, port.nPassed call.nSkip ≤ port.available then
      match call.process with
      | none => some (s.skip call.nSkip)
      | some spans =>
        if List.Forall₂ Input.Fits (s.skip call.nSkip).inputs spans then some ((s.skip call.nSkip).process spans) else none
    else none
  | .disconnect input => some (s.disconnect input)
  | .reconnect input position => some (s.reconnect input position)

/-- A block that starts has handed nothing on. -/
def system : Transition.System State Act where
  start s := s.nHandedPastRead = [] ∧ ∀ port ∈ s.inputs, port.spans = [] ∧ port.first = port.position
  step := step

/-- The samples from an index to the end of an input that were in no span. -/
def neverHanded (port : Input) (first : Nat) : Nat :=
  ((List.range' first (port.endIndex - first)).filter fun index => port.spans.all fun span => !span.holds index).length

/-- What an input was handed past its read position. -/
def pastRead (port : Input) : Nat := (port.spans.map fun span => span.start + span.size).foldr max 0 - port.position

/-- Each connected input has its own count at its place among them. -/
def InPlace : List Input → List Nat → Prop
  | [], _ => True
  | port :: ports, counts =>
    if port.isConnected then counts.headD 0 = pastRead port ∧ InPlace ports counts.tail else InPlace ports counts

instance decidableInPlace : ∀ ports counts, Decidable (InPlace ports counts)
  | [], _ => .isTrue trivial
  | port :: ports, counts =>
    have := decidableInPlace ports counts.tail
    have := decidableInPlace ports counts
    inferInstanceAs (Decidable (if port.isConnected then counts.headD 0 = pastRead port ∧ InPlace ports counts.tail
      else InPlace ports counts))

/-- A disconnect or a reconnect leaves each connected input's own count at its place. -/
def KeepsPlaces (s : State) : Act → Prop
  | .disconnect input => InPlace (s.disconnect input).inputs s.nHandedPastRead
  | .reconnect input position => InPlace (s.reconnect input position).inputs s.nHandedPastRead
  | _ => True

instance (s : State) : (a : Act) → Decidable (KeepsPlaces s a)
  | .disconnect _ => decidableInPlace _ _
  | .reconnect _ _ => decidableInPlace _ _
  | .arrive _ _ => .isTrue trivial
  | .endOfStream _ _ => .isTrue trivial
  | .work _ => .isTrue trivial

end GnuRadio.DroppedTail
