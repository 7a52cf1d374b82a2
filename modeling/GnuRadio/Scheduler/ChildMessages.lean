import GnuRadio.Library.Transition

/-! The messages that a scheduler hands on to the blocks of its graph: the list of those it keeps, the ring that the graph
    and every child read through their `msgIn`, and the connections that `init()`, `reset()` and `adoptBlock()` make
    (`connectBlockMessagePorts()`, `processMessages()`, `forwardToChildren()`, `dropMessagesToChildren()` and `exchange()`
    in Scheduler.hpp; `Port::setBuffer()`). Between two steps the children read at any pace; `available` is the room that
    the ring then has. -/

namespace GnuRadio.ChildMessages

variable {ι δ : Type}

structure Message (δ : Type) where
  serviceName : String
  endpoint : String
  data : δ
  deriving DecidableEq, Repr

/-- `number` is not in the source: how many messages for children the scheduler has accepted before. -/
structure Accepted (δ : Type) where
  number : Nat
  message : Message δ
  deriving DecidableEq, Repr

/-- The reader of a `msgIn`. `handed` and `since` are not in the source: the messages that the block's handler has got, and
    how many the scheduler had accepted when the block was attached. -/
structure Reader (δ : Type) where
  position : Nat
  handed : List (Accepted δ)
  since : Nat
  deriving DecidableEq, Repr

/-- What the code of a scheduler is given: its names, and the slots of the ring. -/
structure Config where
  uniqueName : String
  name : String
  bufferSize : Nat
  deriving DecidableEq, Repr

/-- `ring` holds every message ever published. `nAccepted` and `dropped` are not in the source: the messages accepted, and
    the numbers of those that `droppedMessageCount` counts. -/
structure State (ι δ : Type) where
  messagePortsConnected : Bool
  pendingMessagesToChildren : List (Accepted δ)
  ring : List (Accepted δ)
  graph : Option (Reader δ)
  children : ι → Option (Reader δ)
  droppedMessageCount : Nat
  nAccepted : Nat
  dropped : List Nat

namespace State

def unread (s : State ι δ) (r : Reader δ) : List (Accepted δ) := s.ring.drop r.position

/-- The unread messages of the graph's `msgIn`. -/
def graphUnread (s : State ι δ) : List (Accepted δ) := (s.graph.map s.unread).getD []

/-- `setBuffer()`: a new reader stands at the end of the ring. -/
def reconnect (s : State ι δ) (r : Reader δ) : Reader δ := { r with position := s.ring.length }

def newReader (s : State ι δ) : Reader δ := ⟨s.ring.length, [], s.nAccepted⟩

end State

section

variable (cfg : Config)

/-- When the kept messages outnumber the slots of the ring, the oldest are dropped. -/
def dropOverflow (s : State ι δ) : State ι δ :=
  let nOverflow := s.pendingMessagesToChildren.length - cfg.bufferSize
  { s with
    pendingMessagesToChildren := s.pendingMessagesToChildren.drop nOverflow
    droppedMessageCount := s.droppedMessageCount + nOverflow
    dropped := s.dropped ++ (s.pendingMessagesToChildren.take nOverflow).map (·.number) }

def forwardToChildren (s : State ι δ) (available : Nat) (messages : List (Accepted δ)) : State ι δ :=
  let nSent := min (s.pendingMessagesToChildren.length + messages.length) available
  let nKept := min nSent s.pendingMessagesToChildren.length
  dropOverflow cfg
    { s with
      ring := s.ring ++ (s.pendingMessagesToChildren.take nKept ++ messages.take (nSent - nKept))
      pendingMessagesToChildren := s.pendingMessagesToChildren.drop nKept ++ messages.drop (nSent - nKept) }

def dropMessagesToChildren (s : State ι δ) : State ι δ :=
  { s with
    pendingMessagesToChildren := []
    droppedMessageCount := s.droppedMessageCount + s.pendingMessagesToChildren.length
    dropped := s.dropped ++ s.pendingMessagesToChildren.map (·.number) }

def kLifeCycleState : String := "LifecycleState"

/-- Wildcard and non-scheduler messages go to the children, except those of the lifecycle. -/
def forChildren (message : Message δ) : Bool :=
  message.serviceName ≠ cfg.uniqueName && message.serviceName ≠ cfg.name && message.endpoint ≠ kLifeCycleState

/-- One message of `processMessages()`. Before the ports are connected, it is kept. -/
def processMessage (s : State ι δ) (available : Nat) (message : Message δ) : State ι δ :=
  if forChildren cfg message then
    let accepted := ⟨s.nAccepted, message⟩
    let s := { s with nAccepted := s.nAccepted + 1 }
    if s.messagePortsConnected then forwardToChildren cfg s available [accepted]
    else { s with pendingMessagesToChildren := s.pendingMessagesToChildren ++ [accepted] }
  else s

/-- The unread messages of the graph go in front of the kept ones. The blocks of the graph are its children so far, and
    those that were added without a scheduler. -/
def connectBlockMessagePorts (s : State ι δ) (added : ι → Bool) (available : Nat) : State ι δ :=
  forwardToChildren cfg
    { s with
      messagePortsConnected := true
      pendingMessagesToChildren := s.graphUnread ++ s.pendingMessagesToChildren
      graph := some (s.newReader)
      children := fun c =>
        match s.children c with
        | some r => some (s.reconnect r)
        | none => if added c then some s.newReader else none }
    available []

/-- The handler gets what is available. -/
def State.read (s : State ι δ) (r : Reader δ) : Reader δ :=
  { r with position := s.ring.length, handed := r.handed ++ s.unread r }

end

variable [DecidableEq ι]

/-- A message reaches `processMessages()`; `processScheduledMessages()` forwards the kept messages, and the graph or a child
    reads; `init()` or `reset()` connects the message ports; a block is added to a connected scheduler, or leaves; the
    graph is exchanged, with a `reset()` for the graph that goes, or not. -/
inductive Act (ι δ : Type)
  | process (available : Nat) (message : Message δ)
  | forward (available : Nat)
  | readGraph
  | read (c : ι)
  | connect (added : ι → Bool) (available : Nat)
  | adopt (c : ι)
  | leave (c : ι)
  | exchange (resets : Option Nat)

def step (cfg : Config) (s : State ι δ) : Act ι δ → Option (State ι δ)
  | .process available message => some (processMessage cfg s available message)
  | .forward available => if s.messagePortsConnected then some (forwardToChildren cfg s available []) else none
  | .readGraph => s.graph.map fun r => { s with graph := some (s.read r) }
  | .read c => (s.children c).map fun r => { s with children := Function.update s.children c (some (s.read r)) }
  | .connect added available => some (connectBlockMessagePorts cfg s added available)
  | .adopt c =>
    match s.children c with
    | some _ => none
    | none => some { s with children := Function.update s.children c (some s.newReader) }
  | .leave c => some { s with children := Function.update s.children c none }
  | .exchange resets =>
    let s := if s.messagePortsConnected then dropMessagesToChildren s else s
    let s := match resets with
      | some available => connectBlockMessagePorts cfg s (fun _ => false) available
      | none => s
    some { s with graph := none, children := fun _ => none }

/-- A scheduler that has connected nothing and has accepted nothing. -/
def initial : State ι δ where
  messagePortsConnected := false
  pendingMessagesToChildren := []
  ring := []
  graph := none
  children _ := none
  droppedMessageCount := 0
  nAccepted := 0
  dropped := []

def system (cfg : Config) (ι δ : Type) [DecidableEq ι] : Transition.System (State ι δ) (Act ι δ) where
  start s := s = initial
  step := step cfg

end GnuRadio.ChildMessages
