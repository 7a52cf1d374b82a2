import GnuRadio.Library.Transition

/-! The life cycle of schedulers and blocks (LifeCycle.hpp): the states, which changes of them are valid, the two kinds of
    accesses that `changeStateTo` makes to the state, and the lifecycle methods that it calls. -/

namespace GnuRadio.LifeCycle

inductive State
  | idle
  | initialised
  | running
  | requestedPause
  | paused
  | requestedStop
  | stopped
  | error
  deriving DecidableEq, Repr

def isActive (state : State) : Bool :=
  state == .running || state == .requestedPause || state == .paused

def isShuttingDown (state : State) : Bool := state == .requestedStop || state == .stopped

def isValidTransition (source target : State) : Bool :=
  if target = .error ∨ source = target then true
  else match source with
    | .idle => target == .initialised || target == .requestedStop || target == .stopped
    | .initialised => target == .running || target == .requestedStop || target == .stopped
    | .running => target == .requestedPause || target == .requestedStop
    | .requestedPause => target == .paused || target == .running || target == .requestedStop
    | .paused => target == .running || target == .requestedStop
    | .requestedStop => target == .stopped
    | .stopped => target == .initialised
    | .error => target == .initialised

/-- A request that the state satisfies already changes nothing and runs no hook. -/
def isSatisfiedTransition (source target : State) : Bool :=
  source == target || (source == .stopped && target == .requestedStop) ||
    (source == .paused && target == .requestedPause)

/-- What `changeStateTo` does next: the compare-exchange from the state it observed, or nothing more, since the state
    satisfies the request, the change is invalid, or it was made from `oldState`. -/
inductive Outcome
  | exchange (observed : State)
  | satisfied (oldState : State)
  | invalid
  | changed (oldState : State)
  deriving DecidableEq, Repr

def observe (newState oldState : State) : Outcome :=
  if isSatisfiedTransition oldState newState then .satisfied oldState
  else if isValidTransition oldState newState then .exchange oldState
  else .invalid

/-- One access of `changeStateTo(newState)`: the first load, or the compare-exchange from the state observed before,
    which observes the state again if it fails. -/
def changeStateTo (newState state : State) : Option State → State × Outcome
  | none => (state, observe newState state)
  | some observed =>
    if state = observed then (newState, .changed observed) else (state, observe newState state)

/-! ### Lifecycle methods -/

inductive Hook
  | init
  | start
  | stop
  | pause
  | resume
  | reset
  deriving DecidableEq, Repr

/-- The method that a change of the state calls, of those that the class has. -/
def lifecycleMethod (implements : Hook → Bool) (oldState newState : State) : Option Hook :=
  if implements .init ∧ oldState = .idle ∧ newState = .initialised then some .init
  else if implements .start ∧ oldState = .initialised ∧ newState = .running then some .start
  else if implements .stop ∧ (newState = .requestedStop ∨ newState = .error ∧ isActive oldState) then some .stop
  else if implements .pause ∧ newState = .requestedPause then some .pause
  else if implements .resume ∧ (oldState = .requestedPause ∨ oldState = .paused) ∧ newState = .running then some .resume
  else if implements .reset ∧ oldState ≠ .idle ∧ newState = .initialised then some .reset
  else none

/-- The state after the method has returned or thrown. -/
def invokeLifecycleMethod (throws : Bool) (state : State) : State := if throws then .error else state

/-- A request, and whether the method that it calls throws. -/
structure Request where
  newState : State
  throws : Bool
  deriving DecidableEq, Repr

/-- A request on a machine that no other thread uses: the state after it, and the method it has called. -/
def changeStateToAlone (implements : Hook → Bool) (oldState : State) (r : Request) : State × Option Hook :=
  if isSatisfiedTransition oldState r.newState then (oldState, none)
  else if isValidTransition oldState r.newState then
    match lifecycleMethod implements oldState r.newState with
    | some hook => (invokeLifecycleMethod r.throws r.newState, some hook)
    | none => (r.newState, none)
  else (oldState, none)

/-- What a request shows: the method that it has called, and the state that it leaves. -/
inductive Event
  | hook (h : Hook) (throws : Bool)
  | rests (state : State)
  deriving DecidableEq, Repr

def events (implements : Hook → Bool) (state : State) (r : Request) : List Event :=
  match changeStateToAlone implements state r with
  | (state', some h) => [.hook h r.throws, .rests state']
  | (state', none) => [.rests state']

/-- A machine on which one thread makes requests. -/
def machine (implements : Hook → Bool) : Transition.System State Request where
  start state := state = .idle
  step state r := some (changeStateToAlone implements state r).1

end GnuRadio.LifeCycle
