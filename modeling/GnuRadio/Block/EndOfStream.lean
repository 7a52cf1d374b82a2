import GnuRadio.LifeCycle

/-! The state of a block, as its work calls and the requests of any threads change it (`changeStateTo()` in LifeCycle.hpp;
    `checkLifecycle()`, `workInternal()` and `finaliseIO()` in Block.hpp). One access of the state a step. -/

namespace GnuRadio.EndOfStream

open LifeCycle (Hook)

/-- The result of the processing function, as far as `finaliseIO()` tells them apart. -/
inductive Status
  | ok
  | done
  | error
  deriving DecidableEq, Repr

/-- What a thread does after a request has returned: nothing more, the rest of the work call, or the rest of the epilogue
    or the processing function that made it. -/
inductive Next
  | returns
  | checkStop
  | checkChildren
  | checkStopped
  | epilogue
  | process
  | publish (status : Status) (shuttingDown : Bool)
  | setStopped
  deriving DecidableEq, Repr

/-- Where a thread stands: outside, in `changeStateTo()` before an access, in the method that it calls, and in a work call
    before its next access of the state. -/
inductive Stage
  | outside
  | changeStateTo (newState : LifeCycle.State) (observed : Option LifeCycle.State) (next : Next)
  | method (hook : Hook) (next : Next)
  | checkPause
  | checkStop
  | checkChildren
  | checkStopped
  | limits
  | endOfStream
  | epilogue
  | process
  | finaliseIO (status : Status)
  | publish (status : Status) (shuttingDown : Bool)
  | setStopped
  deriving DecidableEq, Repr

def Next.stage : Next → Stage
  | .returns => .outside
  | .checkStop => .checkStop
  | .checkChildren => .checkChildren
  | .checkStopped => .checkStopped
  | .epilogue => .epilogue
  | .process => .process
  | .publish status shuttingDown => .publish status shuttingDown
  | .setStopped => .setStopped

/-- `moved` is not in the source: another thread has changed the state since the thread's last request was settled. -/
structure State (ι : Type) where
  state : LifeCycle.State
  stages : ι → Stage
  moved : ι → Bool

/-- What the step of a thread finds: whether the method throws; whether no reader is left (`checkChildren`), or the
    stream ends (`limits`: an end-of-stream tag, an asynchronous one, or a stalled drain); whether the call returns early,
    for want of samples or of room; a request that the processing function or the epilogue makes, and the result; and
    whether an input fails to consume. -/
structure Choice where
  throws : Bool
  ends : Bool
  returns : Bool
  request : Option LifeCycle.State
  status : Status
  fails : Bool
  deriving DecidableEq, Repr

variable {ι : Type} [DecidableEq ι]

namespace State

def setStage (s : State ι) (i : ι) (stage : Stage) : State ι := { s with stages := Function.update s.stages i stage }

/-- The thread has stored a state. -/
def setState (s : State ι) (i : ι) (newState : LifeCycle.State) : State ι :=
  { s with
    state := newState
    moved := fun j => if j = i then s.moved j else s.moved j || s.state != newState }

/-- The thread's request has changed the state, or has found that it does not. -/
def settle (s : State ι) (i : ι) : State ι := { s with moved := Function.update s.moved i false }

end State

/-- The next access of a thread. -/
def access (implements : Hook → Bool) (s : State ι) (i : ι) (choice : Choice) : Option (State ι) :=
  match s.stages i with
  | .outside => none
  | .changeStateTo newState observed next =>
    match LifeCycle.changeStateTo newState s.state observed with
    | (_, .exchange observed) => some (s.setStage i (.changeStateTo newState (some observed) next))
    | (_, .satisfied _) | (_, .invalid) => some ((s.settle i).setStage i next.stage)
    | (state, .changed oldState) =>
      let s := (s.setState i state).settle i
      match LifeCycle.lifecycleMethod implements oldState newState with
      | some hook => some (s.setStage i (.method hook next))
      | none => some (s.setStage i next.stage)
  | .method _ next => some ((if choice.throws then s.setState i .error else s).setStage i next.stage)
  | .checkPause =>
    some (s.setStage i (if s.state = .requestedPause then .changeStateTo .paused none .checkStop else .checkStop))
  | .checkStop =>
    some (s.setStage i (if s.state = .requestedStop then .changeStateTo .stopped none .checkChildren else .checkChildren))
  | .checkChildren =>
    some (s.setStage i (if choice.ends then .changeStateTo .requestedStop none .checkStopped else .checkStopped))
  | .checkStopped => some (s.setStage i (if s.state = .stopped then .outside else .limits))
  | .limits =>
    some (s.setStage i (if choice.ends ∨ LifeCycle.isShuttingDown s.state then .endOfStream
      else if choice.returns then .outside else .process))
  | .endOfStream => some (s.setStage i (if choice.returns then .outside else .epilogue))
  | .epilogue =>
    match choice.request with
    | some newState => some (s.setStage i (.changeStateTo newState none .epilogue))
    | none => some (s.setStage i (.changeStateTo .requestedStop none .setStopped))
  | .process =>
    match choice.request with
    | some newState => some (s.setStage i (.changeStateTo newState none .process))
    | none => some (s.setStage i ( Stage.finaliseIO choice.status))
  | Stage.finaliseIO status =>
    if LifeCycle.isShuttingDown s.state then
      let status := if status = .error then .error else .done
      some (s.setStage i (.changeStateTo .requestedStop none (.publish status true)))
    else some (s.setStage i (.publish status false))
  | .publish status shuttingDown =>
    match if choice.fails then .error else status with
    | .done => some (s.setStage i (.changeStateTo .requestedStop none .setStopped))
    | .error => some (s.setStage i (if shuttingDown then .changeStateTo .stopped none .returns else .outside))
    | .ok => some (s.setStage i .outside)
  | .setStopped => some ((s.setState i .stopped).setStage i .outside)

/-- A thread requests a state, calls `work()`, or goes on. -/
inductive Act (ι : Type)
  | request (i : ι) (newState : LifeCycle.State)
  | work (i : ι)
  | access (i : ι) (choice : Choice)
  deriving DecidableEq, Repr

def step (implements : Hook → Bool) (s : State ι) : Act ι → Option (State ι)
  | .request i newState =>
    if s.stages i = .outside then some (s.setStage i (.changeStateTo newState none .returns)) else none
  | .work i => if s.stages i = .outside then some (s.setStage i .checkPause) else none
  | .access i choice => access implements s i choice

/-- A block that no thread uses. -/
def system (ι : Type) [DecidableEq ι] (implements : Hook → Bool) : Transition.System (State ι) (Act ι) where
  start s := s = { state := .idle, stages := fun _ => .outside, moved := fun _ => false }
  step := step implements

end GnuRadio.EndOfStream

/-! What a block offers its outputs until its stream ends: the samples and tags of its work calls, and the end-of-stream
    tag of `publishEoS()` (Block.hpp). One thread makes the work calls. Any thread requests a stop. -/

namespace GnuRadio.EndMarker

open EndOfStream (Choice Stage access)

/-- What a connected output is offered: samples, or a tag, of which only the key `end_of_stream` is kept. -/
inductive Offer
  | samples (n : Nat)
  | tag (endOfStream : Bool)
  deriving DecidableEq, Repr

/-- The tag of `publishEoS()`. -/
def marker : Offer := .tag true

/-- The block, what each of its connected outputs was offered, whether its processing function has returned, and whether a
    call of `work()` has returned `DONE`. -/
structure State (ι κ : Type) where
  block : EndOfStream.State ι
  offered : κ → List Offer
  processed : Bool
  done : Bool

/-- A thread requests a stop, or goes on with its request. The thread of the work calls begins one, or goes on with it,
    with what the outputs are offered on the way. -/
inductive Act (ι κ : Type)
  | requestStop (i : ι)
  | goOn (i : ι)
  | work
  | access (choice : Choice) (offers : κ → List Offer)

variable {ι κ : Type} [DecidableEq ι]

/-- No method throws, no input fails to consume, the processing function returns no error, and it and the epilogue
    request a stop only. -/
def errorFree (choice : Choice) : Bool :=
  !choice.throws && !choice.fails && choice.status != .error && (choice.request.all fun newState => newState == .requestedStop)

/-- What a step of a work call offers an output: a stopped block publishes the tags of the settings that wait, the
    processing function and the epilogue publish at any time, and the spans of a call when they are released. Behind the
    forward parameters that have waited comes the marker. -/
def offersAt (state : LifeCycle.State) (stage : Stage) (offers : List Offer) : List Offer :=
  match stage with
  | .checkStopped => if state = .stopped then offers else []
  | .epilogue | .process | .publish _ _ => offers
  | .setStopped => offers ++ [marker]
  | _ => []

/-- The step returns from the processing function. -/
def processesAt (stage : Stage) (choice : Choice) : Bool :=
  match stage with
  | .process => choice.request.isNone
  | _ => false

/-- The step returns `DONE` from `work()`. -/
def doneAt (state : LifeCycle.State) (stage : Stage) : Bool :=
  match stage with
  | .checkStopped => state == .stopped
  | .setStopped => true
  | _ => false

variable (implements : LifeCycle.Hook → Bool) (worker : ι)

def step (s : State ι κ) : Act ι κ → Option (State ι κ)
  | .requestStop i =>
    (EndOfStream.step implements s.block (.request i .requestedStop)).map fun block => { s with block := block }
  | .goOn i =>
    if i = worker then none
    else (access implements s.block i ⟨false, false, false, none, .ok, false⟩).map fun block => { s with block := block }
  | .work => (EndOfStream.step implements s.block (.work worker)).map fun block => { s with block := block }
  | .access choice offers =>
    if errorFree choice then
      (access implements s.block worker choice).map fun block =>
        { block
          offered := fun port => s.offered port ++ offersAt s.block.state (s.block.stages worker) (offers port)
          processed := s.processed || processesAt (s.block.stages worker) choice
          done := s.done || doneAt s.block.state (s.block.stages worker) }
    else none

/-- A block that runs. -/
def system (ι κ : Type) [DecidableEq ι] (implements : LifeCycle.Hook → Bool) (worker : ι) :
    Transition.System (State ι κ) (Act ι κ) where
  start s := s =
    { block := { state := .running, stages := fun _ => .outside, moved := fun _ => false }
      offered := fun _ => []
      processed := false
      done := false }
  step := step implements worker

end GnuRadio.EndMarker
