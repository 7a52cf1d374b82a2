import GnuRadio.Graph.FeedbackLoops

/-! A graph swap of an active multi-threaded scheduler (`exchange()` and `restoreRun()` in Scheduler.hpp) next to stop
    requests from other threads: one atomic access or one section under `_runMutex` a step. -/

namespace GnuRadio.Swap

open LifeCycle (isActive isShuttingDown)

/-- The state, the run record, and the workers that are counted, each by the generation it was dispatched with. -/
structure Run where
  state : LifeCycle.State
  generation : Nat
  restoredFrom : Option Nat
  workers : List Nat
  deriving DecidableEq, Repr

namespace Run

def advanceRunGeneration (r : Run) : Run := { r with generation := r.generation + 1 }

/-- A restart by `restoreRun()` that saw no start or stop since its own stop, other than the start it runs itself. -/
def restoring (r : Run) : Bool :=
  match r.restoredFrom with
  | some restored => r.generation == restored || r.generation == restored + 1
  | none => false

/-- One access of `changeStateTo`. -/
def changeStateTo (newState : LifeCycle.State) (r : Run) (observed : Option LifeCycle.State) :
    Run × LifeCycle.Outcome :=
  let (state, outcome) := LifeCycle.changeStateTo newState r.state observed
  ({ r with state := state }, outcome)

end Run

/-! ### A stop request -/

/-- Where a call of `changeStateTo(REQUESTED_STOP)` stands: in its loop, in `transitionSatisfied`, or in `stop()`, which
    ends with `changeStateTo(STOPPED)`. `nested` is a request that `transitionSatisfied` makes; its own result is
    dropped. -/
inductive StopRequest
  | claim (nested : Bool) (observed : Option LifeCycle.State)
  | transitionSatisfied (satisfiedBy : LifeCycle.State)
  | advanceRunGeneration
  | readState
  | stopped (observed : Option LifeCycle.State)
  | done (success : Bool)
  deriving DecidableEq, Repr

namespace StopRequest

def afterClaim (nested : Bool) : LifeCycle.Outcome → StopRequest
  | .exchange observed => .claim nested (some observed)
  | .satisfied oldState => .transitionSatisfied oldState
  | .invalid => .done nested
  | .changed _ => .advanceRunGeneration

def afterStopped : LifeCycle.Outcome → StopRequest
  | .exchange observed => .stopped (some observed)
  | .satisfied _ | .invalid | .changed _ => .done true

def step (r : Run) : StopRequest → Option (Run × StopRequest)
  | .claim nested observed =>
    let (r, outcome) := r.changeStateTo .requestedStop observed
    some (r, afterClaim nested outcome)
  | .transitionSatisfied satisfiedBy =>
    if r.state = satisfiedBy ∨ isShuttingDown r.state then some (r.advanceRunGeneration, .done true)
    else if r.restoring then some (r.advanceRunGeneration, .claim true none)
    else some (r, .done true)
  | .advanceRunGeneration => some (r.advanceRunGeneration, .readState)
  | .readState => some (r, if r.state = .error then .done true else .stopped none)
  | .stopped observed =>
    let (r, outcome) := r.changeStateTo .stopped observed
    some (r, afterStopped outcome)
  | .done _ => none

end StopRequest

/-! ### The swap -/

/-- What the swap remembers of its own stop. `claimed` is not in the source: the compare-exchange to `REQUESTED_STOP`
    was the swap's own. -/
structure OwnStop where
  oldState : LifeCycle.State
  ownGeneration : Nat
  claimed : Bool
  deriving DecidableEq, Repr

/-- Where the swap stands. In order: its own stop, up to the swap of the graph, and `restoreRun()` with its changes of
    the state, the start among them. -/
inductive Exchange
  | idle
  | readGeneration (oldState : LifeCycle.State)
  | stop (o : OwnStop) (request : StopRequest)
  | waitDone (o : OwnStop)
  | readState (o : OwnStop)
  | stopped (o : OwnStop) (observed : Option LifeCycle.State)
  | recordRestore (o : OwnStop)
  | initialise (o : OwnStop) (observed : Option LifeCycle.State)
  | compareGeneration (o : OwnStop)
  | stopAgain (request : StopRequest)
  | run (o : OwnStop) (observed : Option LifeCycle.State)
  | start (o : OwnStop)
  | startWaitDone (o : OwnStop) (workerGeneration : Nat)
  | startSweep (o : OwnStop) (workerGeneration : Nat)
  | dispatch (o : OwnStop) (workerGeneration : Nat)
  | requestPause (o : OwnStop) (observed : Option LifeCycle.State)
  | pause (o : OwnStop)
  | pausePaused (o : OwnStop) (observed : Option LifeCycle.State)
  | paused (o : OwnStop) (observed : Option LifeCycle.State)
  deriving DecidableEq, Repr

namespace Exchange

def afterOwnStop (o : OwnStop) : StopRequest → Exchange
  | .done true => .waitDone o
  | .done false => .idle
  | .advanceRunGeneration => .stop { o with claimed := true } .advanceRunGeneration
  | request => .stop o request

def afterStopAgain : StopRequest → Exchange
  | .done _ => .idle
  | request => .stopAgain request

/-- `restoreRun` once the scheduler runs: the pause the run had comes next. -/
def afterRun (o : OwnStop) : Exchange :=
  if o.oldState = .requestedPause ∨ o.oldState = .paused then .requestPause o none else .idle

def afterPause (o : OwnStop) : Exchange := if o.oldState = .paused then .paused o none else .idle

def onStopped (o : OwnStop) : LifeCycle.Outcome → Exchange
  | .exchange observed => .stopped o (some observed)
  | .satisfied _ | .changed _ => .recordRestore o
  | .invalid => .idle

def onInitialised (o : OwnStop) : LifeCycle.Outcome → Exchange
  | .exchange observed => .initialise o (some observed)
  | .satisfied _ | .changed _ => .compareGeneration o
  | .invalid => .idle

def onRunning (o : OwnStop) : LifeCycle.Outcome → Exchange
  | .exchange observed => .run o (some observed)
  | .changed oldState => if oldState = .initialised then .start o else afterRun o
  | .satisfied _ => afterRun o
  | .invalid => .idle

def onRequestedPause (o : OwnStop) : LifeCycle.Outcome → Exchange
  | .exchange observed => .requestPause o (some observed)
  | .changed _ => .pause o
  | .satisfied _ => afterPause o
  | .invalid => .idle

def onPausePaused (o : OwnStop) : LifeCycle.Outcome → Exchange
  | .exchange observed => .pausePaused o (some observed)
  | .satisfied _ | .changed _ | .invalid => afterPause o

def onPaused (o : OwnStop) : LifeCycle.Outcome → Exchange
  | .exchange observed => .paused o (some observed)
  | .satisfied _ | .changed _ | .invalid => .idle

/-- One access of a `changeStateTo`, and where its outcome leads. -/
def change (newState : LifeCycle.State) (r : Run) (observed : Option LifeCycle.State)
    (next : LifeCycle.Outcome → Exchange) : Run × Exchange :=
  let (r, outcome) := r.changeStateTo newState observed
  (r, next outcome)

/-- A step; `nWorkers` workers are dispatched at a time. The waits for the workers inside `reset()` and the sweeps over
    the blocks change nothing here. -/
def step (nWorkers : Nat) (r : Run) : Exchange → Option (Run × Exchange)
  | .idle => none
  | .readGeneration oldState => some (r, .stop ⟨oldState, r.generation + 1, false⟩ (.claim false none))
  | .stop o request => (request.step r).map fun (r, request) => (r, afterOwnStop o request)
  | .waitDone o => if r.workers = [] then some (r, .readState o) else none
  | .readState o => some (r, if r.state ≠ .error then .stopped o none else .recordRestore o)
  | .stopped o observed => some (change .stopped r observed (onStopped o))
  | .recordRestore o => some ({ r with restoredFrom := some o.ownGeneration }, .initialise o none)
  | .initialise o observed => some (change .initialised r observed (onInitialised o))
  | .compareGeneration o =>
    some (r, if r.generation ≠ o.ownGeneration then .stopAgain (.claim false none) else .run o none)
  | .stopAgain request => (request.step r).map fun (r, request) => (r, afterStopAgain request)
  | .run o observed => some (change .running r observed (onRunning o))
  | .start o => some (r.advanceRunGeneration, .startWaitDone o (r.generation + 1))
  | .startWaitDone o g => if r.workers = [] then some (r, .startSweep o g) else none
  | .startSweep o g => some (r, if isShuttingDown r.state then afterRun o else .dispatch o g)
  | .dispatch o g => some ({ r with workers := r.workers ++ List.replicate nWorkers g }, afterRun o)
  | .requestPause o observed => some (change .requestedPause r observed (onRequestedPause o))
  | .pause o => some (r, if r.state ≠ .requestedPause then afterPause o else .pausePaused o none)
  | .pausePaused o observed => some (change .paused r observed (onPausePaused o))
  | .paused o observed => some (change .paused r observed (onPaused o))

end Exchange

/-! ### The threads -/

variable {ι : Type}

/-- `returned` is not in the source: a stop request has returned. -/
structure State (ι : Type) where
  run : Run
  swap : Exchange
  requests : ι → Option StopRequest
  returned : Bool

/-- A thread requests a stop, and goes on with it; the swap begins, and goes on; a worker leaves. -/
inductive Act (ι : Type)
  | request (i : ι)
  | stop (i : ι)
  | exchange
  | swap
  | leave (k : Nat)
  deriving DecidableEq, Repr

variable [DecidableEq ι]

/-- A thread without a request makes one, and a swap follows the one before it. A swap that reads an inactive state
    exchanges the graph and changes nothing here. A worker may leave at any time, since its blocks may be done. -/
def step (nWorkers : Nat) (s : State ι) : Act ι → Option (State ι)
  | .request i =>
    if s.requests i = none then
      some { s with requests := Function.update s.requests i (some (.claim false none)) }
    else none
  | .stop i => (s.requests i).bind fun request => (request.step s.run).map fun
    | (run, .done success) =>
      { s with run := run, requests := Function.update s.requests i none, returned := s.returned || success }
    | (run, request) => { s with run := run, requests := Function.update s.requests i (some request) }
  | .exchange =>
    if s.swap = .idle then
      some { s with swap := if isActive s.run.state then .readGeneration s.run.state else .idle }
    else none
  | .swap => (s.swap.step nWorkers s.run).map fun (run, swap) => { s with run := run, swap := swap }
  | .leave k =>
    if k < s.run.workers.length then some { s with run := { s.run with workers := s.run.workers.eraseIdx k } }
    else none

/-- An active scheduler that nobody has asked to stop. -/
structure Start (s : State ι) : Prop where
  active : isActive s.run.state = true
  workers : ∀ g ∈ s.run.workers, g ≤ s.run.generation
  swap : s.swap = .idle
  requests : ∀ i, s.requests i = none
  returned : s.returned = false

def system (nWorkers : Nat) : Transition.System (State ι) (Act ι) where
  start := Start
  step := step nWorkers

end GnuRadio.Swap

/-! How a scheduler starts, pauses and resumes its graph (`start()`, `pause()`, `resume()` and `connectPendingEdges()` in
    Scheduler.hpp), as far as the edges, the rings and the states of the blocks are concerned. A sub-scheduler among the
    blocks runs the same on the graph that it wraps. Start, pause and resume hold off the workers, so each is one step. -/

namespace GnuRadio.Resume
open Graph

variable {α β ι ω : Type}

/-- `changeStateTo()` on a block. -/
def changeStateTo (target : LifeCycle.State) (s : State α β ι ω) (b : Block ι ω) : State α β ι ω :=
  if LifeCycle.isValidTransition (s.blockState b.uniqueName) target then
    { s with blockState := Function.update s.blockState b.uniqueName target }
  else s

/-- `pause()`: a block that blocks settles in `paused` when a worker calls it. -/
def pause (s : State α β ι ω) : State α β ι ω :=
  let blocking := (s.graph.forEachBlock.filter (·.isBlocking)).foldl (changeStateTo .requestedPause) s
  let moveToPaused (s : State α β ι ω) (b : Block ι ω) : State α β ι ω :=
    changeStateTo .paused (changeStateTo .requestedPause s b) b
  (s.graph.forEachBlock.filter fun b => !b.isBlocking).foldl moveToPaused blocking

/-- `failStart()` stops the blocks. -/
def failStart (s : State α β ι ω) : State α β ι ω :=
  let stop (s : State α β ι ω) (b : Block ι ω) : State α β ι ω :=
    changeStateTo .stopped (changeStateTo .requestedStop s b) b
  s.graph.forEachBlock.foldl stop s

section Connect
variable [DecidableEq ι] [DecidableEq ω] [Fintype ι] [Fintype ω] (c : Config ι ω)

def disconnectAllEdges (s : State α β ι ω) : State α β ι ω :=
  s.graph.withGroups.foldl State.disconnectAllEdges s

def primeFeedbackPorts [Inhabited α] (s : State α β ι ω) : State α β ι ω :=
  (detectFeedbackLoops c s.graph).foldl primeFeedbackLoop s

/-- Connects the pending edges of the graph and of its transparent groups and primes the feedback loops. -/
def connectPendingEdges [Inhabited α] (s : State α β ι ω) : State α β ι ω :=
  primeFeedbackPorts c (s.graph.withGroups.foldl (State.connectPendingEdges c) s)

/-- The edges that did not connect. -/
def unconnected (s : State α β ι ω) : List (Edge ι ω) :=
  s.graph.forEachEdge.filter fun e => decide (s.edgeState e = .errorConnecting ∨ s.edgeState e = .portNotFound ∨
    s.edgeState e = .incompatiblePorts)

/-- `resume()`, and what `start()` does after it has disconnected all edges. -/
def resume [Inhabited α] (s : State α β ι ω) : State α β ι ω :=
  let connected := connectPendingEdges c s
  if unconnected connected = [] then connected.graph.forEachBlock.foldl (changeStateTo .running) connected
  else failStart connected

def start [Inhabited α] (s : State α β ι ω) : State α β ι ω := resume c (disconnectAllEdges s)

/-- A pause and the resume that ends it. -/
def cycle [Inhabited α] (s : State α β ι ω) : State α β ι ω := resume c (pause s)

end Connect

end GnuRadio.Resume
