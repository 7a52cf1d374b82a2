import GnuRadio.LifeCycle

/-! The runs of a `Runtime` (`core/src/Runtime.cpp`): `start()`, `runAndWait()`, `stop()`, `stopFor()`, `waitFor()`,
    `result()` and the destructor on any threads, with the thread of a run and the thread of a stop request. A step is a
    section under `runMutex`, the return of the scheduler's call, an access to the scheduler's state, or a change of that
    state by anything else.

    The scheduler's `runAndWait()` returns once its state has left the active ones: `activity` follows the state through
    the call, and a state that has left them does not come back before the call returns. -/

namespace GnuRadio.Runtime

open LifeCycle (isActive)

/-- How a caller of `stopRun()` waits for the end of the run. -/
inductive Wait
  | forever
  | timeout
  | destructor
  deriving DecidableEq, Repr

/-- Where a stop request stands: before a turn of its loop, before an access of `changeStateTo` (with the state it
    observed), in the scheduler's `stop()`, or before it locks `runMutex` again. -/
inductive Stage
  | poll
  | transition (observed : Option LifeCycle.State)
  | hook
  | moved
  deriving DecidableEq, Repr

/-- Where a thread stands. A run is on its caller's thread or on one of its own, and a stop request as well. -/
inductive Thread (ε : Type)
  | unborn
  | idle
  | inRun (run : Nat) (onCaller : Bool)
  | leaving (run : Nat) (onCaller : Bool) (result : Option ε)
  | ending (run : Nat) (onCaller : Bool) (result : Option ε)
  | starting (run : Nat)
  | requesting (run : Nat) (stage : Stage) (caller : Option Wait)
  | awaiting (run : Nat) (wait : Wait)
  | joining
  | exited
  deriving DecidableEq, Repr

/-- The state of the scheduler through its call: not active yet, active, or active no more. -/
inductive Activity
  | starting
  | active
  | left
  deriving DecidableEq, Repr

/-- `requests` lists the runs whose stop was requested, `moved` those whose request has made its transition or given up,
    and `results` the results of the runs that ended. `inCall` is the run whose scheduler call is in progress. -/
structure State (τ ε : Type) where
  threads : τ → Thread ε
  runThread : Option τ := none
  stopThread : Option τ := none
  nRunsStarted : Nat := 0
  nRunsReturned : Nat := 0
  nRunsEnded : Nat := 0
  stoppedRun : Nat := 0
  requestingStop : Bool := false
  lastResult : Option ε := none
  state : LifeCycle.State := .idle
  activity : Activity := .starting
  inCall : Option Nat := none
  nCalls : Nat := 0
  destroyed : Bool := false
  requests : List Nat := []
  moved : List Nat := []
  results : List (Option ε) := []

inductive Act (τ ε : Type)
  | runAndWait (t : τ)
  /-- `start()`, with the thread that it starts or the error of `std::thread`. -/
  | start (t : τ) (thread : Except ε τ)
  /-- The end of `start()`'s wait. -/
  | started (t : τ)
  /-- The scheduler's call returns, and the blocks' settings are refreshed. -/
  | runReturns (t : τ) (result : Option ε)
  | endRun (t : τ)
  /-- The end of `endRun()`'s wait for a stop request. -/
  | requestReturned (t : τ)
  /-- `stop()`, `stopFor()` or the destructor, with the thread of the request, none where it cannot start. -/
  | stop (t : τ) (wait : Wait) (thread : Option τ)
  | poll (t : τ)
  | access (t : τ)
  | hook (t : τ) (throws : Bool)
  | relock (t : τ)
  /-- The end of the wait in `stopRun()`, with its answer. -/
  | stopped (t : τ) (answer : Bool)
  | join (t : τ)
  | waitFor (t : τ) (answer : Bool)
  | result (t : τ)
  /-- A change of the scheduler's state by the scheduler or by a message. -/
  | scheduler (state : LifeCycle.State)

variable {τ ε : Type} [DecidableEq τ] [DecidableEq ε]

namespace State

def runInProgress (s : State τ ε) : Bool := s.nRunsEnded != s.nRunsStarted

/-- `result()`, none while the run has not ended. -/
def result (s : State τ ε) : Option (Option ε) := if s.runInProgress then none else some s.lastResult

def setThread (s : State τ ε) (t : τ) (thread : Thread ε) : State τ ε :=
  { s with threads := Function.update s.threads t thread }

/-- The scheduler's state changes. -/
def setState (s : State τ ε) (state : LifeCycle.State) : State τ ε :=
  { s with
    state
    activity := if isActive state then .active else if s.activity = .active then .left else s.activity }

/-- A run begins: its scheduler call reads the state that it finds. -/
def beginRun (s : State τ ε) : State τ ε :=
  { s with
    nRunsStarted := s.nRunsStarted + 1
    inCall := some (s.nRunsStarted + 1)
    activity := if isActive s.state then .active else .starting }

/-- The end of `endRun()`. -/
def finishRun (s : State τ ε) (t : τ) (onCaller : Bool) (result : Option ε) : State τ ε :=
  { s.setThread t (if onCaller then .idle else .exited) with
    lastResult := result
    nRunsEnded := s.nRunsEnded + 1
    nCalls := if onCaller then s.nCalls - 1 else s.nCalls
    results := s.results ++ [result] }

/-- A stop request begins on a thread of its own, or on its caller's. -/
def request (s : State τ ε) (t : τ) (wait : Wait) (thread : Option τ) : State τ ε :=
  let run := s.nRunsStarted
  let s := { s with stoppedRun := run, requestingStop := true, requests := s.requests ++ [run] }
  match thread with
  | some thread =>
    { (s.setThread t (.awaiting run wait)).setThread thread (.requesting run .poll none) with
      stopThread := some thread }
  | none => { s.setThread t (.requesting run .poll (some wait)) with stopThread := none }

/-- A stop request ends under `runMutex`. -/
def finishRequest (s : State τ ε) (t : τ) (run : Nat) (caller : Option Wait) : State τ ε :=
  { s.setThread t (match caller with | some wait => .awaiting run wait | none => .exited) with
    requestingStop := false
    moved := run :: s.moved }

/-- A thread that is to be joined has ended. A join of another one blocks. -/
def joins (s : State τ ε) (thread : Option τ) : Bool :=
  match thread with
  | some t => s.threads t == .exited
  | none => true

/-- A thread object that has not begun. -/
def canSpawn (s : State τ ε) (thread t : τ) : Bool := s.threads thread == .unborn && decide (thread ≠ t)

end State

/-- A call on the runtime may begin. -/
def callable (s : State τ ε) (t : τ) : Bool := s.threads t == .idle && !s.destroyed

def startStep (s : State τ ε) (t : τ) (thread : Except ε τ) : Option (State τ ε) :=
  if s.runInProgress then some s
  else if s.joins s.runThread then
    match thread with
    | .ok thread =>
      if s.canSpawn thread t then
        some
          { (s.beginRun.setThread t (.starting (s.nRunsStarted + 1))).setThread thread
              (.inRun (s.nRunsStarted + 1) false) with
            runThread := some thread
            nCalls := s.nCalls + 1 }
      else none
    | .error error =>
      some
        { s with
          runThread := none
          nRunsStarted := s.nRunsStarted + 1
          lastResult := some error
          nRunsReturned := s.nRunsReturned + 1
          nRunsEnded := s.nRunsEnded + 1
          results := s.results ++ [some error] }
  else none

def stopStep (s : State τ ε) (t : τ) (wait : Wait) (thread : Option τ) : Option (State τ ε) :=
  let called : State τ ε := { s with nCalls := s.nCalls + 1, destroyed := wait == Wait.destructor }
  if s.runInProgress && s.stoppedRun != s.nRunsStarted then
    if s.joins s.stopThread && thread.all (s.canSpawn · t) then some (called.request t wait thread) else none
  else some (called.setThread t (.awaiting s.nRunsStarted wait))

def pollStep (s : State τ ε) (t : τ) (run : Nat) (caller : Option Wait) : State τ ε :=
  if run ≤ s.nRunsReturned then s.finishRequest t run caller
  else if isActive s.state then s.setThread t (.requesting run (.transition none) caller)
  else s

def accessStep (s : State τ ε) (t : τ) (run : Nat) (observed : Option LifeCycle.State) (caller : Option Wait) :
    State τ ε :=
  match LifeCycle.changeStateTo .requestedStop s.state observed with
  | (_, .exchange observed) => s.setThread t (.requesting run (.transition (some observed)) caller)
  | (state, .changed _) => (s.setState state).setThread t (.requesting run .hook caller)
  | _ => s.setThread t (.requesting run .moved caller)

def step (s : State τ ε) : Act τ ε → Option (State τ ε)
  | .runAndWait t =>
    if callable s t then
      if s.runInProgress then some s
      else some { s.beginRun.setThread t (.inRun (s.nRunsStarted + 1) true) with nCalls := s.nCalls + 1 }
    else none
  | .start t thread => if callable s t then startStep s t thread else none
  | .started t =>
    match s.threads t with
    | .starting run =>
      if isActive s.state || decide (run ≤ s.nRunsReturned) then
        some { s.setThread t .idle with nCalls := s.nCalls - 1 }
      else none
    | _ => none
  | .runReturns t result =>
    match s.threads t with
    | .inRun run onCaller => some { s.setThread t (.leaving run onCaller result) with inCall := none }
    | _ => none
  | .endRun t =>
    match s.threads t with
    | .leaving run onCaller result =>
      let s := { s with nRunsReturned := s.nRunsReturned + 1 }
      some (if s.requestingStop then s.setThread t (.ending run onCaller result) else s.finishRun t onCaller result)
    | _ => none
  | .requestReturned t =>
    match s.threads t with
    | .ending _ onCaller result => if s.requestingStop then none else some (s.finishRun t onCaller result)
    | _ => none
  | .stop t wait thread =>
    if callable s t && (wait != .destructor || s.nCalls == 0) then stopStep s t wait thread else none
  | .poll t =>
    match s.threads t with
    | .requesting run .poll caller => some (pollStep s t run caller)
    | _ => none
  | .access t =>
    match s.threads t with
    | .requesting run (.transition observed) caller => some (accessStep s t run observed caller)
    | _ => none
  | .hook t throws =>
    match s.threads t with
    | .requesting run .hook caller =>
      some ((if throws then s.setState .error else s).setThread t (.requesting run .moved caller))
    | _ => none
  | .relock t =>
    match s.threads t with
    | .requesting run .moved caller => some (s.finishRequest t run caller)
    | _ => none
  | .stopped t answer =>
    match s.threads t with
    | .awaiting run wait =>
      if answer = decide (run ≤ s.nRunsEnded) ∧ (answer ∨ wait = .timeout) then
        if wait = .destructor then some (s.setThread t .joining)
        else some { s.setThread t .idle with nCalls := s.nCalls - 1 }
      else none
    | _ => none
  | .join t =>
    if s.threads t = .joining ∧ s.joins s.runThread ∧ s.joins s.stopThread then
      some { s.setThread t .idle with runThread := none, stopThread := none }
    else none
  | .waitFor t answer => if callable s t ∧ (answer → !s.runInProgress) then some s else none
  | .result t => if callable s t then some s else none
  | .scheduler state =>
    if s.inCall.isSome && s.activity == .left && isActive state then none else some (s.setState state)

/-- A runtime that has run nothing, on threads that have not begun or are free to call it. -/
def system (τ ε : Type) [DecidableEq τ] [DecidableEq ε] : Transition.System (State τ ε) (Act τ ε) where
  start s := ∃ threads, (∀ t, threads t = .unborn ∨ threads t = .idle) ∧ s = { threads, state := s.state }
  step := step

end GnuRadio.Runtime
