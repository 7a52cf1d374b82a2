import GnuRadio.LifeCycle

/-! Commands that a worker of a scheduler handles in one message batch, and the swap or restart they leave to it
    (`exchange()`, `deferStart()`, `releaseWorkerCount()` and `applyPendingExchange()` in Scheduler.hpp). No hook
    throws, and no other thread changes the state meanwhile. -/

namespace GnuRadio.Deferred

open LifeCycle (isActive isShuttingDown isSatisfiedTransition isValidTransition)

variable {γ θ : Type}

/-- The one record of a swap, with a graph, or a restart, to be applied by the worker that requested it. -/
structure PendingExchange (γ θ : Type) where
  graph : Option γ
  restart : Bool
  generation : Nat
  requester : θ
  claimed : Bool
  deriving DecidableEq, Repr

/-- `workers` is the generation of the workers that are counted. -/
structure Scheduler (γ θ : Type) where
  graph : γ
  state : LifeCycle.State
  generation : Nat
  pendingExchange : Option (PendingExchange γ θ)
  workers : Option Nat
  deriving DecidableEq, Repr

namespace Scheduler

/-- Workers of the latest generation run the graph. -/
def InProgress (s : Scheduler γ θ) : Prop := isActive s.state = true ∧ s.workers = some s.generation

instance (s : Scheduler γ θ) : Decidable s.InProgress := inferInstanceAs (Decidable (_ ∧ _))

def advanceRunGeneration (s : Scheduler γ θ) : Scheduler γ θ := { s with generation := s.generation + 1 }

/-- The workers of an earlier generation leave. -/
def waitDone (s : Scheduler γ θ) : Scheduler γ θ :=
  if s.workers = some s.generation then s else { s with workers := none }

/-- A start on a worker joins the record there is, or makes one. -/
def deferStart (thread : θ) (s : Scheduler γ θ) : Scheduler γ θ :=
  { s with pendingExchange := some (match s.pendingExchange with
    | some p => { p with restart := true, generation := s.generation, requester := thread }
    | none => ⟨none, true, s.generation, thread, false⟩) }

/-- The hook of `RUNNING`. `worker` is the worker of the scheduler that makes the call, if one does. -/
def start (worker : Option θ) (s : Scheduler γ θ) : Scheduler γ θ :=
  match worker with
  | some thread => s.deferStart thread
  | none =>
    let s := s.advanceRunGeneration.waitDone
    if isShuttingDown s.state then s else { s with workers := some s.generation }

/-- The hook of `REQUESTED_STOP`. -/
def stop (s : Scheduler γ θ) : Scheduler γ θ :=
  let s := s.advanceRunGeneration
  if s.state ≠ .error then { s with state := .stopped } else s

/-- The hook of `REQUESTED_PAUSE`. -/
def pause (s : Scheduler γ θ) : Scheduler γ θ :=
  if s.state = .requestedPause then { s with state := .paused } else s

/-- The state that the request read still satisfies it. -/
def transitionSatisfied (requested : LifeCycle.State) (s : Scheduler γ θ) : Scheduler γ θ :=
  if requested = .requestedStop then s.advanceRunGeneration else s

/-- The hook that follows on a change of the state. `init()`, `reset()` and `resume()` change nothing here. -/
def invokeLifecycleMethod (worker : Option θ) (oldState newState : LifeCycle.State) (s : Scheduler γ θ) :
    Scheduler γ θ :=
  if oldState = .initialised ∧ newState = .running then s.start worker
  else if newState = .requestedStop ∨ (newState = .error ∧ isActive oldState) then s.stop
  else if newState = .requestedPause then s.pause
  else s

/-- The scheduler after the request, and whether it was valid. -/
def changeStateTo (worker : Option θ) (newState : LifeCycle.State) (s : Scheduler γ θ) : Scheduler γ θ × Bool :=
  if isSatisfiedTransition s.state newState then (s.transitionSatisfied newState, true)
  else if isValidTransition s.state newState then
    ({ s with state := newState }.invokeLifecycleMethod worker s.state newState, true)
  else (s, false)

/-- Restarts the run that the swap stopped, unless the generation is another one by now. -/
def restoreRun (ownStopGeneration : Nat) (runState : LifeCycle.State) (s : Scheduler γ θ) : Scheduler γ θ × Bool :=
  match s.changeStateTo none .initialised with
  | (s, false) => (s, false)
  | (s, true) =>
    if s.generation ≠ ownStopGeneration then ((s.changeStateTo none .requestedStop).1, true)
    else match s.changeStateTo none .running with
      | (s, false) => (s, isShuttingDown s.state)
      | (s, true) =>
        if runState = .requestedPause ∨ runState = .paused then
          match s.changeStateTo none .requestedPause with
          | (s, false) => (s, false)
          | (s, true) => if runState = .paused then s.changeStateTo none .paused else (s, true)
        else (s, true)

/-- A swap on a worker: the stop of an active scheduler, and the record in place of the one there was. -/
def deferExchange (thread : θ) (newGraph : γ) (s : Scheduler γ θ) : Scheduler γ θ × Bool :=
  let restart := isActive s.state
  let ownGeneration := if restart then s.generation + 1 else 0
  match if restart then s.changeStateTo (some thread) .requestedStop else (s, true) with
  | (s, false) => (s, false)
  | (s, true) =>
    let joinsClaim := s.pendingExchange.any (·.claimed)
    ({ s with pendingExchange := some ⟨some newGraph, restart, ownGeneration, thread, joinsClaim⟩ }, true)

/-- The own stop of a swap on another thread, with the wait for the workers. -/
def stopForSwap (s : Scheduler γ θ) : Scheduler γ θ × Bool :=
  match s.changeStateTo none .requestedStop with
  | (s, false) => (s, false)
  | (s, true) => if s.waitDone.state ≠ .error then s.waitDone.changeStateTo none .stopped else (s.waitDone, true)

def exchange (worker : Option θ) (newGraph : γ) (s : Scheduler γ θ) : Scheduler γ θ × Bool :=
  match worker with
  | some thread => s.deferExchange thread newGraph
  | none =>
    let oldState := s.state
    let ownGeneration := s.generation + 1
    match if isActive oldState then s.stopForSwap else (s, true) with
    | (s, false) => (s, false)
    | (s, true) =>
      let s := { s with graph := newGraph }
      if isActive oldState then s.restoreRun ownGeneration oldState else (s, true)

/-- A restart without a swap. An unchanged generation runs the start. -/
def applyDeferredStart (generation : Nat) (s : Scheduler γ θ) : Scheduler γ θ :=
  if s.generation = generation ∧ s.state = .running then s.start none
  else if isActive s.state then (s.changeStateTo none .requestedStop).1
  else s

def applyPendingExchange (s : Scheduler γ θ) : Scheduler γ θ :=
  let s := s.waitDone
  match s.pendingExchange with
  | none => s
  | some pending =>
    let s := { s with pendingExchange := none }
    match pending.graph with
    | none => s.applyDeferredStart pending.generation
    | some graph =>
      let s := if s.state = .requestedStop then (s.changeStateTo none .stopped).1 else s
      let restoredByExchange := isActive s.state
      match s.exchange none graph with
      | (s, false) => s
      | (s, true) =>
        if pending.restart && !restoredByExchange && !isActive s.state then
          (s.restoreRun pending.generation .running).1
        else s

variable [DecidableEq θ]

/-- A worker leaves. It claims the record that it requested, and applies it once its own count is released. -/
def releaseWorkerCount (thread : θ) (s : Scheduler γ θ) : Scheduler γ θ :=
  match s.pendingExchange with
  | none => s
  | some p =>
    if !p.claimed && p.requester = thread then
      { s with pendingExchange := some { p with claimed := true } }.applyPendingExchange
    else s

end Scheduler

/-! ### Commands -/

/-- A Set of `GraphGRC`, and the life-cycle commands `REQUESTED_STOP`, `INITIALISED` and `RUNNING`. -/
inductive Command (γ : Type)
  | exchange (graph : γ)
  | stop
  | reset
  | start
  deriving DecidableEq, Repr

/-- The handler of one command, on a worker or on another thread. A refused command is answered with an error. -/
def handle (worker : Option θ) (s : Scheduler γ θ) : Command γ → Scheduler γ θ
  | .exchange graph => (s.exchange worker graph).1
  | .stop => (s.changeStateTo worker .requestedStop).1
  | .reset => (s.changeStateTo worker .initialised).1
  | .start => (s.changeStateTo worker .running).1

variable [DecidableEq θ]

/-- A message batch that a worker handles. The worker leaves where the generation is another one after it. -/
def batch (thread : θ) (commands : List (Command γ)) (s : Scheduler γ θ) : Scheduler γ θ :=
  let t := commands.foldl (handle (some thread)) s
  if t.generation = s.generation then t else t.releaseWorkerCount thread

omit [DecidableEq θ] in
/-- Each command carried out completely before the next one, by a thread that defers nothing. -/
def oneByOne (commands : List (Command γ)) (s : Scheduler γ θ) : Scheduler γ θ :=
  commands.foldl (handle none) s

end GnuRadio.Deferred
