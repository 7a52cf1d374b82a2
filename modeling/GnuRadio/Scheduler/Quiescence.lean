import GnuRadio.Library.Fair

/-! Work quiescence of a scheduler (`callAsWork()` and `awaitWorkQuiescence()` in Scheduler.hpp): threads that run
    traversals, and threads that keep them out. One access of a counter a step, in any order. -/

namespace GnuRadio.Quiescence

/-- The counters that the threads share. -/
structure Counters where
  nWorkQuiescenceRequests : Nat
  nWorkersInWork : Nat
  nInWorkRequests : Nat
  deriving DecidableEq, Repr

/-- A request that is counted, or about to be. The condition of its loop reads `_nWorkersInWork` and `nCallsAllowed()`
    in an order that the language leaves open. -/
inductive Await
  | countRequest
  | condition
  | workersRead (n : Nat)
  | callsAllowed (n : Nat)
  deriving DecidableEq, Repr

/-- Where a thread stands. In `callAsWork()`: its first load, its count, its second load, the call, and the end of its
    count. In `awaitWorkQuiescence(fromOwnWork)`: the two accesses of `_nInWorkRequests` around the wait are made only
    from inside a call. -/
inductive Stage
  | outside
  | load
  | countWorker
  | loadAgain
  | inCall
  | leaveWork
  | countInWork
  | await (fromOwnWork : Bool) (wait : Await)
  | uncountInWork
  deriving DecidableEq, Repr

namespace Stage

/-- `workingScheduler()` on the thread is this scheduler: `callAsWork()` sets it around the call. -/
def working : Stage → Bool
  | .inCall | .countInWork | .await true _ | .uncountInWork => true
  | .outside | .load | .countWorker | .loadAgain | .leaveWork | .await false _ => false

def callAsWork : Stage := .load

def awaitWorkQuiescence (fromOwnWork : Bool) : Stage :=
  if fromOwnWork then .countInWork else .await false .countRequest

def requestWorkQuiescence : Stage := awaitWorkQuiescence false

def requestQuiescenceOfOtherWork (s : Stage) : Stage := awaitWorkQuiescence s.working

end Stage

/-- A thread, with the requests it has made outside work and inside, and not yet released. -/
structure Thread where
  stage : Stage
  heldOutside : Nat
  heldInWork : Nat
  deriving DecidableEq, Repr

namespace Thread

def setStage (t : Thread) (stage : Stage) : Thread := { t with stage := stage }

/-- The loop of a request is over. -/
def afterWait (t : Thread) (fromOwnWork : Bool) : Thread :=
  if fromOwnWork then t.setStage .uncountInWork else { t with stage := .outside, heldOutside := t.heldOutside + 1 }

/-- The condition of the loop. -/
def compare (t : Thread) (fromOwnWork : Bool) (workersInWork callsAllowed : Nat) : Thread :=
  if workersInWork > callsAllowed then t.setStage (.await fromOwnWork .condition) else t.afterWait fromOwnWork

end Thread

def Counters.nCallsAllowed (c : Counters) (fromOwnWork : Bool) : Nat := if fromOwnWork then c.nInWorkRequests else 0

/-- The next access of a thread inside `callAsWork()` or `awaitWorkQuiescence()`; `workersFirst` is the order of the
    condition's two reads. -/
def access (c : Counters) (t : Thread) (workersFirst : Bool) : Option (Counters × Thread) :=
  match t.stage with
  | .outside | .inCall => none
  | .load => some (c, t.setStage (if c.nWorkQuiescenceRequests > 0 then .outside else .countWorker))
  | .countWorker => some ({ c with nWorkersInWork := c.nWorkersInWork + 1 }, t.setStage .loadAgain)
  | .loadAgain => some (c, t.setStage (if c.nWorkQuiescenceRequests > 0 then .leaveWork else .inCall))
  | .leaveWork => some ({ c with nWorkersInWork := c.nWorkersInWork - 1 }, t.setStage .outside)
  | .countInWork => some ({ c with nInWorkRequests := c.nInWorkRequests + 1 }, t.setStage (.await true .countRequest))
  | .await own .countRequest =>
    some ({ c with nWorkQuiescenceRequests := c.nWorkQuiescenceRequests + 1 }, t.setStage (.await own .condition))
  | .await own .condition =>
    some (c, t.setStage (.await own
      (if workersFirst then .workersRead c.nWorkersInWork else .callsAllowed (c.nCallsAllowed own))))
  | .await own (.workersRead n) => some (c, t.compare own n (c.nCallsAllowed own))
  | .await own (.callsAllowed n) => some (c, t.compare own c.nWorkersInWork n)
  | .uncountInWork =>
    some ({ c with nInWorkRequests := c.nInWorkRequests - 1 },
      { t with stage := .inCall, heldInWork := t.heldInWork + 1 })

/-- What a thread may begin where it is not inside one of the two functions. -/
inductive Begin
  | callAsWork
  | endCall
  | requestWorkQuiescence
  | requestQuiescenceOfOtherWork
  | releaseWorkQuiescence (fromOwnWork : Bool)
  deriving DecidableEq, Repr

/-- A thread outside work begins a call or a request; one inside a call ends it, or makes a request that leaves its own
    call out. Each thread releases what it holds. -/
def begin (c : Counters) (t : Thread) : Begin → Option (Counters × Thread)
  | .callAsWork => if t.stage = .outside then some (c, t.setStage .callAsWork) else none
  | .endCall => if t.stage = .inCall then some (c, t.setStage .leaveWork) else none
  | .requestWorkQuiescence => if t.stage = .outside then some (c, t.setStage .requestWorkQuiescence) else none
  | .requestQuiescenceOfOtherWork =>
    if t.stage = .outside ∨ t.stage = .inCall then some (c, t.setStage t.stage.requestQuiescenceOfOtherWork) else none
  | .releaseWorkQuiescence fromOwnWork =>
    if t.stage = .outside ∨ t.stage = .inCall then
      let c := { c with nWorkQuiescenceRequests := c.nWorkQuiescenceRequests - 1 }
      match fromOwnWork with
      | true => if 0 < t.heldInWork then some (c, { t with heldInWork := t.heldInWork - 1 }) else none
      | false => if 0 < t.heldOutside then some (c, { t with heldOutside := t.heldOutside - 1 }) else none
    else none

/-! ### The threads -/

variable {τ : Type}

structure State (τ : Type) where
  counters : Counters
  threads : τ → Thread

inductive Act (τ : Type)
  | begin (i : τ) (what : Begin)
  | access (i : τ) (workersFirst : Bool)
  deriving DecidableEq, Repr

def Act.thread : Act τ → τ
  | .begin i _ | .access i _ => i

variable [DecidableEq τ]

def step (s : State τ) : Act τ → Option (State τ)
  | .begin i what => (begin s.counters (s.threads i) what).map fun (c, t) => ⟨c, Function.update s.threads i t⟩
  | .access i workersFirst =>
    (access s.counters (s.threads i) workersFirst).map fun (c, t) => ⟨c, Function.update s.threads i t⟩

/-- No thread has entered anything yet. -/
def start (τ : Type) : State τ where
  counters := ⟨0, 0, 0⟩
  threads _ := ⟨.outside, 0, 0⟩

def system (τ : Type) [DecidableEq τ] : Transition.System (State τ) (Act τ) where
  start s := s = start τ
  step := step

end GnuRadio.Quiescence
