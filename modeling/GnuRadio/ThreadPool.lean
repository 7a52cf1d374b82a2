import GnuRadio.Library.Roster
import GnuRadio.Library.Transition

/-! `BasicThreadPool` (thread_pool.hpp) with fixed bounds, not shut down: calls of `execute()`, which add workers, and the
    workers, which take tasks and leave at their keep-alive. A step is a section under `_waitMutex` or `_threadListMutex`.
    A task is the number of its call, and the counters are integers, of which a `std::size_t` wraps below zero. -/

namespace GnuRadio.ThreadPool

/-- `_minThreads` and `_maxThreads`. -/
structure Bounds where
  minThreads : Nat
  maxThreads : Nat
  min_le_max : minThreads ≤ maxThreads
  max_pos : 1 ≤ maxThreads

structure Task where
  call : Nat
  priority : Nat
  deriving DecidableEq, Repr

/-- Where a call of `execute()` stands. From `reserved` to `settled` it is in `addWorker()`: it waits for
    `_threadListMutex`, holds it, joins the workers whose records it has taken, and has started a thread whose name, mask
    and policy are not set yet. In `refused` and `settled` it has released that mutex and waits for the other one. -/
inductive Phase
  | waiting
  | reserved
  | listed
  | joining (departedThreads : List Nat)
  | created
  | refused
  | settled (accepted : Bool)
  | returned
  | threw
  deriving DecidableEq, Repr

structure Call where
  priority : Nat
  phase : Phase
  deriving DecidableEq, Repr

/-- Where a worker stands. A `finished` worker has run its task and does not count as idle yet. A worker that has `left`
    stays joinable. -/
inductive Worker
  | starting
  | idle
  | running (task : Task)
  | finished
  | left
  | joined
  deriving DecidableEq, Repr

/-- `threads` and `calls` hold every thread and every call so far, by their numbers. `taken` lists the tasks that workers
    have taken. -/
structure State where
  numThreads : Int
  numIdleWorkers : Int
  numReserved : Int
  numTasksQueued : Int
  numTasksRunning : Int
  taskQueue : List Task
  departedThreads : List Nat
  threadListMutex : Option Nat
  threads : List Worker
  calls : List Call
  taken : List (Task × Nat)

/-- After the constructor. -/
def constructed (bounds : Bounds) : State where
  numThreads := bounds.minThreads
  numIdleWorkers := bounds.minThreads
  numReserved := 0
  numTasksQueued := 0
  numTasksRunning := 0
  taskQueue := []
  departedThreads := []
  threadListMutex := none
  threads := List.replicate bounds.minThreads .starting
  calls := []
  taken := []

/-- `TaskQueue::push()`: at the end, or with a priority before the first task of a lower one. -/
def pushTask (tasks : List Task) (task : Task) : List Task :=
  if task.priority = 0 then tasks ++ [task]
  else tasks.takeWhile (task.priority ≤ ·.priority) ++ task :: tasks.dropWhile (task.priority ≤ ·.priority)

namespace State

variable (s : State)

def setCall (i : Nat) (call : Call) (phase : Phase) : State := { s with calls := s.calls.set i { call with phase } }

def setThread (k : Nat) (worker : Worker) : State := { s with threads := s.threads.set k worker }

def lacksIdleWorker : Bool := s.numIdleWorkers < s.numTasksQueued

/-- What a submitter waits for on `_workerCreationDone`. -/
def mayProceed (bounds : Bounds) : Bool :=
  s.numReserved = 0 || !s.lacksIdleWorker || s.numThreads < bounds.maxThreads

/-- The end of `execute()`. -/
def push (i : Nat) (call : Call) : State :=
  { s.setCall i call .returned with taskQueue := pushTask s.taskQueue ⟨i, call.priority⟩ }

/-- `execute()` after its wait: it pushes the task, or enters `addWorker()`. -/
def proceed (bounds : Bounds) (i : Nat) (call : Call) : State :=
  if s.lacksIdleWorker && s.numThreads < bounds.maxThreads then
    { s.setCall i call .reserved with
      numThreads := s.numThreads + 1
      numIdleWorkers := s.numIdleWorkers + 1
      numReserved := s.numReserved + 1 }
  else
    s.push i call

/-- The first section of `execute()`: the task is counted, and the call proceeds or waits. -/
def execute (bounds : Bounds) (priority : Nat) : State :=
  let call : Call := ⟨priority, .waiting⟩
  let s := { s with numTasksQueued := s.numTasksQueued + 1, calls := s.calls ++ [call] }
  if s.mayProceed bounds then s.proceed bounds (s.calls.length - 1) call else s

/-- The section of a call that ends `addWorker()`: it returns, or the exception reaches the caller of `execute()`. -/
def relock (i : Nat) (call : Call) : Option State :=
  let s := { s with numReserved := s.numReserved - 1 }
  match call.phase with
  | .refused =>
    some { s.setCall i call .threw with
      numIdleWorkers := s.numIdleWorkers - 1
      numThreads := s.numThreads - 1
      numTasksQueued := s.numTasksQueued - 1 }
  | .settled false => some { s.setCall i call .threw with numTasksQueued := s.numTasksQueued - 1 }
  | .settled true => some (s.push i call)
  | _ => none

/-- What a call does next inside `addWorker()`. `joinDepartedThreads` takes the records and then joins one thread a step;
    `create started` starts a thread or is refused, which may be before the records are taken. -/
inductive AddWorker
  | lockThreadList
  | takeRecords
  | join (thread : Nat)
  | create (started : Bool)
  | constrain (accepted : Bool)
  | relock
  deriving DecidableEq, Repr

def addWorker (i : Nat) (call : Call) (step : AddWorker) : Option State :=
  match step, call.phase with
  | .lockThreadList, .reserved =>
    if s.threadListMutex = none then some { s.setCall i call .listed with threadListMutex := some i } else none
  | .takeRecords, .listed => some { s.setCall i call (.joining s.departedThreads) with departedThreads := [] }
  | .join thread, .joining departedThreads =>
    if thread ∈ departedThreads ∧ s.threads[thread]? = some .left then
      some ((s.setCall i call (.joining (departedThreads.erase thread))).setThread thread .joined)
    else
      none
  | .create true, .joining [] => some { s.setCall i call .created with threads := s.threads ++ [.starting] }
  | .create false, .listed | .create false, .joining [] =>
    some { s.setCall i call .refused with threadListMutex := none }
  | .constrain accepted, .created => some { s.setCall i call (.settled accepted) with threadListMutex := none }
  | .relock, _ => s.relock i call
  | _, _ => none

/-- The loop of an idle worker under `_waitMutex`: it takes a task, waits, or leaves. -/
def workerLoop (bounds : Bounds) (k : Nat) (keepAliveOver : Bool) : State :=
  match s.taskQueue with
  | task :: taskQueue =>
    { s.setThread k (.running task) with
      taskQueue := taskQueue
      numIdleWorkers := s.numIdleWorkers - 1
      numTasksRunning := s.numTasksRunning + 1
      numTasksQueued := s.numTasksQueued - 1
      taken := s.taken ++ [(task, k)] }
  | [] =>
    if !keepAliveOver || s.numTasksQueued > 0 || s.numThreads ≤ bounds.minThreads then s
    else
      { s.setThread k .left with
        numThreads := s.numThreads - 1
        numIdleWorkers := s.numIdleWorkers - 1
        departedThreads := s.departedThreads ++ [k] }

/-- The next section of a worker. It starts to take tasks once no call holds `_threadListMutex`. -/
def worker (bounds : Bounds) (k : Nat) (keepAliveOver : Bool) : Worker → Option State
  | .starting => if s.threadListMutex = none then some (s.setThread k .idle) else none
  | .idle => some (s.workerLoop bounds k keepAliveOver)
  | .running _ => some { s.setThread k .finished with numTasksRunning := s.numTasksRunning - 1 }
  | .finished => some { s.setThread k .idle with numIdleWorkers := s.numIdleWorkers + 1 }
  | .left | .joined => none

end State

/-- A call begins, a waiting call wakes, a call goes on inside `addWorker()`, and a worker goes on. -/
inductive Act
  | execute (priority : Nat)
  | wake (call : Nat)
  | addWorker (call : Nat) (step : State.AddWorker)
  | worker (thread : Nat) (keepAliveOver : Bool)
  deriving DecidableEq, Repr

def step (bounds : Bounds) (s : State) : Act → Option State
  | .execute priority => some (s.execute bounds priority)
  | .wake i =>
    s.calls[i]?.bind fun call =>
      if call.phase = .waiting ∧ s.mayProceed bounds then some (s.proceed bounds i call) else none
  | .addWorker i step => s.calls[i]?.bind fun call => s.addWorker i call step
  | .worker k keepAliveOver => s.threads[k]?.bind fun worker => s.worker bounds k keepAliveOver worker

def system (bounds : Bounds) : Transition.System State Act where
  start s := s = constructed bounds
  step := step bounds

end GnuRadio.ThreadPool
