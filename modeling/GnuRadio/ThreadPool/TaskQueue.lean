import GnuRadio.Library.StableQueue
import GnuRadio.Library.Transition
import Mathlib.Algebra.Order.Ring.Int
import Mathlib.Data.UInt

/-! The tasks of a thread pool (thread_pool.hpp): `execute()` makes a task, of a recycled object where there is one, and
    queues it, and a worker takes it, runs it and recycles the object. Both lists are a `TaskQueue`, and each step is one
    operation on them, so the calls and the workers may come in any order. -/

namespace GnuRadio.TaskQueue

open StableQueue (Next)
open Transition (System)

variable {φ : Type}

/-- A call of `execute()`: its callable and its template arguments. -/
structure Call (φ : Type) where
  func : φ
  taskName : String
  priority : UInt32
  cpuID : Int
  deriving DecidableEq, Repr

structure Task (φ : Type) where
  id : Nat
  func : Option φ
  name : String
  priority : Int
  cpuID : Int
  deriving DecidableEq, Repr

/-- `*this = Task()` -/
def Task.reset : Task φ := ⟨0, none, "", 0, -1⟩

/-- The `uint32_t` of a template argument in the `int32_t` of a task. -/
def toInt32 (priority : UInt32) : Int := priority.toBitVec.toInt

/-- At the end, or with a priority before the first task of a lower one. -/
def push (tasks : List (Task φ)) (job : Task φ) : List (Task φ) :=
  if job.priority = 0 then tasks ++ [job]
  else tasks.takeWhile (job.priority ≤ ·.priority) ++ job :: tasks.dropWhile (job.priority ≤ ·.priority)

/-- The task that leaves, and the tasks that stay. -/
def pop : List (Task φ) → Option (Task φ) × List (Task φ)
  | [] => (none, [])
  | task :: tasks => (some task, tasks)

/-- `id` is what the counter of the process gives. -/
def getTaskImpl (recycledTasks : List (Task φ)) (id : Nat) (func : φ) : Task φ × List (Task φ) :=
  match pop recycledTasks with
  | (none, rest) => (⟨id, some func, "", 0, -1⟩, rest)
  | (some task, rest) => ({ task with id, func := some func }, rest)

def createTask (recycledTasks : List (Task φ)) (id : Nat) (call : Call φ) : Task φ × List (Task φ) :=
  let (task, rest) := getTaskImpl recycledTasks id call.func
  let task := if call.taskName ≠ "" then { task with name := call.taskName } else task
  ({ task with priority := toInt32 call.priority, cpuID := call.cpuID }, rest)

/-- `created` holds the tasks that `execute()` has not queued yet, each with its call, and `running` those that workers
    have taken. -/
structure State (φ : Type) where
  taskQueue : List (Task φ)
  recycledTasks : List (Task φ)
  created : List (Call φ × Task φ)
  running : List (Task φ)

/-- `execute()` makes its task, and queues it or throws while it adds a worker; a worker takes a task, and recycles it. -/
inductive Act (φ : Type)
  | create (id : Nat) (call : Call φ)
  | push (k : Nat)
  | drop (k : Nat)
  | pop
  | recycle (k : Nat)
  deriving DecidableEq, Repr

def step (s : State φ) : Act φ → Option (State φ)
  | .create id call =>
    let (task, rest) := createTask s.recycledTasks id call
    some { s with recycledTasks := rest, created := s.created ++ [(call, task)] }
  | .push k =>
    s.created[k]?.map fun e => { s with taskQueue := push s.taskQueue e.2, created := s.created.eraseIdx k }
  | .drop k => if k < s.created.length then some { s with created := s.created.eraseIdx k } else none
  | .pop =>
    let (task, rest) := pop s.taskQueue
    some { s with taskQueue := rest, running := s.running ++ task.toList }
  | .recycle k =>
    if k < s.running.length then
      some { s with running := s.running.eraseIdx k, recycledTasks := push s.recycledTasks .reset }
    else none

def system (φ : Type) : System (State φ) (Act φ) where
  start s := s = ⟨[], [], [], []⟩
  step := step

/-! ### What is promised of it -/

/-- What the steps show: a task made of a recycled object, a task queued, with their calls, and what a pop gives. -/
inductive Event (φ : Type)
  | recycled (call : Call φ) (task : Task φ)
  | push (call : Call φ) (task : Task φ)
  | pop (task : Option (Task φ))
  deriving DecidableEq, Repr

def events (s : State φ) : Act φ → List (Event φ)
  | .create id call => if s.recycledTasks = [] then [] else [.recycled call (createTask s.recycledTasks id call).1]
  | .push k => s.created[k]?.toList.map fun e => .push e.1 e.2
  | .pop => [.pop (pop s.taskQueue).1]
  | .drop _ | .recycle _ => []

/-- The task has what its call of `execute()` gave, and nothing else. -/
structure Task.Carries (task : Task φ) (call : Call φ) : Prop where
  func : task.func = some call.func
  name : task.name = call.taskName
  priority : task.priority = call.priority.toNat
  cpuID : task.cpuID = call.cpuID

/-- The queue as it should be, of the queued tasks with their calls as they came: a pop gives a task of the greatest
    declared priority, of those the first. -/
inductive Allowed : List (Call φ × Task φ) → Event φ → List (Call φ × Task φ) → Prop
  | recycled {q : List (Call φ × Task φ)} {call : Call φ} {task : Task φ} (h : task.Carries call) :
      Allowed q (.recycled call task) q
  | push {q : List (Call φ × Task φ)} {call : Call φ} {task : Task φ} :
      Allowed q (.push call task) (q ++ [(call, task)])
  | popNone : Allowed [] (.pop none) []
  | pop {before after : List (Call φ × Task φ)} {call : Call φ} {task : Task φ}
      (h : Next (·.1.priority.toNat) before (call, task) after) :
      Allowed (before ++ (call, task) :: after) (.pop (some task)) (before ++ after)

/-! ### Priorities that an `int32_t` cannot hold -/

/-- The declared priority of a task. -/
def Task.declared (task : Task φ) : Nat := (task.priority % 2 ^ 32).toNat

/-- A queue of such priorities stays in their order when a task of this one is pushed to it. -/
def Fits (priority : Nat) (queue : List Nat) : Prop :=
  priority = 0 ∨ (priority < 2 ^ 31 ∧ ∀ q ∈ queue, q < 2 ^ 31) ∨
    (2 ^ 31 ≤ priority ∧ ((∀ q ∈ queue, 2 ^ 31 ≤ q) ∨ ∃ q ∈ queue, 2 ^ 31 ≤ q ∧ q < priority))

instance (p : Nat) (queue : List Nat) : Decidable (Fits p queue) :=
  inferInstanceAs (Decidable (_ ∨ _ ∨ _))

/-- The narrowing of a priority does not show in the step: a recycled object gets one that an `int32_t` holds, and a task is
    pushed to where its declared priority belongs. -/
def Narrows (s : State φ) : Act φ → Prop
  | .create _ call => s.recycledTasks = [] ∨ call.priority.toNat < 2 ^ 31
  | .push k => ∀ e ∈ s.created[k]?.toList, Fits e.1.priority.toNat (s.taskQueue.map Task.declared)
  | .drop _ | .pop | .recycle _ => True

instance (s : State φ) : (a : Act φ) → Decidable (Narrows s a)
  | .create _ call => inferInstanceAs (Decidable (_ ∨ call.priority.toNat < 2 ^ 31))
  | .push k => inferInstanceAs (Decidable (∀ e ∈ s.created[k]?.toList, Fits e.1.priority.toNat (s.taskQueue.map Task.declared)))
  | .drop _ | .pop | .recycle _ => .isTrue trivial

end GnuRadio.TaskQueue
