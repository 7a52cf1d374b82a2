import Mathlib.Algebra.Order.Ring.Rat
import Mathlib.Data.Fintype.Basic
import GnuRadio.LifeCycle

/-! The timer of a free-running block: `blockingSyncStart()`, `blockingSyncStop()` and `stopTimerAndJoin()` of
    BlockingSync.hpp, access by access to what they share with the task that they hand to a pool, and with the block that
    the task reads. -/

namespace GnuRadio.BlockingSync

open LifeCycle (isActive isValidTransition)
open Transition (System)

/-- What the timer depends on in the block. -/
structure Block where
  state : LifeCycle.State
  sampleRate : ℚ
  useInternalThread : Bool
  isClockPortConnected : Bool

def Block.isFreeRunning (b : Block) : Bool := !b.isClockPortConnected

/-- The block is active, free-running on its internal thread, at a positive sample rate. -/
def Block.NeedsTimer (b : Block) : Prop :=
  isActive b.state = true ∧ b.isFreeRunning = true ∧ b.useInternalThread = true ∧ 0 < b.sampleRate

instance (b : Block) : Decidable b.NeedsTimer :=
  inferInstanceAs (Decidable (_ ∧ _ ∧ _ ∧ _))

/-- Changes of the block that need no call of the timer: a move of its life cycle, a setting, a connection. -/
inductive Change
  | state (newState : LifeCycle.State)
  | sampleRate (rate : ℚ)
  | useInternalThread (value : Bool)
  | clockPort (connected : Bool)

def Change.apply (b : Block) : Change → Option Block
  | .state newState => if isValidTransition b.state newState then some { b with state := newState } else none
  | .sampleRate rate => some { b with sampleRate := rate }
  | .useInternalThread value => some { b with useInternalThread := value }
  | .clockPort connected => some { b with isClockPortConnected := connected }

/-- What a timer task does next. -/
inductive Task
  /-- The pool has accepted the task and not started it: it tests `blockAlive` first. -/
  | queued
  | namesThread
  | testsRunning
  | testsRate
  | testsState
  | readsPeriod
  /-- It waits for its next tick, or for `running` to be cleared. -/
  | waits
  | testsPaused
  | countsProgress
  /-- It stores `done`, which nothing of the block follows. -/
  | storesDone
  | ended
  deriving DecidableEq, Repr

/-- What the call does next that a thread is in. -/
inductive Call
  | idle
  /-- `startTimer()` has set `running` and stores `done` next. -/
  | clearsDone
  /-- `startTimer()` hands the task to the pool. -/
  | executes
  /-- `stopTimerAndJoin()` has cleared `blockAlive` and stops the timer next. -/
  | stops
  /-- `stopTimer()` has cleared `running` and waits for `done`. -/
  | waits (join : Bool)
  deriving DecidableEq, Repr

/-- The call is one of `startTimer()`, between the guard and the pool. -/
def Call.isStart : Call → Bool
  | .clearsDone | .executes => true
  | .idle | .stops | .waits _ => false

/-- The last start or stop of the timer that took effect. -/
inductive Latest
  | stopped
  | starting
  | started
  deriving DecidableEq, Repr

/-- `tasks` are the tasks that the pool has accepted, in this order. Of the history, `left` says that a task of the latest
    start has read a sample rate or a state that ended its loop, and `joined` that `stopTimerAndJoin()` has returned. -/
structure Timer (ι : Type) where
  running : Bool
  done : Bool
  blockAlive : Bool
  block : Block
  tasks : List Task
  calls : ι → Call
  latest : Latest
  left : Bool
  joined : Bool

inductive Act (ι : Type)
  /-- `blockingSyncStart()`, up to the exchange of `running`. -/
  | blockingSyncStart (i : ι)
  | clearDone (i : ι)
  | execute (i : ι) (accepted : Bool)
  /-- `blockingSyncStop()`, up to the clearing of `running`. -/
  | blockingSyncStop (i : ι)
  /-- `stopTimerAndJoin()`, up to the clearing of `blockAlive`. -/
  | stopTimerAndJoin (i : ι)
  | stopTimer (i : ι)
  | stopReturns (i : ι)
  | task (k : Nat)
  | change (c : Change)

namespace Timer

variable {ι : Type} (s : Timer ι)

/-- The access that a task makes next, and what the task does after it. A wait for a tick ends at the latest at the tick. -/
def taskStep : Task → Option Task
  | .queued => some (if s.blockAlive then .namesThread else .storesDone)
  | .namesThread => some .testsRunning
  | .testsRunning => some (if s.running then .testsRate else .storesDone)
  | .testsRate => some (if 0 < s.block.sampleRate then .testsState else .storesDone)
  | .testsState => some (if isActive s.block.state then .readsPeriod else .storesDone)
  | .readsPeriod => some .waits
  | .waits => some (if s.running then .testsPaused else .storesDone)
  | .testsPaused => some (if s.block.state = .paused then .testsRunning else .countsProgress)
  | .countsProgress => some .testsRunning
  | .storesDone => some .ended
  | .ended => none

/-- The task reads a sample rate or a state that ends its loop. -/
def leavesLoop (t : Task) : Bool :=
  (t = .testsRate && !decide (0 < s.block.sampleRate)) || (t = .testsState && !isActive s.block.state)

variable [DecidableEq ι]

def goes (i : ι) (call : Call) : Timer ι := { s with calls := Function.update s.calls i call }

def step (s : Timer ι) : Act ι → Option (Timer ι)
  | .blockingSyncStart i =>
    if s.calls i = .idle then
      if s.block.isFreeRunning && s.block.useInternalThread && !s.running then
        some { s.goes i .clearsDone with running := true, latest := .starting }
      else some s
    else none
  | .clearDone i =>
    if s.calls i = .clearsDone then some { s.goes i .executes with done := false } else none
  | .execute i accepted =>
    if s.calls i = .executes then
      if accepted then
        some { s.goes i .idle with
          tasks := s.tasks ++ [.queued], left := false,
          latest := if s.latest = .starting then .started else s.latest }
      else some { s.goes i .idle with running := false, done := true, latest := .stopped }
    else none
  | .blockingSyncStop i =>
    if s.calls i = .idle then some { s.goes i (.waits false) with running := false, latest := .stopped } else none
  | .stopTimerAndJoin i =>
    if s.calls i = .idle then some { s.goes i .stops with blockAlive := false, latest := .stopped } else none
  | .stopTimer i =>
    if s.calls i = .stops then some { s.goes i (.waits true) with running := false, latest := .stopped } else none
  | .stopReturns i =>
    match s.calls i with
    | .waits join => if s.done then some { s.goes i .idle with joined := s.joined || join } else none
    | _ => none
  | .task k =>
    match s.tasks[k]? with
    | none => none
    | some t => (s.taskStep t).map fun t' =>
      { s with
        tasks := s.tasks.set k t', done := s.done || t = .storesDone, left := s.left || s.leavesLoop t }
  | .change c => (c.apply s.block).map fun block => { s with block := block }

end Timer

section System

variable {ι : Type} [DecidableEq ι]

/-- The runs of a block from its construction on, of any number of threads. -/
def system (ι : Type) [DecidableEq ι] : System (Timer ι) (Act ι) where
  start s := ∃ b : Block, b.state = .idle ∧
    s = ⟨false, true, true, b, [], fun _ => .idle, .stopped, false, false⟩
  step := Timer.step

variable (s : Timer ι)

def Timer.AllEnded : Prop := ∀ t ∈ s.tasks, t = .ended

/-- A start that goes past the guard comes before the block is joined, once the tasks of earlier starts have ended, and
    while no other start is on its way to the pool. After a task has read a sample rate or a state that ended its loop, no
    change lets the block need a timer before the timer is stopped. -/
def Act.Ordered (s : Timer ι) : Act ι → Prop
  | .blockingSyncStart _ =>
    s.block.isFreeRunning = true → s.block.useInternalThread = true → s.running = false →
      s.blockAlive = true ∧ s.AllEnded ∧ ∀ j, (s.calls j).isStart = false
  | .change c => s.latest = .started → s.left = true → ∀ b, c.apply s.block = some b → ¬ b.NeedsTimer
  | _ => True

end System

end GnuRadio.BlockingSync
