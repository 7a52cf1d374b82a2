import GnuRadio.Library.Rollback
import GnuRadio.Library.Transition
import Mathlib.Data.Nat.Init

/-! The CPUs and the scheduling policy of the workers of a pool (thread_pool.hpp, thread_affinity.hpp). A call that sets
    them for the live workers goes from worker to worker in the order of their indices, and a worker for which the
    operating system refuses ends it. What the system answers is a part of the call. -/

namespace GnuRadio.ThreadConstraints

open Rollback (changeAll restoreAll)

/-- The CPUs on which a thread may run. -/
abbrev CpuSet := Nat → Bool

inductive TaskType
  | ioBound
  | cpuBound
  deriving DecidableEq, Repr

inductive Policy
  | unknown
  | other
  | fifo
  | roundRobin
  deriving DecidableEq, Repr

structure Scheduling where
  policy : Policy
  priority : Int
  deriving DecidableEq, Repr

/-- A thread of the pool with what the system holds for it. -/
structure Worker where
  threadID : Nat
  affinity : CpuSet
  scheduling : Scheduling

/-- The threads by index, apart from those that have left and are not joined yet. `lastTaken` is a history: the policy that
    a worker took last. -/
structure Pool where
  taskType : TaskType
  minThreads : Nat
  isShutdown : Bool
  liveWorkers : List Worker
  departedThreads : List Nat
  affinityMask : List Bool
  scheduling : Scheduling
  acceptedScheduling : Scheduling
  lastTaken : Scheduling

/-- How the system answers a call: the CPUs it has, the workers that leave after the departed ones are joined, and the
    workers for which it refuses to read or set, and to set again what they had. -/
structure Answers where
  hardwareConcurrency : Nat
  leaves : Nat → Bool
  getFails : Nat → Bool
  setFails : Nat → Bool
  restoreFails : Nat → Bool

/-! ### Masks -/

/-- The CPUs that `detail::getAffinityMask()` reads out of a set: as many as a `cpu_set_t` has bytes. -/
def readable (hardwareConcurrency : Nat) : Nat := min 128 hardwareConcurrency

def getThreadAffinity (hardwareConcurrency : Nat) (worker : Worker) : List Bool :=
  (List.range (readable hardwareConcurrency)).map worker.affinity

/-- The set that `detail::getAffinityMask()` makes of a mask. A `cpu_set_t` has 1024 bits. -/
def cpuSet (hardwareConcurrency : Nat) (threadMap : List Bool) : CpuSet := fun i =>
  decide (i < min threadMap.length hardwareConcurrency) && decide (i < 1024) && threadMap.getD i false

def setThreadAffinity (hardwareConcurrency : Nat) (threadMap : List Bool) (worker : Worker) : Worker :=
  { worker with affinity := cpuSet hardwareConcurrency threadMap }

/-- `std::clamp(minThreads(), 1, std::max(nCpus, 1))` -/
def stripeCount (minThreads : Nat) (globalAffinityMask : List Bool) : Nat :=
  min (max minThreads 1) (max (globalAffinityMask.count true) 1)

/-- The loop of `distributeThreadAffinityAcrossCores()`. -/
def stripeFrom (stripe threadID : Nat) : Nat → List Bool → List Bool
  | _, [] => []
  | coreCount, true :: mask => (coreCount % stripe == threadID % stripe) :: stripeFrom stripe threadID (coreCount + 1) mask
  | coreCount, false :: mask => false :: stripeFrom stripe threadID coreCount mask

def distributeThreadAffinityAcrossCores (minThreads : Nat) (globalAffinityMask : List Bool) (threadID : Nat) : List Bool :=
  stripeFrom (stripeCount minThreads globalAffinityMask) threadID 0 globalAffinityMask

/-! ### The calls -/

/-- What `updateLiveWorkers()` leaves. -/
structure Update where
  liveWorkers : List Worker
  nWorkersSet : Nat
  nWorkersRestored : Nat
  threw : Bool

def updateLiveWorkers {μ : Type} (applyToWorker : Worker → Option (Worker × μ))
    (restoreWorker : Worker → μ → Option Worker) (liveWorkers : List Worker) : Update :=
  match changeAll applyToWorker liveWorkers with
  | (changed, []) => ⟨changed.map Prod.fst, changed.length, 0, false⟩
  | (changed, rest) =>
    let (restored, n) := restoreAll restoreWorker changed
    ⟨restored ++ rest, changed.length, n, true⟩

namespace Pool

variable (pool : Pool) (answers : Answers)

/-- The departed workers are joined, and then others leave. -/
def joinDepartedThreads : Pool :=
  { pool with
    liveWorkers := pool.liveWorkers.filter (!answers.leaves ·.threadID)
    departedThreads := (pool.liveWorkers.filter (answers.leaves ·.threadID)).map (·.threadID) }

/-- The mask that `setWorkerAffinity()` sets for a worker. -/
def workerMask (threadID : Nat) : List Bool :=
  match pool.taskType with
  | .ioBound => pool.affinityMask
  | .cpuBound => distributeThreadAffinityAcrossCores pool.minThreads pool.affinityMask threadID

def setWorkerAffinity (hardwareConcurrency : Nat) (fails : Bool) (worker : Worker) : Option Worker :=
  if pool.affinityMask = [] then some worker
  else if fails then none
  else some (setThreadAffinity hardwareConcurrency (pool.workerMask worker.threadID) worker)

/-- Whether the call throws, and the pool after it. -/
def setAffinityMask (threadAffinityMask : List Bool) : Bool × Pool :=
  let acceptedMask := pool.affinityMask
  let pool := { pool.joinDepartedThreads answers with affinityMask := threadAffinityMask }
  if pool.isShutdown then (false, pool)
  else
    let update := updateLiveWorkers
      (fun worker =>
        if answers.getFails worker.threadID then none
        else
          (pool.setWorkerAffinity answers.hardwareConcurrency (answers.setFails worker.threadID) worker).map
            fun set => (set, getThreadAffinity answers.hardwareConcurrency worker))
      (fun worker earlierMask =>
        if answers.restoreFails worker.threadID then none
        else some (setThreadAffinity answers.hardwareConcurrency earlierMask worker))
      pool.liveWorkers
    let pool := { pool with liveWorkers := update.liveWorkers }
    if update.threw then (true, { pool with affinityMask := acceptedMask }) else (false, pool)

def setThreadSchedulingPolicy (scheduling : Scheduling) : Bool × Pool :=
  let pool := { pool.joinDepartedThreads answers with scheduling }
  if pool.isShutdown then (false, pool)
  else
    let update := updateLiveWorkers
      (fun worker => if answers.setFails worker.threadID then none else some ({ worker with scheduling }, ()))
      (fun worker _ =>
        if answers.restoreFails worker.threadID then none
        else some { worker with scheduling := pool.acceptedScheduling })
      pool.liveWorkers
    let pool := { pool with
      liveWorkers := update.liveWorkers
      lastTaken :=
        if 0 < update.nWorkersRestored then pool.acceptedScheduling
        else if 0 < update.nWorkersSet then scheduling
        else pool.lastTaken }
    if update.threw then (true, { pool with scheduling := pool.acceptedScheduling })
    else if 0 < update.nWorkersSet then (false, { pool with acceptedScheduling := scheduling })
    else (false, pool)

end Pool

/-! ### All or nothing -/

/-- A call of `setAffinityMask()` that throws leaves the stored mask, and every live worker with its CPUs. -/
def MaskKept (before : Pool) (answers : Answers) (threadAffinityMask : List Bool) : Prop :=
  let (threw, after) := before.setAffinityMask answers threadAffinityMask
  threw = true →
    after.affinityMask = before.affinityMask ∧
      after.liveWorkers.map (fun worker => (worker.threadID, worker.affinity)) =
        (before.joinDepartedThreads answers).liveWorkers.map fun worker => (worker.threadID, worker.affinity)

/-- A call of `setThreadSchedulingPolicy()` that throws stores the policy that a worker took last, and leaves every live
    worker with its policy. -/
def PolicyKept (before : Pool) (answers : Answers) (scheduling : Scheduling) : Prop :=
  let (threw, after) := before.setThreadSchedulingPolicy answers scheduling
  threw = true →
    after.scheduling = after.lastTaken ∧
      after.liveWorkers.map (fun worker => (worker.threadID, worker.scheduling)) =
        (before.joinDepartedThreads answers).liveWorkers.map fun worker => (worker.threadID, worker.scheduling)

/-- The stripes of a mask are parts of it with a CPU each, and make it up. -/
structure Covers (minThreads : Nat) (mask : List Bool) : Prop where
  subset : ∀ (threadID i : Nat), (distributeThreadAffinityAcrossCores minThreads mask threadID)[i]? = some true →
    mask[i]? = some true
  nonempty : ∀ threadID, true ∈ distributeThreadAffinityAcrossCores minThreads mask threadID
  union : ∀ i : Nat, mask[i]? = some true → ∃ threadID < stripeCount minThreads mask,
    (distributeThreadAffinityAcrossCores minThreads mask threadID)[i]? = some true

/-! ### When it is so -/

namespace Pool

variable (pool : Pool) (answers : Answers)

/-- Setting this mask is refused for the worker. -/
def refusesMask (mask : List Bool) (worker : Worker) : Bool :=
  answers.getFails worker.threadID || (mask ≠ [] && answers.setFails worker.threadID)

/-- Where a live worker refuses the mask, the workers before it that are restored had only CPUs that are read, and those
    that are not restored had the CPUs that the mask gives them. -/
def MaskRestorable (mask : List Bool) : Prop :=
  let workers := (pool.joinDepartedThreads answers).liveWorkers
  let changed := workers.takeWhile (!refusesMask answers mask ·)
  pool.isShutdown = false → (∃ worker ∈ workers, refusesMask answers mask worker = true) →
    (∀ worker ∈ changed.takeWhile (!answers.restoreFails ·.threadID),
      ∀ i, worker.affinity i = true → i < readable answers.hardwareConcurrency) ∧
    ∀ worker ∈ changed.dropWhile (!answers.restoreFails ·.threadID),
      mask = [] ∨
        cpuSet answers.hardwareConcurrency ({ pool with affinityMask := mask }.workerMask worker.threadID) = worker.affinity

/-- Where a live worker refuses the policy, the workers before it that are restored had the accepted policy, and those that
    are not restored had the new one. The accepted policy is the one that a worker took last, and where workers were set
    and none is restored it is the new one. -/
def PolicyRestorable (scheduling : Scheduling) : Prop :=
  let workers := (pool.joinDepartedThreads answers).liveWorkers
  let changed := workers.takeWhile (!answers.setFails ·.threadID)
  let restored := changed.takeWhile (!answers.restoreFails ·.threadID)
  pool.isShutdown = false → (∃ worker ∈ workers, answers.setFails worker.threadID = true) →
    (∀ worker ∈ restored, worker.scheduling = pool.acceptedScheduling) ∧
    (∀ worker ∈ changed.dropWhile (!answers.restoreFails ·.threadID), worker.scheduling = scheduling) ∧
    (restored = [] → pool.acceptedScheduling = if changed = [] then pool.lastTaken else scheduling)

end Pool

end GnuRadio.ThreadConstraints
