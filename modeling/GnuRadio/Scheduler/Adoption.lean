import GnuRadio.Library.Fair
import GnuRadio.Graph.FeedbackLoops

/-! The workers of a multi-threaded run and the blocks that edits queue for them (`queueForAdoption()`, `joinRun()`,
    `restartStoppedEndpoints()`, `makeZombie()`, `adoptBlocks()` and the loop of `poolWorker()` in Scheduler.hpp). One
    section under a mutex, or one access, a step. There are `n` job lists and as many adoption lists and workers. -/

namespace GnuRadio.Adoption

open Function

variable {n : Nat} {β : Type}

/-- Where a worker stands: before its loop, in the message pass, in its blocks' `work()`, where its blocks are done
    (`done`), and out of its loop. A task whose run was retired before the pool reached it never enters the loop. -/
inductive Stage (β : Type)
  | queued
  | copyJobs
  | top
  | checkGeneration
  | cleanup (done : Bool)
  | adopt (done : Bool)
  | record (done : Bool) (newBlocks : List β)
  | checkState
  | work
  | copyWithdrawn
  | drop (withdrawn : List β)
  | traverse
  | closeIfEmpty
  | condition
  | closing
  | left
  | retired
  deriving DecidableEq, Repr

namespace Stage

/-- The worker is in its loop. -/
def inLoop : Stage β → Bool
  | .queued | .copyJobs | .closing | .left | .retired => false
  | _ => true

/-- The worker will copy its job list. -/
def before : Stage β → Bool
  | .queued | .copyJobs => true
  | _ => false

end Stage

structure Worker (β : Type) where
  stage : Stage β
  localBlockList : List β
  nPassesToMessages : Nat
  nWithdrawnSeen : Nat
  deriving DecidableEq, Repr

/-- What the one edit at a time does: `joinRun()` with the job list it prefers, for a block that an edit adds or for one
    that it restarts, the end of a refused restart, and `makeZombie()`. -/
inductive Edit (n : Nat) (β : Type)
  | idle
  | hasOpenAdoptionList (block : β) (preferred : Option (Fin n)) (restart : Bool)
  | start (block : β) (preferred : Option (Fin n)) (restart : Bool)
  | queueForAdoption (block : β) (preferred : Option (Fin n)) (restart : Bool)
  | noWorkerLeft (block : β) (restart : Bool)
  | refused (block : β) (restart : Bool)
  | stopChild (block : β)
  | unqueue (block : β) (active : Bool)
  | jobListHolds (block : β) (active : Bool)
  | pushZombie (block : β)
  deriving DecidableEq, Repr

/-- `stoppedEndpoints` holds the endpoints that the edit has found stopped, each with the job list that holds it.
    `removed` is not in the source: blocks that have left the graph. -/
structure State (n : Nat) (β : Type) where
  adoptionBlocks : Fin n → List β
  adoptionListClosed : Fin n → Bool
  executionOrder : Fin n → List β
  withdrawnBlocks : List β
  zombieBlocks : List β
  workers : Fin n → Worker β
  edit : Edit n β
  stoppedEndpoints : β → Option (Option (Fin n))
  blockState : β → LifeCycle.State
  inGraph : β → Bool
  removed : β → Bool
  ended : Bool

variable [DecidableEq β]

namespace State

/-! ### Job lists and adoption lists -/

def openLists (s : State n β) : List (Fin n) := (List.finRange n).filter fun i => !s.adoptionListClosed i

/-- The first job list that holds the block. -/
def jobListHolding (s : State n β) (block : β) : Option (Fin n) :=
  (List.finRange n).find? fun i => s.executionOrder i |>.contains block

/-- The list that takes a block: the preferred one while it is open, otherwise one by the block's address. -/
def listFor (hash : β → Nat) (s : State n β) (block : β) (preferred : Option (Fin n)) : Option (Fin n) :=
  match preferred with
  | some i => if s.adoptionListClosed i then s.openLists[hash block % s.openLists.length]? else some i
  | none => s.openLists[hash block % s.openLists.length]?

/-- The block is queued, and its list returned. -/
def queueForAdoption (hash : β → Nat) (s : State n β) (block : β) (preferred : Option (Fin n)) :
    State n β × Option (Fin n) :=
  match s.listFor hash block preferred with
  | some i =>
    ({ s with adoptionBlocks := update s.adoptionBlocks i (s.adoptionBlocks i ++ [block]) }, some i)
  | none => (s, none)

/-- Blocks still queued for a worker that leaves go to the first list that is open. -/
def closeAdoptionList (s : State n β) (i : Fin n) : State n β :=
  let s := { s with adoptionListClosed := update s.adoptionListClosed i true }
  if s.adoptionBlocks i = [] then s
  else match s.openLists.head? with
    | some k =>
      { s with adoptionBlocks :=
          update (update s.adoptionBlocks k (s.adoptionBlocks k ++ s.adoptionBlocks i)) i [] }
    | none => s

/-- A block taken from the queue joins the worker's list, and is recorded in this job list alone. -/
def adoptBlock (s : State n β) (i : Fin n) (block : β) : State n β :=
  let w := s.workers i
  let localBlockList := if block ∈ w.localBlockList then w.localBlockList else w.localBlockList ++ [block]
  let own := if block ∈ s.executionOrder i then s.executionOrder i else s.executionOrder i ++ [block]
  { s with
    workers := update s.workers i { w with localBlockList := localBlockList }
    executionOrder := fun j => if j = i then own else (s.executionOrder j).filter (· ≠ block) }

def record (s : State n β) (i : Fin n) (newBlocks : List β) : State n β :=
  newBlocks.foldl (fun s block => s.adoptBlock i block) s

/-! ### Zombies and withdrawn blocks -/

/-- A zombie in one of these states is dropped; another one stops first. -/
def deletable (state : LifeCycle.State) : Bool :=
  match state with
  | .idle | .stopped | .initialised | .error => true
  | .requestedStop | .requestedPause | .paused | .running => false

/-- The first job list that holds the block loses it. -/
def eraseFromJobList (s : State n β) (block : β) : State n β :=
  match s.jobListHolding block with
  | some j =>
    { s with executionOrder := update s.executionOrder j ((s.executionOrder j).filter (· ≠ block)) }
  | none => s

/-- `cleanupZombieBlocks()`, over the zombies there are. Nobody looks up a block that has left the graph. -/
def cleanupZombies (s : State n β) (i : Fin n) : List β → State n β
  | [] => s
  | zombie :: rest =>
    let w := s.workers i
    if zombie ∈ w.localBlockList ∧ deletable (s.blockState zombie) then
      let s := { s with
        workers := update s.workers i { w with localBlockList := w.localBlockList.erase zombie }
        zombieBlocks := s.zombieBlocks.erase zombie }
      cleanupZombies (s.eraseFromJobList zombie) i rest
    else cleanupZombies s i rest

/-- Withdrawn blocks leave the worker's list and every job list. -/
def dropWithdrawn (s : State n β) (i : Fin n) (withdrawn : List β) : State n β :=
  let w := s.workers i
  { s with
    workers := update s.workers i { w with
      localBlockList := w.localBlockList.filter (· ∉ withdrawn)
      nWithdrawnSeen := withdrawn.length }
    executionOrder := fun j => (s.executionOrder j).filter (· ∉ withdrawn) }

/-! ### The worker -/

def setStage (s : State n β) (i : Fin n) (stage : Stage β) : State n β :=
  { s with workers := update s.workers i { s.workers i with stage := stage } }

def setPasses (s : State n β) (i : Fin n) (nPassesToMessages : Nat) : State n β :=
  { s with workers := update s.workers i { s.workers i with nPassesToMessages := nPassesToMessages } }

def setLocal (s : State n β) (i : Fin n) (localBlockList : List β) : State n β :=
  { s with workers := update s.workers i { s.workers i with localBlockList := localBlockList } }

end State

/-- How a traversal of a worker's blocks ends; none is made while the run does not read `RUNNING` or a request keeps the
    worker out of it. -/
inductive Status
  | ok
  | done
  | error
  deriving DecidableEq, Repr

/-- A step of worker `i`. `hint` says that messages wait (at the top), or that the worker reads its messages next (at
    the loop's condition). `nPasses` passes lie between two message passes. -/
def workerStep (nPasses : Nat) (s : State n β) (i : Fin n) (hint : Bool) (status : Option Status) :
    Option (State n β) :=
  let w := s.workers i
  match w.stage with
  | .queued => some (s.setStage i (if s.ended then .retired else .copyJobs))
  | .copyJobs => some ((s.setLocal i (s.executionOrder i)).setStage i .top)
  | .top =>
    if w.nPassesToMessages = 0 ∨ hint then some (s.setStage i .checkGeneration)
    else some ((s.setPasses i (w.nPassesToMessages - 1)).setStage i .work)
  | .checkGeneration => some (s.setStage i (if s.ended then .closing else .cleanup false))
  | .cleanup done =>
    some ((if w.localBlockList = [] then s else s.cleanupZombies i s.zombieBlocks).setStage i (.adopt done))
  | .adopt done =>
    let newBlocks := s.adoptionBlocks i
    let s := { s with adoptionBlocks := update s.adoptionBlocks i [] }
    some (s.setStage i
      (if newBlocks ≠ [] then .record done newBlocks else if done then .closeIfEmpty else .checkState))
  | .record done newBlocks => some ((s.record i newBlocks).setStage i (if done then .condition else .checkState))
  | .checkState => some ((s.setPasses i nPasses).setStage i (if s.ended then .closing else .work))
  | .work =>
    match status with
    | none => some (s.setStage i .condition)
    | some _ => some (s.setStage i (if s.withdrawnBlocks.length ≠ w.nWithdrawnSeen then .copyWithdrawn else .traverse))
  | .copyWithdrawn => some (s.setStage i (.drop s.withdrawnBlocks))
  | .drop withdrawn => some ((s.dropWithdrawn i withdrawn).setStage i .traverse)
  | .traverse =>
    match status with
    | none | some .ok => some (s.setStage i .condition)
    | some .done => some (s.setStage i (.cleanup true))
    | some .error => some ({ s with ended := true }.setStage i .closing)
  | .closeIfEmpty =>
    if s.adoptionBlocks i ≠ [] then some (s.setStage i .condition)
    else some ({ s with adoptionListClosed := update s.adoptionListClosed i true }.setStage i .closing)
  | .condition =>
    some ((s.setPasses i (if hint then 0 else w.nPassesToMessages)).setStage i (if s.ended then .closing else .top))
  | .closing => some ((s.closeAdoptionList i).setStage i .left)
  | .left | .retired => none

/-! ### The edit -/

/-- A step of the edit. `scheduled` blocks are schedulers of their own. `active` is what the edit reads of the run's
    state, which reads inactive only once the run has ended, and `fails` a hook that throws. -/
def editStep (hash : β → Nat) (scheduled : β → Bool) (s : State n β) (active fails : Bool) : Option (State n β) :=
  let move block state := { s with blockState := update s.blockState block state }
  match s.edit with
  | .idle => none
  | .hasOpenAdoptionList block preferred restart =>
    if !active && s.ended then some { s with edit := .refused block restart }
    else if s.openLists = [] then some { s with edit := .refused block restart }
    else some { s with edit := .start block preferred restart }
  | .start block preferred restart =>
    if fails then some { move block .error with edit := .refused block restart }
    else if scheduled block then some { move block .running with edit := .queueForAdoption block preferred restart }
    else match s.blockState block with
      | .stopped | .idle | .initialised =>
        some { move block .running with edit := .queueForAdoption block preferred restart }
      | _ => some { s with edit := .refused block restart }
  | .queueForAdoption block preferred restart =>
    match s.queueForAdoption hash block preferred with
    | (s, some _) => some { s with edit := .idle }
    | (s, none) => some { s with edit := .noWorkerLeft block restart }
  | .noWorkerLeft block restart =>
    some { (if scheduled block then s else move block .stopped) with edit := .refused block restart }
  | .refused block restart =>
    if restart ∧ s.blockState block ≠ .stopped then
      some { s with withdrawnBlocks := s.withdrawnBlocks ++ [block], edit := .idle }
    else some { s with edit := .idle }
  | .stopChild block =>
    let active := LifeCycle.isActive (s.blockState block)
    some { (if active then move block .requestedStop else s) with edit := .unqueue block active }
  | .unqueue block active =>
    let s := match (List.finRange n).find? fun i => s.adoptionBlocks i |>.contains block with
      | some i => { s with adoptionBlocks := update s.adoptionBlocks i ((s.adoptionBlocks i).erase block) }
      | none => s
    some { s with edit := .jobListHolds block active }
  | .jobListHolds block active =>
    some { s with edit := if !active && (s.jobListHolding block).isNone then .idle else .pushZombie block }
  | .pushZombie block => some { s with zombieBlocks := s.zombieBlocks ++ [block], edit := .idle }

/-- A worker goes on. An edit adds a block, finds an endpoint stopped, restarts it, ends, removes a block, and goes on.
    A block's state changes, by its own work, its messages or another thread. The run ends. -/
inductive Act (n : Nat) (β : Type)
  | worker (i : Fin n) (hint : Bool) (status : Option Status)
  | emplace (block : β) (preferred : Option (Fin n))
  | stoppedEndpoint (block : β)
  | restart (block : β)
  | endEdit
  | remove (block : β)
  | edit (active fails : Bool)
  | changeState (block : β) (newState : LifeCycle.State)
  | endRun
  deriving DecidableEq, Repr

/-- An added block is a new one; a replacement prefers the job list of the block it replaces. An endpoint is a block of
    the graph. No edit removes a block whose job list it has looked up. -/
def step (hash : β → Nat) (scheduled : β → Bool) (nPasses : Nat) (s : State n β) : Act n β → Option (State n β)
  | .worker i hint status => workerStep nPasses s i hint status
  | .emplace block preferred =>
    if s.edit = .idle ∧ s.inGraph block = false ∧ s.removed block = false then
      some { s with
        inGraph := update s.inGraph block true
        edit := .hasOpenAdoptionList block preferred false }
    else none
  | .stoppedEndpoint block =>
    if s.edit = .idle ∧ s.inGraph block = true ∧
        (s.blockState block = .stopped ∨ s.blockState block = .requestedStop) then
      some { s with
        stoppedEndpoints := update s.stoppedEndpoints block (some (s.jobListHolding block)) }
    else none
  | .restart block =>
    match s.stoppedEndpoints block with
    | some preferred =>
      if s.edit = .idle ∧ s.blockState block = .stopped then
        some { s with
          stoppedEndpoints := update s.stoppedEndpoints block none
          edit := .hasOpenAdoptionList block preferred true }
      else none
    | none => none
  | .endEdit => if s.edit = .idle then some { s with stoppedEndpoints := fun _ => none } else none
  | .remove block =>
    if s.edit = .idle ∧ s.inGraph block = true ∧ s.stoppedEndpoints block = none then
      some { s with
        inGraph := update s.inGraph block false
        removed := update s.removed block true
        edit := .stopChild block }
    else none
  | .edit active fails => editStep hash scheduled s active fails
  | .changeState block newState =>
    if LifeCycle.isValidTransition (s.blockState block) newState then
      some { s with blockState := update s.blockState block newState }
    else none
  | .endRun => some { s with ended := true }

/-- The workers of a run are dispatched: every adoption list is open and empty, and each block is in one job list. Zombies
    of earlier runs may be left. -/
structure Start (s : State n β) : Prop where
  adoptionBlocks : ∀ i, s.adoptionBlocks i = []
  adoptionListClosed : ∀ i, s.adoptionListClosed i = false
  executionOrder : ∀ b i j, b ∈ s.executionOrder i → b ∈ s.executionOrder j → i = j
  inGraph : ∀ b i, b ∈ s.executionOrder i → s.inGraph b = true
  workers : ∀ i, s.workers i = ⟨.queued, [], 0, 0⟩
  edit : s.edit = .idle
  stoppedEndpoints : ∀ b, s.stoppedEndpoints b = none
  removed : ∀ b, s.inGraph b = true → s.removed b = false

def system (n : Nat) (hash : β → Nat) (scheduled : β → Bool) (nPasses : Nat) :
    Transition.System (State n β) (Act n β) where
  start := Start
  step := step hash scheduled nPasses

end GnuRadio.Adoption

/-! The job lists of the schedulers (Scheduler.hpp): the order in which `Simple`, `BreadthFirst` and `DepthFirst` list the
    blocks of the flattened graph, and the slices into which `batchBlocks()` divides them. A block is its unique name. -/

namespace GnuRadio.JobLists

open Graph (Config Edge Members adjacent flatten)

/-! ### Batches -/

section Batches
variable {α : Type} (worksOnItsOwn : α → Bool)

def countWorkingBlocks (blocks : List α) : Nat := blocks.countP worksOnItsOwn

/-- The list that a block joins, by the number of working blocks before it. -/
def batchIndex (nBatches nWorking nWorkingBefore : Nat) : Nat :=
  let ordinal := min nWorkingBefore (nWorking - 1)
  ((ordinal + 1) * nBatches - 1) / nWorking

/-- The loop of `batchBlocks()`, none if it indexes outside the lists. -/
def batchFrom (nBatches nWorking : Nat) : List α → Nat → List (List α) → Option (List (List α))
  | [], _, result => some result
  | block :: blocks, nWorkingBefore, result =>
    let index := batchIndex nBatches nWorking nWorkingBefore
    if index < result.length then
      batchFrom nBatches nWorking blocks (if worksOnItsOwn block then nWorkingBefore + 1 else nWorkingBefore)
        (result.modify index fun list => list ++ [block])
    else none

def batchBlocks (blocks : List α) (nBatches : Nat) : Option (List (List α)) :=
  if nBatches = 0 then some []
  else batchFrom worksOnItsOwn nBatches (max (countWorkingBlocks worksOnItsOwn blocks) 1) blocks 0
    (List.replicate nBatches [])

end Batches

/-- `nOwn` counts the caller's own worker, and `nRunning` the tasks that the pool runs and has queued. -/
def nJobLists (nThreads nOwn nRunning nBlocks : Nat) : Nat :=
  let nBusy := min (nRunning - min nRunning nOwn) nThreads
  min (max (nThreads - nBusy) 1) (max nBlocks 1)

/-! ### The flattened graph -/

variable {ι ω : Type}

/-- The blocks that are no group. -/
def normalBlocks : Members ι ω → List Nat
  | .nil => []
  | .block b rest => b.uniqueName :: normalBlocks rest
  | .group _ _ _ rest => normalBlocks rest

def worksOnItsOwn (g : Graph.Graph ι ω) (name : Nat) : Bool :=
  decide (name ∈ g.transparent.flatMap fun sub => normalBlocks sub.members)

/-- The blocks of `flatten()`. -/
def flatBlocks (g : Graph.Graph ι ω) : List Nat := g.forEachBlock.map Graph.Block.uniqueName

/-- What `std::sort` by name makes of the blocks that an `std::unordered_map` lists: blocks of one name come in any
    order. -/
structure BlockOrder where
  sort : List Nat → List Nat
  perm : ∀ names, (sort names).Perm names

/-- The blocks with an edge out of them and none into them. -/
def findSourceBlocks (order : BlockOrder) (edges : List (Edge ι ω)) : List Nat :=
  let sources := (edges.map fun e => e.sourceBlock.uniqueName).dedup
  let destinations := edges.map fun e => e.destinationBlock.uniqueName
  order.sort (sources.filter fun name => decide (name ∉ destinations))

/-! ### Orders -/

section Traversals
variable (edgesOf : Nat → List (Edge ι ω))

structure Traversal where
  queue : List Nat
  reached : List Nat
  visited : List Nat
  blockList : List Nat
  deriving DecidableEq, Repr

namespace Traversal

def reach (t : Traversal) (name : Nat) : Traversal :=
  if name ∈ t.reached then t else { t with reached := name :: t.reached, queue := t.queue ++ [name] }

def visit (t : Traversal) (name : Nat) : Traversal :=
  if name ∈ t.visited then t else { t with visited := name :: t.visited, blockList := t.blockList ++ [name] }

/-- The loop of `BreadthFirst`, none if it takes more rounds than it is given. -/
def breadthFirst : Nat → Traversal → Option Traversal
  | 0, t => if t.queue = [] then some t else none
  | fuel + 1, t =>
    match t.queue with
    | [] => some t
    | current :: queue =>
      let t := { t with queue := queue }.visit current
      breadthFirst fuel ((edgesOf current).foldl (fun t e => t.reach e.destinationBlock.uniqueName) t)

/-- `dfs` of `DepthFirst`, none if it goes deeper than it is given. -/
def depthFirst : Nat → Nat → Traversal → Option Traversal
  | 0, _, _ => none
  | fuel + 1, node, t =>
    if node ∈ t.visited then some t
    else (edgesOf node).foldlM (fun t e => depthFirst fuel e.destinationBlock.uniqueName t) (t.visit node)

/-- Every block that was not visited comes at the end. -/
def complete (t : Traversal) (blocks : List Nat) : List Nat :=
  t.blockList ++ blocks.filter fun name => decide (name ∉ t.visited)

end Traversal

end Traversals

section Schedulers
variable [DecidableEq ω] (c : Config ι ω) (order : BlockOrder) (g : Graph.Graph ι ω)

/-- The block list of `BreadthFirst`. A block enters the queue once. -/
def breadthFirstBlocks : Option (List Nat) := do
  let queued := (findSourceBlocks order (flatten g)).foldl Traversal.reach ⟨[], [], [], []⟩
  let t ← queued.breadthFirst (adjacent c (flatten g)) (flatBlocks g).length
  return t.complete (flatBlocks g)

/-- The block list of `DepthFirst`. A block on the way down is another one each time, and the last one was visited. -/
def depthFirstBlocks : Option (List Nat) := do
  let t ← (findSourceBlocks order (flatten g)).foldlM
    (fun t src => Traversal.depthFirst (adjacent c (flatten g)) ((flatBlocks g).length + 1) src t) ⟨[], [], [], []⟩
  return t.complete (flatBlocks g)

/-- The job lists of `Simple`, `BreadthFirst` and `DepthFirst`. -/
def simple (nBatches : Nat) : Option (List (List Nat)) := batchBlocks (worksOnItsOwn g) (flatBlocks g) nBatches

def breadthFirst (nBatches : Nat) : Option (List (List Nat)) := do
  let blockList ← breadthFirstBlocks c order g
  batchBlocks (worksOnItsOwn g) blockList nBatches

def depthFirst (nBatches : Nat) : Option (List (List Nat)) := do
  let blockList ← depthFirstBlocks c order g
  batchBlocks (worksOnItsOwn g) blockList nBatches

end Schedulers

end GnuRadio.JobLists
