import GnuRadio.ThreadPool

/-! The accounts of the thread pool: its counters count threads and calls that exist, the threads not yet joined keep within
    the bounds, idle workers are enough for the queued tasks, and each task is queued or taken once. -/

namespace GnuRadio.ThreadPool

open Roster

variable {bounds : Bounds} {s t : State} {i k : Nat} {call : Call} {worker : Worker} {p : Phase}

/-! ### Places -/

namespace Phase

/-- The call has reserved a worker whose thread does not exist. -/
def uncreated : Phase → Bool
  | .reserved | .listed | .joining _ | .refused => true
  | _ => false

/-- The call is inside `addWorker()`. -/
def reserving : Phase → Bool
  | .reserved | .listed | .joining _ | .refused | .created | .settled _ => true
  | _ => false

def isWaiting : Phase → Bool
  | .waiting => true
  | _ => false

/-- The call has counted its task, and it has not pushed it. -/
def inFlight (phase : Phase) : Bool := phase.reserving || phase.isWaiting

def holdsThreadList : Phase → Bool
  | .listed | .joining _ | .created => true
  | _ => false

def tookRecords : Phase → Bool
  | .joining _ | .created => true
  | _ => false

def records : Phase → List Nat
  | .joining departedThreads => departedThreads
  | _ => []

end Phase

namespace Worker

/-- The worker counts in `_numThreads`. -/
def isLive : Worker → Bool
  | .starting | .idle | .running _ | .finished => true
  | _ => false

def isIdle : Worker → Bool
  | .starting | .idle => true
  | _ => false

def isRunning : Worker → Bool
  | .running _ => true
  | _ => false

end Worker

/-- The calls at a place. -/
def inPhase (P : Phase → Bool) (s : State) : Int := total (fun call => (P call.phase).toInt) s.calls

/-- The workers at a place. -/
def workers (P : Worker → Bool) (s : State) : Int := total (fun worker => (P worker).toInt) s.threads

/-- The records that calls have taken and whose threads they have not joined. -/
def records (s : State) : Int := total (fun call => (call.phase.records.length : Int)) s.calls

/-- The calls that have returned with this task, of which there is one at most. -/
def returned (s : State) (i : Nat) : Nat := if s.calls[i]?.map Call.phase = some .returned then 1 else 0

/-- The times that a task is queued or taken. -/
def held (s : State) (i : Nat) : Nat := (s.taskQueue.map Task.call ++ s.taken.map fun pair => pair.1.call).count i

structure Inv (bounds : Bounds) (s : State) : Prop where
  threads : s.numThreads = workers Worker.isLive s + inPhase Phase.uncreated s
  idle : s.numIdleWorkers = workers Worker.isIdle s + inPhase Phase.uncreated s
  reserved : s.numReserved = inPhase Phase.reserving s
  queued : s.numTasksQueued = s.taskQueue.length + inPhase Phase.inFlight s
  running : s.numTasksRunning = workers Worker.isRunning s
  departed : workers (· == .left) s = s.departedThreads.length + records s
  le_max : s.numThreads ≤ bounds.maxThreads
  held_le_max : workers (· != .joined) s ≤ bounds.maxThreads
  mutex : ∀ (j : Nat) (c : Call), s.calls[j]? = some c → c.phase.holdsThreadList → s.threadListMutex = some j
  tookRecords : ∀ (j : Nat) (c : Call), s.calls[j]? = some c → c.phase.tookRecords → s.departedThreads = []
  enough : s.numTasksQueued - inPhase Phase.isWaiting s ≤ s.numIdleWorkers ∨
    s.numThreads = bounds.maxThreads ∧ s.numReserved = 0
  tasks : ∀ j, held s j = returned s j

/-! ### What a step changes -/

theorem inPhase_set (P : Phase → Bool) (hc : s.calls[i]? = some call) (ht : t.calls = s.calls.set i { call with phase := p }) :
    inPhase P t = inPhase P s - (P call.phase).toInt + (P p).toInt := by
  rw [inPhase, ht]
  exact total_set hc _

theorem records_set (hc : s.calls[i]? = some call) (ht : t.calls = s.calls.set i { call with phase := p }) :
    records t = records s - call.phase.records.length + p.records.length := by
  rw [records, ht]
  exact total_set hc _

theorem workers_set (P : Worker → Bool) (hk : s.threads[k]? = some worker) {w : Worker}
    (ht : t.threads = s.threads.set k w) :
    workers P t = workers P s - (P worker).toInt + (P w).toInt := by
  rw [workers, ht]
  exact total_set hk _

/-- Workers that stay at a place or outside it keep its total. -/
theorem workers_set_of_eq (P : Worker → Bool) (hk : s.threads[k]? = some worker) {w : Worker}
    (ht : t.threads = s.threads.set k w) (hP : P w = P worker) : workers P t = workers P s := by
  rw [workers_set P hk ht, hP]
  omega

theorem inPhase_nonneg (P : Phase → Bool) : 0 ≤ inPhase P s :=
  total_nonneg fun call => by cases P call.phase <;> decide

theorem workers_nonneg (P : Worker → Bool) : 0 ≤ workers P s :=
  total_nonneg fun worker => by cases P worker <;> decide

theorem inPhase_pos (P : Phase → Bool) (hc : s.calls[i]? = some call) (hP : P call.phase = true) : 1 ≤ inPhase P s := by
  have h := le_total (w := fun call : Call => (P call.phase).toInt) (fun call : Call => by cases P call.phase <;> decide) hc
  rwa [hP] at h

theorem workers_pos (P : Worker → Bool) (hk : s.threads[k]? = some worker) (hP : P worker = true) : 1 ≤ workers P s := by
  have h := le_total (w := fun worker => (P worker).toInt) (fun worker => by cases P worker <;> decide) hk
  rwa [hP] at h

/-! ### Tasks -/

theorem perm_pushTask (tasks : List Task) (task : Task) : (pushTask tasks task).Perm (task :: tasks) := by
  unfold pushTask
  split
  · exact List.perm_append_singleton task tasks
  · refine List.perm_middle.trans (List.Perm.cons task ?_)
    rw [List.takeWhile_append_dropWhile]

theorem held_push (i : Nat) (call : Call) (j : Nat) : held (s.push i call) j = held s j + if i = j then 1 else 0 := by
  have hperm := ((perm_pushTask s.taskQueue ⟨i, call.priority⟩).map Task.call).append_right
    (s.taken.map fun pair => pair.1.call)
  refine (hperm.count_eq j).trans ?_
  rw [held, List.map_cons, List.cons_append, List.count_cons]
  simp only [beq_iff_eq]

theorem returned_set (hc : s.calls[i]? = some call) (ht : t.calls = s.calls.set i { call with phase := p }) (j : Nat) :
    returned t j = if i = j then (if p = .returned then 1 else 0) else returned s j := by
  unfold returned
  rw [ht, List.getElem?_set]
  have hlen : i < s.calls.length := (List.getElem?_eq_some_iff.mp hc).1
  split
  · rename_i hij
    subst hij
    simp
  · rfl

theorem returned_set_of_ne (hc : s.calls[i]? = some call) (ht : t.calls = s.calls.set i { call with phase := p })
    (hcall : call.phase ≠ .returned) (hphase : p ≠ .returned) (j : Nat) : returned t j = returned s j := by
  rw [returned_set hc ht]
  split
  · rename_i hij
    subst hij
    simp [returned, hc, hcall]
  · rfl

theorem returned_push (hc : s.calls[i]? = some call) (hcall : call.phase ≠ .returned) (j : Nat) :
    returned (s.push i call) j = returned s j + if i = j then 1 else 0 := by
  rw [returned_set hc (show (s.push i call).calls = s.calls.set i { call with phase := .returned } from rfl)]
  split
  · rename_i hij
    subst hij
    simp [returned, hc, hcall]
  · rfl

/-! ### Steps -/

/-- What a step inside `addWorker()` leaves alone until its end. -/
structure SameCounters (s t : State) : Prop where
  threads : t.numThreads = s.numThreads
  idle : t.numIdleWorkers = s.numIdleWorkers
  reserved : t.numReserved = s.numReserved
  queued : t.numTasksQueued = s.numTasksQueued
  running : t.numTasksRunning = s.numTasksRunning
  queue : t.taskQueue = s.taskQueue
  taken : t.taken = s.taken

namespace Phase

theorem inFlight_of_reserving (h : p.reserving = true) : p.inFlight = true := by
  rw [inFlight, h, Bool.true_or]

theorem isWaiting_of_reserving (h : p.reserving = true) : p.isWaiting = false := by
  cases p <;> first | rfl | cases h

theorem holds_of_tookRecords (h : p.tookRecords = true) : p.holdsThreadList = true := by
  cases p <;> first | rfl | cases h

theorem reserving_of_tookRecords (h : p.tookRecords = true) : p.reserving = true := by
  cases p <;> first | rfl | cases h

theorem ne_returned_of_reserving (h : p.reserving = true) : p ≠ .returned := by
  rintro rfl
  cases h

end Phase

theorem Inv.inside (h : Inv bounds s) (hc : s.calls[i]? = some call) (ht : t.calls = s.calls.set i { call with phase := p })
    (hsame : SameCounters s t) (hbefore : call.phase.reserving = true) (hafter : p.reserving = true)
    (hlive : workers Worker.isLive t + p.uncreated.toInt = workers Worker.isLive s + call.phase.uncreated.toInt)
    (hidle : workers Worker.isIdle t + p.uncreated.toInt = workers Worker.isIdle s + call.phase.uncreated.toInt)
    (hrunning : workers Worker.isRunning t = workers Worker.isRunning s)
    (hdeparted : workers (· == .left) t + s.departedThreads.length + call.phase.records.length =
      workers (· == .left) s + t.departedThreads.length + p.records.length)
    (hheld : workers (· != .joined) t ≤ bounds.maxThreads)
    (hmutex : ∀ (j : Nat) (c : Call), t.calls[j]? = some c → c.phase.holdsThreadList → t.threadListMutex = some j)
    (hrecords : ∀ (j : Nat) (c : Call), t.calls[j]? = some c → c.phase.tookRecords → t.departedThreads = []) :
    Inv bounds t := by
  have huncreated := inPhase_set Phase.uncreated hc ht
  have hreserving := inPhase_set Phase.reserving hc ht
  have hflight := inPhase_set Phase.inFlight hc ht
  have hwaiting := inPhase_set Phase.isWaiting hc ht
  have htaken := records_set hc ht
  rw [hbefore, hafter] at hreserving
  rw [Phase.inFlight_of_reserving hbefore, Phase.inFlight_of_reserving hafter] at hflight
  rw [Phase.isWaiting_of_reserving hbefore, Phase.isWaiting_of_reserving hafter] at hwaiting
  refine ⟨?_, ?_, ?_, ?_, ?_, ?_, ?_, hheld, hmutex, hrecords, ?_, fun j => ?_⟩
  · rw [hsame.threads, h.threads]
    omega
  · rw [hsame.idle, h.idle]
    omega
  · rw [hsame.reserved, h.reserved]
    omega
  · rw [hsame.queued, hsame.queue, h.queued]
    omega
  · rw [hsame.running, hrunning, h.running]
  · have := h.departed
    omega
  · rw [hsame.threads]
    exact h.le_max
  · rw [hsame.queued, hsame.idle, hsame.threads, hsame.reserved]
    have := h.enough
    omega
  · rw [returned_set_of_ne hc ht (Phase.ne_returned_of_reserving hbefore) (Phase.ne_returned_of_reserving hafter),
      ← h.tasks j, held, held, hsame.queue, hsame.taken]

/-- One call at most holds `_threadListMutex`. -/
theorem Inv.only (h : Inv bounds s) (hc : s.calls[i]? = some call) (hi : call.phase.holdsThreadList = true) {j : Nat}
    {c : Call} (hj : j ≠ i) (hcj : s.calls[j]? = some c) : c.phase.holdsThreadList = false := by
  by_contra hne
  have hmutex := h.mutex i call hc hi
  rw [h.mutex j c hcj (Bool.not_eq_false _ ▸ hne)] at hmutex
  exact hj (Option.some.inj hmutex)

theorem Inv.lockThreadList (h : Inv bounds s) (hc : s.calls[i]? = some call) (hp : call.phase = .reserved)
    (hfree : s.threadListMutex = none) :
    Inv bounds { s.setCall i call .listed with threadListMutex := some i } := by
  have hother (j : Nat) (c : Call) (hj : j ≠ i) (hcj : s.calls[j]? = some c) : c.phase.holdsThreadList = false := by
    by_contra hne
    have hmutex := h.mutex j c hcj (Bool.not_eq_false _ ▸ hne)
    rw [hfree] at hmutex
    cases hmutex
  refine h.inside hc rfl ⟨rfl, rfl, rfl, rfl, rfl, rfl, rfl⟩ (by rw [hp]; rfl) rfl (by rw [hp]; rfl) (by rw [hp]; rfl) rfl
    (by rw [hp]; rfl) h.held_le_max ?_ ?_
  · refine forall_set (fun _ => rfl) fun j c hj hcj hholds => ?_
    rw [hother j c hj hcj] at hholds
    cases hholds
  · refine forall_set (nofun) fun j c hj hcj htook => ?_
    have hholds := Phase.holds_of_tookRecords htook
    rw [hother j c hj hcj] at hholds
    cases hholds

theorem Inv.takeRecords (h : Inv bounds s) (hc : s.calls[i]? = some call) (hp : call.phase = .listed) :
    Inv bounds { s.setCall i call (.joining s.departedThreads) with departedThreads := [] } := by
  refine h.inside hc rfl ⟨rfl, rfl, rfl, rfl, rfl, rfl, rfl⟩ (by rw [hp]; rfl) rfl (by rw [hp]; rfl) (by rw [hp]; rfl) rfl
    ?_ h.held_le_max (forall_set (fun _ => h.mutex i call hc (by rw [hp]; rfl)) fun j c _ => h.mutex j c)
    fun _ _ _ _ => rfl
  rw [hp]
  simp only [Phase.records, List.length_nil]
  exact Int.add_right_comm _ _ _

theorem Inv.join (h : Inv bounds s) (hc : s.calls[i]? = some call) {departedThreads : List Nat}
    (hp : call.phase = .joining departedThreads) (hmem : k ∈ departedThreads) (hk : s.threads[k]? = some .left) :
    Inv bounds ((s.setCall i call (.joining (departedThreads.erase k))).setThread k .joined) := by
  refine h.inside hc rfl ⟨rfl, rfl, rfl, rfl, rfl, rfl, rfl⟩ (by rw [hp]; rfl) rfl ?_ ?_
    (workers_set_of_eq Worker.isRunning hk rfl rfl) ?_ ?_
    (forall_set (fun _ => h.mutex i call hc (by rw [hp]; rfl)) fun j c _ => h.mutex j c)
    (forall_set (fun _ => h.tookRecords i call hc (by rw [hp]; rfl)) fun j c _ => h.tookRecords j c)
  · rw [workers_set_of_eq Worker.isLive hk (w := .joined) rfl rfl, hp]
    rfl
  · rw [workers_set_of_eq Worker.isIdle hk (w := .joined) rfl rfl, hp]
    rfl
  · have hlength := List.length_erase_of_mem hmem
    have hpos := List.length_pos_of_mem hmem
    rw [workers_set (· == .left) hk (w := .joined) rfl, hp]
    show workers (· == .left) s - 1 + 0 + (s.departedThreads.length : Int) + (departedThreads.length : Int) =
      workers (· == .left) s + s.departedThreads.length + ((departedThreads.erase k).length : Int)
    omega
  · have := h.held_le_max
    rw [workers_set (· != .joined) hk (w := .joined) rfl]
    show workers (· != .joined) s - 1 + 0 ≤ _
    omega

/-- When the records that a call has taken are joined, every thread that has left is joined. -/
theorem Inv.left_eq_zero (h : Inv bounds s) (hc : s.calls[i]? = some call) (hp : call.phase = .joining []) :
    workers (· == .left) s = 0 := by
  have hzero : records s = 0 := by
    refine (total_eq_of_only hc fun j c hj hcj => ?_).trans (by rw [hp]; rfl)
    have hholds := h.only hc (by rw [hp]; rfl) hj hcj
    cases hcp : c.phase <;> first | rfl | (rw [hcp] at hholds; cases hholds)
  rw [h.departed, h.tookRecords i call hc (by rw [hp]; rfl), hzero]
  rfl

theorem held_eq (s : State) : workers (· != .joined) s = workers Worker.isLive s + workers (· == .left) s := by
  rw [workers, workers, workers, ← total_add]
  congr 1
  funext worker
  cases worker <;> rfl

theorem workers_append (P : Worker → Bool) {w : Worker} (ht : t.threads = s.threads ++ [w]) :
    workers P t = workers P s + (P w).toInt := by
  rw [workers, ht]
  exact total_append

theorem Inv.createStarted (h : Inv bounds s) (hc : s.calls[i]? = some call) (hp : call.phase = .joining []) :
    Inv bounds { s.setCall i call .created with threads := s.threads ++ [.starting] } := by
  refine h.inside hc rfl ⟨rfl, rfl, rfl, rfl, rfl, rfl, rfl⟩ (by rw [hp]; rfl) rfl ?_ ?_ ?_ ?_ ?_
    (forall_set (fun _ => h.mutex i call hc (by rw [hp]; rfl)) fun j c _ => h.mutex j c)
    (forall_set (fun _ => h.tookRecords i call hc (by rw [hp]; rfl)) fun j c _ => h.tookRecords j c)
  · rw [workers_append Worker.isLive rfl, hp]
    exact Int.add_assoc _ 1 0
  · rw [workers_append Worker.isIdle rfl, hp]
    exact Int.add_assoc _ 1 0
  · rw [workers_append Worker.isRunning rfl]
    exact Int.add_zero _
  · rw [workers_append (· == .left) rfl, hp]
    show workers (· == .left) s + 0 + (s.departedThreads.length : Int) + 0 = workers (· == .left) s + s.departedThreads.length + 0
    omega
  · have hthreads := h.threads
    have hmax := h.le_max
    have hleft := h.left_eq_zero hc hp
    have hone := inPhase_pos Phase.uncreated hc (by rw [hp]; rfl)
    rw [workers_append (· != .joined) rfl, held_eq s]
    show _ + 1 ≤ _
    omega

theorem Inv.createRefused (h : Inv bounds s) (hc : s.calls[i]? = some call)
    (hp : call.phase = .listed ∨ call.phase = .joining []) :
    Inv bounds { s.setCall i call .refused with threadListMutex := none } := by
  have hholds : call.phase.holdsThreadList = true := by rcases hp with hp | hp <;> rw [hp] <;> rfl
  have hnone (j : Nat) (c : Call) (hj : j ≠ i) (hcj : s.calls[j]? = some c) := h.only hc hholds hj hcj
  refine h.inside hc rfl ⟨rfl, rfl, rfl, rfl, rfl, rfl, rfl⟩ ?_ rfl ?_ ?_ rfl ?_ h.held_le_max
    (forall_set (nofun) fun j c hj hcj hi => ?_)
    (forall_set (nofun) fun j c hj hcj hi => ?_)
  · rcases hp with hp | hp <;> rw [hp] <;> rfl
  · rcases hp with hp | hp <;> rw [hp] <;> rfl
  · rcases hp with hp | hp <;> rw [hp] <;> rfl
  · rcases hp with hp | hp <;> rw [hp] <;> rfl
  · rw [hnone j c hj hcj] at hi
    cases hi
  · exact h.tookRecords j c hcj hi

theorem Inv.constrain (h : Inv bounds s) (hc : s.calls[i]? = some call) (hp : call.phase = .created) (accepted : Bool) :
    Inv bounds { s.setCall i call (.settled accepted) with threadListMutex := none } := by
  refine h.inside hc rfl ⟨rfl, rfl, rfl, rfl, rfl, rfl, rfl⟩ (by rw [hp]; rfl) rfl (by rw [hp]; rfl) (by rw [hp]; rfl) rfl
    (by rw [hp]; rfl) h.held_le_max (forall_set (nofun) fun j c hj hcj hi => ?_)
    (forall_set (nofun) fun j c _ hcj hi => h.tookRecords j c hcj hi)
  rw [h.only hc (by rw [hp]; rfl) hj hcj] at hi
  cases hi

/-- A step of a call that neither holds `_threadListMutex` nor gets it. -/
theorem Inv.outside (h : Inv bounds s) (hc : s.calls[i]? = some call) (ht : t.calls = s.calls.set i { call with phase := p })
    (hsame : t.threads = s.threads ∧ t.departedThreads = s.departedThreads ∧ t.threadListMutex = s.threadListMutex ∧
      t.numTasksRunning = s.numTasksRunning)
    (hbefore : call.phase.holdsThreadList = false) (hafter : p.holdsThreadList = false)
    (hthreads : t.numThreads = s.numThreads - call.phase.uncreated.toInt + p.uncreated.toInt)
    (hidle : t.numIdleWorkers = s.numIdleWorkers - call.phase.uncreated.toInt + p.uncreated.toInt)
    (hreserved : t.numReserved = s.numReserved - call.phase.reserving.toInt + p.reserving.toInt)
    (hqueued : t.numTasksQueued - t.taskQueue.length =
      s.numTasksQueued - s.taskQueue.length - call.phase.inFlight.toInt + p.inFlight.toInt)
    (hmax : t.numThreads ≤ bounds.maxThreads)
    (henough : t.numTasksQueued - inPhase Phase.isWaiting t ≤ t.numIdleWorkers ∨
      t.numThreads = bounds.maxThreads ∧ t.numReserved = 0)
    (htasks : ∀ j, held t j = returned t j) : Inv bounds t := by
  obtain ⟨sThreads, sDeparted, sMutex, sRunning⟩ := hsame
  have huncreated := inPhase_set Phase.uncreated hc ht
  have hreserving := inPhase_set Phase.reserving hc ht
  have hflight := inPhase_set Phase.inFlight hc ht
  have htaken : records t = records s := by
    have hno (p : Phase) (hp : p.holdsThreadList = false) : p.records = [] := by
      cases p <;> first | rfl | cases hp
    rw [records_set hc ht, hno _ hbefore, hno _ hafter]
    exact Int.sub_add_cancel _ _
  have hworkers (P : Worker → Bool) : workers P t = workers P s := by rw [workers, sThreads, workers]
  refine ⟨?_, ?_, ?_, ?_, ?_, ?_, hmax, ?_, ?_, ?_, henough, htasks⟩
  · rw [hthreads, h.threads, hworkers]
    omega
  · rw [hidle, h.idle, hworkers]
    omega
  · rw [hreserved, h.reserved]
    omega
  · have := h.queued
    omega
  · rw [sRunning, h.running, hworkers]
  · rw [hworkers, sDeparted, htaken]
    exact h.departed
  · rw [hworkers]
    exact h.held_le_max
  · rw [ht, sMutex]
    refine forall_set (fun hi => ?_) fun j c _ => h.mutex j c
    rw [hafter] at hi
    cases hi
  · rw [ht, sDeparted]
    refine forall_set (fun hi => ?_) fun j c _ => h.tookRecords j c
    have := Phase.holds_of_tookRecords hi
    rw [hafter] at this
    cases this

theorem length_pushTask (tasks : List Task) (task : Task) : (pushTask tasks task).length = tasks.length + 1 :=
  (perm_pushTask tasks task).length_eq

/-- A call that waits no more. -/
theorem Inv.proceed (h : Inv bounds s) (hc : s.calls[i]? = some call) (hp : call.phase = .waiting)
    (hmay : s.mayProceed bounds = true) : Inv bounds (s.proceed bounds i call) := by
  have hone := inPhase_pos Phase.isWaiting hc (by rw [hp]; rfl)
  have henough := h.enough
  have hmax := h.le_max
  have hreturned : call.phase ≠ .returned := by rw [hp]; exact nofun
  unfold State.proceed
  split
  · rename_i hlacks
    simp only [State.lacksIdleWorker, Bool.and_eq_true, decide_eq_true_eq] at hlacks
    refine h.outside hc rfl ⟨rfl, rfl, rfl, rfl⟩ (by rw [hp]; rfl) rfl ?_ ?_ ?_ ?_ ?_ ?_ fun j => ?_
    · simp [hp, Phase.uncreated]
    · simp [hp, Phase.uncreated]
    · simp [hp, Phase.reserving]
    · simp [hp, Phase.inFlight, Phase.reserving, Phase.isWaiting, State.setCall]
    · show s.numThreads + 1 ≤ _
      omega
    · rw [inPhase_set Phase.isWaiting hc rfl, hp]
      show s.numTasksQueued - (inPhase Phase.isWaiting s - 1 + 0) ≤ s.numIdleWorkers + 1 ∨ _
      omega
    · exact (h.tasks j).trans (returned_set_of_ne hc (p := .reserved) rfl hreturned nofun j).symm
  · rename_i hlacks
    simp only [State.lacksIdleWorker, Bool.and_eq_true, decide_eq_true_eq] at hlacks
    simp only [State.mayProceed, State.lacksIdleWorker, Bool.or_eq_true, Bool.not_eq_true', decide_eq_true_eq,
      decide_eq_false_iff_not] at hmay
    refine h.outside hc rfl ⟨rfl, rfl, rfl, rfl⟩ (by rw [hp]; rfl) rfl ?_ ?_ ?_ ?_ ?_ ?_ fun j => ?_
    · simp [hp, Phase.uncreated, State.push, State.setCall]
    · simp [hp, Phase.uncreated, State.push, State.setCall]
    · simp [hp, Phase.reserving, State.push, State.setCall]
    · simp [hp, Phase.inFlight, Phase.reserving, Phase.isWaiting, State.push, State.setCall, length_pushTask]
      omega
    · exact hmax
    · rw [inPhase_set Phase.isWaiting hc rfl, hp]
      show s.numTasksQueued - (inPhase Phase.isWaiting s - 1 + 0) ≤ s.numIdleWorkers ∨
        s.numThreads = bounds.maxThreads ∧ s.numReserved = 0
      omega
    · rw [held_push, returned_push hc hreturned, h.tasks j]

theorem Inv.relock (h : Inv bounds s) (hc : s.calls[i]? = some call) (ht : s.relock i call = some t) : Inv bounds t := by
  have henough := h.enough
  have hmax := h.le_max
  have hreserved := h.reserved
  unfold State.relock at ht
  dsimp only at ht
  cases hp : call.phase with
  | refused =>
    rw [hp] at ht
    cases ht
    have hone := inPhase_pos Phase.reserving hc (by rw [hp]; rfl)
    refine h.outside hc rfl ⟨rfl, rfl, rfl, rfl⟩ (by rw [hp]; rfl) rfl ?_ ?_ ?_ ?_ ?_ ?_ fun j => ?_
    · simp [hp, Phase.uncreated]
    · simp [hp, Phase.uncreated]
    · simp [hp, Phase.reserving, State.setCall]
    · simp [hp, Phase.inFlight, Phase.reserving, Phase.isWaiting, State.setCall]
      omega
    · show s.numThreads - 1 ≤ _
      omega
    · rw [inPhase_set Phase.isWaiting hc rfl, hp]
      show s.numTasksQueued - 1 - (inPhase Phase.isWaiting s - 0 + 0) ≤ s.numIdleWorkers - 1 ∨ _
      omega
    · exact (h.tasks j).trans (returned_set_of_ne hc (p := .threw) rfl (by rw [hp]; exact nofun) nofun j).symm
  | settled accepted =>
    rw [hp] at ht
    have hone := inPhase_pos Phase.reserving hc (by rw [hp]; rfl)
    cases accepted with
    | false =>
      cases ht
      refine h.outside hc rfl ⟨rfl, rfl, rfl, rfl⟩ (by rw [hp]; rfl) rfl ?_ ?_ ?_ ?_ hmax ?_ fun j => ?_
      · simp [hp, Phase.uncreated, State.setCall]
      · simp [hp, Phase.uncreated, State.setCall]
      · simp [hp, Phase.reserving, State.setCall]
      · simp [hp, Phase.inFlight, Phase.reserving, Phase.isWaiting, State.setCall]
        omega
      · rw [inPhase_set Phase.isWaiting hc rfl, hp]
        show s.numTasksQueued - 1 - (inPhase Phase.isWaiting s - 0 + 0) ≤ s.numIdleWorkers ∨ _
        omega
      · exact (h.tasks j).trans (returned_set_of_ne hc (p := .threw) rfl (by rw [hp]; exact nofun) nofun j).symm
    | true =>
      cases ht
      refine h.outside hc rfl ⟨rfl, rfl, rfl, rfl⟩ (by rw [hp]; rfl) rfl ?_ ?_ ?_ ?_ hmax ?_ fun j => ?_
      · simp [hp, Phase.uncreated, State.push, State.setCall]
      · simp [hp, Phase.uncreated, State.push, State.setCall]
      · simp [hp, Phase.reserving, State.push, State.setCall]
      · simp [hp, Phase.inFlight, Phase.reserving, Phase.isWaiting, State.push, State.setCall, length_pushTask]
        omega
      · rw [inPhase_set Phase.isWaiting hc rfl, hp]
        show s.numTasksQueued - (inPhase Phase.isWaiting s - 0 + 0) ≤ s.numIdleWorkers ∨ _
        omega
      · refine (held_push i call j).trans ?_
        refine Eq.trans ?_ (returned_push hc (by rw [hp]; exact nofun) j).symm
        rw [← h.tasks j]
        rfl
  | _ =>
    rw [hp] at ht
    cases ht

theorem Inv.addWorker (h : Inv bounds s) (hc : s.calls[i]? = some call) {step : State.AddWorker}
    (ht : s.addWorker i call step = some t) : Inv bounds t := by
  unfold State.addWorker at ht
  split at ht
  case h_1 hp =>
    split at ht <;> cases ht
    exact h.lockThreadList hc hp ‹_›
  case h_2 hp =>
    cases ht
    exact h.takeRecords hc hp
  case h_3 hp =>
    split at ht <;> cases ht
    rename_i hjoin
    exact h.join hc hp hjoin.1 hjoin.2
  case h_4 hp =>
    cases ht
    exact h.createStarted hc hp
  case h_5 hp =>
    cases ht
    exact h.createRefused hc (.inl hp)
  case h_6 hp =>
    cases ht
    exact h.createRefused hc (.inr hp)
  case h_7 hp =>
    cases ht
    exact h.constrain hc hp _
  case h_8 => exact h.relock hc ht
  case h_9 => cases ht

/-- A call that begins counts its task and waits at first. -/
theorem Inv.begin (h : Inv bounds s) (priority : Nat) :
    Inv bounds { s with numTasksQueued := s.numTasksQueued + 1, calls := s.calls ++ [⟨priority, .waiting⟩] } := by
  have hphase (P : Phase → Bool) :
      inPhase P { s with numTasksQueued := s.numTasksQueued + 1, calls := s.calls ++ [⟨priority, .waiting⟩] } =
        inPhase P s + (P .waiting).toInt := total_append
  have hrecords : records { s with numTasksQueued := s.numTasksQueued + 1, calls := s.calls ++ [⟨priority, .waiting⟩] } =
      records s := total_append.trans (Int.add_zero _)
  refine ⟨?_, ?_, ?_, ?_, h.running, ?_, h.le_max, h.held_le_max, ?_, ?_, ?_, fun j => ?_⟩
  · rw [hphase]
    exact h.threads.trans (congrArg (_ + ·) (Int.add_zero _).symm)
  · rw [hphase]
    exact h.idle.trans (congrArg (_ + ·) (Int.add_zero _).symm)
  · rw [hphase]
    exact h.reserved.trans (Int.add_zero _).symm
  · rw [hphase]
    show s.numTasksQueued + 1 = s.taskQueue.length + (inPhase Phase.inFlight s + 1)
    have := h.queued
    omega
  · rw [hrecords]
    exact h.departed
  · exact forall_append (nofun) fun j c => h.mutex j c
  · exact forall_append (nofun) fun j c => h.tookRecords j c
  · rw [hphase]
    show s.numTasksQueued + 1 - (inPhase Phase.isWaiting s + 1) ≤ s.numIdleWorkers ∨
      s.numThreads = bounds.maxThreads ∧ s.numReserved = 0
    have := h.enough
    omega
  · refine (h.tasks j).trans ?_
    rw [returned, returned, List.getElem?_append]
    by_cases hlen : j < s.calls.length
    · rw [if_pos hlen]
    · rw [if_neg hlen, List.getElem?_eq_none (Nat.not_lt.mp hlen)]
      cases hj : j - s.calls.length <;> rfl

theorem Inv.execute (h : Inv bounds s) (priority : Nat) : Inv bounds (s.execute bounds priority) := by
  unfold State.execute
  dsimp only
  split
  · refine (h.begin priority).proceed ?_ rfl ‹_›
    rw [List.length_append, List.length_singleton, Nat.add_sub_cancel, List.getElem?_concat_length]
  · exact h.begin priority

/-! ### Workers -/

/-- A step of a worker, which has not left. -/
theorem Inv.workerGoesOn (h : Inv bounds s) (hk : s.threads[k]? = some worker) {w : Worker}
    (ht : t.threads = s.threads.set k w) (hcalls : t.calls = s.calls)
    (hsame : t.numReserved = s.numReserved ∧ t.threadListMutex = s.threadListMutex)
    (hthreads : t.numThreads = s.numThreads - worker.isLive.toInt + w.isLive.toInt)
    (hidle : t.numIdleWorkers = s.numIdleWorkers - worker.isIdle.toInt + w.isIdle.toInt)
    (hrunning : t.numTasksRunning = s.numTasksRunning - worker.isRunning.toInt + w.isRunning.toInt)
    (hqueued : t.numTasksQueued - t.taskQueue.length = s.numTasksQueued - s.taskQueue.length)
    (hdeparted : (t.departedThreads.length : Int) = s.departedThreads.length + (w == .left).toInt)
    (hlive : worker.isLive = true) (hstays : w ≠ .joined)
    (hrecords : ∀ (j : Nat) (c : Call), s.calls[j]? = some c → c.phase.tookRecords → t.departedThreads = [])
    (henough : t.numTasksQueued - inPhase Phase.isWaiting s ≤ t.numIdleWorkers ∨
      t.numThreads = bounds.maxThreads ∧ t.numReserved = 0)
    (htasks : ∀ j, held t j = held s j) : Inv bounds t := by
  obtain ⟨sReserved, sMutex⟩ := hsame
  have hphase (P : Phase → Bool) : inPhase P t = inPhase P s := by rw [inPhase, hcalls, inPhase]
  have hrec : ThreadPool.records t = ThreadPool.records s := by rw [ThreadPool.records, hcalls, ThreadPool.records]
  have hset (P : Worker → Bool) := workers_set P hk ht
  have hw : w.isLive.toInt ≤ 1 := by cases w.isLive <;> decide
  refine ⟨?_, ?_, ?_, ?_, ?_, ?_, ?_, ?_, ?_, ?_, ?_, fun j => ?_⟩
  · rw [hset, hphase, hthreads, h.threads]
    omega
  · rw [hset, hphase, hidle, h.idle]
    omega
  · rw [hphase, sReserved, h.reserved]
  · rw [hphase]
    have := h.queued
    omega
  · rw [hset, hrunning, h.running]
  · have hleft : (worker == Worker.left) = false := by cases worker <;> first | rfl | cases hlive
    rw [hset, hrec, hdeparted, hleft, h.departed]
    simp only [Bool.toInt_false]
    omega
  · have := h.le_max
    rw [hlive] at hthreads
    simp only [Bool.toInt_true] at hthreads
    omega
  · have hheld : (worker != .joined) = true ∧ (w != .joined) = true := by
      constructor
      · cases worker <;> first | rfl | cases hlive
      · cases w <;> first | rfl | exact absurd rfl hstays
    rw [hset, hheld.1, hheld.2]
    have := h.held_le_max
    omega
  · rw [hcalls, sMutex]
    exact h.mutex
  · rw [hcalls]
    exact hrecords
  · rw [hphase]
    exact henough
  · rw [htasks, h.tasks, returned, returned, hcalls]

theorem Inv.workerLoop (h : Inv bounds s) (hk : s.threads[k]? = some .idle) (keepAliveOver : Bool) :
    Inv bounds (s.workerLoop bounds k keepAliveOver) := by
  have henough := h.enough
  have hflight := inPhase_nonneg (s := s) Phase.inFlight
  unfold State.workerLoop
  split
  case h_1 task taskQueue hqueue =>
    refine h.workerGoesOn hk (w := .running task) rfl rfl ⟨rfl, rfl⟩ ?_ ?_ ?_ ?_ ?_ rfl nofun h.tookRecords ?_ fun j => ?_
    · simp [Worker.isLive, State.setThread]
    · simp [Worker.isIdle]
    · simp [Worker.isRunning]
    · rw [hqueue, List.length_cons]
      show s.numTasksQueued - 1 - (taskQueue.length : Int) = s.numTasksQueued - ((taskQueue.length + 1 : Nat) : Int)
      omega
    · exact (Int.add_zero _).symm
    · show s.numTasksQueued - 1 - _ ≤ s.numIdleWorkers - 1 ∨ s.numThreads = bounds.maxThreads ∧ s.numReserved = 0
      omega
    · rw [held, held, hqueue]
      simp only [List.map_append, List.map_cons, List.map_nil, List.count_append, List.count_cons, List.count_nil]
      omega
  case h_2 hqueue =>
    split
    · exact h
    · rename_i hleave
      simp only [Bool.or_eq_true, Bool.not_eq_true', decide_eq_true_eq, not_or, Bool.not_eq_false] at hleave
      have hqueued := h.queued
      rw [hqueue] at hqueued
      have hwaiting := inPhase_nonneg (s := s) Phase.isWaiting
      have hidle := h.idle
      have hone := workers_pos Worker.isIdle hk rfl
      have huncreated := inPhase_nonneg (s := s) Phase.uncreated
      refine h.workerGoesOn hk (w := .left) rfl rfl ⟨rfl, rfl⟩ ?_ ?_ ?_ ?_ ?_ rfl nofun (fun j c hc htook => ?_) ?_ fun j => ?_
      · simp [Worker.isLive]
      · simp [Worker.isIdle]
      · simp [Worker.isRunning, State.setThread]
      · rfl
      · rw [List.length_append]
        rfl
      · -- a call inside `addWorker()` has counted its task, so that no worker leaves meanwhile
        have hpos := inPhase_pos Phase.inFlight hc (Phase.inFlight_of_reserving (Phase.reserving_of_tookRecords htook))
        simp only [List.length_nil] at hqueued
        omega
      · refine .inl ?_
        show s.numTasksQueued - _ ≤ s.numIdleWorkers - 1
        omega
      · rfl

theorem Inv.workerStep (h : Inv bounds s) (hk : s.threads[k]? = some worker) {keepAliveOver : Bool}
    (ht : s.worker bounds k keepAliveOver worker = some t) : Inv bounds t := by
  unfold State.worker at ht
  split at ht
  case h_1 =>
    split at ht <;> cases ht
    refine h.workerGoesOn hk (w := .idle) rfl rfl ⟨rfl, rfl⟩ ?_ ?_ ?_ rfl ?_ rfl nofun h.tookRecords h.enough fun j => rfl
    · simp [Worker.isLive, State.setThread]
    · simp [Worker.isIdle, State.setThread]
    · simp [Worker.isRunning, State.setThread]
    · exact (Int.add_zero _).symm
  case h_2 =>
    cases ht
    exact h.workerLoop hk keepAliveOver
  case h_3 =>
    cases ht
    refine h.workerGoesOn hk (w := .finished) rfl rfl ⟨rfl, rfl⟩ ?_ ?_ ?_ rfl ?_ rfl nofun h.tookRecords h.enough fun j => rfl
    · simp [Worker.isLive, State.setThread]
    · simp [Worker.isIdle, State.setThread]
    · simp [Worker.isRunning]
    · exact (Int.add_zero _).symm
  case h_4 =>
    cases ht
    have henough := h.enough
    refine h.workerGoesOn hk (w := .idle) rfl rfl ⟨rfl, rfl⟩ ?_ ?_ ?_ rfl ?_ rfl nofun h.tookRecords ?_ fun j => rfl
    · simp [Worker.isLive, State.setThread]
    · simp [Worker.isIdle]
    · simp [Worker.isRunning, State.setThread]
    · exact (Int.add_zero _).symm
    · show s.numTasksQueued - _ ≤ s.numIdleWorkers + 1 ∨ s.numThreads = bounds.maxThreads ∧ s.numReserved = 0
      omega
  all_goals cases ht

/-! ### Runs -/

theorem Inv.step (h : Inv bounds s) {act : Act} (ht : step bounds s act = some t) : Inv bounds t := by
  cases act with
  | execute priority =>
    cases ht
    exact h.execute priority
  | wake i =>
    obtain ⟨call, hc, ht⟩ := Option.bind_eq_some_iff.mp ht
    split at ht <;> cases ht
    rename_i hwake
    exact h.proceed hc hwake.1 hwake.2
  | addWorker i step =>
    obtain ⟨call, hc, ht⟩ := Option.bind_eq_some_iff.mp ht
    exact h.addWorker hc ht
  | worker k keepAliveOver =>
    obtain ⟨worker, hk, ht⟩ := Option.bind_eq_some_iff.mp ht
    exact h.workerStep hk ht

theorem total_replicate {w : Worker → Int} {n : Nat} {worker : Worker} :
    total w (List.replicate n worker) = n * w worker := by
  induction n with
  | zero => simp
  | succ n ih =>
    rw [List.replicate_succ, total_cons, ih, Int.natCast_succ, Int.add_mul, Int.one_mul]
    exact Int.add_comm _ _

theorem inv_constructed (bounds : Bounds) : Inv bounds (constructed bounds) := by
  have hworkers (P : Worker → Bool) : workers P (constructed bounds) = bounds.minThreads * (P .starting).toInt :=
    total_replicate
  have hmin := bounds.min_le_max
  refine ⟨?_, ?_, rfl, rfl, ?_, ?_, Int.ofNat_le.mpr hmin, ?_, nofun, nofun, ?_, fun j => rfl⟩
  · rw [hworkers]
    exact ((Int.add_zero _).trans (Int.mul_one _)).symm
  · rw [hworkers]
    exact ((Int.add_zero _).trans (Int.mul_one _)).symm
  · rw [hworkers]
    exact (Int.mul_zero _).symm
  · rw [hworkers]
    exact Int.mul_zero _
  · rw [hworkers]
    exact (Int.mul_one _).symm ▸ Int.ofNat_le.mpr hmin
  · exact .inl (Int.natCast_nonneg _)

theorem inv_of_reachable (h : (system bounds).Reachable s) : Inv bounds s :=
  h.invariant (fun _ hs => hs ▸ inv_constructed bounds) fun _ _ _ hs _ ht => hs.step ht

/-- The workers that have taken a task. -/
def takers (s : State) (i : Nat) : List Nat := (s.taken.filter fun pair => pair.1.call == i).map Prod.snd

theorem held_eq_takers (s : State) (i : Nat) :
    held s i = (s.taskQueue.map Task.call).count i + (takers s i).length := by
  have htaken : (s.taken.map fun pair => pair.1.call).count i = (takers s i).length := by
    rw [takers, List.length_map, ← List.countP_eq_length_filter, List.count, List.countP_map]
    rfl
  rw [held, List.count_append, htaken]

/-- In every state between two sections: the threads keep within the bounds; where no call waits, the workers that are idle
    or being created are enough for the queued tasks, or the pool is full; no counter is below zero; and the task of a call
    that threw is nowhere, whereas that of a call that returned is queued once, or has been taken by one worker once. -/
theorem accounting (bounds : Bounds) (h : (system bounds).Reachable s) :
    (s.numThreads ≤ bounds.maxThreads ∧ s.threads.countP (· != .joined) ≤ bounds.maxThreads) ∧
    ((∀ call ∈ s.calls, call.phase ≠ .waiting) → (s.taskQueue.length : Int) ≤ s.numTasksQueued ∧
      (s.numTasksQueued ≤ s.threads.countP Worker.isIdle + s.calls.countP (·.phase.uncreated) ∨
        s.numThreads = bounds.maxThreads)) ∧
    (0 ≤ s.numIdleWorkers ∧ 0 ≤ s.numReserved ∧ 0 ≤ s.numTasksQueued ∧ 0 ≤ s.numTasksRunning ∧ 0 ≤ s.numThreads) ∧
    ∀ (i : Nat) (call : Call), s.calls[i]? = some call →
      (call.phase = .threw → i ∉ s.taskQueue.map Task.call ∧ takers s i = []) ∧
      (call.phase = .returned → (s.taskQueue.map Task.call).count i = 1 ∧ takers s i = [] ∨
        i ∉ s.taskQueue.map Task.call ∧ ∃ k, takers s i = [k]) := by
  have hinv := inv_of_reachable h
  have hidle := hinv.idle
  have hqueued := hinv.queued
  have hthreads := hinv.threads
  have hheld := hinv.held_le_max
  have hflight := inPhase_nonneg (s := s) Phase.inFlight
  have huncreated := inPhase_nonneg (s := s) Phase.uncreated
  have hlive := workers_nonneg (s := s) Worker.isLive
  have hidleWorkers := workers_nonneg (s := s) Worker.isIdle
  refine ⟨⟨hinv.le_max, ?_⟩, fun hnone => ⟨by omega, ?_⟩, ⟨by omega, ?_, by omega, ?_, by omega⟩, fun i call hc => ?_⟩
  · rw [workers, total_toInt] at hheld
    exact Int.ofNat_le.mp hheld
  · have hzero : inPhase Phase.isWaiting s = 0 := by
      refine total_eq_zero fun call hcall => ?_
      have hphase := hnone call hcall
      cases hp : call.phase <;> first | rfl | exact absurd hp hphase
    have henough := hinv.enough
    rw [workers, total_toInt] at hidle
    rw [inPhase, total_toInt (fun call : Call => call.phase.uncreated)] at hidle
    omega
  · rw [hinv.reserved]
    exact inPhase_nonneg _
  · rw [hinv.running]
    exact workers_nonneg _
  · have htasks := hinv.tasks i
    rw [held_eq_takers, returned, hc, Option.map_some] at htasks
    refine ⟨fun hp => ?_, fun hp => ?_⟩
    · rw [hp, if_neg (by decide)] at htasks
      exact ⟨List.count_eq_zero.mp (Nat.eq_zero_of_add_eq_zero_right htasks),
        List.eq_nil_of_length_eq_zero (Nat.eq_zero_of_add_eq_zero_left htasks)⟩
    · rw [hp, if_pos rfl] at htasks
      obtain htakers | htakers : (takers s i).length = 0 ∨ (takers s i).length = 1 := by omega
      · exact .inl ⟨by omega, List.eq_nil_of_length_eq_zero htakers⟩
      · exact .inr ⟨List.count_eq_zero.mp (by omega), List.length_eq_one_iff.mp htakers⟩

/-- A second call adds a worker, which is refused while the first worker takes the first task. -/
def refusedWorker : List Act :=
  [.execute 0, .execute 0, .worker 0 false, .worker 0 false, .addWorker 1 .lockThreadList, .addWorker 1 .takeRecords,
    .addWorker 1 (.create false), .addWorker 1 .relock]

theorem accounting_refusedWorker :
    let bounds : Bounds := ⟨1, 2, by decide, by decide⟩
    ∃ s, (system bounds).Reachable s ∧ s.numThreads = 1 ∧ s.numTasksQueued = 0 ∧ takers s 0 = [0] ∧
      s.threads.countP (· != .joined) ≤ 2 ∧ 1 ∉ s.taskQueue.map Task.call := by
  have hr := (system ⟨1, 2, by decide, by decide⟩).reachable_get refusedWorker rfl (by decide)
  have hacc := accounting ⟨1, 2, by decide, by decide⟩ hr
  exact ⟨_, hr, by decide, by decide, by decide, hacc.1.2, (hacc.2.2.2 1 ⟨0, .threw⟩ (by decide)).1 rfl |>.1⟩

end GnuRadio.ThreadPool
