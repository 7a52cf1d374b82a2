import GnuRadio.Scheduler.Deferred

/-! A batch that a worker handles ends with the graph and the run that its commands give one by one, unless a swap
    replaces the record of a swap that has yet to restore its run. -/

namespace GnuRadio.Deferred

open LifeCycle (isActive)

variable {γ θ : Type} {graph : γ} {thread : θ} {s d q : Scheduler γ θ} {first n : Nat}

/-! ### The commands, by the state they find -/

/-- The states of a scheduler that no command pauses and no hook fails. -/
def Plain (state : LifeCycle.State) : Prop := state = .running ∨ state = .initialised ∨ state = .stopped

/-- No run, and none is claimed by the state. -/
def Inactive (state : LifeCycle.State) : Prop := state = .initialised ∨ state = .stopped

theorem Inactive.isActive {state : LifeCycle.State} (h : Inactive state) : isActive state = false := by
  obtain rfl | rfl := h <;> rfl

theorem changeStateTo_stop (worker : Option θ) (h : Plain s.state) :
    s.changeStateTo worker .requestedStop = ({ s with state := .stopped, generation := s.generation + 1 }, true) := by
  obtain ⟨_, state, _, _, _⟩ := s
  obtain rfl | rfl | rfl : Plain state := h
  all_goals rfl

theorem changeStateTo_initialised (worker : Option θ) (h : Inactive s.state) :
    s.changeStateTo worker .initialised = ({ s with state := .initialised }, true) := by
  obtain ⟨_, state, _, _, _⟩ := s
  obtain rfl | rfl : Inactive state := h
  all_goals rfl

theorem start_running (h : s.state = .running) : s.start none =
    { s with generation := s.generation + 1, workers := some (s.generation + 1) } := by
  obtain ⟨_, _, generation, _, workers⟩ := s
  cases h
  simp only [Scheduler.start, Scheduler.advanceRunGeneration, Scheduler.waitDone]
  by_cases hw : workers = some (generation + 1)
  · simp only [hw, if_true]
    rfl
  · simp only [hw, if_false]
    rfl

theorem changeStateTo_running (h : s.state = .initialised) : s.changeStateTo none .running =
    ({ s with state := .running, generation := s.generation + 1, workers := some (s.generation + 1) }, true) := by
  have hs : s.changeStateTo none .running = ({ s with state := .running }.start none, true) := by
    obtain ⟨_, _, _, _, _⟩ := s
    cases h
    rfl
  rw [hs, start_running rfl]

/-- A restart that no start or stop has cancelled. -/
theorem restoreRun_eq (h : Inactive s.state) : s.restoreRun s.generation .running =
    ({ s with state := .running, generation := s.generation + 1, workers := some (s.generation + 1) }, true) := by
  have hr := changeStateTo_running (s := { s with state := .initialised }) rfl
  simp only [Scheduler.restoreRun, changeStateTo_initialised none h, ne_eq, not_true_eq_false, if_false, hr]
  rfl

/-- A cancelled restart. -/
theorem restoreRun_stale {own : Nat} (h : Inactive s.state) (hg : s.generation ≠ own) : s.restoreRun own .running =
    ({ s with state := .stopped, generation := s.generation + 1 }, true) := by
  have hr := changeStateTo_stop (s := { s with state := .initialised }) none (.inr (.inl rfl))
  simp only [Scheduler.restoreRun, changeStateTo_initialised none h, ne_eq, hg, not_false_eq_true, if_true, hr]

theorem exchange_inactive (h : Inactive s.state) : s.exchange none graph = ({ s with graph := graph }, true) := by
  simp only [Scheduler.exchange, h.isActive, Bool.false_eq_true, if_false]

/-- A swap of a running scheduler advances the generation by its own stop and by its start. -/
theorem exchange_running (h : s.state = .running) (hw : s.workers ≠ some (s.generation + 1)) :
    s.exchange none graph =
      ({ s with graph := graph, generation := s.generation + 2, workers := some (s.generation + 2) }, true) := by
  obtain ⟨oldGraph, _, generation, pending, workers⟩ := s
  cases h
  have hs := changeStateTo_stop (s := ⟨oldGraph, .running, generation, pending, workers⟩) none (.inl rfl)
  have hstop : Scheduler.stopForSwap ⟨oldGraph, .running, generation, pending, workers⟩ =
      (⟨oldGraph, .stopped, generation + 1, pending, none⟩, true) := by
    simp only [Scheduler.stopForSwap, hs, Scheduler.waitDone, hw, if_false]
    rfl
  have hr := restoreRun_eq (s := ⟨graph, .stopped, generation + 1, pending, none⟩) (.inr rfl)
  have ha : isActive .running = true := rfl
  simp only [Scheduler.exchange, ha, if_true, hstop, hr]

/-! The same for the handlers. -/

theorem handle_reset (worker : Option θ) (h : Plain s.state) :
    handle worker s .reset = { s with state := if s.state = .stopped then .initialised else s.state } := by
  obtain ⟨_, state, _, _, _⟩ := s
  obtain rfl | rfl | rfl : Plain state := h
  all_goals rfl

theorem handle_start_of_ne (worker : Option θ) (h : Plain s.state) (hs : s.state ≠ .initialised) :
    handle worker s .start = s := by
  obtain ⟨_, state, _, _, _⟩ := s
  obtain rfl | rfl | rfl : Plain state := h
  · rfl
  · exact absurd rfl hs
  · rfl

theorem handle_start_worker (h : s.state = .initialised) :
    handle (some thread) s .start = { s with state := .running }.deferStart thread := by
  obtain ⟨_, _, _, _, _⟩ := s
  cases h
  rfl

theorem handle_exchange_worker_running (h : s.state = .running) : handle (some thread) s (.exchange graph) =
    { s with
      state := .stopped
      generation := s.generation + 1
      pendingExchange :=
        some ⟨some graph, true, s.generation + 1, thread, s.pendingExchange.any (·.claimed)⟩ } := by
  obtain ⟨_, _, _, _, _⟩ := s
  cases h
  rfl

theorem handle_exchange_worker (h : Inactive s.state) : handle (some thread) s (.exchange graph) =
    { s with pendingExchange := some ⟨some graph, false, 0, thread, s.pendingExchange.any (·.claimed)⟩ } := by
  simp only [handle, Scheduler.exchange, Scheduler.deferExchange, h.isActive, Bool.false_eq_true, if_false]

/-! ### The swaps of one run -/

/-- The state that the next command of a batch finds, and the swaps that were made for the run that the batch is to
    restore: the one that stopped it, and those that follow before a stop, or a start that takes effect. -/
def followSwaps : LifeCycle.State × Nat → Command γ → LifeCycle.State × Nat
  | (state, n), .exchange _ => if isActive state then (.stopped, 1) else (state, if n = 0 then 0 else n + 1)
  | _, .stop => (.stopped, 0)
  | (state, n), .reset => (if state = .stopped then .initialised else state, n)
  | (state, n), .start => if state = .initialised then (.running, 0) else (state, n)

def swapsOfRun (commands : List (Command γ)) : Nat := (commands.foldl followSwaps (.running, 0)).2

/-! ### The batch and the same commands one by one -/

/-- The graph once the record is applied. -/
def Scheduler.nextGraph (s : Scheduler γ θ) : γ := (s.pendingExchange.bind (·.graph)).getD s.graph

/-- How the scheduler of the batch stands to the one that has carried out each command: it runs, or a recorded start
    has it run. A swap has stopped it, and the record restores it. Another swap has replaced that record. It does not
    run, and no record restores it. The number is that of the swaps made for the run to restore. -/
inductive Phase (thread : θ) (first : Nat) (d q : Scheduler γ θ) : Nat → Prop
  | running (hd : d.state = .running) (hq : q.state = .running) (run : q.workers = some q.generation)
      (untouched : d.pendingExchange = none → d.generation = first)
      (joined : ∀ p, d.pendingExchange = some p →
        p.restart = true ∧ (p.graph = none → p.generation = d.generation)) : Phase thread first d q 0
  | restores (hd : Inactive d.state) (hq : q.state = .running) (run : q.workers = some q.generation) {graph : γ}
      (record : d.pendingExchange = some ⟨some graph, true, d.generation, thread, false⟩) : Phase thread first d q 1
  | lost {n : Nat} (hd : Inactive d.state) (hq : q.state = .running) (run : q.workers = some q.generation) {graph : γ}
      (record : d.pendingExchange = some ⟨some graph, false, 0, thread, false⟩) : Phase thread first d q (n + 2)
  | off (hd : Inactive d.state) (hq : q.state = d.state) (later : first < d.generation)
      (cancelled : ∀ p, d.pendingExchange = some p → p.restart = true → p.generation < d.generation) :
      Phase thread first d q 0

/-- The record of a batch is that of its worker, which has not claimed it. `first` is the generation of the workers that
    ran before the batch. -/
structure Tracks (thread : θ) (first : Nat) (d q : Scheduler γ θ) (v : LifeCycle.State × Nat) : Prop where
  state : d.state = v.1
  graph : q.graph = d.nextGraph
  workers : d.workers = some first
  later : first ≤ d.generation
  request : ∀ p, d.pendingExchange = some p →
    p.claimed = false ∧ p.requester = thread ∧ first < d.generation ∧ p.generation ≤ d.generation
  phase : Phase thread first d q v.2

theorem Phase.plain (h : Phase thread first d q n) : Plain d.state ∧ Plain q.state := by
  cases h with
  | running hd hq => exact ⟨.inl hd, .inl hq⟩
  | restores hd hq | lost hd hq => exact ⟨.inr hd, .inl hq⟩
  | off hd hq => exact ⟨.inr hd, .inr (hq ▸ hd)⟩

variable {v : LifeCycle.State × Nat}

theorem Tracks.any_claimed (h : Tracks thread first d q v) :
    d.pendingExchange.any (·.claimed) = false := by
  cases hp : d.pendingExchange with
  | none => rfl
  | some p => exact (h.request p hp).1

theorem Tracks.start {s : Scheduler γ θ} (hs : s.state = .running) (hw : s.workers = some s.generation)
    (hp : s.pendingExchange = none) : Tracks thread s.generation s s (.running, 0) where
  state := hs
  graph := by simp only [Scheduler.nextGraph, hp, Option.bind_none, Option.getD_none]
  workers := hw
  later := Nat.le_refl _
  request p h := by rw [hp] at h; cases h
  phase := .running hs hs hw (fun _ => rfl) fun p h => by rw [hp] at h; cases h

theorem Tracks.exchange (h : Tracks thread first d q v) : Tracks thread first
    (handle (some thread) d (.exchange graph)) (handle none q (.exchange graph)) (followSwaps v (.exchange graph)) := by
  obtain ⟨state, n⟩ := v
  obtain rfl : d.state = state := h.state
  -- one by one, a running scheduler is stopped and restored at once
  have restored (hq : q.state = .running) (run : q.workers = some q.generation) :
      handle none q (.exchange graph) =
        { q with graph := graph, generation := q.generation + 2, workers := some (q.generation + 2) } := by
    have hw : q.workers ≠ some (q.generation + 1) := by
      rw [run]
      intro h
      have := Option.some.inj h
      omega
    rw [handle, exchange_running hq hw]
  cases h.phase with
  | running hd hq run =>
    rw [restored hq run, handle_exchange_worker_running hd, h.any_claimed]
    have hv : followSwaps (d.state, 0) (.exchange graph) = (.stopped, 1) := by rw [hd]; rfl
    rw [hv]
    refine ⟨rfl, rfl, h.workers, Nat.le_succ_of_le h.later, ?_, .restores (.inr rfl) hq rfl rfl⟩
    rintro p ⟨⟩
    exact ⟨rfl, rfl, Nat.lt_succ_of_le h.later, Nat.le_refl _⟩
  | restores hd hq run record =>
    rw [restored hq run, handle_exchange_worker hd, h.any_claimed]
    have hv : followSwaps (d.state, 1) (.exchange graph) = (d.state, 2) := by
      simp only [followSwaps, hd.isActive, Bool.false_eq_true, if_false]
      rfl
    rw [hv]
    refine ⟨rfl, rfl, h.workers, h.later, ?_, .lost hd hq rfl rfl⟩
    rintro p ⟨⟩
    exact ⟨rfl, rfl, (h.request _ record).2.2.1, Nat.zero_le _⟩
  | @lost n hd hq run _ record =>
    rw [restored hq run, handle_exchange_worker hd, h.any_claimed]
    have hv : followSwaps (d.state, n + 2) (.exchange graph) = (d.state, n + 1 + 2) := by
      simp only [followSwaps, hd.isActive, Bool.false_eq_true, if_false]
      rfl
    rw [hv]
    refine ⟨rfl, rfl, h.workers, h.later, ?_, .lost hd hq rfl rfl⟩
    rintro p ⟨⟩
    exact ⟨rfl, rfl, (h.request _ record).2.2.1, Nat.zero_le _⟩
  | off hd hq later cancelled =>
    have swapped : handle none q (.exchange graph) = { q with graph := graph } := by
      rw [handle, exchange_inactive (hq ▸ hd)]
    rw [swapped, handle_exchange_worker hd, h.any_claimed]
    have hv : followSwaps (d.state, 0) (.exchange graph) = (d.state, 0) := by
      simp only [followSwaps, hd.isActive, Bool.false_eq_true, if_false]
      rfl
    rw [hv]
    refine ⟨rfl, rfl, h.workers, h.later, ?_, .off hd hq later ?_⟩
    · rintro p ⟨⟩
      exact ⟨rfl, rfl, later, Nat.zero_le _⟩
    · rintro p ⟨⟩ ⟨⟩

theorem Tracks.stop (h : Tracks thread first d q v) :
    Tracks thread first (handle (some thread) d .stop) (handle none q .stop) (followSwaps v (.stop : Command γ)) := by
  obtain ⟨hd, hq⟩ := h.phase.plain
  simp only [handle, changeStateTo_stop _ hd, changeStateTo_stop _ hq]
  refine ⟨rfl, h.graph, h.workers, Nat.le_succ_of_le h.later, fun p hp => ?_, .off (.inr rfl) rfl
    (Nat.lt_succ_of_le h.later) fun p hp _ => Nat.lt_succ_of_le (h.request p hp).2.2.2⟩
  obtain ⟨h₁, h₂, h₃, h₄⟩ := h.request p hp
  exact ⟨h₁, h₂, Nat.lt_succ_of_lt h₃, Nat.le_succ_of_le h₄⟩

theorem Tracks.reset (h : Tracks thread first d q v) :
    Tracks thread first (handle (some thread) d .reset) (handle none q .reset) (followSwaps v (.reset : Command γ)) := by
  obtain ⟨hd, hq⟩ := h.phase.plain
  obtain ⟨state, n⟩ := v
  obtain rfl : d.state = state := h.state
  have inactive (hd : Inactive d.state) : Inactive (if d.state = .stopped then .initialised else d.state) := by
    obtain hd | hd := hd <;> rw [hd]
    · exact .inl rfl
    · exact .inl rfl
  rw [handle_reset _ hd, handle_reset _ hq]
  refine ⟨rfl, h.graph, h.workers, h.later, h.request, ?_⟩
  cases h.phase with
  | running hd hq run untouched joined =>
    exact .running (by simp only [hd]; rfl) (by simp only [hq]; rfl) run untouched joined
  | restores hd hq run record => exact .restores (inactive hd) (by simp only [hq]; rfl) run record
  | lost hd hq run record => exact .lost (inactive hd) (by simp only [hq]; rfl) run record
  | off hd hq later cancelled => exact .off (inactive hd) (by simp only [hq]) later cancelled

/-- A recorded start, next to a run. -/
theorem Tracks.deferStart (h : Tracks thread first d q v) (later : first < d.generation)
    {q' : Scheduler γ θ} (hg : q'.graph = d.nextGraph) (hq : q'.state = .running)
    (run : q'.workers = some q'.generation) :
    Tracks thread first ({ d with state := .running }.deferStart thread) q' (.running, 0) := by
  simp only [Scheduler.deferStart]
  cases hp : d.pendingExchange with
  | none =>
    refine ⟨rfl, ?_, h.workers, h.later, ?_, .running rfl hq run (nofun) ?_⟩
    · rw [hg, Scheduler.nextGraph, hp]
      rfl
    · rintro p ⟨⟩
      exact ⟨rfl, rfl, later, Nat.le_refl _⟩
    · rintro p ⟨⟩
      exact ⟨rfl, fun _ => rfl⟩
  | some p =>
    refine ⟨rfl, ?_, h.workers, h.later, ?_, .running rfl hq run (nofun) ?_⟩
    · rw [hg, Scheduler.nextGraph, hp]
      rfl
    · rintro p' ⟨⟩
      exact ⟨(h.request p hp).1, rfl, later, Nat.le_refl _⟩
    · rintro p' ⟨⟩
      exact ⟨rfl, fun _ => rfl⟩

theorem Tracks.startCommand (h : Tracks thread first d q v) :
    Tracks thread first (handle (some thread) d .start) (handle none q .start) (followSwaps v (.start : Command γ)) := by
  obtain ⟨plain, plain'⟩ := h.phase.plain
  obtain ⟨state, n⟩ := v
  obtain rfl : d.state = state := h.state
  by_cases hs : d.state = .initialised
  · have hv : followSwaps (d.state, n) (.start : Command γ) = (.running, 0) := by simp only [followSwaps, hs, if_true]
    rw [hv, handle_start_worker hs]
    -- one by one, a run begins, or goes on where a swap has restored it
    cases h.phase with
    | running hd => rw [hd] at hs; cases hs
    | restores _ hq run record | lost _ hq run record =>
      rw [handle_start_of_ne none (.inl hq) (by rw [hq]; exact nofun)]
      exact h.deferStart (h.request _ record).2.2.1 h.graph hq run
    | off _ hq later =>
      have hq' : handle none q .start =
          { q with state := .running, generation := q.generation + 1, workers := some (q.generation + 1) } := by
        rw [handle, changeStateTo_running (hq ▸ hs)]
      rw [hq']
      exact h.deferStart later h.graph rfl rfl
  · have hv : followSwaps (d.state, n) (.start : Command γ) = (d.state, n) := by simp only [followSwaps, hs, if_false]
    have hq : q.state ≠ .initialised := by
      cases h.phase with
      | running _ hq | restores _ hq | lost _ hq =>
        rw [hq]
        exact nofun
      | off _ hq => exact hq ▸ hs
    rw [hv, handle_start_of_ne _ plain hs, handle_start_of_ne _ plain' hq]
    exact h

theorem Tracks.commands (h : Tracks thread first d q v) (commands : List (Command γ)) :
    Tracks thread first (commands.foldl (handle (some thread)) d) (commands.foldl (handle none) q)
      (commands.foldl followSwaps v) := by
  induction commands generalizing d q v with
  | nil => exact h
  | cons c commands ih =>
    cases c with
    | exchange graph => exact ih h.exchange
    | stop => exact ih h.stop
    | reset => exact ih h.reset
    | start => exact ih h.startCommand

/-! ### The record is applied -/

theorem waitDone_retired (hw : s.workers = some first) (hg : first < s.generation) :
    s.waitDone = { s with workers := none } := by
  rw [Scheduler.waitDone, if_neg]
  rw [hw]
  intro h
  have := Option.some.inj h
  omega

section Release

variable [DecidableEq θ]

/-- The record is taken, once the other workers have left. -/
def Scheduler.taken (s : Scheduler γ θ) : Scheduler γ θ := { s with pendingExchange := none, workers := none }

omit [DecidableEq θ] in
theorem taken_state : s.taken.state = s.state := rfl

omit [DecidableEq θ] in
theorem taken_generation : s.taken.generation = s.generation := rfl

/-- The worker leaves: the other workers have left, and the record is taken. -/
theorem Tracks.release {v : LifeCycle.State × Nat} (h : Tracks thread first d q v) {p : PendingExchange γ θ}
    (hp : d.pendingExchange = some p) : d.releaseWorkerCount thread =
      match p.graph with
      | none => d.taken.applyDeferredStart p.generation
      | some graph =>
        match d.taken.exchange none graph with
        | (s, false) => s
        | (s, true) =>
          if p.restart && !isActive d.state && !isActive s.state then (s.restoreRun p.generation .running).1 else s := by
  obtain ⟨h₁, h₂, later, -⟩ := h.request p hp
  have hw := waitDone_retired (s := { d with pendingExchange := some { p with claimed := true } }) h.workers later
  have hs : d.state ≠ .requestedStop := by
    obtain hd | hd | hd := h.phase.plain.1 <;> rw [hd] <;> exact nofun
  have hr : d.releaseWorkerCount thread =
      { d with pendingExchange := some { p with claimed := true } }.applyPendingExchange := by
    simp only [Scheduler.releaseWorkerCount, hp, h₁, decide_eq_true h₂, Bool.not_false, Bool.and_true, if_true]
  rw [hr, Scheduler.applyPendingExchange, hw]
  simp only [hs, if_false]
  cases p.graph <;> rfl

omit [DecidableEq θ] in
theorem inProgress_inactive (h : Inactive s.state) : ¬ s.InProgress := fun hs => by
  rw [Scheduler.InProgress, h.isActive] at hs
  cases hs.1

omit [DecidableEq θ] in
theorem inProgress_running (h : s.state = .running) (hw : s.workers = some s.generation) : s.InProgress :=
  ⟨by rw [h]; rfl, hw⟩

/-- The graph is the same in every phase. The run is, but where a record was lost. -/
theorem Tracks.released {v : LifeCycle.State × Nat} (h : Tracks thread first d q v) {t : Scheduler γ θ}
    (ht : (if d.generation = first then d else d.releaseWorkerCount thread) = t) :
    t.graph = q.graph ∧ (t.InProgress ↔ q.InProgress ∧ v.2 ≤ 1) := by
  obtain ⟨state, n⟩ := v
  have left {p : PendingExchange γ θ} (hp : d.pendingExchange = some p) : d.releaseWorkerCount thread = t := by
    rwa [if_neg (Nat.ne_of_gt (h.request p hp).2.2.1)] at ht
  rw [h.graph, Scheduler.nextGraph]
  cases h.phase with
  | running hd hq run untouched joined =>
    have hrun : q.InProgress ∧ 0 ≤ 1 := ⟨inProgress_running hq run, Nat.zero_le _⟩
    suffices ht : t.graph = (d.pendingExchange.bind (·.graph)).getD d.graph ∧ t.InProgress from
      ⟨ht.1, fun _ => hrun, fun _ => ht.2⟩
    cases hp : d.pendingExchange with
    | none =>
      rw [if_pos (untouched hp)] at ht
      subst ht
      exact ⟨rfl, inProgress_running hd (h.workers.trans (congrArg some (untouched hp).symm))⟩
    | some p =>
      obtain ⟨restart, hg⟩ := joined p hp
      rw [← left hp, h.release hp]
      cases hgraph : p.graph with
      | none =>
        simp only [Scheduler.applyDeferredStart, taken_generation, taken_state, hg hgraph, hd, and_self, if_true]
        rw [start_running (s := d.taken) hd]
        refine ⟨?_, inProgress_running hd rfl⟩
        rw [Option.bind_some, hgraph]
        rfl
      | some graph =>
        have hx : d.taken.exchange none graph = _ := exchange_running hd nofun
        have ha : isActive d.state = true := by rw [hd]; rfl
        simp only [hx, ha, Bool.not_true, Bool.and_false, Bool.false_and, Bool.false_eq_true, if_false]
        refine ⟨?_, inProgress_running hd rfl⟩
        rw [Option.bind_some, hgraph]
        rfl
  | @restores hd hq run graph record =>
    have hx : d.taken.exchange none graph = (⟨graph, d.state, d.generation, none, none⟩, true) := exchange_inactive hd
    have hr : (⟨graph, d.state, d.generation, none, none⟩ : Scheduler γ θ).restoreRun d.generation .running =
        (⟨graph, .running, d.generation + 1, none, some (d.generation + 1)⟩, true) := restoreRun_eq hd
    rw [← left record, h.release record, record]
    simp only [hx, hd.isActive, Bool.not_false, Bool.and_self, if_true, hr]
    exact ⟨rfl, fun _ => ⟨inProgress_running hq run, Nat.le_refl _⟩, fun _ => inProgress_running rfl rfl⟩
  | @lost n hd hq run graph record =>
    have hx : d.taken.exchange none graph = (⟨graph, d.state, d.generation, none, none⟩, true) := exchange_inactive hd
    rw [← left record, h.release record, record]
    simp only [hx, Bool.false_and, Bool.false_eq_true, if_false]
    exact ⟨rfl, fun h => absurd h (inProgress_inactive hd), fun h => absurd h.2 (by simp)⟩
  | off hd hq later cancelled =>
    suffices ht : t.graph = (d.pendingExchange.bind (·.graph)).getD d.graph ∧ Inactive t.state from
      ⟨ht.1, fun h => absurd h (inProgress_inactive ht.2), fun h => absurd h.1 (inProgress_inactive (hq ▸ hd))⟩
    cases hp : d.pendingExchange with
    | none =>
      rw [if_neg (Nat.ne_of_gt later)] at ht
      simp only [Scheduler.releaseWorkerCount, hp] at ht
      subst ht
      exact ⟨rfl, hd⟩
    | some p =>
      rw [← left hp, h.release hp, Option.bind_some]
      cases hgraph : p.graph with
      | none =>
        have hs : d.state ≠ .running := by obtain hd | hd := hd <;> rw [hd] <;> exact nofun
        simp only [Scheduler.applyDeferredStart, taken_state, hs, and_false, if_false, hd.isActive, Bool.false_eq_true]
        exact ⟨rfl, hd⟩
      | some graph =>
        have hx : d.taken.exchange none graph = (⟨graph, d.state, d.generation, none, none⟩, true) := exchange_inactive hd
        simp only [hx, hd.isActive, Bool.not_false, Bool.and_true]
        split
        · next restart =>
          -- a stop that follows on the record has advanced the generation
          have hr : (⟨graph, d.state, d.generation, none, none⟩ : Scheduler γ θ).restoreRun p.generation .running =
              (⟨graph, .stopped, d.generation + 1, none, none⟩, true) :=
            restoreRun_stale hd (Nat.ne_of_gt (cancelled p hp restart))
          rw [hr]
          exact ⟨rfl, .inr rfl⟩
        · exact ⟨rfl, hd⟩

/-- A scheduler whose workers run its graph, with nothing left to one of them. -/
structure Start (s : Scheduler γ θ) : Prop where
  state : s.state = .running
  workers : s.workers = some s.generation
  pendingExchange : s.pendingExchange = none

/-- The batch ends with the graph and the run of its commands one by one. -/
def Agrees (thread : θ) (commands : List (Command γ)) (s : Scheduler γ θ) : Prop :=
  (batch thread commands s).graph = (oneByOne commands s).graph ∧
    ((batch thread commands s).InProgress ↔ (oneByOne commands s).InProgress)

instance [DecidableEq γ] (thread : θ) (commands : List (Command γ)) (s : Scheduler γ θ) :
    Decidable (Agrees thread commands s) := inferInstanceAs (Decidable (_ ∧ _))

omit [DecidableEq θ] in
/-- A run that more than one swap was made for runs, one by one. -/
theorem Phase.inProgress (h : Phase thread first d q n) (hn : 1 < n) : q.InProgress := by
  cases h with
  | running | off => cases hn
  | restores _ hq run | lost _ hq run => exact inProgress_running hq run

theorem commandsAgree_iff (h : Start s) (commands : List (Command γ)) :
    Agrees thread commands s ↔ swapsOfRun commands ≤ 1 := by
  have tracks : Tracks thread s.generation _ _ _ :=
    (Tracks.start h.state h.workers h.pendingExchange).commands commands
  obtain ⟨hg, hp⟩ := tracks.released (t := batch thread commands s) rfl
  constructor
  · rintro ⟨-, hrun⟩
    refine Nat.le_of_not_lt fun hn => ?_
    exact Nat.not_lt_of_le (hp.mp (hrun.mpr (tracks.phase.inProgress hn))).2 hn
  · exact fun hn => ⟨hg, hp.trans ⟨fun h => h.1, fun h => ⟨h, hn⟩⟩⟩

end Release

/-! ### Batches without a reset -/

def Command.isExchange : Command γ → Bool
  | .exchange _ => true
  | .stop | .reset | .start => false

variable {commands : List (Command γ)}

/-- Without a reset no start takes effect on a scheduler that has stopped. -/
theorem followSwaps_stopped_zero (h : .reset ∉ commands) :
    (commands.foldl followSwaps (.stopped, 0)).2 = 0 := by
  induction commands with
  | nil => rfl
  | cons c commands ih =>
    rw [List.mem_cons, not_or] at h
    cases c with
    | reset => exact absurd rfl h.1
    | exchange _ | stop | start => exact ih h.2

theorem followSwaps_stopped (h : .reset ∉ commands) (n : Nat) :
    (.stop ∈ commands → (commands.foldl followSwaps (.stopped, n + 1)).2 = 0) ∧
      (.stop ∉ commands →
        (commands.foldl followSwaps (.stopped, n + 1)).2 = n + 1 + commands.countP Command.isExchange) := by
  induction commands generalizing n with
  | nil => exact ⟨fun h => (by cases h), fun _ => rfl⟩
  | cons c commands ih =>
    rw [List.mem_cons, not_or] at h
    cases c with
    | reset => exact absurd rfl h.1
    | exchange graph =>
      obtain ⟨h₁, h₂⟩ := ih h.2 (n + 1)
      refine ⟨fun hs => h₁ ((List.mem_cons.mp hs).resolve_left nofun), fun hs => ?_⟩
      refine (h₂ fun h => hs (.tail _ h)).trans ?_
      rw [List.countP_cons_of_pos rfl]
      omega
    | stop => exact ⟨fun _ => followSwaps_stopped_zero h.2, fun hs => absurd (.head _) hs⟩
    | start =>
      obtain ⟨h₁, h₂⟩ := ih h.2 n
      refine ⟨fun hs => h₁ ((List.mem_cons.mp hs).resolve_left nofun), fun hs => ?_⟩
      refine (h₂ fun h => hs (.tail _ h)).trans ?_
      rw [List.countP_cons_of_neg (by simp [Command.isExchange])]

theorem swapsOfRun_eq (h : .reset ∉ commands) :
    (.stop ∈ commands → swapsOfRun commands = 0) ∧
      (.stop ∉ commands → swapsOfRun commands = commands.countP Command.isExchange) := by
  induction commands with
  | nil => exact ⟨fun h => (by cases h), fun _ => rfl⟩
  | cons c commands ih =>
    rw [List.mem_cons, not_or] at h
    cases c with
    | reset => exact absurd rfl h.1
    | exchange graph =>
      obtain ⟨h₁, h₂⟩ := followSwaps_stopped h.2 0
      refine ⟨fun hs => h₁ ((List.mem_cons.mp hs).resolve_left nofun), fun hs => ?_⟩
      refine (h₂ fun h => hs (.tail _ h)).trans ?_
      rw [List.countP_cons_of_pos rfl]
      omega
    | stop => exact ⟨fun _ => followSwaps_stopped_zero h.2, fun hs => absurd (.head _) hs⟩
    | start =>
      obtain ⟨h₁, h₂⟩ := ih h.2
      refine ⟨fun hs => h₁ ((List.mem_cons.mp hs).resolve_left nofun), fun hs => ?_⟩
      refine (h₂ fun h => hs (.tail _ h)).trans ?_
      rw [List.countP_cons_of_neg (by simp [Command.isExchange])]

/-! ### The batch agrees with its commands one by one -/

variable [DecidableEq θ]

/-- It does so exactly if no swap follows on another that stopped the run, before a stop or a start that takes effect.
    Without a reset in the batch that is to say: it has a stop, or one swap at most. -/
theorem batch_agrees (h : Start s) (thread : θ) (commands : List (Command γ)) :
    (Agrees thread commands s ↔ swapsOfRun commands ≤ 1) ∧
      (.reset ∉ commands →
        (Agrees thread commands s ↔ .stop ∈ commands ∨ commands.countP Command.isExchange ≤ 1)) := by
  refine ⟨commandsAgree_iff h commands, fun hr => ?_⟩
  rw [commandsAgree_iff h commands]
  obtain ⟨h₁, h₂⟩ := swapsOfRun_eq hr
  by_cases hs : .stop ∈ commands
  · simp only [h₁ hs, hs, Nat.zero_le, true_or]
  · simp only [h₂ hs, hs, false_or]

/-- A worker of a run. -/
def worker : Scheduler Nat Nat := ⟨0, .running, 1, none, some 1⟩

theorem worker_start : Start worker := ⟨rfl, rfl, rfl⟩

theorem batch_agrees_reset : Agrees 7 [.exchange 1, .reset, .start, .exchange 2] worker :=
  (batch_agrees worker_start 7 _).1.mpr (by decide)

/-- Two swaps in one batch: the second graph is there, and does not run. -/
theorem two_swaps_stop : ¬ ∀ s : Scheduler Nat Nat, Start s → ∀ commands, .reset ∉ commands → Agrees 7 commands s :=
  fun h => absurd (h worker worker_start [.exchange 1, .exchange 2] (by decide)) (by decide)

end GnuRadio.Deferred
