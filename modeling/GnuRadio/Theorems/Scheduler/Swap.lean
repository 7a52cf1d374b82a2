import GnuRadio.Scheduler.Swap

/-! A stop request that has returned is not lost to a graph swap, as long as the swap restores a run only where the stop
    it takes for its own was its own, and no request is ignored after that. -/

namespace GnuRadio.Swap

open Function

open LifeCycle (isActive isShuttingDown observe)

variable {ι : Type} {n : Nat} {r r' : Run} {o : OwnStop} {q q' : StopRequest} {x x' : Exchange}

/-! ### The conditions on a step -/

/-- `restoreRun()` finds the generation unchanged only where the swap's own request claimed the stop. -/
def RestoresOwnStop (s : State ι) : Act ι → Prop
  | .swap =>
    match s.swap with
    | .compareGeneration o => s.run.generation = o.ownGeneration → o.claimed = true
    | _ => True
  | _ => True

/-- The last branch of `transitionSatisfied`: the state left what satisfied the request, and not for a restart by
    `restoreRun()`. -/
def Run.Ignores (r : Run) (satisfiedBy : LifeCycle.State) : Prop :=
  ¬ (r.state = satisfiedBy ∨ isShuttingDown r.state = true) ∧ r.restoring = false

/-- The swap is about to compare the generation, or stops the scheduler again. -/
def Exchange.Comparing : Exchange → Prop
  | .compareGeneration _ | .stopAgain _ => True
  | _ => False

/-- A request is ignored only while the swap will stop the scheduler itself. -/
def Heeded (s : State ι) : Act ι → Prop
  | .stop i =>
    match s.requests i with
    | some (.transitionSatisfied satisfiedBy) => s.run.Ignores satisfiedBy → s.swap.Comparing
    | _ => True
  | _ => True

structure Kept (s : State ι) (a : Act ι) : Prop where
  restoresOwnStop : RestoresOwnStop s a
  heeded : Heeded s a

/-! ### Changes of the state -/

theorem Run.changeStateTo_cases (r : Run) (newState : LifeCycle.State) (observed : Option LifeCycle.State) :
    r.changeStateTo newState observed = (r, observe newState r.state) ∨
      observed = some r.state ∧ r.changeStateTo newState observed = ({ r with state := newState }, .changed r.state) := by
  cases observed with
  | none => exact .inl rfl
  | some o =>
    simp only [Run.changeStateTo, LifeCycle.changeStateTo]
    by_cases h : r.state = o
    · subst h
      exact .inr ⟨rfl, by rw [if_pos rfl]⟩
    · rw [if_neg h]
      exact .inl rfl

/-- A state that a compare-exchange starts from. -/
def Live (observed : Option LifeCycle.State) : Prop := ∀ s, observed = some s → isShuttingDown s = false

theorem live_none : Live none := fun _ h => by cases h

variable {newState s t : LifeCycle.State}

theorem observe_exchange (h : observe newState s = .exchange t) : t = s := by
  simp only [observe] at h
  split at h
  · cases h
  · split at h
    · exact (LifeCycle.Outcome.exchange.inj h).symm
    · cases h

/-- Only `STOPPED` and `INITIALISED` follow on a stop. -/
theorem live_of_observe (h : observe newState s = .exchange t)
    (hn : newState ≠ .stopped ∧ newState ≠ .initialised ∧ newState ≠ .error) : Live (some t) := by
  rintro _ ⟨⟩
  obtain rfl := observe_exchange h
  cases t with
  | requestedStop | stopped =>
    cases newState <;> first | exact absurd rfl hn.1 | exact absurd rfl hn.2.1 | exact absurd rfl hn.2.2 | cases h
  | _ => rfl

/-! ### The invariant -/

/-- Stopping or stopped. -/
def Run.Stopped (r : Run) : Prop := isShuttingDown r.state = true

/-- Initialised, stopping or stopped: not in a run. -/
def Run.Ready (r : Run) : Prop := r.state = .initialised ∨ r.Stopped

/-- No worker is of the current generation. -/
def Run.Retired (r : Run) : Prop := ∀ g ∈ r.workers, g < r.generation

structure Run.Off (r : Run) : Prop where
  stopped : r.Stopped
  retired : r.Retired

/-- The swap's own stop. The request that claims it has the state stopped before it advances the generation. -/
def StopRequest.Own (r : Run) (o : OwnStop) : StopRequest → Prop
  | .claim nested observed =>
    o.claimed = false ∧ o.ownGeneration ≤ r.generation + 1 ∧ nested = false ∧ Live observed
  | .transitionSatisfied _ => o.claimed = false ∧ r.Stopped
  | .advanceRunGeneration => o.claimed = true ∧ o.ownGeneration ≤ r.generation + 1 ∧ r.Stopped
  | .readState | .stopped _ => o.claimed = true ∧ o.ownGeneration ≤ r.generation ∧ r.Stopped
  | .done _ => False

/-- The stop in place of the restart. -/
def StopRequest.Again (r : Run) : StopRequest → Prop
  | .claim _ observed => r.Ready ∧ Live observed
  | .done _ => False
  | _ => r.Stopped

/-- The stopped run, once the workers have left: the generation that a claimed stop advanced to. -/
structure Drained (r : Run) (o : OwnStop) : Prop where
  workers : r.workers = []
  own : o.claimed = true → o.ownGeneration ≤ r.generation

/-- What the swap has seen to where it stands. -/
def Exchange.Sound (r : Run) : Exchange → Prop
  | .idle | .readGeneration _ | .start _ | .pause _ => True
  | .stop o request => request.Own r o
  | .waitDone o => r.Stopped ∧ (o.claimed = true → o.ownGeneration ≤ r.generation)
  | .readState o | .stopped o _ | .recordRestore o => r.Stopped ∧ Drained r o
  | .initialise o _ => r.Stopped ∧ Drained r o ∧ r.restoredFrom = some o.ownGeneration
  | .compareGeneration o => r.Ready ∧ Drained r o ∧ r.restoredFrom = some o.ownGeneration
  | .stopAgain request => r.workers = [] ∧ request.Again r
  | .run _ observed => r.Ready ∧ Live observed
  | .startWaitDone _ g | .startSweep _ g | .dispatch _ g => g ≤ r.generation
  | .requestPause _ observed | .pausePaused _ observed | .paused _ observed => Live observed

/-- What holds while a request of another thread has claimed a stop and not yet advanced the generation. Up to its
    comparison, the swap's own stop was not the one that claimed it. -/
def Exchange.Claimed (r : Run) : Exchange → Prop
  | .stop o _ | .waitDone o | .readState o | .stopped o _ | .recordRestore o | .initialise o _ =>
    r.Stopped ∧ o.claimed = false
  | .compareGeneration o => o.claimed = true → r.Stopped
  | .stopAgain _ => True
  | _ => r.Stopped

/-- What holds once a request of another thread has advanced the generation for a stop: the scheduler is off, or the
    swap will not find the generation of its own stop. -/
def Exchange.Doomed (r : Run) : Exchange → Prop
  | .stop o .advanceRunGeneration => r.Off ∧ o.ownGeneration ≤ r.generation
  | .stop o _ | .waitDone o | .readState o | .stopped o _ | .recordRestore o | .initialise o _ =>
    r.Off ∧ (o.claimed = true → o.ownGeneration < r.generation)
  | .compareGeneration o => o.claimed = true → o.ownGeneration < r.generation
  | .stopAgain _ => True
  | .dispatch _ g => r.Off ∧ g < r.generation
  | _ => r.Off

/-! ### Stop requests -/

/-- What a step of a stop request may do to the run. -/
structure Later (r r' : Run) : Prop where
  generation : r.generation ≤ r'.generation
  workers : r'.workers ⊆ r.workers
  state : r'.state = r.state ∨ r'.Stopped
  restoredFrom : r'.restoredFrom = r.restoredFrom

namespace Later

theorem refl (r : Run) : Later r r := ⟨Nat.le_refl _, fun _ h => h, .inl rfl, rfl⟩

theorem advance (r : Run) : Later r r.advanceRunGeneration := ⟨Nat.le_succ _, fun _ h => h, .inl rfl, rfl⟩

theorem stopped (h : Later r r') (hs : r.Stopped) : r'.Stopped := by
  rcases h.state with he | hs'
  · rw [Run.Stopped, he]
    exact hs
  · exact hs'

theorem ready (h : Later r r') (hr : r.Ready) : r'.Ready := by
  rcases h.state with he | hs
  · rcases hr with hi | hs
    · exact .inl (he.trans hi)
    · exact .inr (h.stopped hs)
  · exact .inr hs

theorem retired (h : Later r r') (hr : r.Retired) : r'.Retired := fun g hg =>
  Nat.lt_of_lt_of_le (hr g (h.workers hg)) h.generation

theorem off (h : Later r r') (ho : r.Off) : r'.Off := ⟨h.stopped ho.stopped, h.retired ho.retired⟩

theorem nil (h : Later r r') (hw : r.workers = []) : r'.workers = [] :=
  List.eq_nil_of_subset_nil (hw ▸ h.workers)

theorem drained (h : Later r r') (hd : Drained r o) : Drained r' o :=
  ⟨h.nil hd.workers, fun hc => Nat.le_trans (hd.own hc) h.generation⟩

theorem sound (h : Later r r') (hx : x.Sound r) : x.Sound r' := by
  cases x with
  | idle | readGeneration | start | pause => trivial
  | stop o request =>
    cases request with
    | claim => exact ⟨hx.1, Nat.le_trans hx.2.1 (Nat.succ_le_succ h.generation), hx.2.2⟩
    | transitionSatisfied => exact ⟨hx.1, h.stopped hx.2⟩
    | advanceRunGeneration => exact ⟨hx.1, Nat.le_trans hx.2.1 (Nat.succ_le_succ h.generation), h.stopped hx.2.2⟩
    | readState | stopped => exact ⟨hx.1, Nat.le_trans hx.2.1 h.generation, h.stopped hx.2.2⟩
    | done => exact hx
  | waitDone o => exact ⟨h.stopped hx.1, fun hc => Nat.le_trans (hx.2 hc) h.generation⟩
  | readState | stopped | recordRestore => exact ⟨h.stopped hx.1, h.drained hx.2⟩
  | initialise => exact ⟨h.stopped hx.1, h.drained hx.2.1, h.restoredFrom.trans hx.2.2⟩
  | compareGeneration => exact ⟨h.ready hx.1, h.drained hx.2.1, h.restoredFrom.trans hx.2.2⟩
  | stopAgain request =>
    refine ⟨h.nil hx.1, ?_⟩
    cases request with
    | claim => exact ⟨h.ready hx.2.1, hx.2.2⟩
    | done => exact hx.2
    | transitionSatisfied | advanceRunGeneration | readState | stopped => exact h.stopped hx.2
  | run => exact ⟨h.ready hx.1, hx.2⟩
  | startWaitDone | startSweep | dispatch => exact Nat.le_trans hx h.generation
  | requestPause | pausePaused | paused => exact hx

theorem claimed (h : Later r r') (hx : x.Claimed r) : x.Claimed r' := by
  cases x with
  | stop | waitDone | readState | stopped | recordRestore | initialise => exact ⟨h.stopped hx.1, hx.2⟩
  | compareGeneration => exact fun hc => h.stopped (hx hc)
  | stopAgain => trivial
  | _ => exact h.stopped hx

theorem doomed (h : Later r r') (hx : x.Doomed r) : x.Doomed r' := by
  cases x with
  | stop o request =>
    cases request with
    | advanceRunGeneration => exact ⟨h.off hx.1, Nat.le_trans hx.2 h.generation⟩
    | _ => exact ⟨h.off hx.1, fun hc => Nat.lt_of_lt_of_le (hx.2 hc) h.generation⟩
  | waitDone | readState | stopped | recordRestore | initialise =>
    exact ⟨h.off hx.1, fun hc => Nat.lt_of_lt_of_le (hx.2 hc) h.generation⟩
  | compareGeneration => exact fun hc => Nat.lt_of_lt_of_le (hx hc) h.generation
  | stopAgain => trivial
  | dispatch => exact ⟨h.off hx.1, Nat.lt_of_lt_of_le hx.2 h.generation⟩
  | _ => exact h.off hx

end Later

theorem afterClaim_claim (nested : Bool) (s : LifeCycle.State) :
    (∃ observed, StopRequest.afterClaim nested (observe .requestedStop s) = .claim nested observed ∧ Live observed ∧
        isShuttingDown s = false) ∨
      (StopRequest.afterClaim nested (observe .requestedStop s) = .transitionSatisfied s ∧ isShuttingDown s = true) ∨
      (StopRequest.afterClaim nested (observe .requestedStop s) = .done nested ∧ s = .error) := by
  cases s with
  | requestedStop | stopped => exact .inr (.inl ⟨rfl, rfl⟩)
  | error => exact .inr (.inr ⟨rfl, rfl⟩)
  | _ => exact .inl ⟨_, rfl, fun _ h => by cases h; rfl, rfl⟩

/-- A step of a stop request: what it does to the run, and where it goes. -/
theorem StopRequest.step_later (h : q.step r = some (r', q')) : Later r r' := by
  cases q with
  | claim nested observed =>
    rcases r.changeStateTo_cases .requestedStop observed with hc | ⟨-, hc⟩
    · simp only [StopRequest.step, hc] at h
      cases h
      exact .refl r
    · simp only [StopRequest.step, hc] at h
      cases h
      exact ⟨Nat.le_refl _, fun _ h => h, .inr rfl, rfl⟩
  | transitionSatisfied satisfiedBy =>
    simp only [StopRequest.step] at h
    split at h
    · cases h
      exact .advance r
    · split at h
      · cases h
        exact .advance r
      · cases h
        exact .refl r
  | advanceRunGeneration =>
    cases h
    exact .advance r
  | readState =>
    cases h
    exact .refl r
  | stopped observed =>
    rcases r.changeStateTo_cases .stopped observed with hc | ⟨-, hc⟩
    · simp only [StopRequest.step, hc] at h
      cases h
      exact .refl r
    · simp only [StopRequest.step, hc] at h
      cases h
      exact ⟨Nat.le_refl _, fun _ h => h, .inr rfl, rfl⟩
  | done => cases h

theorem afterStopped_cases (outcome : LifeCycle.Outcome) :
    (∃ observed, StopRequest.afterStopped outcome = .stopped observed) ∨
      StopRequest.afterStopped outcome = .done true := by
  cases outcome with
  | exchange => exact .inl ⟨_, rfl⟩
  | satisfied | invalid | changed => exact .inr rfl

/-- The last accesses of `stop()` leave it where it is, or end it. -/
theorem StopRequest.step_stopped (h : q.step r = some (r', q')) (hq : q = .readState ∨ ∃ observed, q = .stopped observed) :
    (∃ observed, q' = .stopped observed) ∨ q' = .done true := by
  rcases hq with rfl | ⟨observed, rfl⟩
  · simp only [StopRequest.step] at h
    cases h
    split
    · exact .inr rfl
    · exact .inl ⟨none, rfl⟩
  · simp only [StopRequest.step] at h
    cases h
    exact afterStopped_cases _

/-! ### What a request leaves to the swap -/

/-- A request that claimed the stop advances the generation. -/
theorem doomed_of_claimed (hs : x.Sound r) (hw : ∀ g ∈ r.workers, g ≤ r.generation) (h : x.Claimed r) :
    x.Doomed r.advanceRunGeneration := by
  have hoff : r.Stopped → r.advanceRunGeneration.Off := fun hst => ⟨hst, fun g hg => Nat.lt_succ_of_le (hw g hg)⟩
  cases x with
  | stop o request =>
    cases request with
    | advanceRunGeneration =>
      have hc := hs.1
      rw [h.2] at hc
      cases hc
    | _ => exact ⟨hoff h.1, fun hc => by rw [h.2] at hc; cases hc⟩
  | waitDone | readState | stopped | recordRestore | initialise =>
    exact ⟨hoff h.1, fun hc => by rw [h.2] at hc; cases hc⟩
  | compareGeneration => exact fun hc => Nat.lt_succ_of_le (hs.2.1.own hc)
  | stopAgain => trivial
  | dispatch => exact ⟨hoff h, Nat.lt_succ_of_le hs⟩
  | _ => exact hoff h

/-- A request that the stopped state satisfied advances the generation. -/
theorem doomed_of_stopped (hs : x.Sound r) (hw : ∀ g ∈ r.workers, g ≤ r.generation) (h : r.Stopped) :
    x.Doomed r.advanceRunGeneration := by
  have hoff : r.advanceRunGeneration.Off := ⟨h, fun g hg => Nat.lt_succ_of_le (hw g hg)⟩
  cases x with
  | stop o request =>
    cases request with
    | advanceRunGeneration => exact ⟨hoff, hs.2.1⟩
    | claim | transitionSatisfied => exact ⟨hoff, fun hc => by rw [hs.1] at hc; cases hc⟩
    | readState | stopped => exact ⟨hoff, fun _ => Nat.lt_succ_of_le hs.2.1⟩
    | done => exact hs.elim
  | waitDone => exact ⟨hoff, fun hc => Nat.lt_succ_of_le (hs.2 hc)⟩
  | readState | stopped | recordRestore => exact ⟨hoff, fun hc => Nat.lt_succ_of_le (hs.2.own hc)⟩
  | initialise => exact ⟨hoff, fun hc => Nat.lt_succ_of_le (hs.2.1.own hc)⟩
  | compareGeneration => exact fun hc => Nat.lt_succ_of_le (hs.2.1.own hc)
  | stopAgain => trivial
  | dispatch => exact ⟨hoff, Nat.lt_succ_of_le hs⟩
  | _ => exact hoff

theorem doomed_of_ignored {s : LifeCycle.State} (hs : x.Sound r) (h : r.Ignores s) (hx : x.Comparing) : x.Doomed r := by
  cases x with
  | compareGeneration o =>
    intro hc
    have hown := hs.2.1.own hc
    have hno := h.2
    simp only [Run.restoring, hs.2.2, Bool.or_eq_false_iff, beq_eq_false_iff_ne, ne_eq] at hno
    omega
  | stopAgain => trivial
  | _ => exact hx.elim

/-! ### The swap -/

/-- A step of the swap: what it has seen, and what it keeps of the two guarantees. -/
structure Next (r : Run) (x : Exchange) (r' : Run) (x' : Exchange) : Prop where
  sound : x'.Sound r'
  workers : ∀ g ∈ r'.workers, g ≤ r'.generation
  claimed : x.Claimed r → x'.Claimed r'
  doomed : x.Doomed r → x'.Doomed r'

/-- A place of the swap where both guarantees are about the scheduler alone. -/
structure Exchange.Outer (x : Exchange) : Prop where
  sound : ∀ r, x.Sound r
  claimed : ∀ r : Run, r.Stopped → x.Claimed r
  doomed : ∀ r : Run, r.Off → x.Doomed r

theorem outer_idle : Exchange.idle.Outer := ⟨fun _ => trivial, fun _ h => h, fun _ h => h⟩

theorem outer_afterRun (o : OwnStop) : (Exchange.afterRun o).Outer := by
  rw [Exchange.afterRun]
  split
  · exact ⟨fun _ => live_none, fun _ h => h, fun _ h => h⟩
  · exact outer_idle

theorem outer_afterPause (o : OwnStop) : (Exchange.afterPause o).Outer := by
  rw [Exchange.afterPause]
  split
  · exact ⟨fun _ => live_none, fun _ h => h, fun _ h => h⟩
  · exact outer_idle

variable {observed : Option LifeCycle.State}

/-- A change of the state out of a run, which a stop leaves nothing of. -/
theorem changeStateTo_live (r : Run) (newState : LifeCycle.State)
    (h : Live observed) :
    r.changeStateTo newState observed = (r, observe newState r.state) ∨
      ¬ r.Stopped ∧ r.changeStateTo newState observed = ({ r with state := newState }, .changed r.state) := by
  rcases r.changeStateTo_cases newState observed with hc | ⟨ho, hc⟩
  · exact .inl hc
  · refine .inr ⟨fun hs => ?_, hc⟩
    rw [Run.Stopped, h _ ho] at hs
    cases hs

theorem changeStateTo_later (r : Run) (observed : Option LifeCycle.State) :
    Later r (r.changeStateTo .stopped observed).1 := by
  rcases r.changeStateTo_cases .stopped observed with hc | ⟨-, hc⟩
  · rw [hc]
    exact .refl r
  · rw [hc]
    exact ⟨Nat.le_refl _, fun _ h => h, .inr rfl, rfl⟩

/-- The swap's own stop. -/
theorem next_stop (hs : q.Own r o) (hw : ∀ g ∈ r.workers, g ≤ r.generation) (h : q.step r = some (r', q')) :
    Next r (.stop o q) r' (Exchange.afterOwnStop o q') := by
  have hl := StopRequest.step_later h
  have hw' : ∀ g ∈ r'.workers, g ≤ r'.generation := fun g hg => Nat.le_trans (hw g (hl.workers hg)) hl.generation
  cases q with
  | claim nested observed =>
    obtain ⟨hc, hown, rfl, hlive⟩ := hs
    rcases changeStateTo_live r .requestedStop hlive with hch | ⟨hns, hch⟩
    · simp only [StopRequest.step, hch] at h
      cases h
      rcases afterClaim_claim false r.state with ⟨observed, ha, ho, -⟩ | ⟨ha, hst⟩ | ⟨ha, -⟩
      · rw [ha]
        exact ⟨⟨hc, hown, rfl, ho⟩, hw', fun hx => hx, fun hx => hx⟩
      · rw [ha]
        exact ⟨⟨hc, hst⟩, hw', fun hx => hx, fun hx => hx⟩
      · rw [ha]
        exact ⟨trivial, hw', fun hx => hx.1, fun hx => hx.1⟩
    · simp only [StopRequest.step, hch] at h
      cases h
      exact ⟨⟨rfl, hown, rfl⟩, hw', fun hx => absurd hx.1 hns, fun hx => absurd hx.1.stopped hns⟩
  | transitionSatisfied satisfiedBy =>
    obtain ⟨hc, hst⟩ := hs
    simp only [StopRequest.step, if_pos (.inr hst : r.state = satisfiedBy ∨ isShuttingDown r.state = true)] at h
    cases h
    have hno : o.claimed = true → False := fun hc' => by rw [hc] at hc'; cases hc'
    exact ⟨⟨hst, fun hc' => (hno hc').elim⟩, hw', fun hx => hx, fun hx => ⟨hl.off hx.1, fun hc' => (hno hc').elim⟩⟩
  | advanceRunGeneration =>
    obtain ⟨hc, hown, hst⟩ := hs
    cases h
    exact ⟨⟨hc, hown, hst⟩, hw', fun hx => (by rw [hx.2] at hc; cases hc),
      fun hx => ⟨hl.off hx.1, fun _ => Nat.lt_succ_of_le hx.2⟩⟩
  | readState =>
    obtain ⟨hc, hown, hst⟩ := hs
    have hown' := Nat.le_trans hown hl.generation
    rcases StopRequest.step_stopped h (.inl rfl) with ⟨observed, rfl⟩ | rfl
    · exact ⟨⟨hc, hown', hl.stopped hst⟩, hw', fun hx => (by rw [hx.2] at hc; cases hc), fun hx => hl.doomed hx⟩
    · exact ⟨⟨hl.stopped hst, fun _ => hown'⟩, hw', fun hx => (by rw [hx.2] at hc; cases hc), fun hx => hl.doomed hx⟩
  | stopped observed =>
    obtain ⟨hc, hown, hst⟩ := hs
    have hown' := Nat.le_trans hown hl.generation
    rcases StopRequest.step_stopped h (.inr ⟨observed, rfl⟩) with ⟨observed, rfl⟩ | rfl
    · exact ⟨⟨hc, hown', hl.stopped hst⟩, hw', fun hx => (by rw [hx.2] at hc; cases hc), fun hx => hl.doomed hx⟩
    · exact ⟨⟨hl.stopped hst, fun _ => hown'⟩, hw', fun hx => (by rw [hx.2] at hc; cases hc), fun hx => hl.doomed hx⟩
  | done => exact hs.elim

/-- The stop in place of the restart. -/
theorem next_stopAgain (hnil : r.workers = []) (hs : q.Again r) (h : q.step r = some (r', q')) :
    Next r (.stopAgain q) r' (Exchange.afterStopAgain q') := by
  have hl := StopRequest.step_later h
  have hnil' := hl.nil hnil
  have hw' : ∀ g ∈ r'.workers, g ≤ r'.generation := fun g hg => by rw [hnil'] at hg; cases hg
  have hdone : r'.Stopped → Next r (.stopAgain q) r' .idle := fun hst =>
    ⟨trivial, hw', fun _ => hst, fun _ => ⟨hst, fun g hg => by rw [hnil'] at hg; cases hg⟩⟩
  cases q with
  | claim nested observed =>
    rcases changeStateTo_live r .requestedStop hs.2 with hch | ⟨hns, hch⟩
    · simp only [StopRequest.step, hch] at h
      cases h
      rcases afterClaim_claim nested r.state with ⟨observed, ha, ho, -⟩ | ⟨ha, hst⟩ | ⟨ha, he⟩
      · rw [ha]
        exact ⟨⟨hnil', hs.1, ho⟩, hw', fun _ => trivial, fun _ => trivial⟩
      · rw [ha]
        exact ⟨⟨hnil', hst⟩, hw', fun _ => trivial, fun _ => trivial⟩
      · rcases hs.1 with hi | hst
        · rw [hi] at he
          cases he
        · rw [Run.Stopped, he] at hst
          cases hst
    · simp only [StopRequest.step, hch] at h
      cases h
      exact ⟨⟨hnil', rfl⟩, hw', fun _ => trivial, fun _ => trivial⟩
  | transitionSatisfied satisfiedBy =>
    have hst : r.Stopped := hs
    simp only [StopRequest.step, if_pos (.inr hst : r.state = satisfiedBy ∨ isShuttingDown r.state = true)] at h
    cases h
    exact hdone (hl.stopped hst)
  | advanceRunGeneration =>
    cases h
    exact ⟨⟨hnil', hs⟩, hw', fun _ => trivial, fun _ => trivial⟩
  | readState =>
    rcases StopRequest.step_stopped h (.inl rfl) with ⟨observed, rfl⟩ | rfl
    · exact ⟨⟨hnil', hl.stopped hs⟩, hw', fun _ => trivial, fun _ => trivial⟩
    · exact hdone (hl.stopped hs)
  | stopped observed =>
    rcases StopRequest.step_stopped h (.inr ⟨observed, rfl⟩) with ⟨observed, rfl⟩ | rfl
    · exact ⟨⟨hnil', hl.stopped hs⟩, hw', fun _ => trivial, fun _ => trivial⟩
    · exact hdone (hl.stopped hs)
  | done => exact hs.elim

theorem observe_ne_changed : observe newState s ≠ .changed t := by
  simp only [observe]
  split
  · exact nofun
  · split <;> exact nofun

/-- A change of the state out of a run, where both guarantees have the scheduler stopped. -/
theorem next_live {newState : LifeCycle.State}
    (hn : newState ≠ .stopped ∧ newState ≠ .initialised ∧ newState ≠ .error)
    (hw : ∀ g ∈ r.workers, g ≤ r.generation) (hlive : Live observed) (hc : x.Claimed r → r.Stopped)
    (hd : x.Doomed r → r.Off) (next : LifeCycle.Outcome → Exchange)
    (hexchange : ∀ s, Live (some s) → (next (.exchange s)).Sound r ∧
      (r.Stopped → (next (.exchange s)).Claimed r) ∧ (r.Off → (next (.exchange s)).Doomed r))
    (hnext : ∀ outcome, (∀ s, outcome ≠ .exchange s) → (next outcome).Outer)
    (h : Exchange.change newState r observed next = (r', x')) : Next r x r' x' := by
  rcases changeStateTo_live r newState hlive with hch | ⟨hns, hch⟩
  · simp only [Exchange.change, hch] at h
    cases h
    cases ho : observe newState r.state with
    | exchange s =>
      obtain ⟨h1, h2, h3⟩ := hexchange s (live_of_observe ho hn)
      exact ⟨h1, hw, fun hx => h2 (hc hx), fun hx => h3 (hd hx)⟩
    | satisfied s =>
      have hx := hnext (.satisfied s) fun _ h => by cases h
      exact ⟨hx.sound r, hw, fun h => hx.claimed r (hc h), fun h => hx.doomed r (hd h)⟩
    | invalid =>
      have hx := hnext .invalid fun _ h => by cases h
      exact ⟨hx.sound r, hw, fun h => hx.claimed r (hc h), fun h => hx.doomed r (hd h)⟩
    | changed s => exact absurd ho observe_ne_changed
  · simp only [Exchange.change, hch] at h
    cases h
    have hx := hnext (.changed r.state) fun _ h => by cases h
    exact ⟨hx.sound _, hw, fun h => absurd (hc h) hns, fun h => absurd (hd h).stopped hns⟩

theorem Exchange.Outer.next (h : x'.Outer) (hw : ∀ g ∈ r.workers, g ≤ r.generation) (hc : x.Claimed r → r.Stopped)
    (hd : x.Doomed r → r.Off) : Next r x r x' :=
  ⟨h.sound r, hw, fun hx => h.claimed r (hc hx), fun hx => h.doomed r (hd hx)⟩

/-- Every step of the swap keeps the guarantees, where it restores a run only after a stop of its own. -/
theorem Exchange.step_next (hs : x.Sound r) (hw : ∀ g ∈ r.workers, g ≤ r.generation)
    (hk : ∀ o, x = .compareGeneration o → r.generation = o.ownGeneration → o.claimed = true)
    (h : x.step n r = some (r', x')) : Next r x r' x' := by
  cases x with
  | idle => cases h
  | readGeneration oldState =>
    cases h
    exact ⟨⟨rfl, Nat.le_refl _, rfl, live_none⟩, hw, fun hx => ⟨hx, rfl⟩, fun hx => ⟨hx, nofun⟩⟩
  | stop o request =>
    obtain ⟨⟨r', q'⟩, hq, he⟩ := Option.map_eq_some_iff.mp h
    cases he
    exact next_stop hs hw hq
  | waitDone o =>
    simp only [Exchange.step] at h
    split at h
    case isFalse => cases h
    case isTrue hnil =>
      cases h
      exact ⟨⟨hs.1, hnil, hs.2⟩, hw, fun hx => hx, fun hx => hx⟩
  | readState o =>
    simp only [Exchange.step] at h
    split at h <;> cases h
    · exact ⟨hs, hw, fun hx => hx, fun hx => hx⟩
    · exact ⟨hs, hw, fun hx => hx, fun hx => hx⟩
  | stopped o observed =>
    cases h
    have hl := changeStateTo_later r observed
    have hw' : ∀ g ∈ (r.changeStateTo .stopped observed).1.workers, g ≤ (r.changeStateTo .stopped observed).1.generation :=
      fun g hg => Nat.le_trans (hw g (hl.workers hg)) hl.generation
    show Next r _ (r.changeStateTo .stopped observed).1 (Exchange.onStopped o (r.changeStateTo .stopped observed).2)
    cases (r.changeStateTo .stopped observed).2 with
    | exchange | satisfied | changed =>
      have hs' : (Exchange.stopped o observed).Sound _ := hl.sound hs
      exact ⟨hs', hw', fun hx => hl.claimed hx, fun hx => hl.doomed hx⟩
    | invalid => exact ⟨trivial, hw', fun hx => hl.stopped hx.1, fun hx => hl.off hx.1⟩
  | recordRestore o =>
    cases h
    exact ⟨⟨hs.1, ⟨hs.2.workers, hs.2.own⟩, rfl⟩, hw, fun hx => hx, fun hx => ⟨⟨hx.1.stopped, hx.1.retired⟩, hx.2⟩⟩
  | initialise o observed =>
    rcases r.changeStateTo_cases .initialised observed with hch | ⟨-, hch⟩
    · simp only [Exchange.step, Exchange.change, hch] at h
      cases h
      cases observe .initialised r.state with
      | exchange => exact ⟨hs, hw, fun hx => hx, fun hx => hx⟩
      | satisfied | changed => exact ⟨⟨.inr hs.1, hs.2⟩, hw, fun hx _ => hx.1, fun hx => hx.2⟩
      | invalid => exact ⟨trivial, hw, fun hx => hx.1, fun hx => hx.1⟩
    · simp only [Exchange.step, Exchange.change, hch] at h
      cases h
      exact ⟨⟨.inl rfl, ⟨hs.2.1.workers, hs.2.1.own⟩, hs.2.2⟩, hw, fun hx hc => (by rw [hx.2] at hc; cases hc),
        fun hx => hx.2⟩
  | compareGeneration o =>
    simp only [Exchange.step] at h
    split at h
    case isTrue hne =>
      cases h
      exact ⟨⟨hs.2.1.workers, hs.1, live_none⟩, hw, fun _ => trivial, fun _ => trivial⟩
    case isFalse he =>
      cases h
      have he := not_not.mp he
      have hc := hk o rfl he
      exact ⟨⟨hs.1, live_none⟩, hw, fun hx => hx hc, fun hx => absurd he (Nat.ne_of_gt (hx hc))⟩
  | stopAgain request =>
    obtain ⟨⟨r', q'⟩, hq, he⟩ := Option.map_eq_some_iff.mp h
    cases he
    exact next_stopAgain hs.1 hs.2 hq
  | run o observed =>
    refine next_live (by decide) hw hs.2 (fun hx => hx) (fun hx => hx) (Exchange.onRunning o)
      (fun s hlive => ⟨⟨hs.1, hlive⟩, fun hx => hx, fun hx => hx⟩) (fun outcome hne => ?_) (Option.some.inj h)
    cases outcome with
    | exchange s => exact absurd rfl (hne s)
    | satisfied => exact outer_afterRun o
    | invalid => exact outer_idle
    | changed s =>
      simp only [Exchange.onRunning]
      split
      · exact ⟨fun _ => trivial, fun _ hx => hx, fun _ hx => hx⟩
      · exact outer_afterRun o
  | start o =>
    cases h
    have hl := Later.advance r
    exact ⟨Nat.le_refl _, fun g hg => Nat.le_succ_of_le (hw g hg), fun hx => hl.stopped hx, fun hx => hl.off hx⟩
  | startWaitDone o g =>
    simp only [Exchange.step] at h
    split at h
    case isFalse => cases h
    case isTrue =>
      cases h
      exact ⟨hs, hw, fun hx => hx, fun hx => hx⟩
  | startSweep o g =>
    simp only [Exchange.step] at h
    split at h
    case isTrue =>
      cases h
      exact (outer_afterRun o).next hw (fun hx => hx) fun hx => hx
    case isFalse hns =>
      cases h
      exact ⟨hs, hw, fun hx => absurd hx hns, fun hx => absurd hx.stopped hns⟩
  | dispatch o g =>
    cases h
    have hnew : ∀ {P : Nat → Prop}, (∀ g ∈ r.workers, P g) → P g → ∀ k ∈ r.workers ++ List.replicate n g, P k :=
      fun hold hg k hk => by
        rcases List.mem_append.mp hk with hk | hk
        · exact hold k hk
        · exact List.eq_of_mem_replicate hk ▸ hg
    exact ⟨(outer_afterRun o).sound _, hnew hw hs, fun hx => (outer_afterRun o).claimed _ hx,
      fun hx => (outer_afterRun o).doomed _ ⟨hx.1.stopped, hnew hx.1.retired hx.2⟩⟩
  | requestPause o observed =>
    refine next_live (by decide) hw hs (fun hx => hx) (fun hx => hx) (Exchange.onRequestedPause o)
      (fun s hlive => ⟨hlive, fun hx => hx, fun hx => hx⟩) (fun outcome hne => ?_) (Option.some.inj h)
    cases outcome with
    | exchange s => exact absurd rfl (hne s)
    | satisfied => exact outer_afterPause o
    | invalid => exact outer_idle
    | changed => exact ⟨fun _ => trivial, fun _ hx => hx, fun _ hx => hx⟩
  | pause o =>
    simp only [Exchange.step] at h
    split at h <;> cases h
    · exact (outer_afterPause o).next hw (fun hx => hx) fun hx => hx
    · exact ⟨live_none, hw, fun hx => hx, fun hx => hx⟩
  | pausePaused o observed =>
    refine next_live (by decide) hw hs (fun hx => hx) (fun hx => hx) (Exchange.onPausePaused o)
      (fun s hlive => ⟨hlive, fun hx => hx, fun hx => hx⟩) (fun outcome hne => ?_) (Option.some.inj h)
    cases outcome with
    | exchange s => exact absurd rfl (hne s)
    | satisfied | invalid | changed => exact outer_afterPause o
  | paused o observed =>
    refine next_live (by decide) hw hs (fun hx => hx) (fun hx => hx) (Exchange.onPaused o)
      (fun s hlive => ⟨hlive, fun hx => hx, fun hx => hx⟩) (fun outcome hne => ?_) (Option.some.inj h)
    cases outcome with
    | exchange s => exact absurd rfl (hne s)
    | satisfied | invalid | changed => exact outer_idle

/-! ### The requests of other threads -/

/-- What a request of another thread has seen to where it stands. -/
def StopRequest.Holds (r : Run) (x : Exchange) : StopRequest → Prop
  | .claim _ observed => Live observed
  | .transitionSatisfied satisfiedBy => isShuttingDown satisfiedBy = true
  | .advanceRunGeneration => x.Claimed r
  | .readState | .stopped _ => x.Doomed r
  | .done _ => False

theorem StopRequest.Holds.mono (h : q.Holds r x) (hc : x.Claimed r → x'.Claimed r') (hd : x.Doomed r → x'.Doomed r') :
    q.Holds r' x' := by
  cases q with
  | claim | transitionSatisfied | done => exact h
  | advanceRunGeneration => exact hc h
  | readState | stopped => exact hd h

/-- The compare-exchange that claims a stop leaves the state stopped; the swap has not claimed one then. -/
theorem claimed_of_live (hs : x.Sound r) (h : ¬ r.Stopped) (hr : r'.Stopped) : x.Claimed r' := by
  cases x with
  | stop o request =>
    cases request with
    | claim => exact ⟨hr, hs.1⟩
    | transitionSatisfied => exact absurd hs.2 h
    | advanceRunGeneration | readState | stopped => exact absurd hs.2.2 h
    | done => exact hs.elim
  | waitDone | readState | stopped | recordRestore | initialise => exact absurd hs.1 h
  | compareGeneration => exact fun _ => hr
  | stopAgain => trivial
  | _ => exact hr

/-- A step of a request of another thread. -/
theorem request_next (hs : x.Sound r) (hw : ∀ g ∈ r.workers, g ≤ r.generation) (herr : r.state ≠ .error)
    (hq : q.Holds r x) (hk : ∀ satisfiedBy, q = .transitionSatisfied satisfiedBy → r.Ignores satisfiedBy → x.Comparing)
    (h : q.step r = some (r', q')) : q'.Holds r' x ∨ ∃ success, q' = .done success ∧ x.Doomed r' := by
  have hl := StopRequest.step_later h
  cases q with
  | claim nested observed =>
    rcases changeStateTo_live r .requestedStop hq with hch | ⟨hns, hch⟩
    · simp only [StopRequest.step, hch] at h
      cases h
      rcases afterClaim_claim nested r.state with ⟨observed, ha, ho, -⟩ | ⟨ha, hst⟩ | ⟨-, he⟩
      · rw [ha]
        exact .inl ho
      · rw [ha]
        exact .inl hst
      · exact absurd he herr
    · simp only [StopRequest.step, hch] at h
      cases h
      exact .inl (claimed_of_live hs hns rfl)
  | transitionSatisfied satisfiedBy =>
    simp only [StopRequest.step] at h
    split at h
    case isTrue hst =>
      cases h
      refine .inr ⟨true, rfl, doomed_of_stopped hs hw ?_⟩
      rcases hst with he | hst
      · rw [Run.Stopped, he]
        exact hq
      · exact hst
    case isFalse hno =>
      split at h
      case isTrue =>
        cases h
        exact .inl live_none
      case isFalse hrestoring =>
        cases h
        have hignored : r.Ignores satisfiedBy := ⟨hno, Bool.not_eq_true _ ▸ hrestoring⟩
        exact .inr ⟨true, rfl, doomed_of_ignored hs hignored (hk satisfiedBy rfl hignored)⟩
  | advanceRunGeneration =>
    cases h
    exact .inl (doomed_of_claimed hs hw hq)
  | readState =>
    rcases StopRequest.step_stopped h (.inl rfl) with ⟨observed, rfl⟩ | rfl
    · exact .inl (hl.doomed hq)
    · exact .inr ⟨true, rfl, hl.doomed hq⟩
  | stopped observed =>
    rcases StopRequest.step_stopped h (.inr ⟨observed, rfl⟩) with ⟨observed, rfl⟩ | rfl
    · exact .inl (hl.doomed hq)
    · exact .inr ⟨true, rfl, hl.doomed hq⟩
  | done => exact hq.elim

/-! ### Runs -/

theorem Later.noError (h : Later r r') (he : r.state ≠ .error) : r'.state ≠ .error := by
  rcases h.state with hs | hs
  · rw [hs]
    exact he
  · intro he'
    rw [Run.Stopped, he'] at hs
    cases hs

theorem change_noError {newState : LifeCycle.State}
    {next : LifeCycle.Outcome → Exchange} (he : r.state ≠ .error) (hn : newState ≠ .error)
    (h : Exchange.change newState r observed next = (r', x')) : r'.state ≠ .error := by
  rcases r.changeStateTo_cases newState observed with hc | ⟨-, hc⟩
  · simp only [Exchange.change, hc] at h
    cases h
    exact he
  · simp only [Exchange.change, hc] at h
    cases h
    exact hn

theorem Exchange.step_noError (he : r.state ≠ .error) (h : x.step n r = some (r', x')) : r'.state ≠ .error := by
  cases x with
  | idle => cases h
  | stop | stopAgain =>
    obtain ⟨⟨r', q'⟩, hq, hx⟩ := Option.map_eq_some_iff.mp h
    cases hx
    exact (StopRequest.step_later hq).noError he
  | stopped | initialise | run | requestPause | pausePaused | paused =>
    exact change_noError he (by decide) (Option.some.inj h)
  | waitDone | startWaitDone =>
    simp only [Exchange.step] at h
    split at h <;> cases h
    exact he
  | readGeneration | readState | recordRestore | compareGeneration | start | startSweep | dispatch | pause =>
    cases h
    exact he

/-- The swap's place, the requests under way, and a request that has returned. -/
structure Inv (s : State ι) : Prop where
  noError : s.run.state ≠ .error
  workers : ∀ g ∈ s.run.workers, g ≤ s.run.generation
  swap : s.swap.Sound s.run
  requests : ∀ i q, s.requests i = some q → q.Holds s.run s.swap
  returned : s.returned = true → s.swap.Doomed s.run

section

variable [DecidableEq ι] {s t : State ι} {a : Act ι}

omit [DecidableEq ι] in
theorem Inv.of_start (h : Start s) : Inv s where
  noError he := by
    have := h.active
    rw [he] at this
    cases this
  workers := h.workers
  swap := by
    rw [h.swap]
    trivial
  requests i q hq := by
    rw [h.requests i] at hq
    cases hq
  returned hr := by
    rw [h.returned] at hr
    cases hr

theorem Inv.step (h : Inv s) (hk : Kept s a) (hs : Swap.step n s a = some t) : Inv t := by
  cases a with
  | request i =>
    simp only [Swap.step] at hs
    split at hs
    case isFalse => cases hs
    case isTrue =>
      cases hs
      refine { h with requests := fun j q hq => ?_ }
      rcases eq_or_ne j i with rfl | hj
      · simp only [update_self] at hq
        cases hq
        exact live_none
      · simp only [update_of_ne hj] at hq
        exact h.requests j q hq
  | stop i =>
    obtain ⟨q, hq, hs⟩ := Option.bind_eq_some_iff.mp hs
    obtain ⟨⟨r', q'⟩, hstep, hs⟩ := Option.map_eq_some_iff.mp hs
    have hl := StopRequest.step_later hstep
    have hnext := request_next h.swap h.workers h.noError (h.requests i q hq)
      (fun satisfiedBy he hi => by
        subst he
        have hheed := hk.heeded
        simp only [Heeded, hq] at hheed
        exact hheed hi) hstep
    have hothers : ∀ j p, j ≠ i → s.requests j = some p → p.Holds r' s.swap := fun j p _ hp =>
      (h.requests j p hp).mono hl.claimed hl.doomed
    have hw : ∀ g ∈ r'.workers, g ≤ r'.generation := fun g hg =>
      Nat.le_trans (h.workers g (hl.workers hg)) hl.generation
    rcases hnext with hholds | ⟨success, rfl, hdoomed⟩
    · have ht : t = { s with run := r', requests := update s.requests i (some q') } := by
        cases q' with
        | done => exact hholds.elim
        | _ => exact hs.symm
      subst ht
      refine ⟨hl.noError h.noError, hw, hl.sound h.swap, fun j p hp => ?_, fun hr => hl.doomed (h.returned hr)⟩
      rcases eq_or_ne j i with rfl | hj
      · simp only [update_self] at hp
        cases hp
        exact hholds
      · simp only [update_of_ne hj] at hp
        exact hothers j p hj hp
    · cases hs
      refine ⟨hl.noError h.noError, hw, hl.sound h.swap, fun j p hp => ?_, fun _ => hdoomed⟩
      rcases eq_or_ne j i with rfl | hj
      · simp only [update_self] at hp
        cases hp
      · simp only [update_of_ne hj] at hp
        exact hothers j p hj hp
  | exchange =>
    simp only [Swap.step] at hs
    split at hs
    case isFalse => cases hs
    case isTrue hidle =>
      cases hs
      have hreq := h.requests
      have hret := h.returned
      rw [hidle] at hreq hret
      split
      · exact { h with swap := trivial, requests := hreq, returned := hret }
      · exact { h with swap := trivial, requests := hreq, returned := hret }
  | swap =>
    obtain ⟨⟨r', x'⟩, hstep, rfl⟩ := Option.map_eq_some_iff.mp hs
    have hnext := Exchange.step_next h.swap h.workers (fun o he hg => by
      have hown := hk.restoresOwnStop
      simp only [RestoresOwnStop, he] at hown
      exact hown hg) hstep
    exact ⟨Exchange.step_noError h.noError hstep, hnext.workers, hnext.sound,
      fun i q hq => (h.requests i q hq).mono hnext.claimed hnext.doomed, fun hr => hnext.doomed (h.returned hr)⟩
  | leave k =>
    simp only [Swap.step] at hs
    split at hs
    case isFalse => cases hs
    case isTrue =>
      cases hs
      have hl : Later s.run { s.run with workers := s.run.workers.eraseIdx k } :=
        ⟨Nat.le_refl _, List.eraseIdx_subset, .inl rfl, rfl⟩
      exact ⟨h.noError, fun g hg => h.workers g (hl.workers hg), hl.sound h.swap,
        fun i q hq => (h.requests i q hq).mono hl.claimed hl.doomed, fun hr => hl.doomed (h.returned hr)⟩

end

theorem not_active_of_stopped (h : r.Stopped) : isActive r.state = false := by
  rw [Run.Stopped] at h
  cases hs : r.state <;> rw [hs] at h <;> first | rfl | cases h

/-- Once a stop request has returned and the swap has finished, the scheduler is not active and no worker of the current
    generation remains: in every run in which the swap restores a run only after a stop that it claimed itself, and no
    request is ignored after that. -/
theorem stop_not_lost [DecidableEq ι] {s : State ι} (h : (system n).Reach Kept s) (hr : s.returned = true)
    (hidle : s.swap = .idle) : isActive s.run.state = false ∧ ∀ g ∈ s.run.workers, g ≠ s.run.generation := by
  have hinv : Inv s := h.invariant (fun _ => Inv.of_start) fun _ _ _ hi hk hs => hi.step hk hs
  have hoff := hinv.returned hr
  rw [hidle] at hoff
  exact ⟨not_active_of_stopped hoff.stopped, fun g hg => Nat.ne_of_lt (hoff.retired g hg)⟩

instance (s : State ι) (a : Act ι) : Decidable (RestoresOwnStop s a) := by
  unfold RestoresOwnStop
  split
  · split <;> infer_instance
  · infer_instance

instance : Decidable x.Comparing := by
  unfold Exchange.Comparing
  split <;> infer_instance

instance (satisfiedBy : LifeCycle.State) : Decidable (r.Ignores satisfiedBy) := by
  unfold Run.Ignores
  infer_instance

instance (s : State ι) (a : Act ι) : Decidable (Heeded s a) := by
  unfold Heeded
  split
  · split <;> infer_instance
  · infer_instance

instance (s : State ι) (a : Act ι) : Decidable (Kept s a) :=
  decidable_of_iff (RestoresOwnStop s a ∧ Heeded s a) ⟨fun h => ⟨h.1, h.2⟩, fun h => ⟨h.1, h.2⟩⟩

/-- A run with one worker. -/
def running : State Unit := ⟨⟨.running, 0, none, [0]⟩, .idle, fun _ => none, false⟩

theorem start_running : Start running := ⟨rfl, by decide, rfl, fun _ => rfl, rfl⟩

/-- A swap that restores the run, and a stop after it. -/
def swapThenStop : List (Act Unit) :=
  .exchange :: List.replicate 7 .swap ++ [.leave 0] ++ List.replicate 13 .swap ++
    .request () :: List.replicate 6 (.stop ())

theorem stop_not_lost_after : ∃ s, (system 1).run running swapThenStop = some s ∧
    isActive s.run.state = false ∧ ∀ g ∈ s.run.workers, g ≠ s.run.generation :=
  ⟨_, (Option.some_get (by decide)).symm,
    stop_not_lost ((system 1).reach_get swapThenStop start_running (by decide) (by decide)) (by decide) (by decide)⟩

/-- A stop request claims the stop and pauses before it advances the generation. The swap's own request is satisfied by
    it, advances the generation in its place and takes the stop for its own. -/
def stopInSwap : List (Act Unit) :=
  [.request (), .stop (), .exchange, .stop ()] ++ List.replicate 3 .swap ++ [.leave 0] ++ List.replicate 14 .swap ++
    List.replicate 3 (.stop ())

theorem stop_lost : ¬ ∀ (n : Nat) (s : State Unit), (system n).Reachable s → s.returned = true → s.swap = .idle →
    isActive s.run.state = false ∧ ∀ g ∈ s.run.workers, g ≠ s.run.generation := fun h =>
  absurd (h 1 _ ((system 1).reachable_get stopInSwap start_running (by decide)) (by decide) (by decide)).1 (by decide)

end GnuRadio.Swap
