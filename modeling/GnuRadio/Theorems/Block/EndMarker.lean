import GnuRadio.Theorems.Block.EndOfStream
import Mathlib.Data.Fintype.Basic

/-! One end-of-stream tag ends what a block offers its outputs, as long as each stop request that comes after its first
    samples comes while a work call is past its check of the state, or is there behind the end. -/

namespace GnuRadio.EndMarker

open EndOfStream (Choice Stage Next access)
open LifeCycle (isSatisfiedTransition isValidTransition)

variable {ι κ : Type} [DecidableEq ι] {implements : LifeCycle.Hook → Bool} {worker i : ι} {s t : State ι κ} {a : Act ι κ}
  {choice : Choice} {stage : Stage} {block : EndOfStream.State ι} {offers : List Offer}

/-- One end-of-stream tag, behind everything else. -/
def MarkedOnce (offers : List Offer) : Prop := ∃ items, offers = items ++ [marker] ∧ marker ∉ items

/-- Once samples were processed, no work call finds a stop request at its check of the state, and none finds settings that
    publish a tag in a block that has stopped. No tag but the one of `publishEoS()` has the end-of-stream key. -/
def StopsInCall (worker : ι) (s : State ι κ) : Act ι κ → Prop
  | .access _ offers =>
    (s.processed = true → s.block.stages worker = .checkStop → s.block.state ≠ .requestedStop) ∧
      (s.processed = true → s.block.stages worker = .checkStopped → s.block.state = .stopped → ∀ port, offers port = []) ∧
      ∀ port, marker ∉ offers port
  | _ => True

instance [Fintype κ] (worker : ι) (s : State ι κ) : (a : Act ι κ) → Decidable (StopsInCall worker s a)
  | .access _ offers => inferInstanceAs (Decidable
      ((s.processed = true → s.block.stages worker = .checkStop → s.block.state ≠ .requestedStop) ∧
        (s.processed = true → s.block.stages worker = .checkStopped → s.block.state = .stopped → ∀ port, offers port = []) ∧
          ∀ port, marker ∉ offers port))
  | .requestStop _ | .goOn _ | .work => .isTrue trivial

/-- The work call has found that the block has not stopped. -/
def isPastCheck : Stage → Bool
  | .outside | .checkPause | .checkStop | .checkChildren | .checkStopped => false
  | .changeStateTo _ _ next | .method _ next =>
    match next with
    | .returns | .checkStop | .checkChildren | .checkStopped => false
    | .epilogue | .process | .publish _ _ | .setStopped => true
  | _ => true

/-- The call has had an error. -/
def isFailed : Stage → Bool
  | Stage.finaliseIO status | .publish status _ => status == .error
  | .changeStateTo _ _ next | .method _ next =>
    match next with
    | .publish status _ => status == .error
    | _ => false
  | _ => false

/-- A call past its check finds the block running or about to stop, and has had no error. -/
def Runs (state : LifeCycle.State) (stage : Stage) : Prop :=
  isPastCheck stage = true → state ≠ .stopped ∧ isFailed stage = false

/-- A thread that makes no work calls stands outside, or in a stop request. -/
inductive InRequest : Stage → Prop
  | outside : InRequest .outside
  | changeStateTo (observed : Option LifeCycle.State) : InRequest (.changeStateTo .requestedStop observed .returns)
  | method (hook : LifeCycle.Hook) : InRequest (.method hook .returns)

/-- A request that a thread makes: for a stop, or, from the check of the state, for the end of a block that has processed
    no samples. -/
def Requests (processed : Bool) (stage : Stage) : Prop :=
  ∀ newState observed next, stage = .changeStateTo newState observed next →
    (newState = .requestedStop ∨ newState = .stopped ∧ isPastCheck stage = false ∧ processed = false) ∧
      ∀ old, observed = some old → isSatisfiedTransition old newState = false ∧ isValidTransition old newState = true

/-- A block that has not stopped has offered no end-of-stream tag, and one that has stopped behind samples has offered one. -/
structure Inv (worker : ι) (s : State ι κ) : Prop where
  state : s.block.state = .running ∨ s.block.state = .requestedStop ∨ s.block.state = .stopped
  others : ∀ i, i ≠ worker → InRequest (s.block.stages i)
  requests : ∀ i, Requests s.processed (s.block.stages i)
  runs : Runs s.block.state (s.block.stages worker)
  unmarked : s.block.state ≠ .stopped → s.done = false ∧ ∀ port, marker ∉ s.offered port
  marked : s.block.state = .stopped → s.processed = true → ∀ port, MarkedOnce (s.offered port)

/-! ### Requests -/

variable {observed : Option LifeCycle.State} {next : Next}

theorem runs_next {state newState : LifeCycle.State}
    (h : Runs state (.changeStateTo newState observed next)) : Runs state next.stage := by
  cases next <;> exact h

theorem runs_method {state : LifeCycle.State} {hook : LifeCycle.Hook} (h : Runs state (.method hook next)) :
    Runs state next.stage := by
  cases next <;> exact h

theorem runs_of_not {state : LifeCycle.State} (h : isPastCheck stage = false) : Runs state stage := by
  intro hp
  rw [h] at hp
  cases hp

variable {processed : Bool}

theorem requests_of_ne (h : ∀ newState observed next, stage ≠ .changeStateTo newState observed next) :
    Requests processed stage :=
  fun newState observed next hstage => absurd hstage (h newState observed next)

theorem requests_next : Requests processed next.stage :=
  requests_of_ne fun _ _ _ h => EndOfStream.next_request h

theorem requests_stop : Requests processed (.changeStateTo .requestedStop none next) := by
  rintro newState observed next' h
  cases h
  exact ⟨.inl rfl, fun _ h => (by cases h)⟩

/-- What holds of the requests does not depend on samples, but for the request for the end. -/
theorem Requests.inRequest {processed processed' : Bool} (h : Requests processed stage) (hin : InRequest stage) :
    Requests processed' stage := by
  rintro newState observed next hstage
  refine ⟨.inl ?_, (h newState observed next hstage).2⟩
  cases hin <;> cases hstage
  rfl

theorem inRequest_of_next {newState : LifeCycle.State}
    (h : InRequest (.changeStateTo newState observed next)) : newState = .requestedStop ∧ next = .returns := by
  cases h
  exact ⟨rfl, rfl⟩

/-! ### What a step keeps -/

/-- A step of thread `i` that leaves the outputs as they are, and the state unless it is a stop request. -/
theorem Inv.of_request (h : Inv worker s) (stages : ∀ j, j ≠ i → block.stages j = s.block.stages j)
    (state : block.state = s.block.state ∨ s.block.state ≠ .stopped ∧ block.state = .requestedStop ∨
      s.processed = false ∧ block.state = .stopped ∧ isPastCheck (block.stages worker) = false)
    (inRequest : i ≠ worker → InRequest (block.stages i)) (requests : Requests s.processed (block.stages i))
    (runs : i = worker → Runs s.block.state (block.stages i)) : Inv worker { s with block := block } := by
  have hruns : Runs s.block.state (block.stages worker) := by
    by_cases hi : i = worker
    · subst hi
      exact runs rfl
    · rw [stages worker (Ne.symm hi)]
      exact h.runs
  have hothers (j : ι) (hj : j ≠ worker) : InRequest (block.stages j) := by
    by_cases hji : j = i
    · subst hji
      exact inRequest hj
    · exact stages j hji ▸ h.others j hj
  have hrequests (j : ι) : Requests s.processed (block.stages j) := by
    by_cases hji : j = i
    · subst hji
      exact requests
    · exact stages j hji ▸ h.requests j
  obtain hst | ⟨hne, hst⟩ | ⟨hproc, hst, hnot⟩ := state
  · exact ⟨hst ▸ h.state, hothers, hrequests, hst ▸ hruns, fun hne => h.unmarked (hst ▸ hne), fun heq => h.marked (hst ▸ heq)⟩
  · refine ⟨.inr (.inl hst), hothers, hrequests, fun hp => ⟨fun hstop => ?_, (hruns hp).2⟩, fun _ => h.unmarked hne,
      fun hstop => ?_⟩ <;>
      · rw [hst] at hstop
        cases hstop
  · refine ⟨.inr (.inr hst), hothers, hrequests, runs_of_not hnot, fun hne => absurd hst hne, fun _ hp => ?_⟩
    rw [hproc] at hp
    cases hp

/-- An access in `changeStateTo()`. -/
theorem Inv.changeStateTo (h : Inv worker s) {newState : LifeCycle.State}
    (hst : s.block.stages i = .changeStateTo newState observed next) (hs : access implements s.block i choice = some block) :
    Inv worker { s with block := block } := by
  obtain ⟨hnew, hold⟩ := h.requests i newState observed next hst
  rw [hst] at hnew
  have hin (hi : i ≠ worker) : newState = .requestedStop ∧ next = .returns := inRequest_of_next (hst ▸ h.others i hi)
  have hruns (hi : i = worker) : Runs s.block.state (.changeStateTo newState observed next) := by
    subst hi
    exact hst ▸ h.runs
  have hreturns (hi : i ≠ worker) : InRequest next.stage := by
    obtain ⟨-, rfl⟩ := hin hi
    exact .outside
  obtain ⟨hsat, hval, rfl⟩ | ⟨-, rfl⟩ | ⟨rfl, stage, hstage, rfl⟩ := EndOfStream.request_cases hst hs
  · refine h.of_request (i := i) (fun j hj => EndOfStream.setStage_other hj) (.inl rfl) ?_ ?_ ?_ <;>
      rw [EndOfStream.setStage_stages]
    · intro hi
      obtain ⟨rfl, rfl⟩ := hin hi
      exact .changeStateTo _
    · rintro newState' observed' next' heq
      cases heq
      refine ⟨hnew, fun old heq => ?_⟩
      cases heq
      exact ⟨hsat, hval⟩
    · exact hruns
  · refine h.of_request (i := i) (fun j hj => EndOfStream.setStage_other hj) (.inl rfl) ?_ ?_ ?_ <;>
      rw [EndOfStream.setStage_stages]
    · exact hreturns
    · exact requests_next
    · exact fun hi => runs_next (hruns hi)
  · obtain ⟨hsat, hval⟩ := hold _ rfl
    refine h.of_request (i := i) (fun j hj => EndOfStream.setStage_other hj) ?_ ?_ ?_ ?_ <;>
      try rw [EndOfStream.setStage_stages]
    · obtain rfl | ⟨rfl, hnot, hproc⟩ := hnew
      · refine .inr (.inl ⟨fun hstop => ?_, rfl⟩)
        rw [hstop] at hsat
        cases hsat
      · -- only the thread of the work calls requests the end
        obtain rfl : i = worker := by
          by_contra hi
          cases (hin hi).1
        refine .inr (.inr ⟨hproc, rfl, ?_⟩)
        rw [EndOfStream.setStage_stages]
        obtain rfl | ⟨hook, rfl⟩ := hstage
        · cases next <;> first | rfl | cases hnot
        · exact hnot
    · intro hi
      obtain rfl | ⟨hook, rfl⟩ := hstage
      · exact hreturns hi
      · obtain ⟨-, rfl⟩ := hin hi
        exact .method hook
    · obtain rfl | ⟨hook, rfl⟩ := hstage
      · exact requests_next
      · exact requests_of_ne (by simp)
    · intro hi
      obtain rfl | ⟨hook, rfl⟩ := hstage
      · exact runs_next (hruns hi)
      · exact hruns hi

variable {more : κ → List Offer} {processed done : Bool}

/-- A step of a work call that leaves the state as it is. -/
theorem Inv.goesOn (h : Inv worker s) (requests : Requests processed stage)
    (runs : Runs s.block.state stage)
    (running : s.block.state ≠ .stopped → done = false ∧ ∀ port, marker ∉ more port)
    (stopped : s.block.state = .stopped → processed = true → s.processed = true ∧ ∀ port, more port = []) :
    Inv worker
      { block := s.block.setStage worker stage, offered := fun port => s.offered port ++ more port, processed, done } where
  state := h.state
  others i hi := by
    rw [EndOfStream.setStage_other hi]
    exact h.others i hi
  requests i := by
    by_cases hi : i = worker
    · subst hi
      rw [EndOfStream.setStage_stages]
      exact requests
    · rw [EndOfStream.setStage_other hi]
      exact (h.requests i).inRequest (h.others i hi)
  runs := by
    rw [EndOfStream.setStage_stages]
    exact runs
  unmarked hne := by
    obtain ⟨hdone, hmore⟩ := running hne
    refine ⟨hdone, fun port hmem => ?_⟩
    obtain hmem | hmem := List.mem_append.mp hmem
    · exact (h.unmarked hne).2 port hmem
    · exact hmore port hmem
  marked hst hp port := by
    obtain ⟨hproc, hmore⟩ := stopped hst hp
    show MarkedOnce (s.offered port ++ more port)
    rw [hmore port, List.append_nil]
    exact h.marked hst hproc port

/-- The end of the stream: the marker follows what was offered before. -/
theorem Inv.setStopped (h : Inv worker s) (hst : s.block.stages worker = .setStopped)
    (hmore : ∀ port, marker ∉ more port) :
    Inv worker
      { block := (s.block.setState worker .stopped).setStage worker .outside
        offered := fun port => s.offered port ++ (more port ++ [marker]), processed, done } where
  state := .inr (.inr rfl)
  others i hi := by
    rw [EndOfStream.setStage_other hi]
    exact h.others i hi
  requests i := by
    by_cases hi : i = worker
    · subst hi
      rw [EndOfStream.setStage_stages]
      exact requests_of_ne (by simp)
    · rw [EndOfStream.setStage_other hi]
      exact (h.requests i).inRequest (h.others i hi)
  runs := by
    rw [EndOfStream.setStage_stages]
    exact runs_of_not rfl
  unmarked hne := absurd rfl hne
  marked _ _ port := by
    have hrunning := (h.runs (by rw [hst]; rfl)).1
    refine ⟨s.offered port ++ more port, (List.append_assoc ..).symm, fun hmem => ?_⟩
    obtain hmem | hmem := List.mem_append.mp hmem
    · exact (h.unmarked hrunning).2 port hmem
    · exact hmore port hmem

/-- A step in front of the check, or one that leaves the call there. -/
theorem Inv.atCheck (h : Inv worker s) (requests : Requests s.processed stage) (runs : Runs s.block.state stage) :
    Inv worker { s with block := s.block.setStage worker stage } := by
  have hstep : Inv worker
      { block := s.block.setStage worker stage, offered := fun port => s.offered port ++ [], processed := s.processed,
        done := s.done } :=
    h.goesOn requests runs (fun hne => ⟨(h.unmarked hne).1, by simp⟩) fun _ hp => ⟨hp, fun _ => rfl⟩
  simpa only [List.append_nil] using hstep

/-- A step behind the check. -/
theorem Inv.inCall (h : Inv worker s) (hrunning : s.block.state ≠ .stopped)
    (hmore : ∀ port, marker ∉ more port) (hdone : done = s.done) (requests : Requests processed stage)
    (hfailed : isFailed stage = false) :
    Inv worker
      { block := s.block.setStage worker stage, offered := fun port => s.offered port ++ more port, processed, done } :=
  h.goesOn requests (fun _ => ⟨hrunning, hfailed⟩) (fun hne => ⟨hdone ▸ (h.unmarked hne).1, hmore⟩)
    fun hst => absurd hst hrunning

omit [DecidableEq ι] in
/-- A step that offers nothing and returns from nothing. -/
theorem Inv.silent (h : Inv worker { s with block := block }) {offers : κ → List Offer} {state : LifeCycle.State}
    (hoffers : ∀ port, offersAt state stage (offers port) = []) (hprocesses : processesAt stage choice = false)
    (hdone : doneAt state stage = false) :
    Inv worker
      { block
        offered := fun port => s.offered port ++ offersAt state stage (offers port)
        processed := s.processed || processesAt stage choice
        done := s.done || doneAt state stage } := by
  simp only [hoffers, List.append_nil, hprocesses, hdone, Bool.or_false]
  exact h

theorem Inv.access (h : Inv worker s) {offers : κ → List Offer} (hok : StopsInCall worker s (.access choice offers))
    (hfree : errorFree choice = true) (ha : access implements s.block worker choice = some block) :
    Inv worker
      { block
        offered := fun port => s.offered port ++ offersAt s.block.state (s.block.stages worker) (offers port)
        processed := s.processed || processesAt (s.block.stages worker) choice
        done := s.done || doneAt s.block.state (s.block.stages worker) } := by
  obtain ⟨hcheck, hstaged, hmarker⟩ := hok
  simp only [errorFree, Bool.and_eq_true, Bool.not_eq_true', bne_iff_ne, ne_eq] at hfree
  obtain ⟨⟨⟨hthrows, hfails⟩, hstatus⟩, hrequest⟩ := hfree
  have hruns := h.runs
  cases hst : s.block.stages worker with
  | outside =>
    simp only [EndOfStream.access, hst] at ha
    cases ha
  | changeStateTo newState observed next =>
    exact (h.changeStateTo hst ha).silent (fun _ => rfl) rfl rfl
  | method hook next =>
    simp only [EndOfStream.access, hst, hthrows, Bool.false_eq_true, if_false] at ha
    cases ha
    have hstep : Inv worker { s with block := s.block.setStage worker next.stage } :=
      h.atCheck requests_next (runs_method (hst ▸ hruns))
    exact hstep.silent (fun _ => rfl) rfl rfl
  | checkPause =>
    have hpause : s.block.state ≠ .requestedPause := by
      obtain hs | hs | hs := h.state <;> simp [hs]
    simp only [EndOfStream.access, hst, hpause, if_false] at ha
    cases ha
    have hstep : Inv worker { s with block := s.block.setStage worker .checkStop } :=
      h.atCheck (requests_of_ne (by simp)) (runs_of_not rfl)
    exact hstep.silent (fun _ => rfl) rfl rfl
  | checkStop =>
    simp only [EndOfStream.access, hst] at ha
    cases ha
    have hstep : Inv worker
        { s with
          block := s.block.setStage worker
            (if s.block.state = .requestedStop then .changeStateTo .stopped none .checkChildren else .checkChildren) } := by
      split
      next hstop =>
        refine h.atCheck ?_ (runs_of_not rfl)
        rintro newState observed next heq
        cases heq
        have hproc : s.processed = false := by
          cases hp : s.processed with
          | false => rfl
          | true => exact absurd hstop (hcheck hp hst)
        exact ⟨.inr ⟨rfl, rfl, hproc⟩, by simp⟩
      next => exact h.atCheck (requests_of_ne (by simp)) (runs_of_not rfl)
    exact hstep.silent (fun _ => rfl) rfl rfl
  | checkChildren =>
    simp only [EndOfStream.access, hst] at ha
    cases ha
    have hstep : Inv worker
        { s with
          block := s.block.setStage worker
            (if choice.ends then .changeStateTo .requestedStop none .checkStopped else .checkStopped) } := by
      split
      · exact h.atCheck requests_stop (runs_of_not rfl)
      · exact h.atCheck (requests_of_ne (by simp)) (runs_of_not rfl)
    exact hstep.silent (fun _ => rfl) rfl rfl
  | checkStopped =>
    simp only [EndOfStream.access, hst] at ha
    cases ha
    by_cases hstop : s.block.state = .stopped
    · rw [if_pos hstop]
      refine h.goesOn (requests_of_ne (by simp)) (runs_of_not rfl) (fun hne => absurd hstop hne) fun _ hp => ?_
      have hproc : s.processed = true := by simpa [processesAt] using hp
      refine ⟨hproc, fun port => ?_⟩
      rw [offersAt, if_pos hstop]
      exact hstaged hproc hst hstop port
    · rw [if_neg hstop]
      have hstep : Inv worker { s with block := s.block.setStage worker .limits } :=
        h.atCheck (requests_of_ne (by simp)) fun _ => ⟨hstop, rfl⟩
      exact hstep.silent (fun _ => if_neg hstop) rfl (by simpa [doneAt] using hstop)
  | limits =>
    have hrunning := (hruns (by rw [hst]; rfl)).1
    simp only [EndOfStream.access, hst] at ha
    cases ha
    have hstep : Inv worker
        { s with
          block := s.block.setStage worker
            (if choice.ends ∨ LifeCycle.isShuttingDown s.block.state then .endOfStream
              else if choice.returns then .outside else .process) } := by
      split
      · exact h.atCheck (requests_of_ne (by simp)) fun _ => ⟨hrunning, rfl⟩
      · split <;> exact h.atCheck (requests_of_ne (by simp)) fun _ => ⟨hrunning, rfl⟩
    exact hstep.silent (fun _ => rfl) rfl rfl
  | endOfStream =>
    have hrunning := (hruns (by rw [hst]; rfl)).1
    simp only [EndOfStream.access, hst] at ha
    cases ha
    have hstep : Inv worker
        { s with block := s.block.setStage worker (if choice.returns then .outside else .epilogue) } := by
      split <;> exact h.atCheck (requests_of_ne (by simp)) fun _ => ⟨hrunning, rfl⟩
    exact hstep.silent (fun _ => rfl) rfl rfl
  | finaliseIO status =>
    obtain ⟨hrunning, hfailed⟩ := hruns (by rw [hst]; rfl)
    rw [hst] at hfailed
    have hne : status ≠ .error := by simpa [isFailed] using hfailed
    simp only [EndOfStream.access, hst, hne, if_false] at ha
    split at ha <;> cases ha
    · exact (h.atCheck requests_stop fun _ => ⟨hrunning, rfl⟩).silent (fun _ => rfl) rfl rfl
    · have hstep : Inv worker { s with block := s.block.setStage worker (.publish status false) } :=
        h.atCheck (requests_of_ne (by simp)) fun _ => ⟨hrunning, hfailed⟩
      exact hstep.silent (fun _ => rfl) rfl rfl
  | epilogue =>
    have hrunning := (hruns (by rw [hst]; rfl)).1
    simp only [EndOfStream.access, hst] at ha
    cases hreq : choice.request with
    | some newState =>
      rw [hreq] at ha hrequest
      obtain rfl : newState = .requestedStop := by simpa using hrequest
      cases ha
      exact h.inCall hrunning hmarker (Bool.or_false _) requests_stop rfl
    | none =>
      rw [hreq] at ha
      cases ha
      exact h.inCall hrunning hmarker (Bool.or_false _) requests_stop rfl
  | process =>
    have hrunning := (hruns (by rw [hst]; rfl)).1
    simp only [EndOfStream.access, hst] at ha
    cases hreq : choice.request with
    | some newState =>
      rw [hreq] at ha hrequest
      obtain rfl : newState = .requestedStop := by simpa using hrequest
      cases ha
      exact h.inCall hrunning hmarker (Bool.or_false _) requests_stop rfl
    | none =>
      rw [hreq] at ha
      cases ha
      exact h.inCall hrunning hmarker (Bool.or_false _) (requests_of_ne (by simp)) (by simpa [isFailed] using hstatus)
  | publish status shuttingDown =>
    obtain ⟨hrunning, hfailed⟩ := hruns (by rw [hst]; rfl)
    rw [hst] at hfailed
    simp only [EndOfStream.access, hst, hfails, Bool.false_eq_true, if_false] at ha
    cases status with
    | done =>
      cases ha
      exact h.inCall hrunning hmarker (Bool.or_false _) requests_stop rfl
    | ok =>
      cases ha
      exact h.inCall hrunning hmarker (Bool.or_false _) (requests_of_ne (by simp)) rfl
    | error => cases hfailed
  | setStopped =>
    simp only [EndOfStream.access, hst] at ha
    cases ha
    exact h.setStopped hst hmarker

theorem Inv.step (h : Inv worker s) (hok : StopsInCall worker s a) (hs : step implements worker s a = some t) :
    Inv worker t := by
  cases a with
  | access choice offers =>
    simp only [EndMarker.step] at hs
    split at hs
    · obtain ⟨block, ha, rfl⟩ := Option.map_eq_some_iff.mp hs
      exact h.access hok ‹_› ha
    · cases hs
  | requestStop i =>
    obtain ⟨block, ha, rfl⟩ := Option.map_eq_some_iff.mp hs
    simp only [EndOfStream.step] at ha
    split at ha <;> cases ha
    next hout =>
    refine h.of_request (i := i) (fun j hj => EndOfStream.setStage_other hj) (.inl rfl) ?_ ?_ ?_ <;>
      rw [EndOfStream.setStage_stages]
    · exact fun _ => .changeStateTo none
    · exact requests_stop
    · exact fun _ => runs_of_not rfl
  | work =>
    obtain ⟨block, ha, rfl⟩ := Option.map_eq_some_iff.mp hs
    simp only [EndOfStream.step] at ha
    split at ha <;> cases ha
    exact h.atCheck (requests_of_ne (by simp)) (runs_of_not rfl)
  | goOn i =>
    simp only [EndMarker.step] at hs
    split at hs
    · cases hs
    next hi =>
    obtain ⟨block, ha, rfl⟩ := Option.map_eq_some_iff.mp hs
    have hin := h.others i hi
    cases hst : s.block.stages i with
    | outside =>
      simp only [EndOfStream.access, hst] at ha
      cases ha
    | changeStateTo newState observed next => exact h.changeStateTo hst ha
    | method hook next =>
      obtain rfl : next = .returns := by
        rw [hst] at hin
        cases hin
        rfl
      simp only [EndOfStream.access, hst, Bool.false_eq_true, if_false] at ha
      cases ha
      refine h.of_request (i := i) (fun j hj => EndOfStream.setStage_other hj) (.inl rfl) ?_ ?_ ?_ <;>
        rw [EndOfStream.setStage_stages]
      · exact fun _ => .outside
      · exact requests_next
      · exact fun heq => absurd heq hi
    | _ =>
      rw [hst] at hin
      cases hin

theorem Inv.reach (h : (system ι κ implements worker).Reach (StopsInCall worker) s) : Inv worker s := by
  refine h.invariant (fun s hs => ?_) fun s a t h hok hs => h.step hok hs
  subst hs
  exact ⟨.inl rfl, fun _ _ => .outside, fun _ => requests_of_ne (by simp), runs_of_not rfl, fun _ => ⟨rfl, fun _ => by simp⟩,
    fun hst => (by cases hst)⟩

/-- When a work call of a block that has processed samples has returned `DONE`, one end-of-stream tag ends what each output
    was offered. -/
theorem ends_with_marker (h : (system ι κ implements worker).Reach (StopsInCall worker) s) (hprocessed : s.processed = true)
    (hdone : s.done = true) (port : κ) : MarkedOnce (s.offered port) := by
  have hinv := Inv.reach h
  by_cases hstop : s.block.state = .stopped
  · exact hinv.marked hstop hprocessed port
  · rw [(hinv.unmarked hstop).1] at hdone
    cases hdone

/-! ### A stop request between two calls, and one within a call -/

/-- The accesses of a call in which nothing ends. -/
def nextAccess (offers : List Offer) : Act Bool Unit := .access ⟨false, false, false, none, .ok, false⟩ fun _ => offers

/-- A work call that offers four samples. -/
def firstCall : List (Act Bool Unit) :=
  [.work, nextAccess [], nextAccess [], nextAccess [], nextAccess [], nextAccess [], nextAccess [], nextAccess [], nextAccess [.samples 4]]

def stopRequest : List (Act Bool Unit) := [.requestStop true, .goOn true, .goOn true]

/-- The stop comes between two calls: the second one ends at its check. -/
def stopsBetween : List (Act Bool Unit) :=
  firstCall ++ stopRequest ++
    [.work, nextAccess [], nextAccess [], nextAccess [], nextAccess [], nextAccess [], nextAccess []]

/-- The stop comes behind the check of the second call, which offers the last sample and the marker. -/
def stopsWithin : List (Act Bool Unit) :=
  firstCall ++ [.work, nextAccess [], nextAccess [], nextAccess [], nextAccess []] ++ stopRequest ++
    [nextAccess [], nextAccess [], nextAccess [.samples 1], nextAccess [], nextAccess []]

def running : State Bool Unit :=
  { block := { state := .running, stages := fun _ => .outside, moved := fun _ => false }
    offered := fun _ => []
    processed := false
    done := false }

def endedWithin : State Bool Unit := ((system Bool Unit (fun _ => false) false).run running stopsWithin).get (by decide)

theorem ends_with_marker_within : endedWithin.processed = true ∧ endedWithin.done = true ∧
    ∀ port, MarkedOnce (endedWithin.offered port) := by
  have hreach : (system Bool Unit (fun _ => false) false).Reach (StopsInCall false) endedWithin :=
    Transition.System.reach_get _ stopsWithin rfl (by decide) (by decide)
  exact ⟨by decide, by decide, ends_with_marker hreach (by decide) (by decide)⟩

def endedBetween : State Bool Unit := ((system Bool Unit (fun _ => false) false).run running stopsBetween).get (by decide)

/-- The block is done, and no output was offered a marker. -/
theorem unmarked_between : ¬ ∀ s, (system Bool Unit (fun _ => false) false).Reachable s → s.processed = true →
    s.done = true → ∀ port, MarkedOnce (s.offered port) := by
  intro h
  have hreach : (system Bool Unit (fun _ => false) false).Reachable endedBetween :=
    Transition.System.reachable_get _ stopsBetween rfl (by decide)
  obtain ⟨items, hoffered, -⟩ := h endedBetween hreach (by decide) (by decide) ()
  have hlast : (endedBetween.offered ()).getLast? = some marker := by rw [hoffered, List.getLast?_concat]
  revert hlast
  decide

end GnuRadio.EndMarker
