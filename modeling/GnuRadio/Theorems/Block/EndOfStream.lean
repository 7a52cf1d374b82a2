import GnuRadio.Block.EndOfStream
import GnuRadio.Theorems.LifeCycle.Hooks

/-! The stored state moves along the state machine as long as each end of a stream stores `STOPPED` where its own request
    left `REQUESTED_STOP`, or where the block has stopped already. -/

namespace GnuRadio.EndOfStream

open LifeCycle (Hook Down isValidTransition)

variable {ι : Type} [DecidableEq ι] {implements : Hook → Bool} {s t : State ι} {i j : ι} {a : Act ι} {choice : Choice}
  {stage : Stage}

/-- A change of the state is an edge of the state machine, `ERROR` is left to `INITIALISED` only, and an end of stream
    changes no state that another thread has reached since its request. -/
structure Along (s : State ι) (a : Act ι) (t : State ι) : Prop where
  edge : isValidTransition s.state t.state = true
  error : s.state = .error → t.state = .error ∨ t.state = .initialised
  others : ∀ i choice, a = .access i choice → s.stages i = .setStopped → s.moved i = true → t.state = s.state

/-- An end of stream that stores `STOPPED` finds what its request left, or a block that has stopped. -/
def FindsStop (s : State ι) : Act ι → Prop
  | .access i _ =>
    s.stages i = .setStopped → s.state = .stopped ∨ s.state = .requestedStop ∧ s.moved i = false
  | _ => True

/-- The thread stands behind the stop request of an end of stream. -/
def Stage.stopRequested : Stage → Bool
  | .setStopped | .method _ .setStopped => true
  | _ => false

/-- The request before an end of stream is one for a stop. A request exchanges a state that it has found to allow the
    change. Until another thread changes the state, it stays where the request has left it. -/
structure Inv (s : State ι) : Prop where
  request : ∀ i newState observed, s.stages i = .changeStateTo newState observed .setStopped → newState = .requestedStop
  observed : ∀ i newState observed next, s.stages i = .changeStateTo newState (some observed) next →
    LifeCycle.isSatisfiedTransition observed newState = false ∧ isValidTransition observed newState = true
  settled : ∀ i, (s.stages i).stopRequested = true → s.moved i = false → Down s.state

/-! ### What a step does -/

/-- A stage that a thread reaches without a change of the state. -/
structure Stage.Fresh (stage : Stage) : Prop where
  request : ∀ newState observed, stage = .changeStateTo newState observed .setStopped → newState = .requestedStop
  observed : ∀ newState observed next, stage ≠ .changeStateTo newState (some observed) next
  notStop : stage.stopRequested = false

/-- The steps of a thread, by what they do to the state. -/
inductive Access (s : State ι) (i : ι) : State ι → Prop
  | goesOn {stage : Stage} (hi : s.stages i ≠ .setStopped) (h : stage.Fresh) : Access s i (s.setStage i stage)
  | observes {newState : LifeCycle.State} {observed : Option LifeCycle.State} {next : Next}
      (h : s.stages i = .changeStateTo newState observed next)
      (hs : LifeCycle.isSatisfiedTransition s.state newState = false) (hv : isValidTransition s.state newState = true) :
      Access s i (s.setStage i (.changeStateTo newState (some s.state) next))
  | settles {newState : LifeCycle.State} {observed : Option LifeCycle.State} {next : Next}
      (h : s.stages i = .changeStateTo newState observed next)
      (hs : LifeCycle.isSatisfiedTransition s.state newState = true ∨ isValidTransition s.state newState = false) :
      Access s i ((s.settle i).setStage i next.stage)
  | changes {newState : LifeCycle.State} {next : Next} {stage : Stage}
      (h : s.stages i = .changeStateTo newState (some s.state) next)
      (hs : stage = next.stage ∨ ∃ hook, stage = .method hook next) :
      Access s i (((s.setState i newState).settle i).setStage i stage)
  | returns {hook : Hook} {next : Next} (h : s.stages i = .method hook next) : Access s i (s.setStage i next.stage)
  | throws {hook : Hook} {next : Next} (h : s.stages i = .method hook next) :
      Access s i ((s.setState i .error).setStage i next.stage)
  | stores (h : s.stages i = .setStopped) : Access s i ((s.setState i .stopped).setStage i .outside)

theorem fresh_outside : Stage.Fresh .outside := ⟨by simp, by simp, rfl⟩

variable {newState : LifeCycle.State}

theorem fresh_request {next : Next} (h : next = .setStopped → newState = .requestedStop) :
    Stage.Fresh (.changeStateTo newState none next) :=
  ⟨fun _ _ hs => (by cases hs; exact h rfl), by simp, rfl⟩

theorem fresh_of {stage : Stage} (h₁ : ∀ newState observed next, stage ≠ .changeStateTo newState observed next)
    (h₂ : stage.stopRequested = false) : stage.Fresh :=
  ⟨fun newState observed h => absurd h (h₁ newState observed _), fun newState observed => h₁ newState (some observed), h₂⟩

omit [DecidableEq ι] in
theorem observe_cases (newState state : LifeCycle.State) :
    (LifeCycle.isSatisfiedTransition state newState = true ∨ isValidTransition state newState = false) ∧
      (LifeCycle.observe newState state = .satisfied state ∨ LifeCycle.observe newState state = .invalid) ∨
    LifeCycle.isSatisfiedTransition state newState = false ∧ isValidTransition state newState = true ∧
      LifeCycle.observe newState state = .exchange state := by
  simp only [LifeCycle.observe]
  cases hs : LifeCycle.isSatisfiedTransition state newState with
  | true => exact .inl ⟨.inl rfl, .inl rfl⟩
  | false =>
    cases hv : isValidTransition state newState with
    | true => exact .inr ⟨rfl, rfl, rfl⟩
    | false => exact .inl ⟨.inr rfl, .inr rfl⟩

/-- An access of a thread in `changeStateTo()`. -/
theorem request_cases {observed : Option LifeCycle.State} {next : Next}
    (hst : s.stages i = .changeStateTo newState observed next) (hs : access implements s i choice = some t) :
    LifeCycle.isSatisfiedTransition s.state newState = false ∧ isValidTransition s.state newState = true ∧
        t = s.setStage i (.changeStateTo newState (some s.state) next) ∨
      (LifeCycle.isSatisfiedTransition s.state newState = true ∨ isValidTransition s.state newState = false) ∧
        t = (s.settle i).setStage i next.stage ∨
      observed = some s.state ∧ ∃ stage, (stage = next.stage ∨ ∃ hook, stage = .method hook next) ∧
        t = ((s.setState i newState).settle i).setStage i stage := by
  simp only [access, hst] at hs
  have observes (ho : LifeCycle.changeStateTo newState s.state observed =
      (s.state, LifeCycle.observe newState s.state)) :
      LifeCycle.isSatisfiedTransition s.state newState = false ∧ isValidTransition s.state newState = true ∧
          t = s.setStage i (.changeStateTo newState (some s.state) next) ∨
        (LifeCycle.isSatisfiedTransition s.state newState = true ∨ isValidTransition s.state newState = false) ∧
          t = (s.settle i).setStage i next.stage := by
    rw [ho] at hs
    obtain ⟨hsv, ho | ho⟩ | ⟨hsat, hval, ho⟩ := observe_cases newState s.state <;>
      simp only [ho, Option.some.injEq] at hs <;> subst hs
    · exact .inr ⟨hsv, rfl⟩
    · exact .inr ⟨hsv, rfl⟩
    · exact .inl ⟨hsat, hval, rfl⟩
  cases observed with
  | none => exact (observes rfl).imp_right .inl
  | some observed =>
    by_cases heq : s.state = observed
    · subst heq
      simp only [LifeCycle.changeStateTo, if_true] at hs
      cases hm : LifeCycle.lifecycleMethod implements s.state newState with
      | some hook =>
        simp only [hm, Option.some.injEq] at hs
        exact .inr (.inr ⟨rfl, _, .inr ⟨hook, rfl⟩, hs.symm⟩)
      | none =>
        simp only [hm, Option.some.injEq] at hs
        exact .inr (.inr ⟨rfl, _, .inl rfl, hs.symm⟩)
    · exact (observes (by simp only [LifeCycle.changeStateTo, heq, if_false])).imp_right .inl

theorem access_cases (hs : access implements s i choice = some t) : Access s i t := by
  cases hst : s.stages i with
  | outside =>
    simp only [access, hst] at hs
    cases hs
  | changeStateTo newState observed next =>
    obtain ⟨hsat, hval, rfl⟩ | ⟨hsv, rfl⟩ | ⟨rfl, stage, hstage, rfl⟩ := request_cases hst hs
    · exact .observes hst hsat hval
    · exact .settles hst hsv
    · exact .changes hst hstage
  | method hook next =>
    simp only [access, hst] at hs
    cases hth : choice.throws <;> simp [hth] at hs <;> subst hs
    · exact .returns hst
    · exact .throws hst
  | setStopped =>
    simp only [access, hst] at hs
    cases hs
    exact .stores hst
  | checkPause | checkStop | checkChildren =>
    simp only [access, hst] at hs
    cases hs
    refine .goesOn (by simp [hst]) ?_
    split
    · exact fresh_request (by simp)
    · exact fresh_of (by simp) rfl
  | checkStopped | endOfStream =>
    simp only [access, hst] at hs
    cases hs
    refine .goesOn (by simp [hst]) ?_
    split
    · exact fresh_outside
    · exact fresh_of (by simp) rfl
  | limits =>
    simp only [access, hst] at hs
    cases hs
    refine .goesOn (by simp [hst]) ?_
    split
    · exact fresh_of (by simp) rfl
    · split
      · exact fresh_outside
      · exact fresh_of (by simp) rfl
  | epilogue | process =>
    simp only [access, hst] at hs
    split at hs <;> cases hs
    · exact .goesOn (by simp [hst]) (fresh_request (by simp))
    · exact .goesOn (by simp [hst]) (by first | exact fresh_request (by simp) | exact fresh_of (by simp) rfl)
  | finaliseIO status =>
    simp only [access, hst] at hs
    split at hs <;> cases hs
    · exact .goesOn (by simp [hst]) (fresh_request (by simp))
    · exact .goesOn (by simp [hst]) (fresh_of (by simp) rfl)
  | publish status shuttingDown =>
    simp only [access, hst] at hs
    split at hs <;> cases hs
    · exact .goesOn (by simp [hst]) (fresh_request (by simp))
    · refine .goesOn (by simp [hst]) ?_
      split
      · exact fresh_request (by simp)
      · exact fresh_outside
    · exact .goesOn (by simp [hst]) fresh_outside

theorem step_cases (hs : step implements s a = some t) :
    (∃ i stage, s.stages i ≠ .setStopped ∧ stage.Fresh ∧ t = s.setStage i stage ∧ ∀ j choice, a ≠ .access j choice) ∨
      ∃ i choice, a = .access i choice ∧ Access s i t := by
  cases a with
  | request i newState =>
    simp only [step] at hs
    split at hs <;> cases hs
    rename_i hi
    exact .inl ⟨i, _, by simp [hi], fresh_request (by simp), rfl, by simp⟩
  | work i =>
    simp only [step] at hs
    split at hs <;> cases hs
    rename_i hi
    exact .inl ⟨i, _, by simp [hi], fresh_of (by simp) rfl, rfl, by simp⟩
  | access i choice => exact .inr ⟨i, choice, rfl, access_cases hs⟩

/-! ### The invariant -/

/-- A step of thread `i` that leaves what the others have found, or marks that it moved. -/
theorem Inv.of_step (h : Inv s) (stages : ∀ j, j ≠ i → t.stages j = s.stages j)
    (moved : ∀ j, j ≠ i → t.moved j = false → s.moved j = false ∧ t.state = s.state)
    (request : ∀ newState observed, t.stages i = .changeStateTo newState observed .setStopped → newState = .requestedStop)
    (observed : ∀ newState observed next, t.stages i = .changeStateTo newState (some observed) next →
      LifeCycle.isSatisfiedTransition observed newState = false ∧ isValidTransition observed newState = true)
    (settled : (t.stages i).stopRequested = true → t.moved i = false → Down t.state) : Inv t := by
  refine ⟨fun j newState o hj => ?_, fun j newState o next hj => ?_, fun j hj hm => ?_⟩
  · by_cases hi : j = i
    · subst hi
      exact request newState o hj
    · exact h.request j newState o (stages j hi ▸ hj)
  · by_cases hi : j = i
    · subst hi
      exact observed newState o next hj
    · exact h.observed j newState o next (stages j hi ▸ hj)
  · by_cases hi : j = i
    · subst hi
      exact settled hj hm
    · obtain ⟨hm, hs⟩ := moved j hi hm
      rw [hs]
      exact h.settled j (stages j hi ▸ hj) hm

@[simp] theorem setStage_stages : (s.setStage i stage).stages i = stage := by
  simp [State.setStage]

theorem setStage_other (hj : j ≠ i) : (s.setStage i stage).stages j = s.stages j := by
  simp [State.setStage, hj]

/-- What the others have found stays, or they see that it moved. -/
theorem setState_moved (hj : j ≠ i) (hm : (s.setState i newState).moved j = false) :
    s.moved j = false ∧ newState = s.state := by
  simp only [State.setState, hj, if_false, Bool.or_eq_false_iff, bne_eq_false_iff_eq] at hm
  exact ⟨hm.1, hm.2.symm⟩

/-- No request follows a request at once. -/
theorem next_request {next next' : Next} {observed : Option LifeCycle.State}
    (h : next.stage = .changeStateTo newState observed next') : False := by
  cases next <;> cases h

theorem stopRequested_next {next : Next} (h : next.stage.stopRequested = true) : next = .setStopped := by
  cases next <;> simp_all [Next.stage, Stage.stopRequested]

theorem Inv.access (h : Inv s) (ha : Access s i t) : Inv t := by
  cases ha with
  | @goesOn stage _ hf =>
    refine h.of_step (i := i) (fun j hj => setStage_other hj) (fun j _ hm => ⟨hm, rfl⟩) ?_ ?_ ?_ <;>
      rw [setStage_stages]
    · exact hf.request
    · exact fun newState o next hs => absurd hs (hf.observed newState o next)
    · exact fun hs => (by rw [hf.notStop] at hs; cases hs)
  | @observes newState observed next hi hs hv =>
    refine h.of_step (i := i) (fun j hj => setStage_other hj) (fun j _ hm => ⟨hm, rfl⟩) ?_ ?_ ?_ <;>
      rw [setStage_stages]
    · rintro newState' o hst
      cases hst
      exact h.request i newState observed hi
    · rintro newState' o next' hst
      cases hst
      exact ⟨hs, hv⟩
    · exact fun hst => (by cases hst)
  | @settles newState observed next hi hs =>
    refine h.of_step (i := i) (fun j hj => setStage_other hj) (fun j hj hm => ⟨?_, rfl⟩) ?_ ?_ ?_
    · simpa [State.settle, State.setStage, hj] using hm
    · rw [setStage_stages]
      exact fun newState' o hst => (next_request hst).elim
    · rw [setStage_stages]
      exact fun newState' o next' hst => (next_request hst).elim
    · rw [setStage_stages]
      rintro hst -
      cases stopRequested_next hst
      cases h.request i newState observed hi
      show Down s.state
      obtain hs | hs := hs <;> cases hst : s.state <;>
        simp_all [LifeCycle.isSatisfiedTransition, isValidTransition, Down]
  | @changes newState next stage hi hs =>
    refine h.of_step (i := i) (fun j hj => setStage_other hj) (fun j hj hm => ?_) ?_ ?_ ?_
    · have hm : (s.setState i newState).moved j = false := by
        simpa [State.settle, State.setStage, hj] using hm
      exact setState_moved hj hm
    · rw [setStage_stages]
      obtain rfl | ⟨hook, rfl⟩ := hs
      · exact fun newState' o hst => (next_request hst).elim
      · exact fun newState' o hst => (by cases hst)
    · rw [setStage_stages]
      obtain rfl | ⟨hook, rfl⟩ := hs
      · exact fun newState' o next' hst => (next_request hst).elim
      · exact fun newState' o next' hst => (by cases hst)
    · rw [setStage_stages]
      rintro hst -
      have hnext : next = .setStopped := by
        obtain rfl | ⟨hook, rfl⟩ := hs
        · exact stopRequested_next hst
        · cases next <;> simp_all [Stage.stopRequested]
      subst hnext
      exact .inl (h.request i newState _ hi)
  | @returns hook next hi =>
    refine h.of_step (i := i) (fun j hj => setStage_other hj) (fun j _ hm => ⟨hm, rfl⟩) ?_ ?_ ?_ <;>
      rw [setStage_stages]
    · exact fun newState' o hst => (next_request hst).elim
    · exact fun newState' o next' hst => (next_request hst).elim
    · rintro hst hm
      cases stopRequested_next hst
      exact h.settled i (by rw [hi]; rfl) hm
  | @throws hook next hi =>
    refine h.of_step (i := i) (fun j hj => setStage_other hj) (fun j hj hm => setState_moved hj hm) ?_ ?_ ?_
    · rw [setStage_stages]
      exact fun newState' o hst => (next_request hst).elim
    · rw [setStage_stages]
      exact fun newState' o next' hst => (next_request hst).elim
    · exact fun _ _ => .inr (.inr rfl)
  | stores hi =>
    refine h.of_step (i := i) (fun j hj => setStage_other hj) (fun j hj hm => setState_moved hj hm) ?_ ?_ ?_
    · rw [setStage_stages]
      exact fun newState' o hst => (by cases hst)
    · rw [setStage_stages]
      exact fun newState' o next' hst => (by cases hst)
    · exact fun _ _ => .inr (.inl rfl)

theorem inv_of_reachable (h : (system ι implements).Reachable s) : Inv s := by
  refine h.invariant (fun s hs => ?_) fun s a t hI _ hs => ?_
  · subst hs
    exact ⟨by simp, by simp, fun i hi => (by cases hi)⟩
  · obtain ⟨i, stage, hi, hf, rfl, -⟩ | ⟨i, choice, rfl, ha⟩ := step_cases hs
    · exact hI.access (.goesOn hi hf)
    · exact hI.access ha

/-! ### Each change is one of the state machine -/

omit [DecidableEq ι] in
theorem along_same (he : t.state = s.state) : Along s a t :=
  ⟨by simp [he, isValidTransition], fun h => .inl (he ▸ h), fun _ _ _ _ _ => he⟩

/-- A step is along the state machine if and only if no end of stream finds something else than its stop. -/
theorem along_iff (h : Inv s) (hs : step implements s a = some t) : Along s a t ↔ FindsStop s a := by
  obtain ⟨i, stage, -, -, rfl, hn⟩ | ⟨i, choice, rfl, ha⟩ := step_cases hs
  · refine iff_of_true (along_same rfl) ?_
    cases a with
    | access j choice => exact absurd rfl (hn j choice)
    | _ => trivial
  -- only an end of stream stores a state that it has not compared
  have other (hi : s.stages i ≠ .setStopped) (edge : isValidTransition s.state t.state = true)
      (error : s.state = .error → t.state = .error ∨ t.state = .initialised) :
      Along s (.access i choice) t ↔ FindsStop s (.access i choice) := by
    refine iff_of_true ⟨edge, error, fun j choice' hj hst => ?_⟩ fun hst => absurd hst hi
    cases hj
    exact absurd hst hi
  have same (hi : s.stages i ≠ .setStopped) (ht : t.state = s.state) :
      Along s (.access i choice) t ↔ FindsStop s (.access i choice) :=
    other hi (by simp [ht, isValidTransition]) fun he => .inl (ht.trans he)
  cases ha with
  | goesOn hi _ => exact same hi rfl
  | observes hi _ _ | settles hi _ | returns hi => exact same (by simp [hi]) rfl
  | @changes newState next stage hi _ =>
    obtain ⟨-, hv⟩ := h.observed i newState s.state next hi
    refine other (by simp [hi]) hv fun he => ?_
    rw [he] at hv
    show newState = .error ∨ newState = .initialised
    cases newState <;> simp_all [isValidTransition]
  | throws hi => exact other (by simp [hi]) (by simp [State.setState, State.setStage, isValidTransition]) fun _ => .inl rfl
  | stores hi =>
    constructor
    · intro hal _
      cases hm : s.moved i with
      | true => exact .inl (hal.others i choice rfl hi hm).symm
      | false =>
        obtain hst | hst | hst := h.settled i (by rw [hi]; rfl) hm
        · exact .inr ⟨hst, rfl⟩
        · exact .inl hst
        · obtain he | he := hal.error hst <;> cases he
    · intro hf
      obtain hst | ⟨hst, hm⟩ := hf hi
      · exact along_same hst.symm
      · refine ⟨by rw [hst]; rfl, fun he => ?_, fun j choice' hj _ hmj => ?_⟩
        · rw [hst] at he
          cases he
        · cases hj
          rw [hm] at hmj
          cases hmj

/-- A run moves the stored state along the state machine, at each of its steps, if and only if each end of a stream in
    it finds the stop that it has requested, or the block stopped. -/
theorem stored_along_machine (ι : Type) [DecidableEq ι] (implements : Hook → Bool) (as : List (Act ι)) :
    (system ι implements).Meets (fun s a => ∀ t, step implements s a = some t → Along s a t)
        { state := .idle, stages := fun _ => .outside, moved := fun _ => false } as ↔
      (system ι implements).Meets FindsStop
        { state := .idle, stages := fun _ => .outside, moved := fun _ => false } as := by
  refine Transition.System.meets_congr (.start rfl) (fun s a h => ⟨fun hal => ?_, fun hf t hs => ?_⟩) as
  · cases hs : step implements s a with
    | some t => exact (along_iff (inv_of_reachable h) hs).mp (hal t hs)
    | none =>
      cases a with
      | access i choice =>
        intro hi
        simp only [step, access, hi] at hs
        cases hs
      | _ => trivial
  · exact (along_iff (inv_of_reachable h) hs).mpr hf

/-- A block whose `stop()` throws when its work is done. -/
def stopThrows : List (Act Unit) :=
  let next : Choice := ⟨false, false, false, none, .done, false⟩
  [.request () .initialised, .access () next, .access () next, .access () next,
    .request () .running, .access () next, .access () next, .access () next,
    .work (), .access () next, .access () next, .access () next, .access () next, .access () next, .access () next,
    .access () next, .access () next, .access () next, .access () next, .access () { next with throws := true }]

theorem stopThrows_run : ((system Unit fun _ => true).run
    { state := .idle, stages := fun _ => .outside, moved := fun _ => false } stopThrows).isSome := by decide

/-- It goes from `ERROR` to `STOPPED`. -/
theorem stopThrows_not_along : ∃ s a t, (system Unit fun _ => true).Reachable s ∧ step (fun _ => true) s a = some t ∧
    s.state = .error ∧ t.state = .stopped ∧ isValidTransition s.state t.state = false := by
  refine ⟨_, .access () ⟨false, false, false, none, .done, false⟩, _,
    (system Unit _).reachable_get stopThrows rfl stopThrows_run, (Option.some_get (by decide)).symm, ?_⟩
  decide

end GnuRadio.EndOfStream
