import GnuRadio.Block.Epilogue
import GnuRadio.Library.Pointwise
import GnuRadio.Theorems.Block.StreamEnd

/-! The end of a block's stream over whole runs of its work calls: the epilogue runs once, and a stall ends the block after
    `kStallLimit` calls in which nothing moved, and not before. -/

namespace GnuRadio.Epilogue

open LifeCycle (isShuttingDown isValidTransition)
open Pointwise
open WorkSize (SampleLimits least unlimited)

/-! ### Positions only grow -/

/-- The connections of an input stay, and its position grows. -/
def Input.Later (p q : Input) : Prop := q.isConnected = p.isConnected ∧ p.position ≤ q.position

/-- The position of an output grows, and while it stays so does the room. -/
def Output.Later (p q : Output) : Prop := p.position ≤ q.position ∧ (p.position = q.position → p.room ≤ q.room)

theorem Input.Later.refl (p : Input) : p.Later p := ⟨rfl, le_rfl⟩

theorem Output.Later.refl (p : Output) : p.Later p := ⟨le_rfl, fun _ => le_rfl⟩

def Later (s t : State) : Prop :=
  List.Forall₂ Input.Later s.inputs t.inputs ∧ List.Forall₂ Output.Later s.outputs t.outputs

theorem Later.of_eq {s t : State} (inputs : t.inputs = s.inputs) (outputs : t.outputs = s.outputs) : Later s t := by
  rw [Later, inputs, outputs]
  exact ⟨List.forall₂_same.mpr fun p _ => .refl p, List.forall₂_same.mpr fun p _ => .refl p⟩

theorem Output.later_publish (p : Output) (n : Nat) : p.Later (p.publish n) := by
  refine ⟨Nat.le_add_right _ _, fun h => ?_⟩
  have hzero : min n p.room = 0 := by
    simp only [Output.publish] at h
    omega
  have hpos : (p.publish n).position = p.position := h.symm
  have hread : (p.publish n).position - (p.publish n).read ≤ p.position - p.read := by
    rw [hpos]
    simp only [Output.publish, hzero]
    split <;> omega
  exact Nat.sub_le_sub_left hread _

theorem later_move (s : State) (consumed published : List Nat) : Later s (s.move consumed published) :=
  ⟨forall₂_mapIdx fun _ _ => ⟨rfl, Nat.le_add_right _ _⟩, forall₂_mapIdx fun _ p => p.later_publish _⟩

variable {hasEpilogue : Bool} {s t : State} {a : Act}

/-! ### What a step does -/

/-- The reading of a call that drains and does not wait. -/
def State.quietReading (s : State) : Reading := { s.reading true with waiting := false }

/-- What each access does in a state. The blocks around it, settings and skips change the ports and the chunk sizes. -/
inductive Steps (hasEpilogue : Bool) (s : State) : Act → State → Prop
  | around {a : Act} {inputs : List Input} {outputs : List Output} {chunks : WorkSize.Chunks}
      (later : Later s { s with inputs := inputs, outputs := outputs, chunks := chunks }) :
      Steps hasEpilogue s a { s with inputs := inputs, outputs := outputs, chunks := chunks }
  | requests {newState : LifeCycle.State} (valid : isValidTransition s.state newState = true)
      (notReset : newState ≠ .initialised) (notError : newState ≠ .error) :
      Steps hasEpilogue s (.request newState)
        { s with state := newState, stopOrDone := s.stopOrDone || isShuttingDown newState }
  | restarts (stage : s.stage = .outside) (stopped : s.state = .stopped) :
      Steps hasEpilogue s .restart { s with
        state := .running, nDrainStalls := 0, drainMark := ⟨0, 0⟩, drainStallHeld := false, nEpilogueWaits := 0
        epilogueWaitMark := ⟨0, 0⟩, readings := [], stalls := [], handed := [], stopOrDone := false }
  /-- A call begins. -/
  | begins {childless requests : Bool} {state : LifeCycle.State} (stage : s.stage = .outside)
      (before : s.state ≠ .stopped) (after : state ≠ .stopped) (shuts : isShuttingDown state = true → requests = true) :
      Steps hasEpilogue s (.work childless)
        { s with state := state, stopOrDone := s.stopOrDone || requests, stage := .limits }
  /-- A call finds the block stopped. -/
  | isStopped {childless : Bool} (stage : s.stage = .outside) (shuts : isShuttingDown s.state = true) :
      Steps hasEpilogue s (.work childless) { s.returns .done with state := .stopped }
  | sizes {a : Act} {limits : SampleLimits} {strideCounter : Nat} {inputs : List Input}
      (stage : s.stage = .limits ∨ ∃ limits, s.stage = .drainWait limits) (later : Later s { s with inputs := inputs }) :
      Steps hasEpilogue s a
        { s with strideCounter := strideCounter, inputs := inputs, stage := .drainWait limits }
  | holds {limits : SampleLimits} (stage : s.stage = .drainWait limits) (held : s.drainStallHeld = true) :
      Steps hasEpilogue s .drainWait
        { s with readings := s.reading limits.draining :: s.readings, stage := .endTest limits true }
  | resets {limits : SampleLimits} (stage : s.stage = .drainWait limits) (held : s.drainStallHeld = false)
      (found : limits.draining = false ∨ s.isWaitingOnOutput = true) :
      Steps hasEpilogue s .drainWait { s with
        nDrainStalls := 0, drainMark := ⟨0, 0⟩, readings := s.reading limits.draining :: s.readings
        stage := .endTest limits false }
  | looks {limits : SampleLimits} (stage : s.stage = .drainWait limits) (held : s.drainStallHeld = false) :
      Steps hasEpilogue s .drainWait { s with stage := .drainMark limits }
  | moved {limits : SampleLimits} (stage : s.stage = .drainMark limits) (mark : s.drainWatermark ≠ s.drainMark) :
      Steps hasEpilogue s .drainMark { s with
        drainMark := s.drainWatermark, nDrainStalls := 0, readings := s.quietReading :: s.readings
        stage := .endTest limits false }
  | counts {limits : SampleLimits} (stage : s.stage = .drainMark limits) (mark : s.drainWatermark = s.drainMark)
      (few : s.nDrainStalls + 1 < kStallLimit) :
      Steps hasEpilogue s .drainMark { s with
        nDrainStalls := s.nDrainStalls + 1, readings := s.quietReading :: s.readings, stage := .endTest limits false }
  | stalls {limits : SampleLimits} (stage : s.stage = .drainMark limits) (mark : s.drainWatermark = s.drainMark)
      (many : kStallLimit ≤ s.nDrainStalls + 1) :
      Steps hasEpilogue s .drainMark { s with
        nDrainStalls := s.nDrainStalls + 1, readings := s.quietReading :: s.readings
        stalls := (s.quietReading :: s.readings) :: s.stalls, stage := .endTest limits true }
  | ends {limits : SampleLimits} {drainStalled : Bool} (stage : s.stage = .endTest limits drainStalled) :
      Steps hasEpilogue s .endTest { s with stage := if hasEpilogue then .epilogue drainStalled else .finish }
  | returns {limits : SampleLimits} {status : Status} (stage : s.stage = .endTest limits false) :
      Steps hasEpilogue s .endTest (s.returns status)
  | processes {limits : SampleLimits} (stage : s.stage = .endTest limits false) :
      Steps hasEpilogue s .endTest { s with stage := .process }
  /-- The epilogue waits for room. -/
  | waits {drainStalled : Bool} {consumed published : List Nat} {nWaits : Nat} {mark : Watermark}
      (stage : s.stage = .epilogue drainStalled) :
      Steps hasEpilogue s (.epilogue consumed published) { s with
        nEpilogueWaits := nWaits, epilogueWaitMark := mark, drainStallHeld := drainStalled, stage := .outside
        waitedOnOutput := true }
  | runs {drainStalled : Bool} {consumed published : List Nat} {nWaits : Nat} {mark : Watermark}
      (stage : s.stage = .epilogue drainStalled) (room : s.epilogueOutSize.1 ≤ s.freeOut) :
      Steps hasEpilogue s (.epilogue consumed published) { s.move consumed published with
        nEpilogueWaits := nWaits, epilogueWaitMark := mark, drainStallHeld := false, stage := .finish
        handed := ⟨s.trailing, s.shortestEnd⟩ :: s.handed }
  | finishes (stage : s.stage = .finish) : Steps hasEpilogue s .finish { s.returns .done with state := .stopped }
  /-- The processing function has returned, and the block goes on. -/
  | goesOn {consumed published : List Nat} {status status' : Status} (stage : s.stage = .process) :
      Steps hasEpilogue s (.process consumed published status) ((s.move consumed published).returns status')
  | isDone {consumed published : List Nat} {status : Status} (stage : s.stage = .process) :
      Steps hasEpilogue s (.process consumed published status)
        { (s.move consumed published).returns .done with state := .stopped, stopOrDone := true }
  | fails {consumed published : List Nat} {status : Status} (stage : s.stage = .process)
      (shuts : isShuttingDown s.state = true) :
      Steps hasEpilogue s (.process consumed published status)
        { (s.move consumed published).returns .error with state := .stopped }

variable {childless : Bool}

theorem checkedState_stopped {state : LifeCycle.State}
    (h : (checkedState childless state).1 = .stopped) :
    isShuttingDown state = true ∧ (checkedState childless state).2 = false := by
  revert h
  cases childless <;> cases state <;> decide

theorem checkedState_of_ne {state : LifeCycle.State} (h : (checkedState childless state).1 ≠ .stopped) :
    state ≠ .stopped ∧
      (isShuttingDown (checkedState childless state).1 = true → (checkedState childless state).2 = true) := by
  revert h
  cases childless <;> cases state <;> decide

theorem steps_checkLifecycle (stage : s.stage = .outside) :
    Steps hasEpilogue s (.work childless) (s.checkLifecycle childless) := by
  unfold State.checkLifecycle
  dsimp only
  split
  · next h =>
    obtain ⟨shuts, hrequests⟩ := checkedState_stopped h
    rw [h, hrequests, Bool.or_false]
    exact .isStopped stage shuts
  · next h =>
    obtain ⟨before, shuts⟩ := checkedState_of_ne h
    exact .begins stage before h shuts

variable {limits : SampleLimits}

theorem steps_drainWait (stage : s.stage = .drainWait limits) :
    Steps hasEpilogue s .drainWait (s.drainWait limits) := by
  unfold State.drainWait
  split
  · next held => exact .holds stage held
  · next held =>
    rw [Bool.not_eq_true] at held
    split
    · next found =>
      rw [Bool.or_eq_true, Bool.not_eq_true'] at found
      exact .resets stage held found
    · exact .looks stage held

theorem steps_countStall (stage : s.stage = .drainMark limits) :
    Steps hasEpilogue s .drainMark (s.countStall limits) := by
  unfold State.countStall
  dsimp only
  split
  · next mark => exact .moved stage mark
  · next mark =>
    rw [not_not] at mark
    by_cases many : kStallLimit ≤ s.nDrainStalls + 1
    · simp only [many, decide_true, if_true]
      exact .stalls stage mark many
    · simp only [many, decide_false, Bool.false_eq_true, if_false]
      exact .counts stage mark (Nat.lt_of_not_le many)

theorem steps_endTest {drainStalled : Bool} (stage : s.stage = .endTest limits drainStalled) :
    Steps hasEpilogue s .endTest (s.endTest hasEpilogue limits drainStalled) := by
  unfold State.endTest
  split
  · exact .ends stage
  · next h =>
    obtain rfl : drainStalled = false := by
      rw [← Bool.not_eq_true]
      rintro rfl
      simp at h
    split
    · exact .returns stage
    · exact .processes stage

theorem epilogueOutSize_snd : ∃ nWaits mark,
    s.epilogueOutSize.2 = { s with nEpilogueWaits := nWaits, epilogueWaitMark := mark } := by
  unfold State.epilogueOutSize State.isEpilogueWaitStalled
  dsimp only
  split
  · exact ⟨_, _, rfl⟩
  · split
    · split
      · exact ⟨_, _, rfl⟩
      · exact ⟨_, _, rfl⟩
    · exact ⟨_, _, rfl⟩

/-- The trailing samples are there on every connected synchronous input. -/
theorem trailing_le {p : Input} (hp : p ∈ s.inputs) (sync : p.isSync = true) (notOpen : p.isOpen = false) :
    s.trailing ≤ p.available := by
  have hle : s.maxSyncAvailableIn ≤ p.available := by
    have := WorkSize.least_le (List.mem_map_of_mem (f := (·.nAvailable)) (List.mem_filter.mpr ⟨hp, sync⟩))
    rwa [Input.nAvailable, notOpen, if_neg Bool.false_ne_true] at this
  unfold State.trailing
  split
  · exact Nat.zero_le _
  · exact hle

theorem freeOut_le {p : Output} (hp : p ∈ s.syncOutputs) : s.freeOut ≤ p.room :=
  WorkSize.least_le (List.mem_map_of_mem hp)

/-- The rings have the spans that the epilogue asks for. -/
theorem preparedStreamsStatus_eq {outSize : Nat} (room : outSize ≤ s.freeOut) :
    s.preparedStreamsStatus s.trailing outSize = .ok := by
  have houtputs : (s.syncOutputs.any fun p => decide (p.room < outSize)) = false := by
    rw [List.any_eq_false]
    intro p hp hlt
    have := freeOut_le hp
    have := of_decide_eq_true hlt
    omega
  have hinputs : (s.inputs.any fun p => p.isConnected && p.isSync && decide (p.available < s.trailing)) = false := by
    rw [List.any_eq_false]
    intro p hp hlt
    simp only [Bool.and_eq_true, decide_eq_true_eq] at hlt
    obtain ⟨⟨connected, sync⟩, hlt⟩ := hlt
    have := trailing_le hp sync (by simp [Input.isOpen, connected])
    omega
  simp [State.preparedStreamsStatus, houtputs, hinputs]

theorem steps_runEpilogue {drainStalled : Bool} {consumed published : List Nat} (stage : s.stage = .epilogue drainStalled) :
    Steps hasEpilogue s (.epilogue consumed published) (s.runEpilogue drainStalled consumed published) := by
  obtain ⟨nWaits, mark, ht⟩ := epilogueOutSize_snd (s := s)
  unfold State.runEpilogue
  dsimp only
  rw [ht]
  split
  · exact .waits stage
  · next room =>
    rw [Nat.not_lt] at room
    rw [if_pos (.inr (preparedStreamsStatus_eq room))]
    exact .runs stage room

theorem steps_finaliseIO {consumed published : List Nat} {status : Status} (stage : s.stage = .process) :
    Steps hasEpilogue s (.process consumed published status) (s.finaliseIO consumed published status) := by
  unfold State.finaliseIO
  dsimp only
  generalize (if isShuttingDown s.state = true ∧ status ≠ .error then Status.done else status) = status'
  split
  · next h =>
    rw [h]
    exact .isDone stage
  · split
    · next h =>
      rw [h.1]
      exact .fails stage h.2
    · exact .goesOn stage

theorem steps_of_step (h : step hasEpilogue s a = some t) : Steps hasEpilogue s a t := by
  have hinputs := List.forall₂_same.mpr fun (p : Input) (_ : p ∈ s.inputs) => Input.Later.refl p
  have houtputs := List.forall₂_same.mpr fun (p : Output) (_ : p ∈ s.outputs) => Output.Later.refl p
  cases a with
  | arrive i n | tags i streamEnd | constrain i minSamples maxSamples =>
    cases h
    refine .around ?_
    exact ⟨forall₂_modify .refl fun p => ⟨rfl, le_rfl⟩, houtputs⟩
  | read j n =>
    cases h
    refine .around ?_
    refine ⟨hinputs, forall₂_modify .refl fun p => ⟨le_rfl, fun _ => ?_⟩⟩
    simp only [Output.room]
    omega
  | settings chunks =>
    cases h
    refine .around ?_
    exact ⟨hinputs, houtputs⟩
  | constrainOutput j minSamples maxSamples =>
    cases h
    refine .around ?_
    exact ⟨hinputs, forall₂_modify .refl fun p => ⟨le_rfl, fun _ => le_rfl⟩⟩
  | request newState =>
    obtain ⟨⟨valid, notReset, notError⟩, h⟩ := Option.ite_none_right_eq_some.mp h
    cases h
    exact .requests valid notReset notError
  | restart =>
    obtain ⟨⟨stage, stopped⟩, h⟩ := Option.ite_none_right_eq_some.mp h
    cases h
    exact .restarts stage stopped
  | work childless =>
    obtain ⟨stage, h⟩ := Option.ite_none_right_eq_some.mp h
    cases h
    exact steps_checkLifecycle stage
  | sizes d =>
    obtain ⟨stage, h⟩ := Option.ite_none_right_eq_some.mp h
    cases h
    refine .sizes (.inl stage) ⟨forall₂_map fun p => ?_, houtputs⟩
    split
    · exact ⟨rfl, Nat.le_add_right _ _⟩
    · exact .refl p
  | sizesAgain d =>
    simp only [step] at h
    split at h
    · next limits stage =>
      cases h
      exact .sizes (.inr ⟨limits, stage⟩) ⟨hinputs, houtputs⟩
    · cases h
  | drainWait =>
    simp only [step] at h
    split at h
    · next stage =>
      cases h
      exact steps_drainWait stage
    · cases h
  | drainMark =>
    simp only [step] at h
    split at h
    · next stage =>
      cases h
      exact steps_countStall stage
    · cases h
  | endTest =>
    simp only [step] at h
    split at h
    · next stage =>
      cases h
      exact steps_endTest stage
    · cases h
  | epilogue consumed published =>
    simp only [step] at h
    split at h
    · next stage =>
      cases h
      exact steps_runEpilogue stage
    · cases h
  | finish =>
    obtain ⟨stage, h⟩ := Option.ite_none_right_eq_some.mp h
    cases h
    exact .finishes stage
  | process consumed published status =>
    obtain ⟨stage, h⟩ := Option.ite_none_right_eq_some.mp h
    cases h
    exact steps_finaliseIO stage

theorem Steps.later (h : Steps hasEpilogue s a t) : Later s t := by
  cases h with
  | around later | sizes _ later => exact later
  | runs | goesOn | isDone | fails => exact later_move s _ _
  | _ => exact .of_eq rfl rfl

/-! ### The epilogue runs once -/

/-- The block is about to stop, or it has stopped and no call is under way. -/
def State.Ended (s : State) : Prop := s.stage = .finish ∨ s.stage = .outside ∧ s.state = .stopped

/-- The epilogue has run at most once, and only if the block ends; a block that shuts down before its end was asked to. -/
structure State.Once (hasEpilogue : Bool) (s : State) : Prop where
  le : s.handed.length ≤ 1
  nil : ¬s.Ended → s.handed = []
  ran : hasEpilogue = true → s.stage = .finish → s.handed.length = 1
  exactly : hasEpilogue = true → s.state = .stopped → s.stopOrDone = false → s.handed.length = 1
  shuts : isShuttingDown s.state = true → s.stopOrDone = true ∨ s.Ended

theorem State.Once.of_nil (nil : s.handed = []) (ran : hasEpilogue = true → s.stage ≠ .finish)
    (shuts : isShuttingDown s.state = true → s.stopOrDone = true) : s.Once hasEpilogue := by
  refine ⟨by simp [nil], fun _ => nil, fun he hf => (ran he hf).elim, fun _ hs hd => ?_, fun h => .inl (shuts h)⟩
  have := shuts (by rw [hs]; rfl)
  rw [hd] at this
  cases this

theorem State.not_ended_of_stage (outside : s.stage ≠ .outside) (finish : s.stage ≠ .finish) : ¬s.Ended := by
  rintro (h | ⟨h, -⟩)
  · exact finish h
  · exact outside h

/-- Within a call the epilogue has not run, and a block that shuts down was asked to. -/
theorem State.Once.inside (h : s.Once hasEpilogue) (outside : s.stage ≠ .outside) (finish : s.stage ≠ .finish) :
    s.handed = [] ∧ (isShuttingDown s.state = true → s.stopOrDone = true) :=
  have hended := s.not_ended_of_stage outside finish
  ⟨h.nil hended, fun hs => (h.shuts hs).resolve_right hended⟩

theorem State.Once.of_inside (h : s.Once hasEpilogue) (outside : s.stage ≠ .outside) (finish : s.stage ≠ .finish)
    (ran : hasEpilogue = true → t.stage ≠ .finish) (handed : t.handed = s.handed) (state : t.state = s.state)
    (stop : t.stopOrDone = s.stopOrDone) : t.Once hasEpilogue := by
  obtain ⟨nil, shuts⟩ := h.inside outside finish
  rw [← handed] at nil
  rw [← state, ← stop] at shuts
  exact .of_nil nil ran shuts

theorem stopped_of_isValidTransition {newState : LifeCycle.State} (valid : isValidTransition .stopped newState = true)
    (notReset : newState ≠ .initialised) (notError : newState ≠ .error) : newState = .stopped := by
  revert valid notReset notError
  cases newState <;> decide

theorem State.Ended.request {newState : LifeCycle.State} {stopOrDone : Bool} (h : s.Ended)
    (valid : isValidTransition s.state newState = true) (notReset : newState ≠ .initialised)
    (notError : newState ≠ .error) : State.Ended { s with state := newState, stopOrDone := stopOrDone } := by
  obtain h | ⟨h, hs⟩ := h
  · exact .inl h
  · rw [hs] at valid
    exact .inr ⟨h, stopped_of_isValidTransition valid notReset notError⟩

theorem Steps.once (h : Steps hasEpilogue s a t) (hs : s.Once hasEpilogue) : t.Once hasEpilogue := by
  cases h with
  | around => exact ⟨hs.le, hs.nil, hs.ran, hs.exactly, hs.shuts⟩
  | @requests newState valid notReset notError =>
    refine ⟨hs.le, fun h => hs.nil fun h' => h (h'.request valid notReset notError), hs.ran, fun _ hst hd => ?_, fun h => ?_⟩
    · obtain ⟨-, hd⟩ := Bool.or_eq_false_iff.mp hd
      rw [show newState = .stopped from hst] at hd
      cases hd
    · exact .inl (Bool.or_eq_true_iff.mpr (.inr h))
  | restarts => exact .of_nil rfl (fun _ => by simp [*]) (nofun)
  | @begins childless requests state stage before after shuts =>
    have hended : ¬s.Ended := by
      rintro (h | ⟨-, h⟩)
      · rw [stage] at h
        cases h
      · exact before h
    exact .of_nil (hs.nil hended) (by simp) fun h => Bool.or_eq_true_iff.mpr (.inr (shuts h))
  | isStopped stage shuts =>
    refine ⟨hs.le, fun h => (h (.inr ⟨rfl, rfl⟩)).elim, (nomatch ·, ·), fun he _ hd => ?_, fun _ => .inr (.inr ⟨rfl, rfl⟩)⟩
    obtain hd' | hf | ⟨-, hst⟩ := hs.shuts shuts
    · rw [show s.stopOrDone = false from hd] at hd'
      cases hd'
    · rw [stage] at hf
      cases hf
    · exact hs.exactly he hst hd
  | sizes stage =>
    exact hs.of_inside (by grind) (by grind) (by simp) rfl rfl rfl
  | holds stage | resets stage | looks stage | moved stage | counts stage | stalls stage | processes stage
  | waits stage =>
    exact hs.of_inside (by simp [stage]) (by simp [stage]) (by simp) rfl rfl rfl
  | ends stage =>
    exact hs.of_inside (by simp [stage]) (by simp [stage]) (fun he => by simp [he]) rfl rfl rfl
  | returns stage | goesOn stage =>
    exact hs.of_inside (by simp [stage]) (by simp [stage]) (by simp [State.returns]) rfl rfl rfl
  | runs stage =>
    obtain ⟨nil, shuts⟩ := hs.inside (by simp [stage]) (by simp [stage])
    refine ⟨?_, fun h => (h (.inl rfl)).elim, fun _ _ => ?_, fun _ _ _ => ?_, fun h => .inl (shuts h)⟩ <;>
      simp [nil]
  | finishes stage =>
    exact ⟨hs.le, fun h => (h (.inr ⟨rfl, rfl⟩)).elim, (nomatch ·, ·), fun he _ _ => hs.ran he stage,
      fun _ => .inr (.inr ⟨rfl, rfl⟩)⟩
  | isDone stage =>
    obtain ⟨nil, -⟩ := hs.inside (by simp [stage]) (by simp [stage])
    exact .of_nil nil (by simp [State.returns]) fun _ => rfl
  | fails stage shutting =>
    obtain ⟨nil, shuts⟩ := hs.inside (by simp [stage]) (by simp [stage])
    exact .of_nil nil (by simp [State.returns]) fun _ => shuts shutting

/-! ### A stall is found once -/

/-- The call has not looked for a stall yet, or none is under way. -/
def Stage.Before : Stage → Prop
  | .outside | .limits | .drainWait _ => True
  | _ => False

/-- The call has found no stall, or looks for one. -/
def Stage.Unstalled : Stage → Prop
  | .drainMark _ | .process | .endTest _ false | .epilogue false => True
  | _ => False

def Stage.Stalled : Stage → Prop
  | .endTest _ true | .epilogue true => True
  | _ => False

/-- A stall was notified at most once. It is held from the call that found it on while the epilogue waits for room. -/
structure State.StallOnce (hasEpilogue : Bool) (s : State) : Prop where
  short : s.stalls.length ≤ 1
  held : s.drainStallHeld = true →
    s.stalls ≠ [] ∧ hasEpilogue = true ∧ (s.waitedOnOutput = true ∨ s.Ended)
  stalled : s.stage.Stalled → s.stalls ≠ []
  none : s.stage.Unstalled → s.stalls = []
  epilogue : ∀ drainStalled, s.stage = .epilogue drainStalled → hasEpilogue = true
  before : s.stage.Before → s.stalls ≠ [] → s.drainStallHeld = true ∨ s.Ended

theorem State.StallOnce.none_of_before (h : s.StallOnce hasEpilogue) (before : s.stage.Before) (ended : ¬s.Ended)
    (held : s.drainStallHeld = false) : s.stalls = [] := by
  by_contra hne
  obtain hh | he := h.before before hne
  · rw [held] at hh
    cases hh
  · exact ended he

theorem State.StallOnce.not_held (h : s.StallOnce hasEpilogue) (none : s.stalls = []) : s.drainStallHeld ≠ true :=
  fun hh => (h.held hh).1 none

theorem State.StallOnce.of_none (none : s.stalls = []) (held : s.drainStallHeld ≠ true) (stalled : ¬s.stage.Stalled)
    (epilogue : ∀ drainStalled, s.stage = .epilogue drainStalled → hasEpilogue = true) : s.StallOnce hasEpilogue :=
  ⟨by simp [none], fun h => (held h).elim, fun h => (stalled h).elim, fun _ => none, epilogue,
    fun _ hne => (hne none).elim⟩

theorem Steps.stallOnce (h : Steps hasEpilogue s a t) (hs : s.StallOnce hasEpilogue) : t.StallOnce hasEpilogue := by
  cases h with
  | around => exact ⟨hs.short, hs.held, hs.stalled, hs.none, hs.epilogue, hs.before⟩
  | requests valid notReset notError =>
    refine ⟨hs.short, fun h => ?_, hs.stalled, hs.none, hs.epilogue, fun hb hne => ?_⟩
    · obtain ⟨hne, he, hw⟩ := hs.held h
      exact ⟨hne, he, hw.imp id fun h => h.request valid notReset notError⟩
    · exact (hs.before hb hne).imp id fun h => h.request valid notReset notError
  | restarts stage => exact .of_none rfl (by simp) (by simp [stage, Stage.Stalled]) (by simp [stage])
  | begins stage before =>
    have hended : ¬s.Ended := by
      rintro (h | ⟨-, h⟩)
      · rw [stage] at h
        cases h
      · exact before h
    refine ⟨hs.short, fun h => ?_, False.elim, False.elim, by simp, fun _ hne => ?_⟩
    · obtain ⟨hne, he, hw⟩ := hs.held h
      exact ⟨hne, he, .inl (hw.resolve_right hended)⟩
    · exact .inl ((hs.before (by simp [stage, Stage.Before]) hne).resolve_right hended)
  | isStopped stage | finishes =>
    refine ⟨hs.short, fun h => ?_, False.elim, False.elim, (nomatch ·, ·), fun _ _ => .inr (.inr ⟨rfl, rfl⟩)⟩
    obtain ⟨hne, he, -⟩ := hs.held h
    exact ⟨hne, he, .inr (.inr ⟨rfl, rfl⟩)⟩
  | sizes stage =>
    have hended : ¬s.Ended := s.not_ended_of_stage (by grind) (by grind)
    have hbefore : s.stage.Before := by
      obtain h | ⟨limits, h⟩ := stage <;> rw [h] <;> trivial
    refine ⟨hs.short, fun h => ?_, False.elim, False.elim, by simp, fun _ hne => ?_⟩
    · obtain ⟨hne, he, hw⟩ := hs.held h
      exact ⟨hne, he, .inl (hw.resolve_right hended)⟩
    · exact .inl ((hs.before hbefore hne).resolve_right hended)
  | holds stage held =>
    obtain ⟨hne, he, hw⟩ := hs.held held
    have hended : ¬s.Ended := s.not_ended_of_stage (by simp [stage]) (by simp [stage])
    exact ⟨hs.short, fun _ => ⟨hne, he, .inl (hw.resolve_right hended)⟩, fun _ => hne, False.elim, by simp,
      False.elim⟩
  | resets stage held | looks stage held =>
    have none := hs.none_of_before (by rw [stage]; trivial) (s.not_ended_of_stage (by simp [stage]) (by simp [stage])) held
    exact .of_none none (hs.not_held none) (fun h => h) (by simp)
  | moved stage | counts stage | processes stage =>
    have none := hs.none (by rw [stage]; trivial)
    exact .of_none none (hs.not_held none) (fun h => h) (by simp)
  | stalls stage =>
    have none := hs.none (by rw [stage]; trivial)
    exact ⟨by simp [none], fun h => (hs.not_held none h).elim, fun _ => List.cons_ne_nil _ _, False.elim, by simp,
      False.elim⟩
  | @ends limits drainStalled stage =>
    have hended : ¬s.Ended := s.not_ended_of_stage (by simp [stage]) (by simp [stage])
    cases he : hasEpilogue with
    | false =>
      refine ⟨hs.short, fun h => ?_, by simp [Stage.Stalled], by simp [Stage.Unstalled], by simp, by simp [Stage.Before]⟩
      obtain ⟨-, he', -⟩ := hs.held h
      rw [he] at he'
      cases he'
    | true =>
      refine ⟨hs.short, fun h => ?_, ?_, ?_, fun _ _ => rfl, by simp [Stage.Before]⟩
      · obtain ⟨hne, -, hw⟩ := hs.held h
        exact ⟨hne, rfl, .inl (hw.resolve_right hended)⟩
      · cases drainStalled with
        | true => exact fun _ => hs.stalled (by rw [stage]; trivial)
        | false => exact False.elim
      · cases drainStalled with
        | true => exact False.elim
        | false => exact fun _ => hs.none (by rw [stage]; trivial)
  | returns stage | goesOn stage | isDone stage | fails stage =>
    have none := hs.none (by rw [stage]; trivial)
    exact .of_none none (hs.not_held none) (fun h => h) (nomatch ·, ·)
  | @waits drainStalled _ _ _ _ stage =>
    have he := hs.epilogue drainStalled stage
    cases drainStalled with
    | true =>
      have hne := hs.stalled (by rw [stage]; trivial)
      exact ⟨hs.short, fun _ => ⟨hne, he, .inl rfl⟩, False.elim, False.elim, by simp, fun _ _ => .inl rfl⟩
    | false => exact .of_none (hs.none (by rw [stage]; trivial)) (by simp) (fun h => h) (by simp)
  | runs => exact ⟨hs.short, nofun, False.elim, False.elim, by simp, False.elim⟩

/-! ### Readings -/

def State.inputPositions (s : State) : List Nat := (s.inputs.filter (·.isConnected)).map (·.position)

/-- A call read this before the state. -/
def Reading.Before (r : Reading) (s : State) : Prop :=
  List.Forall₂ (· ≤ ·) r.inputs s.inputPositions ∧
    List.Forall₂ (fun (a : Nat × Nat) (p : Output) => a.1 ≤ p.position ∧ (a.1 = p.position → a.2 ≤ p.room))
      r.outputs s.outputs

theorem forall₂_inputPositions {l m : List Input} (h : List.Forall₂ Input.Later l m) :
    List.Forall₂ (· ≤ ·) ((l.filter (·.isConnected)).map (·.position)) ((m.filter (·.isConnected)).map (·.position)) := by
  induction h with
  | nil => exact .nil
  | @cons p q l m hpq _ ih =>
    obtain ⟨hconnected, hle⟩ := hpq
    cases hc : p.isConnected with
    | false => simpa [List.filter_cons, hc, hconnected] using ih
    | true => simpa [List.filter_cons, hc, hconnected] using And.intro hle ih

variable {r : Reading}

theorem Reading.Before.later (h : r.Before s) (later : Later s t) : r.Before t := by
  refine ⟨forall₂_trans h.1 (forall₂_inputPositions later.1) fun _ _ _ => le_trans, ?_⟩
  refine forall₂_trans h.2 later.2 fun a p q hap hpq => ⟨hap.1.trans hpq.1, fun heq => ?_⟩
  have hp : a.1 = p.position := by
    have := hap.1
    have := hpq.1
    omega
  exact (hap.2 hp).trans (hpq.2 (hp.symm.trans heq))

theorem before_reading (s : State) (draining waiting : Bool) :
    Reading.Before { s.reading draining with waiting := waiting } s := by
  refine ⟨List.forall₂_same.mpr fun _ _ => le_rfl, ?_⟩
  rw [show ({ s.reading draining with waiting := waiting } : Reading).outputs =
    s.outputs.map fun p => (p.position, p.room) from rfl, List.forall₂_map_left_iff]
  exact List.forall₂_same.mpr fun p _ => ⟨le_rfl, fun _ => le_rfl⟩

theorem drainWatermark_eq (s : State) : s.drainWatermark = s.quietReading.mark := by
  simp [State.drainWatermark, State.quietReading, State.reading, Reading.mark, List.map_map, Function.comp_def]

/-- The pairs of positions and rooms have not changed where neither sum has. -/
theorem eq_of_forall₂_pairs {l : List (Nat × Nat)} {m : List Output}
    (h : List.Forall₂ (fun (a : Nat × Nat) (p : Output) => a.1 ≤ p.position ∧ (a.1 = p.position → a.2 ≤ p.room)) l m)
    (positions : l.map Prod.fst = m.map (·.position)) (rooms : (m.map (·.room)).sum ≤ (l.map Prod.snd).sum) :
    l = m.map fun p => (p.position, p.room) := by
  have hrooms : l.map Prod.snd = m.map (·.room) := by
    refine eq_of_forall₂_of_sum_le ?_ rooms
    clear rooms
    induction h with
    | nil => exact .nil
    | cons hap _ ih =>
      simp only [List.map_cons, List.cons.injEq] at positions
      exact .cons (hap.2 positions.1) (ih positions.2)
  clear rooms h
  induction l generalizing m with
  | nil =>
    cases m with
    | nil => rfl
    | cons p m => cases positions
  | cons a l ih =>
    cases m with
    | nil => cases positions
    | cons p m =>
      simp only [List.map_cons, List.cons.injEq] at positions hrooms ⊢
      exact ⟨Prod.ext positions.1 hrooms.1, ih positions.2 hrooms.2⟩

/-- A call that read the same watermark read the same positions and rooms: the sums hide no change. -/
theorem Reading.Before.eq_of_mark (h : r.Before s) (mark : r.mark = s.drainWatermark) :
    r.inputs = s.inputPositions ∧ r.outputs = s.outputs.map fun p => (p.position, p.room) := by
  obtain ⟨hinputs, houtputs⟩ := h
  have hpositions : List.Forall₂ (· ≤ ·) (r.outputs.map Prod.fst) (s.outputs.map (·.position)) := by
    rw [List.forall₂_map_left_iff, List.forall₂_map_right_iff]
    exact houtputs.imp fun _ _ h => h.1
  have hmoved : (r.inputs.sum + (r.outputs.map Prod.fst).sum) = s.inputPositions.sum + (s.outputs.map (·.position)).sum :=
    congrArg Watermark.moved mark
  have hrooms : (r.outputs.map Prod.snd).sum = (s.outputs.map (·.room)).sum := congrArg Watermark.room mark
  have hle := sum_le_of_forall₂ hinputs
  have hle' := sum_le_of_forall₂ hpositions
  exact ⟨eq_of_forall₂_of_sum_le hinputs (by omega),
    eq_of_forall₂_pairs houtputs (eq_of_forall₂_of_sum_le hpositions (by omega)) hrooms.ge⟩

/-! ### The count of the calls in which nothing moved -/

variable {readings : List Reading}

theorem Still.of_le {m n : Nat} (h : Still (readings.take n)) (hmn : m ≤ n) :
    Still (readings.take m) := by
  have hsub : ∀ r ∈ readings.take m, r ∈ readings.take n := by
    intro r hr
    rw [← Nat.min_eq_left hmn, ← List.take_take] at hr
    exact List.mem_of_mem_take hr
  exact ⟨fun r hr => h.1 r (hsub r hr), fun r hr r' hr' => h.2 r (hsub r hr) r' (hsub r' hr')⟩

theorem Still.tail {n : Nat} (h : Still ((r :: readings).take (n + 1))) :
    Still (readings.take n) := by
  rw [List.take_succ_cons] at h
  exact ⟨fun r hr => h.1 r (.tail _ hr), fun r hr r' hr' =>
    h.2 r (.tail _ hr) r' (.tail _ hr')⟩

/-- A call that does not drain or that waits begins no still calls. -/
theorem Still.eq_zero {n : Nat} (h : Still ((r :: readings).take n))
    (hr : ¬r.Quiet) : n = 0 := by
  cases n with
  | zero => rfl
  | succ n => exact (hr (h.1 r (by simp))).elim

/-- `nDrainStalls` counts still calls, and counts all of them but the first. -/
structure State.Counted (s : State) : Prop where
  before : ∀ r ∈ s.readings, r.Before s
  few : s.nDrainStalls ≤ kStallLimit ∧ (s.stalls = [] → s.nDrainStalls < kStallLimit)
  long : s.stalls = [] → s.nDrainStalls ≤ s.readings.length
  marks : s.stalls = [] → ∀ r ∈ s.readings.take s.nDrainStalls, r.Quiet ∧ r.mark = s.drainMark
  head : s.stalls = [] → ∀ r, s.readings.head? = some r → r.Quiet → r.mark = s.drainMark
  longest : ∀ n ≤ s.readings.length, Still (s.readings.take n) → n ≤ s.nDrainStalls + 1
  stalled : ∀ readings ∈ s.stalls, kStallLimit ≤ readings.length ∧ Still (readings.take kStallLimit)

theorem State.Counted.of_eq (h : s.Counted) (later : Later s t) (readings : t.readings = s.readings)
    (stalls : t.stalls = s.stalls) (n : t.nDrainStalls = s.nDrainStalls) (mark : t.drainMark = s.drainMark) : t.Counted := by
  refine ⟨fun r hr => ?_, ?_, ?_, ?_, ?_, ?_, ?_⟩
  · rw [readings] at hr
    exact (h.before r hr).later later
  · rw [n, stalls]
    exact h.few
  · rw [n, stalls, readings]
    exact h.long
  · rw [n, stalls, readings, mark]
    exact h.marks
  · rw [stalls, readings, mark]
    exact h.head
  · rw [n, readings]
    exact h.longest
  · rw [stalls]
    exact h.stalled

theorem quiet_quietReading (s : State) : s.quietReading.Quiet := ⟨rfl, rfl⟩

/-- The still calls that the count has counted, and the call that reads the same watermark. -/
theorem State.Counted.still (h : s.Counted) (none : s.stalls = []) (mark : s.drainWatermark = s.drainMark) :
    Still ((s.quietReading :: s.readings).take (s.nDrainStalls + 1)) := by
  have hread : ∀ r ∈ (s.quietReading :: s.readings).take (s.nDrainStalls + 1),
      r.Quiet ∧ r.inputs = s.inputPositions ∧ r.outputs = s.outputs.map fun p => (p.position, p.room) := by
    intro r hr
    rw [List.take_succ_cons, List.mem_cons] at hr
    obtain rfl | hr := hr
    · exact ⟨quiet_quietReading s, rfl, rfl⟩
    · obtain ⟨quiet, hmark⟩ := h.marks none r hr
      exact ⟨quiet, (h.before r (List.mem_of_mem_take hr)).eq_of_mark (hmark.trans mark.symm)⟩
  refine ⟨fun r hr => (hread r hr).1, fun r hr r' hr' => ?_⟩
  obtain ⟨-, hi, ho⟩ := hread r hr
  obtain ⟨-, hi', ho'⟩ := hread r' hr'
  exact ⟨hi.trans hi'.symm, ho.trans ho'.symm⟩

theorem before_cons (h : s.Counted) (hr : r.Before s) (later : Later s t) :
    ∀ r' ∈ r :: s.readings, r'.Before t := by
  intro r' hr'
  obtain rfl | hr' := List.mem_cons.mp hr'
  · exact hr.later later
  · exact (h.before r' hr').later later

theorem kStallLimit_pos : 0 < kStallLimit := by decide

theorem Steps.counted (h : Steps hasEpilogue s a t) (hone : s.StallOnce hasEpilogue) (hs : s.Counted) : t.Counted := by
  have later := h.later
  cases h with
  | restarts =>
    exact ⟨by simp, ⟨Nat.zero_le _, fun _ => kStallLimit_pos⟩, by simp, by simp, by simp, by simp, by simp⟩
  | @holds limits stage held =>
    obtain ⟨hne, -, hw⟩ := hone.held held
    have waited : s.waitedOnOutput = true :=
      hw.resolve_right (s.not_ended_of_stage (by simp [stage]) (by simp [stage]))
    have busy : ¬(s.reading limits.draining).Quiet := by
      rintro ⟨-, hq⟩
      rw [State.reading, State.isWaitingOnOutput, waited] at hq
      cases hq
    exact ⟨before_cons hs (before_reading s _ _) later, hs.few, fun h => (hne h).elim, fun h => (hne h).elim,
      fun h => (hne h).elim, fun n _ hstill => by rw [hstill.eq_zero busy]; exact Nat.zero_le _, hs.stalled⟩
  | @resets limits stage held found =>
    have busy : ¬(s.reading limits.draining).Quiet := by
      rintro ⟨hd, hq⟩
      obtain h | h := found
      · rw [show limits.draining = true from hd] at h
        cases h
      · rw [show s.isWaitingOnOutput = false from hq] at h
        cases h
    refine ⟨before_cons hs (before_reading s _ _) later, ⟨Nat.zero_le _, fun _ => kStallLimit_pos⟩, fun _ => Nat.zero_le _,
      by simp, fun _ r hr hq => ?_, fun n _ hstill => by rw [hstill.eq_zero busy]; exact Nat.zero_le _, hs.stalled⟩
    rw [show r = _ from (Option.some.inj hr).symm] at hq
    exact (busy hq).elim
  | @moved limits stage mark =>
    have none := hone.none (by rw [stage]; trivial)
    refine ⟨before_cons hs (before_reading s true false) later, ⟨Nat.zero_le _, fun _ => kStallLimit_pos⟩,
      fun _ => Nat.zero_le _, by simp, fun _ r hr _ => ?_, fun n hn hstill => ?_, hs.stalled⟩
    · rw [show r = _ from (Option.some.inj hr).symm]
      exact (drainWatermark_eq s).symm
    · -- a second still call would have read the same watermark
      by_contra hlt
      have htwo : Still ((s.quietReading :: s.readings).take 2) := hstill.of_le (by omega)
      cases hreadings : s.readings with
      | nil =>
        simp only [hreadings, List.length_singleton] at hn
        omega
      | cons r readings =>
        rw [hreadings] at htwo
        have hmark := hs.head none r (by rw [hreadings]; rfl) (htwo.1 r (by simp))
        obtain ⟨hi, ho⟩ := htwo.2 s.quietReading (by simp) r (by simp)
        refine mark ?_
        rw [← hmark, drainWatermark_eq, Reading.mark, hi, ho, Reading.mark]
  | @counts limits stage mark few =>
    have none := hone.none (by rw [stage]; trivial)
    refine ⟨before_cons hs (before_reading s true false) later, ⟨few.le, fun _ => few⟩,
      fun _ => Nat.succ_le_succ (hs.long none), fun _ r hr => ?_, fun _ r hr _ => ?_, fun n hn hstill => ?_, hs.stalled⟩
    · rw [List.take_succ_cons, List.mem_cons] at hr
      obtain rfl | hr := hr
      · exact ⟨quiet_quietReading s, (drainWatermark_eq s).symm.trans mark⟩
      · exact hs.marks none r hr
    · rw [show r = _ from (Option.some.inj hr).symm]
      exact (drainWatermark_eq s).symm.trans mark
    · cases n with
      | zero => exact Nat.zero_le _
      | succ n => exact Nat.succ_le_succ (hs.longest n (Nat.le_of_succ_le_succ hn) hstill.tail)
  | @stalls limits stage mark many =>
    have none := hone.none (by rw [stage]; trivial)
    have hlt := hs.few.2 none
    have heq : s.nDrainStalls + 1 = kStallLimit := by omega
    refine ⟨before_cons hs (before_reading s true false) later, ⟨heq.le, by simp⟩, by simp, by simp, by simp,
      fun n hn hstill => ?_, fun readings hr => ?_⟩
    · cases n with
      | zero => exact Nat.zero_le _
      | succ n => exact Nat.succ_le_succ (hs.longest n (Nat.le_of_succ_le_succ hn) hstill.tail)
    · obtain rfl | hr := List.mem_cons.mp hr
      · rw [← heq]
        exact ⟨Nat.succ_le_succ (hs.long none), hs.still none mark⟩
      · exact hs.stalled readings hr
  | _ => exact hs.of_eq later rfl rfl rfl rfl

/-! ### What the epilogue is handed -/

def State.Whole (s : State) : Prop := ∀ h ∈ s.handed, ∀ n, h.shortestEnd = some n → n ≤ h.trailing

/-- The synchronous inputs hold the samples in front of an end: the epilogue is handed them. -/
theorem le_trailing {n : Nat} (hend : s.shortestEnd = some n)
    (holds : ∀ p ∈ s.inputs, p.isSync = true → p.isOpen = false → n ≤ p.available) : n ≤ s.trailing := by
  obtain ⟨p, hp, hn⟩ := List.mem_filterMap.mp (List.min?_mem hend)
  obtain ⟨hp, sync⟩ := List.mem_filter.mp hp
  have notOpen : p.isOpen = false := by
    cases hc : p.isConnected with
    | true => simp [Input.isOpen, hc]
    | false => simp [Input.nBeforeEoS, hc] at hn
  have hbound : ∀ q ∈ s.inputs, q.available < unlimited := fun q _ => q.available_le.trans_lt q.bufferSize_lt
  have hle : n ≤ s.maxSyncAvailableIn := by
    refine WorkSize.le_least_iff.mpr ⟨(holds p hp sync notOpen).trans (hbound p hp).le, fun x hx => ?_⟩
    obtain ⟨q, hq, rfl⟩ := List.mem_map.mp hx
    obtain ⟨hq, hqs⟩ := List.mem_filter.mp hq
    rw [Input.nAvailable]
    split
    · exact (holds p hp sync notOpen).trans (hbound p hp).le
    · next h => exact holds q hq hqs (Bool.eq_false_iff.mpr h)
  have hlt : s.maxSyncAvailableIn < unlimited := by
    refine lt_of_le_of_lt (WorkSize.least_le (List.mem_map_of_mem (List.mem_filter.mpr ⟨hp, sync⟩))) ?_
    rw [Input.nAvailable, notOpen, if_neg Bool.false_ne_true]
    exact hbound p hp
  rw [State.trailing, if_neg hlt.ne]
  exact hle

theorem Steps.whole (h : Steps hasEpilogue s a t) (hok : a.HoldsEnd s) (hs : s.Whole) : t.Whole := by
  cases h with
  | restarts => exact nofun
  | runs stage room =>
    intro h hh n hn
    obtain rfl | hh := List.mem_cons.mp hh
    · exact le_trailing hn (hok room n hn)
    · exact hs h hh n hn
  | _ => exact hs

/-! ### Runs -/

structure State.Kept (hasEpilogue : Bool) (s : State) : Prop where
  once : s.Once hasEpilogue
  stallOnce : s.StallOnce hasEpilogue
  counted : s.Counted
  whole : s.Whole

theorem State.Kept.start (h : (system hasEpilogue).start s) : s.Kept hasEpilogue := by
  obtain ⟨state, n, mark, held, waited, stage, readings, stalls, handed, stop⟩ := h
  refine ⟨.of_nil handed (by simp [stage]) ?_, .of_none stalls (by simp [held]) (by simp [stage, Stage.Stalled])
    (by simp [stage]), ?_, by simp [State.Whole, handed]⟩
  · rw [state]
    exact nofun
  · exact ⟨by simp [readings], ⟨by simp [n], fun _ => by rw [n]; decide⟩, by simp [n], by simp [n], by simp [readings],
      by simp [readings], by simp [stalls]⟩

theorem State.Kept.step (h : s.Kept hasEpilogue) (hok : a.HoldsEnd s) (hs : (system hasEpilogue).step s a = some t) :
    t.Kept hasEpilogue := by
  have step := steps_of_step hs
  exact ⟨step.once h.once, step.stallOnce h.stallOnce, step.counted h.stallOnce h.counted, step.whole hok h.whole⟩

/-- In every run in which the synchronous inputs hold the samples in front of the nearest end when the epilogue runs. -/
theorem ends_once_of_holdsEnd (h : (system hasEpilogue).Reach Act.HoldsEnd s) : s.EndsOnce hasEpilogue := by
  have kept : s.Kept hasEpilogue := h.invariant (fun _ => .start) fun _ _ _ hi hok hs => hi.step hok hs
  refine ⟨kept.once.le, kept.once.exactly, kept.whole, kept.stallOnce.short, kept.counted.stalled, ?_, ?_, ?_⟩
  · intro limits hstage
    refine kept.stallOnce.stalled ?_
    obtain h | h := hstage <;> rw [h] <;> trivial
  · intro n hn hstill
    have hle := kept.counted.longest n hn hstill
    have hfew := kept.counted.few
    exact ⟨by omega, fun heq hnone => by have := hfew.2 hnone; omega⟩
  · intro hne hstage
    obtain held | hf | ⟨-, hs⟩ := kept.stallOnce.before (by rw [hstage]; trivial) hne
    · obtain ⟨-, he, hw | hf | ⟨-, hs⟩⟩ := kept.stallOnce.held held
      · exact .inr ⟨he, held, hw⟩
      · rw [hstage] at hf
        cases hf
      · exact .inl hs
    · rw [hstage] at hf
      cases hf
    · exact .inl hs

/-! ### Runs that are given -/

instance (s : State) : ∀ a : Act, Decidable (a.HoldsEnd s)
  | .epilogue _ _ =>
    inferInstanceAs (Decidable (s.epilogueOutSize.1 ≤ s.freeOut → ∀ n ∈ s.shortestEnd, ∀ p ∈ s.inputs,
      p.isSync = true → p.isOpen = false → n ≤ p.available))
  | .arrive _ _ | .tags _ _ | .read _ _ | .settings _ | .constrain _ _ _ | .constrainOutput _ _ _ | .request _ | .restart
  | .work _ | .sizes _ | .sizesAgain _ | .drainWait | .drainMark | .endTest | .finish | .process _ _ _ => .isTrue trivial

/-- A synchronous input that is connected to an empty ring. -/
def emptyInput : Input := ⟨true, false, true, 1, unlimited, 64, 0, 0, none, by decide, by decide⟩

/-- A block that has started, and takes ten samples of each input at a time. -/
def startedWith (inputs : List Input) : State where
  state := .running
  chunks := ⟨true, false, 10, 1, 0⟩
  strideCounter := 0
  inputs := inputs
  outputs := []
  nDrainStalls := 0
  drainMark := ⟨0, 0⟩
  drainStallHeld := false
  nEpilogueWaits := 0
  epilogueWaitMark := ⟨0, 0⟩
  waitedOnOutput := false
  stage := .outside
  readings := []
  stalls := []
  handed := []
  stopOrDone := false

theorem startedWith_start (inputs : List Input) : (system hasEpilogue).start (startedWith inputs) := by
  simp [system, startedWith]

/-- A call with nothing but end-of-stream tags in view. -/
def unlimitedDemand : Demand := ⟨unlimited, true, unlimited, unlimited⟩

/-- The call that ends the stream. -/
def endingCall : List Act :=
  [.work false, .sizes unlimitedDemand, .drainWait, .drainMark, .endTest, .epilogue [5, 5] [], .finish]

theorem ends_once_of_holdsEnd_tail :
    (((system true).run (startedWith [emptyInput]) ([.arrive 0 5, .tags 0 (some 5)] ++ endingCall)).get
      (by decide +kernel)).EndsOnce true :=
  ends_once_of_holdsEnd ((system true).reach_get _ (startedWith_start _) (by decide +kernel) (by decide +kernel))

/-- The first input ends behind the five samples that it holds. The second one holds two samples, and more are to come. -/
def lateInput : List Act := [.arrive 0 5, .tags 0 (some 5), .arrive 1 2, .work false, .sizes unlimitedDemand, .drainWait,
  .endTest, .epilogue [2, 2] [], .finish]

theorem lateInput_runs : ((system true).run (startedWith [emptyInput, emptyInput]) lateInput).isSome := by
  decide +kernel

theorem late_input_cuts_tail : ¬∀ s, (system true).Reachable s → s.EndsOnce true := by
  intro h
  have handed : (⟨2, some 5⟩ : Handed) ∈ (((system true).run (startedWith [emptyInput, emptyInput]) lateInput).get
      lateInput_runs).handed := by
    decide +kernel
  have hle : 5 ≤ 2 := (h _ ((system true).reachable_get _ (startedWith_start _) lateInput_runs)).whole _ handed 5 rfl
  omega

end GnuRadio.Epilogue
