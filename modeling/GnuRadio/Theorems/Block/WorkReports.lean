import GnuRadio.Block.WorkReports

/-! Which work calls report what they have moved. -/

namespace GnuRadio.WorkReports

variable {call : Call} {span : Span} {spans : List Span} {processing : Processing} {n : Nat}

/-- A connected port has moved. -/
def Report.Moves (report : Report) : Prop := (∃ n ∈ report.consumed, 0 < n) ∨ ∃ n ∈ report.published, 0 < n

/-- A call in which a port moves reports work or `DONE`, and advances the progress sequence. Work is reported of a call
    in which a port moves. -/
structure Report.Truthful (report : Report) : Prop where
  moved : report.Moves → (0 < report.performedWork ∨ report.status = .done) ∧ report.advances = true
  performed : 0 < report.performedWork → report.Moves

/-! ### What a call finds -/

/-- The stride skips samples of a connected input. -/
def Skips (call : Call) : Prop := 0 < call.inputSkipBefore ∧ ∃ span ∈ call.inputs, span.isGating = true

/-- The function has asked for samples of a connected port. -/
def Requests (spans : List Span) : Prop := ∃ span ∈ spans, span.isConnected = true ∧ 0 < span.requested.getD 0

/-- A connected synchronous port is left to the block. -/
def Leaves (spans : List Span) : Prop := ∃ span ∈ spans, span.isGating = true ∧ span.requested = none

/-- There are samples, and the function has refused them on no connected synchronous port. -/
def Takes (nSamples : Nat) (spans : List Span) : Prop :=
  0 < nSamples ∧ ∀ span ∈ spans, span.isGating = true → span.requested ≠ some 0

/-- A port moves where the block is left with samples on the inputs and the outputs. -/
def MovesPort (call : Call) (leftIn leftOut : Prop) : Prop :=
  Skips call ∨ Requests call.inputs ∨ Requests call.outputs ∨ leftIn ∧ Leaves call.inputs ∨ leftOut ∧ Leaves call.outputs

/-- The inputs of the block, or the outputs of a source, move: the synchronous ones all, or where none of them is
    connected, an asynchronous one. -/
def SideMoves (call : Call) : Prop :=
  let side := if call.isSource then call.outputs else call.inputs
  let resampled := if call.isSource then call.resampledOut else call.resampledIn
  (∃ span ∈ side, span.isGating = true) ∧ Takes resampled side ∨ (∀ span ∈ side, span.isGating = false) ∧ Requests side

/-- What the processing of a call has to be for its report to be true. -/
def ProcessingReports (call : Call) : Processing → Prop
  | .processBulk .done => True
  | .processBulk .ok =>
    call.isShuttingDown = true ∨ SideMoves call ∨
      ¬ MovesPort call (Takes call.resampledIn call.inputs) (Takes call.resampledOut call.outputs)
  | .processBulk .error => ¬ MovesPort call False False
  | .processBulk _ => call.isShuttingDown = true ∨ ¬ MovesPort call False False
  | .processOne nSamples status =>
    if call.resampledIn ≠ call.resampledOut ∨ status = .error then ¬ MovesPort call False False
    else call.isShuttingDown = true ∨ status = .done ∨
      if status = .ok ∧ 0 < nSamples then MovesPort call True True else ¬ MovesPort call False False

/-- What a call has to be for its report to be true. -/
def ReportsMoves (call : Call) : Prop :=
  match call.course with
  | .stopped | .ends _ => True
  | .returns _ => ¬ Skips call
  | .processes processing => ProcessingReports call processing

/-! ### Counts -/

theorem leastRequested_pos : 0 < leastRequested n spans ↔ Takes n spans := by
  rw [leastRequested, Takes]
  induction spans generalizing n with
  | nil => simp
  | cons span spans ih =>
    rw [List.foldl_cons, ih]
    simp only [List.mem_cons, forall_eq_or_imp]
    cases hgating : span.isGating with
    | false => simp
    | true =>
      cases hrequested : span.requested with
      | none => simp
      | some k => cases k <;> simp

theorem sum_pos {l : List Nat} : 0 < l.sum ↔ ∃ n ∈ l, 0 < n := by
  induction l with
  | nil => simp
  | cons n l ih =>
    simp only [List.sum_cons, List.mem_cons, exists_eq_or_imp, ← ih]
    omega

theorem accountedBulk_pos (n : Nat) : 0 < accountedBulk n spans ↔
    (∃ span ∈ spans, span.isGating = true) ∧ 0 < n ∨ (∀ span ∈ spans, span.isGating = false) ∧ Requests spans := by
  rw [accountedBulk]
  split
  next h =>
    obtain ⟨span, hmem, hgating⟩ := List.any_eq_true.mp h
    refine ⟨fun hn => .inl ⟨⟨span, hmem, hgating⟩, hn⟩, ?_⟩
    rintro (⟨-, hn⟩ | ⟨hnone, -⟩)
    · exact hn
    · rw [hnone span hmem] at hgating
      cases hgating
  next h =>
    have hnone : ∀ span ∈ spans, span.isGating = false := by simpa using h
    rw [sum_pos]
    constructor
    · rintro ⟨n, hmem, hn⟩
      obtain ⟨span, hspan, rfl⟩ := List.mem_map.mp hmem
      obtain ⟨hspan, hconnected⟩ := List.mem_filter.mp hspan
      exact .inr ⟨hnone, span, hspan, hconnected, hn⟩
    · rintro (⟨⟨span, hmem, hgating⟩, -⟩ | ⟨-, span, hmem, hconnected, hn⟩)
      · rw [hnone span hmem] at hgating
        cases hgating
      · exact ⟨_, List.mem_map.mpr ⟨span, List.mem_filter.mpr ⟨hmem, hconnected⟩, rfl⟩, hn⟩

/-! ### What moves -/

theorem exists_released_pos : (∃ span ∈ spans, span.isConnected = true ∧ 0 < span.nReleased n) ↔
    Requests spans ∨ 0 < n ∧ Leaves spans := by
  constructor
  · rintro ⟨span, hmem, hconnected, hn⟩
    rw [Span.nReleased] at hn
    cases hrequested : span.requested with
    | some k =>
      rw [hrequested] at hn
      exact .inl ⟨span, hmem, hconnected, by rw [hrequested]; exact hn⟩
    | none =>
      rw [hrequested] at hn
      cases hsync : span.isSync with
      | false => simp [hsync] at hn
      | true =>
        rw [hsync] at hn
        exact .inr ⟨hn, span, hmem, by rw [Span.isGating, hconnected, hsync]; rfl, hrequested⟩
  · rintro (⟨span, hmem, hconnected, hn⟩ | ⟨hn, span, hmem, hgating, hrequested⟩)
    · refine ⟨span, hmem, hconnected, ?_⟩
      rw [Span.nReleased]
      cases hrequested : span.requested with
      | some k =>
        rw [hrequested] at hn
        exact hn
      | none =>
        rw [hrequested] at hn
        cases hn
    · obtain ⟨hconnected, hsync⟩ := Bool.and_eq_true_iff.mp hgating
      exact ⟨span, hmem, hconnected, by rw [Span.nReleased, hrequested, hsync]; exact hn⟩

theorem exists_skipped_pos : (∃ span ∈ call.inputs, span.isConnected = true ∧ 0 < nSkipped call span) ↔ Skips call := by
  constructor
  · rintro ⟨span, hmem, hconnected, hn⟩
    rw [nSkipped] at hn
    split at hn
    next hsync => exact ⟨hn, span, hmem, by rw [Span.isGating, hconnected, hsync]; rfl⟩
    next => cases hn
  · rintro ⟨hn, span, hmem, hgating⟩
    obtain ⟨hconnected, hsync⟩ := Bool.and_eq_true_iff.mp hgating
    exact ⟨span, hmem, hconnected, by rw [nSkipped, if_pos hsync]; exact hn⟩

theorem exists_consumed_pos (release : Span → Nat) : (∃ n ∈ consumed call release, 0 < n) ↔
    Skips call ∨ ∃ span ∈ call.inputs, span.isConnected = true ∧ 0 < release span := by
  rw [← exists_skipped_pos]
  constructor
  · rintro ⟨n, hmem, hn⟩
    obtain ⟨span, hspan, rfl⟩ := List.mem_map.mp hmem
    obtain ⟨hspan, hconnected⟩ := List.mem_filter.mp hspan
    obtain hn | hn : 0 < nSkipped call span ∨ 0 < release span := by omega
    · exact .inl ⟨span, hspan, hconnected, hn⟩
    · exact .inr ⟨span, hspan, hconnected, hn⟩
  · rintro (⟨span, hmem, hconnected, hn⟩ | ⟨span, hmem, hconnected, hn⟩) <;>
      exact ⟨_, List.mem_map.mpr ⟨span, List.mem_filter.mpr ⟨hmem, hconnected⟩, rfl⟩, by omega⟩

theorem exists_published_pos (release : Span → Nat) : (∃ n ∈ published call release, 0 < n) ↔
    ∃ span ∈ call.outputs, span.isConnected = true ∧ 0 < release span := by
  constructor
  · rintro ⟨n, hmem, hn⟩
    obtain ⟨span, hspan, rfl⟩ := List.mem_map.mp hmem
    obtain ⟨hspan, hconnected⟩ := List.mem_filter.mp hspan
    exact ⟨span, hspan, hconnected, hn⟩
  · rintro ⟨span, hmem, hconnected, hn⟩
    exact ⟨_, List.mem_map.mpr ⟨span, List.mem_filter.mpr ⟨hmem, hconnected⟩, rfl⟩, hn⟩

variable {report : Report}

theorem moves_iff {nIn nOut : Nat} (hconsumed : report.consumed = consumed call (·.nReleased nIn))
    (hpublished : report.published = published call (·.nReleased nOut)) :
    report.Moves ↔ MovesPort call (0 < nIn) (0 < nOut) := by
  rw [Report.Moves, hconsumed, hpublished, exists_consumed_pos, exists_published_pos, exists_released_pos,
    exists_released_pos, MovesPort]
  constructor
  · rintro ((h | h | h) | h | h)
    · exact .inl h
    · exact .inr (.inl h)
    · exact .inr (.inr (.inr (.inl h)))
    · exact .inr (.inr (.inl h))
    · exact .inr (.inr (.inr (.inr h)))
  · rintro (h | h | h | h | h)
    · exact .inl (.inl h)
    · exact .inl (.inr (.inl h))
    · exact .inr (.inl h)
    · exact .inl (.inr (.inr h))
    · exact .inr (.inr h)

/-! ### What is reported -/

theorem Report.truthful_of_done (hstatus : report.status = .done) (hadvances : report.advances = true)
    (hperformed : report.performedWork = 0) : report.Truthful :=
  ⟨fun _ => ⟨.inr hstatus, hadvances⟩, fun h => absurd h (by omega)⟩

theorem Report.truthful_iff_performed (hstatus : report.status ≠ .done)
    (hadvances : report.advances = decide (0 < report.performedWork)) :
    report.Truthful ↔ (0 < report.performedWork ↔ report.Moves) := by
  constructor
  · rintro ⟨hmoved, hperformed⟩
    refine ⟨hperformed, fun h => ?_⟩
    obtain ⟨hn | hdone, -⟩ := hmoved h
    · exact hn
    · exact absurd hdone hstatus
  · rintro ⟨hperformed, hmoved⟩
    exact ⟨fun h => ⟨.inl (hmoved h), by rw [hadvances]; simpa using hmoved h⟩, hperformed⟩

/-- A call that reports nothing. -/
theorem Report.truthful_idle (hstatus : report.status ≠ .done) (hadvances : report.advances = false)
    (hperformed : report.performedWork = 0) : report.Truthful ↔ ¬ report.Moves := by
  rw [Report.truthful_iff_performed hstatus (by rw [hadvances, hperformed]; rfl), hperformed]
  simp

theorem not_movesPort {leftIn leftOut : Prop} (hin : ¬ leftIn) (hout : ¬ leftOut) :
    MovesPort call leftIn leftOut ↔ MovesPort call False False := by
  simp only [MovesPort, hin, hout]

theorem nConsumed_pos : 0 < nConsumed call n ↔ 0 < n := by
  rw [nConsumed]
  split
  next h => simp [h]
  next h =>
    refine iff_of_true ?_ (Nat.pos_of_ne_zero h)
    split
    next hstride => exact hstride
    next => exact Nat.pos_of_ne_zero h

theorem moves_process {counts : Nat × Nat × Status} {nIn nOut : Nat} (hcounts : dispatchProcessing call processing = counts)
    (hsanitised : sanitiseProcessStatus counts.2.2 counts.1 counts.2.1 = (nIn, nOut))
    (hrunning : call.isShuttingDown = false ∨ nIn = 0) :
    (process call processing).Moves ↔ MovesPort call (0 < nIn) (0 < nOut) := by
  have hin : (if call.isShuttingDown = true then 0 else nIn) = nIn := by
    obtain h | h := hrunning
    · rw [h]
      rfl
    · rw [h, ite_self]
  rw [← @nConsumed_pos call]
  refine moves_iff ?_ ?_
  · rw [process, hcounts, hsanitised, hin]
  · rw [process, hcounts, hsanitised]

/-- A call whose stop has reached the block, or whose function is done. -/
theorem truthful_done (status : Status) (hstatus : (dispatchProcessing call processing).2.2 = status)
    (hdone : call.isShuttingDown = true ∧ status ≠ .error ∨ status = .done) : (process call processing).Truthful := by
  have hs : (process call processing).status = .done := by
    rw [process, hstatus]
    obtain h | h := hdone
    · exact if_pos h
    · rw [h, ite_self]
  have hp : (process call processing).performedWork = 0 := by
    show computePerformedWork (process call processing).status _ _ _ = 0
    rw [hs]
    rfl
  refine Report.truthful_of_done hs ?_ hp
  show (decide (0 < (process call processing).performedWork) || (process call processing).status == .done) = true
  rw [hs, hp]
  rfl

/-- A call that fails or is short of samples or room: what the function has asked for still moves. -/
theorem truthful_short (status : Status) (hstatus : (dispatchProcessing call processing).2.2 = status)
    (hne : status ≠ .ok ∧ status ≠ .done) (hrunning : call.isShuttingDown = true → status = .error) :
    (process call processing).Truthful ↔ ¬ MovesPort call False False := by
  have hs : (process call processing).status = status := by
    rw [process, hstatus]
    refine if_neg ?_
    rintro ⟨hstop, herror⟩
    exact herror (hrunning hstop)
  have hp : (process call processing).performedWork = 0 := by
    show computePerformedWork (process call processing).status _ _ _ = 0
    rw [hs]
    exact if_pos hne.1
  have hcounts : sanitiseProcessStatus (dispatchProcessing call processing).2.2 (dispatchProcessing call processing).1
      (dispatchProcessing call processing).2.1 = (0, 0) := by
    rw [hstatus]
    cases status <;> simp_all [sanitiseProcessStatus]
  rw [Report.truthful_idle (by rw [hs]; exact hne.2) ?_ hp, moves_process rfl hcounts (.inr rfl),
    not_movesPort (Nat.lt_irrefl 0) (Nat.lt_irrefl 0)]
  show (decide (0 < (process call processing).performedWork) || (process call processing).status == .done) = false
  rw [hs, hp]
  simpa using hne.2

/-- A call that returns `OK` reports what is accounted. -/
theorem truthful_ok {nIn nOut : Nat} (hdispatch : dispatchProcessing call processing = (nIn, nOut, .ok))
    (hrunning : call.isShuttingDown = false) :
    (process call processing).Truthful ↔
      (0 < (if call.isSource then (accountedStreamWork call nIn nOut processing).2
        else (accountedStreamWork call nIn nOut processing).1) ↔ MovesPort call (0 < nIn) (0 < nOut)) := by
  have hs : (process call processing).status = .ok := by
    rw [process, hdispatch, hrunning]
    rfl
  have hp : (process call processing).performedWork =
      if call.isSource then (accountedStreamWork call nIn nOut processing).2
      else (accountedStreamWork call nIn nOut processing).1 := by
    show computePerformedWork (process call processing).status _ _ _ = _
    rw [hs, hdispatch]
    rfl
  rw [← moves_process hdispatch rfl (.inl hrunning), ← hp]
  refine Report.truthful_iff_performed (by rw [hs]; simp) ?_
  show (decide (0 < (process call processing).performedWork) || (process call processing).status == .done) = _
  rw [hs]
  exact Bool.or_false _

/-! ### Which calls -/

theorem Takes.moves (h : Takes n spans) (hgating : ∃ span ∈ spans, span.isGating = true) :
    Requests spans ∨ Takes n spans ∧ Leaves spans := by
  obtain ⟨span, hmem, hgating⟩ := hgating
  cases hrequested : span.requested with
  | none => exact .inr ⟨h, span, hmem, hgating, hrequested⟩
  | some k =>
    refine .inl ⟨span, hmem, (Bool.and_eq_true_iff.mp hgating).1, ?_⟩
    rw [hrequested]
    refine Nat.pos_of_ne_zero fun hk => h.2 span hmem hgating ?_
    rw [hrequested]
    exact congrArg some hk

theorem SideMoves.moves (h : SideMoves call) :
    MovesPort call (Takes call.resampledIn call.inputs) (Takes call.resampledOut call.outputs) := by
  rw [SideMoves] at h
  cases hsource : call.isSource <;> simp only [hsource, Bool.false_eq_true, if_true, if_false] at h <;>
    obtain ⟨hgating, htakes⟩ | ⟨-, hrequests⟩ := h
  · obtain hrequests | hleaves := htakes.moves hgating
    · exact .inr (.inl hrequests)
    · exact .inr (.inr (.inr (.inl hleaves)))
  · exact .inr (.inl hrequests)
  · obtain hrequests | hleaves := htakes.moves hgating
    · exact .inr (.inr (.inl hrequests))
    · exact .inr (.inr (.inr (.inr hleaves)))
  · exact .inr (.inr (.inl hrequests))

theorem accounted_pos_iff (status : Status) :
    0 < (if call.isSource then
        (accountedStreamWork call (leastRequested call.resampledIn call.inputs)
          (leastRequested call.resampledOut call.outputs) (.processBulk status)).2
      else (accountedStreamWork call (leastRequested call.resampledIn call.inputs)
          (leastRequested call.resampledOut call.outputs) (.processBulk status)).1) ↔ SideMoves call := by
  rw [SideMoves]
  cases hsource : call.isSource <;>
    simp only [Bool.false_eq_true, if_true, if_false, accountedStreamWork, accountedBulk_pos, leastRequested_pos]

theorem truthful_processBulk (status : Status) :
    (process call (.processBulk status)).Truthful ↔ ProcessingReports call (.processBulk status) := by
  cases status with
  | done => exact iff_of_true (truthful_done .done rfl (.inr rfl)) trivial
  | error => exact truthful_short .error rfl ⟨by simp, by simp⟩ fun _ => rfl
  | ok =>
    rw [ProcessingReports]
    cases hstop : call.isShuttingDown with
    | true => exact iff_of_true (truthful_done .ok rfl (.inl ⟨hstop, by simp⟩)) (.inl rfl)
    | false =>
      rw [truthful_ok rfl hstop, accounted_pos_iff, leastRequested_pos, leastRequested_pos]
      constructor
      · intro h
        by_cases hside : SideMoves call
        · exact .inr (.inl hside)
        · exact .inr (.inr fun hmoves => hside (h.mpr hmoves))
      · rintro (h | hside | hstill)
        · cases h
        · exact iff_of_true hside (SideMoves.moves hside)
        · exact iff_of_false (fun hside => hstill (SideMoves.moves hside)) hstill
  | insufficientInputItems | insufficientOutputItems =>
    show _ ↔ call.isShuttingDown = true ∨ ¬ MovesPort call False False
    cases hstop : call.isShuttingDown with
    | true => exact iff_of_true (truthful_done _ rfl (.inl ⟨hstop, by simp [dispatchProcessing]⟩)) (.inl rfl)
    | false =>
      rw [truthful_short _ rfl ⟨by simp [dispatchProcessing], by simp [dispatchProcessing]⟩ fun h => (by rw [hstop] at h; cases h)]
      exact ⟨.inr, fun h => h.resolve_left (by simp)⟩

theorem truthful_processOne (nSamples : Nat) (status : Status) :
    (process call (.processOne nSamples status)).Truthful ↔ ProcessingReports call (.processOne nSamples status) := by
  by_cases hsizes : call.resampledIn ≠ call.resampledOut
  · have hdispatch : dispatchProcessing call (.processOne nSamples status) = (0, 0, .error) := if_pos hsizes
    rw [ProcessingReports, if_pos (.inl hsizes)]
    exact truthful_short .error (congrArg (·.2.2) hdispatch) ⟨by simp, by simp⟩ fun _ => rfl
  have hdispatch : dispatchProcessing call (.processOne nSamples status) = (nSamples, nSamples, status) := if_neg hsizes
  have hstatus := congrArg (·.2.2) hdispatch
  by_cases herror : status = .error
  · rw [ProcessingReports, if_pos (.inr herror)]
    exact truthful_short status hstatus ⟨by simp [herror], by simp [herror]⟩ fun _ => herror
  rw [ProcessingReports, if_neg (not_or.mpr ⟨hsizes, herror⟩)]
  cases hstop : call.isShuttingDown with
  | true => exact iff_of_true (truthful_done status hstatus (.inl ⟨hstop, herror⟩)) (.inl rfl)
  | false =>
    have hne : ¬ false = true := by simp
    rw [or_iff_right hne]
    by_cases hdone : status = .done
    · exact iff_of_true (truthful_done status hstatus (.inr hdone)) (.inl hdone)
    rw [or_iff_right hdone]
    by_cases hok : status = .ok
    · subst hok
      rw [truthful_ok hdispatch hstop, accountedStreamWork, ite_self]
      by_cases hn : 0 < nSamples
      · simp only [hn, true_and, if_true, true_iff]
      · simp only [hn, and_false, if_false, false_iff]
    · rw [if_neg fun h => hok h.1]
      exact truthful_short status hstatus ⟨hok, hdone⟩ fun h => (by rw [hstop] at h; cases h)

theorem moves_of_unreleased (hconsumed : report.consumed = consumed call fun _ => 0)
    (hpublished : report.published = published call fun _ => 0) : report.Moves ↔ Skips call := by
  rw [Report.Moves, hconsumed, hpublished, exists_consumed_pos, exists_published_pos]
  simp

/-- Exactly these calls report what they have moved. -/
theorem truthful_iff (call : Call) : (work call).Truthful ↔ ReportsMoves call := by
  cases hcourse : call.course with
  | stopped =>
    simp only [work, ReportsMoves, hcourse, iff_true]
    refine ⟨?_, fun h => absurd h (Nat.lt_irrefl 0)⟩
    rintro (⟨n, hmem, hn⟩ | ⟨n, hmem, hn⟩) <;>
      · obtain ⟨span, -, rfl⟩ := List.mem_map.mp hmem
        cases hn
  | ends trailing =>
    simp only [work, ReportsMoves, hcourse, iff_true]
    exact Report.truthful_of_done rfl rfl rfl
  | returns noInput =>
    simp only [work, ReportsMoves, hcourse]
    rw [Report.truthful_idle (by cases noInput <;> simp) rfl rfl, moves_of_unreleased rfl rfl]
  | processes processing =>
    simp only [work, ReportsMoves, hcourse]
    cases processing with
    | processBulk status => exact truthful_processBulk status
    | processOne nSamples status => exact truthful_processOne nSamples status

/-- A call of a block with a stride that has skipped one sample and has none left. -/
def skipsOnly : Call where
  isSource := false
  inputs := [⟨true, true, none⟩]
  outputs := [⟨true, true, none⟩]
  inputSkipBefore := 1
  resampledIn := 0
  resampledOut := 0
  chunks := ⟨false, true, 1, 1, 3⟩
  strideCounter := 1
  isShuttingDown := false
  course := .returns true

/-- It has moved its input, and reports nothing. -/
theorem skipsOnly_untruthful : ¬ ∀ call : Call, (work call).Truthful := by
  intro h
  obtain ⟨hmoved, -⟩ := (h skipsOnly).moved (.inl ⟨1, by decide, by decide⟩)
  revert hmoved
  decide

end GnuRadio.WorkReports
