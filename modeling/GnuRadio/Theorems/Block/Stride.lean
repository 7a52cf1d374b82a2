import GnuRadio.Block.Stride

/-! The stride law: successive chunks start one stride apart, however the samples arrive. -/

namespace GnuRadio.Stride

open WorkSize

variable {stride strideCounter availableSamples requestedWork : Nat} {c : Chunks} {ports : Ports}

/-! ### The counter -/

theorem HasStride.active (h : HasStride stride c) (hpos : 0 < stride) : c.isStrideActiveAndNotDefault := by
  obtain ⟨-, rfl, hne⟩ := h
  exact ⟨Nat.pos_iff_ne_zero.mp hpos, hne⟩

/-- A skip takes from the leftover stride what there is. -/
theorem inputSamplesToSkip_eq (h : HasStride stride c) (hpos : 0 < stride) :
    inputSamplesToSkipBeforeNextChunk c strideCounter availableSamples =
      (min strideCounter availableSamples, strideCounter - availableSamples) := by
  unfold inputSamplesToSkipBeforeNextChunk
  split
  · exact Prod.ext rfl (by dsimp only; omega)
  · next hnot =>
    have hzero : strideCounter = 0 := by
      by_contra hne
      exact hnot ⟨h.1, h.active hpos, Nat.pos_of_ne_zero hne⟩
    rw [hzero, Nat.zero_min, Nat.zero_sub]

theorem computeSampleLimits_counter (h : HasStride stride c) (hpos : 0 < stride) (strideCounter : Nat) (ports : Ports)
    (requestedWork : Nat) :
    (computeSampleLimits c strideCounter ports requestedWork).1.inputSkipBefore +
        (computeSampleLimits c strideCounter ports requestedWork).2 = strideCounter := by
  simp only [computeSampleLimits, inputSamplesToSkip_eq h hpos]
  omega

/-- A call takes no sample before its skip is finished. -/
theorem computeSampleLimits_resampledIn (h : HasStride stride c) (hpos : 0 < stride)
    (hin : 0 < (computeSampleLimits c strideCounter ports requestedWork).1.resampledIn) :
    (computeSampleLimits c strideCounter ports requestedWork).2 = 0 := by
  simp only [computeSampleLimits, inputSamplesToSkip_eq h hpos] at hin ⊢
  by_contra hne
  -- what is available, or what is left of the stream, went into the skip
  have hle := hin.trans_le computeResampling_le
  simp only [lt_min_iff] at hle
  omega

theorem inputSamplesToConsume_eq (h : HasStride stride c) (hpos : 0 < stride) {resampledIn : Nat} (hin : 0 < resampledIn) :
    inputSamplesToConsumeAdjustedWithStride c 0 resampledIn = (min stride resampledIn, stride - resampledIn) := by
  have hactive := h.active hpos
  obtain ⟨henabled, rfl, -⟩ := h
  rw [inputSamplesToConsumeAdjustedWithStride, if_pos ⟨henabled, hactive, rfl, hin⟩]
  exact Prod.ext rfl (by dsimp only; omega)

/-! ### The start of each chunk -/

/-- Where a chunk starts that lies `moved` samples after the first one. -/
def startsAt (inputs : List Input) (moved : Nat) : List Nat := inputs.map fun port => port.position + moved

/-- The starts so far, and how far the next one is away. -/
structure Aligned (inputs : List Input) (stride : Nat) (s : State) : Prop where
  starts : s.starts = (List.range s.starts.length).map fun n => startsAt inputs (n * stride)
  moved : ∃ moved, s.inputs.map (·.position) = startsAt inputs moved ∧
    (s.stopped = false → moved + s.strideCounter = s.starts.length * stride)

variable {inputs : List Input} {s : State} {call : Call} {limits : SampleLimits}

theorem positions_consume {moved nSamples : Nat} (h : s.inputs.map (·.position) = startsAt inputs moved) :
    (consume s.inputs nSamples).map (·.position) = startsAt inputs (moved + nSamples) := by
  have hmap : (consume s.inputs nSamples).map (·.position) = (s.inputs.map (·.position)).map (· + nSamples) := by
    simp only [consume, List.map_map, Function.comp_def]
  rw [hmap, h, startsAt, List.map_map, startsAt]
  exact List.map_congr_left fun port _ => Nat.add_assoc ..

theorem skipped_stopped : (s.skipped call).1.stopped = s.stopped := rfl

theorem Aligned.skipped (h : Aligned inputs stride s) (hs : HasStride stride call.first.chunks) (hpos : 0 < stride) :
    Aligned inputs stride (s.skipped call).1 := by
  obtain ⟨moved, hpositions, hmoved⟩ := h.moved
  refine ⟨h.starts, moved + (s.skipped call).2.inputSkipBefore, positions_consume hpositions, fun hrunning => ?_⟩
  have hcounter := computeSampleLimits_counter hs hpos s.strideCounter call.first.ports call.requestedWork
  have hleft := hmoved hrunning
  change moved + (s.skipped call).2.inputSkipBefore + (s.skipped call).1.strideCounter = s.starts.length * stride
  change (s.skipped call).2.inputSkipBefore + (s.skipped call).1.strideCounter = s.strideCounter at hcounter
  omega

theorem Aligned.sized (h : Aligned inputs stride s) {pass : Pass} (hs : HasStride stride pass.chunks)
    (hstaging : HasStride stride call.staging) (hpos : 0 < stride) :
    Aligned inputs stride (s.sized call limits pass).1 := by
  unfold State.sized
  split
  · next hstaged =>
    -- the second pass runs once the skip is finished, so that it takes nothing from the counter
    have hzero : s.strideCounter = 0 := by
      have hstage := hstaged.2
      simp only [stageFirstSampleTagSettings, hstaging.1, hstaging.active hpos, decide_true, Bool.true_and,
        Bool.not_eq_true', decide_eq_false_iff_not, Nat.not_lt, Nat.le_zero] at hstage
      exact hstage
    have hcounter := computeSampleLimits_counter hs hpos s.strideCounter pass.ports call.requestedWork
    obtain ⟨moved, hpositions, hmoved⟩ := h.moved
    refine ⟨h.starts, moved, hpositions, fun hrunning => ?_⟩
    have hleft := hmoved hrunning
    dsimp only
    omega
  · exact h

theorem Aligned.endOfStream (h : Aligned inputs stride s) : Aligned inputs stride (s.endOfStream call) := by
  unfold State.endOfStream
  split
  · obtain ⟨moved, hpositions, -⟩ := h.moved
    exact ⟨h.starts, _, positions_consume hpositions, nofun⟩
  · exact h

/-- The chunk starts where the last one said, and the stride counts from there. -/
theorem Aligned.process (h : Aligned inputs stride s) (hrunning : s.stopped = false) {resampledIn : Nat}
    (hsized : 0 < resampledIn → s.strideCounter = 0) (hs : HasStride stride call.final) (hpos : 0 < stride) :
    Aligned inputs stride (s.process call resampledIn) := by
  obtain ⟨moved, hpositions, hmoved⟩ := h.moved
  have hleft := hmoved hrunning
  unfold State.process
  by_cases hin : 0 < resampledIn
  · have hzero := hsized hin
    have hmoved' : moved = s.starts.length * stride := by omega
    have hstarts : s.starts ++ [s.inputs.map (·.position)] =
        (List.range (s.starts.length + 1)).map fun n => startsAt inputs (n * stride) := by
      rw [List.range_succ, List.map_append, ← h.starts, hpositions, hmoved']
      rfl
    rw [if_pos hin]
    dsimp only
    split
    · exact ⟨by rw [hstarts, List.length_map, List.length_range], moved, hpositions, nofun⟩
    · rw [if_neg (Nat.pos_iff_ne_zero.mp hin), hzero, inputSamplesToConsume_eq hs hpos hin]
      dsimp only
      rw [if_pos (by omega)]
      refine ⟨by rw [hstarts, List.length_map, List.length_range], moved + min stride resampledIn,
        positions_consume hpositions, fun _ => ?_⟩
      rw [List.length_append, List.length_singleton, Nat.add_one_mul, ← hmoved']
      dsimp only
      omega
  · rw [if_neg hin]
    dsimp only
    split
    · exact ⟨h.starts, moved, hpositions, nofun⟩
    · rw [if_pos (Nat.eq_zero_of_not_pos hin)]
      exact ⟨h.starts, moved, hpositions, fun _ => hleft⟩

theorem Aligned.perform (h : Aligned inputs stride s) (hrunning : s.stopped = false)
    (hsized : 0 < limits.resampledIn → s.strideCounter = 0) (hs : HasStride stride call.final) (hpos : 0 < stride) :
    Aligned inputs stride (s.perform call limits) := by
  unfold State.perform
  split
  · exact h.endOfStream
  · split
    · exact h
    · split
      · exact h
      · exact h.process hrunning hsized hs hpos

theorem sized_resampledIn {pass : Pass} (hs : HasStride stride pass.chunks) (hpos : 0 < stride)
    (hlimits : 0 < limits.resampledIn → s.strideCounter = 0) :
    0 < (s.sized call limits pass).2.resampledIn → (s.sized call limits pass).1.strideCounter = 0 := by
  unfold State.sized
  split
  · exact computeSampleLimits_resampledIn hs hpos
  · exact hlimits

theorem sized_stopped {pass : Pass} : (s.sized call limits pass).1.stopped = s.stopped := by
  unfold State.sized
  split <;> rfl

theorem Aligned.workInternal (h : Aligned inputs stride s) (hrunning : s.stopped = false)
    (hs : (Act.work call).Strides stride) (hpos : 0 < stride) : Aligned inputs stride (workInternal s call) := by
  obtain ⟨hfirst, hstaging, hfinal, hchanged⟩ := hs
  have hskipped := h.skipped hfirst hpos
  have hlimits : 0 < (s.skipped call).2.resampledIn → (s.skipped call).1.strideCounter = 0 :=
    computeSampleLimits_resampledIn hfirst hpos
  unfold GnuRadio.Stride.workInternal
  dsimp only
  split
  · next pass hpass =>
    have hpass' := hchanged pass hpass
    exact (hskipped.sized hpass' hstaging hpos).perform (sized_stopped.trans hrunning)
      (sized_resampledIn hpass' hpos hlimits) hfinal hpos
  · exact hskipped.perform hrunning hlimits hfinal hpos

theorem Aligned.step {t : State} {act : Act} (h : Aligned inputs stride s) (hs : act.Strides stride) (hpos : 0 < stride)
    (hstep : step s act = some t) : Aligned inputs stride t := by
  cases act with
  | arrive input nSamples =>
    cases hstep
    obtain ⟨moved, hpositions, hmoved⟩ := h.moved
    refine ⟨h.starts, moved, ?_, hmoved⟩
    rw [← hpositions]
    refine List.ext_getElem (by simp) fun k hk hk' => ?_
    simp only [List.getElem_map, List.getElem_modify]
    split <;> rfl
  | work call =>
    unfold GnuRadio.Stride.step at hstep
    dsimp only at hstep
    split at hstep
    · next hguard =>
      cases hstep
      exact h.workInternal (by simpa using hguard.1) hs hpos
    · cases hstep

theorem Aligned.reach (hpos : 0 < stride) (h : (system inputs).Reach (fun _ act => act.Strides stride) s) :
    Aligned inputs stride s :=
  h.invariant (fun _ hstart => hstart ▸ ⟨rfl, 0, List.map_congr_left fun _ _ => rfl, fun _ => (Nat.zero_mul _).symm⟩)
    fun _ _ _ hi hok hs => hi.step hok hpos hs

/-- The n-th chunk starts n strides after the first one, on every input, in all runs. -/
theorem starts_apart {inputs : List Input} {stride : Nat} (hpos : 0 < stride) {s : State}
    (h : (system inputs).Reach (fun _ act => act.Strides stride) s) (n : Nat) (starts : List Nat)
    (hstarts : s.starts[n]? = some starts) : starts = inputs.map fun port => port.position + n * stride := by
  obtain ⟨hlt, hget⟩ := List.getElem?_eq_some_iff.mp hstarts
  have heq := (Aligned.reach hpos h).starts
  rw [heq] at hstarts
  rw [List.getElem?_map, List.getElem?_range hlt] at hstarts
  exact (Option.some.inj hstarts).symm

/-- Chunks of two samples at a stride of three, with the samples arriving one by one. -/
def singly : List Act :=
  let chunks : Chunks := ⟨true, true, 2, 1, 3⟩
  let call (available : Nat) : Call :=
    { requestedWork := 0
      first := ⟨chunks, ⟨1, unlimited, available, false, 1, unlimited, 8, false, false, unlimited, unlimited, false, false,
        false, unlimited⟩⟩
      staging := chunks
      changed := none
      ends := false
      epilogue := none
      refused := false
      final := chunks
      stops := false
      done := false }
  [.arrive 0 1, .work (call 1), .arrive 0 1, .work (call 2), .arrive 0 1, .work (call 1), .arrive 0 1, .work (call 1),
    .arrive 0 1, .work (call 2)]

theorem singly_starts : ∃ s, (system [⟨0, 0⟩]).Reach (fun _ act => act.Strides 3) s ∧ s.starts[1]? = some [3] ∧
    [3] = [(⟨0, 0⟩ : Input)].map fun port => port.position + 1 * 3 := by
  have hreach : (system [⟨0, 0⟩]).Reach (fun _ act => act.Strides 3) _ := (system [⟨0, 0⟩]).reach_get singly
    (s := { inputs := [⟨0, 0⟩], strideCounter := 0, stopped := false, starts := [] }) rfl (by decide) (by decide)
  exact ⟨_, hreach, by decide, starts_apart (by decide) hreach 1 [3] (by decide)⟩

end GnuRadio.Stride
