import GnuRadio.Block.ProcessBulk
import GnuRadio.Theorems.Block.OutputTags

/-! The tags in an output span whose reservation is not exhausted. -/

namespace GnuRadio.ProcessBulk

open OutputTags

variable {μ ω : Type} {P : PropertyMap μ} {c : Arguments} {span span' span'' : OutputSpan μ} {added added' : List (Tag μ)}

/-! ### Publishing -/

/-- The tag that a span holds for an offset and a map. -/
def placed (P : PropertyMap μ) (streamIndex : Nat) (tag : Nat × μ) : Tag μ :=
  ⟨streamIndex + tag.1, P.canonicalizeKeys tag.2⟩

/-- Tags are published in a span: unless one is dropped, they follow those that it holds. -/
structure Adds (span span' : OutputSpan μ) (added : List (Tag μ)) : Prop where
  streamIndex : span'.streamIndex = span.streamIndex
  isConnected : span'.isConnected = span.isConnected
  tags : span.isConnected = true → span'.tagsDropped = 0 → span.tagsDropped = 0 ∧ span'.tags = span.tags ++ added

theorem Adds.refl (span : OutputSpan μ) : Adds span span [] :=
  ⟨rfl, rfl, fun _ h => ⟨h, (List.append_nil _).symm⟩⟩

theorem Adds.trans (h : Adds span span' added) (h' : Adds span' span'' added') : Adds span span'' (added ++ added') := by
  refine ⟨h'.streamIndex.trans h.streamIndex, h'.isConnected.trans h.isConnected, fun hconnected hfits => ?_⟩
  obtain ⟨hfits', htags'⟩ := h'.tags (h.isConnected.trans hconnected) hfits
  obtain ⟨hfits'', htags⟩ := h.tags hconnected hfits'
  exact ⟨hfits'', by rw [htags', htags, List.append_assoc]⟩

theorem Adds.mem (h : Adds span span' added) (hconnected : span.isConnected = true) (hfits : span'.tagsDropped = 0)
    {tag : Tag μ} (ht : tag ∈ span.tags) : tag ∈ span'.tags := by
  rw [(h.tags hconnected hfits).2]
  exact List.mem_append_left _ ht

theorem publishTag_adds (map : μ) (k : Nat) (span : OutputSpan μ) :
    Adds span (span.publishTag P map k) [placed P span.streamIndex (k, map)] := by
  unfold OutputSpan.publishTag
  split
  · next h => exact ⟨rfl, rfl, fun hconnected => by simp [hconnected] at h⟩
  · split
    · exact ⟨rfl, rfl, fun _ hfits => absurd hfits (Nat.succ_ne_zero _)⟩
    · exact ⟨rfl, rfl, fun _ hfits => ⟨hfits, rfl⟩⟩

theorem publishEoSTag_adds (map : μ) (k : Nat) (span : OutputSpan μ) :
    Adds span (span.publishEoSTag P map k) [placed P span.streamIndex (k, map)] := by
  unfold OutputSpan.publishEoSTag
  split
  · next h => exact ⟨rfl, rfl, fun hconnected => by simp [hconnected] at h⟩
  · split
    · exact ⟨rfl, rfl, fun _ hfits => absurd hfits (Nat.succ_ne_zero _)⟩
    · exact ⟨rfl, rfl, fun _ hfits => ⟨hfits, rfl⟩⟩

theorem publishAll_adds (tags : List (Nat × μ)) (span : OutputSpan μ) :
    Adds span (span.publishAll P tags) (tags.map (placed P span.streamIndex)) := by
  induction tags generalizing span with
  | nil => exact Adds.refl span
  | cons tag tags ih =>
    have hfirst := publishTag_adds (P := P) tag.2 tag.1 span
    have hrest := ih (span.publishTag P tag.2 tag.1)
    rw [hfirst.streamIndex] at hrest
    exact hfirst.trans hrest

/-- What is published beside the tags of the inputs. -/
theorem publishPending_adds (map : μ) (span : OutputSpan μ) :
    ∃ added, Adds span (publishPending P map span) added ∧ ∀ tag ∈ added, tag.map = P.canonicalizeKeys map := by
  unfold publishPending
  split
  · exact ⟨[], Adds.refl span, fun _ h => by cases h⟩
  · refine ⟨_, publishTag_adds map _ span, fun tag h => ?_⟩
    rw [List.mem_singleton.mp h]
    rfl

/-! ### Forwarding -/

theorem publishSamples_tags (span : OutputSpan μ) (nSamples : Nat) : Adds span (span.publishSamples nSamples) [] := by
  unfold OutputSpan.publishSamples
  split
  · exact Adds.refl span
  · exact ⟨rfl, rfl, fun _ h => ⟨h, (List.append_nil _).symm⟩⟩

theorem mem_mergedByIndex_forwarded {last : Nat} {present forwarded : List (Nat × μ)} {tag : Nat × μ}
    (h : tag ∈ forwarded) : (min tag.1 last, tag.2) ∈ OutputSpan.mergedByIndex last present forwarded := by
  induction forwarded generalizing present with
  | nil => cases h
  | cons head forwarded ih =>
    rw [OutputSpan.mergedByIndex]
    refine List.mem_append_right _ ?_
    rcases List.mem_cons.mp h with rfl | h
    · exact .head _
    · exact .tail _ (ih h)

/-- The samples past which a forwarded tag leaves at the end. -/
def lastOffset (span : OutputSpan μ) : Nat := span.nRequestedSamplesToPublish.getD span.size

theorem publishMergedByIndex_adds (forwarded : List (Nat × μ)) (hconnected : span.isConnected = true) :
    Adds { span with tags := [] } (span.publishMergedByIndex P forwarded)
      ((OutputSpan.mergedByIndex (lastOffset span) (span.tags.map fun tag => (tag.index - span.streamIndex, tag.map))
        forwarded).map (placed P span.streamIndex)) := by
  unfold OutputSpan.publishMergedByIndex
  rw [if_neg (by simp [hconnected])]
  exact publishAll_adds _ _

section

variable [DecidableEq μ] {chunks : Nat × Nat} {inputSpans : List (InputSpan μ)} {window : Nat}

/-- Of tags that are alike one is kept. -/
theorem mem_deduplicate_of_mem {seen tags : List (Int × μ)} {tag : Int × μ} (h : tag ∈ tags) :
    tag ∈ seen ∨ tag ∈ deduplicate seen tags := by
  induction tags generalizing seen with
  | nil => cases h
  | cons head tags ih =>
    rw [deduplicate]
    split
    · next hseen =>
      rcases List.mem_cons.mp h with rfl | h
      · exact Or.inl hseen
      · exact ih h
    · rcases List.mem_cons.mp h with rfl | h
      · exact Or.inr (.head _)
      · rcases @ih (if seen.length < 8 then seen ++ [head] else seen) h with hseen | hrest
        · split at hseen
          · rcases List.mem_append.mp hseen with hseen | hseen
            · exact Or.inl hseen
            · rw [List.mem_singleton.mp hseen]
              exact Or.inr (.head _)
          · exact Or.inl hseen
        · exact Or.inr (.tail _ hrest)

/-- Every tag of the window is forwarded, unless its map has nothing to hand on. -/
theorem mem_forwardedTags_of_mem {inputSpan : InputSpan μ} (hspan : inputSpan ∈ inputSpans) (hsync : inputSpan.isSync = true)
    (hconnected : inputSpan.isConnected = true) {tag : Int × μ} (ht : tag ∈ inputSpan.tags window) {tag' : Nat × μ}
    (hcollect : collect P c chunks tag = some tag') : tag' ∈ forwardedTags P c chunks inputSpans window := by
  have hmem : tag ∈ (inputSpans.filter fun span => span.isSync && span.isConnected).flatMap (·.tags window) :=
    List.mem_flatMap.mpr ⟨inputSpan, List.mem_filter.mpr ⟨hspan, by simp [hsync, hconnected]⟩, ht⟩
  unfold forwardedTags
  dsimp only
  split
  · exact List.mem_filterMap.mpr ⟨tag, hmem, hcollect⟩
  · refine List.mem_mergeSort.mpr (List.mem_filterMap.mpr ⟨tag, ?_, hcollect⟩)
    exact (mem_deduplicate_of_mem hmem).resolve_left List.not_mem_nil

theorem forwardInputTags_eq (P : PropertyMap μ) (chunks : Nat × Nat) (inputSpans : List (InputSpan μ))
    (hpropagates : c.noTagPropagation = false) (processedIn : Nat) (override : Option Nat) (span : OutputSpan μ) :
    forwardInputTags P c chunks inputSpans processedIn override span =
      if forwardedTags P c chunks inputSpans (override.getD (if c.hasWholeChunkTagWindow then processedIn else 1)) = [] then span
      else span.publishMergedByIndex P (forwardedTags P c chunks inputSpans
        (override.getD (if c.hasWholeChunkTagWindow then processedIn else 1))) := by
  rw [forwardInputTags, if_neg (by simp [hpropagates])]

/-- A forwarded tag is in the span, at its offset or at the end. -/
theorem mem_forwardInputTags (hpropagates : c.noTagPropagation = false) {processedIn : Nat} {override : Option Nat}
    (hconnected : span.isConnected = true)
    (hfits : (forwardInputTags P c chunks inputSpans processedIn override span).tagsDropped = 0) {tag : Nat × μ}
    (ht : tag ∈ forwardedTags P c chunks inputSpans
      (override.getD (if c.hasWholeChunkTagWindow then processedIn else 1))) :
    placed P span.streamIndex (min tag.1 (lastOffset span), tag.2) ∈
      (forwardInputTags P c chunks inputSpans processedIn override span).tags := by
  have heq := forwardInputTags_eq P chunks inputSpans hpropagates processedIn override span
  rw [if_neg (List.ne_nil_of_mem ht)] at heq
  rw [heq] at hfits ⊢
  have hadds := publishMergedByIndex_adds (P := P) (forwardedTags P c chunks inputSpans
    (override.getD (if c.hasWholeChunkTagWindow then processedIn else 1))) hconnected
  rw [(hadds.tags hconnected hfits).2, List.nil_append]
  exact List.mem_map.mpr ⟨_, mem_mergedByIndex_forwarded ht, rfl⟩

theorem forwardInputTags_frame (P : PropertyMap μ) (c : Arguments) (chunks : Nat × Nat) (inputSpans : List (InputSpan μ))
    (processedIn : Nat) (override : Option Nat) (span : OutputSpan μ) :
    (forwardInputTags P c chunks inputSpans processedIn override span).streamIndex = span.streamIndex ∧
      (forwardInputTags P c chunks inputSpans processedIn override span).isConnected = span.isConnected := by
  obtain heq | ⟨-, heq⟩ := forwardInputTags_cases P c chunks inputSpans processedIn override span
  · rw [heq]
    exact ⟨rfl, rfl⟩
  · rw [heq, OutputSpan.publishMergedByIndex]
    split
    · exact ⟨rfl, rfl⟩
    · have hadds := fun tags => publishAll_adds (P := P) tags { span with tags := [] }
      exact ⟨(hadds _).streamIndex, (hadds _).isConnected⟩

end

/-! ### A chunk -/

theorem invokeProcessBulk_adds (choice : Choice μ ω) (o : ω) (span : OutputSpan μ) :
    Adds span (invokeProcessBulk P choice o span) ((choice.tags o).map (placed P span.streamIndex)) := by
  obtain ⟨hstream, hconnected, htags⟩ := publishAll_adds (P := P) (choice.tags o) span
  exact ⟨hstream, hconnected, htags⟩

/-- The end of a call publishes at most forward parameters and the marker. -/
theorem finish_adds (P : PropertyMap μ) (forwardParams : μ) (isDone : Bool) (span : OutputSpan μ) :
    ∃ added, Adds span
      (if isDone then
        let out := publishPending P forwardParams span
        out.publishEoSTag P P.endOfStream (out.nRequestedSamplesToPublish.getD 0)
      else span) added ∧
      ∀ tag ∈ added, tag.map = P.canonicalizeKeys forwardParams ∨ tag.map = P.canonicalizeKeys P.endOfStream := by
  cases isDone with
  | false => exact ⟨[], Adds.refl span, fun _ h => by cases h⟩
  | true =>
    obtain ⟨added, hadds, hmaps⟩ := publishPending_adds (P := P) forwardParams span
    refine ⟨_, hadds.trans (publishEoSTag_adds _ _ _), fun tag h => ?_⟩
    rcases List.mem_append.mp h with h | h
    · exact Or.inl (hmaps tag h)
    · rw [List.mem_singleton.mp h]
      exact Or.inr rfl

section

variable [DecidableEq μ] {chunks : Nat × Nat} {inputSpans : List (InputSpan μ)} {call : Process μ ω}

/-- The tags of a span whose call publishes no sample are dropped. -/
def published (processedOut : Nat) (span : OutputSpan μ) : OutputSpan μ :=
  (if processedOut = 0 then { span with tags := [] } else span).publishSamples processedOut

omit [DecidableEq μ] in
theorem published_frame (processedOut : Nat) (span : OutputSpan μ) :
    (published processedOut span).streamIndex = span.streamIndex ∧
      (published processedOut span).isConnected = span.isConnected := by
  have hsamples := publishSamples_tags (if processedOut = 0 then { span with tags := [] } else span) processedOut
  have hclear : (if processedOut = 0 then { span with tags := [] } else span).streamIndex = span.streamIndex ∧
      (if processedOut = 0 then { span with tags := [] } else span).isConnected = span.isConnected := by
    split <;> exact ⟨rfl, rfl⟩
  exact ⟨hsamples.streamIndex.trans hclear.1, hsamples.isConnected.trans hclear.2⟩

omit [DecidableEq μ] in
theorem published_adds {processedOut : Nat} (h : processedOut ≠ 0) (span : OutputSpan μ) :
    Adds span (published processedOut span) [] := by
  rw [published, if_neg h]
  exact publishSamples_tags span processedOut

theorem finaliseSpan_adds (P : PropertyMap μ) (c : Arguments) (chunks : Nat × Nat) (inputSpans : List (InputSpan μ))
    (call : Process μ ω) (consumedIn : Option Nat) (processedOut : Nat) (forwardParams : μ) (span : OutputSpan μ) :
    ∃ added, Adds (forwardAfter P c chunks inputSpans consumedIn call.changedForward (published processedOut span))
      (finaliseSpan P c chunks inputSpans consumedIn processedOut call forwardParams span) added ∧
      ∀ tag ∈ added, tag.map = P.canonicalizeKeys forwardParams ∨ tag.map = P.canonicalizeKeys P.endOfStream :=
  finish_adds P forwardParams call.isDone _

/-- Without a chunk ratio nothing is forwarded after the call. -/
theorem forwardAfter_eq_self (h : c.mapsTagsByChunkRatio = false) (consumedIn : Option Nat) (changedForward : μ)
    (span : OutputSpan μ) : forwardAfter P c chunks inputSpans consumedIn changedForward span = span :=
  if_neg (by simp [h])

/-- With one the parameters of the settings follow the forwarded tags. -/
theorem forwardAfter_adds (P : PropertyMap μ) (chunks : Nat × Nat) (inputSpans : List (InputSpan μ))
    (h : c.mapsTagsByChunkRatio = true) {consumedIn : Nat} (hne : consumedIn ≠ 0) (changedForward : μ) (span : OutputSpan μ) :
    ∃ added, Adds (forwardInputTags P c chunks inputSpans consumedIn none span)
      (forwardAfter P c chunks inputSpans (some consumedIn) changedForward span) added ∧
      ∀ tag ∈ added, tag.map = P.canonicalizeKeys (if c.noTagPropagation then P.empty else changedForward) := by
  have heq : forwardAfter P c chunks inputSpans (some consumedIn) changedForward span =
      publishPending P (if c.noTagPropagation then P.empty else changedForward)
        (forwardInputTags P c chunks inputSpans consumedIn none span) := if_pos ⟨h, hne⟩
  rw [heq]
  exact publishPending_adds _ _

theorem forwardBefore_adds (P : PropertyMap μ) (s : State μ ω) (chunks : Nat × Nat) (call : Process μ ω)
    (h : c.mapsTagsByChunkRatio = false) (o : ω) :
    ∃ added, Adds (forwardInputTags P c chunks (s.inputs.map (·.get (call.resampled c chunks).resampledIn))
      (call.resampled c chunks).resampledIn none ((s.outputs o).tryReserve (call.resampled c chunks).resampledOut
        (call.free.samples o) (call.free.tags o))) (forwardBefore P c s chunks call o) added ∧
      ∀ tag ∈ added, tag.map = P.canonicalizeKeys s.pendingForwardParams := by
  have heq : forwardBefore P c s chunks call o = publishPending P s.pendingForwardParams (forwardInputTags P c chunks
      (s.inputs.map (·.get (call.resampled c chunks).resampledIn)) (call.resampled c chunks).resampledIn none
      ((s.outputs o).tryReserve (call.resampled c chunks).resampledOut (call.free.samples o) (call.free.tags o))) :=
    congrArg (publishPending P s.pendingForwardParams) (if_neg (by simp [h]))
  rw [heq]
  exact publishPending_adds _ _

theorem forwardBefore_adds_ratio (P : PropertyMap μ) (s : State μ ω) (chunks : Nat × Nat) (call : Process μ ω)
    (h : c.mapsTagsByChunkRatio = true) (o : ω) :
    ∃ added, Adds ((s.outputs o).tryReserve (call.resampled c chunks).resampledOut (call.free.samples o) (call.free.tags o))
      (forwardBefore P c s chunks call o) added ∧ ∀ tag ∈ added, tag.map = P.canonicalizeKeys s.pendingForwardParams := by
  have heq : forwardBefore P c s chunks call o = publishPending P s.pendingForwardParams
      ((s.outputs o).tryReserve (call.resampled c chunks).resampledOut (call.free.samples o) (call.free.tags o)) :=
    congrArg (publishPending P s.pendingForwardParams) (if_pos h)
  rw [heq]
  exact publishPending_adds _ _

end

/-! ### What a span keeps -/

section

variable {out : Output μ} {requested : Option Nat}

theorem frames_publishAll (h : Frames out requested span) (tags : List (Nat × μ)) :
    Frames out requested (span.publishAll P tags) := by
  induction tags generalizing span with
  | nil => exact h
  | cons tag tags ih => exact ih (h.publish (publishTag_publishes P tag.2 tag.1 span))

theorem frames_publishPending (h : Frames out requested span) (map : μ) : Frames out requested (publishPending P map span) := by
  unfold publishPending
  split
  · exact h
  · exact h.publish (publishTag_publishes ..)

theorem frames_publishSamples (h : Frames out requested span) (hsync : out.isSync = true) {nSamples : Nat}
    (hrequested : requested.getD nSamples = nSamples) : Frames out (some nSamples) (span.publishSamples nSamples) := by
  unfold OutputSpan.publishSamples
  rw [h.requested]
  cases requested with
  | some n =>
    rw [← hrequested]
    exact h
  | none => exact ⟨h.streamIndex, h.isSync, by rw [h.isSync, hsync, if_pos rfl]⟩

variable [DecidableEq μ] {chunks : Nat × Nat} {inputSpans : List (InputSpan μ)}

theorem frames_forwardInputTags (h : Frames out requested span) (processedIn : Nat) (override : Option Nat) :
    Frames out requested (forwardInputTags P c chunks inputSpans processedIn override span) := by
  obtain heq | ⟨-, heq⟩ := forwardInputTags_cases P c chunks inputSpans processedIn override span
  · rw [heq]
    exact h
  · rw [heq, OutputSpan.publishMergedByIndex]
    split
    · exact h
    · have hclear : Frames out requested { span with tags := [] } := ⟨h.streamIndex, h.isSync, h.requested⟩
      exact frames_publishAll hclear _

variable {s : State μ ω} {call : Process μ ω} {o : ω}

theorem frames_forwardBefore : Frames (s.outputs o) none (forwardBefore P c s chunks call o) := by
  refine frames_publishPending ?_ _
  split
  · exact ⟨rfl, rfl, rfl⟩
  · exact frames_forwardInputTags (by exact ⟨rfl, rfl, rfl⟩) _ _

theorem frames_invokeProcessBulk :
    Frames (s.outputs o) (call.choice.published o)
      (invokeProcessBulk P call.choice o (forwardBefore P c s chunks call o)) := by
  obtain ⟨hstream, hsync, -⟩ := frames_publishAll (P := P) (@frames_forwardBefore μ ω P c _ chunks s call o) (call.choice.tags o)
  exact ⟨hstream, hsync, rfl⟩

theorem frames_forwardAfter (h : Frames out requested span) (consumedIn : Option Nat) (changedForward : μ) :
    Frames out requested (forwardAfter P c chunks inputSpans consumedIn changedForward span) := by
  unfold forwardAfter
  split
  · exact frames_publishPending (frames_forwardInputTags h _ _) _
  · exact h

theorem frames_published {processedOut : Nat} (hsync : (s.outputs o).isSync = true)
    (hpublished : (call.choice.published o).getD processedOut = processedOut) :
    Frames (s.outputs o) (some processedOut)
      (published processedOut (invokeProcessBulk P call.choice o (forwardBefore P c s chunks call o))) := by
  refine frames_publishSamples ?_ hsync hpublished
  have hframes := @frames_invokeProcessBulk μ ω P c _ chunks s call o
  split
  · exact ⟨hframes.streamIndex, hframes.isSync, hframes.requested⟩
  · exact hframes

end

/-! ### What a call keeps -/

section

variable [DecidableEq μ] {s t : State μ ω} {chunks : Nat × Nat}

omit [DecidableEq μ] in
/-- Settings leave the ports as they are. -/
theorem applyChangedSettings_ports (P : PropertyMap μ) (c : Arguments) (s : State μ ω) (forwardParams : μ) :
    (s.applyChangedSettings P c forwardParams).inputs = s.inputs ∧
      (s.applyChangedSettings P c forwardParams).outputs = s.outputs := by
  unfold State.applyChangedSettings
  split <;> exact ⟨rfl, rfl⟩

theorem prepared_inputs_length (P : PropertyMap μ) (c : Arguments) (s : State μ ω) (call : Call μ ω) :
    (prepared P c s call).inputs.length = s.inputs.length := by
  unfold prepared
  rw [(applyChangedSettings_ports P c _ _).1]
  cases call.skip with
  | none => rfl
  | some skip => exact List.length_map _

/-- The tags at the end of the stream stay on the inputs. -/
theorem atEndOfStream_inputs (P : PropertyMap μ) (c : Arguments) (s : State μ ω) (chunks : Nat × Nat)
    (endOfStream : EndOfStream μ ω) :
    (atEndOfStream P c s chunks endOfStream).inputs = (epilogueBeforeEnd P c s chunks endOfStream.epilogue).inputs := by
  unfold atEndOfStream remainingAtEnd
  dsimp only
  split
  · exact (applyChangedSettings_ports P c _ _).1
  · rfl

theorem epilogueBeforeEnd_inputs_length (P : PropertyMap μ) (c : Arguments) (s : State μ ω) (chunks : Nat × Nat)
    (epilogue : Option (Epilogue μ ω)) : (epilogueBeforeEnd P c s chunks epilogue).inputs.length = s.inputs.length := by
  cases epilogue with
  | none => rfl
  | some epilogue => exact List.length_map _

theorem step_inputs_length [Fintype ω] {a : Act μ ω} (hs : step P c s a = some t) : t.inputs.length = s.inputs.length := by
  cases a with
  | arrive input tag =>
    cases hs
    exact List.length_modify _ _ _
  | work call =>
    unfold step at hs
    dsimp only at hs
    split at hs
    · cases hs
      rw [← prepared_inputs_length P c s call]
      unfold workInternal
      dsimp only
      split
      · rfl
      · exact List.length_mapIdx
      · rw [atEndOfStream_inputs, epilogueBeforeEnd_inputs_length]
    · cases hs

end

end GnuRadio.ProcessBulk
