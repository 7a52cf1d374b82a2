import GnuRadio.Library.Ledger
import GnuRadio.Theorems.Block.BulkSpans

/-! Runs of a block that takes whole chunks: the tags of the samples it has taken are on its outputs. -/

namespace GnuRadio.ProcessBulk

open OutputTags Delivery

variable {μ ω : Type} {P : PropertyMap μ} {c : Arguments} {chunks : Nat × Nat}

/-! ### Marks -/

def fromInputs (tags : List (Tag (μ × Bool))) : List (Tag (μ × Bool)) := tags.filter (·.map.2)

theorem fromInputs_append (tags tags' : List (Tag (μ × Bool))) :
    fromInputs (tags ++ tags') = fromInputs tags ++ fromInputs tags' := List.filter_append _ _

theorem handedOn_release (out : Output (μ × Bool)) (span : OutputSpan (μ × Bool)) :
    handedOn (out.release span) = handedOn out ++ fromInputs span.tags := List.filter_append _ _

theorem fromInputs_eq_nil {tags : List (Tag (μ × Bool))} (h : ∀ tag ∈ tags, tag.map.2 = false) : fromInputs tags = [] :=
  List.filter_eq_nil_iff.mpr fun tag ht => by simp [h tag ht]

/-- What a span publishes beside the tags of the inputs. -/
theorem Adds.fromInputs_eq {span span' : OutputSpan (μ × Bool)} {added : List (Tag (μ × Bool))} (h : Adds span span' added)
    (hown : ∀ tag ∈ added, tag.map.2 = false) (hconnected : span.isConnected = true) (hfits : span'.tagsDropped = 0) :
    fromInputs span'.tags = fromInputs span.tags := by
  rw [(h.tags hconnected hfits).2, fromInputs_append, fromInputs_eq_nil hown, List.append_nil]

/-- Merging puts the forwarded tags between those of the block. -/
theorem mergedByIndex_filter (last : Nat) {present forwarded : List (Nat × (μ × Bool))}
    (hpresent : ∀ tag ∈ present, tag.2.2 = false) (hforwarded : ∀ tag ∈ forwarded, tag.2.2 = true) :
    (OutputSpan.mergedByIndex last present forwarded).filter (·.2.2) = forwarded.map fun tag => (min tag.1 last, tag.2) := by
  induction forwarded generalizing present with
  | nil => exact List.filter_eq_nil_iff.mpr fun tag ht => by simp [hpresent tag ht]
  | cons head forwarded ih =>
    have htake : (present.takeWhile (·.1 < min head.1 last)).filter (·.2.2) = [] :=
      List.filter_eq_nil_iff.mpr fun tag ht => by simp [hpresent tag ((List.takeWhile_sublist _).mem ht)]
    have hdrop := @ih (present.dropWhile (·.1 < min head.1 last))
      (fun tag ht => hpresent tag ((List.dropWhile_sublist _).mem ht))
      (fun tag ht => hforwarded tag (.tail _ ht))
    rw [OutputSpan.mergedByIndex, List.filter_append, htake, List.nil_append, List.filter_cons,
      if_pos (hforwarded head (.head _)), hdrop, List.map_cons]

section

variable [DecidableEq μ]

/-- On a span that holds none of them yet, the forwarder leaves the forwarded tags. -/
theorem fromInputs_forwardInputTags (hpropagates : c.noTagPropagation = false) {inputSpans : List (InputSpan (μ × Bool))}
    {processedIn : Nat} {override : Option Nat} {span : OutputSpan (μ × Bool)} (hconnected : span.isConnected = true)
    (hpresent : ∀ tag ∈ span.tags, tag.map.2 = false)
    (hfits : (forwardInputTags (marked P) c chunks inputSpans processedIn override span).tagsDropped = 0)
    (hforwarded : ∀ tag ∈ forwardedTags (marked P) c chunks inputSpans
      (override.getD (if c.hasWholeChunkTagWindow then processedIn else 1)), tag.2.2 = true) :
    fromInputs (forwardInputTags (marked P) c chunks inputSpans processedIn override span).tags =
      (forwardedTags (marked P) c chunks inputSpans (override.getD (if c.hasWholeChunkTagWindow then processedIn else 1))).map
        fun tag => placed (marked P) span.streamIndex (min tag.1 (lastOffset span), tag.2) := by
  rw [forwardInputTags_eq (marked P) chunks inputSpans hpropagates processedIn override span] at hfits ⊢
  generalize forwardedTags (marked P) c chunks inputSpans
    (override.getD (if c.hasWholeChunkTagWindow then processedIn else 1)) = forwarded at hforwarded hfits ⊢
  by_cases hnil : forwarded = []
  · rw [if_pos hnil, hnil, fromInputs_eq_nil hpresent, List.map_nil]
  · rw [if_neg hnil] at hfits ⊢
    have htags := ((publishMergedByIndex_adds (P := marked P) forwarded hconnected).tags hconnected hfits).2
    have hoffsets : ∀ tag ∈ span.tags.map fun tag => (tag.index - span.streamIndex, tag.map), tag.2.2 = false := by
      intro tag ht
      obtain ⟨present, hp, rfl⟩ := List.mem_map.mp ht
      exact hpresent present hp
    rw [htags, List.nil_append, fromInputs, List.filter_map]
    have hmerged := mergedByIndex_filter (lastOffset span) hoffsets hforwarded
    rw [show ((fun tag : Tag (μ × Bool) => tag.map.2) ∘ placed (marked P) span.streamIndex) = (·.2.2) from rfl, hmerged,
      List.map_map]
    rfl

/-! ### The tags of a window -/

/-- The inputs whose tags are handed on. -/
def streams (inputs : List (Input μ)) : List (Input μ) := inputs.filter fun port => port.isSync && port.isConnected

def live (inputs : List (Input μ)) : List (Tag μ) := (streams inputs).flatMap (·.tags)

/-- The tags before the input index `limit`. -/
def window (limit : Nat) (inputs : List (Input μ)) : List (Tag μ) :=
  (streams inputs).flatMap fun port => port.tags.takeWhile (·.index < limit)

/-- An input has been read up to an index, and its tags are ahead of it. -/
structure Stands (read : Nat) (port : Input (μ × Bool)) : Prop where
  position : port.position = read
  inOrder : InOrder port.tags
  ahead : ∀ tag ∈ port.tags, read ≤ tag.index
  marks : ∀ tag ∈ port.tags, tag.map.2 = true

omit [DecidableEq μ] in
theorem mem_streams {inputs : List (Input μ)} {port : Input μ} :
    port ∈ streams inputs ↔ port ∈ inputs ∧ port.isSync = true ∧ port.isConnected = true := by
  rw [streams, List.mem_filter, Bool.and_eq_true]

omit [DecidableEq μ] in
theorem mem_window {inputs : List (Input μ)} {limit : Nat} {tag : Tag μ} (h : tag ∈ window limit inputs) :
    tag ∈ live inputs ∧ tag.index < limit := by
  obtain ⟨port, hport, ht⟩ := List.mem_flatMap.mp h
  exact ⟨List.mem_flatMap.mpr ⟨port, hport, (List.takeWhile_sublist _).mem ht⟩, by simpa using List.mem_takeWhile_imp ht⟩

variable {inputs : List (Input (μ × Bool))} {read write n : Nat}

omit [DecidableEq μ] in
theorem mem_live (h : ∀ port ∈ streams inputs, Stands read port) {tag : Tag (μ × Bool)} (ht : tag ∈ live inputs) :
    read ≤ tag.index ∧ tag.map.2 = true := by
  obtain ⟨port, hport, ht⟩ := List.mem_flatMap.mp ht
  exact ⟨(h port hport).ahead tag ht, (h port hport).marks tag ht⟩

omit [DecidableEq μ] in
/-- A span of `n` samples holds the tags of the window. -/
theorem tags_get_eq (h : ∀ port ∈ streams inputs, Stands read port) (n : Nat) :
    ((inputs.map (·.get n)).filter fun span => span.isSync && span.isConnected).flatMap (·.tags n) =
      (window (read + n) inputs).map fun tag => ((tag.index : Int) - read, tag.map) := by
  rw [List.filter_map, List.flatMap_map, window, List.map_flatMap]
  refine List.flatMap_congr fun port hport => ?_
  have hposition := (h port hport).position
  unfold InputSpan.tags Input.get
  rw [hposition, List.takeWhile_takeWhile]
  simp only [and_self, Bool.decide_eq_true]

omit [DecidableEq μ] in
/-- The index that the forwarder gives a tag of the window does not depend on where the window begins. -/
theorem collect_placed (hforward : c.backwardTagPropagation = false)
    (hindex : ∀ r, outputIndexOf c chunks (read + r) = write + outputIndexOf c chunks r) {tag : Tag μ} (hread : read ≤ tag.index) :
    (collect P c chunks ((tag.index : Int) - read, tag.map)).map (placed P write) = leaves P (outputIndexOf c chunks) tag := by
  have hoffset : (max 0 ((tag.index : Int) - read)).toNat = tag.index - read := by omega
  have hplace := hindex (tag.index - read)
  rw [Nat.add_sub_cancel' hread] at hplace
  unfold collect leaves
  dsimp only
  split
  · rfl
  · rw [Option.map_some, placed, hoffset, hforward, hplace]
    rfl

/-- What is forwarded are the tags of the window, alike ones of several input ports at least once. -/
theorem forwardedTags_delivers (P : PropertyMap μ) (c : Arguments) (chunks : Nat × Nat) (h : ∀ port ∈ streams inputs, Stands read port) (n : Nat) :
    Delivers (c.nInputPorts ≤ 1) (collect (marked P) c chunks)
      ((window (read + n) inputs).map fun tag => ((tag.index : Int) - read, tag.map))
      (forwardedTags (marked P) c chunks (inputs.map (·.get n)) n) := by
  unfold forwardedTags
  rw [tags_get_eq h]
  dsimp only
  split
  · exact .refl ..
  · next hports =>
    exact .of_sublist hports (deduplicate_sublist [] _)
      (fun tag ht => (mem_deduplicate_of_mem ht).resolve_left List.not_mem_nil) (List.mergeSort_perm _ _)

theorem isMarked_forwardedTags (h : ∀ port ∈ streams inputs, Stands read port) {n : Nat} {tag : Nat × (μ × Bool)}
    (ht : tag ∈ forwardedTags (marked P) c chunks (inputs.map (·.get n)) n) : tag.2.2 = true := by
  have hmem := (forwardedTags_delivers P c chunks h n).once.subset ht
  rw [List.filterMap_map] at hmem
  obtain ⟨tag', ht', hcollect⟩ := List.mem_filterMap.mp hmem
  have hmark := (mem_live h (mem_window ht').1).2
  unfold Function.comp collect at hcollect
  dsimp only at hcollect
  split at hcollect
  · cases hcollect
  · rw [← Option.some.inj hcollect]
    exact hmark

/-! ### Taking samples from the inputs -/

omit [DecidableEq μ] in
theorem live_same (inputs : List (Input μ)) (limit : Nat) :
    Same (inputs.length ≤ 1) (live inputs)
      (window limit inputs ++ (streams inputs).flatMap fun port => port.tags.dropWhile (·.index < limit)) := by
  have hsplit : live inputs = (streams inputs).flatMap fun port =>
      port.tags.takeWhile (·.index < limit) ++ port.tags.dropWhile (·.index < limit) :=
    List.flatMap_congr fun port _ => List.takeWhile_append_dropWhile.symm
  refine ⟨?_, fun hlen => ?_⟩
  · rw [hsplit]
    exact (List.flatMap_append_perm _ _ _).symm
  · rw [hsplit, window]
    have hstreams : (streams inputs).length ≤ 1 := (List.length_filter_le _ _).trans hlen
    match streams inputs, hstreams with
    | [], _ => rfl
    | [port], _ => simp only [List.flatMap_cons, List.flatMap_nil, List.append_nil]

omit [DecidableEq μ] in
theorem streams_map {f : Input μ → Input μ} (hf : ∀ port, (f port).isSync = port.isSync ∧ (f port).isConnected = port.isConnected)
    (inputs : List (Input μ)) : streams (inputs.map f) = (streams inputs).map f := by
  rw [streams, List.filter_map]
  congr 1
  refine List.filter_congr fun port _ => ?_
  rw [Function.comp, (hf port).1, (hf port).2]

omit [DecidableEq μ] in
theorem consume_flags (port : Input μ) (nSamples nTagSamples : Nat) :
    (port.consume nSamples nTagSamples).isSync = port.isSync ∧
      (port.consume nSamples nTagSamples).isConnected = port.isConnected := by
  unfold Input.consume
  split <;> exact ⟨rfl, rfl⟩

omit [DecidableEq μ] in
theorem consume_eq {port : Input (μ × Bool)} {nSamples nTagSamples : Nat} (hstands : Stands read port)
    (hport : port.isSync = true ∧ port.isConnected = true) : port.consume nSamples nTagSamples =
      { port with position := read + nSamples, tags := port.tags.dropWhile (·.index < read + nTagSamples) } := by
  rw [Input.consume, if_pos hport, hstands.position]

omit [DecidableEq μ] in
theorem le_of_mem_dropWhile {tags : List (Tag μ)} (h : InOrder tags) {limit : Nat} {tag : Tag μ}
    (ht : tag ∈ tags.dropWhile (·.index < limit)) : limit ≤ tag.index := by
  induction tags with
  | nil => cases ht
  | cons head tags ih =>
    obtain ⟨hhead, h⟩ := List.pairwise_cons.mp h
    by_cases hlt : head.index < limit
    · rw [List.dropWhile_cons_of_pos (by simpa using hlt)] at ht
      exact ih h ht
    · rw [List.dropWhile_cons_of_neg (by simpa using hlt)] at ht
      rcases List.mem_cons.mp ht with rfl | ht
      · exact Nat.le_of_not_lt hlt
      · exact (Nat.le_of_not_lt hlt).trans (hhead tag ht)

omit [DecidableEq μ] in
/-- The tags up to the new read position are given up. -/
theorem Stands.consume {port : Input (μ × Bool)} (h : Stands read port) (hport : port.isSync = true ∧ port.isConnected = true)
    {nSamples nTagSamples : Nat} (hle : nSamples ≤ nTagSamples) :
    Stands (read + nSamples) (port.consume nSamples nTagSamples) := by
  rw [consume_eq h hport]
  refine ⟨rfl, h.inOrder.sublist (List.dropWhile_sublist _), fun tag ht => ?_, fun tag ht => ?_⟩
  · have := le_of_mem_dropWhile h.inOrder ht
    omega
  · exact h.marks tag ((List.dropWhile_sublist _).mem ht)

omit [DecidableEq μ] in
theorem stands_consume (h : ∀ port ∈ streams inputs, Stands read port) {nSamples nTagSamples : Nat}
    (hle : nSamples ≤ nTagSamples) :
    ∀ port ∈ streams (inputs.map (·.consume nSamples nTagSamples)), Stands (read + nSamples) port := by
  rw [streams_map (consume_flags · nSamples nTagSamples)]
  intro port hport
  obtain ⟨before, hbefore, rfl⟩ := List.mem_map.mp hport
  exact (h before hbefore).consume (mem_streams.mp hbefore).2 hle

omit [DecidableEq μ] in
/-- The tags of the window leave the inputs, and the others stay. -/
theorem live_consume (h : ∀ port ∈ streams inputs, Stands read port) (nSamples nTagSamples : Nat) :
    Same (inputs.length ≤ 1) (live inputs)
      (window (read + nTagSamples) inputs ++ live (inputs.map (·.consume nSamples nTagSamples))) := by
  have hlive : live (inputs.map (·.consume nSamples nTagSamples)) =
      (streams inputs).flatMap fun port => port.tags.dropWhile (·.index < read + nTagSamples) := by
    rw [live, streams_map (consume_flags · nSamples nTagSamples), List.flatMap_map]
    refine List.flatMap_congr fun port hport => ?_
    rw [consume_eq (h port hport) (mem_streams.mp hport).2]
  rw [hlive]
  exact live_same inputs (read + nTagSamples)

end

/-! ### The sizes of a chunk -/

/-- A block that places its tags where their samples leave. -/
structure Aligned (μ ω : Type) (c : Arguments) (chunks : Nat × Nat) : Prop where
  propagates : c.noTagPropagation = false
  forward : c.backwardTagPropagation = false
  noStride : c.stride = false
  window : c.hasWholeChunkTagWindow = true
  index : ∀ m r, outputIndexOf c chunks (m * chunks.1 + r) = m * chunks.2 + outputIndexOf c chunks r
  within : ∀ n r, r ≤ n * chunks.1 → outputIndexOf c chunks r ≤ n * chunks.2
  publishes : c.mapsTagsByChunkRatio = true ∨ 0 < chunks.2
  whole : ∀ call : Process (μ × Bool) ω, ∃ n, (call.resampled c chunks).resampledIn = n * chunks.1 ∧
    (call.resampled c chunks).resampledOut = n * chunks.2 ∧ (n * chunks.1 = 0 → n = 0)

theorem Aligned.of_keepsTagOffsets (h : c.keepsTagOffsets = true) : Aligned μ ω c (1, 1) := by
  have hwindow : c.hasWholeChunkTagWindow = true := by simp [Arguments.hasWholeChunkTagWindow, h]
  simp only [Arguments.keepsTagOffsets, Bool.and_eq_true, Bool.not_eq_true'] at h
  obtain ⟨⟨⟨⟨hresampling, hstride⟩, -⟩, hpropagates⟩, hforward⟩ := h
  refine ⟨hpropagates, hforward, hstride, hwindow, fun m r => ?_, fun n r hr => ?_, Or.inr Nat.one_pos, fun call => ?_⟩
  · simp [outputIndexOf, hresampling]
  · simp only [outputIndexOf, hresampling]
    simpa using hr
  · refine ⟨(call.resampled c (1, 1)).resampledIn, (Nat.mul_one _).symm, ?_, fun h => by rwa [Nat.mul_one] at h⟩
    rw [Nat.mul_one]
    exact WorkSize.computeResampling_eq hresampling

theorem Aligned.of_resampling (h : c.resampling = true) (hstride : c.stride = false) (hpropagates : c.noTagPropagation = false)
    (hforward : c.backwardTagPropagation = false) (hchunk : 0 < chunks.1) : Aligned μ ω c chunks := by
  have hne : ¬ chunks.1 = 0 := hchunk.ne'
  have hindex : ∀ i, outputIndexOf c chunks i = i * chunks.2 / chunks.1 := fun i => by
    rw [outputIndexOf, if_pos h, if_neg hne]
  refine ⟨hpropagates, hforward, hstride, ?_, fun m r => ?_, fun n r hr => ?_, Or.inl h, fun call => ?_⟩
  · simp [Arguments.hasWholeChunkTagWindow, Arguments.mapsTagsByChunkRatio, h]
  · rw [hindex, hindex, Nat.add_mul, Nat.mul_right_comm, Nat.mul_comm (m * chunks.2), Nat.mul_add_div hchunk]
  · rw [hindex]
    refine Nat.div_le_of_le_mul ?_
    calc r * chunks.2 ≤ n * chunks.1 * chunks.2 := Nat.mul_le_mul_right _ hr
      _ = chunks.1 * (n * chunks.2) := by rw [Nat.mul_comm n, Nat.mul_assoc]
  · obtain ⟨n, hin, hout⟩ := WorkSize.computeResampling_chunks
      (c := ⟨c.resampling, c.stride, chunks.1, chunks.2, call.sizes.stride⟩) h
    exact ⟨n, hin, hout, fun hzero => (Nat.mul_eq_zero.mp hzero).resolve_right hne⟩

/-- A call consumes `nIn` samples of each input and publishes `nOut` on each output. -/
structure Process.Takes [Fintype ω] (c : Arguments) (chunks : Nat × Nat) (s : State (μ × Bool) ω) (call : Process (μ × Bool) ω)
    (nIn nOut : Nat) : Prop where
  consumed : ∀ k, call.nConsumed c chunks s.inputs k = nIn
  processedOut : call.processedOut c chunks s.outputs = nOut
  published : ∀ o, (call.choice.published o).getD nOut = nOut
  isDone : call.isDone = false

theorem Process.Whole.takes [Fintype ω] {s : State (μ × Bool) ω} {call : Process (μ × Bool) ω} (h : call.Whole c chunks)
    (hstride : call.strideToConsume = 0) :
    call.Takes c chunks s (call.resampled c chunks).resampledIn (call.resampled c chunks).resampledOut ∨
      call.Takes c chunks s 0 0 := by
  obtain ⟨⟨hstatus, hconsumed, hpublished⟩ | ⟨hstatus, hconsumed, hpublished⟩, hrunning, -, -⟩ := h
  · refine Or.inl ⟨fun k => ?_, ?_, hpublished, ?_⟩
    · have hin : call.processedIn c chunks s.inputs = (call.resampled c chunks).resampledIn := by
        rw [Process.processedIn, if_neg (by simp [Process.refused, hstatus, hrunning])]
        refine List.foldl_fixed' (fun port => ?_) _
        rw [hconsumed, min_self, ite_self]
      have hk := hconsumed k
      unfold Process.nConsumed
      cases hchoice : call.choice.consumed k with
      | some n => rwa [hchoice] at hk
      | none =>
        dsimp only
        rw [hin, hstride]
        split
        · next hzero => exact hzero.symm
        · rfl
    · rw [Process.processedOut, if_neg (by simp [Process.refused, hstatus])]
      refine le_antisymm ((Finset.fold_min_le _).mpr (Or.inl le_rfl)) ((Finset.le_fold_min _).mpr ⟨le_rfl, fun o _ => ?_⟩)
      rw [hpublished, ite_self]
    · simp [Process.isDone, hstatus, hrunning]
  · have hrefused : call.refused = true := by simp [Process.refused, hstatus]
    refine Or.inr ⟨fun k => ?_, ?_, hpublished, ?_⟩
    · have hk := hconsumed k
      unfold Process.nConsumed
      cases hchoice : call.choice.consumed k with
      | some n => rwa [hchoice] at hk
      | none => exact if_pos (if_pos (by simp [hrefused]))
    · exact if_pos hrefused
    · simp [Process.isDone, hstatus, hrunning]

/-! ### The span of a chunk -/

/-- A span that holds no tag of the inputs. -/
def Own (span : OutputSpan (μ × Bool)) : Prop := ∀ tag ∈ span.tags, tag.map.2 = false

section

variable {span : OutputSpan (μ × Bool)} {map : μ × Bool}

theorem Own.publishTag (h : Own span) (hmap : map.2 = false) (k : Nat) : Own (span.publishTag (marked P) map k) := by
  obtain htags | htags := (publishTag_publishes (marked P) map k span).tags
  · rwa [Own, htags]
  · intro tag ht
    rw [htags] at ht
    rcases List.mem_append.mp ht with ht | ht
    · exact h tag ht
    · rw [List.mem_singleton.mp ht]
      exact hmap

theorem Own.publishAll (h : Own span) {tags : List (Nat × (μ × Bool))} (htags : ∀ tag ∈ tags, tag.2.2 = false) :
    Own (span.publishAll (marked P) tags) := by
  induction tags generalizing span with
  | nil => exact h
  | cons tag tags ih =>
    exact ih (h.publishTag (htags tag (.head _)) tag.1) fun tag ht => htags tag (.tail _ ht)

theorem Own.publishPending (h : Own span) (hmap : map.2 = false) : Own (publishPending (marked P) map span) := by
  unfold OutputTags.publishPending
  split
  · exact h
  · exact h.publishTag hmap _

theorem Own.published (h : Own span) (processedOut : Nat) : Own (published processedOut span) := by
  have hclear : Own (if processedOut = 0 then { span with tags := [] } else span) := by
    split
    · exact fun tag ht => by cases ht
    · exact h
  unfold ProcessBulk.published OutputSpan.publishSamples
  split <;> exact hclear

end

section

variable [DecidableEq μ] {s : State (μ × Bool) ω} {call : Process (μ × Bool) ω} {o : ω} {read write n nIn nOut : Nat}

/-- No tag of `n` chunks is placed past them. -/
theorem offset_le (haligned : Aligned μ ω c chunks) {tag : Nat × (μ × Bool)}
    (ht : tag ∈ forwardedTags (marked P) c chunks (s.inputs.map (·.get (n * chunks.1))) (n * chunks.1)) :
    tag.1 ≤ n * chunks.2 := by
  obtain ⟨span, -, -, -, present, hpresent, hlt, -, hoffset⟩ := mem_forwardedTags ht
  rw [hoffset, haligned.forward]
  exact haligned.within n _ (by omega)

/-- The forwarder finds nothing in an empty window. -/
theorem forwardedTags_eq_nil (hstands : ∀ port ∈ streams s.inputs, Stands read port) (n : Nat)
    (hwindow : window (read + n) s.inputs = []) : forwardedTags (marked P) c chunks (s.inputs.map (·.get n)) n = [] := by
  have hdelivers := (forwardedTags_delivers P c chunks hstands n).once
  rw [hwindow] at hdelivers
  exact List.subperm_nil.mp hdelivers

/-- The forwarder puts the tags of `n` chunks at their offsets in a span of `n` chunks. -/
theorem fromInputs_forwarded (haligned : Aligned μ ω c chunks)
    (hstands : ∀ port ∈ streams s.inputs, Stands read port) {span : OutputSpan (μ × Bool)} (hconnected : span.isConnected = true)
    (hown : Own span) (hlast : lastOffset span = n * chunks.2)
    (hfits : (forwardInputTags (marked P) c chunks (s.inputs.map (·.get (n * chunks.1))) (n * chunks.1) none span).tagsDropped = 0) :
    fromInputs (forwardInputTags (marked P) c chunks (s.inputs.map (·.get (n * chunks.1))) (n * chunks.1) none span).tags =
      (forwardedTags (marked P) c chunks (s.inputs.map (·.get (n * chunks.1))) (n * chunks.1)).map
        (placed (marked P) span.streamIndex) := by
  have hforwarded := fromInputs_forwardInputTags haligned.propagates hconnected hown hfits
  rw [Option.getD_none, if_pos haligned.window] at hforwarded
  rw [hforwarded fun tag ht => isMarked_forwardedTags hstands ht]
  refine List.map_congr_left fun tag ht => ?_
  rw [hlast, min_eq_left (offset_le haligned ht)]

variable [Fintype ω]

/-- What `processBulk()` leaves in the span. -/
theorem chunkSpan_eq (htakes : call.Takes c chunks s nIn nOut) (o : ω) :
    chunkSpan (marked P) c s chunks call o = forwardAfter (marked P) c chunks
      (s.inputs.map (·.get (call.resampled c chunks).resampledIn)) (call.consumedIn c chunks s.inputs) call.changedForward
      (published nOut (invokeProcessBulk (marked P) call.choice o (forwardBefore (marked P) c s chunks call o))) := by
  unfold chunkSpan finaliseSpan
  dsimp only
  rw [htakes.processedOut, if_neg (by simp [htakes.isDone])]
  rfl

theorem frames_chunkSpan (htakes : call.Takes c chunks s nIn nOut) (hsync : (s.outputs o).isSync = true) :
    Frames (s.outputs o) (some nOut) (chunkSpan (marked P) c s chunks call o) := by
  rw [chunkSpan_eq htakes]
  exact frames_forwardAfter (frames_published hsync (htakes.published o)) _ _

omit [DecidableEq μ] in
/-- All connected synchronous inputs consume alike. -/
theorem consumedIn_eq (htakes : call.Takes c chunks s nIn nOut) :
    call.consumedIn c chunks s.inputs = some nIn ∨ call.consumedIn c chunks s.inputs = none ∧ streams s.inputs = [] := by
  cases hconsumed : call.consumedIn c chunks s.inputs with
  | some m =>
    obtain ⟨port, -, hport⟩ := List.mem_filterMap.mp (List.min?_mem hconsumed)
    split at hport
    · rw [htakes.consumed] at hport
      exact Or.inl hport.symm
    · cases hport
  | none =>
    refine Or.inr ⟨rfl, List.eq_nil_iff_forall_not_mem.mpr fun port hport => ?_⟩
    obtain ⟨hmem, hsync, hconnected⟩ := mem_streams.mp hport
    obtain ⟨k, hk⟩ := List.mem_iff_getElem?.mp hmem
    have hnil := List.filterMap_eq_nil_iff.mp (List.min?_eq_none_iff.mp hconsumed) (port, k)
      (List.mem_zipIdx_iff_getElem?.mpr hk)
    rw [hsync, hconnected] at hnil
    cases hnil

/-- Without a chunk ratio the tags are handed on before `processBulk()`. -/
theorem fromInputs_before (haligned : Aligned μ ω c chunks)
    (hstands : ∀ port ∈ streams s.inputs, Stands read port) (hpending : s.pendingForwardParams.2 = false)
    (htakes : call.Takes c chunks s nIn (n * chunks.2)) (hn : n ≠ 0)
    (hsizes : (call.resampled c chunks).resampledIn = n * chunks.1 ∧ (call.resampled c chunks).resampledOut = n * chunks.2)
    (hown : ∀ tag ∈ call.choice.tags o, tag.2.2 = false) (hratio : c.mapsTagsByChunkRatio = false)
    (hconnected : (s.outputs o).isConnected = true) (hsync : (s.outputs o).isSync = true)
    (hfits : (chunkSpan (marked P) c s chunks call o).tagsDropped = 0) :
    fromInputs (chunkSpan (marked P) c s chunks call o).tags =
      (forwardedTags (marked P) c chunks (s.inputs.map (·.get (n * chunks.1))) (n * chunks.1)).map
        (placed (marked P) (s.outputs o).position) := by
  have hne : n * chunks.2 ≠ 0 := Nat.mul_ne_zero hn (haligned.publishes.resolve_left (by simp [hratio])).ne'
  rw [chunkSpan_eq htakes, forwardAfter_eq_self hratio] at hfits ⊢
  obtain ⟨pending, hbefore, hmaps⟩ := forwardBefore_adds (marked P) s chunks call hratio o
  have hadds := (hbefore.trans (invokeProcessBulk_adds (P := marked P) call.choice o _)).trans (published_adds hne _)
  have hnone : ∀ tag ∈ pending ++ (call.choice.tags o).map (placed (marked P) (forwardBefore (marked P) c s chunks call o).streamIndex)
      ++ [], tag.map.2 = false := by
    intro tag ht
    rw [List.append_nil] at ht
    rcases List.mem_append.mp ht with ht | ht
    · rw [hmaps tag ht]
      exact hpending
    · obtain ⟨own, hmem, rfl⟩ := List.mem_map.mp ht
      exact hown own hmem
  rw [hsizes.1, hsizes.2] at hadds
  have hopen : ((s.outputs o).tryReserve (n * chunks.2) (call.free.samples o) (call.free.tags o)).isConnected = true := hconnected
  have hopen' := (forwardInputTags_frame (marked P) c chunks (s.inputs.map (·.get (n * chunks.1))) (n * chunks.1) none
    ((s.outputs o).tryReserve (n * chunks.2) (call.free.samples o) (call.free.tags o))).2.trans hopen
  rw [hadds.fromInputs_eq hnone hopen' hfits]
  refine fromInputs_forwarded haligned hstands hopen (fun tag ht => by cases ht) ?_ (hadds.tags hopen' hfits).1
  exact if_pos hsync

/-- With one they are handed on after it. -/
theorem fromInputs_after (haligned : Aligned μ ω c chunks)
    (hstands : ∀ port ∈ streams s.inputs, Stands read port) (hpending : s.pendingForwardParams.2 = false)
    (htakes : call.Takes c chunks s (n * chunks.1) (n * chunks.2)) (hn : n * chunks.1 ≠ 0)
    (hsizes : (call.resampled c chunks).resampledIn = n * chunks.1 ∧ (call.resampled c chunks).resampledOut = n * chunks.2)
    (hown : ∀ tag ∈ call.choice.tags o, tag.2.2 = false) (hchanged : call.changedForward.2 = false)
    (hratio : c.mapsTagsByChunkRatio = true)
    (hconnected : (s.outputs o).isConnected = true) (hsync : (s.outputs o).isSync = true)
    (hfits : (chunkSpan (marked P) c s chunks call o).tagsDropped = 0) :
    fromInputs (chunkSpan (marked P) c s chunks call o).tags =
      (forwardedTags (marked P) c chunks (s.inputs.map (·.get (n * chunks.1))) (n * chunks.1)).map
        (placed (marked P) (s.outputs o).position) := by
  let base := published (n * chunks.2) (invokeProcessBulk (marked P) call.choice o (forwardBefore (marked P) c s chunks call o))
  have hbase : Own base := by
    have hreserved : forwardBefore (marked P) c s chunks call o = publishPending (marked P) s.pendingForwardParams
        ((s.outputs o).tryReserve (call.resampled c chunks).resampledOut (call.free.samples o) (call.free.tags o)) :=
      congrArg (publishPending (marked P) s.pendingForwardParams) (if_pos hratio)
    have hbefore : Own (forwardBefore (marked P) c s chunks call o) := by
      rw [hreserved]
      exact Own.publishPending (fun tag ht => by cases ht) hpending
    have hinvoke : Own (invokeProcessBulk (marked P) call.choice o (forwardBefore (marked P) c s chunks call o)) :=
      fun tag ht => hbefore.publishAll hown tag ht
    exact hinvoke.published _
  have hframes : Frames (s.outputs o) (some (n * chunks.2)) base := frames_published hsync (htakes.published o)
  have hopen : base.isConnected = true := by
    obtain ⟨pending, hreserved, -⟩ := forwardBefore_adds_ratio (marked P) s chunks call hratio o
    exact (published_frame _ _).2.trans ((hreserved.trans (invokeProcessBulk_adds (P := marked P) call.choice o _)).isConnected.trans hconnected)
  rw [chunkSpan_eq htakes, hsizes.1] at hfits ⊢
  rcases consumedIn_eq htakes with hconsumed | ⟨hconsumed, hnone⟩
  · rw [hconsumed] at hfits ⊢
    obtain ⟨changed, hadds, hmaps⟩ := forwardAfter_adds (marked P) chunks (s.inputs.map (·.get (n * chunks.1))) hratio hn call.changedForward base
    have hunmarked : ∀ tag ∈ changed, tag.map.2 = false := fun tag ht => by
      rw [hmaps tag ht, if_neg (by simp [haligned.propagates])]
      exact hchanged
    have hopen' := (forwardInputTags_frame (marked P) c chunks (s.inputs.map (·.get (n * chunks.1))) (n * chunks.1) none
      base).2.trans hopen
    rw [hadds.fromInputs_eq hunmarked hopen' hfits, ← hframes.streamIndex]
    refine fromInputs_forwarded haligned hstands hopen hbase ?_ (hadds.tags hopen' hfits).1
    rw [lastOffset, hframes.requested, Option.getD_some]
  · -- no input has tags
    rw [hconsumed, forwardAfter, if_neg (by simp), forwardedTags_eq_nil hstands _ (by rw [window, hnone]; rfl)]
    exact fromInputs_eq_nil hbase

end

/-! ### A run -/

/-- An output after `m` chunks, with the tags that have been taken. -/
structure Holds (ordered : Prop) (P : PropertyMap μ) (c : Arguments) (chunks : Nat × Nat) (m : Nat)
    (taken : List (Tag (μ × Bool))) (out : Output (μ × Bool)) : Prop where
  position : out.position = m * chunks.2
  inOrder : InOrder (handedOn out)
  before : ∀ tag ∈ handedOn out, tag.index ≤ m * chunks.2
  delivers : Delivers ordered (leaves (marked P) (outputIndexOf c chunks)) taken (handedOn out)

/-- After `m` chunks the tags that have arrived are taken or wait on the inputs. -/
structure Taken (P : PropertyMap μ) (c : Arguments) (chunks : Nat × Nat) (arrived : List (Tag (μ × Bool))) (m : Nat)
    (taken : List (Tag (μ × Bool))) (s : State (μ × Bool) ω) : Prop where
  ports : c.nInputPorts ≤ 1 ↔ s.inputs.length ≤ 1
  stands : ∀ port ∈ streams s.inputs, Stands (m * chunks.1) port
  pending : s.pendingForwardParams.2 = false
  arrived : Same (s.inputs.length ≤ 1) arrived (taken ++ live s.inputs)
  before : ∀ tag ∈ taken, tag.index < m * chunks.1
  outputs : ∀ o, (s.outputs o).isSync = true → (s.outputs o).isConnected = true →
    Holds (s.inputs.length ≤ 1) P c chunks m taken (s.outputs o)

section

variable {s t : State (μ × Bool) ω} {m n : Nat} {arrived taken : List (Tag (μ × Bool))}

theorem live_cons (port : Input μ) (inputs : List (Input μ)) :
    live (port :: inputs) = (if port.isSync && port.isConnected then port.tags else []) ++ live inputs := by
  unfold live streams
  rw [List.filter_cons]
  split <;> rfl

/-- A tag arrives. -/
theorem live_modify (inputs : List (Input μ)) (input : Nat) (tag : Tag μ) :
    Same (inputs.length ≤ 1) (live (inputs.modify input fun port => { port with tags := port.tags ++ [tag] }))
      (live inputs ++ if inputs[input]?.any fun port => port.isSync && port.isConnected then [tag] else []) := by
  constructor
  · induction inputs generalizing input with
    | nil =>
      rw [List.modify_nil]
      exact .refl _
    | cons port inputs ih =>
      cases input with
      | zero =>
        rw [List.modify_zero_cons, live_cons, live_cons, List.getElem?_cons_zero, Option.any_some]
        by_cases hport : (port.isSync && port.isConnected) = true
        · rw [if_pos hport, if_pos hport, if_pos hport, List.append_assoc, List.append_assoc]
          exact List.perm_append_comm.append_left port.tags
        · rw [if_neg hport, if_neg hport, if_neg hport, List.append_nil]
      | succ input =>
        rw [List.modify_succ_cons, live_cons, live_cons, List.getElem?_cons_succ, List.append_assoc]
        exact (ih input).append_left _
  · intro hlen
    match inputs, hlen with
    | [], _ => rw [List.modify_nil]; rfl
    | [port], _ =>
      cases input with
      | zero =>
        rw [List.modify_zero_cons, live_cons, live_cons, List.getElem?_cons_zero, Option.any_some]
        by_cases hport : (port.isSync && port.isConnected) = true
        · rw [if_pos hport, if_pos hport, if_pos hport, List.append_assoc, List.append_assoc]
          rfl
        · rw [if_neg hport, if_neg hport, if_neg hport, List.append_nil]
      | succ input =>
        rw [List.modify_succ_cons, List.modify_nil, List.getElem?_cons_succ, List.getElem?_nil, Option.any_none]
        exact (List.append_nil _).symm

theorem Stands.arrive {read : Nat} {port : Input (μ × Bool)} {tag : Tag (μ × Bool)} (h : Stands read port)
    (harrives : arrivesInOrder port tag) : Stands read { port with tags := port.tags ++ [tag] } := by
  obtain ⟨hmark, hread, hlast⟩ := harrives
  rw [h.position] at hread
  refine ⟨h.position, List.pairwise_append.mpr ⟨h.inOrder, List.pairwise_singleton _ _, fun present hp next hn => ?_⟩,
    fun present hp => ?_, fun present hp => ?_⟩
  · rw [List.mem_singleton.mp hn]
    exact hlast present hp
  · rcases List.mem_append.mp hp with hp | hp
    · exact h.ahead present hp
    · rw [List.mem_singleton.mp hp]
      exact hread
  · rcases List.mem_append.mp hp with hp | hp
    · exact h.marks present hp
    · rw [List.mem_singleton.mp hp]
      exact hmark

theorem Taken.arrive (h : Taken P c chunks arrived m taken s) {input : Nat} {tag : Tag (μ × Bool)}
    (hwhole : Whole c chunks s (.arrive input tag)) :
    Taken P c chunks (arrived ++ arrives s (.arrive input tag)) m taken
      { s with inputs := s.inputs.modify input fun port => { port with tags := port.tags ++ [tag] } } := by
  refine ⟨?_, fun port hport => ?_, h.pending, ?_, h.before, fun o hsync hconnected => ?_⟩
  · rw [List.length_modify]
    exact h.ports
  · obtain ⟨hmem, hsync, hconnected⟩ := mem_streams.mp hport
    obtain ⟨k, hk⟩ := List.mem_iff_getElem?.mp hmem
    rw [List.getElem?_modify] at hk
    obtain ⟨before, hbefore, rfl⟩ := Option.map_eq_some_iff.mp hk
    have hport' : before ∈ streams s.inputs := mem_streams.mpr ⟨List.mem_of_getElem? hbefore, by
      split at hsync <;> split at hconnected <;> exact ⟨hsync, hconnected⟩⟩
    split
    · next heq =>
      subst heq
      exact (h.stands before hport').arrive (hwhole before hbefore (mem_streams.mp hport').2.1 (mem_streams.mp hport').2.2)
    · exact h.stands before hport'
  · rw [List.length_modify]
    refine (h.arrived.append_right _).trans ?_
    rw [List.append_assoc]
    have hlive := live_modify s.inputs input tag
    exact Same.append_left ⟨hlive.perm.symm, fun ho => (hlive.eq ho).symm⟩ taken
  · rw [List.length_modify]
    exact h.outputs o hsync hconnected

/-- The tags of `n` more chunks are added. -/
theorem Holds.add {ordered : Prop} {out : Output (μ × Bool)} (h : Holds ordered P c chunks m taken out)
    {span : OutputSpan (μ × Bool)} (hframes : Frames out (some (n * chunks.2)) span) {window : List (Tag (μ × Bool))}
    {forwarded : List (Nat × (μ × Bool))} (htags : fromInputs span.tags = forwarded.map (placed (marked P) out.position))
    (hinOrder : OffsetsInOrder forwarded) (hwithin : ∀ tag ∈ forwarded, tag.1 ≤ n * chunks.2)
    (hdelivers : Delivers ordered (leaves (marked P) (outputIndexOf c chunks)) window
      (forwarded.map (placed (marked P) out.position))) :
    Holds ordered P c chunks (m + n) (taken ++ window) (out.release span) := by
  have hring := handedOn_release out span
  rw [htags] at hring
  refine ⟨?_, ?_, fun tag ht => ?_, ?_⟩
  · rw [Output.release, hframes.requested, Option.getD_some, h.position, Nat.add_mul]
  · rw [hring]
    refine List.pairwise_append.mpr ⟨h.inOrder, ?_, fun tag ht next hn => ?_⟩
    · exact List.pairwise_map.mpr (hinOrder.imp fun hle => Nat.add_le_add_left hle _)
    · obtain ⟨tag', -, rfl⟩ := List.mem_map.mp hn
      have hle := h.before tag ht
      have hposition := h.position
      simp only [placed]
      omega
  · rw [hring] at ht
    rw [Nat.add_mul]
    rcases List.mem_append.mp ht with ht | ht
    · exact (h.before tag ht).trans (Nat.le_add_right _ _)
    · obtain ⟨tag', hmem, rfl⟩ := List.mem_map.mp ht
      have hle := hwithin tag' hmem
      have hposition := h.position
      simp only [placed]
      omega
  · rw [hring]
    exact h.delivers.append hdelivers

theorem Taken.start (hports : c.nInputPorts ≤ 1 ↔ s.inputs.length ≤ 1) (hbegins : Begins chunks s) :
    ∃ m, Taken P c chunks [] m [] s := by
  obtain ⟨m, hinputs, houtputs⟩ := hbegins.position
  refine ⟨m, hports, fun port hport => ?_, hbegins.pending, ?_, fun tag ht => (by cases ht), fun o hsync hconnected => ?_⟩
  · obtain ⟨hmem, hsync, hconnected⟩ := mem_streams.mp hport
    have htags := hbegins.tags port hmem
    refine ⟨hinputs port hmem hsync hconnected, ?_, fun tag ht => ?_, fun tag ht => ?_⟩
    · rw [htags]
      exact .nil
    · rw [htags] at ht
      cases ht
    · rw [htags] at ht
      cases ht
  · have hlive : live s.inputs = [] := List.flatMap_eq_nil_iff.mpr fun port hport => hbegins.tags port (mem_streams.mp hport).1
    rw [hlive]
    exact .refl _ _
  · have hring : handedOn (s.outputs o) = [] := by rw [handedOn, hbegins.rings o, List.filter_nil]
    refine ⟨houtputs o hsync hconnected, ?_, fun tag ht => ?_, ?_⟩
    · rw [hring]
      exact .nil
    · rw [hring] at ht
      cases ht
    · rw [hring]
      exact .nil

/-- The settings of a call publish nothing of the inputs. -/
theorem Taken.applyChangedSettings (h : Taken P c chunks arrived m taken s) {forwardParams : μ × Bool}
    (hparams : forwardParams.2 = false) :
    Taken P c chunks arrived m taken (s.applyChangedSettings (marked P) c forwardParams) := by
  unfold State.applyChangedSettings
  split
  · exact h
  · refine ⟨h.ports, h.stands, ?_, h.arrived, h.before, h.outputs⟩
    show (s.pendingForwardParams.2 || forwardParams.2) = false
    rw [h.pending, hparams, Bool.false_or]

variable [DecidableEq μ] [Fintype ω] {call : Process (μ × Bool) ω}

theorem process_pending (hpending : s.pendingForwardParams.2 = false) :
    (process (marked P) c s chunks call).pendingForwardParams.2 = false := by
  unfold process
  dsimp only
  split
  · rfl
  · exact hpending

theorem process_inputs {nIn nOut : Nat} (htakes : call.Takes c chunks s nIn nOut) (hwindow : c.hasWholeChunkTagWindow = true) :
    (process (marked P) c s chunks call).inputs = if nIn = 0 then s.inputs else s.inputs.map (·.consume nIn nIn) := by
  unfold process
  dsimp only
  refine List.ext_getElem? fun k => ?_
  rw [List.getElem?_mapIdx, htakes.consumed, hwindow, if_pos rfl]
  split
  · exact Option.map_id'
  · rw [List.getElem?_map]

/-- A call that takes no sample leaves all as it is. -/
theorem Taken.idle (h : Taken P c chunks arrived m taken s) (hwindow : c.hasWholeChunkTagWindow = true)
    (htakes : call.Takes c chunks s 0 0) : Taken P c chunks arrived m taken (process (marked P) c s chunks call) := by
  have hinputs := process_inputs (P := P) htakes hwindow
  rw [if_pos rfl] at hinputs
  refine ⟨?_, ?_, process_pending h.pending, ?_, h.before, fun o hsync hconnected => ?_⟩
  · rw [hinputs]
    exact h.ports
  · rw [hinputs]
    exact h.stands
  · rw [hinputs]
    exact h.arrived
  · have hspan : (chunkSpan (marked P) c s chunks call o).tags = [] := by
      have hzero : (call.consumedIn c chunks s.inputs).getD 0 = 0 := by
        rcases consumedIn_eq htakes with hconsumed | ⟨hconsumed, -⟩ <;> rw [hconsumed] <;> rfl
      rw [chunkSpan_eq htakes, forwardAfter, if_neg (by simp [hzero])]
      unfold published OutputSpan.publishSamples
      split <;> rfl
    rw [hinputs]
    have hframes := frames_chunkSpan (P := P) htakes hsync
    have hout : (process (marked P) c s chunks call).outputs o = s.outputs o := by
      show (s.outputs o).release (chunkSpan (marked P) c s chunks call o) = s.outputs o
      rw [Output.release, hframes.requested, hspan, Option.getD_some, Nat.add_zero, List.append_nil]
    rw [hout]
    exact h.outputs o hsync hconnected

theorem forwardedTags_streams_inOrder {inputs : List (Input (μ × Bool))} {read : Nat}
    (hports : c.nInputPorts ≤ 1 → inputs.length ≤ 1) (hstands : ∀ port ∈ streams inputs, Stands read port) (n : Nat) :
    OffsetsInOrder (forwardedTags (marked P) c chunks (inputs.map (·.get n)) n) := by
  refine forwardedTags_inOrder fun hone => spansInOrder_of_length ?_ fun span hspan hsync hconnected => ?_
  · rw [List.length_map]
    exact hports hone
  obtain ⟨port, hport, rfl⟩ := List.mem_map.mp hspan
  exact (hstands port (mem_streams.mpr ⟨hport, hsync, hconnected⟩)).inOrder.sublist (List.takeWhile_sublist _)

omit [Fintype ω] in
/-- The tags of a window leave at the indices of their samples. -/
theorem forwarded_delivers (haligned : Aligned μ ω c chunks) (hports : c.nInputPorts ≤ 1 ↔ s.inputs.length ≤ 1)
    (hstands : ∀ port ∈ streams s.inputs, Stands (m * chunks.1) port) (n : Nat) :
    Delivers (s.inputs.length ≤ 1) (leaves (marked P) (outputIndexOf c chunks)) (window (m * chunks.1 + n) s.inputs)
      ((forwardedTags (marked P) c chunks (s.inputs.map (·.get n)) n).map (placed (marked P) (m * chunks.2))) := by
  refine ((forwardedTags_delivers P c chunks hstands n).imp hports.mpr).map fun tag ht => ?_
  exact collect_placed haligned.forward (haligned.index m) (mem_live hstands (mem_window ht).1).1

/-- A call that takes `n` chunks hands on their tags. -/
theorem Taken.chunk (h : Taken P c chunks arrived m taken s) (haligned : Aligned μ ω c chunks)
    (htakes : call.Takes c chunks s (n * chunks.1) (n * chunks.2)) (hn : n ≠ 0) (hne : n * chunks.1 ≠ 0)
    (hsizes : (call.resampled c chunks).resampledIn = n * chunks.1 ∧ (call.resampled c chunks).resampledOut = n * chunks.2)
    (hown : ∀ o, ∀ tag ∈ call.choice.tags o, tag.2.2 = false) (hchanged : call.changedForward.2 = false)
    (hfits : ∀ o, (chunkSpan (marked P) c s chunks call o).tagsDropped = 0) :
    Taken P c chunks arrived (m + n) (taken ++ window ((m + n) * chunks.1) s.inputs)
      (process (marked P) c s chunks call) := by
  have hinputs := process_inputs (P := P) htakes haligned.window
  rw [if_neg hne] at hinputs
  have hread : (m + n) * chunks.1 = m * chunks.1 + n * chunks.1 := Nat.add_mul _ _ _
  refine ⟨?_, ?_, process_pending h.pending, ?_, fun tag ht => ?_, fun o hsync hconnected => ?_⟩
  · rw [hinputs, List.length_map]
    exact h.ports
  · rw [hinputs, hread]
    exact stands_consume h.stands le_rfl
  · rw [hinputs, List.length_map, List.append_assoc, hread]
    exact h.arrived.trans ((live_consume h.stands _ _).append_left taken)
  · rcases List.mem_append.mp ht with ht | ht
    · have := h.before tag ht
      omega
    · exact (mem_window ht).2
  · rw [hinputs, List.length_map, hread]
    have hout := h.outputs o hsync hconnected
    have htags : fromInputs (chunkSpan (marked P) c s chunks call o).tags =
        (forwardedTags (marked P) c chunks (s.inputs.map (·.get (n * chunks.1))) (n * chunks.1)).map
          (placed (marked P) (s.outputs o).position) := by
      cases hratio : c.mapsTagsByChunkRatio with
      | false =>
        exact fromInputs_before haligned h.stands h.pending htakes hn hsizes (hown o) hratio hconnected hsync (hfits o)
      | true =>
        exact fromInputs_after haligned h.stands h.pending htakes hne hsizes (hown o) hchanged hratio hconnected hsync (hfits o)
    refine hout.add (frames_chunkSpan htakes hsync) htags (forwardedTags_streams_inOrder h.ports.mp h.stands _)
      (fun tag ht => offset_le haligned ht) ?_
    rw [hout.position]
    exact forwarded_delivers haligned h.ports h.stands _

/-- A work call takes whole chunks or none. -/
theorem Taken.process (h : Taken P c chunks arrived m taken s) (haligned : Aligned μ ω c chunks)
    (hwhole : call.Whole c chunks) (hstride : call.strideToConsume = 0)
    (hfits : ∀ o, (chunkSpan (marked P) c s chunks call o).tagsDropped = 0) :
    ∃ m' taken', Taken P c chunks arrived m' taken' (process (marked P) c s chunks call) := by
  obtain ⟨n, hin, hout, hzero⟩ := haligned.whole call
  have hidle : call.Takes c chunks s 0 0 → ∃ m' taken', Taken P c chunks arrived m' taken' (ProcessBulk.process (marked P) c s chunks call) :=
    fun htakes => ⟨m, taken, h.idle haligned.window htakes⟩
  rcases hwhole.takes (s := s) hstride with htakes | htakes
  · rw [hin, hout] at htakes
    by_cases hn : n = 0
    · rw [hn, Nat.zero_mul, Nat.zero_mul] at htakes
      exact hidle htakes
    · exact ⟨_, _, h.chunk haligned htakes hn (fun h => hn (hzero h)) ⟨hin, hout⟩ hwhole.2.2.1 hwhole.2.2.2 hfits⟩
  · exact hidle htakes

omit [Fintype ω] in
theorem prepared_eq (hstride : c.stride = false) {call : Call (μ × Bool) ω} (hskip : call.skip.isNone ∨ c.stride) :
    prepared (marked P) c s call = s.applyChangedSettings (marked P) c call.forwardParams := by
  have hnone : call.skip = none := Option.isNone_iff_eq_none.mp (hskip.resolve_right (by simp [hstride]))
  unfold prepared
  rw [hnone]
  rfl

/-- What a step keeps. -/
theorem Taken.step (h : Taken P c chunks arrived m taken s) (haligned : Aligned μ ω c chunks)
    {a : Act (μ × Bool) ω} (hwhole : Whole c chunks s a) (hfits : Fits (marked P) c s a)
    (hs : step (marked P) c s a = some t) : ∃ m' taken', Taken P c chunks (arrived ++ arrives s a) m' taken' t := by
  cases a with
  | arrive input tag =>
    cases hs
    exact ⟨m, taken, h.arrive hwhole⟩
  | work call =>
    unfold ProcessBulk.step at hs
    dsimp only at hs
    split at hs
    · next hallowed =>
      obtain ⟨hchunks, hparams, hcall⟩ := hwhole
      obtain ⟨-, hfits⟩ := hfits
      cases hs
      have hprepared := prepared_eq (P := P) (s := s) haligned.noStride hallowed.1
      have htaken := h.applyChangedSettings hparams
      rw [← hprepared] at htaken
      rw [arrives, List.append_nil]
      unfold workInternal
      cases houtcome : call.outcome with
      | returns => exact ⟨m, taken, htaken⟩
      | process process =>
        rw [houtcome, hchunks] at hfits
        rw [houtcome] at hcall
        have hallowed := hallowed.2
        rw [houtcome] at hallowed
        dsimp only
        rw [hchunks]
        exact htaken.process haligned hcall (hallowed.2.2.1.resolve_right (by simp [haligned.noStride])) hfits
      | endOfStream endOfStream =>
        rw [houtcome] at hcall
        exact hcall.elim
    · cases hs

/-- A run takes whole chunks. -/
theorem Taken.run (haligned : Aligned μ ω c chunks) {start : State (μ × Bool) ω}
    (hports : c.nInputPorts ≤ 1 ↔ start.inputs.length ≤ 1) (hbegins : Begins chunks start)
    (h : (system (marked P) c start).Trace (fun s a => Whole c chunks s a ∧ Fits (marked P) c s a) arrives arrived s) :
    ∃ m taken, Taken P c chunks arrived m taken s := by
  induction h with
  | start hs =>
    cases hs
    obtain ⟨m, htaken⟩ := Taken.start hports hbegins
    exact ⟨m, [], htaken⟩
  | step _ hok hs ih =>
    obtain ⟨m, taken, htaken⟩ := ih
    exact htaken.step haligned hok.1 hok.2 hs

end

end GnuRadio.ProcessBulk
