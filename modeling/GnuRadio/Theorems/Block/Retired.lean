import GnuRadio.Theorems.Block.BulkSpans

/-! What a work call retires from its inputs it has put on its outputs. -/

namespace GnuRadio.ProcessBulk

open OutputTags

variable {μ ω : Type} {P : PropertyMap μ} {c : Arguments} {s : State μ ω} {port : Input μ} {chunks : Nat × Nat}

/-! ### The tags that are retired -/

theorem takeWhile_subset {α : Type} {l : List α} {p q : α → Bool} (h : ∀ x ∈ l.takeWhile p, q x = true) {x : α}
    (hx : x ∈ l.takeWhile p) : x ∈ l.takeWhile q := by
  induction l with
  | nil => cases hx
  | cons head l ih =>
    by_cases hp : p head = true
    · rw [List.takeWhile_cons_of_pos hp] at h hx
      rw [List.takeWhile_cons_of_pos (h head (.head _))]
      rcases List.mem_cons.mp hx with rfl | hx
      · exact .head _
      · exact .tail _ (ih (fun x hx => h x (.tail _ hx)) hx)
    · rw [List.takeWhile_cons_of_neg hp] at hx
      cases hx

theorem retired_self (port : Input μ) : retired port port = [] := by
  rw [retired, Nat.sub_self, List.take_zero, List.map_nil]

theorem retired_dropWhile {after : Input μ} {p : Tag μ → Bool} (h : after.tags = port.tags.dropWhile p) :
    retired port after = (port.tags.takeWhile p).map fun tag => ((tag.index : Int) - port.position, tag.map) := by
  have hsplit := congrArg List.length (List.takeWhile_append_dropWhile (p := p) (l := port.tags))
  rw [List.length_append] at hsplit
  have htake : port.tags.take (port.tags.length - (port.tags.dropWhile p).length) = port.tags.takeWhile p := by
    have hlength : port.tags.length - (port.tags.dropWhile p).length = (port.tags.takeWhile p).length := by omega
    rw [hlength]
    exact List.prefix_iff_eq_take.mp (List.takeWhile_prefix p) |>.symm
  rw [retired, h, htake]

/-- The tags of a window are those that a span of enough samples holds. -/
theorem mem_tags_get {n window : Nat} {limit : Nat} {tag : Tag μ}
    (ht : tag ∈ port.tags.takeWhile (·.index < port.position + limit))
    (hn : ∀ x ∈ port.tags.takeWhile (·.index < port.position + limit), x.index < port.position + n)
    (hwindow : ∀ x ∈ port.tags.takeWhile (·.index < port.position + limit), x.index < port.position + window) :
    ((tag.index : Int) - port.position, tag.map) ∈ (port.get n).tags window := by
  have hraw : ∀ x ∈ port.tags.takeWhile (·.index < port.position + limit),
      x ∈ (port.tags.takeWhile (·.index < port.position + n)).takeWhile (·.index < port.position + window) := by
    intro x hx
    rw [List.takeWhile_takeWhile]
    refine takeWhile_subset (fun y hy => ?_) hx
    have h1 := hn y hy
    have h2 := hwindow y hy
    simp [h1, h2]
  exact List.mem_map.mpr ⟨tag, hraw tag ht, rfl⟩

theorem lt_of_mem_takeWhile {tags : List (Tag μ)} {limit bound : Nat} (hle : limit ≤ bound) :
    ∀ x ∈ tags.takeWhile (·.index < limit), x.index < bound := fun x hx => by
  have hlt : x.index < limit := by simpa using List.mem_takeWhile_imp hx
  omega

theorem mem_retired_consume {nSamples limit : Nat} {tag : Int × μ} (h : tag ∈ retired port (port.consume nSamples limit)) :
    port.isSync = true ∧ port.isConnected = true ∧
      ∃ t ∈ port.tags.takeWhile (·.index < port.position + limit), ((t.index : Int) - port.position, t.map) = tag := by
  by_cases hport : port.isSync = true ∧ port.isConnected = true
  · rw [retired_dropWhile (p := fun tag => tag.index < port.position + limit) (by rw [Input.consume, if_pos hport])] at h
    obtain ⟨t, ht, heq⟩ := List.mem_map.mp h
    exact ⟨hport.1, hport.2, t, ht, heq⟩
  · rw [Input.consume, if_neg hport, retired_self] at h
    cases h

/-! ### A phase -/

theorem mem_retired {phase : Phase μ ω} {tag : Int × μ} (h : tag ∈ phase.retired) :
    ∃ (k : Nat) (before after : Input μ), phase.before.inputs[k]? = some before ∧ phase.after.inputs[k]? = some after ∧
      tag ∈ retired before after := by
  obtain ⟨⟨before, after⟩, hmem, htag⟩ := List.mem_flatMap.mp h
  obtain ⟨k, hk, hget⟩ := List.mem_iff_getElem.mp hmem
  rw [List.length_zip, lt_min_iff] at hk
  rw [List.getElem_zip] at hget
  cases hget
  exact ⟨k, _, _, List.getElem?_eq_getElem hk.1, List.getElem?_eq_getElem hk.2, htag⟩

theorem HandsOn.of_nil {phase : Phase μ ω} (h : phase.retired = []) : HandsOn P c phase := fun _ _ _ =>
  ⟨0, fun tag ht => by rw [h] at ht; cases ht⟩

/-- The tags of the spans that a phase releases follow those of the rings. -/
theorem HandsOn.of_release {phase : Phase μ ω} (span : ω → OutputSpan μ)
    (hrelease : ∀ o, phase.after.outputs o = (phase.before.outputs o).release (span o))
    (h : ∀ o, (phase.before.outputs o).isConnected → (phase.before.outputs o).isSync → ∃ last, ∀ tag ∈ phase.retired,
      ∀ tag' ∈ collect P c phase.chunks tag, placed P (phase.before.outputs o).position (min tag'.1 last, tag'.2) ∈
        (span o).tags) : HandsOn P c phase := by
  intro o hconnected hsync
  obtain ⟨last, hlast⟩ := h o hconnected hsync
  refine ⟨last, fun tag ht tag' htag' => ?_⟩
  rw [hrelease o]
  have hdrop : ((phase.before.outputs o).release (span o)).ring.drop (phase.before.outputs o).ring.length = (span o).tags :=
    List.drop_left
  rw [hdrop]
  exact hlast tag ht tag' htag'

section

variable [DecidableEq μ]

/-- What an input gives up is forwarded, if it lies in the window of the forwarder. -/
theorem mem_forwarded_of_retired {inputs : List (Input μ)} {k n window nSamples limit : Nat} {before : Input μ}
    (hbefore : inputs[k]? = some before) {tag : Int × μ} (htag : tag ∈ retired before (before.consume nSamples limit))
    (hn : ∀ x ∈ before.tags.takeWhile (·.index < before.position + limit), x.index < before.position + n)
    (hwindow : ∀ x ∈ before.tags.takeWhile (·.index < before.position + limit), x.index < before.position + window)
    {tag' : Nat × μ} (hcollect : tag' ∈ collect P c chunks tag) :
    tag' ∈ forwardedTags P c chunks (inputs.map (·.get n)) window := by
  obtain ⟨hsync, hconnected, t, ht, rfl⟩ := mem_retired_consume htag
  exact mem_forwardedTags_of_mem (List.mem_map.mpr ⟨before, List.mem_of_getElem? hbefore, rfl⟩) hsync hconnected
    (mem_tags_get ht hn hwindow) hcollect

/-- A skip hands on the tags of the samples that it skips. -/
theorem handsOn_skip (hpropagates : c.noTagPropagation = false) {skip : Option (Nat × Free ω)}
    (hfits : ∀ skipped ∈ skip, ∀ o, (skipSpan P c s chunks skipped o).tagsDropped = 0) :
    HandsOn P c ⟨chunks, s, skipBeforeChunk P c s chunks skip⟩ := by
  cases skip with
  | none =>
    refine HandsOn.of_nil (List.flatMap_eq_nil_iff.mpr fun port hport => ?_)
    have heq : port.1 = port.2 := by
      obtain ⟨k, hk, hget⟩ := List.mem_iff_getElem.mp hport
      rw [List.getElem_zip] at hget
      cases hget
      rfl
    rw [heq, retired_self]
  | some skip =>
    obtain ⟨nSkip, free⟩ := skip
    have hfits' := hfits (nSkip, free) rfl
    refine HandsOn.of_release (skipSpan P c s chunks (nSkip, free)) (fun _ => rfl) fun o hconnected _ => ?_
    refine ⟨lastOffset ((s.outputs o).tryReserve 0 (free.samples o) (free.tags o)), fun tag ht tag' htag' => ?_⟩
    obtain ⟨k, before, after, hbefore, hafter, htag⟩ := mem_retired ht
    have hconsume : after = before.consume nSkip nSkip := by
      have hmap : (s.inputs.map (·.consume nSkip nSkip))[k]? = some after := hafter
      rw [List.getElem?_map, hbefore] at hmap
      exact (Option.some.inj hmap).symm
    rw [hconsume] at htag
    have hforwarded := mem_forwarded_of_retired (n := nSkip) hbefore htag (lt_of_mem_takeWhile le_rfl)
      (lt_of_mem_takeWhile le_rfl) htag'
    have hadds := publishSamples_tags (forwardInputTags P c chunks (s.inputs.map (·.get nSkip)) nSkip (some nSkip)
      ((s.outputs o).tryReserve 0 (free.samples o) (free.tags o))) 0
    have hframe := forwardInputTags_frame P c chunks (s.inputs.map (·.get nSkip)) nSkip (some nSkip)
      ((s.outputs o).tryReserve 0 (free.samples o) (free.tags o))
    have hopen := hframe.2.trans hconnected
    refine hadds.mem hopen (hfits' o) ?_
    exact mem_forwardInputTags hpropagates hconnected (hadds.tags hopen (hfits' o)).1 hforwarded

/-! ### The end of the stream -/

omit [DecidableEq μ] in
theorem clipTags_mem {span : OutputSpan μ} {position nSamples k : Nat} {map : μ} (hposition : span.streamIndex = position)
    (hpublished : span.nRequestedSamplesToPublish = some nSamples) (h : placed P position (k, map) ∈ span.tags) :
    placed P position (min k nSamples, map) ∈ (clipTags span).tags := by
  subst hposition
  refine List.mem_map.mpr ⟨_, h, ?_⟩
  simp only [placed, hpublished, Option.getD_some, Tag.mk.injEq, and_true]
  omega

/-- An epilogue hands on the tags of the trailing samples. -/
theorem handsOn_epilogue (hpropagates : c.noTagPropagation = false) {epilogue : Option (Epilogue μ ω)}
    (hfits : ∀ call ∈ epilogue, ∀ o, (epilogueSpan P c s chunks call o).tagsDropped = 0) :
    HandsOn P c ⟨chunks, s, epilogueBeforeEnd P c s chunks epilogue⟩ := by
  cases epilogue with
  | none => exact @handsOn_skip μ ω P c s chunks _ hpropagates none fun _ h => by cases h
  | some epilogue =>
    have hfits' := hfits epilogue rfl
    refine HandsOn.of_release (epilogueSpan P c s chunks epilogue) (fun _ => rfl) fun o hconnected _ => ?_
    refine ⟨min (lastOffset ((s.outputs o).tryReserve epilogue.epilogueOutSize (epilogue.free.samples o)
      (epilogue.free.tags o))) (epilogue.published o), fun tag ht tag' htag' => ?_⟩
    obtain ⟨k, before, after, hbefore, hafter, htag⟩ := mem_retired ht
    have hconsume : after = before.consume epilogue.consumed epilogue.trailing := by
      have hmap : (s.inputs.map (·.consume epilogue.consumed epilogue.trailing))[k]? = some after := hafter
      rw [List.getElem?_map, hbefore] at hmap
      exact (Option.some.inj hmap).symm
    rw [hconsume] at htag
    have hforwarded := mem_forwarded_of_retired (n := epilogue.trailing) hbefore htag (lt_of_mem_takeWhile le_rfl)
      (lt_of_mem_takeWhile le_rfl) htag'
    let reserved := (s.outputs o).tryReserve epilogue.epilogueOutSize (epilogue.free.samples o) (epilogue.free.tags o)
    let forwarded := forwardInputTags P c chunks (s.inputs.map (·.get epilogue.trailing)) epilogue.trailing
      (some epilogue.trailing) reserved
    obtain ⟨hstream, hopen⟩ := forwardInputTags_frame P c chunks (s.inputs.map (·.get epilogue.trailing)) epilogue.trailing
      (some epilogue.trailing) reserved
    obtain ⟨pending, hpending, -⟩ := publishPending_adds (P := P) s.pendingForwardParams forwarded
    have hown := hpending.trans (publishAll_adds (P := P) (epilogue.tags o) (publishPending P s.pendingForwardParams forwarded))
    have hdropped := hfits' o
    have hconnected' : forwarded.isConnected = true := hopen.trans hconnected
    have hplaced := hown.mem hconnected' hdropped (mem_forwardInputTags hpropagates hconnected
      (hown.tags hconnected' hdropped).1 hforwarded)
    have hindex : ((publishPending P s.pendingForwardParams forwarded).publishAll P (epilogue.tags o)).streamIndex =
        (s.outputs o).position := hown.streamIndex.trans hstream
    let published : OutputSpan μ := { (publishPending P s.pendingForwardParams forwarded).publishAll P (epilogue.tags o) with
      nRequestedSamplesToPublish := some (epilogue.published o) }
    have hclip := @clipTags_mem μ P published _ _ _ _ hindex rfl hplaced
    rw [min_assoc] at hclip
    exact hclip

/-! ### A chunk -/

section

omit [DecidableEq μ]

variable {call : Process μ ω} {inputs : List (Input μ)}

theorem foldl_min_le {α : Type} (l : List α) (f : Nat → α → Nat) (hf : ∀ n x, f n x ≤ n) (n : Nat) : l.foldl f n ≤ n := by
  induction l generalizing n with
  | nil => exact le_rfl
  | cons x l ih => exact (ih (f n x)).trans (hf n x)

theorem processedIn_le : call.processedIn c chunks inputs ≤ (call.resampled c chunks).resampledIn := by
  unfold Process.processedIn
  split
  · exact Nat.zero_le _
  · refine foldl_min_le _ _ (fun n port => ?_) _
    split
    · exact min_le_left _ _
    · exact le_rfl

theorem nConsumed_le {k : Nat} (hspans : ∀ n ∈ call.choice.consumed k, n ≤ (call.resampled c chunks).resampledIn)
    (hstride : call.strideToConsume ≤ (call.resampled c chunks).resampledIn) :
    call.nConsumed c chunks inputs k ≤ (call.resampled c chunks).resampledIn := by
  unfold Process.nConsumed
  split
  · next n hn => exact hspans n hn
  · split
    · exact Nat.zero_le _
    · split
      · exact processedIn_le
      · exact hstride

theorem processedOut_ne_zero [Fintype ω] (h : ¬ publishesNothing c s chunks call) : call.processedOut c chunks s.outputs ≠ 0 := by
  simp only [publishesNothing, not_or, not_exists] at h
  obtain ⟨hrefused, hout, hports⟩ := h
  rw [Process.processedOut, if_neg hrefused]
  refine Nat.pos_iff_ne_zero.mp ((Finset.lt_fold_min 0).mpr ⟨Nat.pos_of_ne_zero hout, fun o _ => ?_⟩)
  split
  · next hport =>
    rw [Bool.and_eq_true] at hport
    cases hpublished : call.choice.published o with
    | none => exact Nat.pos_of_ne_zero hout
    | some n =>
      refine Nat.pos_of_ne_zero fun hzero => hports o ⟨hport.1, hport.2, ?_⟩
      rw [hpublished]
      exact congrArg some hzero
  · exact Nat.pos_of_ne_zero hout

/-- What a chunk takes from an input. -/
theorem mem_retired_process [Fintype ω] [DecidableEq μ] {k : Nat} {before after : Input μ} (hbefore : s.inputs[k]? = some before)
    (hafter : (process P c s chunks call).inputs[k]? = some after) {tag : Int × μ} (htag : tag ∈ retired before after) :
    tag ∈ retired before (before.consume (call.nConsumed c chunks s.inputs k)
        (if c.hasWholeChunkTagWindow then call.nConsumed c chunks s.inputs k else 1)) ∧
      toRetire c (call.nConsumed c chunks s.inputs k) before =
        before.tags.takeWhile (·.index < before.position +
          if c.hasWholeChunkTagWindow then call.nConsumed c chunks s.inputs k else 1) ∧
      call.nConsumed c chunks s.inputs k ≠ 0 := by
  unfold process at hafter
  dsimp only at hafter
  rw [List.getElem?_mapIdx, hbefore, Option.map_some, Option.some.injEq] at hafter
  split at hafter
  · rw [← hafter, retired_self] at htag
    cases htag
  · next hne =>
    rw [← hafter] at htag
    exact ⟨htag, if_neg hne, hne⟩

end

variable [Fintype ω] {call : Process μ ω}

/-- The tags that are forwarded before `processBulk()` stay in the span of a call that publishes samples. -/
theorem chunkSpan_adds_before (hratio : c.mapsTagsByChunkRatio = false) (hout : call.processedOut c chunks s.outputs ≠ 0) (o : ω) :
    ∃ added, Adds (forwardInputTags P c chunks (s.inputs.map (·.get (call.resampled c chunks).resampledIn))
      (call.resampled c chunks).resampledIn none ((s.outputs o).tryReserve (call.resampled c chunks).resampledOut
        (call.free.samples o) (call.free.tags o))) (chunkSpan P c s chunks call o) added := by
  obtain ⟨pending, hpending, -⟩ := forwardBefore_adds P s chunks call hratio o
  have hown := invokeProcessBulk_adds (P := P) call.choice o (forwardBefore P c s chunks call o)
  have hpublished := published_adds hout (invokeProcessBulk P call.choice o (forwardBefore P c s chunks call o))
  obtain ⟨last, hlast, -⟩ := finaliseSpan_adds P c chunks (s.inputs.map (·.get (call.resampled c chunks).resampledIn)) call (call.consumedIn c chunks s.inputs)
    (call.processedOut c chunks s.outputs) _ (invokeProcessBulk P call.choice o (forwardBefore P c s chunks call o))
  rw [forwardAfter_eq_self hratio] at hlast
  exact ⟨_, ((hpending.trans hown).trans hpublished).trans hlast⟩

/-- With a chunk ratio the forwarder runs on the span that `processBulk()` leaves. -/
theorem chunkSpan_adds_after (hratio : c.mapsTagsByChunkRatio = true) {consumedIn : Nat}
    (hconsumed : call.consumedIn c chunks s.inputs = some consumedIn) (hne : consumedIn ≠ 0) (o : ω) :
    ∃ base added, base.streamIndex = (s.outputs o).position ∧ base.isConnected = (s.outputs o).isConnected ∧
      Adds (forwardInputTags P c chunks (s.inputs.map (·.get (call.resampled c chunks).resampledIn)) consumedIn none base)
        (chunkSpan P c s chunks call o) added := by
  obtain ⟨pending, hpending, -⟩ := forwardBefore_adds_ratio P s chunks call hratio o
  have hown := hpending.trans (invokeProcessBulk_adds (P := P) call.choice o (forwardBefore P c s chunks call o))
  have hframe := published_frame (call.processedOut c chunks s.outputs)
    (invokeProcessBulk P call.choice o (forwardBefore P c s chunks call o))
  obtain ⟨last, hlast, -⟩ := finaliseSpan_adds P c chunks (s.inputs.map (·.get (call.resampled c chunks).resampledIn)) call (call.consumedIn c chunks s.inputs)
    (call.processedOut c chunks s.outputs) _ (invokeProcessBulk P call.choice o (forwardBefore P c s chunks call o))
  rw [hconsumed] at hlast
  obtain ⟨changed, hchanged, -⟩ := forwardAfter_adds P chunks (s.inputs.map (·.get (call.resampled c chunks).resampledIn)) hratio hne call.changedForward
    (published (call.processedOut c chunks s.outputs)
      (invokeProcessBulk P call.choice o (forwardBefore P c s chunks call o)))
  rw [← hconsumed] at hlast hchanged
  exact ⟨_, _, hframe.1.trans hown.streamIndex, hframe.2.trans hown.isConnected, hchanged.trans hlast⟩

/-- A chunk hands on what it takes from the inputs. -/
theorem handsOn_process (hpropagates : c.noTagPropagation = false) (hspans : withinSpans c s chunks call)
    (hstride : call.strideToConsume ≤ (call.resampled c chunks).resampledIn) (hkeeps : keepsTags c s chunks call)
    (hfits : ∀ o, (chunkSpan P c s chunks call o).tagsDropped = 0) :
    HandsOn P c ⟨chunks, s, process P c s chunks call⟩ := by
  refine HandsOn.of_release (chunkSpan P c s chunks call) (fun _ => rfl) fun o hconnected _ => ?_
  by_cases hnil : (⟨chunks, s, process P c s chunks call⟩ : Phase μ ω).retired = []
  · exact ⟨0, fun tag ht => by rw [hnil] at ht; cases ht⟩
  · have hsome : ∀ tag ∈ (⟨chunks, s, process P c s chunks call⟩ : Phase μ ω).retired, ∃ (k : Nat) (before : Input μ),
        s.inputs[k]? = some before ∧ before.isSync = true ∧ before.isConnected = true ∧
          tag ∈ retired before (before.consume (call.nConsumed c chunks s.inputs k)
            (if c.hasWholeChunkTagWindow then call.nConsumed c chunks s.inputs k else 1)) ∧
          toRetire c (call.nConsumed c chunks s.inputs k) before = before.tags.takeWhile (·.index < before.position +
            if c.hasWholeChunkTagWindow then call.nConsumed c chunks s.inputs k else 1) ∧
          call.nConsumed c chunks s.inputs k ≠ 0 := by
      intro tag ht
      obtain ⟨k, before, after, hbefore, hafter, htag⟩ := mem_retired ht
      obtain ⟨htag, hretire, hne⟩ := mem_retired_process hbefore hafter htag
      obtain ⟨hsync, hin, -⟩ := mem_retired_consume htag
      exact ⟨k, before, hbefore, hsync, hin, htag, hretire, hne⟩
    have hle : ∀ k (before : Input μ), s.inputs[k]? = some before →
        call.nConsumed c chunks s.inputs k ≤ (call.resampled c chunks).resampledIn := fun k before hbefore =>
      nConsumed_le (hspans k (List.getElem?_eq_some_iff.mp hbefore).1) hstride
    obtain ⟨first, hfirst⟩ := List.exists_mem_of_ne_nil _ hnil
    obtain ⟨k₀, before₀, hbefore₀, hsync₀, hin₀, htag₀, hretire₀, hne₀⟩ := hsome first hfirst
    have hkeep₀ := hkeeps (before₀, k₀) (List.mem_zipIdx_iff_getElem?.mpr hbefore₀) hsync₀ hin₀
    obtain ⟨-, -, t₀, ht₀, -⟩ := mem_retired_consume htag₀
    dsimp only at hkeep₀
    cases hratio : c.mapsTagsByChunkRatio with
    | false =>
      rw [if_neg (by simp [hratio])] at hkeep₀
      have hout : call.processedOut c chunks s.outputs ≠ 0 := processedOut_ne_zero fun hnothing => by
        rw [← hretire₀, hkeep₀ hnothing] at ht₀
        cases ht₀
      obtain ⟨added, hadds⟩ := chunkSpan_adds_before (P := P) hratio hout o
      have hframe := forwardInputTags_frame P c chunks (s.inputs.map (·.get (call.resampled c chunks).resampledIn))
        (call.resampled c chunks).resampledIn none ((s.outputs o).tryReserve (call.resampled c chunks).resampledOut
          (call.free.samples o) (call.free.tags o))
      have hopen := hframe.2.trans hconnected
      refine ⟨lastOffset ((s.outputs o).tryReserve (call.resampled c chunks).resampledOut (call.free.samples o)
        (call.free.tags o)), fun tag ht tag' htag' => ?_⟩
      obtain ⟨k, before, hbefore, -, -, htag, -, hne⟩ := hsome tag ht
      have hn := hle k before hbefore
      refine hadds.mem hopen (hfits o) (mem_forwardInputTags hpropagates hconnected (hadds.tags hopen (hfits o)).1 ?_)
      refine mem_forwarded_of_retired hbefore htag (lt_of_mem_takeWhile ?_) (lt_of_mem_takeWhile ?_) htag'
      · split <;> omega
      · rw [Option.getD_none]
        split <;> omega
    | true =>
      rw [if_pos hratio] at hkeep₀
      have hwhole : c.hasWholeChunkTagWindow = true := by simp [Arguments.hasWholeChunkTagWindow, hratio]
      -- the least consumption is that of some input, and not zero
      obtain ⟨consumedIn, hconsumed⟩ : ∃ n, call.consumedIn c chunks s.inputs = some n := by
        refine Option.ne_none_iff_exists'.mp fun hnone => ?_
        have hempty := List.min?_eq_none_iff.mp hnone
        have hmem : call.nConsumed c chunks s.inputs k₀ ∈ s.inputs.zipIdx.filterMap fun port =>
            if port.1.isSync && port.1.isConnected then some (call.nConsumed c chunks s.inputs port.2) else none :=
          List.mem_filterMap.mpr ⟨(before₀, k₀), List.mem_zipIdx_iff_getElem?.mpr hbefore₀, by simp [hsync₀, hin₀]⟩
        rw [hempty] at hmem
        cases hmem
      obtain ⟨⟨other, k'⟩, hother, hleast⟩ := List.mem_filterMap.mp (List.min?_mem hconsumed)
      dsimp only at hleast
      split at hleast
      · next hport =>
        rw [Bool.and_eq_true] at hport
        cases Option.some.inj hleast
        have hall : ∀ tag ∈ (⟨chunks, s, process P c s chunks call⟩ : Phase μ ω).retired, ∃ (k : Nat) (before : Input μ),
            s.inputs[k]? = some before ∧ tag ∈ retired before (before.consume (call.nConsumed c chunks s.inputs k)
              (call.nConsumed c chunks s.inputs k)) ∧
            call.nConsumed c chunks s.inputs k' ≠ 0 ∧
              ∀ x ∈ before.tags.takeWhile (·.index < before.position + call.nConsumed c chunks s.inputs k),
                x.index < before.position + call.nConsumed c chunks s.inputs k' := by
          intro tag ht
          obtain ⟨k, before, hbefore, hsync, hin, htag, hretire, -⟩ := hsome tag ht
          rw [if_pos hwhole] at htag hretire
          have hkeep := hkeeps (before, k) (List.mem_zipIdx_iff_getElem?.mpr hbefore) hsync hin
          dsimp only at hkeep
          rw [if_pos hratio, hretire] at hkeep
          have hevery := fun x hx => hkeep x hx (other, k') hother hport.1 hport.2
          obtain ⟨-, -, t, ht, -⟩ := mem_retired_consume htag
          exact ⟨k, before, hbefore, htag, (hevery t ht).1, fun x hx => (hevery x hx).2⟩
        obtain ⟨-, -, -, -, hne, -⟩ := hall first hfirst
        obtain ⟨base, added, hstream, hopen, hadds⟩ := chunkSpan_adds_after (P := P) (s := s) hratio hconsumed hne o
        have hframe := forwardInputTags_frame P c chunks (s.inputs.map (·.get (call.resampled c chunks).resampledIn))
          (call.nConsumed c chunks s.inputs k') none base
        have hconnected' := hopen.trans hconnected
        refine ⟨lastOffset base, fun tag ht tag' htag' => ?_⟩
        obtain ⟨k, before, hbefore, htag, -, hwindow⟩ := hall tag ht
        rw [← hstream]
        refine hadds.mem (hframe.2.trans hconnected') (hfits o) (mem_forwardInputTags hpropagates hconnected'
          (hadds.tags (hframe.2.trans hconnected') (hfits o)).1 ?_)
        rw [Option.getD_none, if_pos hwhole]
        exact mem_forwarded_of_retired hbefore htag (lt_of_mem_takeWhile (Nat.add_le_add_left (hle k before hbefore) _)) hwindow htag'
      · cases hleast

/-! ### A run -/

variable {a : Act μ ω}

omit [Fintype ω] in
/-- The tags at the end of the stream leave without being retired. -/
theorem handsOn_remaining (endOfStream : EndOfStream μ ω) :
    HandsOn P c ⟨chunks, epilogueBeforeEnd P c s chunks endOfStream.epilogue, atEndOfStream P c s chunks endOfStream⟩ := by
  refine HandsOn.of_nil (List.flatMap_eq_nil_iff.mpr fun port hport => ?_)
  have hinputs := atEndOfStream_inputs P c s chunks endOfStream
  obtain ⟨k, hk, hget⟩ := List.mem_iff_getElem.mp hport
  rw [List.getElem_zip] at hget
  cases hget
  simp only [hinputs, retired_self]

/-- Every phase of a call hands on what it takes. -/
theorem handsOn_phases (hpropagates : c.noTagPropagation = false) {t : State μ ω} (hkeeps : KeepsTags P c s a)
    (hfits : Fits P c s a) (hs : step P c s a = some t) : ∀ phase ∈ phases P c s a, HandsOn P c phase := by
  cases a with
  | arrive input tag => exact fun phase hphase => by cases hphase
  | work call =>
    unfold step at hs
    dsimp only at hs
    split at hs
    · next hallowed =>
      obtain ⟨hskip, hcall⟩ := hfits
      obtain ⟨forwardParams, chunks, skip, outcome⟩ := call
      intro phase hphase
      rcases List.mem_cons.mp hphase with rfl | hphase
      · exact handsOn_skip hpropagates hskip
      · cases outcome with
        | returns => cases hphase
        | process process =>
          cases List.mem_singleton.mp hphase
          obtain ⟨-, -, hspans, -, hstride⟩ := hallowed
          refine handsOn_process hpropagates (fun k hk => ?_) hstride hkeeps hcall
          have hlength := prepared_inputs_length P c s ⟨forwardParams, chunks, skip, .process process⟩
          exact hspans k (hlength ▸ hk)
        | endOfStream endOfStream =>
          rcases List.mem_cons.mp hphase with rfl | hphase
          · exact handsOn_epilogue hpropagates hcall.1
          · cases List.mem_singleton.mp hphase
            exact handsOn_remaining endOfStream
    · cases hs

end

/-- In a run whose every call either takes no tag or publishes samples, each tag that is retired has been put on every
    connected synchronous output by the call that retires it. -/
theorem retired_handed_on {μ ω : Type} [DecidableEq μ] [Fintype ω] (P : PropertyMap μ) (c : Arguments)
    (hpropagates : c.noTagPropagation = false) (start : State μ ω) {es : List (Phase μ ω)} {s : State μ ω}
    (h : (system P c start).Trace (fun s a => KeepsTags P c s a ∧ Fits P c s a) (phases P c) es s) :
    ∀ phase ∈ es, HandsOn P c phase := by
  induction h with
  | start _ => exact fun phase hphase => by cases hphase
  | step _ hok hs ih =>
    intro phase hphase
    rcases List.mem_append.mp hphase with hphase | hphase
    · exact ih phase hphase
    · exact handsOn_phases hpropagates hok.1 hok.2 hs phase hphase

/-- A tag arrives at the first sample, and a call is handed four. -/
def firstOfFour (published : Option Nat) : List (Act (List Key) Unit) :=
  [.arrive 0 ⟨0, [.triggerName]⟩,
    .work ⟨[], (1, 1), none, .process ⟨⟨1, 4, 1, 4, 0, 0⟩, ⟨fun _ => 8, fun _ => 8⟩,
      ⟨.ok, fun _ => none, fun _ => published, fun _ => []⟩, false, 0, [], []⟩⟩]

theorem firstOfFour_handed_on : ∃ es s,
    (system keys plain idle).Trace (fun s a => KeepsTags keys plain s a ∧ Fits keys plain s a) (phases keys plain) es s ∧
      es.map Phase.retired = [[], [(0, [.triggerName])]] ∧ ∀ phase ∈ es, HandsOn keys plain phase := by
  have htrace : (system keys plain idle).Trace (fun s a => KeepsTags keys plain s a ∧ Fits keys plain s a)
      (phases keys plain) _ _ :=
    (system keys plain idle).trace_get (firstOfFour (some 2)) rfl (by decide) (by decide)
  exact ⟨_, _, htrace, by decide, retired_handed_on keys plain rfl idle htrace⟩

/-- It consumes them all and publishes none. -/
theorem firstOfFour_lost : ∃ es s, (system keys plain idle).Trace (fun s a => Fits keys plain s a) (phases keys plain) es s ∧
    ∃ phase ∈ es, phase.retired = [(0, [.triggerName])] ∧ (s.outputs ()).ring = [] ∧ ¬ HandsOn keys plain phase := by
  have htrace : (system keys plain idle).Trace (fun s a => Fits keys plain s a) (phases keys plain) _ _ :=
    (system keys plain idle).trace_get (firstOfFour (some 0)) rfl (by decide) (by decide)
  refine ⟨_, _, htrace, _, List.get_mem _ ⟨1, by decide⟩, by decide, by decide, fun hhands => ?_⟩
  obtain ⟨last, hlast⟩ := hhands () (by decide) (by decide)
  exact List.not_mem_nil (hlast (0, [.triggerName]) (by decide) (0, [.triggerName]) rfl)

end GnuRadio.ProcessBulk
