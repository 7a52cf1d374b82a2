import GnuRadio.Theorems.Block.WholeChunks

/-! Each tag of an input leaves once, at the output index of its input index, however the samples are split into work calls. -/

namespace GnuRadio.ProcessBulk

open OutputTags Delivery

variable {μ ω : Type} {P : PropertyMap μ} {c : Arguments} {chunks : Nat × Nat}

/-! ### The last window -/

section

variable {s : State (μ × Bool) ω} {m : Nat} {arrived taken : List (Tag (μ × Bool))} {limit : Nat}

/-- An output once the last window has been handed on. -/
structure Placed (ordered : Prop) (P : PropertyMap μ) (outputIndex : Nat → Nat) (given : List (Tag (μ × Bool)))
    (out : Output (μ × Bool)) : Prop where
  inOrder : InOrder (handedOn out)
  before : ∀ tag ∈ handedOn out, tag.index ≤ out.position
  delivers : Delivers ordered (leaves (marked P) fun index => min (outputIndex index) out.position) given (handedOn out)

/-- The last window has been handed on: the tags before `limit` are given up, and those from it on wait. -/
structure Trailed (P : PropertyMap μ) (c : Arguments) (chunks : Nat × Nat) (arrived : List (Tag (μ × Bool))) (limit : Nat)
    (given : List (Tag (μ × Bool))) (s : State (μ × Bool) ω) : Prop where
  ports : c.nInputPorts ≤ 1 ↔ s.inputs.length ≤ 1
  stands : ∃ read, ∀ port ∈ streams s.inputs, Stands read port
  waits : ∀ tag ∈ live s.inputs, limit ≤ tag.index
  pending : s.pendingForwardParams.2 = false
  arrived : Same (s.inputs.length ≤ 1) arrived (given ++ live s.inputs)
  before : ∀ tag ∈ given, tag.index < limit
  outputs : ∀ o, (s.outputs o).isSync = true → (s.outputs o).isConnected = true →
    Placed (s.inputs.length ≤ 1) P (outputIndexOf c chunks) given (s.outputs o)

theorem leaves_min (P : PropertyMap μ) (outputIndex : Nat → Nat) (endIndex : Nat) (tag : Tag μ) :
    leaves P (fun index => min (outputIndex index) endIndex) tag =
      (leaves P outputIndex tag).map fun tag => { tag with index := min tag.index endIndex } := by
  unfold leaves
  dsimp only
  split <;> rfl

/-- The tags of the samples that have been taken lie before all that follows. -/
theorem Holds.delivers_min {ordered : Prop} {out : Output (μ × Bool)} (h : Holds ordered P c chunks m taken out)
    (haligned : Aligned μ ω c chunks) (hbefore : ∀ tag ∈ taken, tag.index < m * chunks.1) {endIndex : Nat}
    (hend : m * chunks.2 ≤ endIndex) :
    Delivers ordered (leaves (marked P) fun index => min (outputIndexOf c chunks index) endIndex) taken (handedOn out) := by
  refine h.delivers.congr fun tag ht => ?_
  have hle := (haligned.within m tag.index (hbefore tag ht).le).trans hend
  unfold leaves
  dsimp only
  rw [min_eq_left hle]

/-- Without an epilogue there is no last window. -/
theorem Taken.trailed (h : Taken P c chunks arrived m taken s) (haligned : Aligned μ ω c chunks) :
    Trailed P c chunks arrived (m * chunks.1) taken s := by
  refine ⟨h.ports, ⟨_, h.stands⟩, fun tag ht => (mem_live h.stands ht).1, h.pending, h.arrived, h.before,
    fun o hsync hconnected => ?_⟩
  have hout := h.outputs o hsync hconnected
  refine ⟨hout.inOrder, fun tag ht => ?_, hout.delivers_min haligned h.before hout.position.ge⟩
  rw [hout.position]
  exact hout.before tag ht

variable [DecidableEq μ] {epilogue : Epilogue (μ × Bool) ω} {o : ω}

/-- The tags of the last window in the span of the epilogue. -/
theorem fromInputs_epilogue (haligned : Aligned μ ω c chunks)
    (hstands : ∀ port ∈ streams s.inputs, Stands (m * chunks.1) port) (hpending : s.pendingForwardParams.2 = false)
    (hpublished : epilogue.published o ≤ epilogue.epilogueOutSize) (hown : ∀ tag ∈ epilogue.tags o, tag.2.2 = false)
    (hconnected : (s.outputs o).isConnected = true) (hsync : (s.outputs o).isSync = true)
    (hfits : (epilogueSpan (marked P) c s chunks epilogue o).tagsDropped = 0) :
    fromInputs (epilogueSpan (marked P) c s chunks epilogue o).tags =
      ((forwardedTags (marked P) c chunks (s.inputs.map (·.get epilogue.trailing)) epilogue.trailing).map
        (placed (marked P) (s.outputs o).position)).map
          fun tag => { tag with index := min tag.index ((s.outputs o).position + epilogue.published o) } := by
  let reserved := (s.outputs o).tryReserve epilogue.epilogueOutSize (epilogue.free.samples o) (epilogue.free.tags o)
  let forwarded := forwardInputTags (marked P) c chunks (s.inputs.map (·.get epilogue.trailing)) epilogue.trailing
    (some epilogue.trailing) reserved
  have hopen : forwarded.isConnected = true := (forwardInputTags_frame (marked P) c chunks
    (s.inputs.map (·.get epilogue.trailing)) epilogue.trailing (some epilogue.trailing) reserved).2.trans hconnected
  obtain ⟨pending, hadds, hmaps⟩ := publishPending_adds (P := marked P) s.pendingForwardParams forwarded
  have hall := hadds.trans (publishAll_adds (P := marked P) (epilogue.tags o) _)
  have hnone : ∀ tag ∈ pending ++ (epilogue.tags o).map (placed (marked P)
      (publishPending (marked P) s.pendingForwardParams forwarded).streamIndex), tag.map.2 = false := by
    intro tag ht
    rcases List.mem_append.mp ht with ht | ht
    · rw [hmaps tag ht]
      exact hpending
    · obtain ⟨own, hmem, rfl⟩ := List.mem_map.mp ht
      exact hown own hmem
  have hstream : ((publishPending (marked P) s.pendingForwardParams forwarded).publishAll (marked P)
      (epilogue.tags o)).streamIndex = (s.outputs o).position :=
    (frames_publishAll (frames_publishPending (frames_forwardInputTags (by exact ⟨rfl, rfl, rfl⟩) _ _) _) _ :
      Frames (s.outputs o) none _).streamIndex
  have htags := hall.fromInputs_eq hnone hopen hfits
  have hforwarded := fromInputs_forwardInputTags (P := P) haligned.propagates hconnected
    (fun tag ht => by cases ht) (hall.tags hopen hfits).1 fun tag ht => isMarked_forwardedTags hstands ht
  rw [hforwarded] at htags
  have hclip : fromInputs (epilogueSpan (marked P) c s chunks epilogue o).tags =
      (fromInputs ((publishPending (marked P) s.pendingForwardParams forwarded).publishAll (marked P) (epilogue.tags o)).tags).map
        fun tag => { tag with index := min tag.index ((s.outputs o).position + epilogue.published o) } := by
    rw [← hstream]
    exact List.filter_map
  rw [hclip, htags, List.map_map, List.map_map]
  refine List.map_congr_left fun tag _ => ?_
  have hlast : lastOffset reserved = epilogue.epilogueOutSize := if_pos hsync
  simp only [Function.comp, placed, hlast, Tag.mk.injEq, and_true]
  show min ((s.outputs o).position + _) _ = _
  omega

/-- An epilogue hands on the tags of the trailing samples. -/
theorem Taken.of_epilogue (h : Taken P c chunks arrived m taken s) (haligned : Aligned μ ω c chunks)
    (hconsumed : epilogue.consumed ≤ epilogue.trailing) (hpublished : ∀ o, epilogue.published o ≤ epilogue.epilogueOutSize)
    (hown : ∀ o, ∀ tag ∈ epilogue.tags o, tag.2.2 = false)
    (hfits : ∀ o, (epilogueSpan (marked P) c s chunks epilogue o).tagsDropped = 0) :
    Trailed P c chunks arrived (m * chunks.1 + epilogue.trailing) (taken ++ window (m * chunks.1 + epilogue.trailing) s.inputs)
      (invokeProcessEpilogue (marked P) c s chunks epilogue) := by
  have hlive := live_consume h.stands epilogue.consumed epilogue.trailing
  refine ⟨?_, ⟨_, stands_consume h.stands hconsumed⟩, fun tag ht => ?_, rfl, ?_, fun tag ht => ?_,
    fun o hsync hconnected => ?_⟩
  · show c.nInputPorts ≤ 1 ↔ (s.inputs.map _).length ≤ 1
    rw [List.length_map]
    exact h.ports
  · obtain ⟨port, hport, ht⟩ := List.mem_flatMap.mp ht
    have hstreams := streams_map (consume_flags · epilogue.consumed epilogue.trailing) s.inputs
    obtain ⟨before, hbefore, rfl⟩ := List.mem_map.mp (hstreams ▸ hport)
    have hstands := h.stands before hbefore
    rw [consume_eq hstands (mem_streams.mp hbefore).2] at ht
    exact le_of_mem_dropWhile hstands.inOrder ht
  · show Same ((s.inputs.map _).length ≤ 1) _ _
    rw [List.length_map, List.append_assoc]
    exact h.arrived.trans (hlive.append_left taken)
  · rcases List.mem_append.mp ht with ht | ht
    · have := h.before tag ht
      omega
    · exact (mem_window ht).2
  · show Placed ((s.inputs.map _).length ≤ 1) _ _ _ _
    rw [List.length_map]
    have hout := h.outputs o hsync hconnected
    have htags := fromInputs_epilogue haligned h.stands h.pending (hpublished o) (hown o) hconnected hsync (hfits o)
    have hposition : ((invokeProcessEpilogue (marked P) c s chunks epilogue).outputs o).position =
        (s.outputs o).position + epilogue.published o := rfl
    have hring : handedOn ((invokeProcessEpilogue (marked P) c s chunks epilogue).outputs o) = _ :=
      handedOn_release (s.outputs o) (epilogueSpan (marked P) c s chunks epilogue o)
    rw [htags] at hring
    refine ⟨?_, fun tag ht => ?_, ?_⟩
    · rw [hring, List.map_map]
      refine List.pairwise_append.mpr ⟨hout.inOrder, ?_, fun tag ht next hn => ?_⟩
      · refine List.pairwise_map.mpr ((forwardedTags_streams_inOrder h.ports.mp h.stands _).imp fun hle => ?_)
        simp only [Function.comp, placed]
        omega
      · obtain ⟨tag', -, rfl⟩ := List.mem_map.mp hn
        have hle := hout.before tag ht
        have hout := hout.position
        simp only [Function.comp, placed]
        omega
    · rw [hring] at ht
      rw [hposition]
      rcases List.mem_append.mp ht with ht | ht
      · have hle := hout.before tag ht
        rw [hout.position]
        exact hle.trans (Nat.le_add_right _ _)
      · obtain ⟨tag', -, rfl⟩ := List.mem_map.mp ht
        exact min_le_right _ _
    · rw [hring, hposition]
      refine (hout.delivers_min haligned h.before (by rw [hout.position]; exact Nat.le_add_right _ _)).append ?_
      have hdelivers := forwarded_delivers (P := P) haligned h.ports h.stands epilogue.trailing
      rw [← hout.position] at hdelivers
      exact hdelivers.map_delivered fun tag _ => (leaves_min _ _ _ tag).symm

end

/-! ### The tags at the end -/

section

variable {s : State (μ × Bool) ω} {arrived given : List (Tag (μ × Bool))} {limit read : Nat}

theorem eraseDups_sublist {α : Type} [BEq α] (l : List α) : l.eraseDups.Sublist l := by
  induction hn : l.length using Nat.strongRecOn generalizing l with
  | ind n ih =>
    cases l with
    | nil => exact .slnil
    | cons a l =>
      rw [List.eraseDups_cons]
      have hlen := List.length_filter_le (fun b => !b == a) l
      exact ((ih _ (by rw [← hn]; exact Nat.lt_succ_of_le hlen) _ rfl).trans List.filter_sublist).cons_cons a

/-- In order, the tags that are read first are those that meet a bound. -/
theorem takeWhile_eq_filter {tags : List (Tag μ)} (h : InOrder tags) (bound : Option Nat) :
    (tags.takeWhile fun tag => bound.all (tag.index ≤ ·)) = tags.filter fun tag => bound.all (tag.index ≤ ·) := by
  induction tags with
  | nil => rfl
  | cons head tags ih =>
    obtain ⟨hhead, h⟩ := List.pairwise_cons.mp h
    rw [List.takeWhile_cons, List.filter_cons]
    split
    · rw [ih h]
    · next hnot =>
      refine (List.filter_eq_nil_iff.mpr fun tag ht hle => hnot ?_).symm
      cases bound with
      | none => rfl
      | some bound =>
        rw [Option.all_some, decide_eq_true_eq] at hle ⊢
        exact (hhead tag ht).trans hle

theorem filter_map_eq {α β : Type} (f : α → β) (p : β → Bool) (l : List α) :
    (l.map f).filter p = l.filterMap fun x => if p (f x) then some (f x) else none := by
  induction l with
  | nil => rfl
  | cons x l ih =>
    rw [List.map_cons, List.filter_cons, List.filterMap_cons, ih]
    split <;> rfl

variable {inputs : List (Input (μ × Bool))}

theorem live_inOrder (hstands : ∀ port ∈ streams inputs, Stands read port)
    (hlen : inputs.length ≤ 1) : InOrder (live inputs) := by
  have hstreams : (streams inputs).length ≤ 1 := (List.length_filter_le _ _).trans hlen
  unfold live
  match streams inputs, hstreams, hstands with
  | [], _, _ => exact .nil
  | [port], _, hstands =>
    rw [List.flatMap_singleton]
    exact (hstands port (.head _)).inOrder

variable [DecidableEq μ]

/-- What the inputs hold up to an index leaves at the end. -/
theorem remainingTags_delivers (hports : c.nInputPorts ≤ 1 ↔ inputs.length ≤ 1)
    (hstands : ∀ port ∈ streams inputs, Stands read port) (lastIndex : Option Nat) (endIndex : Nat) :
    Delivers (inputs.length ≤ 1) (leavesAtEnd (marked P) endIndex)
      ((live inputs).filter fun tag => lastIndex.all (tag.index ≤ ·))
      ((remainingTags (marked P) c (inputs.map (·.getRemainingTags lastIndex))).map fun map =>
        ⟨endIndex, (marked P).canonicalizeKeys map⟩) := by
  have htags : ((inputs.map (·.getRemainingTags lastIndex)).filter fun span => span.isSync && span.isConnected).flatMap
      (fun span => span.rawTags.filter (span.streamIndex ≤ ·.index)) =
        (live inputs).filter fun tag => lastIndex.all (tag.index ≤ ·) := by
    rw [List.filter_map, List.flatMap_map, live, List.filter_flatMap]
    refine List.flatMap_congr fun port hport => ?_
    have hstand := hstands port hport
    unfold Input.getRemainingTags
    dsimp only
    rw [takeWhile_eq_filter hstand.inOrder]
    refine List.filter_eq_self.mpr fun tag ht => decide_eq_true ?_
    rw [hstand.position]
    exact hstand.ahead tag (List.mem_filter.mp ht).1
  let stripped (tag : Tag (μ × Bool)) : Tag (μ × Bool) :=
    ⟨tag.index, (marked P).eraseEndOfStream ((marked P).filterAndSubstituteTag tag.map)⟩
  let image (tag : Tag (μ × Bool)) : Option (Tag (μ × Bool)) :=
    if !(marked P).isEmpty (stripped tag).map then some (stripped tag) else none
  have hsorted (kept : List (Tag (μ × Bool))) : ((kept.map stripped).filter fun tag => !(marked P).isEmpty tag.map) =
      kept.filterMap image := filter_map_eq stripped _ kept
  have himage : ∀ tag ∈ (live inputs).filter fun tag => lastIndex.all (tag.index ≤ ·),
      (image tag).map (fun tag => (⟨endIndex, (marked P).canonicalizeKeys tag.map⟩ : Tag (μ × Bool))) =
        leavesAtEnd (marked P) endIndex tag := by
    intro tag _
    simp only [image, stripped, leavesAtEnd]
    split <;> split <;> simp_all
  have hdelivers : Delivers (inputs.length ≤ 1) image ((live inputs).filter fun tag => lastIndex.all (tag.index ≤ ·))
      ((((if c.nInputPorts ≤ 1 then (live inputs).filter fun tag => lastIndex.all (tag.index ≤ ·)
        else ((live inputs).filter fun tag => lastIndex.all (tag.index ≤ ·)).eraseDups).map stripped).filter
          fun tag => !(marked P).isEmpty tag.map).mergeSort fun a b => a.index ≤ b.index) := by
    split
    · next hone =>
      have hlen := hports.mp hone
      have hinOrder : (((live inputs).filter fun tag => lastIndex.all (tag.index ≤ ·)).map stripped |>.filter
          fun tag => !(marked P).isEmpty tag.map).Pairwise fun a b => decide (a.index ≤ b.index) = true :=
        (List.pairwise_map.mpr ((live_inOrder hstands hlen).filter _ |>.imp fun hle => decide_eq_true hle)).filter _
      rw [List.mergeSort_of_pairwise hinOrder, hsorted]
      exact .refl ..
    · next hseveral =>
      refine .of_sublist (mt hports.mpr hseveral) (eraseDups_sublist _) (fun tag ht => List.mem_eraseDups.mpr ht) ?_
      rw [hsorted]
      exact List.mergeSort_perm _ _
  unfold remainingTags
  dsimp only
  rw [htags, List.map_map]
  exact hdelivers.map_delivered himage

omit [DecidableEq μ] in
theorem find?_le {tags : List (Tag μ)} (h : InOrder tags) {p : Tag μ → Bool} {first tag : Tag μ} (hfirst : tags.find? p = some first)
    (ht : tag ∈ tags) (hp : p tag = true) : first.index ≤ tag.index := by
  induction tags with
  | nil => cases ht
  | cons head tags ih =>
    obtain ⟨hhead, h⟩ := List.pairwise_cons.mp h
    rw [List.find?_cons] at hfirst
    rcases List.mem_cons.mp ht with rfl | ht
    · rw [hp] at hfirst
      rw [Option.some.inj hfirst]
    · split at hfirst
      · rw [← Option.some.inj hfirst]
        exact hhead tag ht
      · exact ih h hfirst ht

omit [DecidableEq μ] in
/-- The first end-of-stream marker of the inputs bounds what is read. -/
theorem nextEosTag_all (hstands : ∀ port ∈ streams inputs, Stands read port) (index : Nat) :
    ((inputs.filterMap fun port => (port.nextEosTag (marked P)).map (port.position + ·)).min?).all (index ≤ ·) = true ↔
      ∀ marker ∈ live inputs, (marked P).isEndOfStream marker.map = true → index ≤ marker.index := by
  have hport : ∀ port ∈ inputs, ∀ x, (port.nextEosTag (marked P)).map (port.position + ·) = some x ↔ port ∈ streams inputs ∧
      ∃ marker, port.tags.find? (fun tag => port.position ≤ tag.index && (marked P).isEndOfStream tag.map) = some marker ∧
        marker.index = x := by
    intro port hmem x
    unfold Input.nextEosTag
    by_cases hstream : port.isSync = true ∧ port.isConnected = true
    · have hport := mem_streams.mpr ⟨hmem, hstream⟩
      rw [if_pos hstream, Option.map_map, Option.map_eq_some_iff]
      constructor
      · rintro ⟨marker, hfind, hx⟩
        have hahead : port.position ≤ marker.index := by
          rw [(hstands port hport).position]
          exact (hstands port hport).ahead marker (List.mem_of_find?_eq_some hfind)
        refine ⟨hport, marker, hfind, ?_⟩
        simp only [Function.comp] at hx
        omega
      · rintro ⟨-, marker, hfind, hx⟩
        have hahead : port.position ≤ marker.index := by
          rw [(hstands port hport).position]
          exact (hstands port hport).ahead marker (List.mem_of_find?_eq_some hfind)
        refine ⟨marker, hfind, ?_⟩
        simp only [Function.comp]
        omega
    · rw [if_neg hstream]
      exact ⟨fun h => (by cases h), fun h => absurd (mem_streams.mp h.1).2 hstream⟩
  have hmin : ((inputs.filterMap fun port => (port.nextEosTag (marked P)).map (port.position + ·)).min?).all (index ≤ ·) = true ↔
      ∀ x ∈ inputs.filterMap fun port => (port.nextEosTag (marked P)).map (port.position + ·), index ≤ x := by
    cases hmin : (inputs.filterMap fun port => (port.nextEosTag (marked P)).map (port.position + ·)).min? with
    | none =>
      rw [List.min?_eq_none_iff.mp hmin]
      exact ⟨fun _ x hx => (by cases hx), fun _ => rfl⟩
    | some least =>
      rw [Option.all_some, decide_eq_true_eq]
      exact List.le_min?_iff hmin
  rw [hmin]
  constructor
  · intro hall marker hmarker heos
    obtain ⟨port, hstream, hm⟩ := List.mem_flatMap.mp hmarker
    have hstand := hstands port hstream
    have hp : (decide (port.position ≤ marker.index) && (marked P).isEndOfStream marker.map) = true := by
      rw [heos, Bool.and_true, decide_eq_true_eq, hstand.position]
      exact hstand.ahead marker hm
    cases hfind : port.tags.find? fun tag => port.position ≤ tag.index && (marked P).isEndOfStream tag.map with
    | none => exact absurd hp (List.find?_eq_none.mp hfind marker hm)
    | some first =>
      have hmem := (mem_streams.mp hstream).1
      have hfirst := hall first.index (List.mem_filterMap.mpr ⟨port, hmem, (hport port hmem _).mpr ⟨hstream, first, hfind, rfl⟩⟩)
      exact hfirst.trans (find?_le hstand.inOrder hfind hm hp)
  · intro hall x hx
    obtain ⟨port, hmem, hx⟩ := List.mem_filterMap.mp hx
    obtain ⟨hstream, marker, hfind, rfl⟩ := (hport port hmem x).mp hx
    refine hall marker (List.mem_flatMap.mpr ⟨port, hstream, List.mem_of_find?_eq_some hfind⟩) ?_
    have hp := List.find?_some hfind
    rw [Bool.and_eq_true] at hp
    exact hp.2

variable {remaining : (μ × Bool) × Free ω} {o : ω}

/-- The span at the end holds what the inputs still hold. -/
theorem fromInputs_remaining (hpropagates : c.noTagPropagation = false)
    (hports : c.nInputPorts ≤ 1 ↔ s.inputs.length ≤ 1) (hstands : ∀ port ∈ streams s.inputs, Stands read port)
    (hpending : s.pendingForwardParams.2 = false) (hparams : remaining.1.2 = false)
    (hconnected : (s.outputs o).isConnected = true) (hfits : (remainingSpan (marked P) c s remaining o).tagsDropped = 0) :
    fromInputs (remainingSpan (marked P) c s remaining o).tags =
      (remainingTags (marked P) c (s.inputs.map (·.getRemainingTags
        (s.inputs.filterMap fun port => (port.nextEosTag (marked P)).map (port.position + ·)).min?))).map
          fun map => ⟨(s.outputs o).position, (marked P).canonicalizeKeys map⟩ := by
  let reserved := (s.outputs o).tryReserve 0 (remaining.2.samples o) (remaining.2.tags o)
  let endIn := s.inputs.map (·.getRemainingTags
    (s.inputs.filterMap fun port => (port.nextEosTag (marked P)).map (port.position + ·)).min?)
  let maps := (remainingTags (marked P) c endIn).map fun map => (0, map)
  have hsettings : s.applyChangedSettings (marked P) c remaining.1 =
      { s with pendingForwardParams := (marked P).mergeForwardParams s.pendingForwardParams remaining.1 } := by
    rw [State.applyChangedSettings, if_neg (by simp [hpropagates])]
  have hspan : remainingSpan (marked P) c s remaining o = (publishPending (marked P)
      ((marked P).mergeForwardParams s.pendingForwardParams remaining.1) (reserved.publishAll (marked P) maps)).publishSamples 0 := by
    unfold remainingSpan forwardRemainingInputTags
    rw [hsettings]
    dsimp only
    rw [if_neg (by simp [hpropagates])]
  rw [hspan] at hfits ⊢
  have hpublish := publishAll_adds (P := marked P) maps reserved
  obtain ⟨pending, hpending', hmaps⟩ := publishPending_adds (P := marked P)
    ((marked P).mergeForwardParams s.pendingForwardParams remaining.1) (reserved.publishAll (marked P) maps)
  have hrest := hpending'.trans (publishSamples_tags _ 0)
  have hnone : ∀ tag ∈ pending ++ [], tag.map.2 = false := by
    intro tag ht
    rw [List.append_nil] at ht
    rw [hmaps tag ht]
    show (s.pendingForwardParams.2 || remaining.1.2) = false
    rw [hpending, hparams, Bool.or_false]
  have hopen : (reserved.publishAll (marked P) maps).isConnected = true := hpublish.isConnected.trans hconnected
  rw [hrest.fromInputs_eq hnone hopen hfits, (hpublish.tags hconnected (hrest.tags hopen hfits).1).2]
  have hmarks : ∀ tag ∈ maps.map (placed (marked P) reserved.streamIndex), tag.map.2 = true := by
    intro tag ht
    obtain ⟨offset, hoffset, rfl⟩ := List.mem_map.mp ht
    obtain ⟨map, hmap, rfl⟩ := List.mem_map.mp hoffset
    have hsubset := (remainingTags_delivers (P := P) (c := c) hports hstands
      (s.inputs.filterMap fun port => (port.nextEosTag (marked P)).map (port.position + ·)).min? 0).once.subset
    obtain ⟨tag, hlive, hleaves⟩ := List.mem_filterMap.mp (hsubset (List.mem_map_of_mem hmap))
    have hmark := (mem_live hstands (List.mem_filter.mp hlive).1).2
    unfold leavesAtEnd at hleaves
    dsimp only at hleaves
    split at hleaves
    · cases hleaves
    · exact (congrArg (·.map.2) (Option.some.inj hleaves)).symm.trans hmark
  rw [show reserved.tags ++ maps.map (placed (marked P) reserved.streamIndex) =
    maps.map (placed (marked P) reserved.streamIndex) from rfl, fromInputs, List.filter_eq_self.mpr hmarks, List.map_map]
  rfl

/-- The tags that have not been given up leave at the end. -/
theorem Trailed.ends (h : Trailed P c chunks arrived limit given s) (hpropagates : c.noTagPropagation = false)
    (hparams : remaining.1.2 = false) (hfits : ∀ o, (remainingSpan (marked P) c s remaining o).tagsDropped = 0)
    (hconnected : (s.outputs o).isConnected = true) (hsync : (s.outputs o).isSync = true) :
    let out := (s.outputs o).release (remainingSpan (marked P) c s remaining o)
    InOrder (handedOn out) ∧ Delivers (s.inputs.length ≤ 1)
      (leavesFinally (marked P) (outputIndexOf c chunks) limit (s.outputs o).position)
      (arrived.filter (inStream (marked P) limit arrived)) (handedOn out) := by
  obtain ⟨read, hstands⟩ := h.stands
  let lastIndex := (s.inputs.filterMap fun port => (port.nextEosTag (marked P)).map (port.position + ·)).min?
  have hring := handedOn_release (s.outputs o) (remainingSpan (marked P) c s remaining o)
  rw [fromInputs_remaining hpropagates h.ports hstands h.pending hparams hconnected (hfits o)] at hring
  have hout := h.outputs o hsync hconnected
  have hbefore : Delivers (s.inputs.length ≤ 1) (leavesFinally (marked P) (outputIndexOf c chunks) limit (s.outputs o).position)
      given (handedOn (s.outputs o)) :=
    hout.delivers.congr fun tag ht => (if_pos (h.before tag ht)).symm
  have hafter : Delivers (s.inputs.length ≤ 1) (leavesFinally (marked P) (outputIndexOf c chunks) limit (s.outputs o).position)
      ((live s.inputs).filter fun tag => lastIndex.all (tag.index ≤ ·)) _ :=
    (remainingTags_delivers (P := P) h.ports hstands lastIndex (s.outputs o).position).congr fun tag ht =>
      (if_neg (Nat.not_lt.mpr (h.waits tag (List.mem_filter.mp ht).1))).symm
  -- of the tags that have arrived the stream holds those that are given up and those before the first marker
  have hgiven : given.filter (inStream (marked P) limit arrived) = given := List.filter_eq_self.mpr fun tag ht => by
    simp [inStream, h.before tag ht]
  have hlive : (live s.inputs).filter (inStream (marked P) limit arrived) =
      (live s.inputs).filter fun tag => lastIndex.all (tag.index ≤ ·) := by
    refine List.filter_congr fun tag ht => Bool.eq_iff_iff.mpr ?_
    rw [nextEosTag_all hstands]
    have hwaits : ¬ tag.index < limit := Nat.not_lt.mpr (h.waits tag ht)
    unfold inStream
    rw [decide_eq_false hwaits, Bool.false_or, List.all_eq_true]
    constructor
    · intro hall marker hmarker heos
      have hmem := h.arrived.perm.mem_iff.mpr (List.mem_append_right given hmarker)
      have hmarker := h.waits marker hmarker
      have hbound := hall marker hmem
      rw [heos, decide_eq_false (Nat.not_lt.mpr hmarker)] at hbound
      simpa using hbound
    · intro hall marker hmarker
      rcases List.mem_append.mp (h.arrived.perm.mem_iff.mp hmarker) with hgiven | hlive
      · simp [h.before marker hgiven]
      · cases heos : (marked P).isEndOfStream marker.map with
        | false => simp
        | true => simp [hall marker hlive heos]
  have hsame := h.arrived.filter (inStream (marked P) limit arrived)
  rw [List.filter_append, hgiven, hlive] at hsame
  dsimp only
  rw [hring]
  refine ⟨List.pairwise_append.mpr ⟨hout.inOrder, ?_, fun tag ht next hn => ?_⟩, ?_⟩
  · exact List.pairwise_map.mpr (List.pairwise_of_forall fun _ _ => le_rfl)
  · obtain ⟨map, -, rfl⟩ := List.mem_map.mp hn
    exact hout.before tag ht
  · exact (hbefore.append hafter).same ⟨hsame.perm.symm, fun ho => (hsame.eq ho).symm⟩

end

/-! ### The end of the stream -/

section

variable [DecidableEq μ] [Fintype ω] {s t : State (μ × Bool) ω} {m : Nat} {arrived taken : List (Tag (μ × Bool))}
  {endOfStream : EndOfStream (μ × Bool) ω} {o : ω}

omit [Fintype ω] in
theorem release_remainingSpan (hsync : (s.outputs o).isSync = true) (remaining : (μ × Bool) × Free ω) :
    ((s.outputs o).release (remainingSpan (marked P) c s remaining o)).position = (s.outputs o).position := by
  have hreserved (inputSpans : List (InputSpan (μ × Bool))) : Frames (s.outputs o) none (forwardRemainingInputTags (marked P) c
      inputSpans ((s.outputs o).tryReserve 0 (remaining.2.samples o) (remaining.2.tags o))) := by
    unfold forwardRemainingInputTags
    split
    · exact ⟨rfl, rfl, rfl⟩
    · exact frames_publishAll (by exact ⟨rfl, rfl, rfl⟩) _
  have hframes : Frames (s.outputs o) (some 0) (remainingSpan (marked P) c s remaining o) := by
    unfold remainingSpan
    dsimp only
    rw [(applyChangedSettings_ports (marked P) c s remaining.1).2]
    exact frames_publishSamples (frames_publishPending (hreserved _) _) hsync rfl
  rw [Output.release, hframes.requested, Option.getD_some, Nat.add_zero]

omit [DecidableEq μ] [Fintype ω] in
theorem publishEoSTag_placed (out : Output (μ × Bool)) (fits : Bool) :
    (out.publishEoSTag (marked P).endOfStream fits).position = out.position ∧
      handedOn (out.publishEoSTag (marked P).endOfStream fits) = handedOn out := by
  unfold Output.publishEoSTag
  split
  · refine ⟨rfl, ?_⟩
    rw [handedOn, List.filter_append]
    exact List.append_nil _
  · exact ⟨rfl, rfl⟩

/-- A run that has come to its end. -/
theorem Taken.final (h : Taken P c chunks arrived m taken s) (haligned : Aligned μ ω c chunks)
    (hfinal : Final P c chunks s endOfStream t) (hsync : (s.outputs o).isSync = true)
    (hconnected : (s.outputs o).isConnected = true) :
    InOrder (handedOn (t.outputs o)) ∧ Delivers (s.inputs.length ≤ 1)
      (leavesFinally (marked P) (outputIndexOf c chunks) (m * chunks.1 + endOfStream.trailing) (t.outputs o).position)
      (arrived.filter (inStream (marked P) (m * chunks.1 + endOfStream.trailing) arrived)) (handedOn (t.outputs o)) := by
  obtain ⟨hends, call, houtcome, hchunks, hparams, hfits, hs⟩ := hfinal
  obtain ⟨remaining, hremaining, hunmarked⟩ := hends.remaining
  unfold ProcessBulk.step at hs
  dsimp only at hs
  split at hs
  · next hallowed =>
    cases hs
    obtain ⟨-, hfits⟩ := hfits
    rw [houtcome, hchunks] at hfits
    unfold workInternal
    rw [houtcome, hchunks]
    dsimp only
    have htaken := h.applyChangedSettings hparams
    have hprepared := prepared_eq (P := P) (s := s) haligned.noStride hallowed.1
    have hports := applyChangedSettings_ports (marked P) c s call.forwardParams
    rw [← hprepared] at htaken hports
    rw [← hports.1]
    rw [← hports.2] at hsync hconnected
    generalize prepared (marked P) c s call = s' at htaken hfits hsync hconnected ⊢
    -- with an epilogue or without, the last window has been handed on before the tags at the end
    obtain ⟨given, htrailed, hoSync, hoConnected, hlength⟩ : ∃ given,
        Trailed P c chunks arrived (m * chunks.1 + endOfStream.trailing) given
          (epilogueBeforeEnd (marked P) c s' chunks endOfStream.epilogue) ∧
        ((epilogueBeforeEnd (marked P) c s' chunks endOfStream.epilogue).outputs o).isSync = true ∧
        ((epilogueBeforeEnd (marked P) c s' chunks endOfStream.epilogue).outputs o).isConnected = true ∧
        (epilogueBeforeEnd (marked P) c s' chunks endOfStream.epilogue).inputs.length = s'.inputs.length := by
      unfold EndOfStream.trailing
      cases hepilogue : endOfStream.epilogue with
      | none => exact ⟨taken, htaken.trailed haligned, hsync, hconnected, rfl⟩
      | some epilogue =>
        obtain ⟨hconsumed, hpublished, hown⟩ := hends.epilogue epilogue hepilogue
        exact ⟨_, htaken.of_epilogue haligned hconsumed hpublished hown (hfits.1 epilogue hepilogue), hsync, hconnected,
          List.length_map _⟩
    have hends := htrailed.ends haligned.propagates hunmarked (hfits.2 remaining hremaining) hoConnected hoSync
    have hout : (atEndOfStream (marked P) c s' chunks endOfStream).outputs o =
        (((epilogueBeforeEnd (marked P) c s' chunks endOfStream.epilogue).outputs o).release
          (remainingSpan (marked P) c (epilogueBeforeEnd (marked P) c s' chunks endOfStream.epilogue) remaining o)).publishEoSTag
            (marked P).endOfStream (endOfStream.eosFits o) := by
      obtain ⟨forwardParams, free⟩ := remaining
      unfold atEndOfStream remainingAtEnd
      rw [show endOfStream.remaining = some (forwardParams, free) from hremaining]
      dsimp only
      unfold forwardTagsAtEndOfStream State.applyChangedSettings
      rw [if_neg (by simp [haligned.propagates])]
      unfold remainingSpan State.applyChangedSettings
      rw [if_neg (by simp [haligned.propagates])]
    obtain ⟨hposition, hhanded⟩ := publishEoSTag_placed (P := P)
      (((epilogueBeforeEnd (marked P) c s' chunks endOfStream.epilogue).outputs o).release
        (remainingSpan (marked P) c (epilogueBeforeEnd (marked P) c s' chunks endOfStream.epilogue) remaining o))
      (endOfStream.eosFits o)
    rw [hout, hposition, hhanded, release_remainingSpan hoSync, ← hlength]
    exact hends
  · cases hs

omit [DecidableEq μ] [Fintype ω] in
/-- What has left so far are the tags of the samples that have been taken. -/
theorem Taken.handedOn (h : Taken P c chunks arrived m taken s) (hsync : (s.outputs o).isSync = true)
    (hconnected : (s.outputs o).isConnected = true) :
    InOrder (handedOn (s.outputs o)) ∧ Delivers (s.inputs.length ≤ 1) (leaves (marked P) (outputIndexOf c chunks))
      (arrived.filter (·.index < m * chunks.1)) (ProcessBulk.handedOn (s.outputs o)) := by
  have hout := h.outputs o hsync hconnected
  have hsame := h.arrived.filter (·.index < m * chunks.1)
  have htaken : taken.filter (·.index < m * chunks.1) = taken :=
    List.filter_eq_self.mpr fun tag ht => decide_eq_true (h.before tag ht)
  have hlive : (live s.inputs).filter (·.index < m * chunks.1) = [] := List.filter_eq_nil_iff.mpr fun tag ht => by
    simpa using (mem_live h.stands ht).1
  rw [List.filter_append, htaken, hlive, List.append_nil] at hsame
  exact ⟨hout.inOrder, hout.delivers.same ⟨hsame.perm.symm, fun ho => (hsame.eq ho).symm⟩⟩

end

/-! ### One input, and as many samples out as in -/

section

variable [DecidableEq μ] [Fintype ω] {start s : State (μ × Bool) ω} {arrived : List (Tag (μ × Bool))}

theorem inputs_length (h : (system (marked P) c start).Trace (fun s a => Whole c chunks s a ∧ Fits (marked P) c s a) arrives
    arrived s) : s.inputs.length = start.inputs.length := by
  induction h with
  | start hs => rw [show _ = start from hs]
  | step _ _ hs ih => exact (step_inputs_length hs).trans ih

/-- What has left a block with one input port that keeps the tags' offsets: each tag of the samples that it has taken, at its
    input index, and once the stream has ended each other tag at the end. -/
theorem tags_keep_their_index (P : PropertyMap μ) (c : Arguments) (hkeeps : c.keepsTagOffsets = true)
    (hport : c.nInputPorts = 1) (start : State (μ × Bool) ω) (hbegins : Begins (1, 1) start)
    (hone : start.inputs.length = 1) {arrived : List (Tag (μ × Bool))} {s : State (μ × Bool) ω}
    (h : (system (marked P) c start).Trace (fun s a => Whole c (1, 1) s a ∧ Fits (marked P) c s a) arrives arrived s) :
    ∃ read, (∀ port ∈ s.inputs, port.isSync → port.isConnected → port.position = read) ∧
      ∀ o, (s.outputs o).isSync → (s.outputs o).isConnected →
        handedOn (s.outputs o) = (arrived.filter (·.index < read)).filterMap (leaves (marked P) id) ∧
        ∀ endOfStream t, Final P c (1, 1) s endOfStream t →
          handedOn (t.outputs o) = (arrived.filter (inStream (marked P) (read + endOfStream.trailing) arrived)).filterMap
            (leavesFinally (marked P) id (read + endOfStream.trailing) (t.outputs o).position) := by
  have haligned : Aligned μ ω c (1, 1) := Aligned.of_keepsTagOffsets hkeeps
  have hindex : outputIndexOf c (1, 1) = id := by
    simp only [Arguments.keepsTagOffsets, Bool.and_eq_true, Bool.not_eq_true'] at hkeeps
    funext index
    simp [outputIndexOf, hkeeps.1.1.1.1]
  have hlength : s.inputs.length ≤ 1 := (inputs_length h).trans hone |>.le
  obtain ⟨m, taken, htaken⟩ := Taken.run haligned (iff_of_true hport.le hone.le) hbegins h
  refine ⟨m * 1, fun port hport hsync hconnected => ?_, fun o hsync hconnected => ⟨?_, fun endOfStream t hfinal => ?_⟩⟩
  · exact (htaken.stands port (mem_streams.mpr ⟨hport, hsync, hconnected⟩)).position
  · rw [← hindex]
    exact (htaken.handedOn hsync hconnected).2.eq hlength
  · rw [← hindex]
    exact (htaken.final haligned hfinal hsync hconnected).2.eq hlength

end

def fresh : State (List Key × Bool) Unit := ⟨[⟨true, true, 0, []⟩], fun _ => ⟨true, true, 0, []⟩, ([], false)⟩

/-- A call that is handed `nSamples` and takes them, with as many tag slots on the output as there is `room`. -/
def takes (chunks : Nat × Nat) (nSamples room : Nat) : Act (List Key × Bool) Unit :=
  .work ⟨([], false), chunks, none, .process ⟨⟨1, nSamples, 1, 8, 0, 0⟩, ⟨fun _ => room, fun _ => 8⟩,
    ⟨.ok, fun _ => none, fun _ => none, fun _ => []⟩, false, 0, ([], false), ([], false)⟩⟩

def atLast : EndOfStream (List Key × Bool) Unit := ⟨none, some (([], false), ⟨fun _ => 8, fun _ => 8⟩), fun _ => true⟩

theorem fresh_begins (chunks : Nat × Nat) : Begins chunks fresh :=
  ⟨fun port hport => (by rw [List.mem_singleton.mp hport]), fun _ => rfl, rfl, 0,
    fun port hport _ _ => (by rw [List.mem_singleton.mp hport, Nat.zero_mul]), fun _ _ _ => (Nat.zero_mul _).symm⟩

theorem atLast_ends : Ends atLast := ⟨⟨_, rfl, rfl⟩, fun _ h => (by cases h)⟩

theorem takes_whole (c : Arguments) (s : State (List Key × Bool) Unit) (chunks : Nat × Nat) (nSamples room : Nat) :
    Whole c chunks s (takes chunks nSamples room) :=
  ⟨rfl, rfl, Or.inl ⟨rfl, fun _ => rfl, fun _ => rfl⟩, rfl, fun _ _ h => (by cases h), rfl⟩

/-- A tag at the second sample, which begins a chunk of two. -/
def secondSample (room : Nat) : List (Act (List Key × Bool) Unit) :=
  [.arrive 0 ⟨1, ([.triggerName], true)⟩, takes (1, 1) 1 room, takes (1, 1) 2 room]

theorem secondSample_keeps_its_index : ∃ s, (system (marked keys) plain fresh).Trace
      (fun s a => Whole plain (1, 1) s a ∧ Fits (marked keys) plain s a) arrives [⟨1, ([.triggerName], true)⟩] s ∧
    handedOn (s.outputs ()) = [⟨1, ([.triggerName], true)⟩] := by
  have harrives : Whole plain (1, 1) fresh (.arrive 0 ⟨1, ([.triggerName], true)⟩) := fun port hport _ _ => by
    cases hport
    exact ⟨rfl, by decide, fun _ h => by cases h⟩
  have htrace : (system (marked keys) plain fresh).Trace (fun s a => Whole plain (1, 1) s a ∧ Fits (marked keys) plain s a)
      arrives _ _ := (system (marked keys) plain fresh).trace_get (secondSample 8) rfl
    ⟨⟨harrives, trivial⟩, ⟨takes_whole .., by decide⟩, ⟨takes_whole .., by decide⟩, trivial⟩ (by decide)
  obtain ⟨read, hread, hout⟩ := tags_keep_their_index keys plain rfl rfl fresh (fresh_begins _) rfl htrace
  refine ⟨_, htrace, ?_⟩
  rw [(hout () rfl rfl).1, ← hread ⟨true, true, 3, []⟩ (by decide) rfl rfl]
  decide

/-- Where the output has no slot for it the tag is lost. Where the stream ends after two samples, fewer than the input's
    `min_samples`, it leaves at the end. -/
theorem secondSample_moves :
    (∃ s, (system (marked keys) plain fresh).Trace (fun s a => Whole plain (1, 1) s a) arrives
        [⟨1, ([.triggerName], true)⟩] s ∧ (∀ port ∈ s.inputs, port.position = 3) ∧ handedOn (s.outputs ()) = []) ∧
      ∃ s t, (system (marked keys) plain fresh).Trace (fun s a => Whole plain (1, 1) s a ∧ Fits (marked keys) plain s a) arrives
        [⟨1, ([.triggerName], true)⟩, ⟨2, ([.endOfStream], true)⟩] s ∧ Final keys plain (1, 1) s atLast t ∧
        handedOn (t.outputs ()) = [⟨0, ([.triggerName], true)⟩] := by
  have harrives : Whole plain (1, 1) fresh (.arrive 0 ⟨1, ([.triggerName], true)⟩) := fun port hport _ _ => by
    cases hport
    exact ⟨rfl, by decide, fun _ h => by cases h⟩
  constructor
  · have htrace : (system (marked keys) plain fresh).Trace (fun s a => Whole plain (1, 1) s a) arrives _ _ :=
      (system (marked keys) plain fresh).trace_get (secondSample 1) rfl
        ⟨harrives, takes_whole .., takes_whole .., trivial⟩ (by decide)
    exact ⟨_, htrace, by decide, by decide⟩
  · have hmarker : Whole plain (1, 1) ⟨[⟨true, true, 0, [⟨1, ([.triggerName], true)⟩]⟩], fresh.outputs, ([], false)⟩
        (.arrive 0 ⟨2, ([.endOfStream], true)⟩ : Act (List Key × Bool) Unit) := fun port hport _ _ => by
      cases hport
      exact ⟨rfl, by decide, fun _ h => by rw [List.mem_singleton.mp h]; decide⟩
    have htrace : (system (marked keys) plain fresh).Trace
        (fun s a => Whole plain (1, 1) s a ∧ Fits (marked keys) plain s a) arrives _ _ :=
      (system (marked keys) plain fresh).trace_get
        [.arrive 0 ⟨1, ([.triggerName], true)⟩, .arrive 0 ⟨2, ([.endOfStream], true)⟩] rfl
        ⟨⟨harrives, trivial⟩, ⟨hmarker, trivial⟩, trivial⟩ (by decide)
    exact ⟨_, _, htrace, ⟨atLast_ends, ⟨([], false), (1, 1), none, .endOfStream atLast⟩, rfl, rfl, rfl, by decide +kernel, rfl⟩,
      by decide +kernel⟩

/-! ### Several inputs, and chunks of any size -/

section

variable [DecidableEq μ] [Fintype ω]

/-- What has left a block that resamples: each tag of the samples that it has taken at the output index that the sizes of a
    chunk give its input index, alike ones of several inputs at least once, in the order of the indices; and once the
    stream has ended each other tag at the end. -/
theorem tags_leave_by_chunk_ratio (P : PropertyMap μ) (c : Arguments) (hresampling : c.resampling = true)
    (hstride : c.stride = false) (hpropagates : c.noTagPropagation = false) (hforward : c.backwardTagPropagation = false)
    (chunks : Nat × Nat) (hin : 0 < chunks.1) (start : State (μ × Bool) ω) (hports : c.nInputPorts = start.inputs.length)
    (hbegins : Begins chunks start)
    {arrived : List (Tag (μ × Bool))} {s : State (μ × Bool) ω}
    (h : (system (marked P) c start).Trace (fun s a => Whole c chunks s a ∧ Fits (marked P) c s a) arrives arrived s) :
    ∃ read, (∀ port ∈ s.inputs, port.isSync → port.isConnected → port.position = read) ∧
      ∀ o, (s.outputs o).isSync → (s.outputs o).isConnected →
        (InOrder (handedOn (s.outputs o)) ∧
          Delivers (start.inputs.length = 1) (leaves (marked P) fun index => index * chunks.2 / chunks.1)
            (arrived.filter (·.index < read)) (handedOn (s.outputs o))) ∧
        ∀ endOfStream t, Final P c chunks s endOfStream t →
          InOrder (handedOn (t.outputs o)) ∧
            Delivers (start.inputs.length = 1)
              (leavesFinally (marked P) (fun index => index * chunks.2 / chunks.1) (read + endOfStream.trailing)
                (t.outputs o).position)
              (arrived.filter (inStream (marked P) (read + endOfStream.trailing) arrived)) (handedOn (t.outputs o)) := by
  have haligned : Aligned μ ω c chunks := Aligned.of_resampling hresampling hstride hpropagates hforward hin
  have hindex : outputIndexOf c chunks = fun index => index * chunks.2 / chunks.1 := by
    funext index
    rw [outputIndexOf, if_pos hresampling, if_neg hin.ne']
  have hlength : start.inputs.length = 1 → s.inputs.length ≤ 1 := fun hone => ((inputs_length h).trans hone).le
  obtain ⟨m, taken, htaken⟩ := Taken.run haligned (by rw [hports]) hbegins h
  refine ⟨m * chunks.1, fun port hport hsync hconnected => ?_, fun o hsync hconnected => ⟨?_, fun endOfStream t hfinal => ?_⟩⟩
  · exact (htaken.stands port (mem_streams.mpr ⟨hport, hsync, hconnected⟩)).position
  · rw [← hindex]
    obtain ⟨hinOrder, hdelivers⟩ := htaken.handedOn hsync hconnected
    exact ⟨hinOrder, hdelivers.all, hdelivers.once, fun hone => hdelivers.eq (hlength hone)⟩
  · rw [← hindex]
    obtain ⟨hinOrder, hdelivers⟩ := htaken.final haligned hfinal hsync hconnected
    exact ⟨hinOrder, hdelivers.all, hdelivers.once, fun hone => hdelivers.eq (hlength hone)⟩

end

def resampler : Arguments := ⟨true, false, false, false, true, false, 1⟩

/-- A tag at the fourth sample, the second one of a chunk of two, which becomes three. -/
def fourthSample (room : Nat) : List (Act (List Key × Bool) Unit) :=
  [.arrive 0 ⟨3, ([.triggerName], true)⟩, takes (2, 3) 3 room, takes (2, 3) 2 room]

theorem fourthSample_leaves_fifth : ∃ s, (system (marked keys) resampler fresh).Trace
      (fun s a => Whole resampler (2, 3) s a ∧ Fits (marked keys) resampler s a) arrives [⟨3, ([.triggerName], true)⟩] s ∧
    handedOn (s.outputs ()) = [⟨4, ([.triggerName], true)⟩] := by
  have harrives : Whole resampler (2, 3) fresh (.arrive 0 ⟨3, ([.triggerName], true)⟩) := fun port hport _ _ => by
    cases hport
    exact ⟨rfl, by decide, fun _ h => by cases h⟩
  have htrace : (system (marked keys) resampler fresh).Trace
      (fun s a => Whole resampler (2, 3) s a ∧ Fits (marked keys) resampler s a) arrives _ _ :=
    (system (marked keys) resampler fresh).trace_get (fourthSample 8) rfl
      ⟨⟨harrives, trivial⟩, ⟨takes_whole .., by decide⟩, ⟨takes_whole .., by decide⟩, trivial⟩ (by decide)
  obtain ⟨read, hread, hout⟩ := tags_leave_by_chunk_ratio keys resampler rfl rfl rfl rfl (2, 3) (by decide) fresh
    rfl (fresh_begins _) htrace
  refine ⟨_, htrace, ?_⟩
  rw [(hout () rfl rfl).1.2.eq rfl, ← hread ⟨true, true, 4, []⟩ (by decide) rfl rfl]
  decide

/-- Where the output has no slot for it the tag is lost. Where the stream ends inside its chunk it leaves at the end. -/
theorem fourthSample_moves :
    (∃ s, (system (marked keys) resampler fresh).Trace (fun s a => Whole resampler (2, 3) s a) arrives
        [⟨3, ([.triggerName], true)⟩] s ∧ (∀ port ∈ s.inputs, port.position = 4) ∧ handedOn (s.outputs ()) = []) ∧
      ∃ s t, (system (marked keys) resampler fresh).Trace
        (fun s a => Whole resampler (3, 3) s a ∧ Fits (marked keys) resampler s a) arrives
        [⟨1, ([.triggerName], true)⟩, ⟨2, ([.endOfStream], true)⟩] s ∧ Final keys resampler (3, 3) s atLast t ∧
        handedOn (t.outputs ()) = [⟨0, ([.triggerName], true)⟩] := by
  constructor
  · have harrives : Whole resampler (2, 3) fresh (.arrive 0 ⟨3, ([.triggerName], true)⟩) := fun port hport _ _ => by
      cases hport
      exact ⟨rfl, by decide, fun _ h => by cases h⟩
    have htrace : (system (marked keys) resampler fresh).Trace (fun s a => Whole resampler (2, 3) s a) arrives _ _ :=
      (system (marked keys) resampler fresh).trace_get (fourthSample 1) rfl
        ⟨harrives, takes_whole .., takes_whole .., trivial⟩ (by decide)
    exact ⟨_, htrace, by decide, by decide⟩
  · have harrives : Whole resampler (3, 3) fresh (.arrive 0 ⟨1, ([.triggerName], true)⟩) := fun port hport _ _ => by
      cases hport
      exact ⟨rfl, by decide, fun _ h => by cases h⟩
    have hmarker : Whole resampler (3, 3) ⟨[⟨true, true, 0, [⟨1, ([.triggerName], true)⟩]⟩], fresh.outputs, ([], false)⟩
        (.arrive 0 ⟨2, ([.endOfStream], true)⟩ : Act (List Key × Bool) Unit) := fun port hport _ _ => by
      cases hport
      exact ⟨rfl, by decide, fun _ h => by rw [List.mem_singleton.mp h]; decide⟩
    have htrace : (system (marked keys) resampler fresh).Trace
        (fun s a => Whole resampler (3, 3) s a ∧ Fits (marked keys) resampler s a) arrives _ _ :=
      (system (marked keys) resampler fresh).trace_get
        [.arrive 0 ⟨1, ([.triggerName], true)⟩, .arrive 0 ⟨2, ([.endOfStream], true)⟩] rfl
        ⟨⟨harrives, trivial⟩, ⟨hmarker, trivial⟩, trivial⟩ (by decide)
    exact ⟨_, _, htrace, ⟨atLast_ends, ⟨([], false), (3, 3), none, .endOfStream atLast⟩, rfl, rfl, rfl, by decide +kernel, rfl⟩,
      by decide +kernel⟩

end GnuRadio.ProcessBulk
