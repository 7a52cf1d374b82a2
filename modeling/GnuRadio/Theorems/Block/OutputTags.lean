import GnuRadio.Block.OutputTags
import Mathlib.Data.List.Pairwise
import Mathlib.Data.List.TakeWhile

/-! The tags on an output's ring are in the order of their indices, as long as no `processOne()` publishes a tag before one
    that the forwarder has placed in the same span, and no tag is placed past what its span publishes. -/

namespace GnuRadio.OutputTags

variable {μ ω : Type} {P : PropertyMap μ} {c : Arguments} {s t : State μ ω} {a : Act μ ω} {out : Output μ}
  {span : OutputSpan μ} {requested : Option Nat} {n m k : Nat} {map : μ} {o : ω}

abbrev InOrder (tags : List (Tag μ)) : Prop := tags.Pairwise fun a b => a.index ≤ b.index

abbrev OffsetsInOrder (tags : List (Nat × μ)) : Prop := tags.Pairwise fun a b => a.1 ≤ b.1

/-- The ring is in order, and ends where the output's samples end. -/
structure Output.Ordered (out : Output μ) : Prop where
  inOrder : InOrder out.ring
  le_position : ∀ tag ∈ out.ring, tag.index ≤ out.position

structure Frames (out : Output μ) (requested : Option Nat) (span : OutputSpan μ) : Prop where
  streamIndex : span.streamIndex = out.position
  isSync : span.isSync = out.isSync
  requested : span.nRequestedSamplesToPublish = requested

/-- A span of an output whose tags are in order and lie at most `n` samples into it. -/
structure SpanOf (out : Output μ) (requested : Option Nat) (n : Nat) (span : OutputSpan μ) : Prop extends
    Frames out requested span where
  inOrder : InOrder span.tags
  within : ∀ tag ∈ span.tags, out.position ≤ tag.index ∧ tag.index ≤ out.position + n

/-- A span that takes no tag. -/
structure Closed (span : OutputSpan μ) : Prop where
  closed : span.isConnected = false ∨ span.room ≤ 1
  tags : span.tags = []

/-! ### Publishing tags -/

theorem SpanOf.mono (h : SpanOf out requested n span) (hle : n ≤ m) : SpanOf out requested m span :=
  { h with within := fun tag ht => ⟨(h.within tag ht).1, by have := (h.within tag ht).2; omega⟩ }

theorem Frames.of_nil (h : Frames out requested span) (ht : span.tags = []) : SpanOf out requested n span := by
  refine ⟨h, ?_, fun tag hm => ?_⟩
  · rw [ht]
    exact .nil
  · rw [ht] at hm
    cases hm

theorem Frames.clear (h : Frames out requested span) : SpanOf out requested n { span with tags := [] } :=
  Frames.of_nil ⟨h.streamIndex, h.isSync, h.requested⟩ rfl

theorem SpanOf.tryReserve (nSamples available room : Nat) : SpanOf out none n (out.tryReserve nSamples available room) :=
  Frames.of_nil ⟨rfl, rfl, rfl⟩ rfl

/-- A span publishes a tag at an offset, or drops it. -/
structure Publishes (P : PropertyMap μ) (map : μ) (k : Nat) (span span' : OutputSpan μ) : Prop where
  streamIndex : span'.streamIndex = span.streamIndex
  isSync : span'.isSync = span.isSync
  requested : span'.nRequestedSamplesToPublish = span.nRequestedSamplesToPublish
  tags : span'.tags = span.tags ∨ span'.tags = span.tags ++ [⟨span.streamIndex + k, P.canonicalizeKeys map⟩]

theorem Closed.tryReserve {nSamples available room : Nat} (h : ¬ (out.isConnected = true ∧ 1 < room)) :
    Closed (out.tryReserve nSamples available room) := by
  refine ⟨?_, rfl⟩
  cases hc : out.isConnected with
  | false => exact .inl hc
  | true => exact .inr (Nat.le_of_not_lt fun hlt => h ⟨hc, hlt⟩)

theorem publishTag_publishes (P : PropertyMap μ) (map : μ) (k : Nat) (span : OutputSpan μ) :
    Publishes P map k span (span.publishTag P map k) := by
  unfold OutputSpan.publishTag
  split
  · exact ⟨rfl, rfl, rfl, .inl rfl⟩
  · split
    · exact ⟨rfl, rfl, rfl, .inl rfl⟩
    · exact ⟨rfl, rfl, rfl, .inr rfl⟩

theorem publishEoSTag_publishes (P : PropertyMap μ) (map : μ) (k : Nat) (span : OutputSpan μ) :
    Publishes P map k span (span.publishEoSTag P map k) := by
  unfold OutputSpan.publishEoSTag
  split
  · exact ⟨rfl, rfl, rfl, .inl rfl⟩
  · split
    · exact ⟨rfl, rfl, rfl, .inl rfl⟩
    · exact ⟨rfl, rfl, rfl, .inr rfl⟩

theorem Frames.publish {span' : OutputSpan μ} (h : Frames out requested span) (hp : Publishes P map k span span') :
    Frames out requested span' :=
  ⟨hp.streamIndex.trans h.streamIndex, hp.isSync.trans h.isSync, hp.requested.trans h.requested⟩

/-- A tag that is not before the tags of the span. -/
theorem SpanOf.publish {span' : OutputSpan μ} (h : SpanOf out requested n span) (hp : Publishes P map k span span')
    (hk : k ≤ n) (hlast : ∀ tag ∈ span.tags, tag.index ≤ out.position + k) : SpanOf out requested n span' := by
  have ht := hp.tags
  rw [h.streamIndex] at ht
  refine ⟨h.toFrames.publish hp, ?_, ?_⟩
  · obtain ht | ht := ht
    · rw [ht]
      exact h.inOrder
    · rw [ht, InOrder, List.pairwise_append]
      refine ⟨h.inOrder, List.pairwise_singleton _ _, fun tag hm placed hp => ?_⟩
      rw [List.mem_singleton.mp hp]
      exact hlast tag hm
  · intro tag hm
    obtain ht | ht := ht
    · rw [ht] at hm
      exact h.within tag hm
    · rw [ht, List.mem_append, List.mem_singleton] at hm
      obtain hm | rfl := hm
      · exact h.within tag hm
      · exact ⟨Nat.le_add_right _ _, Nat.add_le_add_left hk _⟩

theorem SpanOf.publishTag (h : SpanOf out requested n span) (hk : k ≤ n)
    (hlast : ∀ tag ∈ span.tags, tag.index ≤ out.position + k) : SpanOf out requested n (span.publishTag P map k) :=
  h.publish (publishTag_publishes P map k span) hk hlast

theorem Closed.publishTag (h : Closed span) : Closed (span.publishTag P map k) := by
  obtain ⟨hc | hr, ht⟩ := h
  · simp only [OutputSpan.publishTag, hc, Bool.not_false, if_true]
    exact ⟨.inl hc, ht⟩
  · unfold OutputSpan.publishTag
    split
    · exact ⟨.inr hr, ht⟩
    · rw [if_pos (by rw [ht]; exact hr)]
      exact ⟨.inr hr, ht⟩

/-- Tags at offsets in order, none of them before the tags of the span. -/
theorem SpanOf.publishAll {tags : List (Nat × μ)} (h : SpanOf out requested n span) (hs : OffsetsInOrder tags)
    (hn : ∀ tag ∈ tags, tag.1 ≤ n) (hlast : ∀ present ∈ span.tags, ∀ tag ∈ tags, present.index ≤ out.position + tag.1) :
    SpanOf out requested n (span.publishAll P tags) := by
  induction tags generalizing span with
  | nil => exact h
  | cons tag tags ih =>
    obtain ⟨hhead, hs⟩ := List.pairwise_cons.mp hs
    refine ih (h.publishTag (hn tag (.head _)) fun present hp => hlast present hp tag (.head _)) hs
      (fun tag ht => hn tag (.tail _ ht)) fun present hp next hm => ?_
    obtain ht | ht := (publishTag_publishes P tag.2 tag.1 span).tags
    · rw [ht] at hp
      exact hlast present hp next (.tail _ hm)
    · rw [ht, List.mem_append, List.mem_singleton, h.streamIndex] at hp
      obtain hp | rfl := hp
      · exact hlast present hp next (.tail _ hm)
      · exact Nat.add_le_add_left (hhead next hm) _

theorem Closed.publishAll {tags : List (Nat × μ)} (h : Closed span) : Closed (span.publishAll P tags) := by
  induction tags generalizing span with
  | nil => exact h
  | cons tag tags ih => exact ih h.publishTag

/-- Forward parameters follow the last tag of the span. -/
theorem SpanOf.publishForwardParams (h : SpanOf out requested n span) :
    SpanOf out requested n (span.publishForwardParams P map) := by
  have last (tag : Tag μ) (ht : tag ∈ span.tags) :
      ∃ last ∈ span.tags, span.tags.getLast? = some last ∧ tag.index ≤ last.index := by
    have hne : span.tags ≠ [] := List.ne_nil_of_mem ht
    refine ⟨span.tags.getLast hne, List.getLast_mem hne, List.getLast?_eq_some_getLast hne, ?_⟩
    exact h.inOrder.rel_getLast_of_rel_getLast_getLast ht (Nat.le_refl _)
  unfold OutputSpan.publishForwardParams
  refine h.publishTag ?_ fun tag ht => ?_
  · cases hl : span.tags.getLast? with
    | none => simp
    | some tag =>
      have := (h.within tag (List.mem_of_getLast? hl)).2
      rw [h.streamIndex, Option.map_some, Option.getD_some]
      omega
  · obtain ⟨tag', hm, hl, hle⟩ := last tag ht
    have := (h.within tag' hm).1
    rw [hl, h.streamIndex, Option.map_some, Option.getD_some]
    omega

theorem SpanOf.publishPending (h : SpanOf out requested n span) : SpanOf out requested n (publishPending P map span) := by
  unfold OutputTags.publishPending
  split
  · exact h
  · exact h.publishForwardParams

theorem Closed.publishPending (h : Closed span) : Closed (publishPending P map span) := by
  unfold OutputTags.publishPending
  split
  · exact h
  · exact h.publishTag

theorem SpanOf.publishSamples (h : SpanOf out none n span) (k : Nat) :
    SpanOf out (some (if out.isSync then k else 0)) n (span.publishSamples k) := by
  have hr : span.publishSamples k = { span with nRequestedSamplesToPublish := some (if span.isSync then k else 0) } := by
    simp only [OutputSpan.publishSamples, h.requested]
  rw [hr]
  exact ⟨⟨h.streamIndex, h.isSync, by rw [h.isSync]⟩, h.inOrder, h.within⟩

theorem SpanOf.publishNone (h : SpanOf out none n span) : SpanOf out (some 0) n (span.publishSamples 0) := by
  have hs := h.publishSamples 0
  rwa [ite_self] at hs

theorem SpanOf.publishEoSTag (h : SpanOf out requested n span) :
    SpanOf out requested n (span.publishEoSTag P map n) :=
  h.publish (publishEoSTag_publishes P map n span) (Nat.le_refl n) fun tag ht => (h.within tag ht).2

/-! ### Merging by index -/

theorem mem_dropWhile {tags : List (Nat × μ)} (hs : OffsetsInOrder tags) {tag : Nat × μ}
    (h : tag ∈ tags.dropWhile (·.1 < k)) : k ≤ tag.1 := by
  induction tags with
  | nil => cases h
  | cons head tags ih =>
    obtain ⟨hle, hs⟩ := List.pairwise_cons.mp hs
    by_cases hk : head.1 < k
    · rw [List.dropWhile_cons_of_pos (by simpa using hk)] at h
      exact ih hs h
    · rw [List.dropWhile_cons_of_neg (by simpa using hk)] at h
      obtain rfl | h := List.mem_cons.mp h
      · exact Nat.le_of_not_lt hk
      · exact Nat.le_trans (Nat.le_of_not_lt hk) (hle tag h)

theorem mem_mergedByIndex {last : Nat} {present forwarded : List (Nat × μ)} {tag : Nat × μ}
    (h : tag ∈ OutputSpan.mergedByIndex last present forwarded) :
    tag ∈ present ∨ ∃ tag' ∈ forwarded, tag.1 = min tag'.1 last := by
  induction forwarded generalizing present with
  | nil => exact .inl h
  | cons head forwarded ih =>
    rw [OutputSpan.mergedByIndex, List.mem_append, List.mem_cons] at h
    obtain h | rfl | h := h
    · exact .inl ((List.takeWhile_sublist _).mem h)
    · exact .inr ⟨head, .head _, rfl⟩
    · obtain h | ⟨tag', hm, heq⟩ := ih h
      · exact .inl ((List.dropWhile_sublist _).mem h)
      · exact .inr ⟨tag', .tail _ hm, heq⟩

theorem mergedByIndex_inOrder {last : Nat} {present forwarded : List (Nat × μ)} (hp : OffsetsInOrder present)
    (hf : OffsetsInOrder forwarded) : OffsetsInOrder (OutputSpan.mergedByIndex last present forwarded) := by
  induction forwarded generalizing present with
  | nil => exact hp
  | cons head forwarded ih =>
    obtain ⟨hhead, hf⟩ := List.pairwise_cons.mp hf
    rw [OutputSpan.mergedByIndex, OffsetsInOrder, List.pairwise_append, List.pairwise_cons]
    -- what is left to merge does not lie before the forwarded tag
    have rest : ∀ tag ∈ OutputSpan.mergedByIndex last (present.dropWhile (·.1 < min head.1 last)) forwarded,
        min head.1 last ≤ tag.1 := by
      intro tag hm
      obtain hm | ⟨tag', hm, heq⟩ := mem_mergedByIndex hm
      · exact mem_dropWhile hp hm
      · have := hhead tag' hm
        omega
    refine ⟨hp.sublist (List.takeWhile_sublist _), ⟨rest, ih (hp.sublist (List.dropWhile_sublist _)) hf⟩, ?_⟩
    intro tag hm next hn
    have hlt : tag.1 < min head.1 last := by simpa using List.mem_takeWhile_imp hm
    obtain rfl | hn := List.mem_cons.mp hn
    · exact Nat.le_of_lt hlt
    · exact Nat.le_trans (Nat.le_of_lt hlt) (rest next hn)

theorem SpanOf.publishMergedByIndex {forwarded : List (Nat × μ)} (h : SpanOf out requested n span)
    (hf : OffsetsInOrder forwarded) (hn : ∀ tag ∈ forwarded, min tag.1 (requested.getD span.size) ≤ n) :
    SpanOf out requested n (span.publishMergedByIndex P forwarded) := by
  unfold OutputSpan.publishMergedByIndex
  split
  · exact h
  · refine SpanOf.publishAll h.toFrames.clear (mergedByIndex_inOrder ?_ hf) ?_ (fun _ hm => by cases hm)
    · rw [OffsetsInOrder, List.pairwise_map]
      exact h.inOrder.imp fun hle => Nat.sub_le_sub_right hle _
    · intro tag hm
      obtain hm | ⟨tag', hm, heq⟩ := mem_mergedByIndex hm
      · obtain ⟨present, hp, rfl⟩ := List.mem_map.mp hm
        have := (h.within present hp).2
        show present.index - span.streamIndex ≤ n
        rw [h.streamIndex]
        omega
      · rw [heq, h.requested]
        exact hn tag' hm

theorem Closed.publishMergedByIndex {forwarded : List (Nat × μ)} (h : Closed span) :
    Closed (span.publishMergedByIndex P forwarded) := by
  unfold OutputSpan.publishMergedByIndex
  split
  · exact h
  · exact Closed.publishAll ⟨h.closed, rfl⟩

/-! ### The forwarder -/

section Forward

variable [DecidableEq μ] {chunks : Nat × Nat} {inputSpans : List (InputSpan μ)} {window : Nat}

theorem outputIndexOf_mono {i j : Nat} (h : i ≤ j) : outputIndexOf c chunks i ≤ outputIndexOf c chunks j := by
  unfold outputIndexOf
  split
  · split
    · exact h
    · exact Nat.div_le_div_right (Nat.mul_le_mul_right _ h)
  · exact h

omit [DecidableEq μ] in
theorem collect_eq_some {tag : Int × μ} {tag' : Nat × μ} (h : collect P c chunks tag = some tag') :
    P.isEmpty (P.filterAndSubstituteTag tag.2) = false ∧
      tag'.1 = if c.backwardTagPropagation then 0 else outputIndexOf c chunks (max 0 tag.1).toNat := by
  unfold collect at h
  by_cases he : P.isEmpty (P.filterAndSubstituteTag tag.2) = true
  · rw [if_pos he] at h
    cases h
  · rw [if_neg he] at h
    cases h
    exact ⟨by simpa using he, rfl⟩

omit [DecidableEq μ] in
theorem collect_mono {a b : Int × μ} {a' b' : Nat × μ} (h : a.1.toNat ≤ b.1.toNat) (ha : collect P c chunks a = some a')
    (hb : collect P c chunks b = some b') : a'.1 ≤ b'.1 := by
  rw [(collect_eq_some ha).2, (collect_eq_some hb).2]
  split
  · exact Nat.le_refl 0
  · exact outputIndexOf_mono (by omega)

/-- The tags of the spans, one span after another, are in the order of their offsets. -/
def SpansInOrder (inputSpans : List (InputSpan μ)) : Prop :=
  ((inputSpans.filter fun span => span.isSync && span.isConnected).flatMap fun span =>
    span.rawTags.map fun tag => tag.index - span.streamIndex).Pairwise (· ≤ ·)

omit [DecidableEq μ] in
theorem SpansInOrder.tags (h : SpansInOrder inputSpans) (window : Nat) :
    ((inputSpans.filter fun span => span.isSync && span.isConnected).flatMap (·.tags window)).Pairwise
      fun a b => a.1.toNat ≤ b.1.toNat := by
  have hoffset (span : InputSpan μ) : ((span.tags window).map (·.1.toNat)).Sublist
      (span.rawTags.map fun tag => tag.index - span.streamIndex) := by
    have heq : (span.tags window).map (·.1.toNat) = (span.rawTags.takeWhile
        (·.index < span.streamIndex + window)).map fun tag => tag.index - span.streamIndex := by
      rw [InputSpan.tags, List.map_map]
      exact List.map_congr_left fun tag _ => by simp only [Function.comp]; omega
    rw [heq]
    exact (List.takeWhile_sublist _).map _
  rw [← List.pairwise_map, List.map_flatMap]
  unfold SpansInOrder at h
  revert h
  generalize inputSpans.filter (fun span => span.isSync && span.isConnected) = spans
  intro h
  refine h.sublist ?_
  clear h
  induction spans with
  | nil => exact .slnil
  | cons span spans ih =>
    rw [List.flatMap_cons, List.flatMap_cons]
    exact (hoffset span).append ih

omit [DecidableEq μ] in
/-- A single span is in order. -/
theorem spansInOrder_of_length (hlen : inputSpans.length ≤ 1)
    (h : ∀ span ∈ inputSpans, span.isSync = true → span.isConnected = true → InOrder span.rawTags) :
    SpansInOrder inputSpans := by
  unfold SpansInOrder
  match inputSpans with
  | [] => exact .nil
  | [span] =>
    rw [List.filter_singleton]
    cases hport : span.isSync && span.isConnected with
    | true =>
      rw [Bool.and_eq_true] at hport
      rw [cond_true, List.flatMap_singleton, List.pairwise_map]
      exact (h span (.head _) hport.1 hport.2).imp fun hle => Nat.sub_le_sub_right hle _
    | false => exact .nil

theorem deduplicate_sublist (seen tags : List (Int × μ)) : (deduplicate seen tags).Sublist tags := by
  induction tags generalizing seen with
  | nil => exact .slnil
  | cons head tags ih =>
    rw [deduplicate]
    split
    · exact (ih seen).cons head
    · exact (ih _).cons_cons head

/-- The tags of several input ports are sorted. -/
theorem forwardedTags_inOrder (h : c.nInputPorts ≤ 1 → SpansInOrder inputSpans) :
    OffsetsInOrder (forwardedTags P c chunks inputSpans window) := by
  unfold forwardedTags
  dsimp only
  split
  case isTrue hl =>
    exact List.Pairwise.filterMap (collect P c chunks) (fun a b hab a' ha b' hb => collect_mono hab ha hb) ((h hl).tags window)
  case isFalse =>
    have sorted (tags : List (Nat × μ)) :
        (tags.mergeSort fun a b => a.1 ≤ b.1).Pairwise fun a b => decide (a.1 ≤ b.1) = true := by
      apply List.pairwise_mergeSort
      · intro a b d hab hbd
        exact decide_eq_true (Nat.le_trans (of_decide_eq_true hab) (of_decide_eq_true hbd))
      · intro a b
        rw [Bool.or_eq_true, decide_eq_true_eq, decide_eq_true_eq]
        exact Nat.le_total a.1 b.1
    exact (sorted _).imp of_decide_eq_true

/-- A forwarded tag is one of the window, and leaves at its own offset or at the head of the span. -/
theorem mem_forwardedTags {tag : Nat × μ} (h : tag ∈ forwardedTags P c chunks inputSpans window) :
    ∃ span ∈ inputSpans, span.isSync = true ∧ span.isConnected = true ∧
      ∃ present ∈ span.rawTags, present.index < span.streamIndex + window ∧
        P.isEmpty (P.filterAndSubstituteTag present.map) = false ∧
        tag.1 = if c.backwardTagPropagation then 0 else outputIndexOf c chunks (present.index - span.streamIndex) := by
  have collected (tags : List (Int × μ)) (hc : tag ∈ tags.filterMap (collect P c chunks))
      (hm : ∀ t ∈ tags, t ∈ (inputSpans.filter fun span => span.isSync && span.isConnected).flatMap (·.tags window)) :
      ∃ span ∈ inputSpans, span.isSync = true ∧ span.isConnected = true ∧
        ∃ present ∈ span.rawTags, present.index < span.streamIndex + window ∧
          P.isEmpty (P.filterAndSubstituteTag present.map) = false ∧
          tag.1 = if c.backwardTagPropagation then 0
            else outputIndexOf c chunks (present.index - span.streamIndex) := by
    obtain ⟨t, ht, hc⟩ := List.mem_filterMap.mp hc
    obtain ⟨span, hs, ht⟩ := List.mem_flatMap.mp (hm t ht)
    obtain ⟨hs, hsync⟩ := List.mem_filter.mp hs
    obtain ⟨present, hp, rfl⟩ := List.mem_map.mp ht
    obtain ⟨he, ho⟩ := collect_eq_some hc
    have hsync : span.isSync = true ∧ span.isConnected = true := by simpa using hsync
    have hlt : present.index < span.streamIndex + window := by simpa using List.mem_takeWhile_imp hp
    have hoffset : (max 0 ((present.index : Int) - span.streamIndex)).toNat = present.index - span.streamIndex := by omega
    rw [hoffset] at ho
    exact ⟨span, hs, hsync.1, hsync.2, present, (List.takeWhile_sublist _).mem hp, hlt, he, ho⟩
  unfold forwardedTags at h
  split at h
  · exact collected _ h fun _ ht => ht
  · exact collected _ (List.mem_mergeSort.mp h) fun _ ht => (deduplicate_sublist _ _).mem ht

theorem forwardInputTags_cases (P : PropertyMap μ) (c : Arguments) (chunks : Nat × Nat) (inputSpans : List (InputSpan μ))
    (processedIn : Nat) (tagWindowOverride : Option Nat) (span : OutputSpan μ) :
    forwardInputTags P c chunks inputSpans processedIn tagWindowOverride span = span ∨
      c.noTagPropagation = false ∧
        forwardInputTags P c chunks inputSpans processedIn tagWindowOverride span =
          span.publishMergedByIndex P (forwardedTags P c chunks inputSpans
            (tagWindowOverride.getD (if c.hasWholeChunkTagWindow then processedIn else 1))) := by
  unfold forwardInputTags
  by_cases hc : c.noTagPropagation = true
  · exact .inl (if_pos hc)
  · rw [if_neg hc]
    dsimp only
    by_cases hf : forwardedTags P c chunks inputSpans
        (tagWindowOverride.getD (if c.hasWholeChunkTagWindow then processedIn else 1)) = []
    · exact .inl (if_pos hf)
    · exact .inr ⟨by simpa using hc, if_neg hf⟩

theorem SpanOf.forwardInputTags {processedIn : Nat} {tagWindowOverride : Option Nat} (h : SpanOf out requested n span)
    (hs : c.noTagPropagation = false → OffsetsInOrder (forwardedTags P c chunks inputSpans
      (tagWindowOverride.getD (if c.hasWholeChunkTagWindow then processedIn else 1))))
    (hn : c.noTagPropagation = false → ∀ tag ∈ forwardedTags P c chunks inputSpans
      (tagWindowOverride.getD (if c.hasWholeChunkTagWindow then processedIn else 1)),
      min tag.1 (requested.getD span.size) ≤ n) :
    SpanOf out requested n (forwardInputTags P c chunks inputSpans processedIn tagWindowOverride span) := by
  obtain heq | ⟨hc, heq⟩ := forwardInputTags_cases P c chunks inputSpans processedIn tagWindowOverride span
  · rw [heq]
    exact h
  · rw [heq]
    exact h.publishMergedByIndex (hs hc) (hn hc)

/-- Before a call publishes, the forwarder places no tag past the size of the span. -/
theorem SpanOf.forward_fresh (hs : c.nInputPorts ≤ 1 → SpansInOrder inputSpans) (nSamples available room processedIn : Nat)
    (tagWindowOverride : Option Nat) :
    SpanOf out none (out.tryReserve nSamples available room).size
      (OutputTags.forwardInputTags P c chunks inputSpans processedIn tagWindowOverride
        (out.tryReserve nSamples available room)) :=
  (SpanOf.tryReserve nSamples available room).forwardInputTags (fun _ => forwardedTags_inOrder hs)
    fun _ _ _ => Nat.min_le_right _ _

theorem Closed.forwardInputTags {processedIn : Nat} {tagWindowOverride : Option Nat} (h : Closed span) :
    Closed (forwardInputTags P c chunks inputSpans processedIn tagWindowOverride span) := by
  obtain heq | ⟨-, heq⟩ := forwardInputTags_cases P c chunks inputSpans processedIn tagWindowOverride span
  · rw [heq]
    exact h
  · rw [heq]
    exact h.publishMergedByIndex

theorem SpanOf.forwardRemainingInputTags (h : SpanOf out requested 0 span) :
    SpanOf out requested 0 (forwardRemainingInputTags P c inputSpans span) := by
  have zero (maps : List μ) (tag : Nat × μ) (hm : tag ∈ maps.map fun map => (0, map)) : tag.1 = 0 := by
    obtain ⟨map, -, rfl⟩ := List.mem_map.mp hm
    rfl
  unfold OutputTags.forwardRemainingInputTags
  split
  · exact h
  · refine h.publishAll ?_ (fun tag hm => Nat.le_of_eq (zero _ tag hm)) fun present hp tag hm => ?_
    · exact List.pairwise_map.mpr (List.pairwise_of_forall fun _ _ => Nat.le_refl 0)
    · rw [zero _ tag hm]
      exact (h.within present hp).2

end Forward

/-! ### Releasing a span -/

theorem Output.Ordered.release (h : out.Ordered) (hs : SpanOf out (some n) n span) : (out.release span).Ordered := by
  have hr : (out.release span).position = out.position + n := by rw [Output.release, hs.requested, Option.getD_some]
  refine ⟨List.pairwise_append.mpr ⟨h.inOrder, hs.inOrder, fun tag ht next hn => ?_⟩, fun tag ht => ?_⟩
  · exact Nat.le_trans (h.le_position tag ht) (hs.within next hn).1
  · rw [hr]
    obtain ht | ht := List.mem_append.mp ht
    · exact Nat.le_trans (h.le_position tag ht) (Nat.le_add_right _ _)
    · exact (hs.within tag ht).2

theorem Output.Ordered.publishEoSTag (h : out.Ordered) (map : μ) (fits : Bool) : (out.publishEoSTag map fits).Ordered := by
  unfold Output.publishEoSTag
  split
  · refine ⟨List.pairwise_append.mpr ⟨h.inOrder, List.pairwise_singleton _ _, fun tag ht next hn => ?_⟩, fun tag ht => ?_⟩
    · rw [List.mem_singleton.mp hn]
      exact h.le_position tag ht
    · obtain ht | ht := List.mem_append.mp ht
      · exact h.le_position tag ht
      · rw [List.mem_singleton.mp ht]
  · exact h

theorem SpanOf.clipTags (h : SpanOf out (some n) m span) : SpanOf out (some n) n (clipTags span) := by
  have hr : span.nRequestedSamplesToPublish.getD 0 = n := by rw [h.requested, Option.getD_some]
  refine ⟨⟨h.streamIndex, h.isSync, h.requested⟩, ?_, ?_⟩
  · refine List.pairwise_map.mpr (h.inOrder.imp fun hle => ?_)
    exact Nat.le_min.mpr ⟨Nat.le_trans (Nat.min_le_left _ _) hle, Nat.min_le_right _ _⟩
  · intro tag hm
    obtain ⟨present, hp, rfl⟩ := List.mem_map.mp hm
    have := (h.within present hp).1
    show out.position ≤ min present.index _ ∧ min present.index _ ≤ _
    rw [h.streamIndex, hr]
    omega

/-! ### What a call keeps -/

structure Inv (c : Arguments) (s : State μ ω) : Prop where
  inputs : ∀ port ∈ s.inputs, InOrder port.tags
  outputs : ∀ o, (s.outputs o).Ordered
  synchronous : c.allSynchronous = true → ∀ o, (s.outputs o).isSync = true

theorem consume_inOrder {port : Input μ} (h : InOrder port.tags) (nSamples nTagSamples : Nat) :
    InOrder (port.consume nSamples nTagSamples).tags := by
  unfold Input.consume
  split
  · exact h.sublist (List.dropWhile_sublist _)
  · exact h

theorem forall_mem_map {inputs : List (Input μ)} {f : Input μ → Input μ} (h : ∀ port ∈ inputs, InOrder port.tags)
    (hf : ∀ port, InOrder port.tags → InOrder (f port).tags) : ∀ port ∈ inputs.map f, InOrder port.tags := by
  intro port hp
  obtain ⟨present, hm, rfl⟩ := List.mem_map.mp hp
  exact hf present (h present hm)

/-- The spans of a call are released, each with its tags among the samples that it publishes. -/
theorem Inv.release (h : Inv c s) {f : Input μ → Input μ} (hf : ∀ port, InOrder port.tags → InOrder (f port).tags)
    {spans : ω → OutputSpan μ} (hs : ∀ o, ∃ n, SpanOf (s.outputs o) (some n) n (spans o)) (pending : μ) :
    Inv c ⟨s.inputs.map f, fun o => (s.outputs o).release (spans o), pending⟩ where
  inputs := forall_mem_map h.inputs hf
  outputs o := by
    obtain ⟨n, hn⟩ := hs o
    exact (h.outputs o).release hn
  synchronous := h.synchronous

theorem Inv.applyChangedSettings (h : Inv c s) (map : μ) : Inv c (s.applyChangedSettings P c map) := by
  unfold State.applyChangedSettings
  split
  · exact h
  · exact ⟨h.inputs, h.outputs, h.synchronous⟩

section Work

variable [DecidableEq μ] {chunks : Nat × Nat} {window bound : Nat} {process : Process μ ω} {call : Call μ ω}

/-- No tag among the next `nSamples` of an input is handed on from past a sample. -/
def NothingPast (P : PropertyMap μ) (inputs : List (Input μ)) (nSamples limit : Nat) : Prop :=
  ∀ port ∈ inputs, port.isSync = true → port.isConnected = true → ∀ tag ∈ port.tags,
    tag.index < port.position + nSamples → port.position + limit < tag.index →
      P.isEmpty (P.filterAndSubstituteTag tag.map) = true

omit [DecidableEq μ] in
theorem NothingPast.of_lt (inputs : List (Input μ)) (n : Nat) : NothingPast P inputs n n :=
  fun _ _ _ _ _ _ hlt hgt => absurd hlt (Nat.not_lt.mpr (Nat.le_of_lt hgt))

theorem forwarded_le {inputs : List (Input μ)} {tag : Nat × μ} (h : NothingPast P inputs (min n window) bound)
    (hm : tag ∈ forwardedTags P c chunks (inputs.map (·.get n)) window) : tag.1 ≤ outputIndexOf c chunks bound := by
  obtain ⟨span, hs, hsync, hconnected, present, hp, hlt, he, ho⟩ := mem_forwardedTags hm
  obtain ⟨port, hport, rfl⟩ := List.mem_map.mp hs
  have hn : present.index < port.position + n := by simpa using List.mem_takeWhile_imp hp
  have hlt : present.index < port.position + window := hlt
  have hle : present.index - port.position ≤ bound := by
    have := h port hport hsync hconnected present ((List.takeWhile_sublist _).mem hp) (by omega)
    by_cases hgt : port.position + bound < present.index
    · rw [this hgt] at he
      cases he
    · omega
  rw [ho]
  split
  · exact Nat.zero_le _
  · exact outputIndexOf_mono hle

omit [DecidableEq μ] in
theorem outputIndexOf_zero : outputIndexOf c chunks 0 = 0 := by
  unfold outputIndexOf
  split
  · split
    · rfl
    · rw [Nat.zero_mul, Nat.zero_div]
  · rfl

/-- With `BackwardTagPropagation` every tag leaves at the head of its span. -/
theorem forwarded_backward {inputSpans : List (InputSpan μ)} {tag : Nat × μ} (hb : c.backwardTagPropagation = true)
    (hm : tag ∈ forwardedTags P c chunks inputSpans window) : tag.1 = 0 := by
  obtain ⟨_, _, _, _, _, _, _, _, ho⟩ := mem_forwardedTags hm
  rw [ho, if_pos hb]

theorem Inv.skipInputSamples {nSkip : Nat} {free : Free ω} (h : Inv c s)
    (hw : c.nInputPorts ≤ 1 → SpansInOrder (s.inputs.map (·.get nSkip)))
    (hf : ∀ o, (s.outputs o).isConnected = true → (s.outputs o).isSync = false → 1 < free.tags o → 0 < free.samples o →
      c.noTagPropagation = false → c.backwardTagPropagation = false → NothingPast P s.inputs nSkip 0) :
    Inv c (skipInputSamples P c s chunks nSkip free) := by
  refine h.release (fun port hp => consume_inOrder hp nSkip nSkip) (fun o => ⟨0, ?_⟩) _
  have start : SpanOf (s.outputs o) none 0 ((s.outputs o).tryReserve 0 (free.samples o) (free.tags o)) :=
    .tryReserve 0 (free.samples o) (free.tags o)
  have hs : SpanOf (s.outputs o) none 0 (forwardInputTags P c chunks (s.inputs.map (·.get nSkip)) nSkip (some nSkip)
      ((s.outputs o).tryReserve 0 (free.samples o) (free.tags o))) := by
    by_cases open' : (s.outputs o).isConnected = true ∧ 1 < free.tags o
    · refine start.forwardInputTags (fun _ => forwardedTags_inOrder hw) fun hc tag hm => ?_
      cases hsync : (s.outputs o).isSync with
      | true => simp [Output.tryReserve, hsync]
      | false =>
        by_cases hb : c.backwardTagPropagation = true
        · rw [forwarded_backward hb hm]
          exact Nat.min_le_left _ _
        · by_cases hfree : 0 < free.samples o
          · have := hf o open'.1 hsync open'.2 hfree hc (by simpa using hb)
            have hle := forwarded_le (by rw [Option.getD_some, Nat.min_self]; exact this) hm
            rw [outputIndexOf_zero] at hle
            exact Nat.le_trans (Nat.min_le_left _ _) hle
          · simp [Output.tryReserve, hsync, Nat.eq_zero_of_not_pos hfree]
    · exact (SpanOf.forward_fresh hw 0 (free.samples o) (free.tags o) nSkip
        (some nSkip)).toFrames.of_nil (Closed.tryReserve open').forwardInputTags.tags
  exact hs.publishNone

/-! ### A chunk -/

/-- The last sample that a tag of the chunk may stand at, where the loop breaks. -/
def Loop.limit : Loop μ → Option Nat
  | .completes => none
  | .publishes i _ => some i
  | .stops i => some (i + 1)

/-- The loop breaks behind the tags that the forwarder has placed. On an asynchronous output, which publishes no sample,
    the block places its own tag at the head of the span. -/
structure Fits (P : PropertyMap μ) (c : Arguments) (s : State μ ω) (process : Process μ ω) (o : ω) : Prop where
  inputTags : c.keepsTagOffsets = true → ∀ limit, process.loop.limit = some limit →
    NothingPast P s.inputs process.processedIn limit
  ownTag : (s.outputs o).isSync = false → ∀ i tag, process.loop = .publishes i tag → i = 0

/-- What is handed on before `processOne()` is in order where the block's window is the whole chunk. -/
abbrev ChunkInOrder (c : Arguments) (s : State μ ω) (process : Process μ ω) : Prop :=
  c.nInputPorts ≤ 1 → c.hasWholeChunkTagWindow = true → SpansInOrder (s.inputs.map (·.get process.processedIn))

theorem SpanOf.forwardBefore (chunks : Nat × Nat) (hw : ChunkInOrder c s process) (o : ω)
    (hn : c.keepsTagOffsets = true → NothingPast P s.inputs process.processedIn n) :
    SpanOf (s.outputs o) none n (forwardBefore P c s chunks process o) := by
  have start : SpanOf (s.outputs o) none n
      ((s.outputs o).tryReserve process.processedIn (process.free.samples o) (process.free.tags o)) :=
    .tryReserve process.processedIn (process.free.samples o) (process.free.tags o)
  unfold OutputTags.forwardBefore
  refine SpanOf.publishPending ?_
  split
  · exact start
  case isFalse hr =>
    have hr : c.resampling = false := by simpa [Arguments.mapsTagsByChunkRatio] using hr
    -- outside a whole window only the tags up to the first sample leave
    have first (hwhole : ¬ c.hasWholeChunkTagWindow = true) (tag : Nat × μ)
        (hm : tag ∈ forwardedTags P c chunks (s.inputs.map (·.get process.processedIn)) 1) : tag.1 = 0 := by
      have hnone : NothingPast P s.inputs (min process.processedIn 1) 0 :=
        fun port _ _ _ tag _ hlt hgt => absurd hlt (by omega)
      have hle := forwarded_le hnone hm
      rw [outputIndexOf_zero] at hle
      exact Nat.le_zero.mp hle
    refine start.forwardInputTags (fun _ => ?_) fun hc tag hm => Nat.le_trans (Nat.min_le_left _ _) ?_
    · rw [Option.getD_none]
      by_cases hwhole : c.hasWholeChunkTagWindow = true
      · exact forwardedTags_inOrder fun hports => hw hports hwhole
      · rw [if_neg hwhole]
        refine List.pairwise_of_forall_mem_list fun a ha b _ => ?_
        rw [first hwhole a ha]
        exact Nat.zero_le _
    · rw [Option.getD_none] at hm
      by_cases hb : c.backwardTagPropagation = true
      · rw [forwarded_backward hb hm]
        exact Nat.zero_le n
      · cases hk : c.keepsTagOffsets with
        | true =>
          rw [if_pos (by simp [Arguments.hasWholeChunkTagWindow, hk])] at hm
          have hle := forwarded_le (by rw [Nat.min_self]; exact hn hk) hm
          simpa [outputIndexOf, hr] using hle
        | false =>
          have hwhole : ¬ c.hasWholeChunkTagWindow = true := by
            simp [Arguments.hasWholeChunkTagWindow, Arguments.mapsTagsByChunkRatio, hk, hr, hb]
          rw [if_neg hwhole] at hm
          rw [first hwhole tag hm]
          exact Nat.zero_le n

theorem Closed.forwardBefore (h : ¬ ((s.outputs o).isConnected = true ∧ 1 < process.free.tags o)) :
    Closed (forwardBefore P c s chunks process o) := by
  unfold OutputTags.forwardBefore
  refine Closed.publishPending ?_
  split
  · exact .tryReserve h
  · exact (Closed.tryReserve h).forwardInputTags

omit [DecidableEq μ] in
theorem Frames.invokeProcessOne {loop : Loop μ} (h : Frames out requested span) :
    Frames out requested (invokeProcessOne P loop span) := by
  cases loop with
  | publishes i tag => exact h.publish (publishTag_publishes P tag i span)
  | completes => exact h
  | stops i => exact h

omit [DecidableEq μ] in
theorem Closed.invokeProcessOne {loop : Loop μ} (h : Closed span) : Closed (invokeProcessOne P loop span) := by
  cases loop with
  | publishes i tag => exact h.publishTag
  | completes => exact h
  | stops i => exact h

/-- Behind `processOne()`, every tag lies among the samples that are published. -/
theorem invokeProcessOne_spanOf (chunks : Nat × Nat) (h : Inv c s) (hw : ChunkInOrder c s process) (hbreaks : process.loop.breaksBefore process.processedIn = true) (o : ω)
    (hfit : (s.outputs o).isConnected = true → 1 < process.free.tags o → Fits P c s process o) :
    SpanOf (s.outputs o) none (if (s.outputs o).isSync then process.loop.processed process.processedIn else 0)
      (invokeProcessOne P process.loop (forwardBefore P c s chunks process o)) := by
  have all : NothingPast P s.inputs process.processedIn process.processedIn := .of_lt s.inputs process.processedIn
  by_cases open' : (s.outputs o).isConnected = true ∧ 1 < process.free.tags o
  case neg =>
    have hframes := (SpanOf.forwardBefore chunks hw o fun _ => all).toFrames
    exact hframes.invokeProcessOne.of_nil (Closed.forwardBefore open').invokeProcessOne.tags
  case pos =>
    have hf := hfit open'.1 open'.2
    have keeps (hs : (s.outputs o).isSync = false) : c.keepsTagOffsets = false := by
      cases hk : c.keepsTagOffsets with
      | false => rfl
      | true =>
        simp only [Arguments.keepsTagOffsets, Bool.and_eq_true] at hk
        rw [h.synchronous hk.1.1.2 o] at hs
        cases hs
    cases hsync : (s.outputs o).isSync with
    | true =>
      cases hl : process.loop with
      | completes => exact SpanOf.forwardBefore chunks hw o fun _ => all
      | publishes i tag =>
        rw [hl] at hbreaks
        have hi : i < process.processedIn := by simpa [Loop.breaksBefore] using hbreaks
        have hs := SpanOf.forwardBefore chunks hw o fun hk => hf.inputTags hk i (by rw [hl]; rfl)
        have hp : SpanOf (s.outputs o) none i ((forwardBefore P c s chunks process o).publishTag P tag i) :=
          hs.publishTag (Nat.le_refl i) fun present hm => (hs.within present hm).2
        exact hp.mono (Nat.le_min.mpr ⟨Nat.le_of_lt hi, Nat.le_succ i⟩)
      | stops i =>
        rw [hl] at hbreaks
        have hi : i < process.processedIn := by simpa [Loop.breaksBefore] using hbreaks
        have hs := SpanOf.forwardBefore chunks hw o fun hk => hf.inputTags hk (i + 1) (by rw [hl]; rfl)
        exact hs.mono (Nat.le_min.mpr ⟨hi, Nat.le_refl _⟩)
    | false =>
      have hs : SpanOf (s.outputs o) none 0 (forwardBefore P c s chunks process o) :=
        SpanOf.forwardBefore chunks hw o fun hk => by rw [keeps hsync] at hk; cases hk
      cases hl : process.loop with
      | publishes i tag =>
        obtain rfl := hf.ownTag hsync i tag hl
        exact hs.publishTag (Nat.le_refl 0) fun present hm => (hs.within present hm).2
      | completes => exact hs
      | stops i => exact hs

theorem finaliseSpan_spanOf {inputSpans : List (InputSpan μ)}
    (hw : c.nInputPorts ≤ 1 → c.hasWholeChunkTagWindow = true → SpansInOrder inputSpans)
    (hframes : Frames out none span)
    (hs : process.processedOut ≠ 0 → SpanOf out none (if out.isSync then process.processedOut else 0) span) :
    ∃ n, SpanOf out (some n) n (finaliseSpan P c chunks inputSpans process map span) := by
  refine ⟨if out.isSync then process.processedOut else 0, ?_⟩
  unfold finaliseSpan
  generalize hn : (if out.isSync then process.processedOut else 0) = n at hs ⊢
  have placed : SpanOf out none n (if process.processedOut = 0 then { span with tags := [] } else span) := by
    split
    · exact hframes.clear
    case isFalse h0 => exact hs h0
  have requested := placed.publishSamples process.processedOut
  rw [hn] at requested
  dsimp only
  generalize (if process.processedOut = 0 then { span with tags := [] } else span).publishSamples process.processedOut
    = span₁ at requested ⊢
  have forwarded : SpanOf out (some n) n
      (if c.mapsTagsByChunkRatio ∧ process.nConsumed ≠ 0 then
        publishPending P (if c.noTagPropagation then P.empty else process.changedForward)
          (forwardInputTags P c chunks inputSpans process.nConsumed none span₁)
      else span₁) := by
    split
    case isTrue hratio =>
      have hwhole : c.hasWholeChunkTagWindow = true := by simp [Arguments.hasWholeChunkTagWindow, hratio.1]
      exact (requested.forwardInputTags (fun _ => forwardedTags_inOrder fun hports => hw hports hwhole)
        fun _ _ _ => Nat.min_le_right _ _).publishPending
    case isFalse => exact requested
  generalize (if c.mapsTagsByChunkRatio ∧ process.nConsumed ≠ 0 then
      publishPending P (if c.noTagPropagation then P.empty else process.changedForward)
        (forwardInputTags P c chunks inputSpans process.nConsumed none span₁)
    else span₁) = span₂ at forwarded ⊢
  split
  · have pending : SpanOf out (some n) n (publishPending P map span₂) := forwarded.publishPending
    rw [pending.requested, Option.getD_some]
    exact pending.publishEoSTag
  · exact forwarded

theorem Inv.finalise (h : Inv c s) (hw : ChunkInOrder c s process) (hbreaks : process.loop.breaksBefore process.processedIn = true)
    (hfit : ∀ o, (s.outputs o).isConnected = true → process.error = false → 1 < process.free.tags o →
      Fits P c s process o) :
    Inv c ( finaliseIO P c s chunks process fun o =>
      invokeProcessOne P process.loop (forwardBefore P c s chunks process o)) := by
  refine h.release (fun port hp => ?_) (fun o => ?_) _
  · split
    · exact hp
    · exact consume_inOrder hp _ _
  · have hframes := SpanOf.forwardBefore (P := P) chunks hw o fun _ => .of_lt s.inputs process.processedIn
    refine finaliseSpan_spanOf hw hframes.toFrames.invokeProcessOne fun h0 => ?_
    -- a call that ends with an error publishes none of its tags
    have herror : process.error = false := by
      cases he : process.error with
      | false => rfl
      | true => exact absurd (by simp [Process.processedOut, he]) h0
    have hs := invokeProcessOne_spanOf chunks h hw hbreaks o fun hc hr => hfit o hc herror hr
    simpa [Process.processedOut, herror] using hs

/-! ### The end of the stream -/

theorem Inv.invokeProcessEpilogue {epilogue : Epilogue ω} (h : Inv c s)
    (hw : c.nInputPorts ≤ 1 → SpansInOrder (s.inputs.map (·.get epilogue.trailing))) :
    Inv c (invokeProcessEpilogue P c s chunks epilogue) := by
  refine h.release (fun port hp => consume_inOrder hp _ _) (fun o => ⟨epilogue.published o, ?_⟩) _
  apply SpanOf.clipTags
  have hs : SpanOf (s.outputs o) none _ (publishPending P s.pendingForwardParams (forwardInputTags P c chunks
      (s.inputs.map (·.get epilogue.trailing)) epilogue.trailing (some epilogue.trailing)
      ((s.outputs o).tryReserve epilogue.epilogueOutSize (epilogue.free.samples o) (epilogue.free.tags o)))) :=
    (SpanOf.forward_fresh hw _ _ _ _ _).publishPending
  exact ⟨⟨hs.streamIndex, hs.isSync, rfl⟩, hs.inOrder, hs.within⟩

theorem Inv.forwardTagsAtEndOfStream {free : Free ω} (h : Inv c s) :
    Inv c (forwardTagsAtEndOfStream P c s map free) := by
  have hinv := h.applyChangedSettings (P := P) map
  refine ⟨hinv.inputs, fun o => (hinv.outputs o).release (n := 0) ?_, hinv.synchronous⟩
  apply SpanOf.publishNone
  apply SpanOf.publishPending
  apply SpanOf.forwardRemainingInputTags
  exact .tryReserve 0 _ _

theorem Inv.atEndOfStream {endOfStream : EndOfStream μ ω} (h : Inv c s)
    (hw : c.nInputPorts ≤ 1 → ∀ epilogue, endOfStream.epilogue = some epilogue →
      SpansInOrder (s.inputs.map (·.get epilogue.trailing))) :
    Inv c (atEndOfStream P c s chunks endOfStream) := by
  have marked (s : State μ ω) (h : Inv c s) :
      Inv c { s with outputs := fun o => (s.outputs o).publishEoSTag P.endOfStream (endOfStream.eosFits o) } := by
    refine ⟨h.inputs, fun o => (h.outputs o).publishEoSTag _ _, fun hc o => ?_⟩
    rw [← h.synchronous hc o]
    simp only [Output.publishEoSTag]
    split <;> rfl
  unfold OutputTags.atEndOfStream
  refine marked _ ?_
  cases hepilogue : endOfStream.epilogue with
  | none =>
    cases endOfStream.remaining with
    | none => exact h
    | some remaining => exact h.forwardTagsAtEndOfStream
  | some epilogue =>
    have hlast : Inv c (OutputTags.invokeProcessEpilogue P c s chunks epilogue) :=
      h.invokeProcessEpilogue fun hports => hw hports epilogue hepilogue
    cases endOfStream.remaining with
    | none => exact hlast
    | some remaining => exact hlast.forwardTagsAtEndOfStream

/-! ### Every run -/

/-- Where a collection is the one input port, the spans that a call hands on are in order, one after another. -/
def WindowsInOrder (P : PropertyMap μ) (c : Arguments) (s : State μ ω) (call : Call μ ω) : Prop :=
  c.nInputPorts ≤ 1 →
    (∀ nSkip free, call.skip = some (nSkip, free) → SpansInOrder (s.inputs.map (·.get nSkip))) ∧
    (∀ process, call.outcome = .process process →
      c.hasWholeChunkTagWindow = true →
        SpansInOrder ((skipBeforeChunk P c s call.chunks call.skip).inputs.map (·.get process.processedIn))) ∧
    ∀ endOfStream, call.outcome = .endOfStream endOfStream → ∀ epilogue, endOfStream.epilogue = some epilogue →
      SpansInOrder ((skipBeforeChunk P c s call.chunks call.skip).inputs.map (·.get epilogue.trailing))

/-- Tags arrive on an input in order, and so are those of several inputs in one port. No tag that a chunk hands on lies past
    the sample at which the loop breaks, and none that a skip hands to an asynchronous output past the first sample of the
    skip. -/
def InPlace (P : PropertyMap μ) (c : Arguments) (s : State μ ω) : Act μ ω → Prop
  | .arrive input tag => ∀ port, s.inputs[input]? = some port → ∀ present ∈ port.tags, present.index ≤ tag.index
  | .work call => WindowsInOrder P c s call ∧ ∀ o, (s.outputs o).isConnected = true →
    (∀ nSkip free, call.skip = some (nSkip, free) → (s.outputs o).isSync = false → 1 < free.tags o →
      0 < free.samples o → c.noTagPropagation = false → c.backwardTagPropagation = false →
        NothingPast P s.inputs nSkip 0) ∧
    ∀ process, call.outcome = .process process → process.error = false → 1 < process.free.tags o → Fits P c s process o

theorem Inv.skipBeforeChunk (h : Inv c s) (hskip : (call.skip.isNone || c.stride) = true)
    (hp : InPlace P c s (.work call)) :
    Inv c (skipBeforeChunk P c s call.chunks call.skip) ∧
      (c.keepsTagOffsets = true → (skipBeforeChunk P c s call.chunks call.skip).inputs = s.inputs) ∧
      ∀ o, ((skipBeforeChunk P c s call.chunks call.skip).outputs o).isConnected = (s.outputs o).isConnected ∧
        ((skipBeforeChunk P c s call.chunks call.skip).outputs o).isSync = (s.outputs o).isSync := by
  cases hs : call.skip with
  | none => exact ⟨h, fun _ => rfl, fun _ => ⟨rfl, rfl⟩⟩
  | some skip =>
    refine ⟨h.skipInputSamples (fun hports => (hp.1 hports).1 _ _ hs) fun o hc => (hp.2 o hc).1 _ _ hs, fun hk => ?_,
      fun _ => ⟨rfl, rfl⟩⟩
    -- a block that keeps the tags' offsets has no stride
    have hstride : c.stride = true := by simpa [hs] using hskip
    simp [Arguments.keepsTagOffsets, hstride] at hk

theorem Inv.workInternal (h : Inv c s) (ha : allowed P c s call = true) (hp : InPlace P c s (.work call)) :
    Inv c (workInternal P c s call) := by
  obtain ⟨hskip, ha⟩ := (Bool.and_eq_true _ _).mp ha
  obtain ⟨hinv, hinputs, hports⟩ := h.skipBeforeChunk hskip hp
  obtain ⟨hw, hp⟩ := hp
  unfold WindowsInOrder at hw
  unfold OutputTags.workInternal
  generalize OutputTags.skipBeforeChunk P c s call.chunks call.skip = s' at hinv hinputs hports hw ⊢
  have hinv' := hinv.applyChangedSettings (P := P) call.forwardParams
  have hsame : (s'.applyChangedSettings P c call.forwardParams).inputs = s'.inputs ∧
      (s'.applyChangedSettings P c call.forwardParams).outputs = s'.outputs := by
    unfold State.applyChangedSettings
    split <;> exact ⟨rfl, rfl⟩
  cases hout : call.outcome with
  | returns => exact hinv'
  | endOfStream endOfStream =>
    refine hinv'.atEndOfStream fun hone epilogue hepilogue => ?_
    rw [hsame.1]
    exact (hw hone).2.2 endOfStream hout epilogue hepilogue
  | process process =>
    simp only [hout, Bool.and_eq_true] at ha
    have hchunk : ChunkInOrder c (s'.applyChangedSettings P c call.forwardParams) process := fun hone hwhole => by
      rw [hsame.1]
      exact (hw hone).2.1 process hout hwhole
    refine hinv'.finalise hchunk ha.1.2 fun o hc herror hr => ?_
    rw [hsame.2, (hports o).1] at hc
    obtain ⟨hin, hown⟩ := (hp o hc).2 process hout herror hr
    refine ⟨fun hk last hl => ?_, fun hsync => ?_⟩
    · rw [hsame.1, hinputs hk]
      exact hin hk last hl
    · rw [hsame.2, (hports o).2] at hsync
      exact hown hsync

theorem Inv.step (h : Inv c s) (hp : InPlace P c s a) (hs : OutputTags.step P c s a = some t) : Inv c t := by
  cases a with
  | arrive input tag =>
    cases hs
    refine ⟨fun port hm => ?_, h.outputs, h.synchronous⟩
    obtain ⟨k, hk⟩ := List.mem_iff_getElem?.mp hm
    rw [List.getElem?_modify] at hk
    obtain ⟨present, hpresent, rfl⟩ := Option.map_eq_some_iff.mp hk
    have hsorted := h.inputs present (List.mem_of_getElem? hpresent)
    split
    case isTrue heq =>
      subst heq
      refine List.pairwise_append.mpr ⟨hsorted, List.pairwise_singleton _ _, fun first hf next hn => ?_⟩
      rw [List.mem_singleton.mp hn]
      exact hp present hpresent first hf
    case isFalse => exact hsorted
  | work call =>
    simp only [OutputTags.step] at hs
    split at hs
    case isTrue ha =>
      cases hs
      exact h.workInternal ha hp
    case isFalse => cases hs

omit [DecidableEq μ] in
theorem Inv.of_starts (h : Starts P c s) : Inv c s := by
  refine ⟨fun port hp => ?_, fun o => ⟨?_, fun tag ht => ?_⟩, fun hc o => (h.outputs o).2 hc⟩
  · rw [(h.inputs port hp).1]
    exact .nil
  · rw [(h.outputs o).1]
    exact .nil
  · rw [(h.outputs o).1] at ht
    cases ht

/-- In a run whose steps all keep tags in place, each output's tag ring is in the order of the indices. -/
theorem tags_in_order (P : PropertyMap μ) (c : Arguments) (h : (system P c ω).Reach (InPlace P c) s) (o : ω) :
    InOrder (s.outputs o).ring := by
  have hinv : Inv c s := h.invariant (fun _ hs => .of_starts hs) fun _ _ _ hI hp hs => hI.step hp hs
  exact (hinv.outputs o).inOrder

end Work

/-! ### A block with one input and one output -/

inductive Key
  | triggerName
  | gain
  | endOfStream
  deriving DecidableEq, Repr

/-- Maps as the lists of their keys, none of which the block drops. -/
def keys : PropertyMap (List Key) where
  empty := []
  isEmpty := List.isEmpty
  mergeForwardParams pending fresh := pending ++ fresh.filter (· ∉ pending)
  filterAndSubstituteTag := id
  canonicalizeKeys := id
  isEndOfStream map := .endOfStream ∈ map
  eraseEndOfStream map := map.filter (· ≠ .endOfStream)
  endOfStream := [.endOfStream]

def plain : Arguments := ⟨false, false, false, false, true, false, 1⟩

def idle : State (List Key) Unit := ⟨[⟨true, true, 0, []⟩], fun _ => ⟨true, true, 0, []⟩, []⟩

/-- A tag arrives at the third sample, and a call takes four samples, as many as the input's `min_samples`. -/
def fourSamples (loop : Loop (List Key)) : List (Act (List Key) Unit) :=
  [.arrive 0 ⟨2, [.triggerName]⟩,
    .work ⟨[], (1, 1), none, .process ⟨4, 4, ⟨fun _ => 8, fun _ => 8⟩, loop, false, false, false, 0, [], []⟩⟩]

theorem idle_starts : Starts keys plain idle :=
  ⟨fun port hp => by rw [List.mem_singleton.mp hp]; exact ⟨rfl, fun _ => rfl⟩, fun _ => ⟨rfl, fun _ => rfl⟩, rfl⟩

/-- `processOne()` publishes a tag at the sample where the input's tag stands. -/
theorem tags_in_order_four : InOrder ((((system keys plain Unit).run idle
    (fourSamples (.publishes 2 [.gain]))).get (by decide)).outputs ()).ring := by
  refine tags_in_order keys plain ((system keys plain Unit).reach_get (fourSamples (.publishes 2 [.gain])) idle_starts
    ⟨?_, ?_, trivial⟩ (by decide)) ()
  · intro port hport present hm
    cases hport
    cases hm
  · refine ⟨fun _ => ⟨fun nSkip free hs => (by cases hs), fun process hp _ => ?_, fun endOfStream hs => (by cases hs)⟩,
      fun o hc => ⟨fun nSkip free hs => (by cases hs), fun process hp _ _ => ?_⟩⟩
    · cases hp
      exact List.pairwise_singleton _ _
    · cases hp
      refine ⟨fun _ last hl port hm _ _ tag ht _ hgt => ?_, fun hs => (by cases hs)⟩
      cases hl
      rw [List.mem_singleton.mp hm] at ht hgt
      rw [List.mem_singleton.mp ht] at hgt
      exact absurd hgt (by decide)

/-- It publishes its tag at the first sample, and the forwarder has placed the input's tag at the third. -/
theorem tags_out_of_order : ∃ s, (system keys plain Unit).Reachable s ∧ (s.outputs ()).ring.map (·.index) = [2, 0] ∧
    ¬ InOrder (s.outputs ()).ring :=
  ⟨_, (system keys plain Unit).reachable_get (fourSamples (.publishes 0 [.gain])) idle_starts (by decide),
    by decide, by decide⟩

end GnuRadio.OutputTags
