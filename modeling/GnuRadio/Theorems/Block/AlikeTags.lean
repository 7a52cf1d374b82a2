import GnuRadio.Theorems.Block.WholeChunks

/-! The tags that several inputs hold alike, in a call and at the end of the stream.

    A tag is known by its index relative to the read position of its input and by its map. The forwarder of a call keeps the
    first eight that differ to compare with, and compares none where the block declares one input port, as a collection of
    ports is. The one at the end of the stream keeps all, by the index in the stream of each input. -/

namespace GnuRadio.ProcessBulk

open OutputTags Delivery

variable {μ : Type} {P : PropertyMap μ} {c : Arguments} {chunks : Nat × Nat}

/-! ### What leaves once -/

/-- The tags of the synchronous inputs in a window, one input after another. -/
def tagsWithin (inputSpans : List (InputSpan μ)) (tagWindow : Nat) : List (Int × μ) :=
  (inputSpans.filter fun span => span.isSync && span.isConnected).flatMap (·.tags tagWindow)

/-- The tags at or past the read positions. -/
def tagsAhead (inputSpans : List (InputSpan μ)) : List (Tag μ) :=
  (inputSpans.filter fun span => span.isSync && span.isConnected).flatMap fun span =>
    span.rawTags.filter (span.streamIndex ≤ ·.index)

/-- The same, each with its relative index. -/
def tagsAheadRelative (inputSpans : List (InputSpan μ)) : List (Int × μ) :=
  (inputSpans.filter fun span => span.isSync && span.isConnected).flatMap fun span =>
    (span.rawTags.filter (span.streamIndex ≤ ·.index)).map fun tag => ((tag.index : Int) - span.streamIndex, tag.map)

/-- A tag of a window leaves at its offset, or at the end of what the span publishes. -/
def leavesIn (P : PropertyMap μ) (c : Arguments) (chunks : Nat × Nat) (span : OutputSpan μ) (tag : Int × μ) : Option (Tag μ) :=
  (collect P c chunks tag).map fun tag => placed P span.streamIndex (min tag.1 (lastOffset span), tag.2)

/-- A tag at the end of the stream leaves at the index of the end, without the key of the marker. -/
def leavesLast (P : PropertyMap μ) (endIndex : Nat) (map : μ) : Option (Tag μ) := leavesAtEnd P endIndex ⟨endIndex, map⟩

/-- The distinct tags of a window leave once each, in the order of their offsets. -/
structure LeaveOnce (window : List (Int × (μ × Bool))) (image : Int × (μ × Bool) → Option (Tag (μ × Bool)))
    (out : OutputSpan (μ × Bool)) : Prop where
  once : DeliversOnce image window (fromInputs out.tags)
  inOrder : InOrder (fromInputs out.tags)

variable [DecidableEq μ]

/-- When the forwarder of a call finds the tags that are alike: those that leave more than once are among the first eight, and
    a lone port holds none of them and has its tags in order. -/
structure FoundAlike (P : PropertyMap μ) (c : Arguments) (chunks : Nat × Nat) (window : List (Int × μ)) (last : Nat) : Prop where
  several : 1 < c.nInputPorts → ∀ tag, (collect P c chunks tag).isSome → 1 < window.count tag →
    tag ∈ window.eraseDups.take 8
  one : c.nInputPorts ≤ 1 → ∀ tag, (collect P c chunks tag).isSome → window.count tag ≤ 1
  inOrder : c.nInputPorts ≤ 1 → ((window.filterMap (collect P c chunks)).map fun tag => min tag.1 last).Pairwise (· ≤ ·)

/-- When the one at the end of the stream does: each map leaves from as many distinct stream indices as relative ones, as it
    does when the inputs stand at one position. -/
structure FoundAlikeAtEnd (P : PropertyMap μ) (c : Arguments) (inputSpans : List (InputSpan μ)) (endIndex : Nat) : Prop where
  several : 1 < c.nInputPorts → ∀ left, ((tagsAhead inputSpans).dedup.filterMap (leavesLast P endIndex ·.map)).count left =
    ((tagsAheadRelative inputSpans).dedup.filterMap (leavesLast P endIndex ·.2)).count left
  one : c.nInputPorts ≤ 1 → ∀ tag, (leavesLast P endIndex tag.2).isSome → (tagsAheadRelative inputSpans).count tag ≤ 1

/-! ### The first eight -/

/-- The tags that are compared once `seen` has been filled up. -/
def firstSeen (seen tags : List (Int × μ)) : List (Int × μ) := (seen ++ (tags.filter (!seen.contains ·)).eraseDups).take 8

variable {seen tags : List (Int × μ)} {tag : Int × μ}

theorem mem_firstSeen (hlen : seen.length ≤ 8) (h : tag ∈ seen) :
    tag ∈ firstSeen seen tags := by
  rw [firstSeen, List.take_append, List.take_of_length_le hlen]
  exact List.mem_append_left _ h

theorem firstSeen_full {seen : List (Int × μ)} (hlen : seen.length = 8) (tags : List (Int × μ)) : firstSeen seen tags = seen := by
  rw [firstSeen, List.take_append, List.take_of_length_le hlen.le, hlen, Nat.sub_self, List.take_zero, List.append_nil]

theorem firstSeen_cons (hlen : seen.length ≤ 8) :
    firstSeen seen (tag :: tags) =
      if tag ∈ seen then firstSeen seen tags else firstSeen (if seen.length < 8 then seen ++ [tag] else seen) tags := by
  by_cases hseen : tag ∈ seen
  · rw [if_pos hseen, firstSeen, firstSeen, List.filter_cons_of_neg (by simpa using hseen)]
  · rw [if_neg hseen]
    by_cases hroom : seen.length < 8
    · rw [if_pos hroom, firstSeen, firstSeen, List.filter_cons_of_pos (by simpa using hseen), List.eraseDups_cons,
        List.filter_filter, List.append_assoc, List.singleton_append]
      congr 4
      refine List.filter_congr fun other _ => ?_
      simp only [beq_eq_decide]
      rw [Bool.and_comm]
      simp
    · have hfull : seen.length = 8 := by omega
      rw [if_neg hroom, firstSeen_full hfull, firstSeen_full hfull]

/-- A tag that has been seen is not kept. -/
theorem not_mem_deduplicate (h : tag ∈ seen) : tag ∉ deduplicate seen tags := by
  induction tags generalizing seen with
  | nil => exact List.not_mem_nil
  | cons head tags ih =>
    rw [deduplicate]
    split
    · exact ih h
    · next hseen =>
      intro hmem
      rcases List.mem_cons.mp hmem with rfl | hmem
      · exact hseen h
      · refine ih ?_ hmem
        split
        · exact List.mem_append_left _ h
        · exact h

/-- A tag that is compared is kept once, and every other one as often as it is found. -/
theorem count_deduplicate (hlen : seen.length ≤ 8) (hnew : tag ∉ seen) :
    (deduplicate seen tags).count tag = if tag ∈ firstSeen seen tags then 1 else tags.count tag := by
  induction tags generalizing seen with
  | nil =>
    have hnone : tag ∉ firstSeen seen [] := fun h => by
      have hmem := (List.take_sublist _ _).mem h
      simp [hnew] at hmem
    rw [if_neg hnone]
    rfl
  | cons head tags ih =>
    rw [deduplicate, firstSeen_cons hlen]
    by_cases hseen : head ∈ seen
    · have hne : head ≠ tag := fun heq => hnew (heq ▸ hseen)
      rw [if_pos hseen, if_pos hseen, ih hlen hnew, List.count_cons_of_ne hne]
    · rw [if_neg hseen, if_neg hseen]
      by_cases heq : head = tag
      · subst heq
        rw [List.count_cons_self]
        by_cases hroom : seen.length < 8
        · have hnow : head ∈ seen ++ [head] := List.mem_append_right _ (.head _)
          have hlen' : (seen ++ [head]).length ≤ 8 := by rw [List.length_append]; exact hroom
          have hzero : (deduplicate (seen ++ [head]) tags).count head = 0 := by
            refine List.count_eq_zero.mpr fun h => ?_
            exact not_mem_deduplicate hnow h
          rw [if_pos hroom, if_pos (mem_firstSeen hlen' hnow), hzero]
        · have hfull : seen.length = 8 := by omega
          have hrest := ih hlen hnew
          rw [firstSeen_full hfull, if_neg hnew] at hrest
          rw [if_neg hroom, firstSeen_full hfull, if_neg hnew, hrest, List.count_cons_self]
      · rw [List.count_cons_of_ne heq, List.count_cons_of_ne heq]
        refine ih ?_ ?_
        · split
          · next hroom => rw [List.length_append]; exact hroom
          · exact hlen
        · split
          · exact fun h => (List.mem_append.mp h).elim hnew fun h => heq (List.mem_singleton.mp h).symm
          · exact hnew

theorem count_deduplicate_le_iff (window : List (Int × μ)) (tag : Int × μ) :
    (deduplicate [] window).count tag ≤ 1 ↔ (1 < window.count tag → tag ∈ window.eraseDups.take 8) := by
  have hfirst : firstSeen [] window = window.eraseDups.take 8 := by simp [firstSeen]
  have hnil : ([] : List (Int × μ)).length ≤ 8 := Nat.zero_le 8
  rw [count_deduplicate hnil List.not_mem_nil, hfirst]
  split
  · next hmem => exact iff_of_true le_rfl fun _ => hmem
  · next hmem => exact ⟨fun hle hlt => absurd hle (Nat.not_le_of_lt hlt), fun h => Nat.le_of_not_lt fun hlt => hmem (h hlt)⟩

/-- As long as no more than eight differ all are found. -/
theorem foundAlike_of_few {window : List (Int × μ)} (hseveral : 1 < c.nInputPorts) (hfew : window.eraseDups.length ≤ 8)
    (last : Nat) : FoundAlike P c chunks window last := by
  refine ⟨fun _ tag _ hcount => ?_, fun hone => absurd hseveral (Nat.not_lt_of_le hone),
    fun hone => absurd hseveral (Nat.not_lt_of_le hone)⟩
  rw [List.take_of_length_le hfew]
  exact List.mem_eraseDups.mpr (List.count_pos_iff.mp (Nat.zero_lt_of_lt hcount))

/-! ### In a call -/

section Call

variable {inputSpans : List (InputSpan (μ × Bool))} {tagWindow : Nat} {span : OutputSpan (μ × Bool)}

/-- What the forwarder keeps of a window. -/
def keptTags (c : Arguments) (window : List (Int × μ)) : List (Int × μ) :=
  if c.nInputPorts ≤ 1 then window else deduplicate [] window

theorem mem_keptTags {window : List (Int × μ)} {tag : Int × μ} : tag ∈ keptTags c window ↔ tag ∈ window := by
  unfold keptTags
  split
  · exact Iff.rfl
  · exact ⟨fun h => (deduplicate_sublist [] window).mem h, fun h =>
      (mem_deduplicate_of_mem h).resolve_left List.not_mem_nil⟩

theorem deliversOnce_of_kept {β : Type} {image : Int × μ → Option β} {window : List (Int × μ)} {delivered : List β}
    (hperm : delivered.Perm ((keptTags c window).filterMap image)) : DeliversOnce image window delivered ↔
      (1 < c.nInputPorts → ∀ tag, (image tag).isSome → 1 < window.count tag → tag ∈ window.eraseDups.take 8) ∧
        (c.nInputPorts ≤ 1 → ∀ tag, (image tag).isSome → window.count tag ≤ 1) := by
  rw [deliversOnce_iff (fun _ => mem_keptTags) hperm, keptTags]
  by_cases hone : c.nInputPorts ≤ 1
  · rw [if_pos hone]
    exact ⟨fun h => ⟨fun hmany => absurd hone (Nat.not_le_of_lt hmany), fun _ => h⟩, fun h => h.2 hone⟩
  · rw [if_neg hone]
    simp only [count_deduplicate_le_iff]
    exact ⟨fun h => ⟨fun _ => h, fun h => absurd h hone⟩, fun h => h.1 (Nat.lt_of_not_le hone)⟩

theorem forwardedTags_perm (P : PropertyMap μ) (c : Arguments) (chunks : Nat × Nat) (inputSpans : List (InputSpan μ))
    (tagWindow : Nat) : (forwardedTags P c chunks inputSpans tagWindow).Perm
      ((keptTags c (tagsWithin inputSpans tagWindow)).filterMap (collect P c chunks)) := by
  unfold forwardedTags keptTags
  dsimp only
  split
  · exact List.Perm.refl _
  · exact List.mergeSort_perm _ _

omit [DecidableEq μ] in
theorem mem_tagsWithin_map {tag : Int × (μ × Bool)} (hmarks : ∀ span ∈ inputSpans, ∀ tag ∈ span.rawTags, tag.map.2 = true)
    (h : tag ∈ tagsWithin inputSpans tagWindow) : tag.2.2 = true := by
  obtain ⟨span, hspan, ht⟩ := List.mem_flatMap.mp h
  obtain ⟨present, hpresent, rfl⟩ := List.mem_map.mp ht
  exact hmarks span (List.mem_filter.mp hspan).1 present ((List.takeWhile_sublist _).mem hpresent)

theorem marked_forwardedTags (hmarks : ∀ span ∈ inputSpans, ∀ tag ∈ span.rawTags, tag.map.2 = true) {tag : Nat × (μ × Bool)}
    (h : tag ∈ forwardedTags (marked P) c chunks inputSpans tagWindow) : tag.2.2 = true := by
  obtain ⟨before, hbefore, hcollect⟩ := List.mem_filterMap.mp ((forwardedTags_perm ..).mem_iff.mp h)
  have hmark := mem_tagsWithin_map hmarks (mem_keptTags.mp hbefore)
  unfold collect at hcollect
  dsimp only at hcollect
  split at hcollect
  · cases hcollect
  · rw [← Option.some.inj hcollect]
    exact hmark

/-- The tags that a span holds once the forwarder has handed on those of a window. -/
theorem leaveOnce_iff {out : OutputSpan (μ × Bool)}
    (hout : fromInputs out.tags = (forwardedTags (marked P) c chunks inputSpans tagWindow).map
      fun tag => placed (marked P) span.streamIndex (min tag.1 (lastOffset span), tag.2)) :
    LeaveOnce (tagsWithin inputSpans tagWindow) (leavesIn (marked P) c chunks span) out ↔
      FoundAlike (marked P) c chunks (tagsWithin inputSpans tagWindow) (lastOffset span) := by
  have hperm : (fromInputs out.tags).Perm ((keptTags c (tagsWithin inputSpans tagWindow)).filterMap
      (leavesIn (marked P) c chunks span)) := by
    rw [hout]
    refine ((forwardedTags_perm ..).map _).trans ?_
    rw [List.map_filterMap]
    exact List.Perm.refl _
  have hsome (tag : Int × (μ × Bool)) : (leavesIn (marked P) c chunks span tag).isSome =
      (collect (marked P) c chunks tag).isSome := Option.isSome_map
  have honce := deliversOnce_of_kept hperm
  simp only [hsome] at honce
  have horder : InOrder (fromInputs out.tags) ↔
      ((forwardedTags (marked P) c chunks inputSpans tagWindow).map fun tag => min tag.1 (lastOffset span)).Pairwise (· ≤ ·) := by
    rw [hout, InOrder, List.pairwise_map, List.pairwise_map]
    simp only [placed, Nat.add_le_add_iff_left]
  by_cases hone : c.nInputPorts ≤ 1
  · have hforwarded : forwardedTags (marked P) c chunks inputSpans tagWindow =
        (tagsWithin inputSpans tagWindow).filterMap (collect (marked P) c chunks) := if_pos hone
    rw [hforwarded] at horder
    constructor
    · rintro ⟨once, inOrder⟩
      obtain ⟨several, one⟩ := honce.mp once
      exact ⟨several, one, fun _ => horder.mp inOrder⟩
    · rintro ⟨several, one, inOrder⟩
      exact ⟨honce.mpr ⟨several, one⟩, horder.mpr (inOrder hone)⟩
  · have hsorted : InOrder (fromInputs out.tags) := by
      refine horder.mpr (List.pairwise_map.mpr ?_)
      refine (forwardedTags_inOrder fun h => absurd h hone).imp fun hle => ?_
      omega
    constructor
    · rintro ⟨once, -⟩
      obtain ⟨several, one⟩ := honce.mp once
      exact ⟨several, one, fun h => absurd h hone⟩
    · rintro ⟨several, one, -⟩
      exact ⟨honce.mpr ⟨several, one⟩, hsorted⟩

end Call

/-! ### At the end of the stream -/

section AtEnd

variable {inputSpans : List (InputSpan (μ × Bool))} {span : OutputSpan (μ × Bool)}

/-- What is kept at the end of the stream. -/
def keptAhead (c : Arguments) (inputSpans : List (InputSpan μ)) : List (Tag μ) :=
  if c.nInputPorts ≤ 1 then tagsAhead inputSpans else (tagsAhead inputSpans).eraseDups

theorem eraseDups_perm_dedup {α : Type} [DecidableEq α] (l : List α) : l.eraseDups.Perm l.dedup := by
  refine (List.perm_ext_iff_of_nodup ?_ (List.nodup_dedup l)).mpr fun x => List.mem_eraseDups.trans List.mem_dedup.symm
  induction hn : l.length using Nat.strongRecOn generalizing l with
  | ind n ih =>
    cases l with
    | nil => exact List.nodup_nil
    | cons a l =>
      rw [List.eraseDups_cons, List.nodup_cons]
      refine ⟨fun h => ?_, ih _ ?_ _ rfl⟩
      · simpa using (List.mem_filter.mp (List.mem_eraseDups.mp h)).2
      · rw [← hn]
        exact Nat.lt_succ_of_le (List.length_filter_le _ _)

theorem remainingTags_perm (P : PropertyMap μ) (c : Arguments) (inputSpans : List (InputSpan μ)) (endIndex : Nat) :
    ((remainingTags P c inputSpans).map fun map => (⟨endIndex, P.canonicalizeKeys map⟩ : Tag μ)).Perm
      ((keptAhead c inputSpans).filterMap (leavesLast P endIndex ·.map)) := by
  have himage (kept : List (Tag μ)) :
      ((kept.map fun tag => (⟨tag.index, P.eraseEndOfStream (P.filterAndSubstituteTag tag.map)⟩ : Tag μ)).filter
        fun tag => !P.isEmpty tag.map).map (fun tag => (⟨endIndex, P.canonicalizeKeys tag.map⟩ : Tag μ)) =
      kept.filterMap (leavesLast P endIndex ·.map) := by
    induction kept with
    | nil => rfl
    | cons tag kept ih =>
      rw [List.map_cons, List.filter_cons, List.filterMap_cons, ← ih]
      unfold leavesLast leavesAtEnd
      dsimp only
      cases P.isEmpty (P.eraseEndOfStream (P.filterAndSubstituteTag tag.map)) <;> rfl
  unfold remainingTags
  dsimp only
  rw [List.map_map, ← himage]
  exact (List.mergeSort_perm _ _).map _

omit [DecidableEq μ] in
theorem tagsAhead_filterMap {β : Type} (image : μ → Option β) (inputSpans : List (InputSpan μ)) :
    (tagsAhead inputSpans).filterMap (image ·.map) = (tagsAheadRelative inputSpans).filterMap (image ·.2) := by
  unfold tagsAhead tagsAheadRelative
  induction inputSpans.filter fun span => span.isSync && span.isConnected with
  | nil => rfl
  | cons span spans ih =>
    rw [List.flatMap_cons, List.flatMap_cons, List.filterMap_append, List.filterMap_append, ih, List.filterMap_map]
    rfl

theorem deliversOnce_of_keptAhead {β : Type} {image : μ → Option β} {inputSpans : List (InputSpan μ)} {delivered : List β}
    [DecidableEq β] (hperm : delivered.Perm ((keptAhead c inputSpans).filterMap (image ·.map))) :
    DeliversOnce (image ·.2) (tagsAheadRelative inputSpans) delivered ↔
      (1 < c.nInputPorts → ∀ left, ((tagsAhead inputSpans).dedup.filterMap (image ·.map)).count left =
        ((tagsAheadRelative inputSpans).dedup.filterMap (image ·.2)).count left) ∧
      (c.nInputPorts ≤ 1 → ∀ tag, (image tag.2).isSome → (tagsAheadRelative inputSpans).count tag ≤ 1) := by
  by_cases hone : c.nInputPorts ≤ 1
  · rw [keptAhead, if_pos hone, tagsAhead_filterMap] at hperm
    rw [deliversOnce_iff (fun tag => Iff.rfl (a := tag ∈ tagsAheadRelative inputSpans)) hperm]
    exact ⟨fun h => ⟨fun hmany => absurd hone (Nat.not_le_of_lt hmany), fun _ => h⟩, fun h => h.2 hone⟩
  · rw [keptAhead, if_neg hone] at hperm
    have hdedup := hperm.trans ((eraseDups_perm_dedup _).filterMap _)
    rw [deliversOnce_iff_perm, ← List.perm_iff_count]
    constructor
    · exact fun h => ⟨fun _ => hdedup.symm.trans h, fun h => absurd h hone⟩
    · exact fun h => hdedup.trans (h.1 (Nat.lt_of_not_le hone))

/-- The tags that a span holds once those at the end of the stream have been handed on. -/
theorem leaveOnce_atEnd_iff {out : OutputSpan (μ × Bool)} {endIndex : Nat}
    (hout : fromInputs out.tags = (remainingTags (marked P) c inputSpans).map
      fun map => ⟨endIndex, (marked P).canonicalizeKeys map⟩) :
    LeaveOnce (tagsAheadRelative inputSpans) (leavesLast (marked P) endIndex ·.2) out ↔
      FoundAlikeAtEnd (marked P) c inputSpans endIndex := by
  have hinOrder : InOrder (fromInputs out.tags) := by
    rw [hout]
    exact List.pairwise_map.mpr (List.pairwise_of_forall fun _ _ => le_rfl)
  have hperm := remainingTags_perm (marked P) c inputSpans endIndex
  rw [← hout] at hperm
  have honce := deliversOnce_of_keptAhead hperm
  constructor
  · rintro ⟨once, -⟩
    obtain ⟨several, one⟩ := honce.mp once
    exact ⟨several, one⟩
  · rintro ⟨several, one⟩
    exact ⟨honce.mpr ⟨several, one⟩, hinOrder⟩

theorem foundAlikeAtEnd_of_position (read : Nat) (hseveral : 1 < c.nInputPorts) {inputSpans : List (InputSpan μ)}
    (h : ∀ span ∈ inputSpans, span.isSync = true → span.isConnected = true → span.streamIndex = read) (endIndex : Nat) :
    FoundAlikeAtEnd P c inputSpans endIndex := by
  refine ⟨fun _ left => ?_, fun hone => absurd hseveral (Nat.not_lt_of_le hone)⟩
  let relative (tag : Tag μ) : Int × μ := ((tag.index : Int) - read, tag.map)
  have hinjective : Function.Injective relative := by
    rintro ⟨i, map⟩ ⟨j, map'⟩ heq
    obtain ⟨hindex, rfl⟩ := Prod.mk.inj heq
    have hrelative : (i : Int) - read = (j : Int) - read := hindex
    have hsame : i = j := by omega
    rw [hsame]
  have hrelative : tagsAheadRelative inputSpans = (tagsAhead inputSpans).map relative := by
    rw [tagsAheadRelative, tagsAhead, List.map_flatMap]
    refine List.flatMap_congr fun span hspan => ?_
    obtain ⟨hmem, hport⟩ := List.mem_filter.mp hspan
    rw [Bool.and_eq_true] at hport
    rw [h span hmem hport.1 hport.2]
  rw [hrelative, List.dedup_map_of_injective hinjective, List.filterMap_map]
  rfl

theorem fromInputs_forwardRemainingInputTags (hpropagates : c.noTagPropagation = false)
    (hmarks : ∀ span ∈ inputSpans, ∀ tag ∈ span.rawTags, tag.map.2 = true) (hconnected : span.isConnected = true)
    (hown : ∀ tag ∈ span.tags, tag.map.2 = false)
    (hfits : (forwardRemainingInputTags (marked P) c inputSpans span).tagsDropped = 0) :
    fromInputs (forwardRemainingInputTags (marked P) c inputSpans span).tags =
      (remainingTags (marked P) c inputSpans).map fun map => ⟨span.streamIndex, (marked P).canonicalizeKeys map⟩ := by
  have hmap : ∀ left ∈ (remainingTags (marked P) c inputSpans).map
      fun map => (⟨span.streamIndex, (marked P).canonicalizeKeys map⟩ : Tag (μ × Bool)), left.map.2 = true := by
    intro left hleft
    obtain ⟨tag, htag, hleaves⟩ := List.mem_filterMap.mp ((remainingTags_perm ..).mem_iff.mp hleft)
    have hmem : tag ∈ tagsAhead inputSpans := by
      unfold keptAhead at htag
      split at htag
      · exact htag
      · exact List.mem_eraseDups.mp htag
    obtain ⟨input, hinput, ht⟩ := List.mem_flatMap.mp hmem
    have hmark := hmarks input (List.mem_filter.mp hinput).1 tag (List.mem_filter.mp ht).1
    unfold leavesLast leavesAtEnd at hleaves
    dsimp only at hleaves
    split at hleaves
    · cases hleaves
    · rw [← Option.some.inj hleaves]
      exact hmark
  have hadds := publishAll_adds (P := marked P) ((remainingTags (marked P) c inputSpans).map fun map => (0, map)) span
  rw [forwardRemainingInputTags, if_neg (by simp [hpropagates])] at hfits ⊢
  rw [(hadds.tags hconnected hfits).2, fromInputs_append, fromInputs_eq_nil hown, List.nil_append, List.map_map]
  exact List.filter_eq_self.mpr hmap

end AtEnd

/-! ### Room for the tags -/

section Room

variable {span : OutputSpan μ} {inputSpans : List (InputSpan μ)}

omit [DecidableEq μ] in
theorem publishAll_fits {tags : List (Nat × μ)} (hdropped : span.tagsDropped = 0) (hroom : span.tags.length + tags.length < span.room) :
    (span.publishAll P tags).tagsDropped = 0 := by
  induction tags generalizing span with
  | nil => exact hdropped
  | cons tag tags ih =>
    rw [List.length_cons] at hroom
    by_cases hconnected : span.isConnected = true
    · have hplace : span.publishTag P tag.2 tag.1 = span.placeTag P tag.2 tag.1 := by
        rw [OutputSpan.publishTag, if_neg (by simp [hconnected]), if_neg (by omega)]
      show ((span.publishTag P tag.2 tag.1).publishAll P tags).tagsDropped = 0
      rw [hplace]
      refine ih hdropped ?_
      show (span.tags ++ [_]).length + tags.length < span.room
      rw [List.length_append, List.length_singleton]
      omega
    · have hsame : span.publishTag P tag.2 tag.1 = span := if_pos (by simpa using hconnected)
      show ((span.publishTag P tag.2 tag.1).publishAll P tags).tagsDropped = 0
      rw [hsame]
      exact ih hdropped (by omega)

omit [DecidableEq μ] in
theorem length_mergedByIndex (last : Nat) (present forwarded : List (Nat × μ)) :
    (OutputSpan.mergedByIndex last present forwarded).length = present.length + forwarded.length := by
  induction forwarded generalizing present with
  | nil => rfl
  | cons head forwarded ih =>
    have hsplit := congrArg List.length (List.takeWhile_append_dropWhile (p := (·.1 < min head.1 last)) (l := present))
    rw [List.length_append] at hsplit
    rw [OutputSpan.mergedByIndex, List.length_append, List.length_cons, ih, List.length_cons]
    omega

/-- A span with a slot for every tag of a window, and the last one, drops none. -/
theorem forwardInputTags_fits (P : PropertyMap μ) (c : Arguments) (chunks : Nat × Nat) {processedIn : Nat} {override : Option Nat}
    (hdropped : span.tagsDropped = 0)
    (hroom : span.tags.length + (tagsWithin inputSpans
      (override.getD (if c.hasWholeChunkTagWindow then processedIn else 1))).length < span.room) :
    (forwardInputTags P c chunks inputSpans processedIn override span).tagsDropped = 0 := by
  obtain heq | ⟨-, heq⟩ := forwardInputTags_cases P c chunks inputSpans processedIn override span
  · rw [heq]
    exact hdropped
  · rw [heq, OutputSpan.publishMergedByIndex]
    split
    · exact hdropped
    · refine publishAll_fits hdropped ?_
      have hlength := (forwardedTags_perm P c chunks inputSpans
        (override.getD (if c.hasWholeChunkTagWindow then processedIn else 1))).length_eq
      have hkept : (keptTags c (tagsWithin inputSpans
          (override.getD (if c.hasWholeChunkTagWindow then processedIn else 1)))).length ≤ (tagsWithin inputSpans
          (override.getD (if c.hasWholeChunkTagWindow then processedIn else 1))).length := by
        unfold keptTags
        split
        · exact le_rfl
        · exact (deduplicate_sublist _ _).length_le
      have hcollect := List.length_filterMap_le (collect P c chunks) (keptTags c (tagsWithin inputSpans
        (override.getD (if c.hasWholeChunkTagWindow then processedIn else 1))))
      rw [length_mergedByIndex, List.length_map, List.length_nil, hlength, Nat.zero_add]
      exact (Nat.add_le_add_left (hcollect.trans hkept) _).trans_lt hroom

theorem forwardRemainingInputTags_fits (P : PropertyMap μ) (c : Arguments) (hdropped : span.tagsDropped = 0)
    (hroom : span.tags.length + (tagsAhead inputSpans).length < span.room) :
    (forwardRemainingInputTags P c inputSpans span).tagsDropped = 0 := by
  unfold forwardRemainingInputTags
  split
  · exact hdropped
  · refine publishAll_fits hdropped ?_
    have hlength := (remainingTags_perm P c inputSpans span.streamIndex).length_eq
    have hkept : (keptAhead c inputSpans).length ≤ (tagsAhead inputSpans).length := by
      unfold keptAhead
      split
      · exact le_rfl
      · rw [(eraseDups_perm_dedup _).length_eq]
        exact (List.dedup_sublist _).length_le
    have hleaves := List.length_filterMap_le (leavesLast P span.streamIndex ·.map) (keptAhead c inputSpans)
    rw [List.length_map] at hlength ⊢
    omega

end Room

/-- Tags that several inputs hold alike leave once from a call, and once at the end of the stream, exactly where the
    forwarders find them alike. -/
theorem alike_tags_leave_once (P : PropertyMap μ) (c : Arguments) (hpropagates : c.noTagPropagation = false)
    (chunks : Nat × Nat) (inputSpans : List (InputSpan (μ × Bool)))
    (hmarks : ∀ span ∈ inputSpans, ∀ tag ∈ span.rawTags, tag.map.2 = true) (processedIn : Nat) (override : Option Nat)
    (span : OutputSpan (μ × Bool)) (hconnected : span.isConnected = true) (hown : ∀ tag ∈ span.tags, tag.map.2 = false) :
    ((forwardInputTags (marked P) c chunks inputSpans processedIn override span).tagsDropped = 0 →
      (LeaveOnce (tagsWithin inputSpans (override.getD (if c.hasWholeChunkTagWindow then processedIn else 1)))
          (leavesIn (marked P) c chunks span) (forwardInputTags (marked P) c chunks inputSpans processedIn override span) ↔
        FoundAlike (marked P) c chunks
          (tagsWithin inputSpans (override.getD (if c.hasWholeChunkTagWindow then processedIn else 1))) (lastOffset span))) ∧
    ((forwardRemainingInputTags (marked P) c inputSpans span).tagsDropped = 0 →
      (LeaveOnce (tagsAheadRelative inputSpans) (leavesLast (marked P) span.streamIndex ·.2)
          (forwardRemainingInputTags (marked P) c inputSpans span) ↔
        FoundAlikeAtEnd (marked P) c inputSpans span.streamIndex)) := by
  constructor
  · intro hfits
    exact leaveOnce_iff (fromInputs_forwardInputTags hpropagates hconnected hown hfits
      fun tag ht => marked_forwardedTags hmarks ht)
  · intro hfits
    exact leaveOnce_atEnd_iff (fromInputs_forwardRemainingInputTags hpropagates hmarks hconnected hown hfits)

/-! ### Two inputs -/

/-- A block that keeps the tags' offsets, with a number of input ports. -/
def withPorts (nInputPorts : Nat) : Arguments := ⟨false, false, false, false, true, false, nInputPorts⟩

/-- Two inputs that hold the same tags. -/
def alike (nTags : Nat) : List (InputSpan (List Key × Bool)) :=
  let tags := (List.range nTags).map fun i => ⟨i, ([.gain], true)⟩
  [⟨tags, 0, true, true⟩, ⟨tags, 0, true, true⟩]

def reserved : OutputSpan (List Key × Bool) := ⟨true, true, 0, 16, 32, [], 0, none⟩

theorem alike_marks (nTags : Nat) : ∀ span ∈ alike nTags, ∀ tag ∈ span.rawTags, tag.map.2 = true := by
  intro span hspan tag htag
  have hraw : span.rawTags = (List.range nTags).map fun i => ⟨i, ([.gain], true)⟩ := by
    simp only [alike, List.mem_cons, List.not_mem_nil, or_false, or_self] at hspan
    rw [hspan]
  rw [hraw] at htag
  obtain ⟨i, -, rfl⟩ := List.mem_map.mp htag
  rfl

theorem alike_tags_leave_once_two :
    LeaveOnce (tagsWithin (alike 1) 4) (leavesIn (marked keys) (withPorts 2) (1, 1) reserved)
        (forwardInputTags (marked keys) (withPorts 2) (1, 1) (alike 1) 4 none reserved) ∧
      LeaveOnce (tagsAheadRelative (alike 1)) (leavesLast (marked keys) reserved.streamIndex ·.2)
        (forwardRemainingInputTags (marked keys) (withPorts 2) (alike 1) reserved) := by
  obtain ⟨hcall, hend⟩ := alike_tags_leave_once keys (withPorts 2) rfl (1, 1) (alike 1) (alike_marks 1) 4 none reserved rfl
    fun _ h => by cases h
  constructor
  · exact (hcall (forwardInputTags_fits _ _ _ rfl (by decide))).mpr (foundAlike_of_few (by decide) (by decide) _)
  · refine (hend (forwardRemainingInputTags_fits _ _ rfl (by decide))).mpr ?_
    refine foundAlikeAtEnd_of_position 0 (by decide) (fun span hspan _ _ => ?_) 0
    simp only [alike, List.mem_cons, List.not_mem_nil, or_false, or_self] at hspan
    rw [hspan]

/-- The ninth of nine tags that both inputs hold leaves twice. -/
theorem ninth_leaves_twice :
    (forwardInputTags (marked keys) (withPorts 2) (1, 1) (alike 9) 9 none reserved).tagsDropped = 0 ∧
      ¬LeaveOnce (tagsWithin (alike 9) 9) (leavesIn (marked keys) (withPorts 2) (1, 1) reserved)
        (forwardInputTags (marked keys) (withPorts 2) (1, 1) (alike 9) 9 none reserved) := by
  have hfits : (forwardInputTags (marked keys) (withPorts 2) (1, 1) (alike 9) 9 none reserved).tagsDropped = 0 :=
    forwardInputTags_fits _ _ _ rfl (by decide)
  refine ⟨hfits, fun h => ?_⟩
  have hfound := (leaveOnce_iff (fromInputs_forwardInputTags (by rfl) (by rfl) (fun _ h => by cases h) hfits
    fun tag ht => marked_forwardedTags (alike_marks 9) ht)).mp h
  exact absurd (hfound.several (by decide) (8, ([.gain], true)) (by decide) (by decide)) (by decide)

end GnuRadio.ProcessBulk
