import GnuRadio.Block.StreamEnd
import GnuRadio.Theorems.Block.Resampling

/-! The end of a stream, and the work in front of it.

    A call processes a chunk exactly when the most chunks that it may take reach the minima of the ports. The end condition
    divides the samples in front of the end by the size of a chunk but leaves the remainder of the input minimum in, and it
    multiplies in 64 bits: `EndExact` says when neither matters. -/

namespace GnuRadio.WorkSize

/-! ### The least of several -/

theorem le_least_iff {values : List Nat} {a : Nat} : a ≤ least values ↔ a ≤ unlimited ∧ ∀ x ∈ values, a ≤ x := by
  induction values with
  | nil => simp [least]
  | cons x xs ih =>
    rw [least, List.foldr_cons, ← least, le_min_iff, ih, List.forall_mem_cons]
    exact and_left_comm

theorem least_le_unlimited (values : List Nat) : least values ≤ unlimited := (le_least_iff.1 le_rfl).1

theorem least_le {values : List Nat} {x : Nat} (hx : x ∈ values) : least values ≤ x := (le_least_iff.1 le_rfl).2 x hx

theorem least_lt (values : List Nat) : least values < 2 ^ 64 :=
  (least_le_unlimited values).trans_lt (by decide)

theorem least_mem {values : List Nat} (hne : values ≠ []) (hle : ∀ x ∈ values, x ≤ unlimited) : least values ∈ values := by
  induction values with
  | nil => exact absurd rfl hne
  | cons x xs ih =>
    have hx : x ≤ unlimited := hle x (.head _ ..)
    rw [least, List.foldr_cons, ← least]
    rcases xs with - | ⟨y, ys⟩
    · simp [least, min_eq_left hx]
    · have hmem := ih (List.cons_ne_nil y ys) fun z hz => hle z (List.mem_cons_of_mem x hz)
      rcases min_choice x (least (y :: ys)) with h | h
      · rw [h]; exact .head _ ..
      · rw [h]; exact List.mem_cons_of_mem x hmem

theorem greatest_lt {values : List Nat} (h : ∀ x ∈ values, x < 2 ^ 64) : greatest values < 2 ^ 64 := by
  induction values with
  | nil => decide
  | cons x xs ih =>
    rw [greatest, List.foldr_cons, ← greatest]
    exact max_lt (h x (.head _ ..)) (ih fun y hy => h y (List.mem_cons_of_mem x hy))

theorem StreamPort.minRequirement_lt (p : StreamPort) : p.minRequirement < 2 ^ 64 := by
  unfold StreamPort.minRequirement
  split
  · decide
  · exact p.minSamples_lt

/-! ### The tag that is found first -/

/-- The distances of the end-of-stream tags in view of an input. -/
def StreamInput.ends (p : StreamInput) : Set Nat :=
  {n | p.isConnected ∧ ∃ tag ∈ p.tags, p.readPosition ≤ tag.index ∧ tag.isEndOfStream ∧ n = tag.index - p.readPosition}

theorem StreamInput.isLeast_nextEosTag {p : StreamInput} {n : Nat} (h : p.nextEosTag = some n) : IsLeast p.ends n := by
  unfold StreamInput.nextEosTag StreamInput.nSamplesTo at h
  split at h
  · next hconnected =>
    obtain ⟨tag, hfind, rfl⟩ := Option.map_eq_some_iff.1 h
    have hmatch := List.find?_some hfind
    obtain ⟨-, before, after, htags, hbefore⟩ := List.find?_eq_some_iff_append.1 hfind
    simp only [defaultEOSTagMatcher, Bool.and_eq_true, decide_eq_true_eq] at hmatch
    refine ⟨⟨hconnected, tag, List.mem_of_find?_eq_some hfind, hmatch.1, hmatch.2, rfl⟩, ?_⟩
    rintro _ ⟨-, later, hlater, hposition, hend, rfl⟩
    have hsorted := p.sorted
    rw [htags, List.pairwise_append] at hsorted
    rw [htags, List.mem_append, List.mem_cons] at hlater
    rcases hlater with hlater | rfl | hlater
    · have hnot := hbefore later hlater
      simp [defaultEOSTagMatcher, hposition, hend] at hnot
    · exact le_rfl
    · exact Nat.sub_le_sub_right ((List.pairwise_cons.1 hsorted.2.1).1 later hlater) p.readPosition
  · cases h

theorem StreamInput.nextEosTag_isSome {p : StreamInput} {n : Nat} (h : n ∈ p.ends) : p.nextEosTag.isSome := by
  obtain ⟨hconnected, tag, htag, hposition, hend, -⟩ := h
  rw [StreamInput.nextEosTag, StreamInput.nSamplesTo, if_pos hconnected, Option.isSome_map, List.find?_isSome]
  exact ⟨tag, htag, by simp [defaultEOSTagMatcher, hposition, hend]⟩

theorem StreamInput.le_unlimited_of_mem_ends {p : StreamInput} {n : Nat} (h : n ∈ p.ends) : n ≤ unlimited := by
  obtain ⟨-, tag, -, -, -, rfl⟩ := h
  have hlt := tag.index_lt
  unfold unlimited
  omega

namespace SyncBlock

variable {b : SyncBlock} {work nSamples : Nat}

/-- The end that the call finds is the nearest one, when there is one. -/
theorem nextEosTag_cases : b.NearestEnd b.nextEosTag ∨
    (∀ n, ¬b.NearestEnd n) ∧ b.nextEosTag = unlimited := by
  by_cases hnone : b.inputs.filterMap (·.nextEosTag) = []
  · refine Or.inr ⟨?_, by rw [nextEosTag, hnone]; rfl⟩
    rintro n ⟨⟨p, hp, hn⟩, -⟩
    have hsome := StreamInput.nextEosTag_isSome hn
    rw [List.filterMap_eq_nil_iff.1 hnone p hp] at hsome
    cases hsome
  · have hle : ∀ x ∈ b.inputs.filterMap (·.nextEosTag), x ≤ unlimited := by
      intro x hx
      obtain ⟨p, -, hpx⟩ := List.mem_filterMap.1 hx
      exact StreamInput.le_unlimited_of_mem_ends (StreamInput.isLeast_nextEosTag hpx).1
    obtain ⟨p, hp, hpn⟩ := List.mem_filterMap.1 (least_mem hnone hle)
    refine Or.inl ⟨⟨p, hp, (StreamInput.isLeast_nextEosTag hpn).1⟩, ?_⟩
    rintro n ⟨q, hq, hn⟩
    obtain ⟨m, hm⟩ := Option.isSome_iff_exists.1 (StreamInput.nextEosTag_isSome hn)
    exact (least_le (List.mem_filterMap.2 ⟨q, hq, hm⟩)).trans ((StreamInput.isLeast_nextEosTag hm).2 hn)

theorem NearestEnd.eq_nextEosTag (h : b.NearestEnd nSamples) : nSamples = b.nextEosTag := by
  rcases nextEosTag_cases (b := b) with hnearest | ⟨hnone, -⟩
  · exact h.unique hnearest
  · exact absurd h (hnone nSamples)

/-! ### What a call is sized by -/

def availableToProcess (b : SyncBlock) : Nat :=
  min (min (min (min b.maxSyncIn b.mergedBlockLimit) b.maxSyncAvailableIn) b.tagLimit) b.nextEosTag

def availableToPublish (b : SyncBlock) : Nat := min b.maxSyncOut b.maxSyncAvailableOut

theorem minSyncIn_lt (b : SyncBlock) : b.minSyncIn < 2 ^ 64 :=
  greatest_lt (List.forall_mem_map.2 fun p _ => p.toStreamPort.minRequirement_lt)

theorem minSyncOut_lt (b : SyncBlock) : b.minSyncOut < 2 ^ 64 :=
  greatest_lt (List.forall_mem_map.2 fun p _ => p.minRequirement_lt)

theorem min_nextEosTag_lt (b : SyncBlock) (n : Nat) : min n b.nextEosTag < 2 ^ 64 :=
  (min_le_right _ _).trans_lt (least_lt _)

theorem availableToPublish_lt (b : SyncBlock) : b.availableToPublish < 2 ^ 64 := (min_le_left _ _).trans_lt (least_lt _)

def bounds (b : SyncBlock) : Bounds where
  minSyncIn := min b.minSyncIn b.nextEosTag
  maxSyncIn := b.availableToProcess
  minSyncOut := b.minSyncOut
  maxSyncOut := b.availableToPublish
  minSyncIn_lt := b.min_nextEosTag_lt _
  maxSyncIn_lt := b.min_nextEosTag_lt _
  minSyncOut_lt := b.minSyncOut_lt
  maxSyncOut_lt := b.availableToPublish_lt

theorem skip_eq (b : SyncBlock) (available : Nat) :
    inputSamplesToSkipBeforeNextChunk b.chunks.toChunks b.strideCounter available = (0, b.strideCounter) :=
  if_neg fun h => b.noStride h.1 h.2.1

theorem tagLimit_eq (b : SyncBlock) : b.tagLimit =
    if b.chunks.inputChunkSize ≤ (if b.minSyncIn ≤ b.nextTag then b.nextTag else unlimited) then
      if b.minSyncIn ≤ b.nextTag then b.nextTag else unlimited
    else b.chunks.inputChunkSize := by
  unfold tagLimit
  generalize (if b.minSyncIn ≤ b.nextTag then b.nextTag else unlimited) = limit
  split
  · next h => exact max_eq_left h
  · next h => exact max_eq_right (Nat.le_of_not_le h)

/-- What `computeSampleLimits()` hands to `computeResampling()`. -/
theorem sampleLimits_size (b : SyncBlock) (work : Nat) :
    let r := computeResampling b.chunks.toChunks b.bounds.minSyncIn b.bounds.maxSyncIn b.bounds.minSyncOut
      b.bounds.maxSyncOut work
    (b.sampleLimits work).resampledStatus = r.status ∧ (b.sampleLimits work).resampledIn = r.resampledIn ∧
      (b.sampleLimits work).resampledOut = r.resampledOut := by
  simp only [sampleLimits, computeSampleLimits, ports, skip_eq, Nat.sub_zero, bounds, availableToProcess,
    availableToPublish, tagLimit_eq, and_self]

theorem isEosPresent_iff (b : SyncBlock) (work : Nat) : (b.sampleLimits work).isEosPresent ↔
    b.nextEosTag < b.chunks.inputChunkSize ∨ b.nextEosTag < b.minSyncIn ∨
      b.chunks.outputChunkSize * (b.nextEosTag / b.chunks.inputChunkSize) % 2 ^ 64 < b.minSyncOut := by
  have hpos := b.chunks.input_pos
  simp only [sampleLimits, computeSampleLimits, ports, skip_eq, Nat.sub_zero, Bool.not_false, Bool.true_and,
    decide_eq_true_eq]
  constructor
  · rintro (h | h | h | h)
    · exact Or.inl (h ▸ hpos)
    · exact Or.inr (Or.inl h)
    · exact Or.inl h
    · exact Or.inr (Or.inr h)
  · rintro (h | h | h)
    · exact Or.inr (Or.inr (Or.inl h))
    · exact Or.inr (Or.inl h)
    · exact Or.inr (Or.inr (Or.inr h))

/-- A size is all chunks that fit, when some number does. -/
theorem processes_iff_fits (b : SyncBlock) (work : Nat) : b.Processes work ↔ ∃ n, Fits b.chunks.toChunks b.bounds n := by
  obtain ⟨hstatus, hin, hout⟩ := sampleLimits_size b work
  rw [Processes, hstatus, hin, hout]
  have hsized := computeResampling_sized b.chunks b.bounds work
  generalize computeResampling b.chunks.toChunks b.bounds.minSyncIn b.bounds.maxSyncIn b.bounds.minSyncOut
    b.bounds.maxSyncOut work = r at hsized
  cases hsized with
  | refused none status => exact ⟨fun h => absurd h.1 status, fun ⟨n, h⟩ => absurd h (none n)⟩
  | chunks n fits pos eq =>
    subst eq
    constructor
    · rintro ⟨-, hpos, -⟩
      exact ⟨n, fits (Nat.pos_of_mul_pos_right hpos)⟩
    · intro h
      exact ⟨rfl, Nat.mul_pos (pos h) b.chunks.input_pos, Nat.mul_pos (pos h) b.chunks.output_pos⟩

/-- The most chunks of a call. -/
def mostChunks (b : SyncBlock) : Nat :=
  min (b.availableToProcess / b.chunks.inputChunkSize) (b.availableToPublish / b.chunks.outputChunkSize)

theorem processes_iff (b : SyncBlock) (work : Nat) : b.Processes work ↔ 1 ≤ b.mostChunks ∧
    min b.minSyncIn b.nextEosTag ≤ b.mostChunks * b.chunks.inputChunkSize ∧
      b.minSyncOut ≤ b.mostChunks * b.chunks.outputChunkSize := by
  rw [processes_iff_fits]
  constructor
  · rintro ⟨n, hn⟩
    have hle : n ≤ b.mostChunks := le_min ((Nat.le_div_iff_mul_le b.chunks.input_pos).2 hn.maxIn)
      ((Nat.le_div_iff_mul_le b.chunks.output_pos).2 hn.maxOut)
    exact ⟨hn.one_le.trans hle, hn.minIn.trans (Nat.mul_le_mul_right _ hle), hn.minOut.trans (Nat.mul_le_mul_right _ hle)⟩
  · rintro ⟨hone, hin, hout⟩
    exact ⟨b.mostChunks, hone, hin,
      (Nat.mul_le_mul_right _ (min_le_left _ _)).trans (Nat.div_mul_le_self _ _), hout,
      (Nat.mul_le_mul_right _ (min_le_right _ _)).trans (Nat.div_mul_le_self _ _),
      fun hs ha _ => absurd ha (b.noStride hs)⟩

/-! ### In front of an end -/

theorem exists_admits_iff : (∃ k, b.Admits nSamples k) ↔ b.chunks.inputChunkSize ≤ nSamples ∧
    b.minSyncIn ≤ nSamples / b.chunks.inputChunkSize * b.chunks.inputChunkSize ∧
      b.minSyncOut ≤ nSamples / b.chunks.inputChunkSize * b.chunks.outputChunkSize := by
  constructor
  · rintro ⟨k, hone, hle, hin, hout⟩
    have hk : k ≤ nSamples / b.chunks.inputChunkSize := (Nat.le_div_iff_mul_le b.chunks.input_pos).2 hle
    refine ⟨(Nat.le_mul_of_pos_left _ hone).trans hle, hin.trans (Nat.mul_le_mul_right _ hk), ?_⟩
    exact hout.trans (Nat.mul_le_mul_right _ hk)
  · rintro ⟨hle, hin, hout⟩
    exact ⟨nSamples / b.chunks.inputChunkSize, (Nat.one_le_div_iff b.chunks.input_pos).2 hle, Nat.div_mul_le_self _ _,
      hin, hout⟩

theorem ReachesEnd.le_available (h : b.ReachesEnd nSamples) (hle : nSamples ≤ unlimited) :
    nSamples ≤ b.maxSyncAvailableIn :=
  le_least_iff.2 ⟨hle, List.forall_mem_map.2 h.1⟩

/-- The outputs that have room for every chunk cut no more than their maxima do. -/
theorem ReachesEnd.min_publish (h : b.ReachesEnd nSamples) {nChunks : Nat}
    (hle : nChunks ≤ nSamples / b.chunks.inputChunkSize) :
    min nChunks (b.availableToPublish / b.chunks.outputChunkSize) = min nChunks (b.maxSyncOut / b.chunks.outputChunkSize) := by
  rcases eq_or_ne b.outputs [] with hnil | hne
  · have hall : b.availableToPublish = b.maxSyncOut := by
      simp [availableToPublish, maxSyncOut, maxSyncAvailableOut, hnil]
    rw [hall]
  · obtain ⟨p, hp⟩ := List.exists_mem_of_ne_nil _ hne
    have hroom : nSamples / b.chunks.inputChunkSize * b.chunks.outputChunkSize ≤ b.maxSyncAvailableOut := by
      refine le_least_iff.2 ⟨(h.2 p hp).trans ?_, List.forall_mem_map.2 h.2⟩
      have hlt := p.available_lt
      unfold StreamPort.nAvailable
      split
      · exact le_rfl
      · exact Nat.le_sub_one_of_lt hlt
    have hdiv : nChunks ≤ b.maxSyncAvailableOut / b.chunks.outputChunkSize :=
      hle.trans ((Nat.le_div_iff_mul_le b.chunks.output_pos).2 hroom)
    have hsplit : b.availableToPublish / b.chunks.outputChunkSize =
        min (b.maxSyncOut / b.chunks.outputChunkSize) (b.maxSyncAvailableOut / b.chunks.outputChunkSize) :=
      Monotone.map_min fun _ _ hxy => Nat.div_le_div_right hxy
    rw [hsplit, ← min_assoc, min_eq_left ((min_le_left _ _).trans hdiv)]

theorem mostChunks_eq (h : b.NearestEnd nSamples) (hreaches : b.ReachesEnd nSamples) :
    b.mostChunks = b.chunksTo nSamples := by
  have hEnd : nSamples = b.nextEosTag := h.eq_nextEosTag
  have hle : nSamples ≤ unlimited := hEnd ▸ least_le_unlimited _
  have hmerged : b.mergedBlockLimit = unlimited := by
    obtain ⟨p, hp, -⟩ := h.1
    exact b.mergedBlockLimit_eq (List.ne_nil_of_mem hp)
  have hprocess : b.availableToProcess = min (min b.maxSyncIn b.tagLimit) nSamples := by
    have havailable := hreaches.le_available hle
    have hmax : b.maxSyncIn ≤ unlimited := least_le_unlimited _
    rw [availableToProcess, hmerged, ← hEnd, min_eq_left hmax]
    omega
  rw [mostChunks, hprocess, chunksTo, hreaches.min_publish (Nat.div_le_div_right (min_le_right _ _))]

theorem processes_iff_admits (h : b.NearestEnd nSamples) (hreaches : b.ReachesEnd nSamples)
    (hadmits : ∃ k, b.Admits nSamples k) (work : Nat) : b.Processes work ↔ b.Admits nSamples (b.chunksTo nSamples) := by
  have hmin : min b.minSyncIn b.nextEosTag = b.minSyncIn := by
    obtain ⟨k, -, hle, hin, -⟩ := hadmits
    exact min_eq_left (h.eq_nextEosTag ▸ hin.trans hle)
  have hle : b.chunksTo nSamples * b.chunks.inputChunkSize ≤ nSamples :=
    (Nat.mul_le_mul_right _ (min_le_left _ _)).trans ((Nat.div_mul_le_self _ _).trans (min_le_right _ _))
  rw [processes_iff, hmin, mostChunks_eq h hreaches]
  exact ⟨fun ⟨hone, hin, hout⟩ => ⟨hone, hle, hin, hout⟩, fun ⟨hone, _, hin, hout⟩ => ⟨hone, hin, hout⟩⟩

/-- The end condition against the whole chunks in front of the end. -/
theorem isEosPresent_exact_iff (h : b.NearestEnd nSamples) (work : Nat) :
    ((b.sampleLimits work).isEosPresent ↔ ¬∃ k, b.Admits nSamples k) ↔
      (b.chunks.inputChunkSize ≤ nSamples → b.minSyncIn ≤ nSamples →
        b.minSyncIn ≤ nSamples / b.chunks.inputChunkSize * b.chunks.inputChunkSize ∨
          b.chunks.outputChunkSize * (nSamples / b.chunks.inputChunkSize) % 2 ^ 64 < b.minSyncOut) ∧
      ((∃ k, b.Admits nSamples k) →
        b.minSyncOut ≤ b.chunks.outputChunkSize * (nSamples / b.chunks.inputChunkSize) % 2 ^ 64) := by
  have hwhole : nSamples / b.chunks.inputChunkSize * b.chunks.inputChunkSize ≤ nSamples := Nat.div_mul_le_self _ _
  have hwrap : b.chunks.outputChunkSize * (nSamples / b.chunks.inputChunkSize) % 2 ^ 64 ≤
      nSamples / b.chunks.inputChunkSize * b.chunks.outputChunkSize := by
    rw [Nat.mul_comm (nSamples / b.chunks.inputChunkSize)]
    exact Nat.mod_le _ _
  rw [isEosPresent_iff, ← h.eq_nextEosTag, exists_admits_iff]
  generalize b.chunks.outputChunkSize * (nSamples / b.chunks.inputChunkSize) % 2 ^ 64 = published at *
  generalize nSamples / b.chunks.inputChunkSize * b.chunks.inputChunkSize = whole at *
  constructor
  · intro hexact
    refine ⟨fun hin hmin => ?_, fun hadmits => ?_⟩
    · by_contra hnot
      have hend := hexact.2 fun hadmits => hnot (Or.inl hadmits.2.1)
      omega
    · have hgo := mt hexact.1 (not_not_intro hadmits)
      omega
  · rintro ⟨hwholeChunks, hunwrapped⟩
    constructor
    · rintro hend ⟨hin, hmin, hout⟩
      have hlt := hunwrapped ⟨hin, hmin, hout⟩
      omega
    · intro hnot
      by_contra hgo
      have hin : b.chunks.inputChunkSize ≤ nSamples := by omega
      have hmin : b.minSyncIn ≤ nSamples := by omega
      rcases hwholeChunks hin hmin with hle | hlt
      · exact hnot ⟨hin, hle, by omega⟩
      · omega

/-- The end of a stream is decided exactly, and a block in front of it makes progress, when its whole chunks agree with its
    minima and nothing cuts them. -/
theorem end_decided_iff (b : SyncBlock) (requestedWork : Nat) : b.EndDecided requestedWork ↔ b.EndExact := by
  rcases nextEosTag_cases (b := b) with hEnd | ⟨hnone, hunlimited⟩
  · have hunique : ∀ n, b.NearestEnd n → n = b.nextEosTag := fun n hn => hn.eq_nextEosTag
    have hexact : ((b.sampleLimits requestedWork).isEosPresent ↔ ∃ n, b.NearestEnd n ∧ ¬∃ k, b.Admits n k) ↔
        ((b.sampleLimits requestedWork).isEosPresent ↔ ¬∃ k, b.Admits b.nextEosTag k) := by
      refine iff_congr Iff.rfl ⟨?_, fun h => ⟨_, hEnd, h⟩⟩
      rintro ⟨n, hn, hnot⟩
      rwa [hunique n hn] at hnot
    constructor
    · rintro ⟨exact_, progress⟩
      have hparts := (isEosPresent_exact_iff hEnd requestedWork).1 (hexact.1 exact_)
      refine ⟨fun hno => absurd hEnd (hno _), ?_, ?_, ?_⟩
      · intro n hn
        rw [hunique n hn]
        exact hparts.1
      · intro n hn
        rw [hunique n hn]
        exact hparts.2
      · intro n hn hadmits hreaches
        rw [hunique n hn] at hadmits hreaches ⊢
        rcases progress _ hEnd hreaches with hend | hgo
        · exact absurd hadmits ((hexact.1 exact_).1 hend)
        · exact (processes_iff_admits hEnd hreaches hadmits requestedWork).1 hgo
    · rintro ⟨-, wholeChunks, unwrapped, uncut⟩
      have hends := (isEosPresent_exact_iff hEnd requestedWork).2 ⟨wholeChunks _ hEnd, unwrapped _ hEnd⟩
      refine ⟨hexact.2 hends, fun n hn hreaches => ?_⟩
      rw [hunique n hn] at hreaches
      by_cases hadmits : ∃ k, b.Admits b.nextEosTag k
      · exact Or.inr ((processes_iff_admits hEnd hreaches hadmits requestedWork).2 (uncut _ hEnd hadmits hreaches))
      · exact Or.inl (hends.2 hadmits)
  · have hend : (b.sampleLimits requestedWork).isEosPresent ↔
        b.chunks.outputChunkSize * (unlimited / b.chunks.inputChunkSize) % 2 ^ 64 < b.minSyncOut := by
      have hchunk : b.chunks.inputChunkSize ≤ unlimited :=
        b.chunks.input_lt.le.trans (by decide)
      have hmin : b.minSyncIn ≤ unlimited := Nat.le_sub_one_of_lt b.minSyncIn_lt
      rw [isEosPresent_iff, hunlimited]
      constructor
      · rintro (h | h | h)
        · exact absurd hchunk (Nat.not_le_of_lt h)
        · exact absurd hmin (Nat.not_le_of_lt h)
        · exact h
      · exact fun h => Or.inr (Or.inr h)
    constructor
    · rintro ⟨exact_, -⟩
      refine ⟨fun _ => Nat.le_of_not_lt fun hlt => ?_, fun n hn => absurd hn (hnone n), fun n hn => absurd hn (hnone n),
        fun n hn => absurd hn (hnone n)⟩
      obtain ⟨n, hn, -⟩ := exact_.1 (hend.2 hlt)
      exact hnone n hn
    · rintro ⟨noEnd, -, -, -⟩
      refine ⟨⟨fun h => ?_, fun ⟨n, hn, _⟩ => absurd hn (hnone n)⟩, fun n hn => absurd hn (hnone n)⟩
      exact absurd (hend.1 h) (Nat.not_lt_of_le (noEnd hnone))

/-- Chunks of four, a minimum of six, and the end seven samples ahead: no whole chunk reaches the minimum, but the minimum is
    below the seven. -/
def sixOfFour : SyncBlock where
  chunks := ⟨⟨true, false, 4, 1, 0⟩, by decide, by decide, by decide, by decide, by decide⟩
  noStride := by decide
  strideCounter := 0
  inputs := [⟨⟨false, true, 6, unlimited, 7, by decide, by decide, by decide⟩, 0, [⟨7, true, by decide⟩], by decide⟩]
  outputs := [⟨false, true, 1, unlimited, 100, by decide, by decide, by decide⟩]
  hasAsyncOut := false
  mergedBlockLimit := unlimited
  mergedBlockLimit_lt := by decide
  mergedBlockLimit_eq := fun _ => rfl

theorem remainder_hides_end : ¬sixOfFour.EndDecided 0 := by
  intro h
  have hEnd : sixOfFour.NearestEnd sixOfFour.nextEosTag :=
    nextEosTag_cases.resolve_right fun hnone => absurd hnone.2 (by decide)
  have hno : ¬∃ k, sixOfFour.Admits sixOfFour.nextEosTag k := by
    rw [exists_admits_iff]
    decide
  exact absurd (h.exact.2 ⟨_, hEnd, hno⟩) (by decide)

end SyncBlock

end GnuRadio.WorkSize
