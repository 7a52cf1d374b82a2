import GnuRadio.Theorems.Block.StreamEnd

/-! What an ordinary tag does to the size of a call.

    With the tag rings empty a call takes `allChunks`. The next tag cuts them to `chunksToTag`, unless it is nearer than the
    minimum of the inputs: the cut is checked against that minimum in samples, and not against the minimum of the outputs. -/

namespace GnuRadio.WorkSize

namespace SyncBlock

variable {b : SyncBlock} {work : Nat}

/-! ### No end in view -/

theorem Ordinary.nextEosTag (h : b.Ordinary) : b.nextEosTag = unlimited := by
  rcases nextEosTag_cases (b := b) with hEnd | hnone
  · obtain ⟨p, hp, -, tag, htag, -, hend, -⟩ := hEnd.1
    exact absurd hend (h p hp tag htag)
  · exact hnone.2

/-- The chunks reach the minima of the ports. -/
def Reaches (b : SyncBlock) (nChunks : Nat) : Prop :=
  1 ≤ nChunks ∧ b.minSyncIn ≤ nChunks * b.chunks.inputChunkSize ∧ b.minSyncOut ≤ nChunks * b.chunks.outputChunkSize

theorem processes_iff_reaches (h : b.nextEosTag = unlimited) (work : Nat) : b.Processes work ↔ b.Reaches b.mostChunks := by
  have hmin : b.minSyncIn ≤ unlimited := Nat.le_sub_one_of_lt b.minSyncIn_lt
  rw [processes_iff, h, min_eq_left hmin, Reaches]

theorem allChunks_le (b : SyncBlock) : b.allChunks ≤ unlimited / b.chunks.inputChunkSize :=
  (min_le_left _ _).trans (Nat.div_le_div_right ((min_le_right _ _).trans (least_le_unlimited _)))

theorem mostChunks_eq_min (h : b.nextEosTag = unlimited) :
    b.mostChunks = min b.allChunks (b.tagLimit / b.chunks.inputChunkSize) := by
  have hall : min (min b.maxSyncIn b.mergedBlockLimit) b.maxSyncAvailableIn ≤ unlimited :=
    (min_le_right _ _).trans (least_le_unlimited _)
  have hprocess : b.availableToProcess =
      min (min (min b.maxSyncIn b.mergedBlockLimit) b.maxSyncAvailableIn) b.tagLimit := by
    rw [availableToProcess, h]
    exact min_eq_left ((min_le_left _ _).trans hall)
  have hsplit : ∀ x y, min x y / b.chunks.inputChunkSize = min (x / b.chunks.inputChunkSize) (y / b.chunks.inputChunkSize) :=
    fun x y => Monotone.map_min fun _ _ hxy => Nat.div_le_div_right hxy
  rw [mostChunks, hprocess, hsplit, allChunks, availableToPublish]
  exact min_right_comm _ _ _

/-! ### The cut at the next tag -/

theorem mostChunks_of_near (h : b.nextEosTag = unlimited) (hnear : b.nextTag < b.minSyncIn) :
    b.mostChunks = b.allChunks := by
  rw [mostChunks_eq_min h, tagLimit, if_neg (Nat.not_le_of_lt hnear)]
  exact min_eq_left ((b.allChunks_le).trans (Nat.div_le_div_right (le_max_left _ _)))

theorem mostChunks_of_far (h : b.nextEosTag = unlimited) (hfar : b.minSyncIn ≤ b.nextTag) :
    b.mostChunks = min b.allChunks b.chunksToTag := by
  have hdiv : max b.nextTag b.chunks.inputChunkSize / b.chunks.inputChunkSize = b.chunksToTag := by
    have hsplit : max b.nextTag b.chunks.inputChunkSize / b.chunks.inputChunkSize =
        max (b.nextTag / b.chunks.inputChunkSize) (b.chunks.inputChunkSize / b.chunks.inputChunkSize) :=
      Monotone.map_max fun _ _ hxy => Nat.div_le_div_right hxy
    rw [hsplit, Nat.div_self b.chunks.input_pos, max_comm, chunksToTag]
  rw [mostChunks_eq_min h, tagLimit, if_pos hfar, hdiv]

/-! ### Without tags -/

theorem withoutTags_nextTag (b : SyncBlock) : b.withoutTags.nextTag = unlimited := by
  have hnone : b.withoutTags.inputs.filterMap (·.nextTag) = [] := by
    simp [withoutTags, StreamInput.nextTag, StreamInput.nSamplesTo]
  rw [nextTag, hnone]
  rfl

theorem withoutTags_ordinary (b : SyncBlock) : b.withoutTags.Ordinary := by
  intro p hp tag htag
  obtain ⟨q, -, rfl⟩ := List.mem_map.1 hp
  cases htag

theorem withoutTags_map (b : SyncBlock) (f : StreamPort → Nat) :
    b.withoutTags.inputs.map (fun p => f p.toStreamPort) = b.inputs.map fun p => f p.toStreamPort := by
  rw [withoutTags, List.map_map]
  rfl

theorem withoutTags_minSyncIn (b : SyncBlock) : b.withoutTags.minSyncIn = b.minSyncIn :=
  congrArg greatest (b.withoutTags_map StreamPort.minRequirement)

theorem withoutTags_allChunks (b : SyncBlock) : b.withoutTags.allChunks = b.allChunks := by
  have hmax : b.withoutTags.maxSyncIn = b.maxSyncIn := congrArg least (b.withoutTags_map StreamPort.maxSamples)
  have havailable : b.withoutTags.maxSyncAvailableIn = b.maxSyncAvailableIn :=
    congrArg least (b.withoutTags_map StreamPort.nAvailable)
  rw [allChunks, hmax, havailable]
  rfl

theorem withoutTags_processes_iff (b : SyncBlock) (work : Nat) : b.withoutTags.Processes work ↔ b.Reaches b.allChunks := by
  have hend := b.withoutTags_ordinary.nextEosTag
  have hfar : b.withoutTags.minSyncIn ≤ b.withoutTags.nextTag := by
    rw [withoutTags_nextTag]
    exact Nat.le_sub_one_of_lt b.withoutTags.minSyncIn_lt
  have hcut : b.withoutTags.allChunks ≤ b.withoutTags.chunksToTag := by
    rw [chunksToTag, withoutTags_nextTag]
    exact b.withoutTags.allChunks_le.trans (le_max_right _ _)
  rw [processes_iff_reaches hend, mostChunks_of_far hend hfar, min_eq_left hcut, withoutTags_allChunks]
  simp only [Reaches, withoutTags_minSyncIn]
  rfl

/-- Where a call processes a chunk with the tag rings empty, it does so with ordinary tags in them exactly when the next tag
    is near enough to be passed, or far enough to cut nothing, or leaves the chunks that the minima ask for. -/
theorem tag_stalls_unless (b : SyncBlock) (requestedWork : Nat) (hordinary : b.Ordinary)
    (hgo : b.withoutTags.Processes requestedWork) : b.Processes requestedWork ↔ b.TagAllows := by
  have hend := hordinary.nextEosTag
  have hall : b.Reaches b.allChunks := (withoutTags_processes_iff b requestedWork).1 hgo
  rw [processes_iff_reaches hend]
  rcases Nat.lt_or_ge b.nextTag b.minSyncIn with hnear | hfar
  · rw [mostChunks_of_near hend hnear]
    exact ⟨fun _ => Or.inl hnear, fun _ => hall⟩
  · rw [mostChunks_of_far hend hfar]
    rcases Nat.le_total b.allChunks b.chunksToTag with hle | hle
    · rw [min_eq_left hle]
      exact ⟨fun _ => Or.inr (Or.inl hle), fun _ => hall⟩
    · rw [min_eq_right hle]
      constructor
      · rintro ⟨-, hin, hout⟩
        exact Or.inr (Or.inr ⟨hin, hout⟩)
      · rintro (hlt | hall_le | ⟨hin, hout⟩)
        · exact absurd hfar (Nat.not_le_of_lt hlt)
        · rwa [Nat.le_antisymm hle hall_le]
        · exact ⟨le_max_left _ _, hin, hout⟩

def oneToOne : Chunks := ⟨false, false, 1, 1, 0⟩

theorem oneToOne_lt : 1 < 2 ^ 32 := by
  decide

theorem oneToOne_chunks : oneToOne.resampling = false → oneToOne.inputChunkSize = 1 ∧ oneToOne.outputChunkSize = 1 := by
  decide

theorem oneToOne_noStride : oneToOne.strideEnabled → ¬oneToOne.isStrideActiveAndNotDefault := by
  decide

theorem one_lt_word : 1 < 2 ^ 64 := by
  decide

theorem ten_lt_word : 10 < 2 ^ 64 := by
  decide

theorem twenty_lt_word : 20 < 2 ^ 64 := by
  decide

theorem hundred_lt_word : 100 < 2 ^ 64 := by
  decide

theorem unlimited_lt_word : unlimited < 2 ^ 64 := by
  decide

/-- One sample in for one out, twenty samples in the ring and a minimum of ten at the output, with a tag ahead. -/
def tenAtOnce (tag : RingTag) : SyncBlock where
  chunks := ⟨oneToOne, Nat.zero_lt_one, oneToOne_lt, Nat.zero_lt_one, oneToOne_lt, oneToOne_chunks⟩
  noStride := oneToOne_noStride
  strideCounter := 0
  inputs := [⟨⟨false, true, 1, unlimited, 20, one_lt_word, unlimited_lt_word, twenty_lt_word⟩, 0,
    [tag], List.pairwise_singleton _ _⟩]
  outputs := [⟨false, true, 10, unlimited, 100, ten_lt_word, unlimited_lt_word, hundred_lt_word⟩]
  hasAsyncOut := false
  mergedBlockLimit := unlimited
  mergedBlockLimit_lt := unlimited_lt_word
  mergedBlockLimit_eq := fun _ => rfl

theorem tenAtOnce_ordinary {tag : RingTag} (h : tag.isEndOfStream = false) : (tenAtOnce tag).Ordinary := by
  intro p hp t ht
  rw [tenAtOnce, List.mem_singleton] at hp
  subst hp
  rw [List.mem_singleton.1 ht, h]
  exact Bool.false_ne_true

theorem tag_stalls_unless_ten : (tenAtOnce ⟨12, false, by decide⟩).Processes 0 ↔
    (tenAtOnce ⟨12, false, by decide⟩).TagAllows :=
  tag_stalls_unless (tenAtOnce ⟨12, false, by decide⟩) 0 (tenAtOnce_ordinary rfl) (by decide)

/-- A tag five samples ahead stops a call that would take twenty. -/
theorem tag_stalls_ten : (tenAtOnce ⟨5, false, by decide⟩).Ordinary ∧
    (tenAtOnce ⟨5, false, by decide⟩).withoutTags.Processes 0 ∧ ¬(tenAtOnce ⟨5, false, by decide⟩).Processes 0 :=
  ⟨tenAtOnce_ordinary rfl, by decide, by decide⟩

end SyncBlock

end GnuRadio.WorkSize
